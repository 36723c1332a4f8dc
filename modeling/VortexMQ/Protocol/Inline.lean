import VortexMQ.Coding.Fields
import VortexMQ.Protocol.BufferedReader

/-!
# Two ways to write a command

A command is a line of words, or an array of bulk strings. The two are read by different code: a
line is put together from pieces as long as the buffer and taken apart at its white space, an array
is read by the lengths that it announces. For words that can be written in a line, both come to the
same.
-/

namespace VortexMQ

namespace Resp

/-- A line is put together again from its pieces, however long it is. -/
theorem continueLine_append : ∀ (n : ℕ) {line : Bytes}, line.length ≤ n → 10 ∉ line →
    ∀ pieces rest : Bytes,
      continueLine pieces (line ++ 13 :: 10 :: rest) = some (pieces ++ line, rest) := by
  intro n
  induction n with
  | zero =>
    intro line hlen hlf pieces rest
    obtain rfl := List.length_eq_zero_iff.mp (Nat.le_zero.mp hlen)
    rw [continueLine_eq, Stream.readLine_append hlf (by decide)]
    rfl
  | succ n ih =>
    intro line hlen hlf pieces rest
    rcases Nat.lt_or_ge bufferSize (line.length + 2) with hlong | hfits
    · obtain ⟨k, hpos, hle, hread⟩ := Stream.readLine_piece hlf (by decide) hlong rest
      have hdrop : (line.drop k).length ≤ n := by
        rw [List.length_drop]
        omega
      rw [continueLine_eq, hread, Option.bind_some, if_pos rfl,
        ih hdrop (fun h ↦ hlf (List.mem_of_mem_drop h)), List.append_assoc, List.take_append_drop]
    · rw [continueLine_eq, Stream.readLine_append hlf hfits]
      rfl

/-! ## Commands in a line -/

/-- A command that can be written in a line: the words, and the blanks in front of each but the
first. -/
structure InlineCommand where
  word : Bytes
  more : List (Bytes × Bytes)
  words : ∀ t ∈ word :: more.map Prod.snd, t ≠ [] ∧ t.length ≤ maxBulkLength ∧ Text.Solid t
  blanks : ∀ p ∈ more, p.1 ≠ [] ∧ ∀ b ∈ p.1, b = 32 ∨ b = 9
  /-- The line does not announce an array. -/
  inline : word.head? ≠ some 42
  le : (word :: more.map Prod.snd).length ≤ maxCommandArgs

namespace InlineCommand

variable (c : InlineCommand)

def tokens : List Bytes := c.word :: c.more.map Prod.snd

/-- The line, with its end. -/
def bytes : Bytes := Text.spaced c.word c.more ++ crlf

/-- What is meant. -/
def command (upper : Char → Char) : Command := ⟨Text.toUpper upper c.word, c.tokens.tail.map some⟩

def request : Request where
  words := c.tokens.pmap Subtype.mk fun t ht ↦ (c.words t ht).2.1
  ne := List.cons_ne_nil _ _
  le := by
    rw [List.length_pmap]
    exact c.le

theorem elements_request : c.request.elements = c.tokens.map some := by
  rw [Request.elements, request, List.map_pmap]
  exact List.pmap_eq_map _

private theorem command_request (upper : Char → Char) :
    c.request.command upper = c.command upper := by
  refine congrArg (Command.mk (Text.toUpper upper c.word)) ?_
  exact (congrArg List.tail c.elements_request :)

private theorem notMem_spaced : 10 ∉ Text.spaced c.word c.more := by
  have hword : ∀ t ∈ c.tokens, 10 ∉ t := fun t ht h ↦
    absurd ((c.words t ht).2.2.isSpaceByte_eq h (by decide)) (by decide)
  rw [Text.spaced, List.mem_append, not_or, List.mem_flatMap]
  refine ⟨hword c.word List.mem_cons_self, ?_⟩
  rintro ⟨p, hp, h⟩
  rcases List.mem_append.mp h with h | h
  · exact absurd ((c.blanks p hp).2 10 h) (by decide)
  · exact hword p.2 (List.mem_cons_of_mem _ (List.mem_map_of_mem hp)) h

private theorem fields_spaced_eq : Text.fields (Text.spaced c.word c.more) = c.tokens := by
  refine Text.fields_spaced (fun t ht ↦ ?_) fun p hp ↦ ⟨(c.blanks p hp).1, fun b hb ↦ ?_⟩
  · exact ⟨(c.words t ht).1, (c.words t ht).2.2⟩
  · rcases (c.blanks p hp).2 b hb with rfl | rfl
    · rfl
    · rfl

private theorem readCommand_line (upper : Char → Char) (rest : Bytes) :
    readCommand upper (c.bytes ++ rest) = .ok (c.command upper, rest) := by
  have hne : c.word ≠ [] := (c.words c.word List.mem_cons_self).1
  have hline : Text.spaced c.word c.more ≠ [] := List.append_ne_nil_of_left_ne_nil hne _
  have hhead : (Text.spaced c.word c.more).head? ≠ some 42 := by
    rw [Text.spaced, List.head?_append_of_ne_nil _ hne]
    exact c.inline
  have hread : continueLine [] (c.bytes ++ rest) = some (Text.spaced c.word c.more, rest) := by
    rw [bytes, List.append_assoc]
    exact continueLine_append _ le_rfl c.notMem_spaced [] rest
  rw [readCommand_eq, hread]
  simp only [commandOfLine, if_neg hline, if_pos hhead, fields_spaced_eq]
  rfl

/-- **Lines and arrays agree.** The words of a command are read from a line, however long it is and
whatever blanks stand between them, as they are read from the array that `WriteArray` writes; and
both calls leave what follows. -/
theorem readCommand_inline_array (upper : Char → Char) (rest : Bytes) :
    readCommand upper (c.bytes ++ rest) = .ok (c.command upper, rest) ∧
      readCommand upper ((Writer.new.writeArray (some (c.tokens.map some))).flush.sent ++ rest)
        = .ok (c.command upper, rest) := by
  have hsent : (Writer.new.writeArray (some (c.tokens.map some))).flush.sent = c.request.bytes := by
    rw [← c.elements_request]
    exact Writer.stream_writeArray Writer.new c.request.elements
  refine ⟨c.readCommand_line upper rest, ?_⟩
  rw [hsent, c.request.readCommand_bytes, c.command_request]

/-- There are such lines, with words of any kind and different blanks between them. -/
theorem exists_bytes_eq : ∃ c : InlineCommand, c.bytes = bytesOf "SET key\t  value\r\n" := by
  have hsolid : ∀ t ∈ [bytesOf "SET", bytesOf "key", bytesOf "value"], ∀ b ∈ t,
      b < 128 ∧ Text.isSpaceByte b = false := by decide +kernel
  have hwords : ∀ t ∈ [bytesOf "SET", bytesOf "key", bytesOf "value"],
      t ≠ [] ∧ t.length ≤ maxBulkLength := by decide +kernel
  exact ⟨⟨bytesOf "SET", [(bytesOf " ", bytesOf "key"), (bytesOf "\t  ", bytesOf "value")],
    fun t ht ↦ ⟨(hwords t ht).1, (hwords t ht).2, Text.solid_of_ascii (hsolid t ht)⟩,
    by decide +kernel, by decide, by decide⟩, rfl⟩

end InlineCommand

end Resp

end VortexMQ
