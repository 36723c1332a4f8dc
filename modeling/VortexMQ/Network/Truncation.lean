import VortexMQ.Network.Robustness
import VortexMQ.Protocol.BufferedReader

/-!
# Truncated lines

A client can be cut off in the middle of a line. `ReadLine` returns what is left of the stream as a
line of its own, so the part that has arrived is a command, and the handler acts on it. That is not
so for an array command, which is refused unless it is complete.

There are two exceptions. There may be no word in the part that has arrived, and it may end just
where the reader expects another piece of a line that is longer than its buffer.
-/

namespace VortexMQ

namespace Stream

/-- Bytes that a reader with a buffer of this size takes off the stream in full pieces of a line,
with nothing left over. A `\r` at the end of a full buffer goes into the next piece. -/
inductive FullPieces (size : ℕ) : Bytes → Prop where
  | nil : FullPieces size []
  | piece {s : Bytes} : size ≤ s.length → (s.take size).getLast? ≠ some 13 →
      FullPieces size (s.drop size) → FullPieces size s
  | cr {s : Bytes} : size ≤ s.length → (s.take size).getLast? = some 13 →
      FullPieces size (s.drop (size - 1)) → FullPieces size s

theorem FullPieces.le_length {size : ℕ} {s : Bytes} (h : FullPieces size s) (hne : s ≠ []) :
    size ≤ s.length := by
  cases h with
  | nil => exact absurd rfl hne
  | piece hlen _ _ => exact hlen
  | cr hlen _ _ => exact hlen

end Stream

namespace Resp

/-- What is left of a stream without a line end is read as a line, unless the last piece is
missing. -/
theorem continueLine_of_notMem : ∀ (n : ℕ) {s : Bytes}, s.length ≤ n → 10 ∉ s →
    ∀ pieces : Bytes, (Stream.FullPieces bufferSize s ∧ continueLine pieces s = none) ∨
      (¬Stream.FullPieces bufferSize s ∧ continueLine pieces s = some (pieces ++ s, [])) := by
  have hsize : 2 ≤ bufferSize := by decide
  intro n
  induction n with
  | zero =>
    intro s hlen _ pieces
    obtain rfl := List.length_eq_zero_iff.mp (Nat.le_zero.mp hlen)
    left
    rw [continueLine_eq, Stream.readLine_nil (by decide)]
    exact ⟨.nil, rfl⟩
  | succ n ih =>
    intro s hlen hlf pieces
    have hnot : 10 ∉ s.take bufferSize := fun h ↦ hlf (List.mem_of_mem_take h)
    rw [continueLine_eq, Stream.readLine, if_neg hnot]
    by_cases hfull : bufferSize ≤ s.length
    · -- a piece is taken off, and the rest decides
      rw [if_pos hfull]
      by_cases hcr : (s.take bufferSize).getLast? = some 13
      · have hdrop : (s.drop (bufferSize - 1)).length ≤ n := by
          rw [List.length_drop]
          omega
        have hpiece : (s.take bufferSize).dropLast = s.take (bufferSize - 1) := by
          rw [List.dropLast_eq_take, List.length_take_of_le hfull, List.take_take,
            Nat.min_eq_left (Nat.sub_le _ _)]
        rw [if_pos hcr, Option.bind_some, if_pos rfl]
        rcases ih hdrop (fun h ↦ hlf (List.mem_of_mem_drop h))
          (pieces ++ (s.take bufferSize).dropLast) with ⟨hrest, hline⟩ | ⟨hrest, hline⟩
        · exact Or.inl ⟨.cr hfull hcr hrest, hline⟩
        · refine Or.inr ⟨fun h ↦ ?_, ?_⟩
          · cases h with
            | nil => exact absurd hfull (by decide)
            | piece _ hne _ => exact hne hcr
            | cr _ _ h => exact hrest h
          · rw [hline, hpiece, List.append_assoc, List.take_append_drop]
      · have hdrop : (s.drop bufferSize).length ≤ n := by
          rw [List.length_drop]
          omega
        rw [if_neg hcr, Option.bind_some, if_pos rfl]
        rcases ih hdrop (fun h ↦ hlf (List.mem_of_mem_drop h)) (pieces ++ s.take bufferSize)
          with ⟨hrest, hline⟩ | ⟨hrest, hline⟩
        · exact Or.inl ⟨.piece hfull hcr hrest, hline⟩
        · refine Or.inr ⟨fun h ↦ ?_, ?_⟩
          · cases h with
            | nil => exact absurd hfull (by decide)
            | piece _ _ h => exact hrest h
            | cr _ h _ => exact hcr h
          · rw [hline, List.append_assoc, List.take_append_drop]
    · rw [if_neg hfull]
      by_cases hnil : s = []
      · rw [if_pos hnil, hnil]
        exact Or.inl ⟨.nil, rfl⟩
      · rw [if_neg hnil]
        exact Or.inr ⟨fun h ↦ hfull (h.le_length hnil), rfl⟩

/-- **The end of the stream.** A line that is not ended, and does not announce an array, is refused
exactly if there is no word in it or its last piece is missing. -/
theorem readCommand_unended_iff (upper : Char → Char) {p : Bytes} (hlf : 10 ∉ p)
    (hhead : p.head? ≠ some 42) :
    (∃ err, readCommand upper p = .error err) ↔
      Text.fields p = [] ∨ Stream.FullPieces bufferSize p := by
  rw [readCommand_eq]
  rcases continueLine_of_notMem p.length le_rfl hlf [] with ⟨hfull, hline⟩ | ⟨hfull, hline⟩
  · rw [hline]
    exact iff_of_true ⟨_, rfl⟩ (Or.inr hfull)
  · have hne : p ≠ [] := fun h ↦ hfull (h ▸ .nil)
    rw [hline, List.nil_append]
    simp only [commandOfLine, if_neg hne, if_pos hhead]
    cases Text.fields p with
    | nil => exact iff_of_true ⟨_, rfl⟩ (Or.inl rfl)
    | cons word words =>
      refine iff_of_false ?_ (not_or_intro (List.cons_ne_nil _ _) hfull)
      rintro ⟨err, herr⟩
      exact nomatch herr

end Resp

/-- A line that is sent as an inline command, up to its line end. -/
structure InlineLine (line : Bytes) : Prop where
  ended : line.getLast? = some 10
  single : 10 ∉ line.dropLast
  inline : line.head? ≠ some 42

namespace Service

/-- `ReadCommand` returns an error, and the handler leaves its loop without a command. -/
def Refuses (srv : Server) (s : Service) : Prop :=
  ∃ err, Resp.readCommand srv.upper s.data = .error err ∧
    ∀ env, s.serve srv env = .ok (.error err)

theorem refuses_iff (srv : Server) (s : Service) :
    s.Refuses srv ↔ ∃ err, Resp.readCommand srv.upper s.data = .error err := by
  constructor
  · rintro ⟨err, herr, -⟩
    exact ⟨err, herr⟩
  · rintro ⟨err, herr⟩
    refine ⟨err, herr, fun env ↦ ?_⟩
    rw [serve, Resp.Checked.readCommand_eq, herr]
    rfl

/-- **Truncated lines.** When the connection ends within an inline command, the part that has
arrived is refused, in whatever state the server is, exactly if it contains no word or consists of
full pieces of a long line. In all other cases it is executed. -/
theorem refuses_truncated_iff (srv : Server) (s : Service) (line p : Bytes)
    (hline : InlineLine line) (hp : p <+: line) (hlf : 10 ∉ p) (hdata : s.data = p) :
    s.Refuses srv ↔ Text.fields p = [] ∨ Stream.FullPieces Resp.bufferSize p := by
  have hhead : p.head? ≠ some 42 := by
    intro h
    refine hline.inline ?_
    obtain ⟨rest, rfl⟩ := hp
    rw [List.head?_append, h]
    rfl
  rw [refuses_iff, hdata]
  exact Resp.readCommand_unended_iff srv.upper hlf hhead

/-- Only the blank in front of the command has arrived. -/
theorem refuses_truncated_blank :
    (accept Session.openServer (Broker.newBroker none 0) (bytesOf " ")).Refuses
      Session.openServer :=
  (refuses_truncated_iff Session.openServer _ (bytesOf " PING\r\n") (bytesOf " ")
    ⟨by decide, by decide, by decide⟩ (by decide) (by decide) rfl).mpr (Or.inl (by decide +kernel))

/-- A client that sends `RPUSH q hello` is cut off after `hel`, and `hel` is what it has pushed. -/
theorem truncated_executed :
    Resp.readCommand id (bytesOf "RPUSH q hel")
        = .ok (⟨bytesOf "RPUSH", [some (bytesOf "q"), some (bytesOf "hel")]⟩, []) ∧
      ¬(accept Session.openServer (Broker.newBroker none 0) (bytesOf "RPUSH q hel")).Refuses
        Session.openServer ∧
      ((accept Session.openServer (Broker.newBroker none 0) (bytesOf "RPUSH q hel")).step
        Session.openServer (.command 0 Session.restingEnv)).map (fun t ↦ t.session.handled)
          = some 1 := by
  refine ⟨by decide +kernel, fun h ↦ ?_, by decide +kernel⟩
  obtain ⟨err, herr⟩ := (refuses_iff _ _).mp h
  have hread : Resp.readCommand id (bytesOf "RPUSH q hel")
      = .ok (⟨bytesOf "RPUSH", [some (bytesOf "q"), some (bytesOf "hel")]⟩, []) := by
    decide +kernel
  exact nomatch hread.symm.trans herr

end Service

end VortexMQ
