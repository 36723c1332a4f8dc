import VortexMQ.Coding.PrefixCode
import VortexMQ.Protocol.Writer

/-!
# Values of the protocol

The values a client of the protocol can be sent, and their bytes. A line must not contain the bytes
that end it, which is why the texts of simple strings and errors are `Line`s. Everything a client
can make of a stream of values it owes to these two facts: no value can be mistaken for another one,
whatever follows, and so a stream of values is read in one way only.
-/

namespace VortexMQ

namespace Resp

/-- Neither of the two bytes that end a line occurs. -/
def Plain (s : Bytes) : Prop := 13 ∉ s ∧ 10 ∉ s

instance (s : Bytes) : Decidable (Plain s) := inferInstanceAs (Decidable (_ ∧ _))

theorem plain_append {s t : Bytes} : Plain (s ++ t) ↔ Plain s ∧ Plain t := by
  simp only [Plain, List.mem_append, not_or]
  exact and_and_and_comm

theorem plain_ofNat (n : ℕ) : Plain (Decimal.ofNat n) :=
  ⟨fun h ↦ absurd (Decimal.isDigit_of_mem_ofNat 13 h) (by decide),
    fun h ↦ absurd (Decimal.isDigit_of_mem_ofNat 10 h) (by decide)⟩

private theorem plain_ofInt (z : ℤ) : Plain (Decimal.ofInt z) := by
  rw [Decimal.ofInt]
  split
  · exact plain_append.mpr ⟨(by decide : Plain [45]), plain_ofNat _⟩
  · exact plain_ofNat _

/-- A text that fits in a line. -/
abbrev Line := { s : Bytes // Plain s }

/-- A value. -/
inductive Value
  | simple (line : Line)
  | error (line : Line)
  | integer (n : ℤ)
  | bulk (b : Option Bytes)
  | nullArray
  | array (elements : List Value)

namespace Value

mutual

/-- The bytes of a value. -/
def bytes : Value → Bytes
  | .simple line => 43 :: (line.1 ++ crlf)
  | .error line => 45 :: (line.1 ++ crlf)
  | .integer n => 58 :: (Decimal.ofInt n ++ crlf)
  | .bulk none => 36 :: (bytesOf "-1" ++ crlf)
  | .bulk (some b) => 36 :: (Decimal.ofNat b.length ++ crlf ++ (b ++ crlf))
  | .nullArray => 42 :: (bytesOf "-1" ++ crlf)
  | .array elements => 42 :: (Decimal.ofNat elements.length ++ crlf ++ allBytes elements)

/-- The bytes of the elements of an array. -/
def allBytes : List Value → Bytes
  | [] => []
  | v :: vs => v.bytes ++ allBytes vs

end

theorem allBytes_eq (vs : List Value) : allBytes vs = vs.flatMap bytes := by
  induction vs with
  | nil => rfl
  | cons v vs ih => rw [allBytes, ih, List.flatMap_cons]

theorem bytes_ne_nil (v : Value) : v.bytes ≠ [] := by
  cases v with
  | bulk b => cases b <;> rw [bytes] <;> exact List.cons_ne_nil _ _
  | _ => rw [bytes]; exact List.cons_ne_nil _ _

/-! ## Reading in one way only -/

/-- The first byte of a value says what kind of value it is. -/
def tag : Value → UInt8
  | .simple _ => 43
  | .error _ => 45
  | .integer _ => 58
  | .bulk _ => 36
  | .nullArray => 42
  | .array _ => 42

theorem head?_bytes (v : Value) : v.bytes.head? = some v.tag := by
  cases v with
  | bulk b => cases b <;> rw [bytes] <;> rfl
  | _ => rw [bytes]; rfl

private theorem tag_eq_of_append {v v' : Value} {r s : Bytes} (h : v.bytes ++ r = v'.bytes ++ s) :
    v.tag = v'.tag := by
  have hhead := congrArg List.head? h
  rwa [List.head?_append_of_ne_nil _ v.bytes_ne_nil, List.head?_append_of_ne_nil _ v'.bytes_ne_nil,
    head?_bytes, head?_bytes, Option.some_inj] at hhead

private theorem line_append_inj : ∀ {a b r s : Bytes}, 13 ∉ a → 13 ∉ b →
    a ++ crlf ++ r = b ++ crlf ++ s → a = b ∧ r = s := by
  intro a
  induction a with
  | nil =>
    intro b r s _ hb heq
    cases b with
    | nil => exact ⟨rfl, List.append_cancel_left heq⟩
    | cons y b =>
      have hy : (13 : UInt8) = y := (List.cons.inj heq).1
      exact absurd (hy ▸ List.mem_cons_self) hb
  | cons x a ih =>
    intro b r s ha hb heq
    cases b with
    | nil =>
      have hx : x = (13 : UInt8) := (List.cons.inj heq).1
      exact absurd (hx ▸ List.mem_cons_self) ha
    | cons y b =>
      obtain ⟨rfl, hrest⟩ := List.cons.inj heq
      obtain ⟨rfl, hrs⟩ := ih (fun h ↦ ha (List.mem_cons_of_mem _ h))
        (fun h ↦ hb (List.mem_cons_of_mem _ h)) hrest
      exact ⟨rfl, hrs⟩

private theorem ofInt_injective : Function.Injective Decimal.ofInt := by
  have hminus : ∀ {m : ℕ} {ds : Bytes}, Decimal.ofNat m ≠ 45 :: ds := by
    intro m ds h
    have hmem : (45 : UInt8) ∈ Decimal.ofNat m := h ▸ List.mem_cons_self
    exact absurd (Decimal.isDigit_of_mem_ofNat 45 hmem) (by decide)
  intro y z h
  rw [Decimal.ofInt, Decimal.ofInt] at h
  split at h <;> split at h
  · have habs := Decimal.ofNat_injective (List.cons.inj h).2
    omega
  · exact absurd h.symm hminus
  · exact absurd h hminus
  · have habs := Decimal.ofNat_injective h
    omega

private theorem ofNat_ne_minusOne (n : ℕ) : Decimal.ofNat n ≠ bytesOf "-1" := by
  intro h
  have hmem : (45 : UInt8) ∈ Decimal.ofNat n := by
    rw [h]
    decide
  exact absurd (Decimal.isDigit_of_mem_ofNat 45 hmem) (by decide)

mutual

/-- No value can be mistaken for another one, whatever follows. The induction is on the first value;
for an array it goes through its elements, of which the other one has as many. -/
theorem bytes_append_inj : ∀ (v v' : Value) {r s : Bytes},
    v.bytes ++ r = v'.bytes ++ s → v = v' ∧ r = s
  | .simple line, v', r, s, h => by
    cases v' with
    | simple line' =>
      rw [bytes, bytes] at h
      obtain ⟨hline, hrs⟩ := line_append_inj line.2.1 line'.2.1 (List.cons.inj h).2
      exact ⟨congrArg _ (Subtype.ext hline), hrs⟩
    | _ => exact absurd (tag_eq_of_append h) (by rw [tag, tag]; decide)
  | .error line, v', r, s, h => by
    cases v' with
    | error line' =>
      rw [bytes, bytes] at h
      obtain ⟨hline, hrs⟩ := line_append_inj line.2.1 line'.2.1 (List.cons.inj h).2
      exact ⟨congrArg _ (Subtype.ext hline), hrs⟩
    | _ => exact absurd (tag_eq_of_append h) (by rw [tag, tag]; decide)
  | .integer n, v', r, s, h => by
    cases v' with
    | integer n' =>
      rw [bytes, bytes] at h
      obtain ⟨hn, hrs⟩ := line_append_inj (plain_ofInt n).1 (plain_ofInt n').1 (List.cons.inj h).2
      exact ⟨congrArg _ (ofInt_injective hn), hrs⟩
    | _ => exact absurd (tag_eq_of_append h) (by rw [tag, tag]; decide)
  | .bulk none, v', r, s, h => by
    cases v' with
    | bulk b =>
      cases b with
      | none =>
        rw [bytes] at h
        exact ⟨rfl, List.append_cancel_left h⟩
      | some b =>
        rw [bytes, bytes, List.cons_append, List.cons_append, List.append_assoc _ _ s] at h
        have hlen := (line_append_inj (by decide) (plain_ofNat _).1 (List.cons.inj h).2).1
        exact absurd hlen.symm (ofNat_ne_minusOne _)
    | _ => exact absurd (tag_eq_of_append h) (by rw [tag, tag]; decide)
  | .bulk (some b), v', r, s, h => by
    cases v' with
    | bulk b' =>
      cases b' with
      | none =>
        rw [bytes, bytes, List.cons_append, List.cons_append, List.append_assoc _ _ r] at h
        have hlen := (line_append_inj (plain_ofNat _).1 (by decide) (List.cons.inj h).2).1
        exact absurd hlen (ofNat_ne_minusOne _)
      | some b' =>
        rw [bytes, bytes, List.cons_append, List.cons_append, List.append_assoc _ _ r,
          List.append_assoc _ _ s] at h
        obtain ⟨hlen, hrest⟩ :=
          line_append_inj (plain_ofNat _).1 (plain_ofNat _).1 (List.cons.inj h).2
        rw [List.append_assoc, List.append_assoc] at hrest
        obtain ⟨rfl, hrs⟩ := List.append_inj hrest (Decimal.ofNat_injective hlen)
        exact ⟨rfl, List.append_cancel_left hrs⟩
    | _ => exact absurd (tag_eq_of_append h) (by rw [tag, tag]; decide)
  | .nullArray, v', r, s, h => by
    cases v' with
    | nullArray => exact ⟨rfl, List.append_cancel_left h⟩
    | array vs =>
      rw [bytes, bytes, List.cons_append, List.cons_append, List.append_assoc _ _ s] at h
      have hlen := (line_append_inj (by decide) (plain_ofNat _).1 (List.cons.inj h).2).1
      exact absurd hlen.symm (ofNat_ne_minusOne _)
    | _ => exact absurd (tag_eq_of_append h) (by rw [tag, tag]; decide)
  | .array vs, v', r, s, h => by
    cases v' with
    | array vs' =>
      rw [bytes, bytes, List.cons_append, List.cons_append, List.append_assoc _ _ r,
        List.append_assoc _ _ s] at h
      obtain ⟨hlen, hrest⟩ :=
        line_append_inj (plain_ofNat _).1 (plain_ofNat _).1 (List.cons.inj h).2
      obtain ⟨hvs, hrs⟩ := allBytes_append_inj vs vs' (Decimal.ofNat_injective hlen) hrest
      exact ⟨congrArg _ hvs, hrs⟩
    | nullArray =>
      rw [bytes, bytes, List.cons_append, List.cons_append, List.append_assoc _ _ r] at h
      have hlen := (line_append_inj (plain_ofNat _).1 (by decide) (List.cons.inj h).2).1
      exact absurd hlen (ofNat_ne_minusOne _)
    | _ => exact absurd (tag_eq_of_append h) (by rw [tag, tag]; decide)

theorem allBytes_append_inj : ∀ (vs vs' : List Value) {r s : Bytes}, vs.length = vs'.length →
    allBytes vs ++ r = allBytes vs' ++ s → vs = vs' ∧ r = s
  | [], vs', r, s, hlen, h => by
    obtain rfl := List.length_eq_zero_iff.mp hlen.symm
    exact ⟨rfl, h⟩
  | v :: vs, [], r, s, hlen, _ => absurd hlen (Nat.succ_ne_zero _)
  | v :: vs, v' :: vs', r, s, hlen, h => by
    rw [allBytes, allBytes, List.append_assoc, List.append_assoc] at h
    obtain ⟨rfl, hrest⟩ := bytes_append_inj v v' h
    obtain ⟨rfl, hrs⟩ := allBytes_append_inj vs vs' (Nat.succ_inj.mp hlen) hrest
    exact ⟨rfl, hrs⟩

end

theorem selfDelimiting_bytes : SelfDelimiting bytes := fun v v' _ _ h ↦ bytes_append_inj v v' h

/-- **A stream of values is one of exactly one list of values.** -/
theorem flatMap_bytes_injective : Function.Injective fun vs : List Value ↦ vs.flatMap bytes :=
  selfDelimiting_bytes.flatMap_injective bytes_ne_nil

end Value

end Resp

end VortexMQ
