import VortexMQ.Coding.Base64
import VortexMQ.Coding.Json
import VortexMQ.Wal.Log

/-!
# Messages as JSON

`encoding/json` on `queue.Message`, by the struct tags of the source: fields in the order of their
declaration, those tagged `omitempty` left out when they are zero, the payload in base64, a nil
payload as `null`, headers sorted by key.
-/

namespace VortexMQ

namespace MessageJson

open Json

/-! ## Writing -/

def payloadText : Option Bytes → Bytes
  | none => bytesOf "null"
  | some p => 34 :: (Base64.encode p ++ [34])

def entryText (e : Bytes × Bytes) : Bytes := quote e.1 ++ 58 :: quote e.2

def entriesText : List (Bytes × Bytes) → Bytes
  | [] => []
  | [e] => entryText e
  | e :: es => entryText e ++ 44 :: entriesText es

def headersText (h : Headers) : Bytes := 123 :: (entriesText h.entries ++ [125])

def failureText (m : Message) : Bytes :=
  optionalField "failure_cause" (m.failureCause = []) (quote m.failureCause) ++ [125]

def deadlineText (m : Message) : Bytes :=
  optionalField "ack_deadline" (m.ackDeadline = 0) (Decimal.ofInt m.ackDeadline) ++ failureText m

def consumerText (m : Message) : Bytes :=
  optionalField "consumer_id" (m.consumerID = []) (quote m.consumerID) ++ deadlineText m

def retriesText (m : Message) : Bytes :=
  field "retry_count" (Decimal.ofInt m.retryCount)
    ++ (field "max_retries" (Decimal.ofInt m.maxRetries) ++ consumerText m)

def deliverText (m : Message) : Bytes :=
  optionalField "deliver_at" (m.deliverAt = 0) (Decimal.ofInt m.deliverAt) ++ retriesText m

def priorityText (m : Message) : Bytes :=
  field "priority" (Decimal.ofNat m.priority.toNat)
    ++ (field "timestamp" (Decimal.ofInt m.timestamp) ++ deliverText m)

def tailText (m : Message) : Bytes :=
  optionalField "headers" (m.headers.entries = []) (headersText m.headers) ++ priorityText m

/-- `json.Marshal(msg)`. -/
def marshal (m : Message) : Bytes :=
  123 :: (key "id" ++ (quote m.id ++ (field "topic" (quote m.topic)
    ++ (field "payload" (payloadText m.payload) ++ tailText m))))

theorem length_marshal_payload (m : Message) (p : Bytes) :
    (marshal { m with payload := some p }).length
      = (marshal { m with payload := some [] }).length + 4 * ((p.length + 2) / 3) := by
  have htail : tailText { m with payload := some p } = tailText { m with payload := some [] } := rfl
  have hempty : Base64.encode [] = [] := rfl
  simp only [marshal, htail, field, payloadText, hempty, List.length_cons, List.length_append,
    Base64.length_encode, List.length_nil]
  omega

/-! ## Reading -/

def readPayload (s : Bytes) : Option (Option Bytes × Bytes) :=
  match expect (bytesOf "null") s with
  | some s => some (none, s)
  | none =>
      (expect [34] s).bind fun s ↦
        let text := s.takeWhile fun c ↦ c ≠ 34
        (Base64.decode text).bind fun p ↦
          (expect [34] (s.drop text.length)).map fun s ↦ (some p, s)

def readEntries : ℕ → Bytes → Option (List (Bytes × Bytes) × Bytes)
  | 0, _ => none
  | fuel + 1, s =>
      (unquote s).bind fun k ↦ (expect [58] k.2).bind fun s ↦ (unquote s).bind fun v ↦
        match expect [44] v.2 with
        | some s => (readEntries fuel s).map fun r ↦ ((k.1, v.1) :: r.1, r.2)
        | none => (expect [125] v.2).map fun s ↦ ([(k.1, v.1)], s)

def readHeaders (s : Bytes) : Option (Headers × Bytes) :=
  (expect [123] s).bind fun s ↦ (readEntries s.length s).bind fun r ↦
    if h : r.1.Pairwise fun a b ↦ a.1 < b.1 then some (⟨r.1, h⟩, r.2) else none

def readUint8 (s : Bytes) : Option (UInt8 × Bytes) :=
  (readNat s).bind fun r ↦ if r.1 < 256 then some (UInt8.ofNat r.1, r.2) else none

/-- The fields from the headers on, for a message with the given front. -/
def unmarshalTail (id topic : Bytes) (payload : Option Bytes) (s : Bytes) : Option Message :=
  (readOptional "headers" readHeaders Headers.empty s).bind fun headers ↦
  (readField "priority" readUint8 headers.2).bind fun priority ↦
  (readField "timestamp" readInt priority.2).bind fun timestamp ↦
  (readOptional "deliver_at" readInt 0 timestamp.2).bind fun deliverAt ↦
  (readField "retry_count" readInt deliverAt.2).bind fun retryCount ↦
  (readField "max_retries" readInt retryCount.2).bind fun maxRetries ↦
  (readOptional "consumer_id" unquote [] maxRetries.2).bind fun consumerID ↦
  (readOptional "ack_deadline" readInt 0 consumerID.2).bind fun ackDeadline ↦
  (readOptional "failure_cause" unquote [] ackDeadline.2).bind fun failureCause ↦
  if failureCause.2 = [125] then
    some ⟨id, topic, payload, headers.1, priority.1, timestamp.1, deliverAt.1, retryCount.1,
      maxRetries.1, consumerID.1, ackDeadline.1, failureCause.1⟩
  else none

/-- `json.Unmarshal`, on texts laid out as `Marshal` lays them out. -/
def unmarshal (s : Bytes) : Option Message :=
  (expect (123 :: key "id") s).bind fun s ↦
  (unquote s).bind fun id ↦
  (readField "topic" unquote id.2).bind fun topic ↦
  (readField "payload" readPayload topic.2).bind fun payload ↦
  unmarshalTail id.1 topic.1 payload.1 payload.2

/-! ## There and back -/

private theorem readPayload_payloadText (p : Option Bytes) (rest : Bytes) :
    readPayload (payloadText p ++ rest) = some (p, rest) := by
  cases p with
  | none => rw [readPayload, payloadText, expect_append]
  | some p =>
    have hnull : expect (bytesOf "null") (payloadText (some p) ++ rest) = none :=
      expect_eq_none [34] (n := 1) (by decide) (by decide) (by decide) _
    have htext : (Base64.encode p ++ 34 :: rest).takeWhile (fun c ↦ c ≠ 34) = Base64.encode p := by
      rw [List.takeWhile_append_of_pos
          (fun c hc ↦ decide_eq_true (Base64.ne_quote_of_mem_encode p c hc)),
        List.takeWhile_cons_of_neg (by decide), List.append_nil]
    have hsplit : payloadText (some p) ++ rest = [34] ++ (Base64.encode p ++ 34 :: rest) := by
      rw [payloadText, List.cons_append, List.append_assoc]
      rfl
    rw [readPayload, hnull, hsplit, expect_append, Option.bind_some]
    simp only [htext, Base64.decode_encode, Option.bind_some, List.drop_left]
    exact congrArg (Option.map _) (expect_append [34] rest)

private theorem readEntries_entriesText : ∀ {es : List (Bytes × Bytes)} {fuel : ℕ} (rest : Bytes),
    es ≠ [] → (∀ e ∈ es, Utf8 e.1 ∧ Utf8 e.2) → es.length ≤ fuel →
      readEntries fuel (entriesText es ++ 125 :: rest) = some (es, rest) := by
  intro es
  induction es with
  | nil => intro fuel rest hne; exact absurd rfl hne
  | cons e es ih =>
    intro fuel rest _ hes hfuel
    obtain ⟨fuel, rfl⟩ := Nat.exists_eq_add_one_of_ne_zero (Nat.ne_zero_of_lt hfuel)
    obtain ⟨hkey, hval⟩ := hes e List.mem_cons_self
    have hentry : ∀ s, entryText e ++ s = quote e.1 ++ ([58] ++ (quote e.2 ++ s)) := by
      intro s
      rw [entryText, List.append_assoc]
      rfl
    cases es with
    | nil =>
      have hcomma : expect [44] (125 :: rest) = none :=
        expect_eq_none [125] (n := 1) (by decide) (by decide) (by decide) rest
      rw [entriesText, hentry, readEntries, unquote_quote hkey, Option.bind_some, expect_append,
        Option.bind_some, unquote_quote hval, Option.bind_some, hcomma]
      exact congrArg (Option.map _) (expect_append [125] rest)
    | cons e' es =>
      have hcomma : entriesText (e :: e' :: es) ++ 125 :: rest
          = entryText e ++ ([44] ++ (entriesText (e' :: es) ++ 125 :: rest)) := by
        rw [entriesText, List.append_assoc]
        · rfl
        · simp
      rw [hcomma, hentry, readEntries, unquote_quote hkey, Option.bind_some, expect_append,
        Option.bind_some, unquote_quote hval, Option.bind_some, expect_append]
      exact congrArg (Option.map _) (ih rest (List.cons_ne_nil _ _)
        (fun x hx ↦ hes x (List.mem_cons_of_mem _ hx)) (Nat.le_of_succ_le_succ hfuel))

theorem length_le_length_entriesText (es : List (Bytes × Bytes)) :
    es.length ≤ (entriesText es).length := by
  have hentry : ∀ e, 1 ≤ (entryText e).length := fun e ↦ by
    rw [entryText, quote, List.length_append, List.length_cons]
    omega
  induction es with
  | nil => exact le_rfl
  | cons e es ih =>
    cases es with
    | nil => exact hentry e
    | cons e' es =>
      have := hentry e
      have hsplit : entriesText (e :: e' :: es) = entryText e ++ 44 :: entriesText (e' :: es) := by
        rw [entriesText]
        simp
      rw [hsplit, List.length_append, List.length_cons (a := 44)]
      exact (Nat.succ_le_succ ih).trans (by omega)

theorem readHeaders_headersText {h : Headers} (hne : h.entries ≠ [])
    (hutf : ∀ e ∈ h.entries, Utf8 e.1 ∧ Utf8 e.2) (rest : Bytes) :
    readHeaders (headersText h ++ rest) = some (h, rest) := by
  have hsplit : headersText h ++ rest = [123] ++ (entriesText h.entries ++ 125 :: rest) := by
    rw [headersText, List.cons_append, List.append_assoc]
    rfl
  have hfuel : h.entries.length ≤ (entriesText h.entries ++ 125 :: rest).length := by
    rw [List.length_append]
    exact (length_le_length_entriesText _).trans (Nat.le_add_right _ _)
  rw [readHeaders, hsplit, expect_append, Option.bind_some,
    readEntries_entriesText rest hne hutf hfuel, Option.bind_some]
  exact dif_pos h.sorted

private theorem readUint8_ofNat (n : UInt8) {rest : Bytes} (h : EndsNumber rest) :
    readUint8 (Decimal.ofNat n.toNat ++ rest) = some (n, rest) := by
  rw [readUint8, readNat_ofNat _ h, Option.bind_some, if_pos n.toNat_lt, UInt8.ofNat_toNat]

section Tail

/-! The readers of the tail, from the last field backwards. Each finds its own field at the front,
or another one if its own is omitted; a number ends at the comma or the brace behind it. -/

variable {m : Message}

theorem expect_brace {lit : Bytes} (hlen : 1 ≤ lit.length) (hne : lit.take 1 ≠ [125]) :
    expect lit [125] = none := expect_eq_none [125] (n := 1) hlen le_rfl hne []

theorem endsNumber_failureText (m : Message) : EndsNumber (failureText m) :=
  endsNumber_optionalField _ _ _ (endsNumber_cons (by decide) [])

private theorem endsNumber_deadlineText (m : Message) : EndsNumber (deadlineText m) :=
  endsNumber_optionalField _ _ _ (endsNumber_failureText m)

private theorem endsNumber_consumerText (m : Message) : EndsNumber (consumerText m) :=
  endsNumber_optionalField _ _ _ (endsNumber_deadlineText m)

private theorem endsNumber_deliverText (m : Message) : EndsNumber (deliverText m) :=
  endsNumber_optionalField _ _ _ (endsNumber_field _ _ _)

private theorem read_failureText (h : Utf8 m.failureCause) :
    readOptional "failure_cause" unquote [] (failureText m) = some (m.failureCause, [125]) :=
  readOptional_optionalField (fun _ ↦ unquote_quote h _) id
    (fun _ ↦ expect_brace (by decide) (by decide))

private theorem read_deadlineText (h : Int64Range m.ackDeadline) :
    readOptional "ack_deadline" readInt 0 (deadlineText m) = some (m.ackDeadline, failureText m) :=
  readOptional_optionalField (fun _ ↦ readInt_ofInt h (endsNumber_failureText m)) id
    (fun _ ↦ expect_optionalField (n := 3) (by decide) (by decide) (by decide)
      (expect_brace (by decide) (by decide)))

private theorem read_consumerText (h : Utf8 m.consumerID) :
    readOptional "consumer_id" unquote [] (consumerText m) = some (m.consumerID, deadlineText m) :=
  readOptional_optionalField (fun _ ↦ unquote_quote h _) id
    (fun _ ↦ expect_optionalField (n := 3) (by decide) (by decide) (by decide)
      (expect_optionalField (n := 3) (by decide) (by decide) (by decide)
        (expect_brace (by decide) (by decide))))

private theorem read_deliverText (h : Int64Range m.deliverAt) :
    readOptional "deliver_at" readInt 0 (deliverText m) = some (m.deliverAt, retriesText m) :=
  readOptional_optionalField (fun _ ↦ readInt_ofInt h (endsNumber_field _ _ _)) id
    (fun _ ↦ expect_field (n := 3) (by decide) (by decide) (by decide))

private theorem read_tailText (h : ∀ e ∈ m.headers.entries, Utf8 e.1 ∧ Utf8 e.2) :
    readOptional "headers" readHeaders Headers.empty (tailText m)
      = some (m.headers, priorityText m) :=
  readOptional_optionalField (fun hne ↦ readHeaders_headersText hne h _)
    (fun hnil ↦ Headers.ext hnil)
    (fun _ ↦ expect_field (n := 3) (by decide) (by decide) (by decide))

private theorem unmarshalTail_tailText (h : m.Portable) :
    unmarshalTail m.id m.topic m.payload (tailText m) = some m := by
  rw [unmarshalTail, read_tailText h.headers, Option.bind_some, priorityText,
    readField_field (readUint8_ofNat _ (endsNumber_field _ _ _)), Option.bind_some,
    readField_field (readInt_ofInt h.timestamp (endsNumber_deliverText m)), Option.bind_some,
    read_deliverText h.deliverAt, Option.bind_some, retriesText,
    readField_field (readInt_ofInt h.retryCount (endsNumber_field _ _ _)), Option.bind_some,
    readField_field (readInt_ofInt h.maxRetries (endsNumber_consumerText m)), Option.bind_some,
    read_consumerText h.consumerID, Option.bind_some, read_deadlineText h.ackDeadline,
    Option.bind_some, read_failureText h.failureCause, Option.bind_some, if_pos rfl]

end Tail

/-- A message is read back with the characters of its topic. The other strings are UTF-8. -/
theorem unmarshal_marshal_topic {m : Message}
    (h : ({ m with topic := toValidUtf8 m.topic } : Message).Portable) :
    unmarshal (marshal m) = some { m with topic := toValidUtf8 m.topic } := by
  have hid : marshal m = (123 :: key "id") ++ (quote m.id ++ (field "topic" (quote m.topic)
      ++ (field "payload" (payloadText m.payload) ++ tailText m))) := rfl
  have htail : tailText m = tailText { m with topic := toValidUtf8 m.topic } := rfl
  rw [unmarshal, hid, expect_append, Option.bind_some, unquote_quote h.id, Option.bind_some,
    readField_field (unquote_quote_eq m.topic _), Option.bind_some,
    readField_field (readPayload_payloadText _ _), Option.bind_some, htail]
  exact unmarshalTail_tailText h

/-- **Portable messages are read back.** -/
theorem unmarshal_marshal {m : Message} (h : m.Portable) : unmarshal (marshal m) = some m := by
  have htopic : ({ m with topic := toValidUtf8 m.topic } : Message) = m := by
    rw [toValidUtf8_of_utf8 h.topic]
  rw [unmarshal_marshal_topic (htopic.symm ▸ h), htopic]

/-- `encoding/json` on messages. -/
def codec : Codec := ⟨marshal, unmarshal, fun _ ↦ unmarshal_marshal⟩

end MessageJson

end VortexMQ
