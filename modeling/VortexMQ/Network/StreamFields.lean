import VortexMQ.Network.Connection
import VortexMQ.Queue.Publishing

/-!
# The fields of a stream entry

`XADD` takes fields and values in turn, puts them into a map and publishes its JSON text. The test
for the number of arguments lets a list of odd length pass, and then the field at the end is not in
the map; with a single field, an empty map is published. A field that is given again replaces the
value from before.
-/

namespace VortexMQ

namespace Server

/-! ## The map -/

/-- The fields with their values. One at the end without a value is left out. -/
def pairsOf : Args → List (Bytes × Bytes)
  | field :: val :: rest => (field.getD [], val.getD []) :: pairsOf rest
  | _ => []

/-- The map that is made of them. -/
def fieldMap (rest : Args) : List (Bytes × Bytes) :=
  (pairsOf rest).foldl (fun m p ↦ setEntry p.1 p.2 m) []

private theorem payloadMap_eq_foldl (args : Args) : ∀ (fuel i : ℕ) (m : List (Bytes × Bytes)),
    args.length ≤ i + fuel →
    payloadMap args fuel i m =
      .ok ((pairsOf (args.drop i)).foldl (fun m p ↦ setEntry p.1 p.2 m) m) := by
  intro fuel
  induction fuel with
  | zero =>
    intro i m hlen
    have hnil : args.drop i = [] := List.drop_of_length_le hlen
    rw [hnil]
    rfl
  | succ fuel ih =>
    intro i m hlen
    rw [payloadMap]
    split
    · rename_i hlt
      have htext : ∀ {j : ℕ} (hj : j < args.length), args.text j = .ok (args[j].getD []) := by
        intro j hj
        rw [Args.text, Args.arg, List.getElem?_eq_getElem hj]
        rfl
      rw [htext (Nat.lt_of_succ_lt hlt), htext hlt,
        List.drop_eq_getElem_cons (Nat.lt_of_succ_lt hlt), List.drop_eq_getElem_cons hlt]
      exact ih (i + 2) _ (by omega)
    · rename_i hge
      have hshort : (args.drop i).length < 2 := by
        rw [List.length_drop]
        omega
      rcases hrest : args.drop i with - | ⟨field, - | ⟨val, rest⟩⟩
      · rfl
      · rfl
      · rw [hrest] at hshort
        exact absurd hshort (by simp)

private theorem payloadMap_eq (rest : Args) :
    payloadMap rest rest.length 0 [] = .ok (fieldMap rest) :=
  payloadMap_eq_foldl rest rest.length 0 [] (Nat.le_add_left _ _)

def Sorted (m : List (Bytes × Bytes)) : Prop := m.Pairwise fun a b ↦ a.1 < b.1

variable {key val : Bytes} {m : List (Bytes × Bytes)} {p : Bytes × Bytes}

theorem mem_setEntry (hp : p ∈ setEntry key val m) : p = (key, val) ∨ p ∈ m := by
  induction m with
  | nil => exact Or.inl (List.mem_singleton.mp hp)
  | cons e m ih =>
    rw [setEntry] at hp
    split at hp
    · exact (List.mem_cons.mp hp).imp id id
    · split at hp
      · exact (List.mem_cons.mp hp).imp id (List.mem_cons_of_mem e)
      · rcases List.mem_cons.mp hp with rfl | hp
        · exact Or.inr List.mem_cons_self
        · exact (ih hp).imp id (List.mem_cons_of_mem e)

theorem self_mem_setEntry (key val : Bytes) (m : List (Bytes × Bytes)) :
    (key, val) ∈ setEntry key val m := by
  induction m with
  | nil => exact List.mem_cons_self
  | cons e m ih =>
    rw [setEntry]
    split
    · exact List.mem_cons_self
    · split
      · exact List.mem_cons_self
      · exact List.mem_cons_of_mem e ih

private theorem mem_setEntry_of_ne (hp : p ∈ m) (hne : p.1 ≠ key) : p ∈ setEntry key val m := by
  induction m with
  | nil => exact absurd hp List.not_mem_nil
  | cons e m ih =>
    rw [setEntry]
    split
    · exact List.mem_cons_of_mem _ hp
    · split
      · rename_i heq
        refine List.mem_cons_of_mem _ ((List.mem_cons.mp hp).resolve_left ?_)
        rintro rfl
        exact hne heq.symm
      · rcases List.mem_cons.mp hp with rfl | hp
        · exact List.mem_cons_self
        · exact List.mem_cons_of_mem e (ih hp)

theorem Sorted.setEntry (h : Sorted m) (key val : Bytes) : Sorted (setEntry key val m) := by
  induction m with
  | nil => exact List.pairwise_singleton _ _
  | cons e m ih =>
    obtain ⟨hhead, htail⟩ := List.pairwise_cons.mp h
    rw [Server.setEntry]
    split
    · rename_i hlt
      refine List.pairwise_cons.mpr ⟨fun p hp ↦ ?_, h⟩
      rcases List.mem_cons.mp hp with rfl | hp
      · exact hlt
      · exact List.lt_trans hlt (hhead p hp)
    · rename_i hnlt
      split
      · rename_i heq
        exact List.pairwise_cons.mpr ⟨fun p hp ↦ heq ▸ hhead p hp, htail⟩
      · rename_i hne
        have hgt : e.1 < key :=
          ((Std.lt_trichotomy key e.1).resolve_left hnlt).resolve_left hne
        refine List.pairwise_cons.mpr ⟨fun p hp ↦ ?_, ih htail⟩
        rcases mem_setEntry hp with rfl | hp
        · exact hgt
        · exact hhead p hp

theorem Sorted.eq_of_mem (h : Sorted m) {q : Bytes × Bytes} (hp : p ∈ m) (hq : q ∈ m)
    (hkey : p.1 = q.1) : p.2 = q.2 := by
  have hdistinct : m.Pairwise fun a b ↦ a.1 ≠ b.1 := by
    refine h.imp fun {a b} hlt heq ↦ ?_
    rw [heq] at hlt
    exact List.lt_irrefl _ hlt
  exact congrArg Prod.snd (List.inj_on_of_nodup_map (List.pairwise_map.mpr hdistinct) hp hq hkey)

private theorem sorted_foldl : ∀ (fs : List (Bytes × Bytes)) {m : List (Bytes × Bytes)}, Sorted m →
    Sorted (fs.foldl (fun m p ↦ setEntry p.1 p.2 m) m) := by
  intro fs
  induction fs with
  | nil => exact fun h ↦ h
  | cons p fs ih => exact fun h ↦ ih (h.setEntry p.1 p.2)

private theorem sorted_fieldMap (rest : Args) : Sorted (fieldMap rest) :=
  sorted_foldl _ List.Pairwise.nil

private theorem mem_foldl_of_mem : ∀ {fs m : List (Bytes × Bytes)}, p ∈ m →
    (∀ q ∈ fs, q.1 = p.1 → q.2 = p.2) → p ∈ fs.foldl (fun m p ↦ setEntry p.1 p.2 m) m := by
  intro fs
  induction fs with
  | nil => exact fun hp _ ↦ hp
  | cons q fs ih =>
    intro m hp hsame
    refine ih ?_ fun q' hq' ↦ hsame q' (List.mem_cons_of_mem q hq')
    by_cases hkey : q.1 = p.1
    · have hpq : (q.1, q.2) = p := Prod.ext hkey (hsame q List.mem_cons_self hkey)
      rw [← hpq]
      exact self_mem_setEntry q.1 q.2 m
    · exact mem_setEntry_of_ne hp (Ne.symm hkey)

private theorem mem_foldl : ∀ {fs m : List (Bytes × Bytes)}, p ∈ fs →
    (∀ q ∈ fs, q.1 = p.1 → q.2 = p.2) → p ∈ fs.foldl (fun m p ↦ setEntry p.1 p.2 m) m := by
  intro fs
  induction fs with
  | nil => exact fun hp ↦ absurd hp List.not_mem_nil
  | cons q fs ih =>
    intro m hp hsame
    have hrest : ∀ q' ∈ fs, q'.1 = p.1 → q'.2 = p.2 := fun q' hq' ↦
      hsame q' (List.mem_cons_of_mem q hq')
    rcases List.mem_cons.mp hp with rfl | hp
    · have hself : p ∈ setEntry p.1 p.2 m := self_mem_setEntry p.1 p.2 m
      exact @mem_foldl_of_mem p fs _ hself hrest
    · exact ih hp hrest

private theorem mem_of_mem_foldl : ∀ {fs m : List (Bytes × Bytes)},
    p ∈ fs.foldl (fun m p ↦ setEntry p.1 p.2 m) m → p ∈ fs ∨ p ∈ m := by
  intro fs
  induction fs with
  | nil => exact fun hp ↦ Or.inr hp
  | cons q fs ih =>
    intro m hp
    rcases ih hp with hp | hp
    · exact Or.inl (List.mem_cons_of_mem q hp)
    · refine (mem_setEntry hp).imp (fun heq ↦ ?_) id
      rw [heq]
      exact List.mem_cons_self

/-! ## The text -/

/-- `json.Unmarshal` into a `map[string]string`. -/
def readFields (payload : Bytes) : Option Headers :=
  if payload = [123, 125] then some .empty
  else (MessageJson.readHeaders payload).bind fun r ↦ if r.2 = [] then some r.1 else none

private theorem utf8_pairsOf : ∀ {rest : Args}, (∀ arg ∈ rest, Utf8 (arg.getD [])) →
    ∀ p ∈ pairsOf rest, Utf8 p.1 ∧ Utf8 p.2 := by
  intro rest
  induction rest using pairsOf.induct with
  | case1 field val rest ih =>
    intro hutf p hp
    rw [pairsOf] at hp
    rcases List.mem_cons.mp hp with rfl | hp
    · exact ⟨hutf field List.mem_cons_self,
        hutf val (List.mem_cons_of_mem _ List.mem_cons_self)⟩
    · exact ih (fun arg harg ↦ hutf arg (List.mem_cons_of_mem _ (List.mem_cons_of_mem _ harg))) p hp
  | case2 rest hshort =>
    intro _ p hp
    rw [pairsOf] at hp
    · exact absurd hp List.not_mem_nil
    · exact hshort

private theorem readFields_payloadBytes {m : List (Bytes × Bytes)} (h : Sorted m)
    (hutf : ∀ p ∈ m, Utf8 p.1 ∧ Utf8 p.2) : readFields (payloadBytes m) = some ⟨m, h⟩ := by
  cases m with
  | nil => exact if_pos rfl
  | cons p m =>
    have hne : payloadBytes (p :: m) ≠ [123, 125] := by
      have hlen := MessageJson.length_le_length_entriesText (p :: m)
      intro heq
      have hlength := congrArg List.length heq
      rw [payloadBytes, List.length_cons, List.length_append] at hlength
      simp only [List.length_cons, List.length_nil] at hlen hlength
      omega
    have hread := MessageJson.readHeaders_headersText (h := ⟨p :: m, h⟩) (List.cons_ne_nil _ _)
      hutf []
    rw [List.append_nil] at hread
    rw [readFields, if_neg hne]
    exact congrArg (Option.bind · _) hread

/-! ## Publishing -/

/-- Nothing has been published: no counter and no queue has changed. -/
structure Unpublished (b b' : Broker) : Prop where
  totalPublished_eq : b'.totalPublished = b.totalPublished
  ringItems_eq : ∀ name, b'.ringItems name = b.ringItems name

section

variable {b b₁ : Broker} {codec : Codec} {topicName : Bytes} {payload : Option Bytes} {st : Stamp}
  {outcome : Except Bytes Unit}

theorem unpublished_getOrCreateTopic (b : Broker) (name : Bytes) :
    Unpublished b (b.getOrCreateTopic name).2 := by
  refine ⟨?_, fun name' ↦ (b.ringItems_getOrCreateTopic name name').2⟩
  rw [Broker.getOrCreateTopic]
  split <;> rfl

/-- What becomes of a record depends on the log alone, and the log is all that changes. -/
theorem logPublish_getOrCreateTopic (b : Broker) (codec : Codec) (msg : Message) (name : Bytes) :
    match (b.logPublish codec msg).map Prod.fst with
    | none => (b.getOrCreateTopic name).2.logPublish codec msg = none
    | some outcome => ∃ wal, (b.getOrCreateTopic name).2.logPublish codec msg =
        some (outcome, { (b.getOrCreateTopic name).2 with wal := wal }) := by
  have hwal := b.wal_getOrCreateTopic name
  cases hw : b.wal with
  | none =>
    simp only [Broker.logPublish, hwal, hw, Option.map_some]
    exact ⟨none, by rw [← hw, ← hwal]⟩
  | some w =>
    simp only [Broker.logPublish, hwal, hw, Option.map_map]
    cases w.writePublish codec msg with
    | none => rfl
    | some r => exact ⟨some r.2, rfl⟩

private theorem publish_of_log_none (h : b.logPublish codec (st.message topicName payload) = none) :
    b.publish codec topicName payload st = none := by
  have hlog := logPublish_getOrCreateTopic b codec (st.message topicName payload) topicName
  rw [h] at hlog
  exact congrArg (Option.map _) hlog

private theorem publish_of_log_error {err : Bytes}
    (h : (b.logPublish codec (st.message topicName payload)).map Prod.fst = some (.error err)) :
    ∃ b', b.publish codec topicName payload st = some (.error err, b') ∧ Unpublished b b' := by
  have hlog := logPublish_getOrCreateTopic b codec (st.message topicName payload) topicName
  rw [h] at hlog
  obtain ⟨wal, hlog⟩ := hlog
  obtain ⟨htotal, hitems⟩ := unpublished_getOrCreateTopic b topicName
  exact ⟨_, congrArg (Option.map _) hlog, htotal, hitems⟩

theorem publishWith_of_log (msg : Message) (put : Topic → Option Message × Topic)
    (hlog : (b.getOrCreateTopic msg.topic).2.logPublish codec msg = some (.ok (), b₁)) :
    (∀ t, put (b.getOrCreateTopic msg.topic).1 = (none, t) → b.publishWith codec msg put =
      some (.error Broker.errRejected, b₁.setTopic msg.topic t)) ∧
    ∀ msg' t, put (b.getOrCreateTopic msg.topic).1 = (some msg', t) → b.publishWith codec msg put =
      some (.ok msg', { b₁.setTopic msg.topic t with
        totalPublished := b₁.totalPublished + 1 }) := by
  constructor
  · intro t hput
    simp only [Broker.publishWith, hlog, Option.map_some, hput]
  · intro msg' t hput
    simp only [Broker.publishWith, hlog, Option.map_some, hput]

private theorem publish_of_not_accepts
    (h : (b.logPublish codec (st.message topicName payload)).map Prod.fst = some (.ok ()))
    (ht : ¬(b.getOrCreateTopic topicName).1.Accepts) :
    ∃ err b', b.publish codec topicName payload st = some (.error err, b') ∧ Unpublished b b' := by
  have hlog := logPublish_getOrCreateTopic b codec (st.message topicName payload) topicName
  rw [h] at hlog
  obtain ⟨wal, hlog⟩ := hlog
  obtain ⟨htotal, hitems⟩ := unpublished_getOrCreateTopic b topicName
  have hput : Broker.putNow (st.message topicName payload) false (b.getOrCreateTopic topicName).1 =
      (none, (b.getOrCreateTopic topicName).1) := by
    rw [Broker.putNow, Topic.runPublish_of_not_accepts ht]
    rfl
  have hpublish := (publishWith_of_log (st.message topicName payload) _ hlog).1 _ hput
  refine ⟨_, _, hpublish, htotal, fun name ↦ ?_⟩
  rw [Broker.ringItems_setTopic]
  split
  · rename_i hname
    rw [hname]
    exact (b.ringItems_getOrCreateTopic topicName topicName).1
  · exact hitems name

theorem publish_of_accepts
    (h : (b.logPublish codec (st.message topicName payload)).map Prod.fst = some (.ok ()))
    (ht : (b.getOrCreateTopic topicName).1.Accepts) :
    ∃ b', b.publish codec topicName payload st = some (.ok (st.message topicName payload), b') ∧
      st.message topicName payload ∈ b'.ringItems topicName ∧
      b'.totalPublished = b.totalPublished + 1 := by
  have hlog := logPublish_getOrCreateTopic b codec (st.message topicName payload) topicName
  rw [h] at hlog
  obtain ⟨wal, hlog⟩ := hlog
  have hrun : ∀ msg, (b.getOrCreateTopic topicName).1.runPublish msg false =
      (b.getOrCreateTopic topicName).1.push msg false := by
    intro msg
    rw [Topic.runPublish, show (b.getOrCreateTopic topicName).1.closed = false from
      congrArg Prod.fst ht, if_neg Bool.false_ne_true]
  have hput : Broker.putNow (st.message topicName payload) false (b.getOrCreateTopic topicName).1 =
      (some (st.message topicName payload),
        ((b.getOrCreateTopic topicName).1.push (st.message topicName payload) false).2) := by
    rw [Broker.putNow, (ht.runPublish _ false).1, if_pos rfl, hrun]
  have hpublish := (publishWith_of_log (st.message topicName payload) _ hlog).2 _ _ hput
  refine ⟨_, hpublish, ?_, ?_⟩
  · change _ ∈ (Broker.setTopic _ topicName _).ringItems topicName
    rw [Broker.ringItems_setTopic, if_pos rfl]
    exact Topic.mem_items_push (congrArg Prod.snd ht) _ _
  · exact congrArg (· + 1) (unpublished_getOrCreateTopic b topicName).totalPublished_eq

end

/-! ## The command -/

variable (srv : Server) (env : Env) (c : Conn)

/-- The message of `XADD`. -/
def xaddMessage (topicName : Bytes) (rest : Args) : Message :=
  (env.stamp 0).message topicName (some (payloadBytes (fieldMap rest)))

/-- `XADD` replies with an error and publishes nothing, or its arguments are pairs, one at least,
and all of them can be read from the payload of the message whose identifier is the reply. -/
def KeepsFields (topic streamID : Option Bytes) (rest : Args) : Prop :=
  ∃ c' exit, srv.xadd env c (topic :: streamID :: rest) = .ok (c', exit) ∧
    ((∃ err, c'.writer = c.writer.writeError err) ∧ Unpublished c.broker c'.broker ∨
      rest ≠ [] ∧ rest.length % 2 = 0 ∧
        ∃ msg payload headers, c'.writer = c.writer.writeBulkString (some msg.id) ∧
          msg ∈ c'.broker.ringItems (topic.getD []) ∧ msg.payload = some payload ∧
          readFields payload = some headers ∧ ∀ p ∈ pairsOf rest, p ∈ headers.entries)

/-- Pairs, one at least, in which a field that is repeated has the same value. -/
def WellPaired (rest : Args) : Prop :=
  rest ≠ [] ∧ rest.length % 2 = 0 ∧
    ∀ p ∈ pairsOf rest, ∀ q ∈ pairsOf rest, p.1 = q.1 → p.2 = q.2

theorem xadd_eq (topic streamID field : Option Bytes) (rest : Args) :
    srv.xadd env c (topic :: streamID :: field :: rest) = (do
      let r ← .ofLog (c.broker.publish srv.codec (topic.getD [])
        (some (payloadBytes (fieldMap (field :: rest)))) (env.stamp 0))
      return (c.answerID r, .flush)) := by
  have hlen : ¬(topic :: streamID :: field :: rest).length < 3 := by
    simp only [List.length_cons]
    omega
  have hafter : Args.after (topic :: streamID :: field :: rest) 2 = .ok (field :: rest) :=
    if_pos (by simp only [List.length_cons]; omega)
  rw [xadd, if_neg hlen, show Args.text (topic :: streamID :: field :: rest) 0
    = .ok (topic.getD []) from rfl, hafter]
  simp only [Ending.ok_bind, payloadMap_eq]

private theorem wellPaired_of_keepsFields {topic streamID field : Option Bytes} {rest : Args}
    {u : Unit}
    (hlog : (c.broker.logPublish srv.codec
      (xaddMessage env (topic.getD []) (field :: rest))).map Prod.fst = some (.ok u))
    (ht : (c.broker.getOrCreateTopic (topic.getD [])).1.Accepts)
    (h : srv.KeepsFields env c topic streamID (field :: rest)) : WellPaired (field :: rest) := by
  obtain ⟨b', hpublish, -, htotal⟩ := publish_of_accepts hlog ht
  rw [KeepsFields, xadd_eq, hpublish] at h
  obtain ⟨c', exit, hreply, ⟨-, hun⟩ | ⟨hne, heven, msg, text, headers, -, -, -, -, hall⟩⟩ := h
  · -- the counter says that something has been published
    cases hreply
    have heq : c.broker.totalPublished + 1 = c.broker.totalPublished :=
      htotal.symm.trans hun.totalPublished_eq
    exact absurd heq (by simp)
  · refine ⟨hne, heven, fun p hp q hq hkey ↦ ?_⟩
    exact Sorted.eq_of_mem headers.sorted (hall p hp) (hall q hq) hkey

/-- **No field is lost.** For arguments in UTF-8, `XADD` replies with an error and publishes nothing
or keeps all fields exactly if there is no field; or the log takes the record without a panic, and
it reports an error, or the topic is closed, or the arguments are pairs in which a field that is
repeated has the same value. -/
theorem keepsFields_iff (topic streamID : Option Bytes) (rest : Args)
    (hutf : ∀ arg ∈ rest, Utf8 (arg.getD [])) :
    srv.KeepsFields env c topic streamID rest ↔
      rest = [] ∨ ∃ outcome,
        (c.broker.logPublish srv.codec (xaddMessage env (topic.getD []) rest)).map Prod.fst =
          some outcome ∧
        (outcome.isOk = false ∨ ¬(c.broker.getOrCreateTopic (topic.getD [])).1.Accepts ∨
          WellPaired rest) := by
  rcases rest with - | ⟨field, rest⟩
  · refine iff_of_true ⟨_, _, rfl, Or.inl ⟨⟨_, rfl⟩, rfl, fun _ ↦ rfl⟩⟩ (Or.inl rfl)
  rw [or_iff_right (List.cons_ne_nil _ _), KeepsFields, xadd_eq]
  cases hlog : c.broker.logPublish srv.codec (xaddMessage env (topic.getD []) (field :: rest)) with
  | none =>
    rw [publish_of_log_none hlog]
    refine iff_of_false ?_ ?_
    · rintro ⟨c', exit, h, -⟩
      cases h
    · rintro ⟨outcome, h, -⟩
      cases h
  | some r =>
    obtain ⟨outcome, b₁⟩ := r
    have hfst := congrArg (Option.map Prod.fst) hlog
    rw [Option.map_some]
    simp only [Option.some_inj, exists_eq_left']
    cases outcome with
    | error err =>
      obtain ⟨b', hpublish, hun⟩ := publish_of_log_error hfst
      rw [hpublish]
      exact iff_of_true ⟨_, _, rfl, Or.inl ⟨⟨_, rfl⟩, hun⟩⟩ (Or.inl rfl)
    | ok u =>
      by_cases ht : (c.broker.getOrCreateTopic (topic.getD [])).1.Accepts
      · obtain ⟨b', hpublish, hmem, htotal⟩ := publish_of_accepts hfst ht
        rw [hpublish, or_iff_right (show ¬(Except.ok u : Except Bytes Unit).isOk = false from
          fun h ↦ Bool.false_ne_true h.symm), or_iff_right (not_not.mpr ht)]
        constructor
        · rw [← hpublish, ← xadd_eq srv env c topic streamID]
          exact wellPaired_of_keepsFields srv env c hfst ht
        · rintro ⟨hne, heven, hsame⟩
          have hread := readFields_payloadBytes (sorted_fieldMap (field :: rest)) fun p hp ↦
            utf8_pairsOf hutf p ((mem_of_mem_foldl hp).resolve_right List.not_mem_nil)
          refine ⟨_, _, rfl, Or.inr ⟨hne, heven, _, _, _, rfl, hmem, rfl, hread, fun p hp ↦ ?_⟩⟩
          exact mem_foldl hp fun q hq ↦ hsame q hq p hp
      · obtain ⟨err, b', hpublish, hun⟩ := publish_of_not_accepts hfst ht
        rw [hpublish]
        exact iff_of_true ⟨_, _, rfl, Or.inl ⟨⟨_, rfl⟩, hun⟩⟩ (Or.inr (Or.inl ht))

/-- One field, without a log. -/
theorem keepsFields_iff_one :
    Session.openServer.KeepsFields Session.restingEnv Session.firstContact.conn
      (some (bytesOf "q")) (some (bytesOf "*")) [some (bytesOf "a"), some (bytesOf "1")] := by
  have hutf : ∀ arg ∈ [some (bytesOf "a"), some (bytesOf "1")], Utf8 (arg.getD []) := by
    intro arg harg
    rcases List.mem_pair.mp harg with rfl | rfl
    · exact utf8_bytesOf "a"
    · exact utf8_bytesOf "1"
  refine (keepsFields_iff _ _ _ _ _ _ hutf).mpr (Or.inr ⟨.ok (), rfl, Or.inr (Or.inr ?_)⟩)
  refine ⟨List.cons_ne_nil _ _, rfl, fun p hp q hq _ ↦ ?_⟩
  rw [List.mem_singleton.mp hp, List.mem_singleton.mp hq]

def payloadsAfter (args : Args) : Option (List (Option Bytes)) :=
  match Session.openServer.xadd Session.restingEnv Session.firstContact.conn args with
  | .ok r => some ((r.1.broker.ringItems (bytesOf "q")).map Message.payload)
  | _ => none

/-- A field without a value: an empty map is published. A field with two values: the first one is
lost. -/
theorem fields_lost :
    payloadsAfter [some (bytesOf "q"), some (bytesOf "*"), some (bytesOf "a")] =
      some [some [123, 125]] ∧
    payloadsAfter [some (bytesOf "q"), some (bytesOf "*"), some (bytesOf "a"), some (bytesOf "1"),
        some (bytesOf "a"), some (bytesOf "2")] =
      some [some (payloadBytes [(bytesOf "a", bytesOf "2")])] ∧
    ¬Session.openServer.KeepsFields Session.restingEnv Session.firstContact.conn
      (some (bytesOf "q")) (some (bytesOf "*")) [some (bytesOf "a")] ∧
    ¬Session.openServer.KeepsFields Session.restingEnv Session.firstContact.conn
      (some (bytesOf "q")) (some (bytesOf "*"))
      [some (bytesOf "a"), some (bytesOf "1"), some (bytesOf "a"), some (bytesOf "2")] := by
  have haccepts := (Topic.ring_default (bytesOf "q")).1
  refine ⟨by decide +kernel, by decide +kernel, fun h ↦ ?_, fun h ↦ ?_⟩
  · have hpaired := wellPaired_of_keepsFields _ _ Session.firstContact.conn rfl haccepts h
    exact absurd hpaired.2.1 (by decide)
  · have hpaired := wellPaired_of_keepsFields _ _ Session.firstContact.conn rfl haccepts h
    have hsame := hpaired.2.2 (bytesOf "a", bytesOf "1") (by decide) (bytesOf "a", bytesOf "2")
      (by decide) rfl
    exact absurd hsame (by decide)

end Server

end VortexMQ
