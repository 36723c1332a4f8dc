import VortexMQ.Api.Server
import VortexMQ.Queue.DeadLetterOrder
import VortexMQ.Queue.WriteAhead

/-!
# Replaying what is listed

The studio fetches the dead letters and shows a button for each of them. The button sends the topic
and the identifier of the message as they stand in the entry. The server takes the topic for the
name under which the broker keeps the queue, so the button works only if the two are the same, and
they are: what a topic holds was published to it (`BrokerState.within_of_run`).

An operator may press the buttons in any order, and entries that have been replayed do not get in
the way of the others. `Server.listed_can_be_replayed` puts this together: the bytes of the list,
the answers to all the requests, and what is in the rings and the dead letter queues afterwards.
-/

namespace VortexMQ

namespace Api

/-- What a request to replay can name: the server takes an empty name for a missing one, and a
string in JSON is UTF-8. -/
structure Nameable (s : Bytes) : Prop where
  ne_nil : s ≠ []
  utf8 : Utf8 s

/-- What the studio sends back of an entry. -/
def tag (e : DeadLetterEntry) : Bytes × Bytes := (e.message.topic, e.message.id)

/-- A press of the button. -/
def replayRequest (e : DeadLetterEntry) : Request where
  method := bytesOf "POST"
  segments := Server.route ["dlq", "replay"]
  query := []
  body := replayText e.message.topic e.message.id
  bodyFails := false

/-- The answer, with the headers of `corsMiddleware`. -/
def Reply.withCors (reply : Reply) : Reply :=
  { reply with header := Server.corsHeader ++ reply.header }

/-- The entry is in the dead letter queue of the topic that it names. -/
def Listed (b : Broker) (e : DeadLetterEntry) : Prop :=
  ∃ t, b.getTopic e.message.topic = some t ∧ t.dlq.entries.lookup e.message.id = some e

/-- Presses of buttons, each with what the handler takes from its environment. -/
abbrev Clicks := List (Env × DeadLetterEntry)

namespace Clicks

/-- Those for the topic, as they come back. -/
def revived (clicks : Clicks) (name : Bytes) : List Message :=
  (clicks.filter fun x ↦ x.2.message.topic = name).map fun x ↦ Topic.revive x.2.message x.1.now

/-- Everything clicked has moved from the dead letter queue of its topic to the end of the ring, in
the order of the clicks, and nothing else has changed in the queue. -/
structure Moved (clicks : Clicks) (name : Bytes) (t t' : Topic) : Prop where
  order : t'.dlq.order = t.dlq.order.filter fun id ↦ (name, id) ∉ clicks.map fun x ↦ tag x.2
  lookup : ∀ id ∈ t'.dlq.order, t'.dlq.entries.lookup id = t.dlq.entries.lookup id
  ring : t.ring.closed = false →
    t.ring.items.length + (clicks.revived name).length ≤ saturationCapacity.toNat →
    t'.ring.closed = false ∧ t'.ring.items = t.ring.items ++ clicks.revived name

end Clicks

namespace Server

variable {api : Server} {env : Env} {b : Broker} {r : Request}

/-- Serve requests one after the other. -/
def serveAll (api : Server) : List (Env × Request) → Broker → Option (List Reply × Broker)
  | [], b => some ([], b)
  | (env, r) :: rest, b =>
      (api.serve env b r).bind fun x ↦ (api.serveAll rest x.2).map fun y ↦ (x.1 :: y.1, y.2)

/-! ## The list -/

/-- The tags of the list: the first hundred of one topic, or the first fifty of each. -/
def listing (env : Env) (b : Broker) (r : Request) : List (Bytes × Bytes) :=
  if r.get "topic" ≠ [] then page 100 (r.get "topic") else (topicsList env b).flatMap (page 50)
where
  page (limit : ℕ) (name : Bytes) : List (Bytes × Bytes) :=
    ((b.getTopic name).elim [] fun t ↦ t.dlq.order.take limit).map fun id ↦ (name, id)

private theorem serve_dlq (hr : r.segments = route ["dlq"])
    (hmethod : r.method ≠ bytesOf "OPTIONS") :
    api.serve env b r = (api.handleDLQ env b r).map fun reply ↦ (reply.withCors, b) := by
  have hcanonical : r.Canonical := by
    rw [Request.Canonical, hr]
    decide
  rw [serve, if_neg hmethod, serveMux, api.redirect_canonical r hcanonical, hr]
  have hstats : route ["dlq"] ≠ route ["stats"] := by decide
  have htopics : route ["dlq"] ≠ route ["topics"] := by decide
  have hbelow : ¬route ["topics"] <+: route ["dlq"] := by decide
  simp only [hstats, htopics, hbelow, if_false, if_true, Option.map_map]
  rfl

/-- Everything in the dead letter queue of a topic was published to the topic. -/
def Homed (b : Broker) : Prop :=
  ∀ name t, b.getTopic name = some t → ∀ e ∈ t.dlq.entries.entries, e.2.message.topic = name

theorem listOf_eq (hhomed : Homed b) {limit : ℕ} (hlimit : limit < 2 ^ 63) (name : Bytes) :
    ∃ es, listOf b limit name = some es ∧ (∀ e ∈ es, Listed b e) ∧
      es.map tag = listing.page b limit name := by
  rw [listOf, listing.page]
  cases ht : b.getTopic name with
  | none => exact ⟨[], rfl, by simp, rfl⟩
  | some t =>
    obtain ⟨es, hes, hmap⟩ := t.dlq.list_eq (le_refl 0) (Int.natCast_nonneg limit) (by omega)
    rw [Int.toNat_zero, List.drop_zero, Int.toNat_natCast] at hmap
    have htag : ∀ {e id}, t.dlq.entries.lookup id = some e → tag e = (name, id) := by
      intro e id hlookup
      have hmem := AList.mem_lookup_iff.mp hlookup
      exact Prod.ext (hhomed name t ht _ hmem) (t.dlq.keyed _ hmem)
    refine ⟨es, hes, fun e he ↦ ?_, ?_⟩
    · have hsome : some e ∈ (t.dlq.order.take limit).map t.dlq.entries.lookup :=
        hmap ▸ List.mem_map_of_mem he
      obtain ⟨id, -, hlookup⟩ := List.mem_map.mp hsome
      obtain ⟨htopic, hid⟩ := Prod.mk.inj (htag hlookup)
      exact ⟨t, htopic ▸ ht, hid ▸ hlookup⟩
    · have htags := congrArg (List.map (Option.map tag)) hmap
      have hleft : (es.map some).map (Option.map tag) = (es.map tag).map some := by
        rw [List.map_map, List.map_map]
        rfl
      have hright : ((t.dlq.order.take limit).map t.dlq.entries.lookup).map (Option.map tag)
          = ((t.dlq.order.take limit).map fun id ↦ (name, id)).map some := by
        rw [List.map_map, List.map_map]
        refine List.map_congr_left fun id hid ↦ ?_
        obtain ⟨e, he, -⟩ := DeadLetterQueue.exists_entry (List.mem_of_mem_take hid)
        rw [Function.comp_apply, Function.comp_apply, he, Option.map_some, htag he]
      rw [hleft, hright] at htags
      exact List.map_injective_iff.mpr (Option.some_injective _) htags

private theorem listAll_eq (hhomed : Homed b) : ∀ names : List Bytes,
    ∃ es, listAll b names = some es ∧ (∀ e ∈ es, Listed b e) ∧
      es.map tag = names.flatMap (listing.page b 50) := by
  intro names
  induction names with
  | nil => exact ⟨[], rfl, by simp, rfl⟩
  | cons name names ih =>
    obtain ⟨es, hes, hlisted, htags⟩ := listOf_eq hhomed (by decide : 50 < 2 ^ 63) name
    obtain ⟨es', hes', hlisted', htags'⟩ := ih
    refine ⟨es ++ es', ?_, fun e he ↦ ?_, ?_⟩
    · rw [listAll, show listOf b 50 name = some es from hes, Option.bind_some, hes']
      rfl
    · exact (List.mem_append.mp he).elim (hlisted e) (hlisted' e)
    · rw [List.map_append, List.flatMap_cons, htags, htags']

/-- **The list.** -/
theorem handleDLQ_eq (api : Server) (hhomed : Homed b) (env : Env) (r : Request) :
    ∃ es, api.handleDLQ env b r = some (encode (entriesText api.codec es)) ∧
      (∀ e ∈ es, Listed b e) ∧ es.map tag = listing env b r := by
  rw [handleDLQ, listing]
  split
  · obtain ⟨es, hes, hlisted, htags⟩ := listOf_eq hhomed (by decide : 100 < 2 ^ 63) (r.get "topic")
    rw [show listOf b 100 (r.get "topic") = some es from hes]
    exact ⟨es, rfl, hlisted, htags⟩
  · obtain ⟨es, hes, hlisted, htags⟩ := listAll_eq hhomed (topicsList env b)
    rw [hes]
    exact ⟨es, rfl, hlisted, htags⟩

/-! ## A click -/

def replayed (t : Topic) (e : DeadLetterEntry) (now : ℤ) : Topic :=
  Topic.onExpire { t with dlq := t.dlq.drop e.message.id } (Topic.revive e.message now)

/-- **The answer to a click.** -/
theorem serve_replay {e : DeadLetterEntry} {t : Topic} (ht : b.getTopic e.message.topic = some t)
    (hlookup : t.dlq.entries.lookup e.message.id = some e) (htopic : Nameable e.message.topic)
    (hid : Nameable e.message.id) (api : Server) (env : Env) :
    api.serve env b (replayRequest e)
      = some ((encode (doneText "replayed" e.message.id e.message.topic)).withCors,
        b.setTopic e.message.topic (replayed t e env.now)) := by
  have hcanonical : (replayRequest e).Canonical := by
    change ∀ s ∈ route ["dlq", "replay"], s ≠ [] ∧ s ≠ bytesOf "." ∧ s ≠ bytesOf ".."
    decide
  have hroute : (replayRequest e).segments = route ["dlq", "replay"] := rfl
  have hmethod : ¬(replayRequest e).method = bytesOf "OPTIONS" := by
    change ¬bytesOf "POST" = bytesOf "OPTIONS"
    decide
  have hstats : route ["dlq", "replay"] ≠ route ["stats"] := by decide
  have htopics : route ["dlq", "replay"] ≠ route ["topics"] := by decide
  have hbelow : ¬route ["topics"] <+: route ["dlq", "replay"] := by decide
  have hdlq : route ["dlq", "replay"] ≠ route ["dlq"] := by decide
  have hremove : t.dlq.remove e.message.id = some (e.message, t.dlq.drop e.message.id) := by
    rw [DeadLetterQueue.remove, hlookup]
    rfl
  have hreplay : b.replayDLQ e.message.topic e.message.id env.now
      = (some (Topic.revive e.message env.now),
        b.setTopic e.message.topic (replayed t e env.now)) := by
    rw [Broker.replayDLQ, ht]
    simp only [Topic.runReplayDeadLetter, hremove]
    rfl
  have hdecode : api.decodeReplay (replayRequest e).body (replayRequest e).bodyFails
      = some (e.message.topic, e.message.id) :=
    api.decodeReplay_replayText _ _ htopic.utf8 hid.utf8
  have hpost : ¬(replayRequest e).method ≠ bytesOf "POST" := not_not.mpr rfl
  have hnamed : ¬(e.message.topic = [] ∨ e.message.id = []) :=
    not_or.mpr ⟨htopic.ne_nil, hid.ne_nil⟩
  rw [serve, if_neg hmethod, serveMux, api.redirect_canonical _ hcanonical, hroute]
  simp only [hstats, htopics, hbelow, hdlq, if_false, if_true, Option.map_some]
  rw [handleDLQReplay, if_neg hpost, hdecode]
  simp only [hnamed, if_false, hreplay]
  rfl

/-! ## Clicks -/

end Server

namespace Clicks

variable {clicks : Clicks} {name : Bytes} {t t' t'' : Topic} {e : DeadLetterEntry} {env : Env}

private theorem moved_nil (name : Bytes) (t : Topic) : Moved [] name t t where
  order := by simp
  lookup _ _ := rfl
  ring hopen _ := ⟨hopen, (List.append_nil _).symm⟩

private theorem moved_of_ne (hne : e.message.topic ≠ name) : Moved [(env, e)] name t t where
  order := by
    refine (List.filter_eq_self.mpr fun id _ ↦ ?_).symm
    simp [tag, hne.symm]
  lookup _ _ := rfl
  ring hopen _ := by
    refine ⟨hopen, ?_⟩
    simp [revived, hne]

private theorem moved_replayed (ht : e.message.topic = name) :
    Moved [(env, e)] name t (Server.replayed t e env.now) where
  order := by
    have herase : t.dlq.order.eraseP (fun oid ↦ oid = e.message.id)
        = t.dlq.order.erase e.message.id := by
      rw [List.erase_eq_eraseP']
      exact congrArg (List.eraseP · _) (funext fun oid ↦ (beq_eq_decide oid _).symm)
    refine (herase.trans (t.dlq.order_nodup.erase_eq_filter _)).trans
      (List.filter_congr fun id _ ↦ ?_)
    simp [tag, ht, bne, beq_eq_decide]
  lookup id hid := by
    have hne : id ≠ e.message.id := by
      rintro rfl
      have hmem : e.message.id ∈ t.dlq.entries.erase e.message.id :=
        ((Server.replayed t e env.now).dlq.mem_order_iff _).mp hid
      exact (AList.mem_erase.mp hmem).1 rfl
    exact AList.lookup_erase_ne hne
  ring hopen hroom := by
    have hrevived : revived [(env, e)] name = [Topic.revive e.message env.now] := by
      simp [revived, ht]
    rw [hrevived] at hroom ⊢
    obtain ⟨-, hitems, hopen'⟩ := Ring.push_eq (Topic.revive e.message env.now) hopen hroom
    exact ⟨hopen', hitems⟩

theorem Moved.trans {clicks' : Clicks} (h : Moved clicks name t t')
    (h' : Moved clicks' name t' t'') : Moved (clicks ++ clicks') name t t'' where
  order := by
    rw [h'.order, h.order, List.filter_filter]
    refine List.filter_congr fun id _ ↦ ?_
    rw [← Bool.decide_and]
    exact decide_eq_decide.mpr (by rw [List.map_append, List.mem_append, not_or, and_comm])
  lookup id hid := by
    rw [h'.lookup id hid]
    rw [h'.order] at hid
    exact h.lookup id (List.mem_of_mem_filter hid)
  ring hopen hroom := by
    have hrevived : revived (clicks ++ clicks') name
        = clicks.revived name ++ clicks'.revived name := by
      simp [revived]
    rw [hrevived, List.length_append] at hroom
    obtain ⟨hopen', hitems⟩ := h.ring hopen (by omega)
    obtain ⟨hopen'', hitems'⟩ := h'.ring hopen' (by rw [hitems, List.length_append]; omega)
    exact ⟨hopen'', by rw [hitems', hitems, hrevived, List.append_assoc]⟩

end Clicks

namespace Server

variable {api : Server} {b : Broker}

private theorem listed_setTopic_replayed {e e' : DeadLetterEntry} {t : Topic} {now : ℤ}
    (ht : b.getTopic e.message.topic = some t) (h : Listed b e') (hne : tag e' ≠ tag e) :
    Listed (b.setTopic e.message.topic (replayed t e now)) e' := by
  obtain ⟨t', ht', hlookup⟩ := h
  by_cases htopic : e'.message.topic = e.message.topic
  · have hid : e'.message.id ≠ e.message.id := fun hid ↦ hne (Prod.ext htopic hid)
    rw [htopic] at ht'
    obtain rfl := Option.some_inj.mp (ht.symm.trans ht')
    refine ⟨replayed t e now, ?_, (AList.lookup_erase_ne hid).trans hlookup⟩
    rw [htopic]
    exact AList.lookup_insert _
  · exact ⟨t', (AList.lookup_insert_ne htopic).trans ht', hlookup⟩

/-- **Clicks on entries of the list**, one after the other. -/
theorem serveAll_replay : ∀ {clicks : Clicks} {b : Broker},
    (clicks.map fun x ↦ tag x.2).Nodup →
    (∀ x ∈ clicks, Listed b x.2 ∧ Nameable x.2.message.topic ∧ Nameable x.2.message.id) →
    ∃ b', api.serveAll (clicks.map fun x ↦ (x.1, replayRequest x.2)) b
        = some (clicks.map fun x ↦ (encode (doneText "replayed" x.2.message.id
          x.2.message.topic)).withCors, b') ∧
      ∀ name t, b.getTopic name = some t →
        ∃ t', b'.getTopic name = some t' ∧ clicks.Moved name t t' := by
  intro clicks
  induction clicks with
  | nil =>
    intro b _ _
    exact ⟨b, rfl, fun name t ht ↦ ⟨t, ht, Clicks.moved_nil name t⟩⟩
  | cons x clicks ih =>
    obtain ⟨env, e⟩ := x
    intro b hnodup hlisted
    obtain ⟨⟨t₀, ht₀, hlookup⟩, htopic, hid⟩ := hlisted (env, e) List.mem_cons_self
    obtain ⟨hnotMem, hnodup⟩ := List.nodup_cons.mp hnodup
    have hserve := serve_replay ht₀ hlookup htopic hid api env
    have hothers : ∀ y ∈ clicks, Listed (b.setTopic e.message.topic (replayed t₀ e env.now)) y.2 ∧
        Nameable y.2.message.topic ∧ Nameable y.2.message.id := by
      intro y hy
      obtain ⟨hlisted', hnameable⟩ := hlisted y (List.mem_cons_of_mem _ hy)
      refine ⟨listed_setTopic_replayed ht₀ hlisted' fun heq ↦ hnotMem ?_, hnameable⟩
      exact List.mem_map.mpr ⟨y, hy, heq⟩
    obtain ⟨b', hb', hmoved⟩ := ih hnodup hothers
    refine ⟨b', ?_, fun name t ht ↦ ?_⟩
    · rw [List.map_cons, serveAll, hserve, Option.bind_some, hb']
      rfl
    · by_cases hname : e.message.topic = name
      · subst hname
        obtain rfl := Option.some_inj.mp (ht₀.symm.trans ht)
        obtain ⟨t', ht', hrest⟩ := hmoved _ (replayed t₀ e env.now) (AList.lookup_insert _)
        exact ⟨t', ht', (Clicks.moved_replayed rfl).trans hrest⟩
      · obtain ⟨t', ht', hrest⟩ := hmoved name t ((AList.lookup_insert_ne (Ne.symm hname)).trans ht)
        exact ⟨t', ht', (Clicks.moved_of_ne hname).trans hrest⟩

private theorem eq_of_tag_eq {e e' : DeadLetterEntry} (h : Listed b e) (h' : Listed b e')
    (heq : tag e = tag e') : e = e' := by
  obtain ⟨htopic, hid⟩ := Prod.mk.inj heq
  obtain ⟨t, ht, hlookup⟩ := h
  obtain ⟨t', ht', hlookup'⟩ := h'
  rw [← htopic] at ht'
  obtain rfl := Option.some_inj.mp (ht.symm.trans ht')
  rw [← hid] at hlookup'
  exact Option.some_inj.mp (hlookup.symm.trans hlookup')

/-- **What is listed can be replayed, in any order.** Take a broker at any moment of any
interleaving of its operations. The list of dead letters, of one topic or of all, leaves the broker
alone and consists of the first entries of each queue, as they are in it. Then take any of these
entries, each once and in any order, whose topic and identifier a request can name, and ask for
their replay. Every request is answered by `replayed` with the identifier and the topic of the
entry, and afterwards these entries are at the end of their rings, in the order of the requests, as
long as there is room, and the other entries are in their queues as before. -/
theorem listed_can_be_replayed (api : Server) {c : Codec} {start : BrokerState.Start} {now : ℤ}
    {labels : List BrokerState.Label} {s : BrokerState}
    (hrun : Run (BrokerState.step c) (fun _ ↦ True) (BrokerState.idle (start.broker c now)) labels
      s)
    (env : Env) {r : Request} (hr : r.segments = route ["dlq"])
    (hmethod : r.method ≠ bytesOf "OPTIONS") :
    ∃ es, api.serve env s.broker r
        = some ((encode (entriesText api.codec es)).withCors, s.broker) ∧
      es.map tag = listing env s.broker r ∧ (∀ e ∈ es, Listed s.broker e) ∧
      ∀ clicks : Clicks, (clicks.map Prod.snd).Nodup →
        (∀ x ∈ clicks, x.2 ∈ es ∧ Nameable x.2.message.topic ∧ Nameable x.2.message.id) →
        ∃ b', api.serveAll (clicks.map fun x ↦ (x.1, replayRequest x.2)) s.broker
            = some (clicks.map fun x ↦ (encode (doneText "replayed" x.2.message.id
              x.2.message.topic)).withCors, b') ∧
          ∀ name t, s.broker.getTopic name = some t →
            ∃ t', b'.getTopic name = some t' ∧ clicks.Moved name t t' := by
  have hhomed : Homed s.broker := fun name t ht e he ↦
    ((BrokerState.within_of_run hrun).broker name t ht .dlq e.2.message
      (List.mem_map_of_mem he)).1
  obtain ⟨es, hes, hlisted, htags⟩ := handleDLQ_eq api hhomed env r
  refine ⟨es, ?_, htags, hlisted, fun clicks hnodup hclicks ↦ serveAll_replay ?_ fun x hx ↦ ?_⟩
  · rw [serve_dlq hr hmethod, hes]
    rfl
  · have htag : (clicks.map fun x ↦ tag x.2) = (clicks.map Prod.snd).map tag := by
      rw [List.map_map]
      rfl
    rw [htag]
    refine List.Nodup.map_on (fun e he e' he' heq ↦ ?_) hnodup
    obtain ⟨x, hx, rfl⟩ := List.mem_map.mp he
    obtain ⟨x', hx', rfl⟩ := List.mem_map.mp he'
    exact eq_of_tag_eq (hlisted _ (hclicks x hx).1) (hlisted _ (hclicks x' hx').1) heq
  · obtain ⟨hmem, hnameable⟩ := hclicks x hx
    exact ⟨hlisted _ hmem, hnameable⟩

def spentJob : Message := { BrokerHistory.job with retryCount := 3 }

theorem short_spentJob : (Entry.publish spentJob).Short MessageJson.codec :=
  Entry.short_publish (by decide +kernel)

def spentLog : Directory :=
  ((Wal.openWAL ∅ .always).written (Entry.record MessageJson.codec (.publish spentJob)
    short_spentJob)).dir

private theorem boot_spentLog :
    (BrokerState.Start.withLog spentLog .always).broker MessageJson.codec 0
    = (Broker.newBroker (some (Wal.openWAL spentLog .always)) 0).recover spentJob := by
  have hjob : BrokerHistory.job.Portable :=
    Message.portable_newMessage (utf8_bytesOf _) BrokerHistory.jobStamp.inRange _ _ _
  have hportable : spentJob.Portable := { hjob with retryCount := (by decide : Int64Range 3) }
  have hstores : (Wal.openWAL ∅ .always).Stores MessageJson.codec .always [] :=
    Wal.Stores.openWAL (Directory.holds_empty _)
  have hwrite := Wal.write_eq (w := Wal.openWAL ∅ .always) rfl short_spentJob
  rcases hstores.write ⟨short_spentJob, hportable⟩ hwrite with ⟨hclosed, -⟩ | ⟨-, -, hnew⟩
  · exact absurd hclosed Bool.false_ne_true
  · have hdir := Wal.holds_dir_openWAL (hnew.holds_dir rfl) .always
    have hreplay := List.perm_singleton.mp hdir.replay_perm
    rw [BrokerState.Start.broker, Broker.boot, spentLog, hreplay, List.foldl_cons, List.foldl_nil]

def spentFails : List BrokerState.Label :=
  [.consumeGroup (bytesOf "orders") (bytesOf "g") (bytesOf "c"), .resume 0 0 [], .resume 0 0 [],
    .resume 0 0 [], .resume 0 0 [],
    .nack (bytesOf "orders") (bytesOf "g") spentJob.id (bytesOf "no"), .resume 0 0 [],
    .resume 0 0 [], .resume 0 0 []]

def plainEnv : Env :=
  ⟨BrokerHistory.jobStamp, 7, ⟨0, id, fun stats ↦ List.Perm.refl stats⟩, id,
    fun names ↦ List.Perm.refl names⟩

/-- `GET /api/v1/dlq`. -/
def listRequest : Request := ⟨bytesOf "GET", route ["dlq"], [], [], false⟩

/-- The job is in the list of all dead letters, and a click puts it back into the ring. -/
theorem listed_can_be_replayed_spent :
    ∃ s e t' b', Run (BrokerState.step MessageJson.codec) (fun _ ↦ True)
        (BrokerState.idle ((BrokerState.Start.withLog spentLog .always).broker MessageJson.codec 0))
        spentFails s ∧
      plainServer.serve plainEnv s.broker listRequest
        = some ((encode (entriesText MessageJson.codec [e])).withCors, s.broker) ∧
      plainServer.serveAll [(plainEnv, replayRequest e)] s.broker
        = some ([(encode (doneText "replayed" spentJob.id (bytesOf "orders"))).withCors], b') ∧
      b'.getTopic (bytesOf "orders") = some t' ∧ t'.dlq.order = [] ∧
      t'.ring.items = [Topic.revive e.message 7] := by
  have hsome : (Run.exec (BrokerState.step MessageJson.codec) (fun _ ↦ True)
      (BrokerState.idle ((Broker.newBroker (some (Wal.openWAL spentLog .always)) 0).recover
        spentJob)) spentFails).isSome := by
    decide +kernel
  obtain ⟨s, hs⟩ := Option.isSome_iff_exists.mp hsome
  have hrun := Run.of_exec hs
  have hlisting := hrun.of_exec_map (f := fun s ↦ listing plainEnv s.broker listRequest)
    (a := [(bytesOf "orders", spentJob.id)]) (by decide +kernel)
  have hstate := hrun.of_exec_map (f := fun s ↦ (s.broker.getTopic (bytesOf "orders")).map
    fun t ↦ (t.dlq.order, t.ring.items, t.ring.closed)) (a := some ([spentJob.id], [], false))
    (by decide +kernel)
  obtain ⟨t, ht, hfields⟩ := Option.map_eq_some_iff.mp hstate
  obtain ⟨horder, hfields⟩ := Prod.mk.inj hfields
  obtain ⟨hitems, hopen⟩ := Prod.mk.inj hfields
  have hmethod : bytesOf "GET" ≠ bytesOf "OPTIONS" := by decide
  rw [← boot_spentLog] at hrun
  obtain ⟨es, hserve, htags, -, hreplay⟩ :=
    listed_can_be_replayed plainServer hrun plainEnv (r := listRequest) rfl hmethod
  obtain ⟨e, rfl, htag⟩ := List.map_eq_singleton_iff.mp (htags.trans hlisting)
  obtain ⟨htopic, hid⟩ := Prod.mk.inj htag
  have hnameable : Nameable e.message.topic ∧ Nameable e.message.id := by
    rw [htopic, hid]
    exact ⟨⟨by decide, utf8_bytesOf _⟩, by decide +kernel, Message.utf8_newID _ _ _⟩
  obtain ⟨b', hb', hmoved⟩ := hreplay [(plainEnv, e)] (List.nodup_singleton _)
    (by simpa using hnameable)
  obtain ⟨t', ht', hmoved⟩ := hmoved _ t ht
  have hrevived : Clicks.revived [(plainEnv, e)] (bytesOf "orders")
      = [Topic.revive e.message 7] := by
    simp [Clicks.revived, htopic, plainEnv]
  have hroom : 0 + 1 ≤ saturationCapacity.toNat := by decide
  have hring := (hmoved.ring hopen (by rw [hitems, hrevived]; exact hroom)).2
  rw [hitems, hrevived] at hring
  have horder' := hmoved.order
  rw [horder] at horder'
  refine ⟨_, e, t', b', hrun, hserve, ?_, ht', horder'.trans ?_, hring⟩
  · rw [← htopic, ← hid]
    exact hb'
  · simp [htag]

end Server

end Api

end VortexMQ
