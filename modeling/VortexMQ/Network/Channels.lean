import VortexMQ.Basic.ListIndex
import VortexMQ.Basic.Run
import VortexMQ.Network.Server

/-!
# Ephemeral channels

`SubscribeChannel` returns a Go channel, and whoever has it can receive from it and hand it back to
`UnsubscribeChannel`, under any name and more than once. So Go channels are references here: they
are numbered in the order in which they are made, and the broker has a set of numbers under each
name.

What subscribers are owed is kept apart from that, in an `Account` that follows the calls alone. A
subscription is live until it is given back under the name it was made for; a broadcast is accepted
by the live subscriptions of its name that have fewer than 1024 payloads to be received.

`UnsubscribeChannel` closes the Go channel whenever the name has subscribers, whether or not it is
one of them. As long as it always is, the two agree.
-/

namespace VortexMQ

/-- Go channels, and which of them are subscribed under which name. -/
structure Hub where
  /-- So many have been made. -/
  made : ℕ
  chan : ℕ → Subscriber
  channels : AList fun _ : Bytes ↦ List ℕ

namespace Hub

def subscribed (hub : Hub) (channel : Bytes) : List ℕ := (hub.channels.lookup channel).getD []

theorem subscribed_eq {hub : Hub} {channel : Bytes} {subs : List ℕ}
    (h : hub.channels.lookup channel = some subs) : hub.subscribed channel = subs := by
  rw [subscribed, h]
  rfl

def setChan (hub : Hub) (h : ℕ) (sub : Subscriber) : Hub :=
  { hub with chan := Function.update hub.chan h sub }

theorem chan_setChan_self (hub : Hub) (h : ℕ) (sub : Subscriber) :
    (hub.setChan h sub).chan h = sub := Function.update_self _ _ _

theorem chan_setChan_of_ne (hub : Hub) {h h' : ℕ} (hne : h' ≠ h) (sub : Subscriber) :
    (hub.setChan h sub).chan h' = hub.chan h' := Function.update_of_ne hne _ _

/-- The set under a name is replaced; an empty one is deleted. -/
def setSubscribed (hub : Hub) (channel : Bytes) (subs : List ℕ) : Hub :=
  { hub with
    channels :=
      if subs = [] then hub.channels.erase channel else hub.channels.insert channel subs }

theorem subscribed_setSubscribed (hub : Hub) (channel name : Bytes) (subs : List ℕ) :
    (hub.setSubscribed channel subs).subscribed name =
      if name = channel then subs else hub.subscribed name := by
  rw [subscribed, setSubscribed]
  split
  · rename_i hsubs
    split
    · rename_i hname
      rw [hname, AList.lookup_erase, hsubs]
      rfl
    · rename_i hname
      rw [AList.lookup_erase_ne hname, subscribed]
  · split
    · rename_i hname
      rw [hname, AList.lookup_insert]
      rfl
    · rename_i hname
      rw [AList.lookup_insert_ne hname, subscribed]

def subscribeChannel (hub : Hub) (channel : Bytes) : ℕ × Hub :=
  (hub.made,
    { (hub.setChan hub.made ⟨[], false⟩).setSubscribed channel
        (hub.made :: hub.subscribed channel) with
      made := hub.made + 1 })

/-- `close(ch)`, which panics if the channel is closed. -/
def close (hub : Hub) (h : ℕ) : Ending Panic Hub :=
  if (hub.chan h).closed then .fault .closedChannel
  else .ok (hub.setChan h { hub.chan h with closed := true })

def unsubscribeChannel (hub : Hub) (channel : Bytes) (h : ℕ) : Ending Panic Hub :=
  match hub.channels.lookup channel with
  | none => .ok hub
  | some subs => (hub.setSubscribed channel (subs.erase h)).close h

def offer (payload : Option Bytes) (sub : Subscriber) : Subscriber :=
  if Broker.Subscriber.HasRoom sub then { sub with queue := sub.queue ++ [payload] } else sub

/-- The loop of `Broadcast`. A send on a closed channel panics, even where it need not be made. -/
def sendLoop (payload : Option Bytes) : List ℕ → ℕ → Hub → Ending Panic (ℕ × Hub)
  | [], count, hub => .ok (count, hub)
  | h :: subs, count, hub =>
      if (hub.chan h).closed then .fault .closedChannel
      else
        sendLoop payload subs
          (if Broker.Subscriber.HasRoom (hub.chan h) then count + 1 else count)
          (hub.setChan h (offer payload (hub.chan h)))

def broadcast (hub : Hub) (channel : Bytes) (payload : Option Bytes) : Ending Panic (ℕ × Hub) :=
  sendLoop payload (hub.subscribed channel) 0 hub

/-- A receive waits while the channel is empty, unless it is closed; then there is no payload. -/
def receive (hub : Hub) (h : ℕ) : Option (Option (Option Bytes) × Hub) :=
  match (hub.chan h).queue with
  | payload :: rest => some (some payload, hub.setChan h { hub.chan h with queue := rest })
  | [] => if (hub.chan h).closed then some (none, hub) else none

end Hub

/-! ## Calls -/

/-- A process: the hub, what `Broadcast` has returned, what has been received from each channel, and
whether it has panicked. -/
structure Traffic where
  hub : Hub
  returned : List ℕ
  received : ℕ → List (Option Bytes)
  panicked : Option Panic

namespace Traffic

inductive Label where
  | subscribe (channel : Bytes)
  | unsubscribe (channel : Bytes) (h : ℕ)
  | broadcast (channel : Bytes) (payload : Option Bytes)
  | receive (h : ℕ)

def start : Traffic := ⟨⟨0, fun _ ↦ ⟨[], false⟩, ∅⟩, [], fun _ ↦ [], none⟩

def after {α : Type} (s : Traffic) (f : α → Traffic) : Ending Panic α → Option Traffic
  | .ok a => some (f a)
  | .wait => none
  | .fault e => some { s with panicked := some e }

/-- A channel has to be made before it can be used. -/
def act (s : Traffic) : Label → Option Traffic
  | .subscribe channel => some { s with hub := (s.hub.subscribeChannel channel).2 }
  | .unsubscribe channel h =>
      if h < s.hub.made then
        s.after (fun hub ↦ { s with hub := hub }) (s.hub.unsubscribeChannel channel h)
      else none
  | .broadcast channel payload =>
      s.after (fun r ↦ { s with hub := r.2, returned := s.returned ++ [r.1] })
        (s.hub.broadcast channel payload)
  | .receive h =>
      if h < s.hub.made then
        (s.hub.receive h).map fun r ↦
          { s with
            hub := r.2
            received := Function.update s.received h (s.received h ++ r.1.toList) }
      else none

/-- After a panic there is no process. -/
def step (s : Traffic) (l : Label) : Option Traffic :=
  if s.panicked.isSome then none else s.act l

/-- A Go channel is given back under a name that has no subscribers, or whose subscriber it is. -/
def Own (s : Traffic) : Label → Prop
  | .unsubscribe channel h => ∀ subs ∈ s.hub.channels.lookup channel, h ∈ subs
  | _ => True

instance (s : Traffic) : DecidablePred s.Own
  | .unsubscribe channel h =>
      inferInstanceAs (Decidable (∀ subs ∈ s.hub.channels.lookup channel, h ∈ subs))
  | .subscribe _ => inferInstanceAs (Decidable True)
  | .broadcast _ _ => inferInstanceAs (Decidable True)
  | .receive _ => inferInstanceAs (Decidable True)

end Traffic

/-! ## What subscribers are owed -/

/-- A subscription: the payloads that it has accepted, and how many of them have been received. -/
structure Subscription where
  channel : Bytes
  live : Bool
  accepted : List (Option Bytes)
  taken : ℕ
  deriving DecidableEq

namespace Subscription

/-- A broadcast is for this subscription, and there is room. -/
def Takes (channel : Bytes) (sub : Subscription) : Prop :=
  sub.live = true ∧ sub.channel = channel ∧ sub.accepted.length < sub.taken + 1024

instance (channel : Bytes) (sub : Subscription) : Decidable (sub.Takes channel) :=
  inferInstanceAs (Decidable (_ ∧ _ ∧ _))

def accept (channel : Bytes) (payload : Option Bytes) (sub : Subscription) : Subscription :=
  if sub.Takes channel then { sub with accepted := sub.accepted ++ [payload] } else sub

def giveBack (channel : Bytes) (sub : Subscription) : Subscription :=
  if sub.channel = channel then { sub with live := false } else sub

def take (sub : Subscription) : Subscription :=
  { sub with taken := min (sub.taken + 1) sub.accepted.length }

end Subscription

/-- The subscriptions in the order in which they were made, and what broadcasts should return. -/
structure Account where
  subs : List Subscription
  returned : List ℕ

/-- The account follows the calls. -/
def Account.next (a : Account) : Traffic.Label → Account
  | .subscribe channel => { a with subs := a.subs ++ [⟨channel, true, [], 0⟩] }
  | .unsubscribe channel h => { a with subs := a.subs.modify h (Subscription.giveBack channel) }
  | .broadcast channel payload =>
      { subs := a.subs.map (Subscription.accept channel payload)
        returned := a.returned ++ [a.subs.countP fun sub ↦ sub.Takes channel] }
  | .receive h => { a with subs := a.subs.modify h Subscription.take }

/-- A Go channel is as its subscription says: the buffer has what is yet to be received. -/
structure Subscription.Holds (sub : Subscription) (chan : Subscriber)
    (received : List (Option Bytes)) : Prop where
  taken_le : sub.taken ≤ sub.accepted.length
  queue_eq : chan.queue = sub.accepted.drop sub.taken
  closed_eq : chan.closed = !sub.live
  received_eq : received = sub.accepted.take sub.taken

/-- The process agrees with the account. -/
structure Account.Matches (a : Account) (s : Traffic) : Prop where
  panicked : s.panicked = none
  returned : s.returned = a.returned
  made : s.hub.made = a.subs.length
  holds : ∀ (h : ℕ) (sub : Subscription), a.subs[h]? = some sub →
    sub.Holds (s.hub.chan h) (s.received h)
  fresh : ∀ h, s.hub.made ≤ h → s.received h = []
  /-- The names have their live subscriptions. -/
  mem_iff : ∀ channel h, h ∈ s.hub.subscribed channel ↔
    ∃ sub, a.subs[h]? = some sub ∧ sub.channel = channel ∧ sub.live = true
  nodup : ∀ channel, (s.hub.subscribed channel).Nodup

theorem Subscription.Holds.hasRoom_iff {sub : Subscription} {chan : Subscriber}
    {received : List (Option Bytes)} (hholds : sub.Holds chan received) :
    Broker.Subscriber.HasRoom chan ↔ sub.accepted.length < sub.taken + 1024 := by
  have hle := hholds.taken_le
  rw [Broker.Subscriber.HasRoom, hholds.queue_eq, List.length_drop]
  omega

theorem Subscription.Holds.receive {sub : Subscription} {chan : Subscriber} {payload : Option Bytes}
    {rest received : List (Option Bytes)} (hholds : sub.Holds chan received)
    (hqueue : chan.queue = payload :: rest) :
    sub.take.Holds { chan with queue := rest } (received ++ [payload]) := by
  have hdrop := hholds.queue_eq.symm.trans hqueue
  have hlt : sub.taken < sub.accepted.length := by
    by_contra hge
    rw [List.drop_of_length_le (not_lt.mp hge)] at hdrop
    exact List.cons_ne_nil _ _ hdrop.symm
  have htaken : sub.take.taken = sub.taken + 1 := min_eq_left hlt
  rw [List.drop_eq_getElem_cons hlt] at hdrop
  obtain ⟨rfl, rfl⟩ := List.cons.inj hdrop
  refine ⟨?_, ?_, hholds.closed_eq, ?_⟩
  · rw [htaken]
    exact hlt
  · rw [htaken]
    rfl
  · rw [htaken, hholds.received_eq]
    exact List.take_append_getElem hlt

theorem Subscription.Holds.take_eq_self {sub : Subscription} {chan : Subscriber}
    {received : List (Option Bytes)} (hholds : sub.Holds chan received) (hqueue : chan.queue = []) :
    sub.take = sub := by
  have hle := List.drop_eq_nil_iff.mp (hholds.queue_eq.symm.trans hqueue)
  have htaken : min (sub.taken + 1) sub.accepted.length = sub.taken := by
    rw [hle.antisymm hholds.taken_le]
    exact min_eq_right (Nat.le_succ _)
  rw [Subscription.take, htaken]

namespace Hub

/-! ## The loop of `Broadcast` -/

theorem sendLoop_eq (payload : Option Bytes) : ∀ (subs : List ℕ) (count : ℕ) (hub : Hub),
    subs.Nodup → (∀ h ∈ subs, (hub.chan h).closed = false) →
    sendLoop payload subs count hub =
      .ok (count + subs.countP fun h ↦ Broker.Subscriber.HasRoom (hub.chan h),
        { hub with
          chan := fun h ↦ if h ∈ subs then offer payload (hub.chan h) else hub.chan h }) := by
  intro subs
  induction subs with
  | nil => intro count hub _ _; rfl
  | cons h subs ih =>
    intro count hub hnodup hopen
    obtain ⟨hnotMem, hnodup⟩ := List.nodup_cons.mp hnodup
    -- the other channels are as they were
    have hother : ∀ h' ∈ subs,
        (hub.setChan h (offer payload (hub.chan h))).chan h' = hub.chan h' := fun h' hh' ↦
      hub.chan_setChan_of_ne (ne_of_mem_of_not_mem hh' hnotMem) _
    rw [sendLoop, if_neg (Bool.eq_false_iff.mp (hopen h List.mem_cons_self)), ih _ _ hnodup ?_]
    · refine congrArg Ending.ok (Prod.ext ?_ ?_)
      · have hcount : subs.countP (fun h' ↦ Broker.Subscriber.HasRoom
              ((hub.setChan h (offer payload (hub.chan h))).chan h')) =
            subs.countP fun h' ↦ Broker.Subscriber.HasRoom (hub.chan h') :=
          List.countP_congr fun h' hh' ↦ by rw [hother h' hh']
        rw [hcount, List.countP_cons]
        simp only [decide_eq_true_eq]
        split <;> omega
      · refine congrArg (fun chan ↦ (⟨hub.made, chan, hub.channels⟩ : Hub)) (funext fun h' ↦ ?_)
        by_cases hh' : h' ∈ subs
        · rw [if_pos hh', if_pos (List.mem_cons_of_mem h hh'), hother h' hh']
        · rw [if_neg hh']
          by_cases heq : h' = h
          · rw [heq, chan_setChan_self, if_pos List.mem_cons_self]
          · rw [hub.chan_setChan_of_ne heq, if_neg]
            rw [List.mem_cons, not_or]
            exact ⟨heq, hh'⟩
    · intro h' hh'
      rw [hother h' hh']
      exact hopen h' (List.mem_cons_of_mem h hh')

end Hub

namespace Account

variable {a : Account} {s t : Traffic} {channel : Bytes} {h : ℕ} {payload : Option Bytes}

private theorem matches_start : Matches ⟨[], []⟩ Traffic.start where
  panicked := rfl
  returned := rfl
  made := rfl
  holds := fun h sub hsub ↦ absurd hsub (by simp)
  fresh := fun _ _ ↦ rfl
  mem_iff := fun channel h ↦ iff_of_false List.not_mem_nil (by simp)
  nodup := fun _ ↦ List.nodup_nil

/-! ## One call -/

theorem Matches.lt_made (hm : a.Matches s) {sub : Subscription} (hsub : a.subs[h]? = some sub) :
    h < s.hub.made := by
  rw [hm.made]
  exact (List.getElem?_eq_some_iff.mp hsub).1

theorem Matches.exists_sub (hm : a.Matches s) (hlt : h < s.hub.made) :
    ∃ sub, a.subs[h]? = some sub := by
  rw [hm.made] at hlt
  exact ⟨_, List.getElem?_eq_getElem hlt⟩

theorem Matches.closed_eq_false (hm : a.Matches s) (hmem : h ∈ s.hub.subscribed channel) :
    (s.hub.chan h).closed = false := by
  obtain ⟨sub, hsub, -, hlive⟩ := (hm.mem_iff channel h).mp hmem
  rw [(hm.holds h sub hsub).closed_eq, hlive]
  rfl

theorem Matches.subscribe (hm : a.Matches s) (channel : Bytes) :
    (a.next (.subscribe channel)).Matches
      { s with hub := (s.hub.subscribeChannel channel).2 } := by
  have hget : ∀ {h : ℕ} {sub : Subscription},
      (a.next (.subscribe channel)).subs[h]? = some sub ↔
        a.subs[h]? = some sub ∨ h = s.hub.made ∧ sub = ⟨channel, true, [], 0⟩ := by
    intro h sub
    rw [hm.made]
    exact getElem?_concat_eq_some
  have hsubscribed : ∀ name, (s.hub.subscribeChannel channel).2.subscribed name =
      if name = channel then s.hub.made :: s.hub.subscribed channel else s.hub.subscribed name :=
    fun name ↦ (s.hub.setChan s.hub.made ⟨[], false⟩).subscribed_setSubscribed channel name _
  have hnew : ∀ name, s.hub.made ∉ s.hub.subscribed name := by
    intro name hmem
    obtain ⟨sub, hsub, -⟩ := (hm.mem_iff name _).mp hmem
    exact lt_irrefl _ (hm.lt_made hsub)
  refine ⟨hm.panicked, hm.returned, ?_, ?_, ?_, ?_, ?_⟩
  · rw [next, List.length_append, List.length_singleton, ← hm.made]
    rfl
  · intro h sub hsub
    rcases hget.mp hsub with hsub | ⟨rfl, rfl⟩
    · have hchan : (s.hub.subscribeChannel channel).2.chan h = s.hub.chan h :=
        s.hub.chan_setChan_of_ne (hm.lt_made hsub).ne _
      rw [hchan]
      exact hm.holds h sub hsub
    · have hchan : (s.hub.subscribeChannel channel).2.chan s.hub.made = ⟨[], false⟩ :=
        s.hub.chan_setChan_self _ _
      rw [hchan, hm.fresh _ le_rfl]
      exact ⟨le_rfl, rfl, rfl, rfl⟩
  · intro h hh
    exact hm.fresh h ((Nat.le_succ _).trans hh)
  · intro name h
    simp only [hget, or_and_right, exists_or, ← hm.mem_iff, hsubscribed]
    split
    · rename_i hname
      rw [List.mem_cons, or_comm, hname]
      refine or_congr_right ⟨fun hh ↦ ⟨_, ⟨hh, rfl⟩, rfl, rfl⟩, fun ⟨_, ⟨hh, _⟩, _⟩ ↦ hh⟩
    · rename_i hname
      refine (or_iff_left ?_).symm
      rintro ⟨_, ⟨-, rfl⟩, hchannel, -⟩
      exact hname hchannel.symm
  · intro name
    rw [hsubscribed]
    split
    · exact List.nodup_cons.mpr ⟨hnew channel, hm.nodup channel⟩
    · exact hm.nodup name

/-- A name without subscribers has no live subscription to give back. -/
theorem Matches.next_unsubscribe_of_none (hm : a.Matches s)
    (hnone : s.hub.channels.lookup channel = none) (h : ℕ) :
    a.next (.unsubscribe channel h) = a := by
  have hsame : a.subs.modify h (Subscription.giveBack channel) = a.subs := by
    refine modify_eq_self fun sub hsub ↦ ?_
    rw [Subscription.giveBack]
    split
    · rename_i hchannel
      have hlive : sub.live = false := by
        by_contra hlive
        have hmem := (hm.mem_iff channel h).mpr
          ⟨sub, hsub, hchannel, Bool.eq_true_of_not_eq_false hlive⟩
        rw [Hub.subscribed, hnone] at hmem
        exact List.not_mem_nil hmem
      rw [← hlive]
    · rfl
  rw [next, hsame]

theorem Matches.unsubscribe (hm : a.Matches s) {subs : List ℕ}
    (hsubs : s.hub.channels.lookup channel = some subs) (hmem : h ∈ subs) :
    ∃ hub, s.hub.unsubscribeChannel channel h = .ok hub ∧
      (a.next (.unsubscribe channel h)).Matches { s with hub := hub } := by
  have hsubscribed := Hub.subscribed_eq hsubs
  obtain ⟨sub, hsub, rfl, hlive⟩ := (hm.mem_iff channel h).mp (hsubscribed ▸ hmem)
  have hholds := hm.holds h sub hsub
  have hopen : (s.hub.chan h).closed = false := by rw [hholds.closed_eq, hlive]; rfl
  let hub := (s.hub.setSubscribed sub.channel (subs.erase h)).setChan h
    { s.hub.chan h with closed := true }
  have hnodup : subs.Nodup := hsubscribed ▸ hm.nodup sub.channel
  have hname : ∀ name, hub.subscribed name =
      if name = sub.channel then subs.erase h else s.hub.subscribed name := fun name ↦
    s.hub.subscribed_setSubscribed sub.channel name _
  refine ⟨hub, ?_, hm.panicked, hm.returned, ?_, ?_, hm.fresh, ?_, ?_⟩
  · rw [Hub.unsubscribeChannel, hsubs]
    exact if_neg (Bool.eq_false_iff.mp hopen)
  · exact hm.made.trans (List.length_modify _ _ _).symm
  · intro h' sub' hsub'
    rcases getElem?_modify_eq_some.mp hsub' with ⟨hne, hsub'⟩ | ⟨rfl, sub₀, hsub₀, rfl⟩
    · have hchan : hub.chan h' = s.hub.chan h' := Hub.chan_setChan_of_ne _ hne _
      rw [hchan]
      exact hm.holds h' sub' hsub'
    · obtain rfl := Option.some_inj.mp (hsub.symm.trans hsub₀)
      have hchan : hub.chan h' = { s.hub.chan h' with closed := true } :=
        Hub.chan_setChan_self _ _ _
      rw [hchan, Subscription.giveBack, if_pos rfl]
      exact ⟨hholds.taken_le, hholds.queue_eq, rfl, hholds.received_eq⟩
  · intro name h'
    change h' ∈ hub.subscribed name ↔ _
    rw [hname]
    by_cases hh' : h' = h
    · -- it is no longer live, and it was under no other name
      refine iff_of_false ?_ ?_
      · rw [hh']
        split
        · exact fun hmem ↦ (hnodup.mem_erase_iff.mp hmem).1 rfl
        · rename_i hne
          intro hmem
          obtain ⟨sub', hsub', hchannel, -⟩ := (hm.mem_iff name h).mp hmem
          obtain rfl := Option.some_inj.mp (hsub.symm.trans hsub')
          exact hne hchannel.symm
      · rintro ⟨sub', hsub', -, hlive'⟩
        rcases getElem?_modify_eq_some.mp hsub' with ⟨hne, -⟩ | ⟨-, sub₀, hsub₀, rfl⟩
        · exact hne hh'
        · obtain rfl := Option.some_inj.mp (hsub.symm.trans hsub₀)
          rw [Subscription.giveBack, if_pos rfl] at hlive'
          exact Bool.false_ne_true hlive'
    · have hsame : ∀ sub', (a.next (.unsubscribe sub.channel h)).subs[h']? = some sub' ↔
          a.subs[h']? = some sub' := by
        intro sub'
        refine getElem?_modify_eq_some.trans ?_
        rw [and_iff_right hh', or_iff_left fun h ↦ hh' h.1]
      simp only [hsame, ← hm.mem_iff]
      split
      · rename_i hchannel
        rw [List.mem_erase_of_ne hh', hchannel, hsubscribed]
      · rfl
  · intro name
    change (hub.subscribed name).Nodup
    rw [hname]
    split
    · exact hnodup.erase h
    · exact hm.nodup name

theorem Matches.broadcast (hm : a.Matches s) (channel : Bytes) (payload : Option Bytes) :
    ∃ count hub, s.hub.broadcast channel payload = .ok (count, hub) ∧
      (a.next (.broadcast channel payload)).Matches
        { s with hub := hub, returned := s.returned ++ [count] } := by
  have hopen : ∀ h ∈ s.hub.subscribed channel, (s.hub.chan h).closed = false := fun h hmem ↦
    hm.closed_eq_false hmem
  -- The loop offers the payload under the name, and the account to the live subscriptions of it.
  have htakes : ∀ {h : ℕ} {sub : Subscription}, a.subs[h]? = some sub →
      (sub.Takes channel ↔
        h ∈ s.hub.subscribed channel ∧ Broker.Subscriber.HasRoom (s.hub.chan h)) := by
    intro h sub hsub
    have hmem : h ∈ s.hub.subscribed channel ↔ sub.channel = channel ∧ sub.live = true := by
      rw [hm.mem_iff]
      refine ⟨?_, fun h ↦ ⟨sub, hsub, h⟩⟩
      rintro ⟨sub', hsub', h⟩
      obtain rfl := Option.some_inj.mp (hsub.symm.trans hsub')
      exact h
    rw [hmem, (hm.holds h sub hsub).hasRoom_iff, and_assoc]
    exact and_left_comm
  have hget : ∀ {h : ℕ} {sub' : Subscription},
      (a.next (.broadcast channel payload)).subs[h]? = some sub' ↔
        ∃ sub, a.subs[h]? = some sub ∧ sub.accept channel payload = sub' := by
    intro h sub'
    rw [next, List.getElem?_map, Option.map_eq_some_iff]
  refine ⟨_, _, Hub.sendLoop_eq payload _ 0 s.hub (hm.nodup channel) hopen, hm.panicked, ?_, ?_, ?_,
    hm.fresh, ?_, hm.nodup⟩
  · have hcount := countP_eq_countP_getElem? (l := a.subs) (hm.nodup channel)
      (p := fun h ↦ Broker.Subscriber.HasRoom (s.hub.chan h))
      (q := fun sub ↦ decide (sub.Takes channel)) fun h ↦ ?_
    · rw [hcount, Nat.zero_add, hm.returned]
      rfl
    · simp only [decide_eq_true_eq]
      constructor
      · rintro ⟨hmem, hroom⟩
        obtain ⟨sub, hsub, -⟩ := (hm.mem_iff channel h).mp hmem
        exact ⟨sub, hsub, (htakes hsub).mpr ⟨hmem, hroom⟩⟩
      · rintro ⟨sub, hsub, htake⟩
        exact (htakes hsub).mp htake
  · exact hm.made.trans (List.length_map _).symm
  · intro h sub' hsub'
    obtain ⟨sub, hsub, rfl⟩ := hget.mp hsub'
    have hholds := hm.holds h sub hsub
    have hle := hholds.taken_le
    simp only [Subscription.accept, Hub.offer]
    by_cases htake : sub.Takes channel
    · obtain ⟨hmem, hroom⟩ := (htakes hsub).mp htake
      rw [if_pos htake, if_pos hmem, if_pos hroom]
      refine ⟨?_, ?_, hholds.closed_eq, ?_⟩
      · rw [List.length_append]
        exact hle.trans (Nat.le_add_right _ _)
      · rw [List.drop_append_of_le_length hle, ← hholds.queue_eq]
      · rw [List.take_append_of_le_length hle]
        exact hholds.received_eq
    · rw [if_neg htake]
      split
      · rename_i hmem
        rw [if_neg fun hroom ↦ htake ((htakes hsub).mpr ⟨hmem, hroom⟩)]
        exact hholds
      · exact hholds
  · intro name h
    have hkeep : ∀ sub : Subscription, (sub.accept channel payload).channel = sub.channel ∧
        (sub.accept channel payload).live = sub.live := by
      intro sub
      rw [Subscription.accept]
      split <;> exact ⟨rfl, rfl⟩
    refine (hm.mem_iff name h).trans ⟨?_, ?_⟩
    · rintro ⟨sub, hsub, hchannel, hlive⟩
      exact ⟨_, hget.mpr ⟨sub, hsub, rfl⟩, (hkeep sub).1.trans hchannel, (hkeep sub).2.trans hlive⟩
    · rintro ⟨sub', hsub', hchannel, hlive⟩
      obtain ⟨sub, hsub, rfl⟩ := hget.mp hsub'
      exact ⟨sub, hsub, (hkeep sub).1.symm.trans hchannel, (hkeep sub).2.symm.trans hlive⟩

theorem Matches.receive (hm : a.Matches s) (hlt : h < s.hub.made)
    {r : Option (Option Bytes) × Hub} (hr : s.hub.receive h = some r) :
    (a.next (.receive h)).Matches
      { s with
        hub := r.2
        received := Function.update s.received h (s.received h ++ r.1.toList) } := by
  obtain ⟨sub, hsub⟩ := hm.exists_sub hlt
  have hholds := hm.holds h sub hsub
  rw [Hub.receive] at hr
  split at hr
  · rename_i payload rest hqueue
    obtain rfl := Option.some_inj.mp hr
    refine ⟨hm.panicked, hm.returned, hm.made.trans (List.length_modify _ _ _).symm, ?_, ?_, ?_,
      hm.nodup⟩
    · intro h' sub' hsub'
      change sub'.Holds ((s.hub.setChan h _).chan h') (Function.update s.received h _ h')
      rcases getElem?_modify_eq_some.mp hsub' with ⟨hne, hsub'⟩ | ⟨rfl, sub₀, hsub₀, rfl⟩
      · rw [Function.update_of_ne hne, Hub.chan_setChan_of_ne _ hne]
        exact hm.holds h' sub' hsub'
      · obtain rfl := Option.some_inj.mp (hsub.symm.trans hsub₀)
        rw [Function.update_self, Hub.chan_setChan_self]
        exact hholds.receive hqueue
    · intro h' hh'
      have hne : h' ≠ h := (hlt.trans_le hh').ne'
      exact (Function.update_of_ne hne _ _).trans (hm.fresh h' hh')
    · intro name h'
      refine (hm.mem_iff name h').trans ⟨?_, ?_⟩
      · rintro ⟨sub', hsub', hlive⟩
        by_cases hh' : h' = h
        · subst hh'
          exact ⟨_, getElem?_modify_eq_some.mpr (Or.inr ⟨rfl, sub', hsub', rfl⟩), hlive⟩
        · exact ⟨_, getElem?_modify_eq_some.mpr (Or.inl ⟨hh', hsub'⟩), hlive⟩
      · rintro ⟨sub', hsub', hlive⟩
        rcases getElem?_modify_eq_some.mp hsub' with ⟨-, hsub'⟩ | ⟨rfl, sub₀, hsub₀, rfl⟩
        · exact ⟨sub', hsub', hlive⟩
        · exact ⟨sub₀, hsub₀, hlive⟩
  · rename_i hqueue
    split at hr
    · -- a closed Go channel with nothing left gives no payload
      obtain rfl := Option.some_inj.mp hr
      have hsame : a.subs.modify h Subscription.take = a.subs := by
        refine modify_eq_self fun sub' hsub' ↦ ?_
        obtain rfl := Option.some_inj.mp (hsub.symm.trans hsub')
        exact hholds.take_eq_self hqueue
      rw [next, hsame]
      have hreceived : Function.update s.received h (s.received h ++ []) = s.received := by
        rw [List.append_nil, Function.update_eq_self]
      simp only [Option.toList_none, hreceived]
      exact hm
    · cases hr

/-- **One call.** The process does what the account says, if a Go channel is given back only where
it belongs. -/
theorem Matches.step {l : Traffic.Label} (hm : a.Matches s) (hown : s.Own l)
    (hstep : s.step l = some t) : (a.next l).Matches t := by
  have hact : s.act l = some t := by
    rwa [Traffic.step, hm.panicked, Option.isSome_none, if_neg Bool.false_ne_true] at hstep
  cases l with
  | subscribe channel =>
    obtain rfl := Option.some_inj.mp hact
    exact hm.subscribe channel
  | unsubscribe channel h =>
    rw [Traffic.act] at hact
    split at hact
    · cases hlookup : s.hub.channels.lookup channel with
      | none =>
        rw [Hub.unsubscribeChannel, hlookup] at hact
        obtain rfl := Option.some_inj.mp hact
        rw [hm.next_unsubscribe_of_none hlookup]
        exact hm
      | some subs =>
        obtain ⟨hub, hhub, hm'⟩ := hm.unsubscribe hlookup (hown subs hlookup)
        rw [hhub] at hact
        obtain rfl := Option.some_inj.mp hact
        exact hm'
    · cases hact
  | broadcast channel payload =>
    obtain ⟨count, hub, hhub, hm'⟩ := hm.broadcast channel payload
    rw [Traffic.act, hhub] at hact
    obtain rfl := Option.some_inj.mp hact
    exact hm'
  | receive h =>
    rw [Traffic.act] at hact
    split at hact
    · rename_i hlt
      obtain ⟨r, hr, rfl⟩ := Option.map_eq_some_iff.mp hact
      exact hm.receive hlt hr
    · cases hact

theorem Matches.run {ls : List Traffic.Label}
    (hrun : Run Traffic.step (fun _ ↦ True) s ls t) :
    ∀ {a : Account}, Run.Guarded Traffic.step Traffic.Own s ls → a.Matches s →
      (ls.foldl next a).Matches t := by
  induction hrun with
  | nil _ => exact fun _ hm ↦ hm
  | cons _ hstep _ ih =>
    exact fun hguard hm ↦ ih (hguard.2 _ hstep) (hm.step hguard.1 hstep)

end Account

/-! ## The broker

In a `Broker` the subscribers of a name stand for themselves, without references. While the account
is kept, its operations do the same. -/

/-- The broker has the Go channels of the hub under each name. -/
def Hub.ShownBy (hub : Hub) (b : Broker) : Prop :=
  ∀ channel, b.channels.lookup channel = (hub.channels.lookup channel).map (List.map hub.chan)

namespace Account.Matches

variable {a : Account} {s : Traffic} {b : Broker} {channel : Bytes}

theorem notMem_of_ne (hm : a.Matches s) {name : Bytes} {h : ℕ} (hname : name ≠ channel)
    (hmem : h ∈ s.hub.subscribed channel) : h ∉ s.hub.subscribed name := by
  intro hmem'
  obtain ⟨sub, hsub, hchannel, -⟩ := (hm.mem_iff channel h).mp hmem
  obtain ⟨sub', hsub', hchannel', -⟩ := (hm.mem_iff name h).mp hmem'
  obtain rfl := Option.some_inj.mp (hsub.symm.trans hsub')
  exact hname (hchannel'.symm.trans hchannel)

theorem lookup_map_congr {hub : Hub} {chan : ℕ → Subscriber} {name : Bytes}
    (hchan : ∀ h ∈ hub.subscribed name, chan h = hub.chan h) :
    (hub.channels.lookup name).map (List.map chan) =
      (hub.channels.lookup name).map (List.map hub.chan) := by
  cases hlookup : hub.channels.lookup name with
  | none => rfl
  | some subs =>
    rw [Hub.subscribed, hlookup] at hchan
    exact congrArg some (List.map_congr_left hchan)

theorem subscribe_shownBy (hm : a.Matches s) (hb : s.hub.ShownBy b) (channel : Bytes) :
    (s.hub.subscribeChannel channel).2.ShownBy (b.subscribeChannel channel) := by
  have hold : ∀ name, ∀ h ∈ s.hub.subscribed name,
      (s.hub.setChan s.hub.made ⟨[], false⟩).chan h = s.hub.chan h := by
    intro name h hmem
    obtain ⟨sub, hsub, -⟩ := (hm.mem_iff name h).mp hmem
    exact s.hub.chan_setChan_of_ne (hm.lt_made hsub).ne _
  intro name
  change (b.channels.insert channel _).lookup name =
    ((s.hub.channels.insert channel _).lookup name).map
      (List.map (s.hub.setChan s.hub.made ⟨[], false⟩).chan)
  by_cases hname : name = channel
  · rw [hname, AList.lookup_insert, AList.lookup_insert, Option.map_some, List.map_cons,
      s.hub.chan_setChan_self, List.map_congr_left (hold channel), hb channel, Hub.subscribed]
    cases s.hub.channels.lookup channel with
    | none => rfl
    | some subs => rfl
  · rw [AList.lookup_insert_ne hname, AList.lookup_insert_ne hname, hb name]
    exact (lookup_map_congr (hold name)).symm

theorem broadcast_shownBy (hm : a.Matches s) (hb : s.hub.ShownBy b) (channel : Bytes)
    (payload : Option Bytes) :
    ∃ count hub b', s.hub.broadcast channel payload = .ok (count, hub) ∧
      b.broadcast channel payload = .ok (count, b') ∧ hub.ShownBy b' := by
  cases hlookup : s.hub.channels.lookup channel with
  | none =>
    refine ⟨0, s.hub, b, ?_, ?_, hb⟩
    · rw [Hub.broadcast, Hub.subscribed, hlookup]
      rfl
    · rw [Broker.broadcast, hb channel, hlookup]
      rfl
  | some subs =>
    have hsubscribed := Hub.subscribed_eq hlookup
    have hopen : ∀ h ∈ subs, (s.hub.chan h).closed = false := fun h hmem ↦
      hm.closed_eq_false (hsubscribed ▸ hmem)
    have hany : ¬(subs.map s.hub.chan).any Subscriber.closed = true := by
      rw [List.any_map, List.any_eq_true]
      rintro ⟨h, hmem, hclosed⟩
      exact Bool.false_ne_true ((hopen h hmem).symm.trans hclosed)
    let chan := fun h ↦ if h ∈ subs then Hub.offer payload (s.hub.chan h) else s.hub.chan h
    refine ⟨subs.countP fun h ↦ Broker.Subscriber.HasRoom (s.hub.chan h),
      { s.hub with chan := chan },
      { b with
        channels := b.channels.insert channel ((subs.map s.hub.chan).map (Hub.offer payload)) },
      ?_, ?_, fun name ↦ ?_⟩
    · rw [Hub.broadcast, hsubscribed,
        Hub.sendLoop_eq payload subs 0 s.hub (hsubscribed ▸ hm.nodup channel) hopen, Nat.zero_add]
    · have hcount : ((subs.map s.hub.chan).filter fun sub ↦ Broker.Subscriber.HasRoom sub).length =
          subs.countP fun h ↦ Broker.Subscriber.HasRoom (s.hub.chan h) := by
        rw [← List.countP_eq_length_filter, List.countP_map]
        rfl
      rw [← hcount, Broker.broadcast, hb channel, hlookup, Option.map_some]
      exact if_neg hany
    · change (b.channels.insert channel _).lookup name =
        (s.hub.channels.lookup name).map (List.map chan)
      by_cases hname : name = channel
      · rw [hname, AList.lookup_insert, hlookup, Option.map_some, List.map_map]
        refine congrArg some (List.map_congr_left fun h hmem ↦ ?_)
        exact (if_pos hmem).symm
      · rw [AList.lookup_insert_ne hname, hb name]
        refine (lookup_map_congr fun h hmem ↦ if_neg ?_).symm
        rw [← hsubscribed]
        exact hm.notMem_of_ne (Ne.symm hname) hmem

/-- The broker deletes by position. -/
theorem unsubscribe_shownBy (hm : a.Matches s) (hb : s.hub.ShownBy b) {subs : List ℕ} {h : ℕ}
    (hsubs : s.hub.channels.lookup channel = some subs) (hmem : h ∈ subs) {hub : Hub}
    (hhub : s.hub.unsubscribeChannel channel h = .ok hub) :
    hub.ShownBy (b.unsubscribeChannel channel (subs.idxOf h)) := by
  have hsubscribed := Hub.subscribed_eq hsubs
  have hnodup : subs.Nodup := hsubscribed ▸ hm.nodup channel
  have hclosed : ¬(s.hub.chan h).closed = true :=
    Bool.eq_false_iff.mp (hm.closed_eq_false (hsubscribed ▸ hmem))
  rw [Hub.unsubscribeChannel, hsubs] at hhub
  obtain rfl := Ending.ok.inj ((if_neg hclosed).symm.trans hhub)
  have hrest : (subs.map s.hub.chan).eraseIdx (subs.idxOf h) = (subs.erase h).map s.hub.chan := by
    rw [List.eraseIdx_map, List.eraseIdx_idxOf_eq_erase]
  -- the Go channel that is closed is no longer under any name
  let chan := Function.update s.hub.chan h { s.hub.chan h with closed := true }
  have hchan : ∀ {hs : List ℕ}, h ∉ hs → hs.map chan = hs.map s.hub.chan := fun hnot ↦
    List.map_congr_left fun h' hh' ↦ Function.update_of_ne (ne_of_mem_of_not_mem hh' hnot) _ _
  have herase := hchan hnodup.not_mem_erase
  have hother : ∀ name ≠ channel, (s.hub.channels.lookup name).map (List.map chan) =
      b.channels.lookup name := by
    intro name hname
    rw [hb name]
    refine lookup_map_congr fun h' hh' ↦ Function.update_of_ne ?_ _ _
    exact ne_of_mem_of_not_mem hh' (hm.notMem_of_ne hname (hsubscribed ▸ hmem))
  intro name
  rw [Broker.unsubscribeChannel, hb channel, hsubs, Option.map_some]
  simp only [hrest, List.map_eq_nil_iff]
  change _ = ((if subs.erase h = [] then s.hub.channels.erase channel
    else s.hub.channels.insert channel (subs.erase h)).lookup name).map (List.map chan)
  split
  · by_cases hname : name = channel
    · rw [hname, AList.lookup_erase, AList.lookup_erase]
      rfl
    · rw [AList.lookup_erase_ne hname, AList.lookup_erase_ne hname, hother name hname]
  · by_cases hname : name = channel
    · rw [hname, AList.lookup_insert, AList.lookup_insert, Option.map_some, herase]
    · rw [AList.lookup_insert_ne hname, AList.lookup_insert_ne hname, hother name hname]

end Account.Matches

/-! ## The condition cannot be weakened -/

theorem Hub.sendLoop_of_closed {payload : Option Bytes} {h : ℕ} :
    ∀ {subs : List ℕ} {count : ℕ} {hub : Hub}, h ∈ subs → (hub.chan h).closed = true →
      sendLoop payload subs count hub = .fault .closedChannel := by
  intro subs
  induction subs with
  | nil => exact fun hmem ↦ absurd hmem List.not_mem_nil
  | cons h' subs ih =>
    intro count hub hmem hclosed
    rw [sendLoop]
    split
    · rfl
    · rename_i hopen
      have hne : h ≠ h' := by
        rintro rfl
        exact hopen hclosed
      refine ih ((List.mem_cons.mp hmem).resolve_left hne) ?_
      rw [hub.chan_setChan_of_ne hne]
      exact hclosed

/-- Given back under a name of others, a Go channel that is closed makes the call panic. One that is
not makes the next broadcast under its own name panic. -/
theorem Account.Matches.panics {a : Account} {s : Traffic} (hm : a.Matches s) {channel : Bytes}
    {h : ℕ} (hlt : h < s.hub.made) (hown : ¬s.Own (.unsubscribe channel h)) :
    s.hub.unsubscribeChannel channel h = .fault .closedChannel ∨
      ∃ hub name, s.hub.unsubscribeChannel channel h = .ok hub ∧
        ∀ payload, hub.broadcast name payload = .fault .closedChannel := by
  obtain ⟨sub, hsub⟩ := hm.exists_sub hlt
  have hholds := hm.holds h sub hsub
  have hlookup : ∃ subs, s.hub.channels.lookup channel = some subs ∧ h ∉ subs := by
    rw [Traffic.Own] at hown
    push Not at hown
    exact hown
  obtain ⟨subs, hsubs, hnotMem⟩ := hlookup
  rw [Hub.unsubscribeChannel, hsubs]
  cases hlive : sub.live with
  | false =>
    -- it was closed when it was given back
    refine Or.inl (if_pos ?_)
    change (s.hub.chan h).closed = true
    rw [hholds.closed_eq, hlive]
    rfl
  | true =>
    -- it is closed here, and it is still subscribed under its own name
    have hmem : h ∈ s.hub.subscribed sub.channel :=
      (hm.mem_iff sub.channel h).mpr ⟨sub, hsub, rfl, hlive⟩
    have hne : sub.channel ≠ channel := by
      rintro rfl
      rw [Hub.subscribed, hsubs] at hmem
      exact hnotMem hmem
    refine Or.inr ⟨_, sub.channel, if_neg ?_, fun payload ↦
      Hub.sendLoop_of_closed (h := h) ?_ ?_⟩
    · change ¬(s.hub.chan h).closed = true
      rw [hholds.closed_eq, hlive]
      exact Bool.false_ne_true
    · change h ∈ (s.hub.setSubscribed channel _).subscribed sub.channel
      rw [Hub.subscribed_setSubscribed, if_neg hne]
      exact hmem
    · rw [Hub.chan_setChan_self]

namespace Traffic

/-- **Ephemeral channels.** In a run in which a Go channel is given back only under a name that has
no subscribers or whose subscriber it is, nothing panics; `Broadcast` returns how many live
subscriptions of the name have room; and a subscriber receives what its subscription has accepted,
in this order, while the rest is in its buffer. -/
theorem accounted_of_own (ls : List Label) (s : Traffic)
    (hrun : Run step (fun _ ↦ True) start ls s) (hown : Run.Guarded step Own start ls) :
    let a := ls.foldl Account.next ⟨[], []⟩
    s.panicked = none ∧ s.returned = a.returned ∧
      ∀ (h : ℕ) (sub : Subscription), a.subs[h]? = some sub →
        s.received h = sub.accepted.take sub.taken ∧
          (s.hub.chan h).queue = sub.accepted.drop sub.taken := by
  have hm := Account.Matches.run hrun hown Account.matches_start
  refine ⟨hm.panicked, hm.returned, fun h sub hsub ↦ ?_⟩
  have hholds := hm.holds h sub hsub
  exact ⟨hholds.received_eq, hholds.queue_eq⟩

/-- A subscriber gets a payload, is given back, and is given back once more when nobody is
subscribed under the name. -/
theorem accounted_of_own_once_more :
    ∃ s, Run step (fun _ ↦ True) start
        [.subscribe (bytesOf "news"), .broadcast (bytesOf "news") (some [1]),
          .unsubscribe (bytesOf "news") 0, .unsubscribe (bytesOf "news") 0, .receive 0] s ∧
      s.panicked = none ∧ s.returned = [1] ∧ s.received 0 = [some [1]] := by
  have hsome : (Run.exec step (fun _ ↦ True) start
      [.subscribe (bytesOf "news"), .broadcast (bytesOf "news") (some [1]),
        .unsubscribe (bytesOf "news") 0, .unsubscribe (bytesOf "news") 0, .receive 0]).isSome := by
    decide +kernel
  have hrun := Run.of_exec (Option.some_get hsome).symm
  have hcheck : Run.checkGuard step (fun s l ↦ decide (s.Own l)) start
      [.subscribe (bytesOf "news"), .broadcast (bytesOf "news") (some [1]),
        .unsubscribe (bytesOf "news") 0, .unsubscribe (bytesOf "news") 0, .receive 0] = true := by
    decide +kernel
  have hown := Run.guarded_of_checkGuard hcheck
  simp only [decide_eq_true_eq] at hown
  obtain ⟨hpanicked, hreturned, hreceived⟩ := accounted_of_own _ _ hrun hown
  refine ⟨_, hrun, hpanicked, hreturned.trans (by decide +kernel), ?_⟩
  exact (hreceived 0 ⟨bytesOf "news", false, [some [1]], 1⟩ (by decide +kernel)).1

/-- A second time, while somebody else is subscribed: a closed channel is closed. Under the name of
somebody else: the next broadcast sends on a closed channel. -/
theorem unsubscribe_panics :
    (∃ s, Run step (fun _ ↦ True) start
        [.subscribe (bytesOf "news"), .subscribe (bytesOf "news"),
          .unsubscribe (bytesOf "news") 0, .unsubscribe (bytesOf "news") 0] s ∧
      s.panicked = some .closedChannel) ∧
    ∃ s, Run step (fun _ ↦ True) start
        [.subscribe (bytesOf "news"), .subscribe (bytesOf "weather"),
          .unsubscribe (bytesOf "weather") 0, .broadcast (bytesOf "news") (some [1])] s ∧
      s.panicked = some .closedChannel := by
  constructor
  · have hsome : (Run.exec step (fun _ ↦ True) start
        [.subscribe (bytesOf "news"), .subscribe (bytesOf "news"),
          .unsubscribe (bytesOf "news") 0, .unsubscribe (bytesOf "news") 0]).isSome := by
      decide +kernel
    have hrun := Run.of_exec (Option.some_get hsome).symm
    exact ⟨_, hrun, hrun.of_exec_map (f := panicked) (by decide +kernel)⟩
  · have hsome : (Run.exec step (fun _ ↦ True) start
        [.subscribe (bytesOf "news"), .subscribe (bytesOf "weather"),
          .unsubscribe (bytesOf "weather") 0,
          .broadcast (bytesOf "news") (some [1])]).isSome := by
      decide +kernel
    have hrun := Run.of_exec (Option.some_get hsome).symm
    exact ⟨_, hrun, hrun.of_exec_map (f := panicked) (by decide +kernel)⟩

end Traffic

end VortexMQ
