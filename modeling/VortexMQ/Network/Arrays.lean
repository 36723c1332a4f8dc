import VortexMQ.Network.Aliasing

/-!
# Connections on which commands are arrays

The arguments of an array have memory of their own, so a client that sends nothing but arrays has
its payloads unchanged, whatever else happens. That is what client libraries do; lines are for
people.

That a command is an array is seen from its first byte. The reader meets it at the beginning of a
command, where it has nothing but unread bytes of the stream, and what is left of the stream begins
with a request. So the proof keeps account of where in the stream the reader is
(`Endpoint.Fed`).
-/

namespace VortexMQ

/-! ## The reader -/

namespace Resp

/-- No argument is a view of the buffer. -/
def Phase.Owned : Phase → Prop
  | .command _ args => ∀ slice, some slice ∈ args → slice.view? = none
  | _ => True

namespace Phase

variable (upper : Char → Char)

private theorem owned_ofArg (array : ArrayInput) (arg : Option Bytes) :
    (ofArg upper array arg).Owned ∧ ofArg upper array arg ≠ .line none none := by
  rw [ofArg]
  split
  · cases array.args ++ [arg] with
    | nil => exact ⟨trivial, Phase.noConfusion⟩
    | cons word args =>
      refine ⟨fun slice hslice ↦ ?_, Phase.noConfusion⟩
      obtain ⟨bytes, -, hbytes⟩ := List.mem_map.mp hslice
      obtain ⟨bytes, -, rfl⟩ := Option.map_eq_some_iff.mp hbytes
      rfl
  · refine ⟨trivial, fun h ↦ ?_⟩
    exact absurd (Phase.line.inj h).2 (Option.some_ne_none _)

private theorem owned_ofArgLine (array : ArrayInput) (argLine : Bytes) :
    (ofArgLine upper array argLine).Owned ∧ ofArgLine upper array argLine ≠ .line none none := by
  rw [ofArgLine]
  split
  · exact ⟨trivial, Phase.noConfusion⟩
  · split
    · exact ⟨trivial, Phase.noConfusion⟩
    · split
      · exact ⟨trivial, Phase.noConfusion⟩
      · split
        · exact owned_ofArg upper array none
        · exact ⟨trivial, Phase.noConfusion⟩

/-- Only the words of a line can be views, and a line with words does not begin like an array. -/
private theorem owned_ofCommandLine {m : Memory} {line : Slice}
    (h : line.view? = none ∨ ∀ c ∈ (line.read m).head?, c = 42) :
    (ofCommandLine upper m line).Owned ∧ ofCommandLine upper m line ≠ .line none none := by
  rw [ofCommandLine]
  split
  · exact ⟨trivial, Phase.noConfusion⟩
  · rename_i hne
    split
    · rename_i hhead
      split
      · exact ⟨trivial, Phase.noConfusion⟩
      · refine ⟨fun slice hslice ↦ ?_, Phase.noConfusion⟩
        obtain ⟨span, -, hspan⟩ := List.mem_map.mp hslice
        obtain rfl := Option.some_inj.mp hspan
        rcases h with h | h
        · cases line with
          | view v => exact absurd h (Option.some_ne_none v)
          | own bytes => rfl
        · obtain ⟨c, cs, hline⟩ := List.exists_cons_of_ne_nil hne
          rw [hline] at h hhead
          exact absurd (congrArg some (h c rfl)) hhead
    · split
      · exact ⟨trivial, Phase.noConfusion⟩
      · split
        · exact ⟨trivial, Phase.noConfusion⟩
        · split
          · exact ⟨trivial, Phase.noConfusion⟩
          · exact ⟨trivial, fun h ↦ absurd (Phase.line.inj h).2 (Option.some_ne_none _)⟩

end Phase

private theorem view_readLine_prefix {size : ℕ} {b b' : BufReader size} {v : View}
    (h : b.readLine = some ((v, false), b')) : b.view v <+: b.unread := by
  rw [BufReader.readLine] at h
  split at h
  · obtain ⟨hv, -⟩ := Prod.mk.inj (Option.some_inj.mp h)
    obtain ⟨rfl, -⟩ := Prod.mk.inj hv
    have hline := (Stream.isPrefix_dropCR _).trans (Stream.isPrefix_untilLF b.unread)
    rw [b.view_of_prefix hline]
    exact hline
  · split at h
    · split at h
      · exact absurd (Prod.mk.inj (Prod.mk.inj (Option.some_inj.mp h)).1).2 Bool.true_eq_false.mp
      · exact absurd (Prod.mk.inj (Prod.mk.inj (Option.some_inj.mp h)).1).2 Bool.true_eq_false.mp
    · exact absurd h (Option.some_ne_none _).symm

namespace Reader

variable {upper : Char → Char} {r r' : Reader}

private theorem owned_parse (h : r.parse upper = some r')
    (hstart : r.phase = .line none none → ∀ c ∈ r.rd.unread.head?, c = 42) :
    r'.phase.Owned ∧ r'.phase ≠ .line none none := by
  rw [parse] at h
  split at h
  · exact absurd h (Option.some_ne_none _).symm
  · split at h
    · rename_i pieces array hphase
      obtain ⟨⟨⟨v, more⟩, rd'⟩, hline, rfl⟩ := Option.map_eq_some_iff.mp h
      cases more with
      | true =>
        refine ⟨trivial, fun heq ↦ ?_⟩
        exact absurd (Phase.line.inj heq).1 (Option.some_ne_none _)
      | false =>
        cases array with
        | some array => exact Phase.owned_ofArgLine upper array _
        | none =>
          refine Phase.owned_ofCommandLine upper ?_
          cases pieces with
          | some fullLine => exact Or.inl rfl
          | none =>
            refine Or.inr fun c hc ↦ hstart hphase c ?_
            have hbuf := (BufReader.readLine_spec hline []).2
            obtain ⟨t, ht⟩ := view_readLine_prefix hline
            change c ∈ (rd'.buf.read v.off v.len).head? at hc
            rw [hbuf] at hc
            rw [← ht, List.head?_append, show (r.rd.view v).head? = some c from hc]
            rfl
    · split at h
      · obtain rfl := Option.some_inj.mp h
        exact Phase.owned_ofArg upper _ _
      · split at h
        · exact absurd h (Option.some_ne_none _).symm
        · obtain rfl := Option.some_inj.mp h
          exact ⟨trivial, Phase.noConfusion⟩
    · exact absurd h (Option.some_ne_none _).symm
    · exact absurd h (Option.some_ne_none _).symm

private theorem phase_receive {data : Bytes} (h : r.receive data = some r')
    (howned : r.phase.Owned) : r'.phase.Owned ∧ data ≠ [] ∧ (r'.phase = .line none none →
      r.phase = .line none none ∧ r'.rd.unread = r.rd.unread ++ data) := by
  rw [receive, Option.ite_none_right_eq_some] at h
  obtain ⟨⟨-, hne⟩, h⟩ := h
  split at h
  · split at h
    · rw [Option.ite_none_right_eq_some, Option.some_inj] at h
      obtain ⟨-, rfl⟩ := h
      exact ⟨trivial, hne, Phase.noConfusion⟩
    · exact absurd h (Option.some_ne_none _).symm
  · split at h
    · obtain rfl := Option.some_inj.mp h
      exact ⟨howned, hne, fun hphase ↦ ⟨hphase, BufReader.unread_receive _ _ _⟩⟩
    · exact absurd h (Option.some_ne_none _).symm

end Reader

/-! ## The stream -/

private theorem readCommand_encodeAll_cons (upper : Char → Char) (request : Request)
    (requests : List Request) :
    readCommand upper ((Request.code upper).encodeAll (request :: requests))
      = .ok (request.command upper, (Request.code upper).encodeAll requests) := by
  rw [PrefixCode.encodeAll_cons]
  exact request.readCommand_bytes upper _

/-- Commands that have been read off a stream of requests are the first of them, and what is left of
the stream are the others. -/
theorem readCommands_encodeAll (upper : Char → Char) : ∀ {requests : List Request} {n : ℕ}
    {cmds : List Command} {rest : Bytes},
    readCommands upper n ((Request.code upper).encodeAll requests) = .ok (cmds, rest) →
      n ≤ requests.length ∧ rest = (Request.code upper).encodeAll (requests.drop n) := by
  intro requests
  induction requests with
  | nil =>
    intro n cmds rest h
    cases n with
    | zero => exact ⟨le_rfl, (Prod.mk.inj (Except.ok.inj h)).2.symm⟩
    | succ n =>
      rw [PrefixCode.encodeAll_nil, readCommands, readCommand, readLine_nil] at h
      cases h
  | cons request requests ih =>
    intro n cmds rest h
    cases n with
    | zero => exact ⟨Nat.zero_le _, (Prod.mk.inj (Except.ok.inj h)).2.symm⟩
    | succ n =>
      rw [readCommands, readCommand_encodeAll_cons] at h
      simp only at h
      split at h
      · cases h
      · rename_i hrest
        obtain ⟨-, rfl⟩ := Prod.mk.inj (Except.ok.inj h)
        obtain ⟨hle, heq⟩ := ih hrest
        exact ⟨Nat.succ_le_succ hle, heq⟩

end Resp

/-! ## The handler -/

namespace Endpoint

variable {srv : Server} {e e' : Endpoint} {requests : List Resp.Request} {cmds : List Command}
  {pending : Bytes}

/-- The state of a connection that is given arrays: where the reader is in the stream, and that
nothing on its way into the broker, or recorded there, is a view. -/
structure Fed (srv : Server) (e : Endpoint) (cmds : List Command) (pending : Bytes) : Prop where
  tracks : e.Tracks srv cmds pending
  ended : e.ended = false
  owned : e.reader.phase.Owned
  recorded : ∀ s ∈ e.stored, ∀ o ∈ s.origin, ∀ slice ∈ o.slice, slice.view? = none
  start : e.reader.phase = .line none none → pending = e.reader.rd.unread
  begun : pending = [] → e.reader.phase = .line none none

private theorem fed_accept (srv : Server) (b : Broker) : (accept srv b).Fed srv [] [] where
  tracks := tracks_accept srv b
  ended := rfl
  owned := trivial
  recorded s hs o ho := by
    obtain ⟨x, -, rfl⟩ := List.mem_map.mp hs
    exact absurd ho (Option.not_mem_none o)
  start _ := rfl
  begun _ := rfl

namespace Fed

private theorem spared (h : e.Fed srv cmds pending) (l : Label) : e.Spared l := by
  have hviews : ∀ v, v ∉ e.views := by
    intro v hv
    obtain ⟨s, hs, hv⟩ := List.mem_filterMap.mp hv
    obtain ⟨o, ho, hv⟩ := Option.bind_eq_some_iff.mp hv
    obtain ⟨slice, hslice, hv⟩ := Option.bind_eq_some_iff.mp hv
    exact absurd (hv.symm.trans (h.recorded s hs o ho slice hslice)) (Option.some_ne_none v)
  cases l with
  | fill => exact fun v hv ↦ absurd hv (hviews v)
  | receive data => exact fun _ v hv ↦ absurd hv (hviews v)
  | _ => trivial

theorem remaining (h : e.Fed srv cmds pending) {s : Bytes}
    (hs : e.received ++ s = Resp.sentBy requests) :
    e.session.handled ≤ requests.length ∧ pending ++ s
      = (Resp.Request.code srv.upper).encodeAll (requests.drop e.session.handled) := by
  have hread := h.tracks.read s fun hended ↦ absurd (h.ended.symm.trans hended) Bool.false_ne_true
  rw [hs, Resp.sentBy_eq srv.upper] at hread
  exact Resp.readCommands_encodeAll srv.upper hread

/-- At the beginning of a command, the reader sees the beginning of a request. -/
theorem head_unread (h : e.Fed srv cmds pending) (hsent : e.received <+: Resp.sentBy requests)
    (hphase : e.reader.phase = .line none none) : ∀ c ∈ e.reader.rd.unread.head?, c = 42 := by
  obtain ⟨s, hs⟩ := hsent
  obtain ⟨-, hrest⟩ := h.remaining hs
  intro c hc
  rw [← h.start hphase] at hc
  have hc' : (pending ++ s).head? = some c := by rw [List.head?_append, Option.mem_def.mp hc]; rfl
  cases hdrop : requests.drop e.session.handled with
  | nil =>
    rw [hrest, hdrop] at hc'
    exact absurd hc' (Option.some_ne_none c).symm
  | cons request more =>
    rw [hrest, hdrop, PrefixCode.encodeAll_cons] at hc'
    change (request.bytes ++ _).head? = some c at hc'
    rw [request.bytes_eq] at hc'
    exact (Option.some_inj.mp hc').symm

/-- What the reader is in the middle of is the next request. -/
private theorem resume_eq (h : e.Fed srv cmds pending)
    (hsent : e.received <+: Resp.sentBy requests) :
    ∃ s, pending ++ s = (Resp.Request.code srv.upper).encodeAll (requests.drop e.session.handled) ∧
      e.reader.resume srv.upper s = Resp.readCommand srv.upper
        ((Resp.Request.code srv.upper).encodeAll (requests.drop e.session.handled)) := by
  obtain ⟨s, hs⟩ := hsent
  obtain ⟨-, hrest⟩ := h.remaining hs
  refine ⟨s, hrest, ?_⟩
  rw [← hrest]
  exact h.tracks.resume s fun hended ↦ absurd (h.ended.symm.trans hended) Bool.false_ne_true

theorem command_eq (h : e.Fed srv cmds pending) (hsent : e.received <+: Resp.sentBy requests)
    {name : Bytes} {args : List (Option Resp.Slice)}
    (hphase : e.reader.phase = .command name args) :
    ∃ request, requests[e.session.handled]? = some request ∧
      request.command srv.upper = ⟨name, values e.memory args⟩ := by
  obtain ⟨s, -, hread⟩ := h.resume_eq hsent
  rw [Resp.Reader.resume, hphase] at hread
  cases hdrop : requests.drop e.session.handled with
  | nil =>
    rw [hdrop, PrefixCode.encodeAll_nil, Resp.readCommand, Resp.readLine_nil] at hread
    cases hread
  | cons request more =>
    rw [hdrop, Resp.readCommand_encodeAll_cons] at hread
    refine ⟨request, ?_, (Prod.mk.inj (Except.ok.inj hread)).1.symm⟩
    rw [← List.head?_drop, hdrop]
    rfl

theorem not_failed (h : e.Fed srv cmds pending) (hsent : e.received <+: Resp.sentBy requests)
    (err : ReadError) : e.reader.phase ≠ .failed err := by
  intro hphase
  obtain ⟨s, hrest, hread⟩ := h.resume_eq hsent
  rw [Resp.Reader.resume, hphase] at hread
  cases hdrop : requests.drop e.session.handled with
  | nil =>
    -- the stream has been read to its end, and the reader waits for more
    rw [hdrop, PrefixCode.encodeAll_nil] at hrest
    have hstart := h.begun (List.append_eq_nil_iff.mp hrest).1
    rw [hphase] at hstart
    cases hstart
  | cons request more =>
    rw [hdrop, Resp.readCommand_encodeAll_cons] at hread
    cases hread

private theorem parse (h : e.Fed srv cmds pending) (hsent : e.received <+: Resp.sentBy requests)
    {r : Resp.Reader} (hr : e.reader.parse srv.upper = some r) :
    { e with reader := r }.Fed srv cmds pending := by
  obtain ⟨hvalid, -, hresume⟩ := Resp.Reader.parse_spec hr
  obtain ⟨howned, hne⟩ := Resp.Reader.owned_parse hr (h.head_unread hsent)
  refine ⟨h.tracks.setReader hvalid fun s _ ↦ hresume s, h.ended, howned, h.recorded,
    fun hphase ↦ absurd hphase hne, fun hempty ↦ ?_⟩
  -- with nothing pending the reader is at the beginning of a command, and has nothing to parse
  have hidle : e.reader.Idle := ⟨h.begun hempty, by rw [← h.start (h.begun hempty), hempty]⟩
  exact absurd (hr.symm.trans (hidle.parse_eq srv.upper)) (Option.some_ne_none r)

private theorem fill (h : e.Fed srv cmds pending) {r : Resp.Reader} (hr : e.reader.fill = some r) :
    { e with reader := r }.Fed srv cmds pending := by
  obtain ⟨hvalid, hresume, -⟩ := Resp.Reader.fill_spec srv.upper hr
  obtain ⟨hphase, hunread⟩ := Resp.Reader.phase_fill hr
  refine ⟨h.tracks.setReader hvalid fun s _ ↦ hresume s, h.ended, ?_, h.recorded,
    fun hstart ↦ ?_, fun hempty ↦ hphase.trans (h.begun hempty)⟩
  · change r.phase.Owned
    rw [hphase]
    exact h.owned
  · exact (h.start (hphase.symm.trans hstart)).trans hunread.symm

private theorem receive (h : e.Fed srv cmds pending) {data : Bytes} {r : Resp.Reader}
    (hr : e.reader.receive data = some r) :
    { e with reader := r, received := e.received ++ data }.Fed srv cmds (pending ++ data) := by
  obtain ⟨howned, hne, hstart⟩ := Resp.Reader.phase_receive hr h.owned
  refine ⟨h.tracks.receive h.ended hr, h.ended, howned, h.recorded, fun hphase ↦ ?_,
    fun hempty ↦ ?_⟩
  · obtain ⟨hphase', hunread⟩ := hstart hphase
    rw [h.start hphase']
    exact hunread.symm
  · exact absurd (List.append_eq_nil_iff.mp hempty).2 hne

private theorem handle (h : e.Fed srv cmds pending) {env : Env}
    (hstep : e.step srv (.handle env) = some e') :
    ∃ cmd, e'.Fed srv (cmds ++ [cmd]) e.reader.rd.unread := by
  obtain ⟨cmd, htracks⟩ := h.tracks.handle hstep
  rw [Endpoint.step] at hstep
  split at hstep
  · rename_i name args hphase
    have howned := h.owned
    rw [hphase] at howned
    obtain ⟨session, -, rfl⟩ := Option.map_eq_some_iff.mp hstep
    refine ⟨cmd, htracks, h.ended, trivial, fun s hs o ho slice hslice ↦ ?_, fun _ ↦ rfl,
      fun _ ↦ rfl⟩
    rcases List.mem_append.mp hs with hs | hs
    · exact h.recorded s hs o ho slice hslice
    · -- a new record has the slice of an argument, and the arguments of an array are no views
      replace hs := (mem_held.mp hs).1
      cases hverb : Verb.ofName name with
      | none =>
        rw [hverb] at hs
        exact absurd hs List.not_mem_nil
      | some verb =>
        rw [hverb] at hs
        exact howned slice (mem_args_of_mem_stores hs ho hslice)
  · exact absurd hstep (Option.some_ne_none e').symm

/-- **One step** of a connection that is given requests and stays open. -/
theorem step (h : e.Fed srv cmds pending) (hsent : e.received <+: Resp.sentBy requests) {l : Label}
    (hl : l ≠ .hangup) (hstep : e.step srv l = some e') :
    ∃ cmds' pending', e'.Fed srv cmds' pending' := by
  cases l with
  | parse =>
    rw [Endpoint.step, Option.ite_none_right_eq_some] at hstep
    obtain ⟨r, hr, rfl⟩ := Option.map_eq_some_iff.mp hstep.2
    exact ⟨_, _, h.parse hsent hr⟩
  | fill =>
    rw [Endpoint.step, Option.ite_none_right_eq_some] at hstep
    obtain ⟨r, hr, rfl⟩ := Option.map_eq_some_iff.mp hstep.2
    exact ⟨_, _, h.fill hr⟩
  | receive data =>
    rw [Endpoint.step, Option.ite_none_right_eq_some] at hstep
    obtain ⟨r, hr, rfl⟩ := Option.map_eq_some_iff.mp hstep.2
    exact ⟨_, _, h.receive hr⟩
  | hangup => exact absurd rfl hl
  | handle env =>
    obtain ⟨cmd, h'⟩ := h.handle hstep
    exact ⟨_, _, h'⟩
  | close =>
    rw [Endpoint.step] at hstep
    split at hstep
    · rename_i err hphase
      exact absurd hphase (h.not_failed hsent err)
    · exact absurd hstep (Option.some_ne_none e').symm
  | others b =>
    have htracks := h.tracks.others hstep
    rw [Endpoint.step, Option.ite_none_right_eq_some, Option.some_inj] at hstep
    obtain ⟨-, rfl⟩ := hstep
    refine ⟨cmds, pending, htracks, h.ended, h.owned, fun s hs o ho ↦ ?_, h.start, h.begun⟩
    rcases List.mem_append.mp hs with hs | hs
    · exact h.recorded s hs o ho
    · obtain ⟨x, -, rfl⟩ := List.mem_map.mp hs
      exact absurd ho (Option.not_mem_none o)
  | release x =>
    have htracks := h.tracks.release hstep
    rw [Endpoint.step, Option.ite_none_right_eq_some, Option.some_inj] at hstep
    obtain ⟨-, rfl⟩ := hstep
    refine ⟨cmds, pending, htracks, h.ended, h.owned, fun s hs ↦ ?_, h.start, h.begun⟩
    exact h.recorded s (List.mem_filter.mp hs).1

end Fed

theorem received_step {l : Label} (hstep : e.step srv l = some e') :
    e.received <+: e'.received := by
  cases l with
  | parse | fill | hangup =>
    rw [Endpoint.step, Option.ite_none_right_eq_some] at hstep
    obtain ⟨r, -, rfl⟩ := Option.map_eq_some_iff.mp hstep.2
    exact List.prefix_rfl
  | receive data =>
    rw [Endpoint.step, Option.ite_none_right_eq_some] at hstep
    obtain ⟨r, -, rfl⟩ := Option.map_eq_some_iff.mp hstep.2
    exact List.prefix_append _ _
  | handle env =>
    rw [Endpoint.step] at hstep
    split at hstep
    · obtain ⟨session, -, rfl⟩ := Option.map_eq_some_iff.mp hstep
      exact List.prefix_rfl
    · exact absurd hstep (Option.some_ne_none e').symm
  | close =>
    rw [Endpoint.step] at hstep
    split at hstep
    · obtain ⟨session, -, rfl⟩ := Option.map_eq_some_iff.mp hstep
      exact List.prefix_rfl
    · exact absurd hstep (Option.some_ne_none e').symm
  | others b | release x =>
    rw [Endpoint.step, Option.ite_none_right_eq_some, Option.some_inj] at hstep
    obtain ⟨-, rfl⟩ := hstep
    exact List.prefix_rfl

theorem exists_fed {b : Broker} {ls : List Label}
    (hrun : Run (step srv) (fun _ ↦ True) (accept srv b) ls e) (hopen : .hangup ∉ ls)
    (hsent : e.received <+: Resp.sentBy requests) :
    ∃ cmds pending, e.Fed srv cmds pending ∧ e.Fresh := by
  have hguard : Run.Guarded (step srv) (fun _ l ↦ l ≠ .hangup) (accept srv b) ls :=
    Run.guarded_of_forall fun l hl _ heq ↦ hopen (heq ▸ hl)
  -- the invariant supposes that requests have arrived so far; what arrives later says so of before
  refine hrun.invariant_of_guarded (I := fun e ↦ e.received <+: Resp.sentBy requests →
    ∃ cmds pending, e.Fed srv cmds pending ∧ e.Fresh) (fun e l e' hl hstep ih hsent ↦ ?_) hguard
    (fun _ ↦ ⟨[], [], fed_accept srv b, fresh_accept srv b⟩) hsent
  have hbefore := (received_step hstep).trans hsent
  obtain ⟨cmds, pending, hfed, hfresh⟩ := ih hbefore
  obtain ⟨cmds', pending', hfed'⟩ := hfed.step hbefore hl hstep
  exact ⟨cmds', pending', hfed', hfresh.step hfed.tracks.valid (hfed.spared l) hstep⟩

/-- **Arrays leave no views.** Whatever requests a client sends as arrays, in whatever pieces, and
whatever the rest of the server does, the payloads are at every moment the arguments that were
sent. -/
theorem intact_of_arrays (srv : Server) (b : Broker) (requests : List Resp.Request)
    {ls : List Label} (hrun : Run (step srv) (fun _ ↦ True) (accept srv b) ls e)
    (hopen : .hangup ∉ ls) (hsent : e.received <+: Resp.sentBy requests) : e.Intact srv := by
  obtain ⟨cmds, pending, hfed, hfresh⟩ := exists_fed hrun hopen hsent
  exact hfed.tracks.intact hfresh

end Endpoint

end VortexMQ
