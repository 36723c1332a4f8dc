import VortexMQ.Basic.ListIndex
import VortexMQ.Network.AcceptLoop

/-!
# The limit of clients

`acceptLoop` refuses a connection if the map of connections has reached `MaxClients`. What is meant
is a limit on the clients that are served. The map is entered by `acceptLoop` before the handler is
started and left by the handler when it has ended, so the two agree only if no connection is entered
twice, none is left behind, and none is removed by the handler of another.

The roster of a state is what of it has to do with this: where `acceptLoop` is, the map, and for
each handler its connection and whether it has left the map. A step of the server is a step of the
roster (`Roster.Step`), and the invariant is about rosters.
-/

namespace VortexMQ

def AcceptPhase.inHand : AcceptPhase → List ℕ
  | .accepted conn | .registered conn | .counted conn => [conn]
  | _ => []

/-- The connection that is in the map and has no handler yet. -/
def AcceptPhase.enrolled : AcceptPhase → List ℕ
  | .registered conn | .counted conn => [conn]
  | _ => []

theorem AcceptPhase.enrolled_sublist (phase : AcceptPhase) :
    phase.enrolled.Sublist phase.inHand := by
  cases phase <;> first | exact List.Sublist.refl _ | exact List.nil_sublist _

/-! ## Rosters -/

structure Roster where
  acceptLoop : AcceptPhase
  /-- `s.conns`. -/
  conns : List ℕ
  /-- The connections of the handlers, and whether they have left the map. -/
  clients : List (ℕ × Bool)
  /-- The number of connections so far. -/
  dialled : ℕ

namespace Roster

/-- The connections that are served or about to be. -/
def served (r : Roster) : List ℕ :=
  r.acceptLoop.enrolled ++ (r.clients.filter fun client ↦ !client.2).map Prod.fst

def known (r : Roster) : List ℕ := r.acceptLoop.inHand ++ r.clients.map Prod.fst

inductive Step (maxClients : ℤ) : Roster → Roster → Prop
  | stay (r : Roster) : Step maxClients r r
  /-- `acceptLoop` is through with a connection, or has none. -/
  | idle {r : Roster} {phase : AcceptPhase} (hold : r.acceptLoop.inHand = [])
      (hnew : phase.inHand = []) (hrefused : ∀ conn, phase ≠ .refused conn) :
      Step maxClients r { r with acceptLoop := phase }
  | dial {r : Roster} (hold : r.acceptLoop = .accept) :
      Step maxClients r
        { r with acceptLoop := .accepted r.dialled, dialled := r.dialled + 1 }
  | refuse {r : Roster} {conn : ℕ} (hold : r.acceptLoop = .accepted conn) :
      Step maxClients r { r with acceptLoop := .refused conn }
  | register {r : Roster} {conn : ℕ} (hold : r.acceptLoop = .accepted conn)
      (hroom : 0 < maxClients → (r.conns.length : ℤ) < maxClients) :
      Step maxClients r { r with acceptLoop := .registered conn, conns := conn :: r.conns }
  | count {r : Roster} {conn : ℕ} (hold : r.acceptLoop = .registered conn) :
      Step maxClients r { r with acceptLoop := .counted conn }
  | spawn {r : Roster} {conn : ℕ} (hold : r.acceptLoop = .counted conn) :
      Step maxClients r
        { r with acceptLoop := .accept, clients := r.clients ++ [(conn, false)] }
  | unregister {r : Roster} {front back : List (ℕ × Bool)} {conn : ℕ}
      (hold : r.clients = front ++ (conn, false) :: back) :
      Step maxClients r
        { r with
          clients := front ++ (conn, true) :: back
          conns := r.conns.filter fun c ↦ c ≠ conn }
  | done {r : Roster} {front back : List (ℕ × Bool)} {conn : ℕ}
      (hold : r.clients = front ++ (conn, true) :: back) :
      Step maxClients r { r with clients := front ++ back }

/-- The map holds the connections that are served, each once and within the limit. -/
structure Kept (maxClients : ℤ) (r : Roster) : Prop where
  conns : r.conns.Perm r.served
  known : r.known.Nodup
  fresh : ∀ conn ∈ r.known, conn < r.dialled
  limit : 0 < maxClients → (r.conns.length : ℤ) ≤ maxClients
  refused : ∀ conn, r.acceptLoop = .refused conn → conn ∉ r.known ∧ conn < r.dialled

variable {maxClients : ℤ} {r r' : Roster}

private theorem served_sublist (r : Roster) : r.served.Sublist r.known :=
  r.acceptLoop.enrolled_sublist.append (List.filter_sublist.map Prod.fst)

/-- `acceptLoop` moves on with the connection it has, or without one. -/
theorem Kept.moveOn (h : r.Kept maxClients) {phase : AcceptPhase}
    (henrolled : phase.enrolled = r.acceptLoop.enrolled)
    (hinHand : phase.inHand.Sublist r.acceptLoop.inHand)
    (hrefused : ∀ conn, phase = .refused conn → conn ∉ r.clients.map Prod.fst ∧ conn < r.dialled) :
    Kept maxClients { r with acceptLoop := phase } where
  conns := by
    rw [served, henrolled]
    exact h.conns
  known := h.known.sublist (hinHand.append_right _)
  fresh := fun conn hconn ↦ h.fresh conn ((hinHand.append_right _).subset hconn)
  limit := h.limit
  refused := fun conn hconn ↦ by
    obtain rfl := hconn
    exact hrefused conn rfl

theorem known_sublist_done {front back : List (ℕ × Bool)} {client : ℕ × Bool}
    (hold : r.clients = front ++ client :: back) :
    (known { r with clients := front ++ back }).Sublist r.known := by
  have hsub : (front ++ back).Sublist r.clients :=
    hold ▸ (List.Sublist.refl front).append (List.sublist_cons_self client back)
  exact (List.Sublist.refl _).append (hsub.map Prod.fst)

private theorem served_filter_ne {front back : List (ℕ × Bool)} {conn : ℕ}
    (hold : r.clients = front ++ (conn, false) :: back) (hknown : r.known.Nodup) :
    r.served.filter (fun c ↦ c ≠ conn)
      = served { r with clients := front ++ (conn, true) :: back } := by
  rw [Roster.known, hold, List.map_append, List.map_cons, ← List.append_assoc] at hknown
  have hnot := (List.nodup_middle.mp hknown).notMem
  simp only [List.mem_append, not_or] at hnot
  obtain ⟨⟨hinHand, hfront⟩, hback⟩ := hnot
  have hself : ∀ {l : List ℕ}, conn ∉ l → l.filter (fun c ↦ c ≠ conn) = l := by
    intro l hl
    refine List.filter_eq_self.mpr fun c hc ↦ decide_eq_true ?_
    rintro rfl
    exact hl hc
  have hclients : ∀ {l : List (ℕ × Bool)}, conn ∉ l.map Prod.fst →
      conn ∉ (l.filter fun client ↦ !client.2).map Prod.fst := fun hl hmem ↦
    hl ((List.filter_sublist.map Prod.fst).subset hmem)
  have henrolled : conn ∉ r.acceptLoop.enrolled := fun hmem ↦
    hinHand (r.acceptLoop.enrolled_sublist.subset hmem)
  rw [served, served, hold, List.filter_append, hself henrolled]
  congr 1
  rw [List.filter_append, List.filter_append, List.map_append, List.map_append,
    List.filter_cons_of_pos rfl, List.filter_cons_of_neg (by simp), List.filter_append,
    List.map_cons, List.filter_cons_of_neg (by simp), hself (hclients hfront),
    hself (hclients hback)]

theorem Kept.step (h : r.Kept maxClients) (hstep : Step maxClients r r') : r'.Kept maxClients := by
  cases hstep with
  | stay => exact h
  | @idle phase hold hnew hrefused =>
    have hnil : ∀ {p : AcceptPhase}, p.inHand = [] → p.enrolled = [] := fun hp ↦
      List.sublist_nil.mp (hp ▸ AcceptPhase.enrolled_sublist _)
    exact h.moveOn ((hnil hnew).trans (hnil hold).symm) (hnew ▸ List.nil_sublist _)
      fun conn heq ↦ absurd heq (hrefused conn)
  | dial hold =>
    have hknown := h.known
    have hfresh := h.fresh
    have hconns := h.conns
    rw [Roster.known, hold] at hknown hfresh
    rw [served, hold] at hconns
    refine ⟨hconns, List.nodup_cons.mpr ⟨fun hmem ↦ ?_, hknown⟩, fun conn hconn ↦ ?_, h.limit,
      fun _ heq ↦ absurd heq (by simp)⟩
    · exact lt_irrefl _ (hfresh _ hmem)
    · rcases List.mem_cons.mp hconn with rfl | hconn
      · exact Nat.lt_succ_self _
      · exact Nat.lt_succ_of_lt (hfresh _ hconn)
  | @refuse conn hold =>
    have hknown := h.known
    have hfresh := h.fresh conn
    rw [Roster.known, hold] at hknown hfresh
    refine h.moveOn (hold ▸ rfl) (List.nil_sublist _) fun c heq ↦ ?_
    obtain rfl := AcceptPhase.refused.inj heq
    exact ⟨(List.nodup_cons.mp hknown).1, hfresh List.mem_cons_self⟩
  | @register conn hold hroom =>
    have hconns := h.conns
    have hknown := h.known
    have hfresh := h.fresh
    rw [served, hold] at hconns
    rw [Roster.known, hold] at hknown hfresh
    exact ⟨hconns.cons conn, hknown, hfresh, hroom, fun _ heq ↦ absurd heq (by simp)⟩
  | count hold =>
    exact h.moveOn (hold ▸ rfl) (hold ▸ List.Sublist.refl _) fun _ heq ↦ absurd heq (by simp)
  | @spawn conn hold =>
    -- the connection moves from `acceptLoop` to the end of the handlers
    have hconns := h.conns
    have hknown := h.known
    have hfresh := h.fresh
    rw [served, hold] at hconns
    rw [Roster.known, hold] at hknown hfresh
    have hmove : (r.clients ++ [(conn, false)]).map Prod.fst = r.clients.map Prod.fst ++ [conn] :=
      List.map_append
    have hperm : ([conn] ++ r.clients.map Prod.fst).Perm
        ((r.clients ++ [(conn, false)]).map Prod.fst) := hmove ▸ List.perm_append_comm
    refine ⟨hconns.trans ?_, hperm.nodup hknown, fun c hc ↦ hfresh c (hperm.mem_iff.mpr hc),
      h.limit, fun _ heq ↦ absurd heq (by simp)⟩
    rw [served, List.filter_append, List.map_append]
    exact List.perm_append_comm
  | @unregister front back conn hold =>
    have hknown := h.known
    have hconns := h.conns
    have hsame : Roster.known { r with clients := front ++ (conn, true) :: back } = r.known := by
      rw [Roster.known, Roster.known, hold, List.map_append, List.map_append]
      rfl
    refine ⟨?_, ?_, ?_, ?_, ?_⟩
    · refine (hconns.filter _).trans (List.Perm.of_eq ?_)
      exact served_filter_ne hold hknown
    · exact hsame ▸ hknown
    · exact hsame ▸ h.fresh
    · intro hpos
      have hle : (r.conns.filter fun c ↦ c ≠ conn).length ≤ r.conns.length :=
        List.length_filter_le _ _
      have hlimit := h.limit hpos
      change ((r.conns.filter fun c ↦ c ≠ conn).length : ℤ) ≤ _
      omega
    · exact hsame ▸ h.refused
  | @done front back conn hold =>
    have hknown := known_sublist_done hold
    refine ⟨?_, h.known.sublist hknown, fun c hc ↦ h.fresh c (hknown.subset hc), h.limit,
      fun c heq ↦ ⟨fun hmem ↦ (h.refused c heq).1 (hknown.subset hmem), (h.refused c heq).2⟩⟩
    have hconns := h.conns
    rw [served, hold] at hconns
    simpa [served] using hconns

theorem Step.known (hstep : Step maxClients r r') {conn : ℕ} (hlt : conn < r.dialled)
    (hnot : conn ∉ r.known) : conn ∉ r'.known ∧ conn < r'.dialled := by
  cases hstep with
  | stay => exact ⟨hnot, hlt⟩
  | idle hold hnew =>
    rw [Roster.known, hold] at hnot
    rw [Roster.known, hnew]
    exact ⟨hnot, hlt⟩
  | dial hold =>
    rw [Roster.known, hold] at hnot
    refine ⟨fun hmem ↦ ?_, Nat.lt_succ_of_lt hlt⟩
    rcases List.mem_cons.mp hmem with rfl | hmem
    · exact lt_irrefl _ hlt
    · exact hnot hmem
  | refuse hold =>
    rw [Roster.known, hold] at hnot
    exact ⟨fun hmem ↦ hnot (List.mem_cons_of_mem _ hmem), hlt⟩
  | register hold _ | count hold =>
    rw [Roster.known, hold] at hnot
    exact ⟨hnot, hlt⟩
  | @spawn conn' hold =>
    rw [Roster.known, hold] at hnot
    refine ⟨fun hmem ↦ hnot ?_, hlt⟩
    have hmoved : conn ∈ r.clients.map Prod.fst ++ [conn'] := by
      rw [Roster.known, List.map_append] at hmem
      exact hmem
    exact List.mem_append.mpr (List.mem_append.mp hmoved).symm
  | unregister hold =>
    rw [Roster.known, hold, List.map_append] at hnot
    rw [Roster.known, List.map_append]
    exact ⟨hnot, hlt⟩
  | done hold => exact ⟨fun hmem ↦ hnot ((known_sublist_done hold).subset hmem), hlt⟩

end Roster

/-! ## The server -/

/-- The connection of a handler, and whether it has left the map. -/
def ConnHandler.client (h : ConnHandler) : ℕ × Bool := (h.conn, h.phase.isDeleted)

namespace Listening

def roster (s : Listening) : Roster where
  acceptLoop := s.acceptLoop
  conns := s.conns
  clients := s.handlers.map ConnHandler.client
  dialled := s.dialled

/-- The connections that are served or about to be. -/
def served (s : Listening) : List ℕ := s.roster.served

variable {s s' : Listening} {srv : Server} {maxClients : ℤ} {l : Label}

private theorem roster_setPhase {i conn : ℕ} {phase phase' : ServePhase}
    (hi : s.handlers[i]? = some ⟨conn, phase⟩) (hphase : phase'.isDeleted = phase.isDeleted)
    (b : Broker) : roster { s.setPhase i conn phase' with broker := b } = s.roster := by
  obtain ⟨front, back, hsplit, hset, -⟩ := exists_around hi
  rw [roster, roster, setPhase]
  congr 1
  change (s.handlers.set i _).map _ = _
  rw [hset, hsplit, List.map_append, List.map_append, List.map_cons, List.map_cons,
    ConnHandler.client, ConnHandler.client, hphase]

/-- **A step of the server** is a step of the roster. -/
theorem roster_step (hstep : s.step srv maxClients l = some s') :
    Roster.Step maxClients s.roster s'.roster := by
  cases l with
  | dial =>
    rw [step, Option.ite_none_right_eq_some] at hstep
    obtain ⟨⟨haccept, -⟩, hstep⟩ := hstep
    obtain rfl := Option.some_inj.mp hstep
    exact .dial haccept
  | acceptError =>
    rw [step, Option.ite_none_right_eq_some] at hstep
    obtain ⟨haccept, hstep⟩ := hstep
    obtain rfl := Option.some_inj.mp hstep
    exact .idle (congrArg AcceptPhase.inHand haccept) rfl (by simp)
  | checkFlag =>
    rw [step, Option.ite_none_right_eq_some] at hstep
    obtain ⟨haccept, hstep⟩ := hstep
    obtain rfl := Option.some_inj.mp hstep
    refine .idle (congrArg AcceptPhase.inHand haccept) ?_ fun conn ↦ ?_
    · split <;> rfl
    · split <;> simp
  | register =>
    rw [step] at hstep
    split at hstep
    · rename_i conn haccept
      split at hstep
      · obtain rfl := Option.some_inj.mp hstep
        exact .refuse haccept
      · rename_i hroom
        obtain rfl := Option.some_inj.mp hstep
        exact .register haccept fun hpos ↦ not_le.mp fun hfull ↦ hroom ⟨hpos, hfull⟩
    · exact absurd hstep (Option.some_ne_none _).symm
  | refuse =>
    rw [step] at hstep
    split at hstep
    · rename_i conn haccept
      obtain rfl := Option.some_inj.mp hstep
      exact .idle (congrArg AcceptPhase.inHand haccept) rfl (by simp)
    · exact absurd hstep (Option.some_ne_none _).symm
  | count =>
    rw [step] at hstep
    split at hstep
    · rename_i conn haccept
      obtain rfl := Option.some_inj.mp hstep
      exact .count haccept
    · exact absurd hstep (Option.some_ne_none _).symm
  | spawn =>
    rw [step] at hstep
    split at hstep
    · rename_i conn haccept
      obtain rfl := Option.some_inj.mp hstep
      have hspawn : Roster.Step maxClients s.roster _ := .spawn haccept
      simp only [roster, List.map_append, List.map_cons, List.map_nil]
      exact hspawn
    · exact absurd hstep (Option.some_ne_none _).symm
  | command i cmd buffered env =>
    rw [step] at hstep
    split at hstep
    · rename_i conn session hi
      obtain ⟨session', -, rfl⟩ := Option.map_eq_some_iff.mp hstep
      rw [roster_setPhase hi]
      · exact .stay _
      · rw [phaseOf]
        split <;> rfl
    · exact absurd hstep (Option.some_ne_none _).symm
  | hangup i =>
    rw [step] at hstep
    split at hstep
    · rename_i conn session hi
      obtain rfl := Option.some_inj.mp hstep
      have hphase : ServePhase.leaving.isDeleted = (ServePhase.serving session).isDeleted := rfl
      have hsame : (s.setPhase i conn .leaving).roster = s.roster :=
        roster_setPhase hi hphase s.broker
      exact hsame ▸ .stay _
    · exact absurd hstep (Option.some_ne_none _).symm
  | unregister i =>
    rw [step] at hstep
    split at hstep
    · rename_i conn hi
      obtain rfl := Option.some_inj.mp hstep
      obtain ⟨front, back, hsplit, hset, -⟩ := exists_around hi
      have hleave : Roster.Step maxClients s.roster _ := .unregister
        ((congrArg (List.map ConnHandler.client) hsplit).trans List.map_append)
      simp only [roster, setPhase, hset, List.map_append, List.map_cons]
      exact hleave
    · exact absurd hstep (Option.some_ne_none _).symm
  | done i =>
    rw [step] at hstep
    split at hstep
    · rename_i conn hi
      obtain rfl := Option.some_inj.mp hstep
      obtain ⟨front, back, hsplit, -, herase⟩ := exists_around hi
      have hend : Roster.Step maxClients s.roster _ := .done
        ((congrArg (List.map ConnHandler.client) hsplit).trans List.map_append)
      simp only [roster, herase, List.map_append]
      exact hend
    · exact absurd hstep (Option.some_ne_none _).symm
  | stop | wait | stopAgain =>
    rw [step, Option.ite_none_right_eq_some] at hstep
    obtain rfl := Option.some_inj.mp hstep.2
    exact .stay _
  | others b =>
    obtain rfl := Option.some_inj.mp hstep
    exact .stay _

private theorem kept_of_run {b : Broker} {labels : List Label}
    (hrun : Run (step srv maxClients) (fun _ ↦ True) (start b) labels s) :
    s.roster.Kept maxClients := by
  refine hrun.invariant (I := fun s ↦ s.roster.Kept maxClients)
    (fun _ _ _ _ _ hstep h ↦ h.step (roster_step hstep)) ?_
  exact ⟨List.Perm.nil, List.nodup_nil, fun _ h ↦ absurd h List.not_mem_nil, fun hpos ↦ hpos.le,
    fun _ heq ↦ absurd heq (by simp [start, roster])⟩

/-- **At most so many clients.** In every interleaving of `acceptLoop`, the handlers and `Stop`, the
map of connections holds exactly the connections that are served or about to be, each once: no place
is lost and none is taken twice. If there is a limit, they are never more, and a new connection is
refused exactly if there are as many. One that has been refused is never served. -/
theorem serves_at_most (srv : Server) (maxClients : ℤ) (b : Broker) {labels : List Label}
    (hrun : Run (step srv maxClients) (fun _ ↦ True) (start b) labels s) :
    (s.conns.Perm s.served ∧ s.served.Nodup) ∧
    (0 < maxClients → (s.served.length : ℤ) ≤ maxClients) ∧
    (∀ conn, s.acceptLoop = .accepted conn →
      ((s.step srv maxClients .register).map Listening.acceptLoop = some (.refused conn) ↔
        0 < maxClients ∧ (s.served.length : ℤ) = maxClients)) ∧
    ∀ conn, s.acceptLoop = .refused conn → ∀ later u,
      Run (step srv maxClients) (fun _ ↦ True) s later u →
        conn ∉ u.served ∧ ∀ h ∈ u.handlers, h.conn ≠ conn := by
  have hkept := kept_of_run hrun
  have hlen : s.served.length = s.conns.length := hkept.conns.length_eq.symm
  refine ⟨⟨hkept.conns, hkept.known.sublist s.roster.served_sublist⟩, ?_, ?_, ?_⟩
  · rw [hlen]
    exact hkept.limit
  · intro conn haccept
    rw [step, haccept, hlen]
    dsimp only
    by_cases hfull : 0 < maxClients ∧ maxClients ≤ s.conns.length
    · rw [if_pos hfull]
      exact ⟨fun _ ↦ ⟨hfull.1, le_antisymm (hkept.limit hfull.1) hfull.2⟩, fun _ ↦ rfl⟩
    · rw [if_neg hfull]
      exact ⟨fun h ↦ by simp at h, fun h ↦ absurd ⟨h.1, h.2.ge⟩ hfull⟩
  · intro conn hrefused later u hlater
    have hgone := hlater.invariant
      (I := fun s ↦ conn ∉ s.roster.known ∧ conn < s.roster.dialled)
      (fun _ _ _ _ _ hstep h ↦ (roster_step hstep).known h.2 h.1) (hkept.refused conn hrefused)
    refine ⟨fun hmem ↦ hgone.1 (u.roster.served_sublist.subset hmem), fun h hmem heq ↦ ?_⟩
    refine hgone.1 (List.mem_append_right _ (List.mem_map.mpr ⟨h.client, ?_, heq⟩))
    exact List.mem_map_of_mem hmem

/-- With room for one client the second is refused, for good. -/
theorem serves_at_most_second_client :
    ∃ s u, Run (step Session.openServer 1) (fun _ ↦ True) (start (Broker.newBroker none 0))
        [.dial, .register, .count, .spawn, .dial] s ∧
      (s.served.length : ℤ) = 1 ∧ s.step Session.openServer 1 .register = some u ∧
      u.acceptLoop = .refused 1 ∧
      ∀ later w, Run (step Session.openServer 1) (fun _ ↦ True) u later w → 1 ∉ w.served := by
  have hsome : (Run.exec (step Session.openServer 1) (fun _ ↦ True)
      (start (Broker.newBroker none 0)) [.dial, .register, .count, .spawn, .dial]).isSome := by
    decide +kernel
  have hrun := Run.of_exec (Option.some_get hsome).symm
  have hserved := hrun.of_exec_map (f := fun s ↦ (s.served.length : ℤ)) (a := 1)
    (by decide +kernel)
  have haccepted := hrun.of_exec_map (f := Listening.acceptLoop) (a := .accepted 1)
    (by decide +kernel)
  obtain ⟨-, -, hlimit, -⟩ := serves_at_most _ _ _ hrun
  have hregister := (hlimit 1 haccepted).mpr ⟨one_pos, hserved⟩
  obtain ⟨u, hu, hrefused⟩ := Option.map_eq_some_iff.mp hregister
  have hlast : Run (step Session.openServer 1) (fun _ ↦ True) _ [.register] u :=
    Run.cons trivial hu (Run.nil trivial)
  obtain ⟨-, -, -, hgone⟩ := serves_at_most _ _ _ (hrun.append hlast)
  exact ⟨_, u, hrun, hserved, hu, hrefused, fun later w hlater ↦
    (hgone 1 hrefused later w hlater).1⟩

end Listening

end VortexMQ
