import VortexMQ.Coding.Numeral
import VortexMQ.Network.Connection

/-!
# The arguments of `XREADGROUP`

The command has parts in any order, each introduced by a keyword: the group and the consumer, a
count, the time to wait, and a flag. Then there are the stream and the position in it. The handler
goes through the arguments by index and steps over the ones it has used, so that a name that looks
like a keyword is not taken for one. It does not know `COUNT` and `NOACK`. It comes across them and
the count as if they might be keywords; but they are not, and a number never is.
-/

namespace VortexMQ

namespace Server

/-! ## Parts -/

/-- What can stand in front of `STREAMS`. -/
inductive GroupPart where
  | group (groupName consumerID : Bytes)
  | count (n : ℤ)
  | block (ms : ℤ)
  | noack
deriving DecidableEq

/-- How a part is written. Keywords may be in any case. -/
inductive GroupPart.Spells (upper : Char → Char) : GroupPart → Args → Prop
  | group {kw : Bytes} (groupName consumerID : Bytes) :
      Text.toUpper upper kw = bytesOf "GROUP" →
      Spells upper (.group groupName consumerID) [some kw, some groupName, some consumerID]
  | count {kw text : Bytes} {n : ℤ} : Text.toUpper upper kw = bytesOf "COUNT" →
      Text.Numeral text n → Spells upper (.count n) [some kw, some text]
  | block {kw text : Bytes} {ms : ℤ} : Text.toUpper upper kw = bytesOf "BLOCK" →
      Text.Numeral text ms → Int64Range ms → Spells upper (.block ms) [some kw, some text]
  | noack {kw : Bytes} : Text.toUpper upper kw = bytesOf "NOACK" → Spells upper .noack [some kw]

def GroupPart.apply (q : GroupRead) : GroupPart → GroupRead
  | .group groupName consumerID => { q with groupName := groupName, consumerID := consumerID }
  | .block ms => { q with blockMs := ms }
  | .count _ | .noack => q

variable {srv : Server} {args : Args} {i fuel : ℕ} {q : GroupRead}

/-! ## The loop -/

theorem text_of_drop {ws rest : Args} (h : args.drop i = ws ++ rest) {j : ℕ} {w : Option Bytes}
    (hj : ws[j]? = some w) : args.text (i + j) = .ok (w.getD []) := by
  have hlt : j < ws.length := (List.getElem?_eq_some_iff.mp hj).1
  have hget : args[i + j]? = some w := by
    rw [← List.getElem?_drop, h, List.getElem?_append_left hlt, hj]
  rw [Args.text, Args.arg, hget]
  rfl

theorem lt_of_drop {ws rest : Args} (h : args.drop i = ws ++ rest) {j : ℕ} (hj : j < ws.length) :
    i + j < args.length := by
  have hlen := congrArg List.length h
  rw [List.length_drop, List.length_append] at hlen
  omega

theorem text_head_of_drop {w : Bytes} {rest : Args} (h : args.drop i = some w :: rest) :
    i < args.length ∧ args.text i = .ok w :=
  ⟨@lt_of_drop args i [some w] rest h 0 Nat.one_pos, @text_of_drop args i [some w] rest h 0 _ rfl⟩

private theorem drop_of_drop {ws rest : Args} (h : args.drop i = ws ++ rest) :
    args.drop (i + ws.length) = rest := by
  rw [← List.drop_drop, h, List.drop_left]

private theorem groupRead_skip (fuel : ℕ) {w : Bytes} {rest : Args}
    (h : args.drop i = some w :: rest) (hgroup : Text.toUpper srv.upper w ≠ bytesOf "GROUP")
    (hblock : Text.toUpper srv.upper w ≠ bytesOf "BLOCK")
    (hstreams : Text.toUpper srv.upper w ≠ bytesOf "STREAMS") :
    srv.groupRead args (fuel + 1) i q = srv.groupRead args fuel (i + 1) q := by
  obtain ⟨hi, hw⟩ := text_head_of_drop h
  rw [groupRead, if_pos hi, hw]
  simp only [Ending.ok_bind, hgroup, hblock, hstreams, false_and, if_false]

private theorem groupRead_part {p : GroupPart} {ws rest : Args} (hp : p.Spells srv.upper ws)
    (h : args.drop i = ws ++ rest) :
    ∃ rounds ≤ ws.length, ∀ fuel, srv.groupRead args (fuel + rounds) i q =
      srv.groupRead args fuel (i + ws.length) (p.apply q) := by
  have htext := @text_of_drop args i ws rest h
  have hlt := @lt_of_drop args i ws rest h
  cases hp with
  | @group kw groupName consumerID hkw =>
    refine ⟨1, Nat.le_add_left 1 2, fun fuel ↦ ?_⟩
    obtain ⟨hi, hw⟩ := text_head_of_drop h
    rw [groupRead, if_pos hi, hw]
    simp only [Ending.ok_bind, hkw, true_and]
    rw [if_pos (hlt (j := 2) (Nat.lt_add_one 2)), htext (j := 1) rfl, htext (j := 2) rfl]
    rfl
  | @count kw text n hkw htext' =>
    refine ⟨2, le_rfl, fun fuel ↦ ?_⟩
    have hdrop : args.drop (i + 1) = some text :: rest := by
      rw [← List.drop_drop, h]
      rfl
    rw [groupRead_skip (fuel + 1) h (by rw [hkw]; decide) (by rw [hkw]; decide)
      (by rw [hkw]; decide), groupRead_skip fuel hdrop (htext'.toUpper_ne _ rfl (by decide))
      (htext'.toUpper_ne _ rfl (by decide)) (htext'.toUpper_ne _ rfl (by decide))]
    rfl
  | @block kw text ms hkw htext' hms =>
    refine ⟨1, Nat.le_add_left 1 1, fun fuel ↦ ?_⟩
    have hne : ¬bytesOf "BLOCK" = bytesOf "GROUP" := by decide
    obtain ⟨hi, hw⟩ := text_head_of_drop h
    rw [groupRead, if_pos hi, hw]
    simp only [Ending.ok_bind, hkw, hne, false_and, if_false, true_and]
    rw [if_pos (hlt (j := 1) (Nat.lt_add_one 1)), htext (j := 1) rfl]
    simp only [Ending.ok_bind, Option.getD_some, htext'.atoi_eq hms]
    rfl
  | @noack kw hkw =>
    refine ⟨1, le_rfl, fun fuel ↦ ?_⟩
    rw [groupRead_skip fuel h (by rw [hkw]; decide) (by rw [hkw]; decide) (by rw [hkw]; decide)]
    rfl

private theorem groupRead_streams {kw topicName : Bytes} {rest : Args}
    (hkw : Text.toUpper srv.upper kw = bytesOf "STREAMS")
    (h : args.drop i = [some kw, some topicName] ++ rest) :
    srv.groupRead args (fuel + 1) i q = .ok { q with topicName := topicName } := by
  have hgroup : ¬bytesOf "STREAMS" = bytesOf "GROUP" := by decide
  have hblock : ¬bytesOf "STREAMS" = bytesOf "BLOCK" := by decide
  obtain ⟨hi, hw⟩ := text_head_of_drop h
  rw [groupRead, if_pos hi, hw]
  simp only [Ending.ok_bind, hkw, hgroup, hblock, false_and, if_false, true_and]
  rw [if_pos (lt_of_drop h (j := 1) (Nat.lt_add_one 1)), text_of_drop h (j := 1) rfl]
  rfl

private theorem groupRead_parts {kw topicName : Bytes} {rest : Args}
    (hkw : Text.toUpper srv.upper kw = bytesOf "STREAMS") {ps : List GroupPart} {wss : List Args}
    (hps : List.Forall₂ (GroupPart.Spells srv.upper) ps wss) :
    ∀ {i fuel : ℕ} {q : GroupRead},
      args.drop i = wss.flatten ++ ([some kw, some topicName] ++ rest) →
      wss.flatten.length < fuel →
      srv.groupRead args fuel i q =
        .ok { ps.foldl GroupPart.apply q with topicName := topicName } := by
  induction hps with
  | nil =>
    intro i fuel q h hfuel
    obtain ⟨fuel, rfl⟩ := Nat.exists_eq_add_one_of_ne_zero (Nat.ne_zero_of_lt hfuel)
    exact groupRead_streams hkw h
  | @cons p ws ps wss hp hps ih =>
    intro i fuel q h hfuel
    rw [List.flatten_cons, List.append_assoc] at h
    rw [List.flatten_cons, List.length_append] at hfuel
    obtain ⟨rounds, hrounds, hpart⟩ := groupRead_part (q := q) hp h
    obtain ⟨fuel', rfl⟩ := Nat.exists_eq_add_of_le' (hrounds.trans (by omega : ws.length ≤ fuel))
    rw [hpart, ih (drop_of_drop h) (by omega)]
    rfl

/-! ## The parts that are there -/

variable {group : Option (Bytes × Bytes)} {count block : Option ℤ} {noack : Bool}

/-- The parts of a request, each at most once. -/
def groupParts (group : Option (Bytes × Bytes)) (count block : Option ℤ) (noack : Bool) :
    List GroupPart :=
  group.toList.map (fun names ↦ .group names.1 names.2) ++ count.toList.map .count ++
    block.toList.map .block ++ if noack then [.noack] else []

private theorem group_mem_groupParts {groupName consumerID : Bytes} :
    .group groupName consumerID ∈ groupParts group count block noack ↔
      group = some (groupName, consumerID) := by
  cases noack <;> simp [groupParts]

private theorem block_mem_groupParts {ms : ℤ} :
    .block ms ∈ groupParts group count block noack ↔ block = some ms := by
  cases noack <;> simp [groupParts]

private theorem groupParts_comm {p p' : GroupPart} (hp : p ∈ groupParts group count block noack)
    (hp' : p' ∈ groupParts group count block noack) (q : GroupRead) :
    p'.apply (p.apply q) = p.apply (p'.apply q) := by
  -- parts of different kinds set different fields, and those of one kind are the same part
  cases p <;> cases p' <;> try rfl
  · rw [group_mem_groupParts] at hp hp'
    obtain ⟨rfl, rfl⟩ := Prod.mk.inj (Option.some_inj.mp (hp.symm.trans hp'))
    rfl
  · rw [block_mem_groupParts] at hp hp'
    obtain rfl := Option.some_inj.mp (hp.symm.trans hp')
    rfl

private theorem foldl_groupParts (q : GroupRead) :
    (groupParts group count block noack).foldl GroupPart.apply q =
      { q with groupName := (group.map Prod.fst).getD q.groupName
               consumerID := (group.map Prod.snd).getD q.consumerID
               blockMs := block.getD q.blockMs } := by
  rw [groupParts, List.foldl_append, List.foldl_append, List.foldl_append]
  cases group <;> cases count <;> cases block <;> cases noack <;> rfl

/-- **The handler of `XREADGROUP` reads the group, the consumer, the topic and the time to wait out
of its arguments**, whatever the names are and in whatever order the parts stand. -/
theorem parseGroupRead_eq {parts : List GroupPart} {chunks : List Args} {kw topicName : Bytes}
    (rest : Args) (hparts : parts.Perm (groupParts group count block noack))
    (hchunks : List.Forall₂ (GroupPart.Spells srv.upper) parts chunks)
    (hkw : Text.toUpper srv.upper kw = bytesOf "STREAMS") :
    srv.parseGroupRead (chunks.flatten ++ some kw :: some topicName :: rest) 0 =
      .ok { groupName := (group.map Prod.fst).getD [], consumerID := (group.map Prod.snd).getD [],
            topicName := topicName, blockMs := block.getD 0 } := by
  have hfold : parts.foldl GroupPart.apply ⟨[], [], [], 0⟩ =
      (groupParts group count block noack).foldl GroupPart.apply ⟨[], [], [], 0⟩ :=
    hparts.foldl_eq' (fun p hp p' hp' q ↦
      groupParts_comm (hparts.mem_iff.mp hp) (hparts.mem_iff.mp hp') q) _
  have hfuel : chunks.flatten.length <
      (chunks.flatten ++ some kw :: some topicName :: rest).length := by
    rw [List.length_append, List.length_cons]
    omega
  rw [parseGroupRead, groupRead_parts hkw hchunks rfl hfuel, hfold, foldl_groupParts]

/-- The group and the consumer are called like keywords. -/
theorem parseGroupRead_eq_keywords :
    Session.openServer.parseGroupRead
      ([bytesOf "Block", bytesOf "250", bytesOf "GROUP", bytesOf "block", bytesOf "STREAMS",
        bytesOf "noack", bytesOf "COUNT", bytesOf "10", bytesOf "streams", bytesOf "q",
        bytesOf ">"].map some) 0 =
      .ok ⟨bytesOf "block", bytesOf "STREAMS", bytesOf "q", 250⟩ := by
  have hnumeral : ∀ w : Bytes, w ≠ [] → (∀ b ∈ w, Decimal.IsDigit b) →
      Text.Numeral w (Decimal.value w) := fun _ ↦ Text.Numeral.plain
  have hchunks : List.Forall₂ (GroupPart.Spells Session.openServer.upper)
      [.block 250, .group (bytesOf "block") (bytesOf "STREAMS"), .noack, .count 10]
      [[some (bytesOf "Block"), some (bytesOf "250")],
        [some (bytesOf "GROUP"), some (bytesOf "block"), some (bytesOf "STREAMS")],
        [some (bytesOf "noack")], [some (bytesOf "COUNT"), some (bytesOf "10")]] :=
    .cons (.block (by decide) (hnumeral (bytesOf "250") (by decide) (by decide +kernel))
        (by decide)) <|
      .cons (.group _ _ (by decide)) <| .cons (.noack (by decide)) <|
      .cons (.count (by decide) (hnumeral (bytesOf "10") (by decide) (by decide +kernel))) .nil
  have hparts : [.block 250, .group (bytesOf "block") (bytesOf "STREAMS"), .noack, .count 10].Perm
      (groupParts (some (bytesOf "block", bytesOf "STREAMS")) (some 10) (some 250) true) := by
    decide
  exact parseGroupRead_eq [some (bytesOf ">")] hparts hchunks (by decide)

end Server

end VortexMQ
