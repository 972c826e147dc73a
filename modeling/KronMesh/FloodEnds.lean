import KronMesh.Spreading
import KronMesh.StandInTree
import Mathlib.Algebra.BigOperators.Ring.Finset
import Mathlib.Algebra.Order.BigOperators.Group.Finset

/-!
# The flood ends

Every node tells each of its sessions of a message at most once, and an id that is told causes at
most four turns: it is written, read, the body is asked for and handed out. So a run takes no more
turns than that for every session and message, besides those for what is announced, and it can
always be brought to an end.
-/

namespace KronMesh.Gossip

open Wire Handshake Routing

/-- The turns that a frame takes up to the end. -/
def frameCost (f : Frame) : ℕ := if f.kind = kindInv then 3 else if f.kind = kindWant then 2 else 1

def Stage.cost : Stage → ℕ
  | .inv => 3
  | .want => 2
  | .payload => 1

theorem frameCost_frameFor (P : Primitives) (m : MeshMessage) (st : Stage) :
    frameCost (frameFor P m st) = st.cost := by
  cases st <;> rfl

def framesCost (fs : List Frame) : ℕ := (fs.map frameCost).sum

theorem framesCost_append (fs fs' : List Frame) :
    framesCost (fs ++ fs') = framesCost fs + framesCost fs' := by
  rw [framesCost, List.map_append, List.sum_append]
  rfl

/-- A turn of a network at work. -/
def Action.Moves : Action → Bool
  | .flood _ => true
  | .write _ => true
  | .read _ => true
  | _ => false

def Action.Announces : Action → Bool
  | .announce _ _ => true
  | _ => false

namespace Net

variable {P : Primitives} {msgs : Finset MeshMessage} {s s' : Net} {m : MeshMessage} {c : ConnEnd}
  {u : Address}

/-- How many of the messages a node has still to take. -/
def missing (P : Primitives) (msgs : Finset MeshMessage) (s : Net) (u : Address) : ℕ :=
  (msgs.filter fun m => ¬ s.Holds P u m).card

/-- The turns that are due at an end: for what it has been told, what it will tell, and the frames.
-/
def load (P : Primitives) (msgs : Finset MeshMessage) (s : Net) (c : ConnEnd) : ℕ :=
  match s.session c with
  | some t => 4 * (t.rx.length + missing P msgs s t.owner) + framesCost (s.inbox c)
  | none => 0

/-- The turns that are due. -/
def due (P : Primitives) (msgs : Finset MeshMessage) (all : Finset ConnEnd)
    (s : Net) : ℕ :=
  33 * s.announced.length + ∑ c ∈ all, load P msgs s c

theorem missing_le (h : ∀ m ∈ msgs, s.Holds P u m → s'.Holds P u m) :
    missing P msgs s' u ≤ missing P msgs s u := by
  refine Finset.card_le_card fun m hm => ?_
  obtain ⟨hm, hnot⟩ := Finset.mem_filter.1 hm
  exact Finset.mem_filter.2 ⟨hm, fun hheld => hnot (h m hm hheld)⟩

/-- A message that is taken is one less to take. -/
theorem missing_lt (h : ∀ m ∈ msgs, s.Holds P u m → s'.Holds P u m) (hm : m ∈ msgs)
    (hnew : ¬ s.Holds P u m) (hheld : s'.Holds P u m) :
    missing P msgs s' u + 1 ≤ missing P msgs s u := by
  refine Finset.card_lt_card (Finset.ssubset_iff_subset_ne.2 ⟨fun m hm => ?_, fun heq => ?_⟩)
  · obtain ⟨hm, hnot⟩ := Finset.mem_filter.1 hm
    exact Finset.mem_filter.2 ⟨hm, fun hheld => hnot (h m hm hheld)⟩
  · have hmem : m ∈ msgs.filter fun m => ¬ s.Holds P u m := Finset.mem_filter.2 ⟨hm, hnew⟩
    rw [← heq] at hmem
    exact (Finset.mem_filter.1 hmem).2 hheld

theorem load_of_session {t : Session} (h : s.session c = some t) : load P msgs s c
    = 4 * (t.rx.length + missing P msgs s t.owner) + framesCost (s.inbox c) := by
  unfold load
  rw [h]

theorem load_of_none (h : s.session c = none) : load P msgs s c = 0 := by
  unfold load
  rw [h]

theorem load_tellAll_le (P : Primitives) (msgs : Finset MeshMessage) (s : Net) (c : ConnEnd)
    (told : List (ConnEnd × SessionCmd)) :
    load P msgs (s.tellAll told) c ≤ load P msgs s c + 4 * (toldTo c told).length := by
  rcases h : s.session c with _ | t
  · rw [load_of_none (by rw [session_tellAll, h]; rfl)]
    exact Nat.zero_le _
  · have hmissing : missing P msgs (s.tellAll told) t.owner = missing P msgs s t.owner := by
      refine congrArg Finset.card (Finset.filter_congr fun m _ => not_congr ?_)
      rw [Holds, node_tellAll]
      exact Iff.rfl
    rw [load_of_session h, load_of_session (t := { t with rx := t.rx ++ toldTo c told })
      (by rw [session_tellAll, h]; rfl), inbox_tellAll, hmissing, List.length_append]
    omega

theorem load_send_le (P : Primitives) (msgs : Finset MeshMessage) (s : Net) (c d : ConnEnd)
    (fs : List Frame) :
    load P msgs (s.send d fs) c ≤ load P msgs s c + if c = d then framesCost fs else 0 := by
  rcases h : s.session c with _ | t
  · rw [load_of_none (s := s.send d fs) h]
    exact Nat.zero_le _
  · rw [load_of_session h, load_of_session (s := s.send d fs) h, inbox_send, framesCost_append]
    have hmissing : missing P msgs (s.send d fs) t.owner = missing P msgs s t.owner := rfl
    have hnil : framesCost [] = 0 := rfl
    rw [hmissing]
    split_ifs
    · omega
    · omega

/-- A node that files a message has no more to take than before. -/
theorem load_setNode_le (hr : Readable P msgs) (h : ∀ u, (s.node u).gossip.Within P msgs)
    (hm : m ∈ msgs) {n : P2pNode}
    (hn : n.gossip = (s.node u).gossip.insert (messageId P m) (encodeMesh m)) :
    load P msgs (s.setNode u n) c ≤ load P msgs s c := by
  rcases hc : s.session c with _ | t
  · rw [load_of_none hc, load_of_none (s := s.setNode u n) hc]
  · rw [load_of_session hc, load_of_session (s := s.setNode u n) hc, inbox_setNode]
    have hle : missing P msgs (s.setNode u n) t.owner ≤ missing P msgs s t.owner :=
      missing_le fun m' hm' hheld => (holds_setNode hr h hm hn hm').2 (.inl hheld)
    omega

/-- A node that has taken a message has one less to tell at each of its ends. -/
theorem load_setNode_lt (hr : Readable P msgs) (h : ∀ u, (s.node u).gossip.Within P msgs)
    (hm : m ∈ msgs) (hnew : ¬ s.Holds P u m) {n : P2pNode}
    (hn : n.gossip = (s.node u).gossip.insert (messageId P m) (encodeMesh m)) {v : Address}
    (hc : s.ends c = some (u, v)) : load P msgs (s.setNode u n) c + 4 ≤ load P msgs s c := by
  obtain ⟨t, ht, hte⟩ := Option.map_eq_some_iff.1 hc
  obtain ⟨rfl, -⟩ := Prod.mk.inj hte
  rw [load_of_session ht, load_of_session (s := s.setNode t.owner n) ht, inbox_setNode]
  have hlt : missing P msgs (s.setNode t.owner n) t.owner + 1 ≤ missing P msgs s t.owner :=
    missing_lt (fun m' hm' hheld => (holds_setNode hr h hm hn hm').2 (.inl hheld)) hm hnew
      ((holds_setNode hr h hm hn hm).2 (.inr ⟨rfl, rfl⟩))
  omega

/-- A frame that has been read is not due. -/
theorem load_setInbox (P : Primitives) (msgs : Finset MeshMessage) (s : Net) (c : ConnEnd)
    {d : ConnEnd} {t : Session} {head : Frame} {rest : List Frame}
    (hd : s.session d = some t) (hin : s.inbox d = head :: rest) :
    load P msgs (s.setInbox d rest) c + (if c = d then frameCost head else 0)
      = load P msgs s c := by
  have hmissing : ∀ u, missing P msgs (s.setInbox d rest) u = missing P msgs s u := fun _ => rfl
  split_ifs with hcd
  · rw [hcd, load_of_session hd, load_of_session (s := s.setInbox d rest) hd, inbox_setInbox,
      if_pos rfl, hin, hmissing, framesCost, framesCost, List.map_cons, List.sum_cons]
    omega
  · rcases h : s.session c with _ | t'
    · rw [load_of_none h, load_of_none (s := s.setInbox d rest) h]
    · rw [load_of_session h, load_of_session (s := s.setInbox d rest) h, inbox_setInbox,
        if_neg hcd, hmissing, Nat.add_zero]

theorem sum_toldTo (all : Finset ConnEnd) : ∀ told : List (ConnEnd × SessionCmd),
    ∑ c ∈ all, (toldTo c told).length ≤ told.length
  | [] => by simp [toldTo]
  | (d, cmd) :: told => by
    have hone : ∀ c, (toldTo c ((d, cmd) :: told)).length
        = (if d = c then 1 else 0) + (toldTo c told).length := by
      intro c
      simp only [toldTo, List.filter_cons, decide_eq_true_eq]
      split_ifs
      · rw [List.map_cons, List.length_cons, Nat.add_comm]
      · rw [Nat.zero_add]
    simp only [hone]
    rw [Finset.sum_add_distrib, Finset.sum_ite_eq, List.length_cons, Nat.add_comm]
    refine Nat.add_le_add (sum_toldTo all told) ?_
    split_ifs
    · exact le_rfl
    · exact Nat.zero_le _

/-- What becomes of the turns that are due, end by end. -/
theorem sum_load_le (all : Finset ConnEnd) (f g : ConnEnd → ℕ)
    (h : ∀ c ∈ all, load P msgs s' c + f c ≤ load P msgs s c + g c) :
    ∑ c ∈ all, load P msgs s' c + ∑ c ∈ all, f c
      ≤ ∑ c ∈ all, load P msgs s c + ∑ c ∈ all, g c := by
  rw [← Finset.sum_add_distrib, ← Finset.sum_add_distrib]
  exact Finset.sum_le_sum h

theorem length_gossipTargets (t : RoutingTable) (role : PeerRole) :
    (t.gossipTargets role).length ≤ 8 := by
  cases role with
  | edgeMiner =>
    have h3 := List.length_take_le 3 ((contacts t.core).filter fun p => p.state = .live)
    have h2 := List.length_take_le 2 ((contacts t.edge).filter fun p => p.state = .live)
    rw [RoutingTable.gossipTargets, List.length_append]
    omega
  | coreValidator => exact List.length_take_le 8 _

theorem length_broadcastTo (n : P2pNode) : n.broadcastTo.length ≤ 8 :=
  (List.length_filterMap_le _ _).trans (length_gossipTargets _ _)

/-- A node tells each of its ends once. -/
theorem Linked.nodup_fanout (hl : s.Linked) (peer : Address) : ((s.node u).fanout peer).Nodup := by
  have hentries : (s.node u).sessions.entries.Nodup := by
    refine List.Nodup.of_map Sigma.fst ?_
    exact (s.node u).sessions.nodupKeys
  refine (hentries.filter _).map_on ?_
  rintro ⟨v, c⟩ hv ⟨w, d⟩ hw hcd
  have hcd : c = d := hcd
  subst hcd
  have hvc := hl.current u v c (AList.mem_lookup_iff.2 (List.mem_filter.1 hv).1)
  have hwc := hl.current u w c (AList.mem_lookup_iff.2 (List.mem_filter.1 hw).1)
  rw [hvc, Option.some.injEq, Prod.mk.injEq] at hwc
  rw [hwc.2]

theorem length_toldTo_of_nodup {cs : List ConnEnd} (h : cs.Nodup) (cmd : SessionCmd) :
    (toldTo c (cs.map fun d => (d, cmd))).length = if c ∈ cs then 1 else 0 := by
  have heq : toldTo c (cs.map fun d => (d, cmd)) = (cs.filter fun d => d = c).map fun _ => cmd := by
    rw [toldTo, List.filter_map, List.map_map]
    rfl
  rw [heq, List.length_map, ← List.countP_eq_length_filter]
  have hcount : cs.countP (fun d => d = c) = cs.count c := by
    rw [List.count]
    exact List.countP_congr fun d _ => by simp
  rw [hcount]
  split_ifs with hc
  · exact List.count_eq_one_of_mem h hc
  · exact List.count_eq_zero_of_not_mem hc

/-! ## One action -/

theorem framesCost_answers_lt (hs : s.Spreading P msgs) (hr : Readable P msgs) (hm : m ∈ msgs)
    (st : Stage) : framesCost ((s.node u).answers (frameFor P m st)) + 1 ≤ st.cost := by
  cases st with
  | inv =>
    rw [P2pNode.answers_inv (hs.within u) hr hm]
    split_ifs
    · exact show 0 + 1 ≤ 3 by decide
    · exact le_rfl
  | want =>
    rw [P2pNode.answers_want (hs.within u) hr hm]
    split_ifs
    · exact le_rfl
    · exact show 0 + 1 ≤ 2 by decide
  | payload => exact le_rfl

/-- Every turn is one that was due, and an announcement makes at most so many due. -/
theorem due_step {all : Finset ConnEnd} (hs : s.Spreading P msgs) (hl : s.Linked)
    (hr : Readable P msgs) (hall : ∀ c t, s.session c = some t → c ∈ all) {a : Action}
    (ha : a.Traffic msgs) (hstep : s.step P a = some s') :
    due P msgs all s' + (if a.Moves then 1 else 0)
      ≤ due P msgs all s + if a.Announces then 33 else 0 := by
  unfold due
  cases a with
  | announce w m' =>
    cases hstep
    have hsum := sum_load_le all (fun _ => 0) (fun _ => 0) fun c _ =>
      load_setNode_le (c := c) hr hs.within ha (n := { s.node w with
        gossip := ((s.node w).gossip.announce P m').1 }) rfl
    rw [Finset.sum_const_zero] at hsum
    have hlen : (s.announced ++ [(w, ((s.node w).gossip.announce P m').2)]).length
        = s.announced.length + 1 := by rw [List.length_append, List.length_singleton]
    have hgoal : 33 * (s.announced ++ [(w, ((s.node w).gossip.announce P m').2)]).length
        + ∑ c ∈ all, load P msgs (s.setNode w { s.node w with
          gossip := ((s.node w).gossip.announce P m').1 }) c + 0
        ≤ 33 * s.announced.length + ∑ c ∈ all, load P msgs s c + 33 := by omega
    exact hgoal
  | flood i =>
    obtain ⟨w, inv, hi, rfl⟩ := step_flood hstep
    have hload : ∀ c ∈ all, load P msgs (tellAll { s with announced := s.announced.eraseIdx i }
        ((s.node w).broadcastTo.map fun c => (c, .inv inv))) c + 0
          ≤ load P msgs s c
            + 4 * (toldTo c ((s.node w).broadcastTo.map fun c => (c, .inv inv))).length :=
      fun c _ => load_tellAll_le _ _ _ _ _
    have hsum := sum_load_le _ _ _ hload
    have htold := sum_toldTo all ((s.node w).broadcastTo.map fun c => (c, .inv inv))
    rw [List.length_map] at htold
    have height := length_broadcastTo (s.node w)
    have hlen := List.length_eraseIdx_add_one (List.getElem?_eq_some_iff.1 hi).1
    simp only [Finset.sum_const_zero, ← Finset.mul_sum] at hsum
    rw [announced_tellAll]
    have hgoal : 33 * (s.announced.eraseIdx i).length + ∑ c ∈ all, load P msgs (tellAll
        { s with announced := s.announced.eraseIdx i }
        ((s.node w).broadcastTo.map fun c => (c, .inv inv))) c + 1
        ≤ 33 * s.announced.length + ∑ c ∈ all, load P msgs s c + 0 := by omega
    exact hgoal
  | write d =>
    obtain ⟨t, cmd, rx, hd, hrx, rfl⟩ := step_write hstep
    have htold := hs.told d t hd
    rw [hrx] at htold
    obtain ⟨m, hm, rfl, hheld⟩ := htold cmd List.mem_cons_self
    have hcost : framesCost (SessionCmd.frames (.inv ⟨[messageId P m]⟩)) ≤ 3 := by
      have hlen : ¬ maxFrame < (GossipInventory.encode ⟨[messageId P m]⟩).length :=
        Nat.not_lt.2 (P2pNode.length_encode_ids _)
      rw [SessionCmd.frames, writeFrame, if_neg hlen]
      exact le_rfl
    have hpop : ∀ c, load P msgs (s.setSession d (some { t with rx := rx })) c
        + (if c = d then 4 else 0) = load P msgs s c := by
      intro c
      split_ifs with hcd
      · subst hcd
        have hnew : (s.setSession c (some { t with rx := rx })).session c
            = some { t with rx := rx } := by rw [session_setSession, if_pos rfl]
        rw [load_of_session hd, load_of_session hnew, hrx, List.length_cons, inbox_setSession]
        change 4 * (rx.length + missing P msgs s t.owner) + _ + 4 = _
        omega
      · have hsame : (s.setSession d (some { t with rx := rx })).session c = s.session c := by
          rw [session_setSession, if_neg hcd]
        unfold load
        rw [hsame]
        rfl
    have hload : ∀ c ∈ all, load P msgs ((s.setSession d (some { t with rx := rx })).send d.other
        (SessionCmd.frames (.inv ⟨[messageId P m]⟩))) c + (if c = d then 4 else 0)
          ≤ load P msgs s c + if c = d.other then 3 else 0 := by
      intro c _
      have hsend := load_send_le P msgs (s.setSession d
        (some { t with rx := rx })) c d.other
        (SessionCmd.frames (.inv ⟨[messageId P m]⟩))
      have heq := hpop c
      split_ifs at hsend heq ⊢ <;> omega
    have hsum := sum_load_le _ _ _ hload
    rw [Finset.sum_ite_eq', Finset.sum_ite_eq', if_pos (hall d t hd)] at hsum
    rw [announced_send, announced_setSession]
    change _ + _ + 1 ≤ _ + _ + 0
    split_ifs at hsum <;> omega
  | read d =>
    obtain ⟨t, rest, stage, m, hd, hm, hin, -, hcases⟩ := hs.read_cases hr hstep
    rcases hcases with ⟨rfl, -⟩ | ⟨rfl, hnew, rfl⟩
    · have hcost := framesCost_answers_lt (u := t.owner) hs hr hm stage
      have hload : ∀ c ∈ all, load P msgs ((s.setInbox d rest).send d.other
          ((s.node t.owner).answers (frameFor P m stage))) c + (if c = d then stage.cost else 0)
            ≤ load P msgs s c + if c = d.other then stage.cost - 1 else 0 := by
        intro c _
        have hsend := load_send_le P msgs (s.setInbox d rest) c d.other
          ((s.node t.owner).answers (frameFor P m stage))
        have hread := load_setInbox P msgs s c hd hin
        rw [frameCost_frameFor] at hread
        split_ifs at hsend hread ⊢ <;> omega
      have hsum := sum_load_le _ _ _ hload
      rw [Finset.sum_ite_eq', Finset.sum_ite_eq', if_pos (hall d t hd)] at hsum
      rw [announced_send, announced_setInbox]
      change _ + _ + 1 ≤ _ + _ + 0
      split_ifs at hsum <;> omega
    · have hload : ∀ c ∈ all, load P msgs (((s.setNode t.owner ((s.node t.owner).deliver t.peer
          ⟨messageId P m, encodeMesh m⟩ m)).setInbox d rest).tellAll
          (((s.node t.owner).fanout t.peer).map fun c => (c, .inv ⟨[messageId P m]⟩))) c
            + (if c = d then 1 else 0) ≤ load P msgs s c + 0 := by
        intro c _
        have htell := load_tellAll_le P msgs ((s.setNode t.owner
          ((s.node t.owner).deliver t.peer ⟨messageId P m, encodeMesh m⟩ m)).setInbox d rest) c
          (((s.node t.owner).fanout t.peer).map fun c => (c, .inv ⟨[messageId P m]⟩))
        have hread := load_setInbox P msgs (s.setNode t.owner
          ((s.node t.owner).deliver t.peer ⟨messageId P m, encodeMesh m⟩ m)) c hd hin
        rw [frameCost_frameFor] at hread
        rw [length_toldTo_of_nodup (hl.nodup_fanout t.peer)] at htell
        by_cases hfan : c ∈ (s.node t.owner).fanout t.peer
        · obtain ⟨v, hends⟩ := hl.ends_of_fanout hfan
          have hlt := load_setNode_lt (n := (s.node t.owner).deliver t.peer
            ⟨messageId P m, encodeMesh m⟩ m) hr hs.within hm hnew rfl hends
          rw [if_pos hfan] at htell
          change _ + (if c = d then 1 else 0) = _ at hread
          omega
        · have hle := load_setNode_le (c := c) (n := (s.node t.owner).deliver t.peer
            ⟨messageId P m, encodeMesh m⟩ m) hr hs.within hm rfl
          rw [if_neg hfan] at htell
          change _ + (if c = d then 1 else 0) = _ at hread
          omega
      have hsum := sum_load_le _ _ _ hload
      rw [Finset.sum_ite_eq', if_pos (hall d t hd), Finset.sum_const_zero] at hsum
      rw [announced_tellAll, announced_setInbox, announced_setNode]
      change _ + _ + 1 ≤ _ + _ + 0
      omega
  | spawn d owner peer => exact ha.elim
  | close d => exact ha.elim
  | take w =>
    cases hstep
    have hload : ∀ c ∈ all, load P msgs (s.setNode w (s.node w).takeDeliveredFrom.1) c + 0
        ≤ load P msgs s c + 0 := by
      intro c _
      rcases hc : s.session c with _ | t
      · rw [load_of_none hc, load_of_none (s := s.setNode w _) hc]
      · rw [load_of_session hc, load_of_session (s := s.setNode w _) hc, inbox_setNode]
        have hle : missing P msgs (s.setNode w (s.node w).takeDeliveredFrom.1) t.owner
            ≤ missing P msgs s t.owner := by
          refine missing_le fun m' _ hheld => ?_
          rw [Holds, node_setNode]
          split_ifs with hw
          · exact hw ▸ hheld
          · exact hheld
        omega
    have hsum := sum_load_le _ _ _ hload
    simp only [Finset.sum_const_zero] at hsum
    rw [announced_setNode]
    change _ + _ + 0 ≤ _ + _ + 0
    omega

/-! ## A run -/

/-- Behind a run, what was done and what is due is at most what was due and was announced. -/
theorem due_run {all : Finset ConnEnd} (hr : Readable P msgs) : ∀ {acts : List Action} {s s' : Net},
    s.Spreading P msgs → s.Linked → (∀ c t, s.session c = some t → c ∈ all) →
      (∀ a ∈ acts, a.Traffic msgs) → s.run P acts = some s' →
        due P msgs all s' + acts.countP Action.Moves
          ≤ due P msgs all s + 33 * acts.countP Action.Announces
  | [], s, s', _, _, _, _, hrun => by
    cases hrun
    exact le_rfl
  | a :: acts, s, s', hs, hl, hall, hacts, hrun => by
    obtain ⟨s₁, hfirst, hrest⟩ := run_cons hrun
    have ha := hacts a List.mem_cons_self
    obtain ⟨hs₁, halike⟩ := hs.step hl hr ha hfirst
    have hstep := due_step hs hl hr hall ha hfirst
    have hrun' := due_run hr hs₁ (halike.linked hl) (halike.threads hall)
      (fun b hb => hacts b (List.mem_cons_of_mem _ hb)) hrest
    rw [List.countP_cons, List.countP_cons]
    split_ifs at hstep ⊢ <;> omega

/-- Where something is under way, some thread can take a turn. -/
theorem Spreading.exists_move (hs : s.Spreading P msgs) (h : ¬ s.Quiet) :
    ∃ a : Action, a.Moves = true ∧ a.Traffic msgs ∧ (s.step P a).isSome = true := by
  by_contra hno
  have hnone : ∀ a : Action, a.Moves = true → a.Traffic msgs → ¬ (s.step P a).isSome = true :=
    fun a hmoves ha hsome => hno ⟨a, hmoves, ha, hsome⟩
  refine h ⟨?_, fun c => ?_, fun c t hc => ?_⟩
  · rcases hann : s.announced with _ | ⟨⟨u, inv⟩, rest⟩
    · rfl
    · refine absurd ?_ (hnone (.flood 0) rfl trivial)
      simp only [Net.step, hann, List.getElem?_cons_zero, Option.isSome_some]
  · rcases hin : s.inbox c with _ | ⟨f, rest⟩
    · rfl
    · obtain ⟨u, v, hends, -⟩ := hs.carried c f (hin ▸ List.mem_cons_self)
      obtain ⟨t, ht, -⟩ := Option.map_eq_some_iff.1 hends
      refine absurd ?_ (hnone (.read c) rfl trivial)
      simp only [Net.step, ht, hin, Option.isSome_some]
  · rcases hrx : t.rx with _ | ⟨cmd, rx⟩
    · rfl
    · refine absurd ?_ (hnone (.write c) rfl trivial)
      obtain ⟨owner, peer, _⟩ := t
      cases hrx
      simp only [Net.step, hc, Option.isSome_some]

/-- A turn that can be taken leaves less to be done. -/
theorem Spreading.exists_lower {all : Finset ConnEnd} (hr : Readable P msgs)
    (hs : s.Spreading P msgs) (hl : s.Linked) (hall : ∀ c t, s.session c = some t → c ∈ all)
    (h : ¬ s.Quiet) : ∃ s₁, (∃ a : Action, a.Moves = true ∧ a.Traffic msgs ∧ s.step P a = some s₁)
      ∧ due P msgs all s₁ < due P msgs all s ∧ s₁.Spreading P msgs ∧ Alike s s₁ := by
  obtain ⟨a, hmoves, ha, hsome⟩ := hs.exists_move h
  obtain ⟨s₁, hfirst⟩ := Option.isSome_iff_exists.1 hsome
  have hstep := due_step hs hl hr hall ha hfirst
  have hnot : a.Announces = false := by cases a <;> first | rfl | cases hmoves
  rw [if_pos hmoves, hnot, if_neg Bool.false_ne_true] at hstep
  exact ⟨s₁, ⟨a, hmoves, ha, hfirst⟩, hstep, hs.step hl hr ha hfirst⟩

/-- From wherever a run has come to, the threads can bring it to rest. -/
theorem Spreading.exists_quiet {all : Finset ConnEnd} (hr : Readable P msgs) (n : ℕ)
    (hn : due P msgs all s ≤ n) (hs : s.Spreading P msgs) (hl : s.Linked)
    (hall : ∀ c t, s.session c = some t → c ∈ all) :
    ∃ acts s', (∀ a ∈ acts, Action.Moves a = true ∧ a.Traffic msgs) ∧ s.run P acts = some s'
      ∧ s'.Quiet := by
  induction n generalizing s with
  | zero =>
    by_cases hq : s.Quiet
    · exact ⟨[], s, fun a ha => absurd ha List.not_mem_nil, rfl, hq⟩
    · obtain ⟨s₁, -, hlt, -⟩ := hs.exists_lower hr hl hall hq
      omega
  | succ n ih =>
    by_cases hq : s.Quiet
    · exact ⟨[], s, fun a ha => absurd ha List.not_mem_nil, rfl, hq⟩
    obtain ⟨s₁, ⟨a, hmoves, ha, hfirst⟩, hlt, hs₁, halike⟩ := hs.exists_lower hr hl hall hq
    obtain ⟨acts, s', hacts, hrun, hquiet⟩ := ih (by omega) hs₁ (halike.linked hl)
      (halike.threads hall)
    refine ⟨a :: acts, s', fun b hb => ?_, ?_, hquiet⟩
    · rcases List.mem_cons.1 hb with rfl | hb
      · exact ⟨hmoves, ha⟩
      · exact hacts b hb
    · rw [Net.run, hfirst]
      exact hrun

/-- What is due at rest. -/
theorem Settled.due_le (h : s.Settled P msgs) (all : Finset ConnEnd) :
    due P msgs all s ≤ 4 * msgs.card * all.card := by
  have hone : ∀ c ∈ all, load P msgs s c ≤ 4 * msgs.card := by
    intro c _
    rcases hc : s.session c with _ | t
    · rw [load_of_none hc]
      exact Nat.zero_le _
    · have hle : missing P msgs s t.owner ≤ msgs.card := Finset.card_filter_le _ _
      rw [load_of_session hc, h.quiet.inbox, h.quiet.rx c t hc, List.length_nil]
      have hnil : framesCost [] = 0 := rfl
      omega
  have hsum : ∑ c ∈ all, load P msgs s c ≤ 4 * msgs.card * all.card := by
    refine (Finset.sum_le_card_nsmul all _ _ hone).trans_eq ?_
    rw [nsmul_eq_mul, Nat.cast_id, Nat.mul_comm]
  rw [due, h.quiet.announced, List.length_nil]
  omega

/-- In a settled network a run takes at most 33 turns for each announcement and four for every
message at every end of a connection, whichever threads take them; and from wherever it has come to,
the threads can bring it to rest. -/
theorem flood_ends (hr : Readable P msgs) {s₀ : Net} (h : s₀.Settled P msgs)
    {all : Finset ConnEnd} (hall : ∀ c t, s₀.session c = some t → c ∈ all) (acts : List Action)
    (hacts : ∀ a ∈ acts, a.Traffic msgs) (hrun : s₀.run P acts = some s) :
    acts.countP Action.Moves ≤ 33 * acts.countP Action.Announces + 4 * msgs.card * all.card
      ∧ ∃ more s', (∀ a ∈ more, Action.Moves a = true ∧ a.Traffic msgs)
        ∧ s.run P more = some s' ∧ s'.Quiet := by
  obtain ⟨hs, halike⟩ := h.spreading.run hr h.linked hacts hrun
  have hdue := due_run hr h.spreading h.linked hall hacts hrun
  have hstart := h.due_le all
  refine ⟨by omega, ?_⟩
  exact Spreading.exists_quiet hr _ le_rfl hs (halike.linked h.linked) (halike.threads hall)

end Net

namespace StandIn

open Net KronMesh.StandIn

/-- One is joined to two, and two to three. -/
def lineEnds : List (ConnEnd × Address × Address) :=
  [(⟨0, true⟩, 1, 2), (⟨0, false⟩, 2, 1), (⟨1, true⟩, 2, 3), (⟨1, false⟩, 3, 2)]

def lineSessions (u : Address) : AList fun _ : Address => ConnEnd :=
  ((lineEnds.filter fun e => e.2.1 = u).map fun e => (⟨e.2.2, e.1⟩ : Sigma _)).toAList

def linePeer (id : Address) : Peer where
  id := id
  overlayId := fromAddress id
  publicKey := ⟨[]⟩
  addr := .v4 ⟨10, 0, 0, 1⟩ 8000
  role := .coreValidator
  deviceClass := .personalComputer
  reputation := 0
  state := .live

/-- Every node of the line knows the second. -/
def line : Net where
  node u := { P2pNode.bind u .coreValidator with
    table :=
      { RoutingTable.new u .coreValidator with
        core := fun i => if i.val = 0 then [linePeer 2] else [] }
    sessions := lineSessions u }
  session c := (lineEnds.find? fun e => e.1 = c).map fun e => ⟨e.2.1, e.2.2, []⟩
  inbox _ := []
  announced := []

def lineMessage : MeshMessage := .vertex (node fan 1)

theorem readable_line : Readable wide {lineMessage} := by
  have hl : (tree fan 3).vertices.lookup (nodeId 1) = some (node fan 1) :=
    (lookup_tree fan_lt (by decide) _ _).2 ⟨1, by decide, rfl, rfl⟩
  obtain ⟨hsig, hrel⟩ := (grown_tree fan 3).verified hl
  have hread := readable_vertices wide {node fan 1}
    (fun tx htx => Finset.mem_singleton.1 htx ▸ ⟨hsig, hrel, bytes_tree fan_lt (by decide) hl⟩)
    fun tx htx tx' htx' _ => (Finset.mem_singleton.1 htx).trans (Finset.mem_singleton.1 htx').symm
  rwa [Finset.image_singleton] at hread

theorem ends_line : ∀ e ∈ lineEnds,
    line.ends e.1 = some e.2 ∧ line.ends e.1.other = some (e.2.2, e.2.1) := by decide

theorem linked_line : line.Linked := by
  refine ⟨fun u v c hc => ?_, fun c u v hc => ?_⟩
  · change AList.lookup v (List.toAList _) = _ at hc
    rw [AList.lookup_to_alist] at hc
    obtain ⟨e, he, heq⟩ := List.mem_map.1 (List.of_mem_dlookup hc)
    obtain ⟨he, hu⟩ := List.mem_filter.1 he
    cases heq
    rw [(ends_line e he).1, ← of_decide_eq_true hu]
  · obtain ⟨t, ht, hends⟩ := Option.map_eq_some_iff.1 hc
    obtain ⟨e, he, rfl⟩ := Option.map_eq_some_iff.1 ht
    cases hends
    have hec := List.find?_some he
    rw [← of_decide_eq_true hec]
    exact (ends_line e (List.mem_of_find?_eq_some he)).2

theorem settled_line : line.Settled wide {lineMessage} where
  linked := linked_line
  quiet := ⟨rfl, fun _ => rfl, fun c t hc => by
    obtain ⟨e, -, rfl⟩ := Option.map_eq_some_iff.1 hc
    rfl⟩
  within u := ⟨GossipEngine.sound_forRole wide .coreValidator, show 1 ≤ 4096 by decide,
    show 0 < 64 by decide, nofun⟩
  nodup _ := .nil
  delivered _ _ h := absurd h List.not_mem_nil

theorem threads_line (c : ConnEnd) (t : Session) (h : line.session c = some t) :
    c ∈ (lineEnds.map Prod.fst).toFinset := by
  obtain ⟨e, he, -⟩ := Option.map_eq_some_iff.1 h
  have hec := List.find?_some he
  rw [List.mem_toFinset, ← of_decide_eq_true hec]
  exact List.mem_map.2 ⟨e, List.mem_of_find?_eq_some he, rfl⟩

/-- The first node of the line announces, and the line can come to rest. -/
theorem flood_ends_line : ∃ s, line.run wide [.announce 1 lineMessage] = some s
    ∧ ∃ more s', (∀ a ∈ more, Action.Moves a = true ∧ a.Traffic {lineMessage})
      ∧ s.run wide more = some s' ∧ s'.Quiet := by
  refine ⟨_, rfl, (flood_ends readable_line settled_line threads_line [.announce 1 lineMessage]
    (fun a ha => ?_) rfl).2⟩
  rw [List.mem_singleton.1 ha]
  exact Finset.mem_singleton_self _

end StandIn

end KronMesh.Gossip
