import KronMesh.FloodEnds

/-!
# A message reaches everyone

A node that has taken a message tells all its sessions, and each peer asks for it unless it has it
(`Net.Flows`). When nothing is under way any more, everybody whom a chain of sessions joins to the
announcer has it, and nobody was given it twice (`flood_delivers`).
-/

namespace KronMesh.Gossip

open Wire Handshake Routing

variable {P : Primitives} {msgs : Finset MeshMessage} {m m' : MeshMessage}

namespace Net

variable {s s' : Net} {c : ConnEnd} {u v : Address}

/-! ### A message on its way to a peer -/

/-- The peer at the other end of a session holds the message, or the message is on its way to it: in
the channel, offered, wanted or handed out. -/
def Flows (P : Primitives) (m : MeshMessage) (s : Net) (c : ConnEnd) : Prop :=
  ∃ t, s.session c = some t ∧ (s.Holds P t.peer m ∨ .inv ⟨[messageId P m]⟩ ∈ t.rx
    ∨ frameFor P m .inv ∈ s.inbox c.other ∨ frameFor P m .want ∈ s.inbox c
    ∨ frameFor P m .payload ∈ s.inbox c.other)

theorem Flows.holds (h : Flows P m s c) (hq : s.Quiet) (hc : s.ends c = some (u, v)) :
    s.Holds P v m := by
  obtain ⟨t, ht, hflow⟩ := h
  rw [ends_of_session ht, Option.some.injEq, Prod.mk.injEq] at hc
  rw [hq.inbox, hq.inbox, hq.rx c t ht] at hflow
  simp only [List.not_mem_nil, or_false] at hflow
  exact hc.2 ▸ hflow

theorem Flows.tellAll (h : Flows P m s c) (told : List (ConnEnd × SessionCmd)) :
    Flows P m (s.tellAll told) c := by
  obtain ⟨t, ht, hflow⟩ := h
  refine ⟨{ t with rx := t.rx ++ toldTo c told }, by rw [session_tellAll, ht]; rfl, ?_⟩
  rw [Holds, node_tellAll, inbox_tellAll]
  exact hflow.imp_right (Or.imp_left fun hrx => List.mem_append_left _ hrx)

/-- Who is told of a message is on the way to hold it. -/
theorem flows_of_told {told : List (ConnEnd × SessionCmd)} (hc : s.ends c = some (u, v))
    (hmem : (c, .inv ⟨[messageId P m]⟩) ∈ told) : Flows P m (s.tellAll told) c := by
  obtain ⟨t, ht, -⟩ := Option.map_eq_some_iff.1 hc
  refine ⟨{ t with rx := t.rx ++ toldTo c told }, by rw [session_tellAll, ht]; rfl, .inr (.inl ?_)⟩
  refine List.mem_append_right _ (List.mem_map.2 ⟨_, List.mem_filter.2 ⟨hmem, ?_⟩, rfl⟩)
  exact decide_eq_true rfl

theorem Flows.mono (h : Flows P m s c) (hsession : s'.session c = s.session c)
    (hinbox : ∀ d, ∀ f ∈ s.inbox d, f ∈ s'.inbox d)
    (hheld : ∀ v, s.Holds P v m → s'.Holds P v m) : Flows P m s' c := by
  obtain ⟨t, ht, hflow⟩ := h
  refine ⟨t, hsession.trans ht, ?_⟩
  exact Or.imp (hheld _) (Or.imp_right (Or.imp (hinbox _ _) (Or.imp (hinbox _ _) (hinbox _ _))))
    hflow

/-- Only one frame leaves an inbox. -/
theorem mem_inbox_read {d : ConnEnd} {head f : Frame} {rest : List Frame}
    (hin : s.inbox d = head :: rest)
    {e : ConnEnd} (hf : f ∈ s.inbox e) : f ∈ (s.setInbox d rest).inbox e ∨ e = d ∧ f = head := by
  rw [inbox_setInbox]
  split_ifs with he
  · rw [he, hin, List.mem_cons] at hf
    exact hf.symm.imp_right fun h => ⟨he, h⟩
  · exact .inl hf

/-- What flows goes on or arrives, as long as the sender holds it. -/
theorem Flows.step (h : Flows P m s c) (hs : s.Spreading P msgs) (hl : s.Linked)
    (hr : Readable P msgs) (hm : m ∈ msgs) (hc : s.ends c = some (u, v)) (hheld : s.Holds P u m)
    {a : Action} (ha : a.Traffic msgs) (hstep : s.step P a = some s') : Flows P m s' c := by
  cases a with
  | announce w m' =>
    cases hstep
    exact h.mono rfl (fun _ _ hf => hf) fun v hv =>
      (holds_setNode hr hs.within ha rfl hm).2 (.inl hv)
  | flood i =>
    obtain ⟨w, inv, -, rfl⟩ := step_flood hstep
    have hpopped : Flows P m { s with announced := s.announced.eraseIdx i } c :=
      h.mono rfl (fun _ _ hf => hf) fun _ hv => hv
    exact hpopped.tellAll _
  | write d =>
    obtain ⟨t', cmd, rx, hd, hrx, rfl⟩ := step_write hstep
    obtain ⟨t, ht, hflow⟩ := h
    have hinbox : ∀ e, ∀ f ∈ s.inbox e,
        f ∈ ((s.setSession d (some { t' with rx := rx })).send d.other cmd.frames).inbox e := by
      intro e f hf
      rw [inbox_send]
      exact List.mem_append_left _ hf
    by_cases hdc : c = d
    · subst hdc
      rw [hd, Option.some.injEq] at ht
      subst ht
      refine ⟨{ t' with rx := rx }, ?_, ?_⟩
      · rw [session_send, session_setSession, if_pos rfl]
      · rw [hrx, List.mem_cons] at hflow
        rcases hflow with hv | (hcmd | hrest) | hframe
        · exact .inl hv
        · refine .inr (.inr (.inl ?_))
          rw [inbox_send, if_pos rfl, ← hcmd]
          refine List.mem_append_right _ (mem_writeFrame.2 ⟨rfl, ?_⟩)
          exact P2pNode.length_encode_ids _
        · exact .inr (.inl hrest)
        · exact .inr (.inr (Or.imp (hinbox _ _) (Or.imp (hinbox _ _) (hinbox _ _)) hframe))
    · refine Flows.mono ⟨t, ht, hflow⟩ ?_ hinbox fun _ hv => hv
      rw [session_send, session_setSession, if_neg hdc]
  | read d =>
    obtain ⟨t', rest, stage, m', hd, hm', hin, hpeer, hcases⟩ := hs.read_cases hr hstep
    obtain ⟨t, ht, hflow⟩ := h
    rw [ends_of_session ht, Option.some.injEq, Prod.mk.injEq] at hc
    obtain ⟨rfl, rfl⟩ := hc
    have hother := hl.joined c _ _ (ends_of_session ht)
    have hread : ∀ {e st}, frameFor P m st ∈ s.inbox e → frameFor P m st ∈
        (s.setInbox d rest).inbox e ∨ e = d ∧ st = stage ∧ m = m' := by
      intro e st hf
      exact (mem_inbox_read hin hf).imp_right (And.imp_right (frameFor_inj hr hm hm'))
    have hown : c.other = d → t'.owner = t.peer := by
      rintro rfl
      rw [ends_of_session hd, Option.some.injEq, Prod.mk.injEq] at hother
      exact hother.1
    rcases hcases with ⟨rfl, hgot⟩ | ⟨rfl, hnew, rfl⟩
    · -- the frame is answered
      have hkeep : ∀ {e f}, f ∈ (s.setInbox d rest).inbox e →
          f ∈ ((s.setInbox d rest).send d.other
            ((s.node t'.owner).answers (frameFor P m' stage))).inbox e := by
        intro e f hf
        rw [inbox_send]
        exact List.mem_append_left _ hf
      have hanswer : ∀ {e f}, d.other = e → f ∈ (s.node t'.owner).answers (frameFor P m' stage) →
          f ∈ ((s.setInbox d rest).send d.other
            ((s.node t'.owner).answers (frameFor P m' stage))).inbox e := by
        rintro _ f rfl hf
        rw [inbox_send, if_pos rfl]
        exact List.mem_append_right _ hf
      refine ⟨t, ht, ?_⟩
      rcases hflow with hv | hrx | hinv | hwant | hpay
      · exact .inl hv
      · exact .inr (.inl hrx)
      · rcases hread hinv with hstay | ⟨hcd, rfl, rfl⟩
        · exact .inr (.inr (.inl (hkeep hstay)))
        · by_cases hpeer : s.Holds P t.peer m
          · exact .inl hpeer
          · refine .inr (.inr (.inr (.inl (hanswer ?_ ?_))))
            · rw [← hcd, other_other]
            · rw [P2pNode.answers_inv (hs.within _) hr hm, if_neg (hown hcd ▸ hpeer)]
              exact List.mem_singleton_self _
      · rcases hread hwant with hstay | ⟨hcd, rfl, rfl⟩
        · exact .inr (.inr (.inr (.inl (hkeep hstay))))
        · subst hcd
          rw [ht, Option.some.injEq] at hd
          subst hd
          refine .inr (.inr (.inr (.inr (hanswer rfl ?_))))
          rw [P2pNode.answers_want (hs.within _) hr hm,
            if_pos (show (s.node t.owner).gossip.Holds P m from hheld)]
          exact List.mem_singleton_self _
      · rcases hread hpay with hstay | ⟨hcd, rfl, rfl⟩
        · exact .inr (.inr (.inr (.inr (hkeep hstay))))
        · exact .inl (hown hcd ▸ hgot rfl)
    · -- the message is taken
      refine Flows.tellAll ?_ _
      refine ⟨t, ht, ?_⟩
      have hgrow : ∀ w, s.Holds P w m → ((s.setNode t'.owner ((s.node t'.owner).deliver t'.peer
          ⟨messageId P m', encodeMesh m'⟩ m')).setInbox d rest).Holds P w m :=
        fun w hw => (holds_setNode hr hs.within hm' rfl hm).2 (.inl hw)
      rcases hflow with hv | hrx | hinv | hwant | hpay
      · exact .inl (hgrow _ hv)
      · exact .inr (.inl hrx)
      · exact .inr (.inr (.inl ((hread hinv).resolve_right fun h => nomatch h.2.1)))
      · exact .inr (.inr (.inr (.inl ((hread hwant).resolve_right fun h => nomatch h.2.1))))
      · rcases hread hpay with hstay | ⟨hcd, -, rfl⟩
        · exact .inr (.inr (.inr (.inr hstay)))
        · exact .inl ((holds_setNode hr hs.within hm' rfl hm).2 (.inr ⟨(hown hcd).symm, rfl⟩))
  | spawn d owner peer => exact ha.elim
  | close d => exact ha.elim
  | take w =>
    cases hstep
    refine h.mono rfl (fun _ _ hf => hf) fun v hv => ?_
    unfold Holds
    rw [node_setNode]
    split_ifs with hw
    · exact hw ▸ hv
    · exact hv

/-! ### Who holds a message passes it on -/

/-- A node that holds the message has announced it, and will send it to its targets or has, or was
given it, and has told all its sessions. -/
def PassesOn (P : Primitives) (announcer : Address → Prop) (m : MeshMessage) (s : Net)
    (u : Address) : Prop :=
  s.Holds P u m →
    announcer u ∧ ((u, ⟨[messageId P m]⟩) ∈ s.announced
        ∨ ∀ c ∈ (s.node u).broadcastTo, Flows P m s c)
      ∨ (∃ peer, (peer, m) ∈ (s.node u).delivered)
        ∧ ∀ v c, (s.node u).sessions.lookup v = some c → Flows P m s c

theorem mem_eraseIdx_of_ne {α : Type*} {l : List α} {i : ℕ} {x y : α} (hx : x ∈ l)
    (hy : l[i]? = some y) (hne : x ≠ y) : x ∈ l.eraseIdx i := by
  obtain ⟨j, hj⟩ := List.mem_iff_getElem?.1 hx
  refine List.mem_eraseIdx_iff_getElem?.2 ⟨j, fun hij => ?_, hj⟩
  rw [hij, hy] at hj
  exact hne (Option.some.inj hj).symm

/-- Who has passed a message on has, whatever comes next. -/
theorem PassesOn.of_holds {announcer : Address → Prop} (hs : s.Spreading P msgs) (hl : s.Linked)
    (hr : Readable P msgs) (hm : m ∈ msgs) {a : Action} (ha : a.Traffic msgs)
    (hstep : s.step P a = some s') (hheld : s.Holds P u m)
    (hpending : (u, ⟨[messageId P m]⟩) ∈ s.announced → (u, ⟨[messageId P m]⟩) ∈ s'.announced
      ∨ ∀ c ∈ (s.node u).broadcastTo, Flows P m s' c)
    (hdelivered : ∀ e ∈ (s.node u).delivered, e ∈ (s'.node u).delivered)
    (h : PassesOn P announcer m s u) : PassesOn P announcer m s' u := by
  intro _
  obtain ⟨-, halike⟩ := hs.step hl hr ha hstep
  have hflows : ∀ {c v}, s.ends c = some (u, v) → Flows P m s c → Flows P m s' c :=
    fun hc hflow => hflow.step hs hl hr hm hc hheld ha hstep
  rcases h hheld with ⟨hann, hsent⟩ | ⟨⟨peer, hgiven⟩, htold⟩
  · refine .inl ⟨hann, ?_⟩
    rw [halike.targets]
    rcases hsent with hpend | hflow
    · exact hpending hpend
    · refine .inr fun c hc => ?_
      obtain ⟨v, hends⟩ := hl.ends_of_broadcastTo hc
      exact hflows hends (hflow c hc)
  · refine .inr ⟨⟨peer, hdelivered _ hgiven⟩, fun v c hc => ?_⟩
    rw [halike.sessions] at hc
    exact hflows (hl.current u v c hc) (htold v c hc)

theorem PassesOn.step {announcer : Address → Prop} (hs : s.Spreading P msgs) (hl : s.Linked)
    (hr : Readable P msgs) (hm : m ∈ msgs) {a : Action} (ha : a.Traffic msgs)
    (hann : ∀ u, a = .announce u m → announcer u) (hstep : s.step P a = some s')
    (h : PassesOn P announcer m s u) : PassesOn P announcer m s' u := by
  by_cases hheld : s.Holds P u m
  · cases a with
    | announce w m' =>
      refine PassesOn.of_holds hs hl hr hm ha hstep hheld (fun hp => .inl ?_) (fun e he => ?_) h
      · cases hstep
        exact List.mem_append_left _ hp
      · cases hstep
        change e ∈ (Net.node (s.setNode w _) u).delivered
        rw [node_setNode]
        split_ifs with hw
        · exact hw ▸ he
        · exact he
    | flood i =>
      obtain ⟨w, inv, hi, heq⟩ := step_flood hstep
      refine PassesOn.of_holds hs hl hr hm ha hstep hheld (fun hp => ?_) (fun e he => ?_) h
      · by_cases hsame : (u, (⟨[messageId P m]⟩ : GossipInventory)) = (w, inv)
        · cases hsame
          refine .inr fun c hc => ?_
          obtain ⟨v, hends⟩ := hl.ends_of_broadcastTo hc
          rw [heq]
          exact flows_of_told hends (List.mem_map.2 ⟨c, hc, rfl⟩)
        · rw [heq, announced_tellAll]
          exact .inl (mem_eraseIdx_of_ne hp hi hsame)
      · rw [heq, node_tellAll]
        exact he
    | write d =>
      obtain ⟨t, cmd, rx, -, -, heq⟩ := step_write hstep
      refine PassesOn.of_holds hs hl hr hm ha hstep hheld (fun hp => .inl ?_) (fun e he => ?_) h
      · rw [heq]
        exact hp
      · rw [heq]
        exact he
    | read d =>
      obtain ⟨t, rest, stage, m', -, -, -, -, ⟨heq, -⟩ | ⟨-, -, heq⟩⟩ := hs.read_cases hr hstep
      · refine PassesOn.of_holds hs hl hr hm ha hstep hheld (fun hp => .inl ?_)
          (fun e he => ?_) h
        · rw [heq]
          exact hp
        · rw [heq]
          exact he
      · refine PassesOn.of_holds hs hl hr hm ha hstep hheld (fun hp => .inl ?_)
          (fun e he => ?_) h
        · rw [heq, announced_tellAll]
          exact hp
        · rw [heq, node_tellAll, node_setInbox, node_setNode]
          split_ifs with hw
          · rw [hw] at he
            exact List.mem_append_left _ he
          · exact he
    | spawn d owner peer => exact ha.elim
    | close d => exact ha.elim
    | take w =>
      refine PassesOn.of_holds hs hl hr hm ha hstep hheld (fun hp => .inl ?_) (fun e he => ?_) h
      · cases hstep
        exact hp
      · cases hstep
        rw [node_setNode]
        split_ifs with hw
        · exact hw ▸ he
        · exact he
  · -- the node holds the message only since this action
    intro hheld'
    cases a with
    | announce w m' =>
      cases hstep
      obtain ⟨rfl, rfl⟩ := ((holds_setNode hr hs.within ha rfl hm).1 hheld').resolve_left hheld
      refine .inl ⟨hann u rfl, .inl (List.mem_append_right _ (List.mem_singleton.2 ?_))⟩
      obtain ⟨k, hk⟩ := Nat.exists_eq_succ_of_ne_zero (hs.within u).offers.ne'
      change _ = (u, (⟨[messageId P m].take (s.node u).gossip.maxInv⟩ : GossipInventory))
      rw [hk, List.take_succ_cons, List.take_nil]
    | flood i =>
      obtain ⟨w, inv, -, rfl⟩ := step_flood hstep
      rw [Holds, node_tellAll] at hheld'
      exact absurd hheld' hheld
    | write d =>
      obtain ⟨t, cmd, rx, -, -, rfl⟩ := step_write hstep
      exact absurd hheld' hheld
    | read d =>
      obtain ⟨t, rest, stage, m', hd, hm', -, hpeer, ⟨rfl, -⟩ | ⟨rfl, hnew, rfl⟩⟩ :=
        hs.read_cases hr hstep
      · exact absurd hheld' hheld
      · have hfile : ∀ {v x}, x ∈ msgs → ((s.setNode t.owner ((s.node t.owner).deliver t.peer
            ⟨messageId P m', encodeMesh m'⟩ m')).Holds P v x ↔ s.Holds P v x
              ∨ v = t.owner ∧ x = m') := fun hx => holds_setNode hr hs.within hm' rfl hx
        rw [Holds, node_tellAll] at hheld'
        obtain ⟨rfl, rfl⟩ := ((hfile hm).1 hheld').resolve_left hheld
        refine .inr ⟨⟨t.peer, ?_⟩, fun v c hc => ?_⟩
        · rw [node_tellAll, node_setInbox, node_setNode, if_pos rfl]
          exact List.mem_append_right _ (List.mem_singleton_self _)
        · rw [node_tellAll, node_setInbox, node_setNode, if_pos rfl] at hc
          have hends := hl.current t.owner v c hc
          by_cases hv : v = t.peer
          · -- the peer that has sent the message holds it
            have hsent : s.Holds P t.peer m := hpeer.resolve_left fun h => by cases h
            obtain ⟨t', ht', hte⟩ := Option.map_eq_some_iff.1 hends
            obtain ⟨-, hpeer'⟩ := Prod.mk.inj hte
            refine Flows.tellAll ?_ _
            refine ⟨t', ht', .inl ?_⟩
            rw [hpeer', hv]
            exact (hfile hm).2 (.inl hsent)
          · refine flows_of_told hends (List.mem_map.2 ⟨c, List.mem_map.2 ⟨⟨v, c⟩, ?_, rfl⟩, rfl⟩)
            exact List.mem_filter.2 ⟨AList.mem_lookup_iff.1 hc, decide_eq_true hv⟩
    | spawn d owner peer => exact ha.elim
    | close d => exact ha.elim
    | take w =>
      cases hstep
      refine absurd ?_ hheld
      rw [Holds, node_setNode] at hheld'
      split_ifs at hheld' with hw
      · exact hw ▸ hheld'
      · exact hheld'

/-- What is held stays, and what is announced is held. -/
theorem Spreading.holds_step (hs : s.Spreading P msgs) (hr : Readable P msgs) (hm : m ∈ msgs)
    {a : Action} (ha : a.Traffic msgs) (hstep : s.step P a = some s')
    (h : s.Holds P u m ∨ a = .announce u m) : s'.Holds P u m := by
  cases a with
  | announce w m' =>
    cases hstep
    refine (holds_setNode hr hs.within ha rfl hm).2 (h.imp_right fun heq => ?_)
    cases heq
    exact ⟨rfl, rfl⟩
  | flood i =>
    obtain ⟨w, inv, -, rfl⟩ := step_flood hstep
    rw [Holds, node_tellAll]
    exact h.resolve_right fun heq => by cases heq
  | write d =>
    obtain ⟨t, cmd, rx, -, -, rfl⟩ := step_write hstep
    exact h.resolve_right fun heq => by cases heq
  | read d =>
    obtain ⟨t, rest, stage, m', -, hm', -, -, ⟨rfl, -⟩ | ⟨-, -, rfl⟩⟩ := hs.read_cases hr hstep
    · exact h.resolve_right fun heq => by cases heq
    · rw [Holds, node_tellAll]
      refine (holds_setNode hr hs.within hm' rfl hm).2 (.inl (h.resolve_right fun heq => ?_))
      cases heq
  | spawn d owner peer => exact ha.elim
  | close d => exact ha.elim
  | take w =>
    cases hstep
    have hheld := h.resolve_right fun heq => by cases heq
    rw [Holds, node_setNode]
    split_ifs with hw
    · exact hw ▸ hheld
    · exact hheld

/-- Behind a run, all that was held or announced is held, and who passes on passes on. -/
theorem Spreading.holds_run (hr : Readable P msgs) : ∀ {acts : List Action} {s s' : Net},
    s.Spreading P msgs → s.Linked → (∀ a ∈ acts, a.Traffic msgs) → s.run P acts = some s' →
      (∀ u, ∀ m ∈ msgs, s.Holds P u m ∨ .announce u m ∈ acts → s'.Holds P u m)
        ∧ ∀ (announcer : Address → Prop), ∀ m ∈ msgs, (∀ u, .announce u m ∈ acts → announcer u) →
          (∀ u, PassesOn P announcer m s u) → ∀ u, PassesOn P announcer m s' u
  | [], s, s', _, _, _, hrun => by
    cases hrun
    exact ⟨fun u m _ hor => hor.resolve_right List.not_mem_nil, fun _ _ _ _ h => h⟩
  | a :: acts, s, s', hs, hl, hacts, hrun => by
    obtain ⟨s₁, hfirst, hrest⟩ := run_cons hrun
    have ha := hacts a List.mem_cons_self
    obtain ⟨hs₁, halike⟩ := hs.step hl hr ha hfirst
    obtain ⟨hholds, hpass⟩ := Spreading.holds_run hr hs₁ (halike.linked hl)
      (fun b hb => hacts b (List.mem_cons_of_mem _ hb)) hrest
    refine ⟨fun u m hm hor => hholds u m hm ?_, fun announcer m hm hann h => hpass announcer m hm
      (fun u hu => hann u (List.mem_cons_of_mem _ hu)) fun u => ?_⟩
    · rw [List.mem_cons, ← or_assoc] at hor
      exact hor.imp_left fun h => hs.holds_step hr hm ha hfirst (h.imp_right Eq.symm)
    · exact (h u).step hs hl hr hm ha (fun v heq => hann v (heq ▸ List.mem_cons_self)) hfirst

/-- At rest, a message that was new has come to whom a chain of sessions joins to a target. -/
theorem Settled.reached (hr : Readable P msgs) {s₀ : Net} (h : s₀.Settled P msgs)
    {acts : List Action} (hacts : ∀ a ∈ acts, a.Traffic msgs) (hrun : s₀.run P acts = some s)
    (hq : s.Quiet) (hann : .announce u m ∈ acts) (hnew : ∀ v, ¬ s₀.Holds P v m)
    (hc : c ∈ (s₀.node u).broadcastTo) {t : Address} (hends : s₀.ends c = some (u, t))
    (hchain : Relation.ReflTransGen
      (fun a b => .announce a m ∉ acts ∧ b ∈ (s₀.node a).sessions) t v) :
    (∃ peer, (peer, m) ∈ (s.node v).delivered) ∨ .announce v m ∈ acts := by
  obtain ⟨hs, halike⟩ := h.spreading.run hr h.linked hacts hrun
  obtain ⟨hholds, hpass⟩ := h.spreading.holds_run hr h.linked hacts hrun
  have hm : m ∈ msgs := hacts _ hann
  have hl := halike.linked h.linked
  have hon : ∀ u, PassesOn P (fun u => .announce u m ∈ acts) m s u :=
    hpass _ m hm (fun _ hu => hu) fun v hv => absurd hv (hnew v)
  have hgiven : ∀ {v}, s.Holds P v m →
      (∃ peer, (peer, m) ∈ (s.node v).delivered) ∨ .announce v m ∈ acts :=
    fun hv => (hon _ hv).elim (fun hann => .inr hann.1) fun hgiven => .inl hgiven.1
  refine hgiven ?_
  rw [← halike.targets] at hc
  rw [← halike.ends] at hends
  induction hchain with
  | refl =>
    rcases hon u (hholds u m hm (.inr hann)) with ⟨-, hpend | hflow⟩ | ⟨-, htold⟩
    · rw [hq.announced] at hpend
      cases hpend
    · exact (hflow c hc).holds hq hends
    · obtain ⟨peer, -, hlookup⟩ := List.mem_filterMap.1 hc
      exact (htold peer.id c hlookup).holds hq hends
  | @tail a b _ hab hheld =>
    obtain ⟨hnot, hsession⟩ := hab
    obtain ⟨d, hd⟩ := Option.isSome_iff_exists.1 (AList.lookup_isSome.2 hsession)
    rw [← halike.sessions] at hd
    rcases hon a hheld with ⟨hann', -⟩ | ⟨-, htold⟩
    · exact absurd hann' hnot
    · exact (htold b d hd).holds hq (hl.current a b d hd)

/-- In a settled network with room for the messages, however the threads take their turns: no node
is given a message twice; and when nothing is under way any more, a message that was new has come to
everybody whom a chain of sessions joins to a target of the announcer, where everybody on the way
but the last has it from others. -/
theorem flood_delivers (hr : Readable P msgs) {s₀ : Net} (h : s₀.Settled P msgs)
    (acts : List Action) (hacts : ∀ a ∈ acts, a.Traffic msgs) (hrun : s₀.run P acts = some s) :
    (∀ u, ((s.node u).delivered.map Prod.snd).Nodup)
      ∧ (s.Quiet → ∀ u m, .announce u m ∈ acts → (∀ v, ¬ s₀.Holds P v m) →
        ∀ c ∈ (s₀.node u).broadcastTo, ∀ t v, s₀.ends c = some (u, t) →
          Relation.ReflTransGen
            (fun a b => .announce a m ∉ acts ∧ b ∈ (s₀.node a).sessions) t v →
          (∃ peer, (peer, m) ∈ (s.node v).delivered) ∨ .announce v m ∈ acts) :=
  ⟨(h.spreading.run hr h.linked hacts hrun).1.nodup,
    fun hq _ _ hann hnew _ hc _ _ hends hchain =>
      h.reached hr hacts hrun hq hann hnew hc hends hchain⟩

end Net

namespace StandIn

open Net KronMesh.StandIn

theorem broadcastTo_line : ⟨0, true⟩ ∈ (line.node 1).broadcastTo ∧ 3 ∈ (line.node 2).sessions := by
  decide

/-- The first node of the line announces, and the line comes to rest. -/
theorem run_line : ∃ acts s, (.announce 1 lineMessage ∈ acts)
    ∧ (∀ u, .announce u lineMessage ∈ acts → u = 1) ∧ (∀ a ∈ acts, a.Traffic {lineMessage})
    ∧ line.run wide acts = some s ∧ s.Quiet := by
  obtain ⟨s₁, hfirst⟩ : ∃ s₁, line.step wide (.announce 1 lineMessage) = some s₁ := ⟨_, rfl⟩
  have hann : Action.Traffic {lineMessage} (.announce 1 lineMessage) := Finset.mem_singleton_self _
  obtain ⟨hs₁, halike⟩ := settled_line.spreading.step linked_line readable_line hann hfirst
  obtain ⟨more, s, hmore, hrun, hquiet⟩ := Spreading.exists_quiet readable_line _ le_rfl hs₁
    (halike.linked linked_line) (halike.threads threads_line)
  refine ⟨.announce 1 lineMessage :: more, s, List.mem_cons_self, fun u hu => ?_, fun a ha => ?_,
    ?_, hquiet⟩
  · rcases List.mem_cons.1 hu with heq | hu
    · cases heq
      rfl
    · exact absurd (hmore _ hu).1 Bool.false_ne_true
  · rcases List.mem_cons.1 ha with rfl | ha
    · exact hann
    · exact (hmore a ha).2
  · rw [Net.run, hfirst]
    exact hrun

/-- What the first node of the line announces comes to the third. -/
theorem flood_delivers_line : ∃ acts s, line.run wide acts = some s
    ∧ ∃ peer, (peer, lineMessage) ∈ (s.node 3).delivered := by
  obtain ⟨acts, s, hann, honly, hacts, hrun, hquiet⟩ := run_line
  refine ⟨acts, s, hrun, ?_⟩
  have hcome := (flood_delivers readable_line settled_line acts hacts hrun).2 hquiet 1 lineMessage
    hann (fun v hv => nomatch hv) ⟨0, true⟩ broadcastTo_line.1 2 3
    (ends_line (⟨0, true⟩, 1, 2) (by decide)).1
    (.single ⟨fun hmem => absurd (honly 2 hmem) (by decide), broadcastTo_line.2⟩)
  exact hcome.resolve_right fun hmem => absurd (honly 3 hmem) (by decide)

end StandIn

end KronMesh.Gossip
