import KronMesh.FloodReach

/-!
# Where messages come from

Nothing comes out of the network that was not announced in it (`delivered_announced`), whatever
connections are made and lost and in whichever order the threads run.
-/

namespace KronMesh.Gossip

open Wire Handshake Routing

variable {P : Primitives}

/-! ## What is delivered was announced -/

namespace Net

variable {bodies : Bytes → Prop} {s s' : Net}

/-- Every body that is held or under way is one of these. -/
structure Genuine (P : Primitives) (bodies : Bytes → Prop) (s : Net) : Prop where
  sound : ∀ u, (s.node u).gossip.Sound P
  stored : ∀ u id body, (s.node u).gossip.store.lookup id = some body → bodies body
  carried : ∀ c, ∀ f ∈ s.inbox c, f.kind = kindPayload →
    ∀ p, GossipPayload.decode f.payload = .ok p → bodies p.body
  told : ∀ c t, s.session c = some t → ∀ cmd ∈ t.rx, ∃ inv, cmd = .inv inv
  delivered : ∀ u, ∀ e ∈ (s.node u).delivered, ∃ body, bodies body ∧ decodeMesh P body = .ok e.2

/-- Nothing is held, delivered or under way; connections may be there. -/
structure Fresh (P : Primitives) (s : Net) : Prop where
  sound : ∀ u, (s.node u).gossip.Sound P
  store : ∀ u, (s.node u).gossip.store = ∅
  delivered : ∀ u, (s.node u).delivered = []
  inbox : ∀ c, s.inbox c = []
  rx : ∀ c t, s.session c = some t → t.rx = []

theorem fresh_init (P : Primitives) (role : Address → PeerRole) : Fresh P (init role) where
  sound u := GossipEngine.sound_forRole P (role u)
  store u := by
    change (GossipEngine.forRole (role u)).store = ∅
    cases role u <;> rfl
  delivered _ := rfl
  inbox _ := rfl
  rx _ _ h := by cases h

theorem Fresh.genuine (h : Fresh P s) : Genuine P bodies s where
  sound := h.sound
  stored u id body hbody := by
    rw [h.store] at hbody
    cases hbody
  carried c f hf := by
    rw [h.inbox] at hf
    cases hf
  told c t hc cmd hcmd := by
    rw [h.rx c t hc] at hcmd
    cases hcmd
  delivered u e he := by
    rw [h.delivered] at he
    cases he

/-- The node of an action is as it was, up to what nobody reads of it here. -/
theorem Genuine.setNode (h : Genuine P bodies s) {u : Address} {n : P2pNode}
    (hgossip : n.gossip = (s.node u).gossip) (hdelivered : n.delivered = (s.node u).delivered) :
    Genuine P bodies (s.setNode u n) := by
  have hnode : ∀ v, ((s.setNode u n).node v).gossip = (s.node v).gossip
      ∧ ((s.setNode u n).node v).delivered = (s.node v).delivered := by
    intro v
    rw [node_setNode]
    split_ifs with hv
    · rw [hv]
      exact ⟨hgossip, hdelivered⟩
    · exact ⟨rfl, rfl⟩
  refine ⟨fun v => ?_, fun v => ?_, h.carried, h.told, fun v => ?_⟩
  · rw [(hnode v).1]
    exact h.sound v
  · rw [(hnode v).1]
    exact h.stored v
  · rw [(hnode v).2]
    exact h.delivered v

/-- A node files one of the bodies. -/
theorem Genuine.file (h : Genuine P bodies s) {u : Address} {n : P2pNode} {body : Bytes}
    (hbody : bodies body) (hgossip : n.gossip = (s.node u).gossip.insert (P.sha256 body) body)
    (hdelivered : ∀ e ∈ n.delivered, e ∈ (s.node u).delivered ∨ decodeMesh P body = .ok e.2) :
    Genuine P bodies (s.setNode u n) := by
  have hsound : n.gossip.Sound P := by
    rw [hgossip]
    refine ⟨(h.sound u).pos, (h.sound u).inStep.insert (h.sound u).pos _ _, ?_⟩
    intro id body' hlookup
    rcases Fifo.lookup_insert_cases (h.sound u).inStep (h.sound u).pos hlookup with
      ⟨rfl, rfl⟩ | hold
    · rfl
    · exact (h.sound u).hashed id body' hold
  refine ⟨fun v => ?_, fun v id body' hlookup => ?_, h.carried, h.told, fun v e he => ?_⟩
  · rw [node_setNode]
    split_ifs
    · exact hsound
    · exact h.sound v
  · rw [node_setNode] at hlookup
    split_ifs at hlookup
    · rw [hgossip] at hlookup
      rcases Fifo.lookup_insert_cases (h.sound u).inStep (h.sound u).pos hlookup with
        ⟨rfl, rfl⟩ | hold
      · exact hbody
      · exact h.stored u id body' hold
    · exact h.stored v id body' hlookup
  · rw [node_setNode] at he
    split_ifs at he
    · exact (hdelivered e he).elim (h.delivered u e) fun hread => ⟨body, hbody, hread⟩
    · exact h.delivered v e he

theorem Genuine.tellAll (h : Genuine P bodies s) {told : List (ConnEnd × SessionCmd)}
    (htold : ∀ e ∈ told, ∃ inv, e.2 = .inv inv) : Genuine P bodies (s.tellAll told) := by
  refine ⟨?_, ?_, ?_, fun c t hc cmd hcmd => ?_, ?_⟩
  · simpa only [node_tellAll] using h.sound
  · simpa only [node_tellAll] using h.stored
  · simpa only [inbox_tellAll] using h.carried
  · rw [session_tellAll] at hc
    obtain ⟨t', ht', rfl⟩ := Option.map_eq_some_iff.1 hc
    rcases List.mem_append.1 hcmd with hold | hnew
    · exact h.told c t' ht' cmd hold
    · obtain ⟨e, he, rfl⟩ := List.mem_map.1 hnew
      exact htold e (List.mem_filter.1 he).1
  · simpa only [node_tellAll] using h.delivered

theorem Genuine.setInbox (h : Genuine P bodies s) {c : ConnEnd} {fs : List Frame}
    (hfs : ∀ f ∈ fs, f.kind = kindPayload → ∀ p, GossipPayload.decode f.payload = .ok p →
      bodies p.body) : Genuine P bodies (s.setInbox c fs) := by
  refine ⟨h.sound, h.stored, fun d f hf => ?_, h.told, h.delivered⟩
  rw [inbox_setInbox] at hf
  split_ifs at hf
  · exact hfs f hf
  · exact h.carried d f hf

theorem Genuine.setSession (h : Genuine P bodies s) {c : ConnEnd} {t : Option Session}
    (ht : ∀ t', t = some t' → ∀ cmd ∈ t'.rx, ∃ inv, cmd = .inv inv) :
    Genuine P bodies (s.setSession c t) := by
  refine ⟨h.sound, h.stored, h.carried, fun d t' hd => ?_, h.delivered⟩
  rw [session_setSession] at hd
  split_ifs at hd
  · exact ht t' hd
  · exact h.told d t' hd

theorem Genuine.send (h : Genuine P bodies s) {c : ConnEnd} {fs : List Frame}
    (hfs : ∀ f ∈ fs, f.kind = kindPayload → ∀ p, GossipPayload.decode f.payload = .ok p →
      bodies p.body) : Genuine P bodies (s.send c fs) :=
  h.setInbox fun f hf => (List.mem_append.1 hf).elim (h.carried c f) (hfs f)

/-- Actions that announce only these bodies bring in no other. -/
theorem Genuine.step (h : Genuine P bodies s) {a : Action}
    (ha : ∀ u msg, a = .announce u msg → bodies (encodeMesh msg)) (hstep : s.step P a = some s') :
    Genuine P bodies s' := by
  cases a with
  | announce u msg =>
    cases hstep
    have hfile := h.file (n := { s.node u with gossip := ((s.node u).gossip.announce P msg).1 })
      (ha u msg rfl) rfl fun e he => .inl he
    exact ⟨hfile.sound, hfile.stored, hfile.carried, hfile.told, hfile.delivered⟩
  | flood i =>
    obtain ⟨u, inv, -, rfl⟩ := step_flood hstep
    have hrest : Genuine P bodies { s with announced := s.announced.eraseIdx i } :=
      ⟨h.sound, h.stored, h.carried, h.told, h.delivered⟩
    refine hrest.tellAll fun e he => ?_
    obtain ⟨c, -, rfl⟩ := List.mem_map.1 he
    exact ⟨inv, rfl⟩
  | write c =>
    obtain ⟨t, cmd, rx, hc, hrx, rfl⟩ := step_write hstep
    have hold := h.told c t hc
    rw [hrx] at hold
    obtain ⟨inv, rfl⟩ := hold cmd List.mem_cons_self
    refine (h.setSession (fun t' ht' => ?_)).send fun f hf hkind => ?_
    · cases ht'
      exact fun cmd hcmd => hold cmd (List.mem_cons_of_mem _ hcmd)
    · rw [(mem_writeFrame.1 hf).1] at hkind
      exact absurd hkind (show kindInv ≠ kindPayload by decide)
  | read c =>
    obtain ⟨t, f, rest, hc, hin, hcases⟩ := step_read hstep
    have hcarried := h.carried c
    rw [hin] at hcarried
    have hrest : ∀ {s₁ : Net}, Genuine P bodies s₁ → Genuine P bodies (s₁.setInbox c rest) :=
      fun h₁ => h₁.setInbox fun f' hf' => hcarried f' (List.mem_cons_of_mem _ hf')
    rcases hcases with ⟨rfl, -⟩ | ⟨p, msg, htakes, rfl⟩
    · refine (hrest h).send fun f' hf' hkind p hp => ?_
      rcases P2pNode.mem_answers hf' with hnot | ⟨q, rfl, hlen, hheld⟩
      · exact absurd hkind hnot
      · rw [decode_of_fits hlen] at hp
        cases hp
        exact h.stored t.owner _ _ hheld
    · have hbody := hcarried f List.mem_cons_self htakes.kind p htakes.decode
      refine (hrest (h.file hbody ?_ fun e he => ?_)).tellAll fun e he => ?_
      · rw [htakes.hash]
        rfl
      · rcases List.mem_append.1 he with hold | hnew
        · exact .inl hold
        · rw [List.mem_singleton.1 hnew]
          exact .inr htakes.read
      · obtain ⟨d, -, rfl⟩ := List.mem_map.1 he
        exact ⟨_, rfl⟩
  | spawn c owner peer =>
    obtain ⟨table, rfl | rfl⟩ := step_spawn hstep
    · exact h.setNode rfl rfl
    · refine ((h.setNode (n := { s.node owner with table := table }) rfl rfl).setNode ?_
        ?_).setSession fun t' ht' => ?_
      · rfl
      · rfl
      · cases ht'
        exact fun cmd hcmd => absurd hcmd List.not_mem_nil
  | close c =>
    obtain ⟨t, -, rfl⟩ := step_close hstep
    have hnode := h.setNode (u := t.owner) (n := { s.node t.owner with
      sessions := (s.node t.owner).sessions.erase t.peer }) rfl rfl
    refine (hnode.setSession fun t' ht' => ?_).setInbox fun f hf => ?_
    · cases ht'
    · cases hf
  | take u =>
    cases hstep
    exact h.setNode rfl rfl

/-- Whatever the threads do and in whichever order, also when connections come and go and when two
connections join the same nodes: a message that a node has delivered is what some node has
announced, read from its very bytes. -/
theorem delivered_announced {s₀ : Net} (hfresh : s₀.Fresh P) (acts : List Action)
    (h : s₀.run P acts = some s) (u peer : Address) (msg : MeshMessage)
    (hmsg : (peer, msg) ∈ (s.node u).delivered) :
    ∃ v origin, .announce v origin ∈ acts ∧ decodeMesh P (encodeMesh origin) = .ok msg := by
  have hgen : Genuine P (fun body => ∃ v origin, .announce v origin ∈ acts
      ∧ body = encodeMesh origin) s :=
    run_induction (fun a => a ∈ acts)
      (fun ha hs hstep => hs.step (fun v msg heq => ⟨v, msg, heq ▸ ha, rfl⟩) hstep)
      (fun a ha => ha) hfresh.genuine h
  obtain ⟨_, ⟨v, origin, hact, rfl⟩, hread⟩ := hgen.delivered u _ hmsg
  exact ⟨v, origin, hact, hread⟩

end Net

namespace StandIn

open Net KronMesh.StandIn

theorem fresh_line : line.Fresh wide :=
  { fresh_init wide fun _ => .coreValidator with
    rx := settled_line.quiet.rx }

/-- The second node of the line is given what somebody has announced. -/
theorem delivered_announced_line : ∃ acts s, line.run wide acts = some s
    ∧ (∃ peer, (peer, lineMessage) ∈ (s.node 2).delivered)
    ∧ ∃ v origin, .announce v origin ∈ acts
      ∧ decodeMesh wide (encodeMesh origin) = .ok lineMessage := by
  obtain ⟨acts, s, hann, honly, hacts, hrun, hquiet⟩ := run_line
  have hcome := settled_line.reached readable_line hacts hrun hquiet hann (fun v hv => nomatch hv)
    broadcastTo_line.1 (ends_line (⟨0, true⟩, 1, 2) (by decide)).1 .refl
  obtain ⟨peer, hpeer⟩ := hcome.resolve_right fun hmem => absurd (honly 2 hmem) (by decide)
  exact ⟨acts, s, hrun, ⟨peer, hpeer⟩, delivered_announced fresh_line acts hrun 2 peer _ hpeer⟩

end StandIn

end KronMesh.Gossip
