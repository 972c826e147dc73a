import KronMesh.P2pNode

/-!
# What is kept while messages spread

In a network whose connections stay and whose stores have room for all messages, all that is held,
delivered or under way is of these messages, and an id is told only by who holds the message
(`Net.Spreading`).
-/

namespace KronMesh.Gossip

open Wire Handshake Routing

variable (P : Primitives)

/-- `message_id`. -/
def messageId (m : MeshMessage) : Hash := P.sha256 (encodeMesh m)

/-- What the frames are about that a message causes. -/
inductive Stage
  | inv
  | want
  | payload
  deriving DecidableEq

def Stage.kind : Stage → UInt8
  | .inv => kindInv
  | .want => kindWant
  | .payload => kindPayload

theorem Stage.kind_inj : ∀ {st st' : Stage}, st.kind = st'.kind → st = st'
  | .inv, .inv, _ | .want, .want, _ | .payload, .payload, _ => rfl

def frameFor (m : MeshMessage) : Stage → Frame
  | .inv => ⟨kindInv, GossipInventory.encode ⟨[messageId P m]⟩⟩
  | .want => ⟨kindWant, GossipWant.encode ⟨[messageId P m]⟩⟩
  | .payload => ⟨kindPayload, GossipPayload.encode ⟨messageId P m, encodeMesh m⟩⟩

/-- Messages that are read back, fit into a frame and have ids of their own. -/
structure Readable (msgs : Finset MeshMessage) : Prop where
  read : ∀ m ∈ msgs, decodeMesh P (encodeMesh m) = .ok m
  fits : ∀ m ∈ msgs, 36 + (encodeMesh m).length ≤ maxFrame
  apart : ∀ m ∈ msgs, ∀ m' ∈ msgs, messageId P m = messageId P m' → m = m'

variable {P} {msgs : Finset MeshMessage} {m m' : MeshMessage}

/-- Checked vertices that come back from their bytes are such messages, unless their hashes collide.
-/
theorem readable_vertices (P : Primitives) (txs : Finset DagTransaction)
    (hchecked : ∀ tx ∈ txs, tx.verifySignature P = true ∧ tx.verifyRelayProofs P = true
      ∧ DagTransaction.fromCanonical P tx.canonicalBytes = .ok tx)
    (hapart : ∀ tx ∈ txs, ∀ tx' ∈ txs,
      messageId P (.vertex tx) = messageId P (.vertex tx') → tx = tx') :
    Readable P (txs.image .vertex) := by
  have hlen : ∀ tx ∈ txs, tx.canonicalBytes.length = 3906 := fun tx htx =>
    have ⟨hsig, hrel, hfc⟩ := hchecked tx htx
    length_canonicalBytes_of_checked hsig hrel hfc
  refine ⟨fun m hm => ?_, fun m hm => ?_, fun m hm m' hm' hid => ?_⟩
  · obtain ⟨tx, htx, rfl⟩ := Finset.mem_image.1 hm
    exact decodeMesh_encodeMesh (hchecked tx htx).2.2 (by rw [hlen tx htx]; decide)
  · obtain ⟨tx, htx, rfl⟩ := Finset.mem_image.1 hm
    rw [encodeMesh, List.length_cons, putBytes, List.length_append, length_leBytes, hlen tx htx]
    decide
  · obtain ⟨tx, htx, rfl⟩ := Finset.mem_image.1 hm
    obtain ⟨tx', htx', rfl⟩ := Finset.mem_image.1 hm'
    rw [hapart tx htx tx' htx' hid]

theorem kind_frameFor (P : Primitives) (m : MeshMessage) (st : Stage) :
    (frameFor P m st).kind = st.kind := by
  cases st <;> rfl

/-! ## What a node holds -/

namespace GossipEngine

variable {e : GossipEngine}

def Holds (P : Primitives) (e : GossipEngine) (m : MeshMessage) : Prop :=
  e.store.lookup (messageId P m) = some (encodeMesh m)

instance (P : Primitives) (e : GossipEngine) (m : MeshMessage) : Decidable (e.Holds P m) :=
  inferInstanceAs (Decidable (_ = _))

/-- A store of some of the messages, with room for all of them. -/
structure Within (P : Primitives) (msgs : Finset MeshMessage) (e : GossipEngine) : Prop where
  sound : e.Sound P
  room : msgs.card ≤ e.maxStore
  offers : 0 < e.maxInv
  held : ∀ id body, e.store.lookup id = some body → ∃ m ∈ msgs, body = encodeMesh m

theorem Within.lookup (h : e.Within P msgs) (hr : Readable P msgs) (hm : m ∈ msgs) {body : Bytes}
    (hbody : e.store.lookup (messageId P m) = some body) : body = encodeMesh m := by
  obtain ⟨m', hm', rfl⟩ := h.held _ _ hbody
  rw [hr.apart m' hm' m hm (h.sound.hashed _ _ hbody)]

theorem Within.mem_iff (h : e.Within P msgs) (hr : Readable P msgs) (hm : m ∈ msgs) :
    messageId P m ∈ e.store ↔ e.Holds P m := by
  rw [← AList.lookup_isSome, Option.isSome_iff_exists]
  exact ⟨fun ⟨body, hbody⟩ => hbody.trans (congrArg some (h.lookup hr hm hbody)),
    fun hheld => ⟨_, hheld⟩⟩

/-- As long as a message is not held, a place is left. -/
theorem Within.length_lt (h : e.Within P msgs) (hm : m ∈ msgs) (hnew : messageId P m ∉ e.store) :
    e.order.length < e.maxStore := by
  refine lt_of_lt_of_le ?_ h.room
  have hsub : Insert.insert (messageId P m) e.order.toFinset ⊆ msgs.image (messageId P) := by
    intro id hid
    rcases Finset.mem_insert.1 hid with rfl | hid
    · exact Finset.mem_image_of_mem _ hm
    · rw [List.mem_toFinset, ← h.sound.inStep.keys, ← AList.lookup_isSome] at hid
      obtain ⟨body, hbody⟩ := Option.isSome_iff_exists.1 hid
      obtain ⟨m', hm', rfl⟩ := h.held _ _ hbody
      exact Finset.mem_image.2 ⟨m', hm', h.sound.hashed _ _ hbody⟩
  have hnot : messageId P m ∉ e.order.toFinset := by
    rw [List.mem_toFinset, ← h.sound.inStep.keys]
    exact hnew
  have hcard := (Finset.card_le_card hsub).trans Finset.card_image_le
  rw [Finset.card_insert_of_notMem hnot,
    List.toFinset_card_of_nodup h.sound.inStep.nodup] at hcard
  exact hcard

/-- A message that is filed is held with all that was held before. -/
theorem Within.lookup_insert (h : e.Within P msgs) (hr : Readable P msgs) (hm : m ∈ msgs)
    (id : Hash) : (e.insert (messageId P m) (encodeMesh m)).store.lookup id
      = if id = messageId P m then some (encodeMesh m) else e.store.lookup id :=
  Fifo.lookup_insert_of_lt h.sound.inStep (h.length_lt hm) (fun _ hbody => h.lookup hr hm hbody) id

theorem Within.insert (h : e.Within P msgs) (hr : Readable P msgs) (hm : m ∈ msgs) :
    (e.insert (messageId P m) (encodeMesh m)).Within P msgs := by
  have hlookup := h.lookup_insert hr hm
  refine ⟨⟨h.sound.pos, h.sound.inStep.insert h.sound.pos _ _, fun id body hbody => ?_⟩, h.room,
    h.offers, fun id body hbody => ?_⟩
  · rw [hlookup] at hbody
    split_ifs at hbody with hid
    · rw [hid, ← Option.some.inj hbody]
      rfl
    · exact h.sound.hashed id body hbody
  · rw [hlookup] at hbody
    split_ifs at hbody
    · exact ⟨m, hm, (Option.some.inj hbody).symm⟩
    · exact h.held id body hbody

theorem Within.holds_insert (h : e.Within P msgs) (hr : Readable P msgs) (hm : m ∈ msgs)
    (hm' : m' ∈ msgs) :
    (e.insert (messageId P m) (encodeMesh m)).Holds P m' ↔ m' = m ∨ e.Holds P m' := by
  rw [Holds, h.lookup_insert hr hm]
  split_ifs with hid
  · have hsame := hr.apart m' hm' m hm hid
    exact iff_of_true (by rw [hsame]) (.inl hsame)
  · exact ⟨.inr, fun hor => hor.resolve_left fun hsame => hid (by rw [hsame])⟩

end GossipEngine

/-! ## One frame -/

namespace P2pNode

variable {n : P2pNode}

theorem decode_ids (id : Hash) :
    GossipInventory.decode (GossipInventory.encode ⟨[id]⟩) = .ok ⟨[id]⟩ :=
  GossipInventory.decode_encode.2 (by rw [List.length_singleton]; decide)

theorem length_encode_ids (id : Hash) : (GossipInventory.encode ⟨[id]⟩).length ≤ maxFrame := by
  rw [GossipInventory.encode, List.length_append, length_leBytes, length_flatMap_hashBytes,
    List.length_singleton]
  decide

theorem onInventory_one (e : GossipEngine) (id : Hash) :
    e.onInventory ⟨[id]⟩ = ⟨if id ∉ e.store then [id] else []⟩ := by
  unfold GossipEngine.onInventory GossipEngine.wantLoop GossipEngine.wantLoop
  simp only [List.nil_append, ite_self]

/-- An id that is not held is asked for. -/
theorem answers_inv (h : n.gossip.Within P msgs) (hr : Readable P msgs) (hm : m ∈ msgs) :
    n.answers (frameFor P m .inv)
      = if n.gossip.Holds P m then [] else [frameFor P m .want] := by
  unfold answers
  rw [if_pos (show (frameFor P m .inv).kind = kindInv from rfl)]
  have hdec : GossipInventory.decode (frameFor P m .inv).payload = .ok ⟨[messageId P m]⟩ :=
    decode_ids _
  simp only [hdec, onInventory_one, h.mem_iff hr hm]
  by_cases hheld : n.gossip.Holds P m
  · rw [if_neg (not_not.2 hheld), if_pos hheld, if_neg (not_not.2 rfl)]
  · have hlen : ¬ maxFrame < (GossipWant.encode ⟨[messageId P m]⟩).length :=
      Nat.not_lt.2 (length_encode_ids (messageId P m))
    rw [if_pos hheld, if_neg hheld, if_pos (List.cons_ne_nil _ _), writeFrame, if_neg hlen]
    rfl

/-- A message that is held is handed out. -/
theorem answers_want (h : n.gossip.Within P msgs) (hr : Readable P msgs) (hm : m ∈ msgs) :
    n.answers (frameFor P m .want)
      = if n.gossip.Holds P m then [frameFor P m .payload] else [] := by
  unfold answers
  have hne : (frameFor P m .want).kind ≠ kindInv := show kindWant ≠ kindInv by decide
  rw [if_neg hne, if_pos (show (frameFor P m .want).kind = kindWant from rfl)]
  have hdec : GossipWant.decode (frameFor P m .want).payload = .ok ⟨[messageId P m]⟩ := by
    unfold GossipWant.decode
    have hids : GossipInventory.decode (frameFor P m .want).payload = .ok ⟨[messageId P m]⟩ :=
      decode_ids _
    rw [hids]
    rfl
  simp only [hdec]
  split_ifs with hheld
  · have hone : n.gossip.onWant ⟨[messageId P m]⟩ = [⟨messageId P m, encodeMesh m⟩] := by
      simp only [GossipEngine.onWant, List.filterMap_cons, List.filterMap_nil]
      rw [show n.gossip.store.lookup (messageId P m) = some (encodeMesh m) from hheld]
      rfl
    have hlen : ¬ maxFrame < (GossipPayload.encode ⟨messageId P m, encodeMesh m⟩).length := by
      rw [length_encode_payload]
      exact Nat.not_lt.2 (hr.fits m hm)
    rw [hone, List.flatMap_cons, List.flatMap_nil, List.append_nil, writeFrame, if_neg hlen]
    rfl
  · have hnone : n.gossip.store.lookup (messageId P m) = none := by
      rw [AList.lookup_eq_none, h.mem_iff hr hm]
      exact hheld
    simp only [GossipEngine.onWant, List.filterMap_cons, List.filterMap_nil, hnone,
      Option.map_none, List.flatMap_nil]

/-- Only a body is taken, and it is taken when it is not held. -/
theorem takes_iff (h : n.gossip.Within P msgs) (hr : Readable P msgs) (hm : m ∈ msgs)
    {stage : Stage} {p : GossipPayload} {msg : MeshMessage} :
    n.Takes P (frameFor P m stage) p msg
      ↔ stage = .payload ∧ p = ⟨messageId P m, encodeMesh m⟩ ∧ msg = m ∧ ¬ n.gossip.Holds P m := by
  have hdec : GossipPayload.decode (frameFor P m .payload).payload
      = .ok ⟨messageId P m, encodeMesh m⟩ := by
    refine decode_of_fits (p := ⟨messageId P m, encodeMesh m⟩) ?_
    rw [length_encode_payload]
    exact hr.fits m hm
  constructor
  · intro ht
    cases stage with
    | inv => exact absurd ht.kind (show kindInv ≠ kindPayload by decide)
    | want => exact absurd ht.kind (show kindWant ≠ kindPayload by decide)
    | payload =>
      have hp := ht.decode
      rw [hdec] at hp
      cases hp
      have hread := ht.read
      rw [hr.read m hm] at hread
      refine ⟨rfl, rfl, (Except.ok.inj hread).symm, fun hheld => ?_⟩
      exact ht.new ((h.mem_iff hr hm).2 hheld)
  · rintro ⟨rfl, rfl, rfl, hnew⟩
    exact ⟨rfl, hdec, rfl, hr.read _ hm, fun hmem => hnew ((h.mem_iff hr hm).1 hmem)⟩

end P2pNode

/-- A frame tells what it is about. -/
theorem frameFor_inj (hr : Readable P msgs) (hm : m ∈ msgs) (hm' : m' ∈ msgs) {st st' : Stage}
    (h : frameFor P m st = frameFor P m' st') : st = st' ∧ m = m' := by
  have hst : st = st' := by
    have hkind := congrArg Frame.kind h
    rw [kind_frameFor, kind_frameFor] at hkind
    exact Stage.kind_inj hkind
  refine ⟨hst, hr.apart m hm m' hm' ?_⟩
  subst hst
  have hpay := congrArg Frame.payload h
  cases st with
  | inv | want =>
    have hids := congrArg GossipInventory.decode hpay
    change GossipInventory.decode (GossipInventory.encode ⟨[messageId P m]⟩)
      = GossipInventory.decode (GossipInventory.encode ⟨[messageId P m']⟩) at hids
    rw [P2pNode.decode_ids, P2pNode.decode_ids] at hids
    exact List.singleton_inj.1 (congrArg GossipInventory.ids (Except.ok.inj hids))
  | payload =>
    have hfits : ∀ {m}, m ∈ msgs → GossipPayload.decode (GossipPayload.encode
        ⟨messageId P m, encodeMesh m⟩) = .ok ⟨messageId P m, encodeMesh m⟩ := by
      intro m hm
      refine decode_of_fits ?_
      rw [length_encode_payload]
      exact hr.fits m hm
    have hbody := congrArg GossipPayload.decode hpay
    change GossipPayload.decode (GossipPayload.encode ⟨messageId P m, encodeMesh m⟩)
      = GossipPayload.decode (GossipPayload.encode ⟨messageId P m', encodeMesh m'⟩) at hbody
    rw [hfits hm, hfits hm'] at hbody
    exact congrArg GossipPayload.id (Except.ok.inj hbody)

/-! ## The network -/

/-- Anything but that connections come or go. -/
def Action.Traffic (msgs : Finset MeshMessage) : Action → Prop
  | .announce _ msg => msg ∈ msgs
  | .spawn _ _ _ => False
  | .close _ => False
  | _ => True

namespace Net

variable {s s' : Net} {c : ConnEnd} {u v : Address}

def Holds (P : Primitives) (s : Net) (u : Address) (m : MeshMessage) : Prop :=
  (s.node u).gossip.Holds P m

instance (P : Primitives) (s : Net) (u : Address) (m : MeshMessage) : Decidable (s.Holds P u m) :=
  inferInstanceAs (Decidable (_ = _))

/-- Whose session the end has, and with whom. -/
def ends (s : Net) (c : ConnEnd) : Option (Address × Address) :=
  (s.session c).map fun t => (t.owner, t.peer)

@[simp] theorem ends_setNode (s : Net) (u : Address) (n : P2pNode) :
    (s.setNode u n).ends = s.ends := rfl

@[simp] theorem ends_setInbox (s : Net) (c : ConnEnd) (fs : List Frame) :
    (s.setInbox c fs).ends = s.ends := rfl

@[simp] theorem ends_send (s : Net) (c : ConnEnd) (fs : List Frame) :
    (s.send c fs).ends = s.ends := rfl

@[simp] theorem ends_tellAll (s : Net) (told : List (ConnEnd × SessionCmd)) :
    (s.tellAll told).ends = s.ends := by
  funext c
  rw [ends, session_tellAll, Option.map_map]
  rfl

theorem ends_of_session {t : Session} (h : s.session c = some t) :
    s.ends c = some (t.owner, t.peer) := by
  rw [ends, h]
  rfl

/-- Every entry of a session map is a thread of the node with this peer, and at the other end of a
thread is one of the peer. -/
structure Linked (s : Net) : Prop where
  current : ∀ u v c, (s.node u).sessions.lookup v = some c → s.ends c = some (u, v)
  joined : ∀ c u v, s.ends c = some (u, v) → s.ends c.other = some (v, u)

/-- Nothing is under way. -/
structure Quiet (s : Net) : Prop where
  announced : s.announced = []
  inbox : ∀ c, s.inbox c = []
  rx : ∀ c t, s.session c = some t → t.rx = []

/-- The same nodes have the same sessions and send to the same ones. -/
structure Alike (s s' : Net) : Prop where
  sessions : ∀ u, (s'.node u).sessions = (s.node u).sessions
  targets : ∀ u, (s'.node u).broadcastTo = (s.node u).broadcastTo
  ends : s'.ends = s.ends

theorem Alike.trans {s'' : Net} (h : Alike s s') (h' : Alike s' s'') : Alike s s'' :=
  ⟨fun u => (h'.sessions u).trans (h.sessions u), fun u => (h'.targets u).trans (h.targets u),
    h'.ends.trans h.ends⟩

theorem Alike.linked (h : Alike s s') (hl : s.Linked) : s'.Linked := by
  refine ⟨fun u v c hc => ?_, fun c u v hc => ?_⟩
  · rw [h.ends]
    rw [h.sessions] at hc
    exact hl.current u v c hc
  · rw [h.ends] at hc ⊢
    exact hl.joined c u v hc

theorem Alike.threads (h : Alike s s') {all : Finset ConnEnd}
    (hall : ∀ c t, s.session c = some t → c ∈ all) (c : ConnEnd) (t : Session)
    (hc : s'.session c = some t) : c ∈ all := by
  have hends := ends_of_session hc
  rw [h.ends] at hends
  obtain ⟨t', ht', -⟩ := Option.map_eq_some_iff.1 hends
  exact hall c t' ht'

theorem Alike.setNode {n : P2pNode} (hsessions : n.sessions = (s.node u).sessions)
    (htable : n.table = (s.node u).table) (hrole : n.role = (s.node u).role) :
    Alike s (s.setNode u n) := by
  refine ⟨fun v => ?_, fun v => ?_, rfl⟩
  · rw [node_setNode]
    split_ifs with hv
    · rw [hv, hsessions]
    · rfl
  · rw [node_setNode]
    split_ifs with hv
    · rw [hv, P2pNode.broadcastTo, P2pNode.broadcastTo, htable, hrole, hsessions]
    · rfl

/-- What is kept while messages spread: all that is held, delivered, told or carried is of these
messages, an id is told by who holds the message, and nobody has been given a message twice. -/
structure Spreading (P : Primitives) (msgs : Finset MeshMessage) (s : Net) : Prop where
  within : ∀ u, (s.node u).gossip.Within P msgs
  pending : ∀ e ∈ s.announced, ∃ m ∈ msgs, e.2 = ⟨[messageId P m]⟩ ∧ s.Holds P e.1 m
  told : ∀ c t, s.session c = some t → ∀ cmd ∈ t.rx,
    ∃ m ∈ msgs, cmd = .inv ⟨[messageId P m]⟩ ∧ s.Holds P t.owner m
  carried : ∀ c, ∀ f ∈ s.inbox c, ∃ u v, s.ends c = some (u, v)
    ∧ ∃ stage, ∃ m ∈ msgs, f = frameFor P m stage ∧ (stage = .want ∨ s.Holds P v m)
  nodup : ∀ u, ((s.node u).delivered.map Prod.snd).Nodup
  delivered : ∀ u, ∀ e ∈ (s.node u).delivered, e.2 ∈ msgs ∧ s.Holds P u e.2

/-- A network at rest that has room for the messages, all that it holds being some of them. -/
structure Settled (P : Primitives) (msgs : Finset MeshMessage) (s : Net) : Prop where
  linked : s.Linked
  quiet : s.Quiet
  within : ∀ u, (s.node u).gossip.Within P msgs
  nodup : ∀ u, ((s.node u).delivered.map Prod.snd).Nodup
  delivered : ∀ u, ∀ e ∈ (s.node u).delivered, e.2 ∈ msgs ∧ s.Holds P u e.2

theorem Settled.spreading (h : s.Settled P msgs) : s.Spreading P msgs where
  within := h.within
  pending e he := by
    rw [h.quiet.announced] at he
    cases he
  told c t hc cmd hcmd := by
    rw [h.quiet.rx c t hc] at hcmd
    cases hcmd
  carried c f hf := by
    rw [h.quiet.inbox c] at hf
    cases hf
  nodup := h.nodup
  delivered := h.delivered

/-! ### What the parts of an action keep -/

theorem Spreading.setInbox (h : s.Spreading P msgs) {fs : List Frame}
    (hsub : ∀ f ∈ fs, f ∈ s.inbox c) : (s.setInbox c fs).Spreading P msgs := by
  refine ⟨h.within, h.pending, h.told, fun d f hf => ?_, h.nodup, h.delivered⟩
  rw [inbox_setInbox] at hf
  split_ifs at hf with hd
  · exact hd ▸ h.carried c f (hsub f hf)
  · exact h.carried d f hf

theorem Spreading.send (h : s.Spreading P msgs) {fs : List Frame}
    (hfs : ∀ f ∈ fs, ∃ u v, s.ends c = some (u, v)
      ∧ ∃ stage, ∃ m ∈ msgs, f = frameFor P m stage ∧ (stage = .want ∨ s.Holds P v m)) :
    (s.send c fs).Spreading P msgs := by
  refine ⟨h.within, h.pending, h.told, fun d f hf => ?_, h.nodup, h.delivered⟩
  rw [inbox_send, List.mem_append] at hf
  rcases hf with hold | hnew
  · exact h.carried d f hold
  · split_ifs at hnew with hd
    · exact hd ▸ hfs f hnew
    · cases hnew

theorem Spreading.tellAll (h : s.Spreading P msgs) {told : List (ConnEnd × SessionCmd)}
    (htold : ∀ e ∈ told, ∃ u v, s.ends e.1 = some (u, v)
      ∧ ∃ m ∈ msgs, e.2 = .inv ⟨[messageId P m]⟩ ∧ s.Holds P u m) :
    (s.tellAll told).Spreading P msgs := by
  have hholds : ∀ u m, (s.tellAll told).Holds P u m ↔ s.Holds P u m := by
    intro u m
    rw [Holds, node_tellAll]
    rfl
  refine ⟨?_, ?_, fun c t hc cmd hcmd => ?_, ?_, ?_, ?_⟩
  · simpa only [node_tellAll] using h.within
  · simpa only [announced_tellAll, hholds] using h.pending
  · rw [session_tellAll] at hc
    obtain ⟨t', ht', rfl⟩ := Option.map_eq_some_iff.1 hc
    simp only [hholds]
    rcases List.mem_append.1 hcmd with hold | hnew
    · exact h.told c t' ht' cmd hold
    · obtain ⟨e, he, rfl⟩ := List.mem_map.1 hnew
      obtain ⟨he, hec⟩ := List.mem_filter.1 he
      obtain ⟨u, v, hends, m, hm, hcmd, hheld⟩ := htold e he
      rw [of_decide_eq_true hec, ends_of_session ht', Option.some.injEq, Prod.mk.injEq] at hends
      exact ⟨m, hm, hcmd, hends.1 ▸ hheld⟩
  · simpa only [inbox_tellAll, ends_tellAll, hholds] using h.carried
  · simpa only [node_tellAll] using h.nodup
  · simpa only [node_tellAll, hholds] using h.delivered

/-- A node files a message; what was held is held. -/
theorem holds_setNode (hr : Readable P msgs) (h : ∀ u, (s.node u).gossip.Within P msgs)
    (hm : m ∈ msgs) {n : P2pNode}
    (hn : n.gossip = (s.node u).gossip.insert (messageId P m) (encodeMesh m)) {v : Address}
    (hm' : m' ∈ msgs) : (s.setNode u n).Holds P v m' ↔ s.Holds P v m' ∨ v = u ∧ m' = m := by
  unfold Holds
  rw [node_setNode]
  split_ifs with hv
  · rw [hn, (h u).holds_insert hr hm hm', hv, or_comm, and_iff_right rfl]
  · exact ⟨.inl, fun hor => hor.resolve_right fun hand => hv hand.1⟩

theorem Spreading.file (h : s.Spreading P msgs) (hr : Readable P msgs) (hm : m ∈ msgs)
    {n : P2pNode} (hn : n.gossip = (s.node u).gossip.insert (messageId P m) (encodeMesh m))
    (hdelivered : n.delivered = (s.node u).delivered
      ∨ ¬ s.Holds P u m ∧ ∃ peer, n.delivered = (s.node u).delivered ++ [(peer, m)]) :
    (s.setNode u n).Spreading P msgs := by
  have hholds : ∀ {v m'}, m' ∈ msgs → s.Holds P v m' → (s.setNode u n).Holds P v m' :=
    fun hm' hheld => (holds_setNode hr h.within hm hn hm').2 (.inl hheld)
  refine ⟨fun v => ?_, fun e he => ?_, fun c t hc cmd hcmd => ?_, fun c f hf => ?_, fun v => ?_,
    fun v e he => ?_⟩
  · rw [node_setNode]
    split_ifs
    · rw [hn]
      exact (h.within u).insert hr hm
    · exact h.within v
  · obtain ⟨m', hm', heq, hheld⟩ := h.pending e he
    exact ⟨m', hm', heq, hholds hm' hheld⟩
  · obtain ⟨m', hm', heq, hheld⟩ := h.told c t hc cmd hcmd
    exact ⟨m', hm', heq, hholds hm' hheld⟩
  · obtain ⟨v, w, hends, stage, m', hm', heq, hheld⟩ := h.carried c f hf
    exact ⟨v, w, hends, stage, m', hm', heq, hheld.imp_right (hholds hm')⟩
  · rw [node_setNode]
    split_ifs
    · rcases hdelivered with hsame | ⟨hnew, peer, hmore⟩
      · rw [hsame]
        exact h.nodup u
      · rw [hmore, List.map_append, List.map_singleton, ← List.concat_eq_append,
          List.nodup_concat]
        refine ⟨fun hmem => ?_, h.nodup u⟩
        obtain ⟨e, he, hem⟩ := List.mem_map.1 hmem
        have hheld := (h.delivered u e he).2
        rw [show e.2 = m from hem] at hheld
        exact hnew hheld
    · exact h.nodup v
  · rw [node_setNode] at he
    split_ifs at he with hv
    · have hold : e ∈ (s.node u).delivered ∨ e.2 = m := by
        rcases hdelivered with hsame | ⟨-, peer, hmore⟩
        · exact .inl (hsame ▸ he)
        · rw [hmore, List.mem_append, List.mem_singleton] at he
          exact he.imp_right fun heq => by rw [heq]
      rcases hold with hold | hnew
      · obtain ⟨hmem, hheld⟩ := h.delivered u e hold
        exact ⟨hmem, hv ▸ hholds hmem hheld⟩
      · rw [hnew]
        exact ⟨hm, (holds_setNode hr h.within hm hn hm).2 (.inr ⟨hv, rfl⟩)⟩
    · obtain ⟨hmem, hheld⟩ := h.delivered v e he
      exact ⟨hmem, hholds hmem hheld⟩

/-! ### One action -/

/-- A frame that is read is answered, or it is a message that the node does not hold. -/
theorem Spreading.read_cases (h : s.Spreading P msgs) (hr : Readable P msgs)
    (hstep : s.step P (.read c) = some s') :
    ∃ t rest stage m, s.session c = some t ∧ m ∈ msgs ∧ s.inbox c = frameFor P m stage :: rest
      ∧ (stage = .want ∨ s.Holds P t.peer m)
      ∧ (s' = (s.setInbox c rest).send c.other ((s.node t.owner).answers (frameFor P m stage))
          ∧ (stage = .payload → s.Holds P t.owner m)
        ∨ stage = .payload ∧ ¬ s.Holds P t.owner m
          ∧ s' = ((s.setNode t.owner ((s.node t.owner).deliver t.peer
            ⟨messageId P m, encodeMesh m⟩ m)).setInbox c rest).tellAll
              (((s.node t.owner).fanout t.peer).map fun c => (c, .inv ⟨[messageId P m]⟩))) := by
  obtain ⟨t, f, rest, hc, hin, hcases⟩ := step_read hstep
  obtain ⟨u, v, hends, stage, m, hm, rfl, hheld⟩ := h.carried c f (hin ▸ List.mem_cons_self)
  rw [ends_of_session hc, Option.some.injEq, Prod.mk.injEq] at hends
  refine ⟨t, rest, stage, m, hc, hm, hin, hends.2.symm ▸ hheld, ?_⟩
  rcases hcases with ⟨heq, hnot⟩ | ⟨p, msg, htakes, heq⟩
  · refine .inl ⟨heq, fun hstage => not_not.1 fun hnew => ?_⟩
    exact hnot _ _ ((P2pNode.takes_iff (h.within _) hr hm).2 ⟨hstage, rfl, rfl, hnew⟩)
  · obtain ⟨hstage, rfl, rfl, hnew⟩ := (P2pNode.takes_iff (h.within _) hr hm).1 htakes
    exact .inr ⟨hstage, hnew, heq⟩

/-- An answer asks for a message or brings one that is held. -/
theorem Spreading.mem_answers (h : s.Spreading P msgs) (hr : Readable P msgs) (hm : m ∈ msgs)
    {stage : Stage} {f : Frame} (hf : f ∈ (s.node u).answers (frameFor P m stage)) :
    ∃ stage', f = frameFor P m stage' ∧ (stage' = .want ∨ s.Holds P u m) := by
  cases stage with
  | inv =>
    rw [P2pNode.answers_inv (h.within u) hr hm] at hf
    split_ifs at hf
    · cases hf
    · exact ⟨.want, List.mem_singleton.1 hf, .inl rfl⟩
  | want =>
    rw [P2pNode.answers_want (h.within u) hr hm] at hf
    split_ifs at hf with hheld
    · exact ⟨.payload, List.mem_singleton.1 hf, .inr hheld⟩
    · cases hf
  | payload => cases hf

/-- A session that the node has told of a message is one of the node's. -/
theorem Linked.ends_of_fanout (hl : s.Linked) {peer : Address}
    (hc : c ∈ (s.node u).fanout peer) : ∃ v, s.ends c = some (u, v) := by
  obtain ⟨⟨v, d⟩, he, rfl⟩ := List.mem_map.1 hc
  refine ⟨v, hl.current u v d ?_⟩
  exact AList.mem_lookup_iff.2 (List.mem_filter.1 he).1

theorem Linked.ends_of_broadcastTo (hl : s.Linked) (hc : c ∈ (s.node u).broadcastTo) :
    ∃ v, s.ends c = some (u, v) := by
  obtain ⟨peer, -, hlookup⟩ := List.mem_filterMap.1 hc
  exact ⟨peer.id, hl.current u peer.id c hlookup⟩

theorem Spreading.step (h : s.Spreading P msgs) (hl : s.Linked) (hr : Readable P msgs)
    {a : Action} (ha : a.Traffic msgs) (hstep : s.step P a = some s') :
    s'.Spreading P msgs ∧ Alike s s' := by
  cases a with
  | announce u m =>
    cases hstep
    have hfile := h.file (u := u) hr ha
      (n := { s.node u with gossip := ((s.node u).gossip.announce P m).1 }) rfl (.inl rfl)
    have halike : Alike s (s.setNode u { s.node u with
      gossip := ((s.node u).gossip.announce P m).1 }) := Alike.setNode rfl rfl rfl
    refine ⟨⟨hfile.within, fun e he => ?_, hfile.told, hfile.carried, hfile.nodup,
      hfile.delivered⟩, ⟨halike.sessions, halike.targets, rfl⟩⟩
    rcases List.mem_append.1 he with hold | hnew
    · exact hfile.pending e hold
    · rw [List.mem_singleton.1 hnew]
      obtain ⟨k, hk⟩ := Nat.exists_eq_succ_of_ne_zero (h.within u).offers.ne'
      refine ⟨m, ha, ?_, (holds_setNode hr h.within ha rfl ha).2 (.inr ⟨rfl, rfl⟩)⟩
      change (⟨[messageId P m].take (s.node u).gossip.maxInv⟩ : GossipInventory) = _
      rw [hk, List.take_succ_cons, List.take_nil]
  | flood i =>
    obtain ⟨u, inv, hi, rfl⟩ := step_flood hstep
    obtain ⟨m, hm, hinv, hheld⟩ := h.pending _ (List.mem_of_getElem? hi)
    have hrest : Spreading P msgs { s with announced := s.announced.eraseIdx i } :=
      ⟨h.within, fun e he => h.pending e (List.mem_of_mem_eraseIdx he), h.told, h.carried, h.nodup,
        h.delivered⟩
    refine ⟨hrest.tellAll fun e he => ?_, ⟨fun v => ?_, fun v => ?_, ?_⟩⟩
    · obtain ⟨c, hc, rfl⟩ := List.mem_map.1 he
      obtain ⟨v, hends⟩ := hl.ends_of_broadcastTo hc
      exact ⟨u, v, hends, m, hm, congrArg _ hinv, hheld⟩
    · rw [node_tellAll]
    · rw [node_tellAll]
    · rw [ends_tellAll]
      rfl
  | write c =>
    obtain ⟨t, cmd, rx, hc, hrx, rfl⟩ := step_write hstep
    have hends : (s.setSession c (some { t with rx := rx })).ends = s.ends := by
      funext d
      rw [ends, session_setSession, ends]
      split_ifs with hd
      · rw [hd, hc]
        rfl
      · rfl
    have htold := h.told c t hc
    rw [hrx] at htold
    obtain ⟨m, hm, rfl, hheld⟩ := htold cmd List.mem_cons_self
    have hpop : (s.setSession c (some { t with rx := rx })).Spreading P msgs := by
      refine ⟨h.within, h.pending, fun d t' hd => ?_, ?_, h.nodup, h.delivered⟩
      · rw [session_setSession] at hd
        split_ifs at hd
        · cases hd
          exact fun cmd hcmd => htold cmd (List.mem_cons_of_mem _ hcmd)
        · exact h.told d t' hd
      · rw [hends]
        exact h.carried
    refine ⟨hpop.send fun f hf => ?_, ⟨fun _ => rfl, fun _ => rfl, hends⟩⟩
    refine ⟨t.peer, t.owner, ?_, .inv, m, hm, (mem_writeFrame.1 hf).1, .inr hheld⟩
    rw [hends]
    exact hl.joined c _ _ (ends_of_session hc)
  | read c =>
    obtain ⟨t, rest, stage, m, hc, hm, hin, hpeer, hcases⟩ := h.read_cases hr hstep
    have hother := hl.joined c _ _ (ends_of_session hc)
    have hrest : ∀ f ∈ rest, f ∈ s.inbox c := by
      rw [hin]
      exact fun f hf => List.mem_cons_of_mem _ hf
    rcases hcases with ⟨rfl, -⟩ | ⟨-, hnew, rfl⟩
    · refine ⟨(h.setInbox hrest).send fun f hf => ?_, ⟨fun _ => rfl, fun _ => rfl, rfl⟩⟩
      obtain ⟨stage', rfl, hheld⟩ := h.mem_answers hr hm hf
      exact ⟨_, _, hother, stage', m, hm, rfl, hheld⟩
    · have hfile := h.file (u := t.owner) hr hm (n := (s.node t.owner).deliver t.peer
        ⟨messageId P m, encodeMesh m⟩ m) rfl (.inr ⟨hnew, t.peer, rfl⟩)
      refine ⟨(hfile.setInbox hrest).tellAll fun e he => ?_, ?_⟩
      · obtain ⟨d, hd, rfl⟩ := List.mem_map.1 he
        obtain ⟨v, hends⟩ := hl.ends_of_fanout hd
        exact ⟨t.owner, v, hends, m, hm, rfl,
          (holds_setNode hr h.within hm rfl hm).2 (.inr ⟨rfl, rfl⟩)⟩
      · have halike : Alike s (s.setNode t.owner ((s.node t.owner).deliver t.peer
            ⟨messageId P m, encodeMesh m⟩ m)) := Alike.setNode rfl rfl rfl
        refine ⟨fun v => ?_, fun v => ?_, ?_⟩
        · rw [node_tellAll]
          exact halike.sessions v
        · rw [node_tellAll]
          exact halike.targets v
        · rw [ends_tellAll]
          exact halike.ends
  | spawn c owner peer => exact ha.elim
  | close c => exact ha.elim
  | take u =>
    cases hstep
    have hnode : ∀ v, (((s.setNode u (s.node u).takeDeliveredFrom.1).node v).gossip
          = (s.node v).gossip)
        ∧ ((s.setNode u (s.node u).takeDeliveredFrom.1).node v).delivered
          = (s.node v).delivered := by
      intro v
      rw [node_setNode]
      split_ifs with hv
      · rw [hv]
        exact ⟨rfl, rfl⟩
      · exact ⟨rfl, rfl⟩
    refine ⟨⟨?_, ?_, ?_, ?_, ?_, ?_⟩, Alike.setNode rfl rfl rfl⟩
    · simpa only [hnode] using h.within
    · simpa only [Holds, hnode, announced_setNode] using h.pending
    · simpa only [Holds, hnode, session_setNode] using h.told
    · simpa only [Holds, hnode, inbox_setNode, ends_setNode] using h.carried
    · simpa only [hnode] using h.nodup
    · simpa only [Holds, hnode] using h.delivered

/-- Behind a run messages spread as before, between the same sessions. -/
theorem Spreading.run (hr : Readable P msgs) : ∀ {acts : List Action} {s s' : Net},
    s.Spreading P msgs → s.Linked → (∀ a ∈ acts, a.Traffic msgs) → s.run P acts = some s' →
      s'.Spreading P msgs ∧ Alike s s'
  | [], s, s', hs, _, _, hrun => by
    cases hrun
    exact ⟨hs, fun _ => rfl, fun _ => rfl, rfl⟩
  | a :: acts, s, s', hs, hl, hacts, hrun => by
    obtain ⟨s₁, hfirst, hrest⟩ := run_cons hrun
    obtain ⟨hs₁, halike⟩ := hs.step hl hr (hacts a List.mem_cons_self) hfirst
    obtain ⟨hs', halike'⟩ := Spreading.run hr hs₁ (halike.linked hl)
      (fun b hb => hacts b (List.mem_cons_of_mem _ hb)) hrest
    exact ⟨hs', halike.trans halike'⟩

end Net

end KronMesh.Gossip
