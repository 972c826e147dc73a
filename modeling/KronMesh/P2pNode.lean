import KronMesh.GossipStore
import KronMesh.MeshSync
import KronMesh.Routing

/-!
# Nodes that gossip

Every node has a store, a routing table and a session thread at its end of each connection. A thread
writes what the other threads of its node have told it to write, and answers the frames that come
in; a new message goes into the queue of what was delivered and its id to all other sessions. One
action is what one thread does under its locks, and any thread may go next. Connections keep their
order and lose nothing as long as both ends are there.
-/

namespace KronMesh.Gossip

open Wire Handshake Routing

def kindInv : UInt8 := 10

def kindWant : UInt8 := 11

def kindPayload : UInt8 := 12

def kindPing : UInt8 := 13

def kindPong : UInt8 := 14

def GossipWant.encode (w : GossipWant) : Bytes := GossipInventory.encode ⟨w.ids⟩

def GossipWant.decode (bytes : Bytes) : Except (Fault NetworkError) GossipWant := do
  let inv ← GossipInventory.decode bytes
  return ⟨inv.ids⟩

/-- What a session thread is told to write. -/
inductive SessionCmd
  | inv (inv : GossipInventory)
  | want (want : GossipWant)
  | payload (payload : GossipPayload)
  | ping

/-- `let _ = session.write_frame(kind, payload)`: a frame that is too long is not written. -/
def writeFrame (kind : UInt8) (payload : Bytes) : List Frame :=
  if maxFrame < payload.length then [] else [⟨kind, payload⟩]

def SessionCmd.frames : SessionCmd → List Frame
  | .inv i => writeFrame kindInv i.encode
  | .want w => writeFrame kindWant w.encode
  | .payload p => writeFrame kindPayload p.encode
  | .ping => writeFrame kindPing []

/-- An end of a connection: the one that connected, or the one that was connected to. -/
structure ConnEnd where
  conn : ℕ
  initiator : Bool
  deriving DecidableEq

def ConnEnd.other (c : ConnEnd) : ConnEnd := { c with initiator := !c.initiator }

/-- `delivered` is all that was ever pushed there, of which `taken` entries have been taken out. -/
structure P2pNode where
  role : PeerRole
  table : RoutingTable
  gossip : GossipEngine
  sessions : AList fun _ : Address => ConnEnd
  delivered : List (Address × MeshMessage)
  taken : ℕ

/-- A session thread: whose it is, which peer has proven to be at the other end, and what its
channel holds. -/
structure Session where
  owner : Address
  peer : Address
  rx : List SessionCmd

namespace P2pNode

def bind (localId : Address) (role : PeerRole) : P2pNode where
  role := role
  table := RoutingTable.new localId role
  gossip := GossipEngine.forRole role
  sessions := ∅
  delivered := []
  taken := 0

def takeDeliveredFrom (n : P2pNode) : P2pNode × List (Address × MeshMessage) :=
  ({ n with taken := n.delivered.length }, n.delivered.drop n.taken)

/-- The sessions of the peers that `broadcast` sends to. -/
def broadcastTo (n : P2pNode) : List ConnEnd :=
  (n.table.gossipTargets n.role).filterMap fun peer => n.sessions.lookup peer.id

/-- The sessions that hear of a message that `peer` has sent. -/
def fanout (n : P2pNode) (peer : Address) : List ConnEnd :=
  (n.sessions.entries.filter fun e => e.1 ≠ peer).map fun e => e.2

/-- What a session does with a frame of its peer: the node behind it, the frames that it answers,
and what it tells other sessions. The store stays locked until they have been told. -/
def onFrame (P : Primitives) (n : P2pNode) (peer : Address) (frame : Frame) :
    P2pNode × List Frame × List (ConnEnd × SessionCmd) :=
  if frame.kind = kindInv then
    match GossipInventory.decode frame.payload with
    | .ok inv =>
      let want := n.gossip.onInventory inv
      (n, if want.ids ≠ [] then writeFrame kindWant want.encode else [], [])
    | .error _ => (n, [], [])
  else if frame.kind = kindWant then
    match GossipWant.decode frame.payload with
    | .ok want =>
      (n, (n.gossip.onWant want).flatMap fun p => writeFrame kindPayload p.encode, [])
    | .error _ => (n, [], [])
  else if frame.kind = kindPayload then
    match GossipPayload.decode frame.payload with
    | .ok p =>
      match n.gossip.onPayload P p with
      | (gossip, .ok (some msg)) =>
        ({ n with gossip := gossip, delivered := n.delivered ++ [(peer, msg)] }, [],
          (n.fanout peer).map fun c => (c, .inv ⟨[p.id]⟩))
      | (gossip, _) => ({ n with gossip := gossip }, [], [])
    | .error _ => (n, [], [])
  else if frame.kind = kindPing then (n, writeFrame kindPong [], [])
  else (n, [], [])

end P2pNode

/-- All nodes by their ids, the session threads, the frames under way to each end, and what has been
announced and is not sent to the sessions yet. -/
structure Net where
  node : Address → P2pNode
  session : ConnEnd → Option Session
  inbox : ConnEnd → List Frame
  announced : List (Address × GossipInventory)

/-- What a thread does. -/
inductive Action
  /-- `broadcast`, up to the inventory -/
  | announce (u : Address) (msg : MeshMessage)
  /-- the rest of a `broadcast`; it locks the table and then the sessions, here both at once -/
  | flood (i : ℕ)
  /-- a session thread takes a command out of its channel -/
  | write (c : ConnEnd)
  /-- a session thread reads a frame -/
  | read (c : ConnEnd)
  /-- a handshake has shown this peer: it is put into the table, and a session thread begins; the
  end connected to has then read a first frame -/
  | spawn (c : ConnEnd) (owner : Address) (peer : Peer)
  /-- a session thread ends -/
  | close (c : ConnEnd)
  | take (u : Address)

namespace Net

def init (role : Address → PeerRole) : Net where
  node id := P2pNode.bind id (role id)
  session _ := none
  inbox _ := []
  announced := []

def setNode (s : Net) (u : Address) (n : P2pNode) : Net :=
  { s with node := Function.update s.node u n }

def setSession (s : Net) (c : ConnEnd) (t : Option Session) : Net :=
  { s with session := Function.update s.session c t }

def setInbox (s : Net) (c : ConnEnd) (frames : List Frame) : Net :=
  { s with inbox := Function.update s.inbox c frames }

/-- `let _ = tx.send(cmd)`: a thread that has ended hears nothing. -/
def tell (s : Net) (c : ConnEnd) (cmd : SessionCmd) : Net :=
  match s.session c with
  | some t => s.setSession c (some { t with rx := t.rx ++ [cmd] })
  | none => s

def tellAll (s : Net) (told : List (ConnEnd × SessionCmd)) : Net :=
  told.foldl (fun s e => s.tell e.1 e.2) s

def send (s : Net) (c : ConnEnd) (frames : List Frame) : Net :=
  s.setInbox c (s.inbox c ++ frames)

/-- The thread of an end begins; it has taken the place of another one of this peer. -/
def begin (s : Net) (c : ConnEnd) (owner peer : Address) : Net :=
  let n := s.node owner
  (s.setNode owner { n with sessions := n.sessions.insert peer c }).setSession c
    (some ⟨owner, peer, []⟩)

variable (P : Primitives)

/-- What an action leaves, when it can be taken. A session writes all that it has been told before
it reads a frame; here it may also read before. -/
def step (s : Net) : Action → Option Net
  | .announce u msg =>
    let n := s.node u
    let (gossip, inv) := n.gossip.announce P msg
    let s := s.setNode u { n with gossip := gossip }
    some { s with announced := s.announced ++ [(u, inv)] }
  | .flood i =>
    match s.announced[i]? with
    | some (u, inv) =>
      let s := { s with announced := s.announced.eraseIdx i }
      some (s.tellAll ((s.node u).broadcastTo.map fun c => (c, .inv inv)))
    | none => none
  | .write c =>
    match s.session c with
    | some ⟨owner, peer, cmd :: rx⟩ =>
      some ((s.setSession c (some ⟨owner, peer, rx⟩)).send c.other cmd.frames)
    | _ => none
  | .read c =>
    match s.session c, s.inbox c with
    | some t, frame :: rest =>
      let (n, replies, told) := (s.node t.owner).onFrame P t.peer frame
      some ((((s.setNode t.owner n).setInbox c rest).send c.other replies).tellAll told)
    | _, _ => none
  | .spawn c owner peer =>
    if (s.session c).isSome then none
    else
      let n := s.node owner
      let (table, r) := n.table.insert peer
      let s := s.setNode owner { n with table := table }
      if c.initiator then
        match r with
        | .ok () => some (s.begin c owner peer.id)
        | .error _ => some s
      else
        -- the end connected to waits for a first frame, and without one, or with one of mesh sync,
        -- no session begins
        match s.inbox c with
        | frame :: _ => if frame.kind = kindMesh then some s else some (s.begin c owner peer.id)
        | [] => some s
  | .close c =>
    match s.session c with
    | some t =>
      let n := s.node t.owner
      some (((s.setNode t.owner { n with sessions := n.sessions.erase t.peer }).setSession c
        none).setInbox c [])
    | none => none
  | .take u => some (s.setNode u (s.node u).takeDeliveredFrom.1)

def run (s : Net) : List Action → Option Net
  | [] => some s
  | a :: acts => (s.step P a).bind fun s => s.run acts

/-! ## What an action leaves -/

variable {P} {s s' : Net}

@[simp] theorem other_other (c : ConnEnd) : c.other.other = c := by
  obtain ⟨_, i⟩ := c
  cases i <;> rfl

@[simp] theorem other_ne (c : ConnEnd) : c.other ≠ c := by
  obtain ⟨_, i⟩ := c
  cases i <;> simp [ConnEnd.other]

@[simp] theorem session_setNode (s : Net) (u : Address) (n : P2pNode) :
    (s.setNode u n).session = s.session := rfl

@[simp] theorem inbox_setNode (s : Net) (u : Address) (n : P2pNode) :
    (s.setNode u n).inbox = s.inbox := rfl

@[simp] theorem announced_setNode (s : Net) (u : Address) (n : P2pNode) :
    (s.setNode u n).announced = s.announced := rfl

@[simp] theorem node_setSession (s : Net) (c : ConnEnd) (t : Option Session) :
    (s.setSession c t).node = s.node := rfl

@[simp] theorem inbox_setSession (s : Net) (c : ConnEnd) (t : Option Session) :
    (s.setSession c t).inbox = s.inbox := rfl

@[simp] theorem announced_setSession (s : Net) (c : ConnEnd) (t : Option Session) :
    (s.setSession c t).announced = s.announced := rfl

@[simp] theorem node_setInbox (s : Net) (c : ConnEnd) (fs : List Frame) :
    (s.setInbox c fs).node = s.node := rfl

@[simp] theorem session_setInbox (s : Net) (c : ConnEnd) (fs : List Frame) :
    (s.setInbox c fs).session = s.session := rfl

@[simp] theorem announced_setInbox (s : Net) (c : ConnEnd) (fs : List Frame) :
    (s.setInbox c fs).announced = s.announced := rfl

@[simp] theorem node_send (s : Net) (c : ConnEnd) (fs : List Frame) :
    (s.send c fs).node = s.node := rfl

@[simp] theorem session_send (s : Net) (c : ConnEnd) (fs : List Frame) :
    (s.send c fs).session = s.session := rfl

@[simp] theorem announced_send (s : Net) (c : ConnEnd) (fs : List Frame) :
    (s.send c fs).announced = s.announced := rfl

theorem node_setNode (s : Net) (u v : Address) (n : P2pNode) :
    (s.setNode u n).node v = if v = u then n else s.node v := Function.update_apply ..

theorem session_setSession (s : Net) (c d : ConnEnd) (t : Option Session) :
    (s.setSession c t).session d = if d = c then t else s.session d := Function.update_apply ..

theorem inbox_setInbox (s : Net) (c d : ConnEnd) (fs : List Frame) :
    (s.setInbox c fs).inbox d = if d = c then fs else s.inbox d := Function.update_apply ..

theorem inbox_send (s : Net) (c d : ConnEnd) (fs : List Frame) :
    (s.send c fs).inbox d = s.inbox d ++ if d = c then fs else [] := by
  rw [send, inbox_setInbox]
  split_ifs with h
  · rw [h]
  · rw [List.append_nil]

/-- What is told to one session. -/
def toldTo (c : ConnEnd) (told : List (ConnEnd × SessionCmd)) : List SessionCmd :=
  (told.filter fun e => e.1 = c).map Prod.snd

theorem tell_spec (s : Net) (c : ConnEnd) (cmd : SessionCmd) : ∃ session, s.tell c cmd
    = { s with session := session } ∧ ∀ d, session d
      = (s.session d).map fun t => { t with rx := t.rx ++ toldTo d [(c, cmd)] } := by
  rcases h : s.session c with _ | t
  · refine ⟨s.session, by rw [tell, h], fun d => ?_⟩
    by_cases hd : d = c
    · rw [hd, h]
      rfl
    · have hnot : toldTo d [(c, cmd)] = [] := by simp [toldTo, Ne.symm hd]
      simp [hnot]
  · refine ⟨_, by rw [tell, h]; rfl, fun d => ?_⟩
    rw [Function.update_apply]
    split_ifs with hd
    · subst hd
      simp [h, toldTo]
    · have hnot : toldTo d [(c, cmd)] = [] := by simp [toldTo, Ne.symm hd]
      simp [hnot]

/-- Who is told something has it at the end of the channel; nothing else changes. -/
theorem tellAll_spec : ∀ (told : List (ConnEnd × SessionCmd)) (s : Net), ∃ session,
    s.tellAll told = { s with session := session } ∧ ∀ d, session d
      = (s.session d).map fun t => { t with rx := t.rx ++ toldTo d told }
  | [], s => ⟨s.session, rfl, fun d => by simp [toldTo]⟩
  | (c, cmd) :: told, s => by
    obtain ⟨session, htell, hsession⟩ := tell_spec s c cmd
    obtain ⟨session', hall, hsession'⟩ := tellAll_spec told { s with session := session }
    refine ⟨session', ?_, fun d => ?_⟩
    · rw [tellAll, List.foldl_cons, htell]
      exact hall
    · rw [hsession' d]
      change (session d).map _ = _
      rw [hsession d, Option.map_map]
      refine congrArg (fun f => (s.session d).map f) (funext fun t => ?_)
      simp only [Function.comp_apply, List.append_assoc, toldTo, List.filter_cons, List.filter_nil]
      split_ifs <;> rfl

@[simp] theorem node_tellAll (s : Net) (told : List (ConnEnd × SessionCmd)) :
    (s.tellAll told).node = s.node := by
  obtain ⟨_, h, -⟩ := tellAll_spec told s
  rw [h]

@[simp] theorem inbox_tellAll (s : Net) (told : List (ConnEnd × SessionCmd)) :
    (s.tellAll told).inbox = s.inbox := by
  obtain ⟨_, h, -⟩ := tellAll_spec told s
  rw [h]

@[simp] theorem announced_tellAll (s : Net) (told : List (ConnEnd × SessionCmd)) :
    (s.tellAll told).announced = s.announced := by
  obtain ⟨_, h, -⟩ := tellAll_spec told s
  rw [h]

theorem session_tellAll (s : Net) (told : List (ConnEnd × SessionCmd)) (d : ConnEnd) :
    (s.tellAll told).session d
      = (s.session d).map fun t => { t with rx := t.rx ++ toldTo d told } := by
  obtain ⟨_, h, hsession⟩ := tellAll_spec told s
  rw [h]
  exact hsession d

end Net

/-! ## Frames -/

theorem length_encode_payload (p : GossipPayload) : p.encode.length = 36 + p.body.length := by
  rw [GossipPayload.encode, List.length_append, length_hashBytes, putBytes, List.length_append,
    length_leBytes]
  omega

theorem decode_of_fits {p : GossipPayload} (h : p.encode.length ≤ maxFrame) :
    GossipPayload.decode p.encode = .ok p := by
  refine GossipPayload.decode_encode ?_
  rw [length_encode_payload, maxFrame] at h
  omega

theorem mem_writeFrame {kind : UInt8} {payload : Bytes} {f : Frame} :
    f ∈ writeFrame kind payload ↔ f = ⟨kind, payload⟩ ∧ payload.length ≤ maxFrame := by
  unfold writeFrame
  split_ifs with h
  · exact iff_of_false List.not_mem_nil fun hf => absurd hf.2 (Nat.not_le.2 h)
  · rw [List.mem_singleton]
    exact ⟨fun hf => ⟨hf, Nat.not_lt.1 h⟩, And.left⟩

namespace P2pNode

variable {P : Primitives} {n : P2pNode} {peer : Address} {frame : Frame}

/-- The frames that are written on the spot. -/
def answers (n : P2pNode) (frame : Frame) : List Frame :=
  if frame.kind = kindInv then
    match GossipInventory.decode frame.payload with
    | .ok inv =>
      if (n.gossip.onInventory inv).ids ≠ [] then
        writeFrame kindWant (n.gossip.onInventory inv).encode
      else []
    | .error _ => []
  else if frame.kind = kindWant then
    match GossipWant.decode frame.payload with
    | .ok want => (n.gossip.onWant want).flatMap fun p => writeFrame kindPayload p.encode
    | .error _ => []
  else if frame.kind = kindPing then writeFrame kindPong []
  else []

/-- A body that is answered is one that is held. -/
theorem mem_answers {f' : Frame} (h : f' ∈ n.answers frame) : f'.kind ≠ kindPayload
    ∨ ∃ p : GossipPayload, f' = ⟨kindPayload, p.encode⟩ ∧ p.encode.length ≤ maxFrame
      ∧ n.gossip.store.lookup p.id = some p.body := by
  unfold answers at h
  split_ifs at h with hinv hwant hping
  · split at h
    · split_ifs at h
      · refine .inl ?_
        rw [(mem_writeFrame.1 h).1]
        exact show kindWant ≠ kindPayload by decide
      · cases h
    · cases h
  · split at h
    · next want _ =>
      obtain ⟨p, hp, hf⟩ := List.mem_flatMap.1 h
      obtain ⟨hf, hlen⟩ := mem_writeFrame.1 hf
      obtain ⟨id, -, hid⟩ := List.mem_filterMap.1 hp
      obtain ⟨body, hbody, rfl⟩ := Option.map_eq_some_iff.1 hid
      exact .inr ⟨_, hf, hlen, hbody⟩
    · cases h
  · refine .inl ?_
    rw [(mem_writeFrame.1 h).1]
    exact show kindPong ≠ kindPayload by decide
  · cases h

/-- The frame brings a body that is what it says, is read and is new. -/
structure Takes (P : Primitives) (n : P2pNode) (frame : Frame) (p : GossipPayload)
    (msg : MeshMessage) : Prop where
  kind : frame.kind = kindPayload
  decode : GossipPayload.decode frame.payload = .ok p
  hash : P.sha256 p.body = p.id
  read : decodeMesh P p.body = .ok msg
  new : p.id ∉ n.gossip.store

/-- The node behind a message that `peer` has sent. -/
def deliver (n : P2pNode) (peer : Address) (p : GossipPayload) (msg : MeshMessage) : P2pNode :=
  { n with
    gossip := n.gossip.insert p.id p.body
    delivered := n.delivered ++ [(peer, msg)] }

/-- What is taken comes out of the store as a new message. -/
theorem Takes.onPayload {p : GossipPayload} {msg : MeshMessage} (h : n.Takes P frame p msg) :
    n.gossip.onPayload P p = (n.gossip.insert p.id p.body, .ok (some msg)) := by
  unfold GossipEngine.onPayload
  rw [if_neg (not_not.2 h.hash), if_neg h.new, h.read]
  rfl

/-- A frame is answered and leaves the node alone, or it brings a new message, which is filed, is
delivered, and is told to the other sessions. -/
theorem onFrame_cases (P : Primitives) (n : P2pNode) (peer : Address) (frame : Frame) :
    n.onFrame P peer frame = (n, n.answers frame, []) ∧ (∀ p msg, ¬ n.Takes P frame p msg)
      ∨ ∃ p msg, n.Takes P frame p msg ∧ n.onFrame P peer frame
        = (n.deliver peer p msg, [], (n.fanout peer).map fun c => (c, .inv ⟨[p.id]⟩)) := by
  by_cases htakes : ∃ p msg, n.Takes P frame p msg
  · obtain ⟨p, msg, h⟩ := htakes
    refine .inr ⟨p, msg, h, ?_⟩
    have hinv : frame.kind ≠ kindInv := h.kind ▸ show kindPayload ≠ kindInv by decide
    have hwant : frame.kind ≠ kindWant := h.kind ▸ show kindPayload ≠ kindWant by decide
    unfold onFrame
    rw [if_neg hinv, if_neg hwant, if_pos h.kind]
    simp only [h.decode, h.onPayload]
    rfl
  refine .inl ⟨?_, fun p msg h => htakes ⟨p, msg, h⟩⟩
  unfold onFrame answers
  by_cases hinv : frame.kind = kindInv
  · rw [if_pos hinv, if_pos hinv]
    cases GossipInventory.decode frame.payload <;> rfl
  by_cases hwant : frame.kind = kindWant
  · rw [if_neg hinv, if_neg hinv, if_pos hwant, if_pos hwant]
    cases GossipWant.decode frame.payload <;> rfl
  by_cases hpay : frame.kind = kindPayload
  · have hping : frame.kind ≠ kindPing := hpay ▸ show kindPayload ≠ kindPing by decide
    rw [if_neg hinv, if_neg hwant, if_pos hpay, if_neg hinv, if_neg hwant, if_neg hping]
    rcases hdec : GossipPayload.decode frame.payload with e | p
    · rfl
    rcases GossipEngine.onPayload_cases P n.gossip p with ⟨hsame, hnone⟩ | ⟨msg, -, hhash, hread,
      hnew⟩
    · rcases hres : n.gossip.onPayload P p with ⟨gossip, e | (_ | msg)⟩
      · rw [hres] at hsame
        simp only [hres, show gossip = n.gossip from hsame]
      · rw [hres] at hsame
        simp only [hres, show gossip = n.gossip from hsame]
      · rw [hres] at hnone
        exact absurd rfl (hnone msg)
    · exact absurd ⟨p, msg, hpay, hdec, hhash, hread, hnew⟩ htakes
  · rw [if_neg hinv, if_neg hwant, if_neg hpay, if_neg hinv, if_neg hwant]
    split_ifs <;> rfl

end P2pNode

namespace Net

variable {P : Primitives} {s s' : Net} {c : ConnEnd} {u : Address} {msg : MeshMessage}

theorem setNode_self (s : Net) (u : Address) : s.setNode u (s.node u) = s := by
  rw [setNode, Function.update_eq_self]

theorem send_nil (s : Net) (c : ConnEnd) : s.send c [] = s := by
  rw [send, setInbox, List.append_nil, Function.update_eq_self]

theorem step_flood {i : ℕ} (h : s.step P (.flood i) = some s') :
    ∃ u inv, s.announced[i]? = some (u, inv)
      ∧ s' = { s with announced := s.announced.eraseIdx i }.tellAll
        ((s.node u).broadcastTo.map fun c => (c, .inv inv)) := by
  simp only [step] at h
  split at h
  · next u inv hi => exact ⟨u, inv, hi, (Option.some.inj h).symm⟩
  · cases h

theorem step_write (h : s.step P (.write c) = some s') :
    ∃ t cmd rx, s.session c = some t ∧ t.rx = cmd :: rx
      ∧ s' = (s.setSession c (some { t with rx := rx })).send c.other cmd.frames := by
  simp only [step] at h
  split at h
  · next owner peer cmd rx hc => exact ⟨_, cmd, rx, hc, rfl, (Option.some.inj h).symm⟩
  · cases h

/-- A frame that is read is answered, or it brings a new message. -/
theorem step_read (h : s.step P (.read c) = some s') :
    ∃ t frame rest, s.session c = some t ∧ s.inbox c = frame :: rest
      ∧ (s' = (s.setInbox c rest).send c.other ((s.node t.owner).answers frame)
          ∧ (∀ p msg, ¬ (s.node t.owner).Takes P frame p msg)
        ∨ ∃ p msg, (s.node t.owner).Takes P frame p msg
          ∧ s' = ((s.setNode t.owner ((s.node t.owner).deliver t.peer p msg)).setInbox c
            rest).tellAll (((s.node t.owner).fanout t.peer).map fun c => (c, .inv ⟨[p.id]⟩))) := by
  simp only [step] at h
  split at h
  · next t frame rest hc hin =>
    refine ⟨t, frame, rest, hc, hin, ?_⟩
    rcases (s.node t.owner).onFrame_cases P t.peer frame with ⟨hsame, hnot⟩ | ⟨p, msg, htakes,
      htaken⟩
    · refine .inl ⟨?_, hnot⟩
      rw [hsame] at h
      simp only [setNode_self] at h
      exact (Option.some.inj h).symm
    · refine .inr ⟨p, msg, htakes, ?_⟩
      rw [htaken] at h
      simp only [send_nil] at h
      exact (Option.some.inj h).symm
  · cases h

/-- A thread begins at a node whose table has been offered the peer, or only the table has. -/
theorem step_spawn {owner : Address} {peer : Peer} (h : s.step P (.spawn c owner peer) = some s') :
    ∃ table, s' = s.setNode owner { s.node owner with table := table }
      ∨ s' = (s.setNode owner { s.node owner with table := table }).begin c owner peer.id := by
  simp only [step] at h
  refine ⟨((s.node owner).table.insert peer).1, ?_⟩
  split at h
  · cases h
  · split at h
    · split at h
      · exact .inr (Option.some.inj h).symm
      · exact .inl (Option.some.inj h).symm
    · split at h
      · split at h
        · exact .inl (Option.some.inj h).symm
        · exact .inr (Option.some.inj h).symm
      · exact .inl (Option.some.inj h).symm

theorem step_close (h : s.step P (.close c) = some s') : ∃ t, s.session c = some t
    ∧ s' = ((s.setNode t.owner { s.node t.owner with
      sessions := (s.node t.owner).sessions.erase t.peer }).setSession c none).setInbox c [] := by
  simp only [step] at h
  split at h
  · next t hc => exact ⟨t, hc, (Option.some.inj h).symm⟩
  · cases h

theorem run_cons {a : Action} {acts : List Action} (h : s.run P (a :: acts) = some s') :
    ∃ s₁, s.step P a = some s₁ ∧ s₁.run P acts = some s' := Option.bind_eq_some_iff.1 h

/-- What holds at the beginning and is kept by the actions that are taken holds behind them. -/
theorem run_induction {Inv : Net → Prop} (ok : Action → Prop)
    (hstep : ∀ {s s' a}, ok a → Inv s → s.step P a = some s' → Inv s') :
    ∀ {acts : List Action} {s s' : Net}, (∀ a ∈ acts, ok a) → Inv s → s.run P acts = some s' →
      Inv s'
  | [], _, _, _, hs, h => Option.some.inj h ▸ hs
  | _ :: _, _, _, hok, hs, h => by
    obtain ⟨s₁, hfirst, hrest⟩ := run_cons h
    exact run_induction ok hstep (fun b hb => hok b (List.mem_cons_of_mem _ hb))
      (hstep (hok _ List.mem_cons_self) hs hfirst) hrest

end Net

end KronMesh.Gossip
