import KronMesh.Lib.Duplex
import KronMesh.MeshWire

/-!
# A round of mesh sync

Two nodes in lockstep: inventories, what each needs and has, the bodies, and an end on both sides.
Every node has a graph of its own, reached through `MeshGraph`. A round is a program that reads and
writes messages; on the wire a message is a frame. The channel is in order and loses nothing, so a
read waits for its frame and never times out.
-/

namespace KronMesh

open Wire

/-- What a round asks of a node's graph. The text of an ingest error is left out: none is read. -/
structure MeshGraph (γ : Type) where
  inventory : γ → SyncInventory
  contains : γ → TxHash → Bool
  ingest : γ → DagTransaction → γ × Except DagError Bool
  bodiesInOrder : γ → List TxHash → List DagTransaction
  applyInventory : γ → SyncInventory → γ
  needAndHave : γ → SyncInventory → List TxHash × List TxHash
  allowNewVertex : γ → γ × Bool

/-- One process-local graph. -/
def isolatedDag (P : Primitives) : MeshGraph KronDAG where
  inventory dag := SyncInventory.fromDag dag.toGraph 0
  contains dag id := dag.contains id
  ingest dag tx := dag.acceptWireVertex P tx
  bodiesInOrder dag ids := dag.transactionsForInOrder ids
  -- faucet maps are not on the wire and must not credit spendable balances
  applyInventory dag _ := dag
  needAndHave dag remote := computeDagDiff dag.toGraph remote
  allowNewVertex dag := (dag, true)

/-- A graph beside which every ingest is written down, with what it returned. -/
def MeshGraph.logged {γ : Type} (G : MeshGraph γ) :
    MeshGraph (γ × List (DagTransaction × Except DagError Bool)) where
  inventory g := G.inventory g.1
  contains g id := G.contains g.1 id
  ingest g tx :=
    let r := G.ingest g.1 tx
    ((r.1, g.2 ++ [(tx, r.2)]), r.2)
  bodiesInOrder g ids := G.bodiesInOrder g.1 ids
  applyInventory g inv := (G.applyInventory g.1 inv, g.2)
  needAndHave g remote := G.needAndHave g.1 remote
  allowNewVertex g :=
    let r := G.allowNewVertex g.1
    ((r.1, g.2), r.2)

/-! ## The programs -/

/-- What is left of a node's part in a round. -/
inductive MeshProc (γ : Type)
  | stop (r : Except (Fault NetworkError) Unit)
  | write (msg : MeshWireMessage) (k : MeshProc γ)
  | read (k : γ → MeshWireMessage → γ × MeshProc γ)
  /-- `recv_bodies_until_done(session, graph)?`, then `k`. -/
  | recvBodiesUntilDone (k : MeshProc γ)

namespace MeshProc

variable {γ : Type} (G : MeshGraph γ)

def badFrame : MeshProc γ := .stop (.error (.err .badFrame))

def writeBodies (txs : List DagTransaction) (k : MeshProc γ) : MeshProc γ :=
  txs.foldr (fun tx k => .write (.dagTransaction tx) k) k

/-- A turn of the loop that receives bodies. -/
def onBody (k : MeshProc γ) (g : γ) : MeshWireMessage → γ × MeshProc γ
  | .dagTransaction tx =>
    let (g, allowed) := G.allowNewVertex g
    if allowed then ((G.ingest g tx).1, .recvBodiesUntilDone k) else (g, .recvBodiesUntilDone k)
  | .needIds ids => (g, writeBodies (G.bodiesInOrder g ids) (.recvBodiesUntilDone k))
  | .haveIds ids =>
    let missing := ids.filter fun id => !G.contains g id
    (g, if missing ≠ [] then .write (.needIds missing) (.recvBodiesUntilDone k)
      else .recvBodiesUntilDone k)
  | .done => (g, k)
  | .ping => (g, .write .pong (.recvBodiesUntilDone k))
  | .pong => (g, .recvBodiesUntilDone k)
  | .hello _ _ => (g, badFrame)
  | .syncInventory _ => (g, badFrame)

/-! ### The connecting peer -/

def onTheirNeed (g : γ) : MeshWireMessage → γ × MeshProc γ
  | .needIds theirNeed =>
    (g, writeBodies (G.bodiesInOrder g theirNeed)
      (.write .done (.recvBodiesUntilDone (.stop (.ok ())))))
  | _ => (g, badFrame)

def onInventory (g : γ) : MeshWireMessage → γ × MeshProc γ
  | .syncInventory remote =>
    let g := G.applyInventory g remote
    let (need, have_) := G.needAndHave g remote
    (g, .write (.needIds need) (.write (.haveIds have_) (.read (onTheirNeed G))))
  | _ => (g, badFrame)

def onPong (g : γ) : MeshWireMessage → γ × MeshProc γ
  | .pong | .ping => (g, .write (.syncInventory (G.inventory g)) (.read (onInventory G)))
  | _ => (g, .stop (.error (.err (.handshake "expected mesh pong"))))

/-! ### The peer connected to -/

/-- `for id in their_have { if !contains(&id) && !need.contains(&id) { need.push(id) } }`. -/
def addHave (g : γ) (need : List TxHash) (id : TxHash) : List TxHash :=
  if G.contains g id = false ∧ need.contains id = false then need ++ [id] else need

def onTheirHave (remote : SyncInventory) (theirNeed : List TxHash) (g : γ) :
    MeshWireMessage → γ × MeshProc γ
  | .haveIds theirHave =>
    let need := theirHave.foldl (addHave G g) (G.needAndHave g remote).1
    (g, .write (.needIds need) (writeBodies (G.bodiesInOrder g theirNeed)
      (.recvBodiesUntilDone (.write .done (.stop (.ok ()))))))
  | _ => (g, badFrame)

def onNeedOf (remote : SyncInventory) (g : γ) : MeshWireMessage → γ × MeshProc γ
  | .needIds theirNeed => (g, .read (onTheirHave G remote theirNeed))
  | _ => (g, badFrame)

def onTheirInventory (g : γ) : MeshWireMessage → γ × MeshProc γ
  | .syncInventory remote =>
    let g := G.applyInventory g remote
    (g, .write (.syncInventory (G.inventory g)) (.read (onNeedOf G remote)))
  | _ => (g, badFrame)

def unexpectedAsInv (g : γ) : MeshWireMessage → γ × MeshProc γ
  | .syncInventory remote =>
    let g := G.applyInventory g remote
    (g, .write (.syncInventory (G.inventory g))
      (.write (.needIds (G.needAndHave g remote).1) (.recvBodiesUntilDone (.stop (.ok ())))))
  | _ => (g, badFrame)

def onPing (g : γ) : MeshWireMessage → γ × MeshProc γ
  | .ping => (g, .write .pong (.read (onTheirInventory G)))
  | other => unexpectedAsInv G g other

def runSyncRound (initiator : Bool) : MeshProc γ :=
  if initiator then .write .ping (.read (onPong G)) else .read (onPing G)

end MeshProc

/-! ## On the wire -/

def kindMesh : UInt8 := 20

/-- What a session hands over as one. -/
structure Frame where
  kind : UInt8
  payload : Bytes
  deriving DecidableEq

def writeMsg (msg : MeshWireMessage) : Except (Fault NetworkError) Frame :=
  let (kind, payload) := encodeWire msg
  let body := kind :: payload
  if maxFrame < body.length then .error (.err .badFrame) else .ok ⟨kindMesh, body⟩

def readMsg (P : Primitives) (frame : Frame) : Except (Fault NetworkError) MeshWireMessage :=
  match frame.payload with
  | [] => .error (.err .badFrame)
  | kind :: payload =>
    if frame.kind ≠ kindMesh then .error (.err .badFrame) else decodeWire P kind payload

/-- `read_msg(session)?`, then `k`. -/
def readThen {γ : Type} (P : Primitives) (g : γ) (k : γ → MeshWireMessage → γ × MeshProc γ)
    (frame : Frame) : γ × MeshProc γ :=
  match readMsg P frame with
  | .ok msg => k g msg
  | .error e => (g, .stop (.error e))

/-- What a node does next: with its graph, the part of the round that is left. -/
def meshAct {γ : Type} (P : Primitives) (G : MeshGraph γ) :
    γ × MeshProc γ → Duplex.Act (γ × MeshProc γ) Frame (Except (Fault NetworkError) Unit)
  | (_, .stop r) => .stop r
  | (g, .write msg k) =>
    match writeMsg msg with
    | .ok frame => .write frame (g, k)
    | .error e => .stop (.error e)
  | (g, .read k) => .read (readThen P g k)
  | (g, .recvBodiesUntilDone k) => .read (readThen P g (MeshProc.onBody G k))

/-- Two nodes at the beginning of a round, the left one the initiator. -/
def syncStart {γ : Type} (G : MeshGraph γ) (s r : γ) : Duplex.Config (γ × MeshProc γ) Frame :=
  ⟨(s, MeshProc.runSyncRound G true), (r, MeshProc.runSyncRound G false), [], []⟩

/-! ## Messages that can be read -/

section Moves

variable {γ : Type} {P : Primitives} {G : MeshGraph γ} {g : γ} {k : MeshProc γ}
  {msg : MeshWireMessage} {t : γ × MeshProc γ} {ins outs : List Frame}

def frameOf (msg : MeshWireMessage) : Frame := ⟨kindMesh, (encodeWire msg).1 :: (encodeWire msg).2⟩

theorem writeMsg_readable (h : msg.Readable P) : writeMsg msg = .ok (frameOf msg) := by
  have hlen : ¬ maxFrame < ((encodeWire msg).1 :: (encodeWire msg).2).length := by
    have hle := h.1
    have hmax : 0 < maxFrame := by decide
    rw [List.length_cons]
    omega
  exact if_neg hlen

theorem readThen_frameOf (h : msg.Readable P) (k : γ → MeshWireMessage → γ × MeshProc γ) :
    readThen P g k (frameOf msg) = k g msg := by
  have hread : readMsg P (frameOf msg) = .ok msg := h.2
  unfold readThen
  rw [hread]

theorem moves_write (h : msg.Readable P) (hrest : Duplex.Moves (meshAct P G) (g, k) ins outs t) :
    Duplex.Moves (meshAct P G) (g, .write msg k) ins (frameOf msg :: outs) t := by
  refine Duplex.Moves.write ?_ hrest
  simp only [meshAct, writeMsg_readable h]

theorem moves_read {k : γ → MeshWireMessage → γ × MeshProc γ} (h : msg.Readable P)
    (hrest : Duplex.Moves (meshAct P G) (k g msg) ins outs t) :
    Duplex.Moves (meshAct P G) (g, .read k) (frameOf msg :: ins) outs t := by
  refine Duplex.Moves.read rfl ?_
  rwa [readThen_frameOf h]

theorem moves_recv (h : msg.Readable P)
    (hrest : Duplex.Moves (meshAct P G) (MeshProc.onBody G k g msg) ins outs t) :
    Duplex.Moves (meshAct P G) (g, .recvBodiesUntilDone k) (frameOf msg :: ins) outs t := by
  refine Duplex.Moves.read rfl ?_
  rwa [readThen_frameOf h]

def bodyFrames (txs : List DagTransaction) : List Frame :=
  txs.map fun tx => frameOf (.dagTransaction tx)

theorem moves_writeBodies : ∀ txs : List DagTransaction,
    (∀ tx ∈ txs, (MeshWireMessage.dagTransaction tx).Readable P) →
      Duplex.Moves (meshAct P G) (g, MeshProc.writeBodies txs k) [] (bodyFrames txs) (g, k)
  | [], _ => .refl _
  | _ :: txs, h =>
    moves_write (h _ List.mem_cons_self)
      (moves_writeBodies txs fun tx htx => h tx (List.mem_cons_of_mem _ htx))

/-- A node behind the bodies it has received. -/
def MeshGraph.ingestAll (G : MeshGraph γ) (g : γ) (txs : List DagTransaction) : γ :=
  txs.foldl (fun g tx => (G.ingest g tx).1) g

/-- Bodies are taken in one by one, where each is allowed. -/
theorem moves_recvBodies (hallow : ∀ g, G.allowNewVertex g = (g, true)) :
    ∀ (txs : List DagTransaction) {g : γ},
      (∀ tx ∈ txs, (MeshWireMessage.dagTransaction tx).Readable P) →
      Duplex.Moves (meshAct P G) (g, .recvBodiesUntilDone k) (bodyFrames txs) []
        (G.ingestAll g txs, .recvBodiesUntilDone k)
  | [], _, _ => .refl _
  | tx :: txs, g, h => by
    have hbody : MeshProc.onBody G k g (.dagTransaction tx)
        = ((G.ingest g tx).1, .recvBodiesUntilDone k) := by
      unfold MeshProc.onBody
      rw [hallow]
      rfl
    refine moves_recv (h _ List.mem_cons_self) ?_
    rw [hbody]
    exact moves_recvBodies hallow txs fun y hy => h y (List.mem_cons_of_mem _ hy)

end Moves

/-! ## A whole round -/

section Round

open Relation

variable {γ : Type} {P : Primitives} {G : MeshGraph γ} {s r : γ}

/-- What the connecting peer needs and has of the other. -/
def MeshGraph.needOf (G : MeshGraph γ) (s r : γ) : List TxHash :=
  (G.needAndHave s (G.inventory r)).1

def MeshGraph.haveOf (G : MeshGraph γ) (s r : γ) : List TxHash :=
  (G.needAndHave s (G.inventory r)).2

/-- What the other asks for: what it needs, and what it is told of and lacks. -/
def MeshGraph.askOf (G : MeshGraph γ) (s r : γ) : List TxHash :=
  (G.haveOf s r).foldl (MeshProc.addHave G r) (G.needOf r s)

/-- The messages of a round that depend on the graphs, each of which the other side can read. -/
structure MeshGraph.Readable (P : Primitives) (G : MeshGraph γ) (s r : γ) : Prop where
  inventory : ∀ g, g = s ∨ g = r → (MeshWireMessage.syncInventory (G.inventory g)).Readable P
  need : (MeshWireMessage.needIds (G.needOf s r)).Readable P
  had : (MeshWireMessage.haveIds (G.haveOf s r)).Readable P
  ask : (MeshWireMessage.needIds (G.askOf s r)).Readable P
  bodies : ∀ tx, tx ∈ G.bodiesInOrder s (G.askOf s r) ∨ tx ∈ G.bodiesInOrder r (G.needOf s r) →
    (MeshWireMessage.dagTransaction tx).Readable P

/-- A round in which one party at a time goes as far as it can: both have stopped behind it, with
the bodies that the other side was asked for. -/
theorem reaches_stop (hallow : ∀ g, G.allowNewVertex g = (g, true))
    (happly : ∀ g inv, G.applyInventory g inv = g) (h : G.Readable P s r) :
    ReflTransGen (Duplex.Step (meshAct P G)) (syncStart G s r)
      ⟨(G.ingestAll s (G.bodiesInOrder r (G.needOf s r)), .stop (.ok ())),
        (G.ingestAll r (G.bodiesInOrder s (G.askOf s r)), .stop (.ok ())), [], []⟩ := by
  have hs := h.inventory s (.inl rfl)
  have hr := h.inventory r (.inr rfl)
  have hbodiesS := fun tx htx => h.bodies tx (.inl htx)
  have hbodiesR := fun tx htx => h.bodies tx (.inr htx)
  have hping : Duplex.Moves (meshAct P G) (s, MeshProc.runSyncRound G true) []
      [frameOf .ping] (s, .read (MeshProc.onPong G)) :=
    moves_write readable_ping (.refl _)
  have hpong : Duplex.Moves (meshAct P G) (r, MeshProc.runSyncRound G false) [frameOf .ping]
      [frameOf .pong] (r, .read (MeshProc.onTheirInventory G)) :=
    moves_read readable_ping (moves_write readable_pong (.refl _))
  have hinvS : Duplex.Moves (meshAct P G) (s, .read (MeshProc.onPong G)) [frameOf .pong]
      [frameOf (.syncInventory (G.inventory s))] (s, .read (MeshProc.onInventory G)) :=
    moves_read readable_pong (moves_write hs (.refl _))
  have hinvR : Duplex.Moves (meshAct P G) (r, .read (MeshProc.onTheirInventory G))
      [frameOf (.syncInventory (G.inventory s))] [frameOf (.syncInventory (G.inventory r))]
      (r, .read (MeshProc.onNeedOf G (G.inventory s))) := by
    refine moves_read hs ?_
    simp only [MeshProc.onTheirInventory, happly]
    exact moves_write hr (.refl _)
  have hneed : Duplex.Moves (meshAct P G) (s, .read (MeshProc.onInventory G))
      [frameOf (.syncInventory (G.inventory r))]
      [frameOf (.needIds (G.needOf s r)), frameOf (.haveIds (G.haveOf s r))]
      (s, .read (MeshProc.onTheirNeed G)) := by
    refine moves_read hr ?_
    simp only [MeshProc.onInventory, happly]
    exact moves_write h.need (moves_write h.had (.refl _))
  have hask : Duplex.Moves (meshAct P G) (r, .read (MeshProc.onNeedOf G (G.inventory s)))
      [frameOf (.needIds (G.needOf s r)), frameOf (.haveIds (G.haveOf s r))]
      (frameOf (.needIds (G.askOf s r)) :: bodyFrames (G.bodiesInOrder r (G.needOf s r)))
      (r, .recvBodiesUntilDone (.write .done (.stop (.ok ())))) :=
    moves_read h.need (moves_read h.had (moves_write h.ask (moves_writeBodies _ hbodiesR)))
  have hsend : Duplex.Moves (meshAct P G) (s, .read (MeshProc.onTheirNeed G))
      (frameOf (.needIds (G.askOf s r)) :: bodyFrames (G.bodiesInOrder r (G.needOf s r)))
      (bodyFrames (G.bodiesInOrder s (G.askOf s r)) ++ [frameOf .done])
      (G.ingestAll s (G.bodiesInOrder r (G.needOf s r)), .recvBodiesUntilDone (.stop (.ok ()))) :=
    moves_read h.ask ((moves_writeBodies _ hbodiesS).trans
      ((moves_write readable_done (.refl _)).trans (moves_recvBodies hallow _ hbodiesR)))
  have hrecv : Duplex.Moves (meshAct P G) (r, .recvBodiesUntilDone (.write .done (.stop (.ok ()))))
      (bodyFrames (G.bodiesInOrder s (G.askOf s r)) ++ [frameOf .done]) [frameOf .done]
      (G.ingestAll r (G.bodiesInOrder s (G.askOf s r)), .stop (.ok ())) :=
    (moves_recvBodies hallow _ hbodiesS).trans
      (moves_recv readable_done (moves_write readable_done (.refl _)))
  have hdone : Duplex.Moves (meshAct P G)
      (G.ingestAll s (G.bodiesInOrder r (G.needOf s r)), .recvBodiesUntilDone (.stop (.ok ())))
      [frameOf .done] [] (G.ingestAll s (G.bodiesInOrder r (G.needOf s r)), .stop (.ok ())) :=
    moves_recv readable_done (.refl _)
  exact hping.left_turn.trans (hpong.right_turn.trans (hinvS.left_turn.trans
    (hinvR.right_turn.trans (hneed.left_turn.trans (hask.right_turn.trans (hsend.left_turn.trans
      (hrecv.right_turn.trans hdone.left_turn)))))))

end Round

end KronMesh
