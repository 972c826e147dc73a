import KronMesh.Lib.Serving
import KronMesh.MeshSync

/-!
# The sessions of a hub, one lock at a time

The graph of a hub is one for all its sessions. A thread holds its lock for one call, so between two
calls the other threads may have stored vertices. A round is the same program as in `MeshProc`, with
every call an access of its own. A session takes a slot, if there is one, and gives it back in the
end. It begins with the two hellos; behind them a wallet hands over a vertex, and any other peer
runs a round.
-/

namespace KronMesh

open Wire Serving

/-- What follows `recv_bodies_until_done(session, graph)?`. -/
inductive AfterBodies
  | writeDone
  | stop
  deriving DecidableEq

/-- A loop at whose head a thread reads a message. -/
inductive MeshLoop
  | recvBodies (after : AfterBodies)
  | submit
  deriving DecidableEq

abbrev MeshThread (γ : Type) := Thread MeshLoop γ Frame (Except (Fault NetworkError) Unit)

/-- `try_acquire_session` and `release_session`, by their atomic steps. -/
structure MeshSlots (γ : Type) where
  /-- The `fetch_add`, and whether it has found a slot. -/
  tryAcquire : γ → γ × Bool
  /-- The `fetch_sub` of a call that has found none. -/
  backOut : γ → γ
  /-- The `fetch_update`. -/
  release : γ → γ

namespace MeshThread

variable {γ : Type} (P : Primitives) (G : MeshGraph γ)

/-- `write_msg(session, msg)?`, then `k`. -/
def writeThen (msg : MeshWireMessage) (k : MeshThread γ) : MeshThread γ :=
  match writeMsg msg with
  | .ok frame => .write frame k
  | .error e => .stop (.error e)

/-- What `read_msg(session)?` makes of a frame, then `k`. -/
def onFrame (k : MeshWireMessage → MeshThread γ) (frame : Frame) : MeshThread γ :=
  match readMsg P frame with
  | .ok msg => k msg
  | .error e => .stop (.error e)

def readThen (k : MeshWireMessage → MeshThread γ) : MeshThread γ := .read (onFrame P k)

/-- A call that leaves the graph as it is. -/
def look {β : Type} (q : γ → β) (k : β → MeshThread γ) : MeshThread γ :=
  .access id fun g => k (q g)

def call {β : Type} (q : γ → γ × β) (k : β → MeshThread γ) : MeshThread γ :=
  .access (fun g => (q g).1) fun g => k (q g).2

def badFrame : MeshThread γ := .stop (.error (.err .badFrame))

def writeBodies (txs : List DagTransaction) (k : MeshThread γ) : MeshThread γ :=
  txs.foldr (fun tx k => writeThen (.dagTransaction tx) k) k

/-! ## The loop that receives bodies -/

/-- `ids.into_iter().filter(|id| !graph.contains(id)).collect()`, behind what has been collected. -/
def collectMissing : List TxHash → List TxHash → (List TxHash → MeshThread γ) → MeshThread γ
  | [], missing, k => k missing
  | id :: ids, missing, k => look (G.contains · id) fun contained =>
    collectMissing ids (if contained then missing else missing ++ [id]) k

def after : AfterBodies → MeshThread γ
  | .writeDone => writeThen .done (.stop (.ok ()))
  | .stop => .stop (.ok ())

def onBody (a : AfterBodies) : MeshWireMessage → MeshThread γ
  | .dagTransaction tx => call G.allowNewVertex fun allowed =>
    if allowed then call (G.ingest · tx) fun _ => .loop (.recvBodies a) else .loop (.recvBodies a)
  | .needIds ids => look (G.bodiesInOrder · ids) fun txs => writeBodies txs (.loop (.recvBodies a))
  | .haveIds ids => collectMissing G ids [] fun missing =>
    if missing ≠ [] then writeThen (.needIds missing) (.loop (.recvBodies a))
    else .loop (.recvBodies a)
  | .done => after a
  | .ping => writeThen .pong (.loop (.recvBodies a))
  | .pong => .loop (.recvBodies a)
  | .hello _ _ => badFrame
  | .syncInventory _ => badFrame

/-! ## The loop that takes a vertex of a wallet -/

def onSubmit : MeshWireMessage → MeshThread γ
  | .ping => writeThen .pong (.loop .submit)
  | .dagTransaction tx => call G.allowNewVertex fun allowed =>
    if allowed then call (G.ingest · tx) fun r =>
      match r with
      | .ok _ => writeThen .done (.stop (.ok ()))
      | .error _ => badFrame
    else badFrame
  | .done => .stop (.ok ())
  | _ => badFrame

/-- A turn of `recv_bodies_until_done`, or of `serve_wallet_submit`. -/
def turn : MeshLoop → Frame → MeshThread γ
  | .recvBodies a => onFrame P (onBody G a)
  | .submit => onFrame P (onSubmit G)

/-! ## The connecting peer -/

def onTheirNeed : MeshWireMessage → MeshThread γ
  | .needIds theirNeed => look (G.bodiesInOrder · theirNeed) fun txs =>
    writeBodies txs (writeThen .done (.loop (.recvBodies .stop)))
  | _ => badFrame

def onInventory : MeshWireMessage → MeshThread γ
  | .syncInventory remote => .access (G.applyInventory · remote) fun _ =>
    look (G.needAndHave · remote) fun p =>
      writeThen (.needIds p.1) (writeThen (.haveIds p.2) (readThen P (onTheirNeed G)))
  | _ => badFrame

def onPong : MeshWireMessage → MeshThread γ
  | .pong | .ping =>
    look G.inventory fun inv => writeThen (.syncInventory inv) (readThen P (onInventory P G))
  | _ => .stop (.error (.err (.handshake "expected mesh pong")))

/-! ## The peer connected to -/

/-- `for id in their_have { if !contains(&id) && !need.contains(&id) { need.push(id) } }`. -/
def pushMissing : List TxHash → List TxHash → (List TxHash → MeshThread γ) → MeshThread γ
  | [], need, k => k need
  | id :: ids, need, k => look (G.contains · id) fun contained =>
    pushMissing ids (if contained = false ∧ need.contains id = false then need ++ [id] else need) k

def onTheirHave (remote : SyncInventory) (theirNeed : List TxHash) :
    MeshWireMessage → MeshThread γ
  | .haveIds theirHave => look (G.needAndHave · remote) fun p =>
    pushMissing G theirHave p.1 fun need => writeThen (.needIds need)
      (look (G.bodiesInOrder · theirNeed) fun txs =>
        writeBodies txs (.loop (.recvBodies .writeDone)))
  | _ => badFrame

def onNeedOf (remote : SyncInventory) : MeshWireMessage → MeshThread γ
  | .needIds theirNeed => readThen P (onTheirHave G remote theirNeed)
  | _ => badFrame

def onTheirInventory : MeshWireMessage → MeshThread γ
  | .syncInventory remote => .access (G.applyInventory · remote) fun _ =>
    look G.inventory fun inv => writeThen (.syncInventory inv) (readThen P (onNeedOf P G remote))
  | _ => badFrame

def unexpectedAsInv : MeshWireMessage → MeshThread γ
  | .syncInventory remote => .access (G.applyInventory · remote) fun _ =>
    look G.inventory fun inv => writeThen (.syncInventory inv)
      (look (G.needAndHave · remote) fun p => writeThen (.needIds p.1) (.loop (.recvBodies .stop)))
  | _ => badFrame

def onPing : MeshWireMessage → MeshThread γ
  | .ping => writeThen .pong (readThen P (onTheirInventory P G))
  | other => unexpectedAsInv G other

def runSyncRound (initiator : Bool) : MeshThread γ :=
  if initiator then writeThen .ping (readThen P (onPong P G)) else readThen P (onPing P G)

/-! ## Behind the handshake -/

/-- What `expect_hello(session)?` makes of a message, then `k`. -/
def onHello (k : MeshRole → MeshThread γ) : MeshWireMessage → MeshThread γ
  | .hello protocol role =>
    if protocol ≠ protocolKronMesh then .stop (.error (.err (.handshake "wrong mesh protocol")))
    else k role
  | _ => .stop (.error (.err (.handshake "expected mesh hello")))

/-- What a round or a submit returns is dropped; here it is what the thread stops with. -/
def served : MeshRole → MeshThread γ
  | .wallet => .loop .submit
  | .hub | .test => runSyncRound P G false

def finishAuthenticatedMesh (role : MeshRole) : MeshThread γ :=
  writeThen (.hello protocolKronMesh .hub) (served P G role)

/-- `try_acquire_session()`, then `k` under its guard; with no slot the session ends. -/
def acquireThen (S : MeshSlots γ) (k : MeshThread γ) : MeshThread γ := call S.tryAcquire fun free =>
  if free then k.guarded S.release else .access S.backOut fun _ => .stop (.ok ())

def serveAuthenticatedMesh (S : MeshSlots γ) : MeshThread γ :=
  acquireThen S (readThen P (onHello (finishAuthenticatedMesh P G)))

/-- The caller has read the first frame, and a slot is taken before it is looked at. -/
def serveAuthenticatedMeshFromFirst (S : MeshSlots γ) (first : Frame) : MeshThread γ :=
  acquireThen S (onFrame P (onHello (finishAuthenticatedMesh P G)) first)

/-- `handle_inbound` behind the handshake: a first frame of gossip begins no session of the hub. -/
def handleInbound (S : MeshSlots γ) : MeshThread γ := .read fun first =>
  if first.kind = kindMesh then serveAuthenticatedMeshFromFirst P G S first else .stop (.ok ())

/-- How a session comes in. -/
inductive Entry
  /-- `serve_mesh_session` -/
  | serve
  /-- the accept loop of a node that gossips as well -/
  | inbound

def enter (S : MeshSlots γ) : Entry → MeshThread γ
  | .serve => serveAuthenticatedMesh P G S
  | .inbound => handleInbound P G S

/-- A turn of a session that has a slot: `SessionGuard` is dropped wherever it returns. -/
def guardedTurn (S : MeshSlots γ) (l : MeshLoop) (frame : Frame) : MeshThread γ :=
  (turn P G l frame).guarded S.release

end MeshThread

/-! ## The clients -/

namespace MeshProc

variable {γ : Type} (G : MeshGraph γ)

/-- `let _ = expect_hello(&mut session)?`, then `k`. -/
def expectHello (k : MeshProc γ) (g : γ) : MeshWireMessage → γ × MeshProc γ
  | .hello protocol _ =>
    if protocol ≠ protocolKronMesh then
      (g, .stop (.error (.err (.handshake "wrong mesh protocol"))))
    else (g, k)
  | _ => (g, .stop (.error (.err (.handshake "expected mesh hello"))))

def meshSyncConnect (role : MeshRole) : MeshProc γ :=
  .write (.hello protocolKronMesh role) (.read (expectHello (runSyncRound G true)))

def onSubmitted (g : γ) : MeshWireMessage → γ × MeshProc γ
  | .done => (g, .stop (.ok ()))
  | _ => (g, badFrame)

def broadcastWalletTx (tx : DagTransaction) : MeshProc γ :=
  .write (.hello protocolKronMesh .wallet)
    (.read (expectHello (.write (.dagTransaction tx) (.read onSubmitted))))

end MeshProc

end KronMesh
