import KronMesh.Lib.Assoc
import KronMesh.Graph
import KronMesh.Ledger

/-!
# The mesh graph with its ledger

One node: the graph, the ledger, the faucet behind it and the conflict losers. A vertex is attached
when its spend can be applied at once. A spend that cannot be is stored all the same, and the
ledger is rebuilt: of the vertices of one sender and nonce the one of the greatest rank is kept,
and those kept are replayed in attach order.
-/

namespace KronMesh

open Word Outcome

structure KronDAG extends Graph, Ledger where
  relayOf : AList fun _ : TxHash => Address
  faucet : Tally Address
  conflicts : AList fun _ : TxHash => TxHash

inductive AttachingDevice
  | localGraph
  | miner
  | relay
  deriving DecidableEq, Repr

/-- `host` is what `enforce_real_mobile` says of the machine. -/
def AttachingDevice.admitHost (host : Except ShieldError Unit) :
    AttachingDevice → Except DagError Unit
  | localGraph => .ok ()
  | miner | relay => host.mapError .shield

/-! ## The rank of a vertex, and the losers of its nonce -/

namespace Graph

variable (g : Graph)

/-- `conflict_rank(a) <= conflict_rank(b)`: by weight, then by id. -/
def RankLE (a b : TxHash) : Prop :=
  g.cumulativeWeight a < g.cumulativeWeight b
    ∨ g.cumulativeWeight a = g.cumulativeWeight b ∧ a ≤ b

instance : DecidableRel g.RankLE := fun _ _ => inferInstanceAs (Decidable (_ ∨ _))

/-- `by_nonce`: the stored vertices that are no genesis, by sender and nonce. -/
def byNonce : AList fun _ : Address × UInt64 => List TxHash :=
  g.vertices.entries.foldl
    (fun groups e =>
      if e.1 = g.genesisIdOr ∨ e.2.isGenesis then groups
      else Assoc.pushAt groups (e.2.sender, e.2.nonce) e.1)
    ∅

/-- The losers of one group, each with the winner: the last by rank. -/
def groupLosers (group : List TxHash) : List (TxHash × TxHash) :=
  if group.length ≤ 1 then []
  else
    match (group.insertionSort g.RankLE).getLast? with
    | none => []
    | some winner => (group.filter (· ≠ winner)).map fun id => (id, winner)

/-- `winner_of`; the losers are its keys. -/
def winnerOf : AList fun _ : TxHash => TxHash :=
  Assoc.ofPairs (g.byNonce.entries.flatMap fun e => g.groupLosers e.2)

end Graph

namespace KronDAG

variable (P : Primitives)

def new : KronDAG :=
  { Graph.empty, Ledger.empty with
    relayOf := ∅
    faucet := ∅
    conflicts := ∅ }

def isConflict (d : KronDAG) (id : TxHash) : Bool := (d.conflicts.lookup id).isSome

def vertexCount (d : KronDAG) : ℕ := d.vertices.entries.length

def creditAccount (d : KronDAG) (address : Address) (amount : ℕ) : KronDAG :=
  if amount = 0 then d
  else
    { d with
      balances := d.balances.set address (saturatingAdd (d.balance address) amount)
      faucet := d.faucet.set address (saturatingAdd (d.faucet.get address) amount) }

/-- A step of the ledger as a step of the node. -/
def onLedger (d : KronDAG) (r : Outcome Ledger DagError) : Outcome KronDAG DagError :=
  ({ d with toLedger := r.1 }, r.2)

/-! ## Attaching -/

def attachVertexAndMaybeMint (d : KronDAG) (tx : DagTransaction) (mint : Bool)
    (mintRelays : List Address) : Outcome KronDAG DagError :=
  match d.checkVertex P tx with
  | .error e => (d, .error e)
  | .ok () =>
    match d.checkSpend tx with
    | .error e => (d, .error e)
    | .ok new =>
      let d :=
        { d with toGraph := d.toGraph.insertVertex tx, toLedger := d.toLedger.moveSpend tx new }
      if mint ∧ tx.isGenesis = false then
        d.onLedger (mapErr (d.toLedger.mintConfirmedTx tx.fee.toNat tx.sender mintRelays)
          Ledger.ofEconomic)
      else (d, .ok ())

def attachAndVerifyFor (host : Except ShieldError Unit) (d : KronDAG) (tx : DagTransaction)
    (device : AttachingDevice) : Outcome KronDAG DagError :=
  match device.admitHost host with
  | .error e => (d, .error e)
  | .ok () => d.attachVertexAndMaybeMint P tx true (tx.provenRelayNodes P)

/-- No machine is asked for the local graph. -/
def attachAndVerifyTx (d : KronDAG) (tx : DagTransaction) : Outcome KronDAG DagError :=
  d.attachAndVerifyFor P (.ok ()) tx .localGraph

/-- `none` where the source panics: the genesis vertex cannot be signed or attached. -/
def ensureGenesis (d : KronDAG) : Option (KronDAG × Bool) :=
  if d.vertices.entries ≠ [] then some (d, false)
  else
    match signedGenesisTx P with
    | .error _ => none
    | .ok genesis =>
      match d.attachAndVerifyTx P genesis with
      | (d, .ok ()) => some (d, true)
      | (_, .error _) => none

def withGenesis : Option KronDAG := (ensureGenesis P new).map Prod.fst

/-! ## Storing and rebuilding -/

def insertGraphOnly (d : KronDAG) (tx : DagTransaction) : Outcome KronDAG DagError :=
  match d.checkVertex P tx with
  | .error e => (d, .error e)
  | .ok () => ({ d with toGraph := d.toGraph.insertVertex tx }, .ok ())

/-- The ledger a rebuild starts from. -/
def baseline (d : KronDAG) : Ledger := { Ledger.empty with balances := d.faucet }

end KronDAG

/-- The replay of a rebuild: those that lose on nonce or balance are collected, and any other error
ends it. -/
def replayLoop (P : Primitives) (vertices : AList fun _ : TxHash => DagTransaction)
    (losers : AList fun _ : TxHash => TxHash) :
    Ledger → List TxHash → List TxHash → Ledger × Except DagError (List TxHash)
  | l, extraLosers, [] => (l, .ok extraLosers)
  | l, extraLosers, id :: order =>
    if (losers.lookup id).isSome then replayLoop P vertices losers l extraLosers order
    else
      match vertices.lookup id with
      | none => replayLoop P vertices losers l extraLosers order
      | some tx =>
        if tx.isGenesis then replayLoop P vertices losers l extraLosers order
        else
          match l.applyLedgerEffects P tx with
          | (l, .ok ()) => replayLoop P vertices losers l extraLosers order
          | (l, .error (.doubleSpend _)) | (l, .error .insufficientBalance) =>
            replayLoop P vertices losers l (extraLosers ++ [id]) order
          | (l, .error e) => (l, .error e)

section Replay

variable {P : Primitives} {vertices : AList fun _ : TxHash => DagTransaction}
  {losers : AList fun _ : TxHash => TxHash} {id : TxHash} {tx : DagTransaction}

/-- The replay passes over a loser, over an unknown id and over a genesis vertex. -/
theorem replayLoop_skip (h : (losers.lookup id).isSome = true
      ∨ ∀ tx, vertices.lookup id = some tx → tx.isGenesis = true)
    (l : Ledger) (extraLosers order : List TxHash) :
    replayLoop P vertices losers l extraLosers (id :: order)
      = replayLoop P vertices losers l extraLosers order := by
  change (if (losers.lookup id).isSome then _ else _) = _
  split_ifs with hlose
  · rfl
  · have hgen := h.resolve_left hlose
    rcases hl : vertices.lookup id with _ | tx
    · rfl
    · change (if tx.isGenesis then _ else _) = _
      exact if_pos (hgen tx hl)

/-- The replay at a vertex it looks at. -/
theorem replayLoop_cons (hw : losers.lookup id = none) (hl : vertices.lookup id = some tx)
    (hgen : tx.isGenesis = false) (l : Ledger) (extraLosers order : List TxHash) :
    replayLoop P vertices losers l extraLosers (id :: order)
      = match l.applyLedgerEffects P tx with
        | (l, .ok ()) => replayLoop P vertices losers l extraLosers order
        | (l, .error (.doubleSpend _)) | (l, .error .insufficientBalance) =>
          replayLoop P vertices losers l (extraLosers ++ [id]) order
        | (l, .error e) => (l, .error e) := by
  change (if (losers.lookup id).isSome then _ else _) = _
  rw [hw, if_neg (by decide), hl]
  change (if tx.isGenesis then _ else _) = _
  exact if_neg (Bool.eq_false_iff.1 hgen)

end Replay

/-- `entry(loser).or_insert(NULL_PARENT)` for each. -/
def noteExtraLosers (winnerOf : AList fun _ : TxHash => TxHash) (extraLosers : List TxHash) :
    AList fun _ : TxHash => TxHash :=
  extraLosers.foldl
    (fun conflicts loser =>
      if (conflicts.lookup loser).isSome then conflicts else conflicts.insert loser nullParent)
    winnerOf

namespace KronDAG

variable (P : Primitives)

def resolveConflictsAndRebuildLedger (d : KronDAG) : Outcome KronDAG DagError :=
  let winnerOf := d.toGraph.winnerOf
  match replayLoop P d.vertices winnerOf d.baseline [] d.attachOrder with
  | (l, .error e) => ({ d with toLedger := l }, .error e)
  | (l, .ok extraLosers) =>
    ({ d with toLedger := l, conflicts := noteExtraLosers winnerOf extraLosers }, .ok ())

/-- A spend that cannot be applied at once is stored, and the ledger rebuilt. -/
def acceptWireVertex (d : KronDAG) (tx : DagTransaction) : KronDAG × Except DagError Bool :=
  if d.contains tx.id then (d, .ok false)
  else
    match d.attachAndVerifyTx P tx with
    | (d, .ok ()) => (d, .ok true)
    | (d, .error (.doubleSpend _)) | (d, .error .insufficientBalance) =>
      let r := andThen (d.insertGraphOnly P tx) (resolveConflictsAndRebuildLedger P)
      (r.1, r.2.map fun _ => true)
    | (d, .error e) => (d, .error e)

end KronDAG

end KronMesh
