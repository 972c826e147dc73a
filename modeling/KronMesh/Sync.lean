import KronMesh.Lib.Wire
import KronMesh.Engine

/-!
# Meetup merge

A batch of vertices from another phone is put in an order in which parents come first, stored
without touching the ledger, and the ledger is rebuilt once at the end. A batch that fails half-way
leaves what it stored before, with the ledger as it was.
-/

namespace KronMesh

open Word Outcome Wire

inductive SyncError
  | missingParent (p : TxHash)
  | cyclicBatch
  | attach (e : DagError)
  deriving DecidableEq, Repr

/-! ## The order of a batch -/

/-- The parents that are not the dummy one, each once. -/
def DagTransaction.parents (tx : DagTransaction) : List TxHash :=
  (if tx.parent1 ≠ nullParent then [tx.parent1] else [])
    ++ if tx.parent2 ≠ nullParent ∧ tx.parent2 ≠ tx.parent1 then [tx.parent2] else []

/-- The bodies of a batch, the first of each id. -/
def uniqueOf (txs : List DagTransaction) : AList fun _ : TxHash => DagTransaction :=
  txs.foldl
    (fun unique tx => if (unique.lookup tx.id).isSome then unique else unique.insert tx.id tx) ∅

/-- How many parents in the batch a vertex still waits for, and who waits for whom. -/
structure Waiting where
  indeg : Tally TxHash
  dependents : AList fun _ : TxHash => List TxHash

def countParent (g : Graph) (unique : AList fun _ : TxHash => DagTransaction) (id : TxHash)
    (w : Waiting) (p : TxHash) : Except (Fault SyncError) Waiting :=
  let inLocal := g.contains p
  let inBatch := (unique.lookup p).isSome
  if inLocal = false ∧ inBatch = false then .error (.err (.missingParent p))
  else if inBatch = true ∧ inLocal = false then
    .ok
      { indeg := w.indeg.set id (w.indeg.get id + 1)
        dependents := Assoc.pushAt w.dependents p id }
  else .ok w

/-- One fewer to wait for, for each of `kids`; those that now wait for none. -/
def release : Tally TxHash → List TxHash → Tally TxHash × List TxHash
  | indeg, [] => (indeg, [])
  | indeg, kid :: kids =>
    let d := indeg.get kid - 1
    let (indeg, newly) := release (indeg.set kid d) kids
    (indeg, if d = 0 then kid :: newly else newly)

/-- The queue of those that wait for none. Every turn takes one from `unique`, so that its size and
one more bound the turns. -/
def topoLoop (dependents : AList fun _ : TxHash => List TxHash) :
    ℕ → List TxHash → (AList fun _ : TxHash => DagTransaction) → Tally TxHash →
      Except (Fault SyncError) (List DagTransaction)
  | 0, _, _, _ => .error .panic
  | _ + 1, [], unique, _ =>
    if unique.entries ≠ [] then .error (.err .cyclicBatch) else .ok []
  | fuel + 1, id :: queue, unique, indeg =>
    match unique.lookup id with
    | none => .error .panic
    | some tx =>
      let kids := (dependents.lookup id).getD []
      let (indeg, newly) := release indeg kids
      (topoLoop dependents fuel (queue ++ newly.insertionSort (· ≤ ·)) (unique.erase id)
        indeg).map (tx :: ·)

def topoOrderIncoming (g : Graph) (txs : List DagTransaction) :
    Except (Fault SyncError) (List DagTransaction) := do
  let unique := uniqueOf txs
  let start : Waiting := ⟨unique.entries.foldl (fun indeg e => indeg.set e.1 0) ∅, ∅⟩
  let waiting ← unique.entries.foldlM
    (fun w e => e.2.parents.foldlM (countParent g unique e.1) w) start
  let ready := (unique.entries.map Sigma.fst).filter fun id => waiting.indeg.get id = 0
  topoLoop waiting.dependents (unique.entries.length + 1) (ready.insertionSort (· ≤ ·)) unique
    waiting.indeg

/-! ## The merge -/

namespace KronDAG

variable (P : Primitives)

def stampRelay (d : KronDAG) (txId : TxHash) (relay : Address) : KronDAG :=
  { d with relayOf := d.relayOf.insert txId relay }

/-- `check_parents` of the merge loop itself: the first parent that is not stored. -/
def missingParent (d : KronDAG) (tx : DagTransaction) : Option TxHash :=
  if tx.isGenesis then none
  else [tx.parent1, tx.parent2].find? fun p => p = nullParent ∨ d.contains p = false

/-- One vertex of an ordered batch: the node and how many were inserted. -/
def mergeOne (relay : Address) (d : KronDAG) (tx : DagTransaction) :
    KronDAG × Except SyncError ℕ :=
  if d.contains tx.id then (d, .ok 0)
  else
    match d.missingParent tx with
    | some p => (d, .error (.missingParent p))
    | none =>
      match d.insertGraphOnly P tx with
      | (d, .ok ()) => (if tx.isGenesis then d else d.stampRelay tx.id relay, .ok 1)
      | (d, .error (.duplicateTx _)) => (d, .ok 0)
      | (d, .error e) => (d, .error (.attach e))

def mergeLoop (relay : Address) : KronDAG → ℕ → List DagTransaction → KronDAG × Except SyncError ℕ
  | d, inserted, [] => (d, .ok inserted)
  | d, inserted, tx :: txs =>
    match mergeOne P relay d tx with
    | (d, .ok n) => mergeLoop relay d (min (inserted + n) (2 ^ 32 - 1)) txs
    | (d, .error e) => (d, .error e)

def mergeOfflineGraphs (d : KronDAG) (incomingTxs : List DagTransaction) (relayNodeId : Address) :
    KronDAG × Except (Fault SyncError) ℕ :=
  match topoOrderIncoming d.toGraph incomingTxs with
  | .error e => (d, .error e)
  | .ok ordered =>
    match mergeLoop P relayNodeId d 0 ordered with
    | (d, .error e) => (d, .error (.err e))
    | (d, .ok inserted) =>
      if 0 < inserted then
        match d.resolveConflictsAndRebuildLedger P with
        | (d, .ok ()) => (d, .ok inserted)
        | (d, .error e) => (d, .error (.err (.attach e)))
      else (d, .ok inserted)

end KronDAG

end KronMesh
