import KronMesh.Lib.Journal
import KronMesh.Run
import KronMesh.TxCodec

/-!
# The data directory

What a node keeps on disk: `wal.log`, the log of the vertices it took in, and `snapshot.bin`, the
sums of its ledger with the faucet. A start credits the faucet of the snapshot and takes the
vertices of the log in again. A file is the bytes in it, or `none` when there is no file.
-/

namespace KronMesh

open Word Outcome Wire

inductive PersistError
  | io (e : String)
  | corrupt (what : String)
  | crypto (e : CryptoError)
  | dag (e : DagError)
  deriving DecidableEq, Repr

/-- `b"KRDW"`. -/
def walMagic : Bytes := [75, 82, 68, 87]

/-- `b"KRDS"`. -/
def snapMagic : Bytes := [75, 82, 68, 83]

def version : UInt8 := 1

def snapshotEvery : ℕ := 8

variable (P : Primitives)

/-! ## Checksummed records -/

/-- What `write_checksummed` writes. -/
def writeChecksummed (magic body : Bytes) : Bytes :=
  magic ++ [version] ++ leBytes 4 (body.length % 2 ^ 32) ++ body ++ hashBytes (P.sha256 body)

/-- The body of the record at `off`, and where the record ends. -/
def readChecksummed (bytes magic : Bytes) (off : ℕ) :
    Except (Fault PersistError) (Bytes × ℕ) := do
  rejectIf (bytes.length < off + 4 + 1 + 4 + 32) (.corrupt "short record")
  let m ← slice bytes off 4
  rejectIf (m ≠ magic) (.corrupt "bad magic")
  let v ← byteAt bytes (off + 4)
  rejectIf (v ≠ version) (.corrupt "unsupported version")
  let n ← readU32 bytes (off + 5)
  let off := off + 9
  rejectIf (bytes.length < off + n + 32) (.corrupt "truncated body")
  let body ← slice bytes off n
  let sum ← slice bytes (off + n) 32
  rejectIf (hashBytes (P.sha256 body) ≠ sum) (.corrupt "checksum mismatch")
  return (body, off + n + 32)

/-! ## The log -/

def walRecord (tx : DagTransaction) : Bytes := writeChecksummed P walMagic tx.canonicalBytes

/-- The file is opened for appending, and made when there is none. -/
def appendWal (file : Option Bytes) (tx : DagTransaction) : Option Bytes :=
  some (file.getD [] ++ walRecord P tx)

/-- The vertices from `off` on, up to the first record that cannot be read. -/
def readWalLoop (bytes : Bytes) : ℕ → ℕ → Except (Fault PersistError) (List DagTransaction)
  | 0, _ => .error .panic
  | fuel + 1, off =>
    if off < bytes.length then
      match readChecksummed P bytes walMagic off with
      | .ok (body, off) =>
        match DagTransaction.fromCanonical P body with
        | .ok tx => (readWalLoop bytes fuel off).map (tx :: ·)
        | .error (.err _) => .ok []
        | .error .panic => .error .panic
      | .error (.err _) => .ok []
      | .error .panic => .error .panic
    else .ok []

/-- Every turn but the last reads a record, so the length bounds the turns. -/
def readWal (file : Option Bytes) : Except (Fault PersistError) (List DagTransaction) :=
  match file with
  | none => .ok []
  | some bytes => readWalLoop P bytes (bytes.length + 1) 0

/-! ## The snapshot -/

/-- The accounts in the order of a `BTreeMap`. -/
def inOrder (accounts : Tally Address) : List (Sigma fun _ : Address => ℕ) :=
  accounts.entries.insertionSort fun a b => a.1 ≤ b.1

structure DagSnapshot where
  supply : ℕ
  dagTxCount : ℕ
  vertexCount : ℕ
  accounts : Tally Address
  faucet : Tally Address
  tips : List TxHash

namespace DagSnapshot

def default : DagSnapshot := ⟨0, 0, 0, ∅, ∅, []⟩

def fromDagWithFaucet (dag : KronDAG) (faucet : Tally Address) : DagSnapshot where
  supply := dag.currentSupply
  dagTxCount := dag.dagTxCount
  vertexCount := dag.vertexCount
  accounts := dag.balances
  faucet := faucet
  tips := dag.tips.insertionSort (· ≤ ·)

def fromDag (dag : KronDAG) : DagSnapshot := fromDagWithFaucet dag dag.faucet

end DagSnapshot

def encodeAccounts (accounts : Tally Address) : Bytes :=
  leBytes 4 (accounts.entries.length % 2 ^ 32)
    ++ (inOrder accounts).flatMap fun e => hashBytes e.1 ++ leBytes 8 e.2

def encodeSnapshot (snap : DagSnapshot) : Bytes :=
  leBytes 8 snap.supply ++ leBytes 8 snap.dagTxCount ++ leBytes 8 snap.vertexCount
    ++ encodeAccounts snap.accounts ++ encodeAccounts snap.faucet
    ++ leBytes 4 (snap.tips.length % 2 ^ 32) ++ snap.tips.flatMap hashBytes

def takeU64 (bytes : Bytes) (off : ℕ) : Except (Fault PersistError) (ℕ × ℕ) := do
  rejectIf (bytes.length < off + 8) (.corrupt "u64")
  let v ← readU64 bytes off
  return (v.toNat, off + 8)

def takeU32 (bytes : Bytes) (off : ℕ) : Except (Fault PersistError) (ℕ × ℕ) := do
  rejectIf (bytes.length < off + 4) (.corrupt "u32")
  let v ← readU32 bytes off
  return (v, off + 4)

def takeHash (bytes : Bytes) (off : ℕ) : Except (Fault PersistError) (Hash × ℕ) := do
  rejectIf (bytes.length < off + 32) (.corrupt "hash")
  let b ← slice bytes off 32
  return (hashOfBytes b, off + 32)

/-- `n` accounts put into `out`. -/
def decodeAccountsLoop (bytes : Bytes) :
    ℕ → ℕ → Tally Address → Except (Fault PersistError) (Tally Address × ℕ)
  | 0, off, out => .ok (out, off)
  | n + 1, off, out => do
    let (addr, off) ← takeHash bytes off
    let (bal, off) ← takeU64 bytes off
    decodeAccountsLoop bytes n off (out.set addr bal)

def decodeAccounts (bytes : Bytes) (off : ℕ) :
    Except (Fault PersistError) (Tally Address × ℕ) := do
  let (n, off) ← takeU32 bytes off
  decodeAccountsLoop bytes n off ∅

/-- `n` tips, and where they end. -/
def decodeTips (bytes : Bytes) : ℕ → ℕ → Except (Fault PersistError) (List TxHash)
  | 0, _ => .ok []
  | n + 1, off => do
    let (tip, off) ← takeHash bytes off
    let tips ← decodeTips bytes n off
    return tip :: tips

def decodeSnapshot (bytes : Bytes) : Except (Fault PersistError) DagSnapshot := do
  let (supply, off) ← takeU64 bytes 0
  let (dagTxCount, off) ← takeU64 bytes off
  let (vertexCount, off) ← takeU64 bytes off
  let (accounts, off) ← decodeAccounts bytes off
  let (faucet, off) ← decodeAccounts bytes off
  let (n, off) ← takeU32 bytes off
  let tips ← decodeTips bytes n off
  return ⟨supply, dagTxCount, vertexCount, accounts, faucet, tips⟩

/-- What is left behind `write_snapshot`: it writes beside the file and renames over it. -/
def writeSnapshot (snap : DagSnapshot) : Option Bytes :=
  some (writeChecksummed P snapMagic (encodeSnapshot snap))

def readSnapshot (bytes : Bytes) : Except (Fault PersistError) DagSnapshot := do
  let (body, _) ← readChecksummed P bytes snapMagic 0
  decodeSnapshot body

/-! ## The store -/

/-- The two files of a data directory. -/
structure DagStore where
  wal : Option Bytes
  snapshot : Option Bytes

namespace DagStore

/-- An empty data directory. -/
def empty : DagStore := ⟨none, none⟩

def writeSnapshot (store : DagStore) (snap : DagSnapshot) : DagStore :=
  { store with snapshot := KronMesh.writeSnapshot P snap }

/-- The log takes the vertex, and every so often a snapshot is taken. -/
def appendVertex (store : DagStore) (tx : DagTransaction) (dag : KronDAG) : DagStore :=
  if tx.isGenesis then store
  else
    let store := { store with wal := appendWal P store.wal tx }
    if 0 < dag.dagTxCount ∧ dag.dagTxCount % snapshotEvery = 0 then
      store.writeSnapshot P (.fromDag dag)
    else store

end DagStore

/-- The credits of a snapshot. -/
def creditFaucet (dag : KronDAG) (faucet : Tally Address) : KronDAG :=
  (inOrder faucet).foldl (fun dag e => if 0 < e.2 then dag.creditAccount e.1 e.2 else dag) dag

/-- The vertices of the log, taken in again. One whose parent is not there is passed over. -/
def replayWal : KronDAG → List DagTransaction → Except (Fault PersistError) KronDAG
  | dag, [] => .ok dag
  | dag, tx :: records =>
    if dag.contains tx.id then replayWal dag records
    else
      match dag.acceptWireVertex P tx with
      | (dag, .ok _) | (dag, .error (.unknownParent _)) => replayWal dag records
      | (_, .error e) => .error (.err (.dag e))

/-- Genesis, faucet credits, and the log. -/
def DagStore.load (store : DagStore) : Except (Fault PersistError) (KronDAG × DagSnapshot) := do
  let snap ← match store.snapshot with
    | some bytes => readSnapshot P bytes
    | none => .ok .default
  let dag ← match KronDAG.withGenesis P with
    | some dag => .ok dag
    | none => .error .panic
  let records ← readWal P store.wal
  let dag ← replayWal P (creditFaucet dag snap.faucet) records
  match dag.resolveConflictsAndRebuildLedger P with
  | (dag, .ok ()) => return (dag, snap)
  | (_, .error e) => .error (.err (.dag e))

end KronMesh
