import KronMesh.Exchange
import KronMesh.Lib.Nearest
import KronMesh.Lib.Text
import KronMesh.Snapshot
import KronMesh.Typos

/-!
# The explorer's mirror of a node

The explorer copies a node into maps keyed by display address: the rows of the vertices, the
histories, balances and nonces. A wallet is looked up by its display address or by its hex form.
The copy is made anew each time, and what it answers of an address is what the node knows of it.
-/

namespace KronMesh

open Word Wire

structure MeshState where
  accounts : Tally Address
  nonces : Tally Address
  dagTxCount : ℕ
  circulatingSupply : ℕ
  tips : List TxHash
  genesis : TxHash

def MeshState.fromDag (dag : KronDAG) : MeshState where
  accounts := dag.balances
  nonces := dag.nextNonce
  dagTxCount := dag.dagTxCount
  circulatingSupply := dag.currentSupply
  tips := dag.tips.insertionSort (· ≤ ·)
  genesis := dag.genesisIdOr

structure FeeSplit where
  minerAmount : ℕ
  relayAmount : ℕ
  minerAddress : String
  relayAddresses : List String
  deriving DecidableEq

structure IndexedTransaction where
  hash : TxHash
  fromKron1 : String
  toKron1 : String
  amount : UInt64
  fee : UInt64
  parent1 : TxHash
  parent2 : TxHash
  weight : ℕ
  isTip : Bool
  dagTxIndex : ℕ
  feeSplit : FeeSplit
  conflicted : Bool
  deriving DecidableEq

structure IndexedVertex where
  hash : TxHash
  txCount : ℕ
  subsidy : ℕ
  totalFees : UInt64
  minerShare : ℕ
  relayShare : ℕ
  miner : String
  txs : List IndexedTransaction
  deriving DecidableEq

structure WalletSnapshot where
  address : String
  balance : ℕ
  nonce : ℕ
  txs : List IndexedTransaction
  deriving DecidableEq

structure NetworkStats where
  vertexCount : ℕ
  tipCount : ℕ
  dagTxCount : ℕ
  circulatingSupply : ℕ
  hardCap : ℕ
  txsRemainingUntilHalving : ℕ
  deriving DecidableEq

/-! ## Addresses -/

/-- `hexDecode` is `hex::decode`. -/
def parseExplorerAddress (hexDecode : String → Option Bytes) (input : String) : Option Address :=
  let trimmed := trimText input
  if trimmed = "" then none
  else
    match decodeKron trimmed with
    | .ok parsed => some parsed
    | .error _ =>
      let hex := ((Text.stripPrefix "0x".toList trimmed.toList).map String.ofList).getD trimmed
      match hexDecode hex with
      | none => none
      | some bytes => if bytes.length ≠ 32 then none else some (hashOfBytes bytes)

def canonicalKron1 (hexDecode : String → Option Bytes) (input : String) : Option String :=
  (parseExplorerAddress hexDecode input).map encodeKron

def indexVertex (dag : KronDAG) (tx : DagTransaction) (dagTxIndex : ℕ) : IndexedTransaction :=
  let pool :=
    if tx.isGenesis then 0
    else saturatingAdd (getCurrentTxSubsidy (dagTxIndex - 1) 0) tx.fee.toNat
  { hash := tx.id
    fromKron1 := tx.senderKron1
    toKron1 := tx.recipientKron1
    amount := tx.amount
    fee := tx.fee
    parent1 := tx.parent1
    parent2 := tx.parent2
    weight := dag.cumulativeWeight tx.id
    isTip := dag.tips.contains tx.id
    dagTxIndex := dagTxIndex
    conflicted := dag.isConflict tx.id
    feeSplit :=
      { minerAmount := dagMinerShareOf pool
        relayAmount := dagRelayTotalOf pool
        minerAddress := tx.senderKron1
        relayAddresses := tx.relayNodes.map encodeKron } }

/-! ## The engine -/

structure ExplorerEngine where
  txsByHash : AList fun _ : TxHash => IndexedTransaction
  historyByKron1 : AList fun _ : String => List TxHash
  balancesByKron1 : Tally String
  noncesByKron1 : Tally String
  genesis : TxHash
  order : List TxHash
  tips : List TxHash
  circulatingSupply : ℕ
  dagTxCount : ℕ
  vertexCount : ℕ

namespace ExplorerEngine

def default : ExplorerEngine := ⟨∅, ∅, ∅, ∅, 0, [], [], 0, 0, 0⟩

def pushHistory (e : ExplorerEngine) (kron1 : String) (hash : TxHash) : ExplorerEngine :=
  { e with historyByKron1 := Assoc.pushNewAt e.historyByKron1 kron1 hash }

variable (hexDecode : String → Option Bytes)

/-- One turn of the loop over the vertices. -/
def addRow (e : ExplorerEngine) (row : IndexedTransaction) : ExplorerEngine :=
  let e :=
    { e with txsByHash := e.txsByHash.insert row.hash row, order := e.order ++ [row.hash] }
  let e :=
    if (canonicalKron1 hexDecode row.fromKron1).isSome then e.pushHistory row.fromKron1 row.hash
    else e
  if row.toKron1 ≠ row.fromKron1 then e.pushHistory row.toKron1 row.hash else e

/-- The loop, with the count of the vertices so far that are no genesis. -/
def addRows (dag : KronDAG) : ℕ → ExplorerEngine → List DagTransaction → ExplorerEngine
  | _, e, [] => e
  | userIndex, e, tx :: txs =>
    let userIndex := if tx.isGenesis = false then saturatingAdd userIndex 1 else userIndex
    addRows dag userIndex (e.addRow hexDecode (indexVertex dag tx userIndex)) txs

def syncBalances (e : ExplorerEngine) (state : MeshState) : ExplorerEngine :=
  { e with
    balancesByKron1 := (inOrder state.accounts).foldl
      (fun balances b => balances.set (encodeKron b.1) b.2) e.balancesByKron1 }

def syncNonces (e : ExplorerEngine) (state : MeshState) : ExplorerEngine :=
  { e with
    noncesByKron1 := (inOrder state.nonces).foldl
      (fun nonces n => nonces.set (encodeKron n.1) n.2) e.noncesByKron1 }

/-- What was there before is dropped. -/
def syncFromDag (_ : ExplorerEngine) (dag : KronDAG) : ExplorerEngine :=
  let state := MeshState.fromDag dag
  let e := addRows hexDecode dag 0 default dag.transactionsInOrder
  let e := (e.syncBalances state).syncNonces state
  { e with
    genesis := state.genesis
    circulatingSupply := state.circulatingSupply
    dagTxCount := state.dagTxCount
    vertexCount := dag.vertexCount
    tips := state.tips }

def getWalletHistory (e : ExplorerEngine) (address : String) : List IndexedTransaction :=
  match canonicalKron1 hexDecode address with
  | none => []
  | some kron1 =>
    match e.historyByKron1.lookup kron1 with
    | none => []
    | some hashes =>
      sortByKey IndexedTransaction.dagTxIndex (hashes.filterMap fun h => e.txsByHash.lookup h)

def getWalletSnapshot (e : ExplorerEngine) (address : String) : WalletSnapshot :=
  let kron1 := (canonicalKron1 hexDecode address).getD (trimText address)
  { address := kron1
    balance := e.balancesByKron1.get kron1
    nonce := e.noncesByKron1.get kron1
    txs := e.getWalletHistory hexDecode kron1 }

/-- Nonce, parents and balance for a spend: the first two tips of the sorted list, or the only one
and the genesis vertex. -/
def composeHint (e : ExplorerEngine) (address : String) : ℕ × TxHash × TxHash × ℕ :=
  let snap := e.getWalletSnapshot hexDecode address
  let parents :=
    match e.tips with
    | [] => (e.genesis, e.genesis)
    | [t] => (t, e.genesis)
    | a :: b :: _ => (a, b)
  (snap.nonce, parents.1, parents.2, snap.balance)

def getTransactionByHash (e : ExplorerEngine) (hash : TxHash) : Option IndexedTransaction :=
  e.txsByHash.lookup hash

def getNetworkStats (e : ExplorerEngine) : NetworkStats where
  vertexCount := e.vertexCount
  tipCount := e.tips.length
  dagTxCount := e.dagTxCount
  circulatingSupply := e.circulatingSupply
  hardCap := hardCap
  txsRemainingUntilHalving := txsRemainingUntilHalving e.dagTxCount

/-- The latest come first. -/
def recentTransactions (e : ExplorerEngine) (limit : ℕ) : List IndexedTransaction :=
  (e.order.reverse.filterMap fun h => e.txsByHash.lookup h).take limit

def recentVertices (e : ExplorerEngine) (limit : ℕ) : List IndexedVertex :=
  (e.recentTransactions limit).map fun tx =>
    let pool := saturatingAdd tx.feeSplit.minerAmount tx.feeSplit.relayAmount
    { hash := tx.hash
      txCount := 1
      subsidy := pool - tx.fee.toNat
      totalFees := tx.fee
      minerShare := tx.feeSplit.minerAmount
      relayShare := tx.feeSplit.relayAmount
      miner := tx.fromKron1
      txs := [tx] }

end ExplorerEngine

/-! ## Spellings of an address -/

section Spelling

variable {hexDecode : String → Option Bytes} {a b : Address}

theorem encodeKron_inj : encodeKron a = encodeKron b ↔ a = b := by
  refine ⟨fun h => ?_, congrArg encodeKron⟩
  have ha := decodeKron_encodeKron a
  rw [h, decodeKron_encodeKron b] at ha
  exact (Except.ok.inj ha).symm

/-- A text without blanks that is read as an address is one. -/
theorem parseExplorerAddress_of_ok {s : String} (h : ∀ c ∈ s.toList, isWhitespace c = false)
    (hok : decodeKron s = .ok a) : parseExplorerAddress hexDecode s = some a := by
  have hne : s ≠ "" := by
    rintro rfl
    exact absurd hok (by rw [show decodeKron "" = .error (.err .empty) by decide]; exact nofun)
  unfold parseExplorerAddress
  rw [trimText_of_none h]
  simp only [hne, if_false, hok]

theorem parseExplorerAddress_encodeKron : parseExplorerAddress hexDecode (encodeKron a) = some a :=
  parseExplorerAddress_of_ok
    (fun _ hc =>
      forall_encodeKron (P := fun c => isWhitespace c = false) (by decide) (by decide) hc)
    (decodeKron_encodeKron a)

theorem canonicalKron1_encodeKron :
    canonicalKron1 hexDecode (encodeKron a) = some (encodeKron a) := by
  rw [canonicalKron1, parseExplorerAddress_encodeKron, Option.map_some]

/-- `str::to_ascii_uppercase`; `Char.toUpper` moves the letters of ASCII only. -/
def toAsciiUppercase (s : String) : String := String.ofList (s.toList.map Char.toUpper)

/-- What holds of the letters in upper case holds of an address in upper case. -/
theorem forall_upper {Q : Char → Prop} (h : "kron1".toList.Forall fun c => Q c.toUpper)
    (hs : charset.Forall fun c => Q c.toUpper) {c : Char}
    (hc : c ∈ (toAsciiUppercase (encodeKron a)).toList) : Q c := by
  rw [toAsciiUppercase, String.toList_ofList, List.mem_map] at hc
  obtain ⟨c', hc', rfl⟩ := hc
  exact forall_encodeKron (P := fun c => Q c.toUpper) h hs hc'

theorem parseExplorerAddress_upper :
    parseExplorerAddress hexDecode (toAsciiUppercase (encodeKron a)) = some a := by
  have hnormal : normalizeBech32Input (toAsciiUppercase (encodeKron a))
      = toAsciiUppercase (encodeKron a) := by
    have hkeep : ∀ c ∈ (toAsciiUppercase (encodeKron a)).toList,
        (!isIgnorableAddressChar c) = true := fun c hc =>
      forall_upper (Q := fun c => (!isIgnorableAddressChar c) = true) (by decide) (by decide) hc
    rw [normalizeBech32Input, List.filter_eq_self.2 hkeep, String.ofList_toList]
  have hlower : toAsciiLowercase (toAsciiUppercase (encodeKron a)) = encodeKron a := by
    have hback : ∀ c ∈ (encodeKron a).toList, (Char.toLower ∘ Char.toUpper) c = c := fun c hc =>
      forall_encodeKron (P := fun c => c.toUpper.toLower = c) (by decide) (by decide) hc
    rw [toAsciiLowercase, toAsciiUppercase, String.toList_ofList, List.map_map,
      (List.map_congr_left hback).trans (List.map_id' _), String.ofList_toList]
  refine parseExplorerAddress_of_ok (fun c hc => ?_) (decodeKron_eq_ok_iff.2 ⟨?_, ?_⟩)
  · exact forall_upper (Q := fun c => isWhitespace c = false) (by decide) (by decide) hc
  · rw [hnormal]
    rintro ⟨hlow, -⟩
    obtain ⟨b, hb, hlow⟩ := List.any_eq_true.1 hlow
    obtain ⟨c, hc, hbc⟩ := List.mem_flatMap.1 hb
    have hupper := forall_upper
      (Q := fun c => (String.utf8EncodeChar c).any isAsciiLowercase = false) (by decide) (by decide)
      hc
    exact List.any_eq_false.1 hupper b hbc hlow
  · rw [hnormal, hlower]

/-- A text without a `k` is no display address. -/
theorem decodeKron_ne_ok {s : String} (h : ∀ c ∈ s.toList, c.toLower ≠ 'k') :
    decodeKron s ≠ .ok a := by
  intro hok
  have hone : 'k' ∈ "kron1".toList := by decide
  have hk : 'k' ∈ (encodeKron a).toList := by
    rw [toList_encodeKron]
    exact List.mem_append_left _ hone
  rw [← (decodeKron_eq_ok_iff.1 hok).2, toAsciiLowercase, String.toList_ofList,
    normalizeBech32Input, String.toList_ofList, List.mem_map] at hk
  obtain ⟨c, hc, hck⟩ := hk
  exact h c (List.mem_of_mem_filter hc) hck

/-- What is written in digits of base sixteen, behind `0x` or not, is read as what it decodes to. -/
theorem parseExplorerAddress_of_hex {s t : String} (hne : s ≠ "")
    (hs : ∀ c ∈ s.toList, c = 'x' ∨ c ∈ hexDigits)
    (hstrip : ((Text.stripPrefix "0x".toList s.toList).map String.ofList).getD s = t)
    (ht : hexDecode t = some (hashBytes a)) : parseExplorerAddress hexDecode s = some a := by
  have hchars : ('x' :: hexDigits).Forall fun c => isWhitespace c = false ∧ c.toLower ≠ 'k' := by
    decide
  rw [List.forall_iff_forall_mem] at hchars
  have hall : ∀ c ∈ s.toList, isWhitespace c = false ∧ c.toLower ≠ 'k' :=
    fun c hc => hchars c (List.mem_cons.2 (hs c hc))
  unfold parseExplorerAddress
  rw [trimText_of_none fun c hc => (hall c hc).1]
  simp only [hne, if_false, hstrip, ht]
  rcases hd : decodeKron s with e | b
  · simp only [length_hashBytes, ne_eq, not_true, if_false, hashOfBytes_hashBytes]
  · exact absurd hd (decodeKron_ne_ok fun c hc => (hall c hc).2)

/-- An address in digits of base sixteen. -/
theorem parseExplorerAddress_hex {t : String} (hne : t ≠ "")
    (hdigits : ∀ c ∈ t.toList, c ∈ hexDigits) (ht : hexDecode t = some (hashBytes a)) :
    parseExplorerAddress hexDecode t = some a
      ∧ parseExplorerAddress hexDecode ("0x" ++ t) = some a := by
  constructor
  · have hnone : Text.stripPrefix "0x".toList t.toList = none := by
      refine Text.stripPrefix_eq_none fun hpre => ?_
      have hx : 'x' ∈ t.toList := hpre.subset (by decide : 'x' ∈ "0x".toList)
      exact absurd (hdigits _ hx) (by decide)
    refine parseExplorerAddress_of_hex hne (fun c hc => .inr (hdigits c hc)) ?_ ht
    rw [hnone]
    rfl
  · refine parseExplorerAddress_of_hex (by simp) (fun c hc => ?_) ?_ ht
    · rw [String.toList_append, List.mem_append] at hc
      rcases hc with hc | hc
      · exact List.forall_iff_forall_mem.1
          (by decide : "0x".toList.Forall fun c => c = 'x' ∨ c ∈ hexDigits) c hc
      · exact .inr (hdigits c hc)
    · rw [String.toList_append, Text.stripPrefix_append, Option.map_some, Option.getD_some,
        String.ofList_toList]

end Spelling

/-! ## Rows -/

section Rows

variable (d : KronDAG)

/-- The rows of the loop. -/
def indexRows : ℕ → List DagTransaction → List IndexedTransaction
  | _, [] => []
  | userIndex, tx :: txs =>
    let userIndex := if tx.isGenesis = false then saturatingAdd userIndex 1 else userIndex
    indexVertex d tx userIndex :: indexRows userIndex txs

theorem addRows_eq (hexDecode : String → Option Bytes) : ∀ (txs : List DagTransaction)
    (userIndex : ℕ) (e : ExplorerEngine), ExplorerEngine.addRows hexDecode d userIndex e txs
      = (indexRows d userIndex txs).foldl (ExplorerEngine.addRow hexDecode) e
  | [], _, _ => rfl
  | _ :: txs, _, _ => addRows_eq hexDecode txs _ _

theorem mem_indexRows {row : IndexedTransaction} : ∀ {txs : List DagTransaction} {userIndex : ℕ},
    row ∈ indexRows d userIndex txs → ∃ tx ∈ txs, ∃ i, row = indexVertex d tx i
  | tx :: txs, userIndex, h => by
    rcases List.mem_cons.1 h with rfl | h
    · exact ⟨tx, List.mem_cons_self, _, rfl⟩
    · obtain ⟨tx', htx', hrow⟩ := mem_indexRows h
      exact ⟨tx', List.mem_cons_of_mem tx htx', hrow⟩

/-- The rows of some vertices, by what is copied of them. -/
theorem filter_indexRows (p : IndexedTransaction → Bool) (q : DagTransaction → Bool)
    (hpq : ∀ tx i, p (indexVertex d tx i) = q tx) : ∀ (txs : List DagTransaction) (userIndex : ℕ),
    ((indexRows d userIndex txs).filter p).map IndexedTransaction.hash
      = (txs.filter q).map DagTransaction.id
  | [], _ => rfl
  | tx :: txs, userIndex => by
    rw [indexRows, List.filter_cons, List.filter_cons, hpq]
    by_cases hq : q tx = true
    · rw [if_pos hq, if_pos hq, List.map_cons, List.map_cons, filter_indexRows p q hpq txs]
      rfl
    · rw [if_neg hq, if_neg hq]
      exact filter_indexRows p q hpq txs _

theorem map_hash_indexRows (txs : List DagTransaction) (userIndex : ℕ) :
    (indexRows d userIndex txs).map IndexedTransaction.hash = txs.map DagTransaction.id := by
  have h := filter_indexRows d (fun _ => true) (fun _ => true) (fun _ _ => rfl) txs userIndex
  rwa [List.filter_true, List.filter_true] at h

/-- The count of the vertices never falls along the rows. -/
theorem indexRows_pairwise : ∀ (txs : List DagTransaction) {userIndex : ℕ}, userIndex ≤ u64Max →
    (indexRows d userIndex txs).Pairwise (fun r r' => r.dagTxIndex ≤ r'.dagTxIndex)
      ∧ ∀ row ∈ indexRows d userIndex txs, userIndex ≤ row.dagTxIndex
  | [], _, _ => ⟨List.Pairwise.nil, nofun⟩
  | tx :: txs, userIndex, hle => by
    have hnext : ∃ i, userIndex ≤ i ∧ i ≤ u64Max
        ∧ (if tx.isGenesis = false then saturatingAdd userIndex 1 else userIndex) = i := by
      refine ⟨_, ?_, ?_, rfl⟩
      · unfold saturatingAdd
        split_ifs <;> omega
      · unfold saturatingAdd
        split_ifs <;> omega
    obtain ⟨i, hi, hmax, heq⟩ := hnext
    obtain ⟨hpair, hall⟩ := indexRows_pairwise txs hmax
    rw [indexRows, heq]
    refine ⟨List.Pairwise.cons hall hpair, fun row hrow => ?_⟩
    rcases List.mem_cons.1 hrow with rfl | hrow
    · exact hi
    · exact hi.trans (hall row hrow)

end Rows

/-! ## What the maps hold -/

namespace ExplorerEngine

variable {hexDecode : String → Option Bytes} {e : ExplorerEngine} {rows : List IndexedTransaction}
  {row : IndexedTransaction}

/-- The rows are found by their hashes, and each history names those of its address in order. -/
structure Recorded (e : ExplorerEngine) (rows : List IndexedTransaction) : Prop where
  lookup : ∀ row ∈ rows, e.txsByHash.lookup row.hash = some row
  history : ∀ k, (e.historyByKron1.lookup k).getD []
    = (rows.filter fun r => r.fromKron1 = k ∨ r.toKron1 = k).map IndexedTransaction.hash

theorem recorded_default : default.Recorded [] := ⟨nofun, fun _ => rfl⟩

/-- What a turn of the loop does to the maps. -/
theorem addRow_eq (e : ExplorerEngine)
    (hfrom : (canonicalKron1 hexDecode row.fromKron1).isSome = true) :
    e.addRow hexDecode row =
      { e with
        txsByHash := e.txsByHash.insert row.hash row
        order := e.order ++ [row.hash]
        historyByKron1 :=
          if row.toKron1 ≠ row.fromKron1 then
            Assoc.pushNewAt (Assoc.pushNewAt e.historyByKron1 row.fromKron1 row.hash) row.toKron1
              row.hash
          else Assoc.pushNewAt e.historyByKron1 row.fromKron1 row.hash } := by
  unfold addRow pushHistory
  simp only [hfrom, if_true]
  split_ifs <;> rfl

/-- A row with a new hash enters the histories of its two addresses, or of its one. -/
theorem Recorded.addRow (h : e.Recorded rows) (hnew : row.hash ∉ rows.map IndexedTransaction.hash)
    (hfrom : (canonicalKron1 hexDecode row.fromKron1).isSome = true) :
    (e.addRow hexDecode row).Recorded (rows ++ [row]) := by
  have hnot : ∀ k, row.hash ∉ (e.historyByKron1.lookup k).getD [] := by
    intro k hmem
    rw [h.history k] at hmem
    obtain ⟨r, hr, heq⟩ := List.mem_map.1 hmem
    exact hnew (heq ▸ List.mem_map_of_mem (List.mem_of_mem_filter hr))
  rw [addRow_eq e hfrom]
  refine ⟨fun r hr => ?_, fun k => ?_⟩
  · rcases List.mem_append.1 hr with hr | hr
    · have hne : r.hash ≠ row.hash := fun heq => hnew (heq ▸ List.mem_map_of_mem hr)
      exact (AList.lookup_insert_ne hne).trans (h.lookup r hr)
    · obtain rfl := List.mem_singleton.1 hr
      exact AList.lookup_insert _
  · have hlast : ((rows ++ [row]).filter fun r => r.fromKron1 = k ∨ r.toKron1 = k).map
        IndexedTransaction.hash = (e.historyByKron1.lookup k).getD []
          ++ if row.fromKron1 = k ∨ row.toKron1 = k then [row.hash] else [] := by
      rw [List.filter_append, List.map_append, ← h.history k, List.filter_cons, List.filter_nil]
      simp only [decide_eq_true_eq]
      split_ifs <;> rfl
    have hone := Assoc.getD_pushNewAt (hnot row.fromKron1)
    rw [hlast]
    by_cases hto : row.toKron1 = row.fromKron1
    · dsimp only
      rw [if_neg (not_not.2 hto), hone, hto]
      grind
    · have hnot' : row.hash ∉ ((Assoc.pushNewAt e.historyByKron1 row.fromKron1 row.hash).lookup
          row.toKron1).getD [] := by
        rw [hone, if_neg hto, List.append_nil]
        exact hnot _
      dsimp only
      rw [if_pos hto, Assoc.getD_pushNewAt hnot', hone]
      grind

theorem Recorded.foldl : ∀ {more rows : List IndexedTransaction} {e : ExplorerEngine},
    e.Recorded rows → ((rows ++ more).map IndexedTransaction.hash).Nodup →
    (∀ row ∈ more, (canonicalKron1 hexDecode row.fromKron1).isSome = true) →
    (more.foldl (ExplorerEngine.addRow hexDecode) e).Recorded (rows ++ more)
  | [], rows, e, h, _, _ => by rwa [List.append_nil]
  | row :: more, rows, e, h, hnd, hfrom => by
    obtain ⟨hrow, hfrom⟩ := List.forall_mem_cons.1 hfrom
    have hnew : row.hash ∉ rows.map IndexedTransaction.hash := by
      rw [List.map_append, List.nodup_append] at hnd
      exact fun hmem => hnd.2.2 _ hmem row.hash (List.mem_map_of_mem List.mem_cons_self) rfl
    rw [List.append_cons] at hnd ⊢
    exact (h.addRow hnew hrow).foldl hnd hfrom

theorem addRow_frame (hexDecode : String → Option Bytes) (e : ExplorerEngine)
    (row : IndexedTransaction) :
    (e.addRow hexDecode row).balancesByKron1 = e.balancesByKron1
      ∧ (e.addRow hexDecode row).noncesByKron1 = e.noncesByKron1 := by
  unfold addRow pushHistory
  simp only []
  split_ifs <;> exact ⟨rfl, rfl⟩

theorem foldl_addRow_frame (hexDecode : String → Option Bytes) :
    ∀ (rows : List IndexedTransaction) (e : ExplorerEngine),
    (rows.foldl (addRow hexDecode) e).balancesByKron1 = e.balancesByKron1
      ∧ (rows.foldl (addRow hexDecode) e).noncesByKron1 = e.noncesByKron1
  | [], _ => ⟨rfl, rfl⟩
  | row :: rows, e => by
    obtain ⟨hb, hn⟩ := foldl_addRow_frame hexDecode rows (e.addRow hexDecode row)
    obtain ⟨hb', hn'⟩ := addRow_frame hexDecode e row
    exact ⟨hb.trans hb', hn.trans hn'⟩

/-- A history is read by the rows of its hashes. -/
theorem getWalletHistory_eq (e : ExplorerEngine) (a : Address) :
    e.getWalletHistory hexDecode (encodeKron a) = sortByKey IndexedTransaction.dagTxIndex
      (((e.historyByKron1.lookup (encodeKron a)).getD []).filterMap fun h =>
        e.txsByHash.lookup h) := by
  unfold getWalletHistory
  rw [canonicalKron1_encodeKron]
  dsimp only
  rcases e.historyByKron1.lookup (encodeKron a) with _ | hashes
  · exact (sortByKey_of_pairwise List.Pairwise.nil).symm
  · rfl

/-- What is recorded of rows in order is read back as those of the address. -/
theorem Recorded.getWalletHistory (h : e.Recorded rows)
    (hsorted : rows.Pairwise fun r r' => r.dagTxIndex ≤ r'.dagTxIndex) (a : Address) :
    e.getWalletHistory hexDecode (encodeKron a)
      = rows.filter fun r => r.fromKron1 = encodeKron a ∨ r.toKron1 = encodeKron a := by
  have hread : ∀ {l : List IndexedTransaction}, l ⊆ rows →
      (l.map IndexedTransaction.hash).filterMap (fun h => e.txsByHash.lookup h) = l := by
    intro l hl
    rw [List.filterMap_map]
    exact (List.filterMap_congr fun r hr => h.lookup r (hl hr)).trans List.filterMap_some
  rw [getWalletHistory_eq, h.history, hread (List.filter_subset_self _)]
  exact sortByKey_of_pairwise (hsorted.sublist List.filter_sublist)

end ExplorerEngine

/-- A map that is copied under display addresses counts there what it counts of the addresses. -/
theorem get_foldl_encodeKron (t : Tally Address) (a : Address) :
    ((inOrder t).foldl (fun m b => m.set (encodeKron b.1) b.2) (∅ : Tally String)).get
      (encodeKron a) = t.get a := by
  have hpairs : (inOrder t).foldl (fun m b => m.set (encodeKron b.1) b.2) (∅ : Tally String)
      = Assoc.ofPairs ((inOrder t).map fun b => (encodeKron b.1, b.2)) := by
    rw [Assoc.ofPairs, List.foldl_map]
    rfl
  have hmem : ∀ {b : Address} {n : ℕ}, (encodeKron b, n)
      ∈ (inOrder t).map (fun b => (encodeKron b.1, b.2)) ↔ t.lookup b = some n := by
    intro b n
    rw [← Option.mem_def, AList.mem_lookup_iff, ← (perm_inOrder t).mem_iff, List.mem_map]
    constructor
    · rintro ⟨⟨b', n'⟩, hmem, heq⟩
      obtain ⟨hb, rfl⟩ := Prod.mk.inj heq
      rwa [← encodeKron_inj.1 hb]
    · exact fun hmem => ⟨⟨b, n⟩, hmem, rfl⟩
  have hfun : ∀ k n n', (k, n) ∈ (inOrder t).map (fun b => (encodeKron b.1, b.2)) →
      (k, n') ∈ (inOrder t).map (fun b => (encodeKron b.1, b.2)) → n = n' := by
    intro k n n' hk hk'
    obtain ⟨b, -, heq⟩ := List.mem_map.1 hk
    obtain rfl : encodeKron b.1 = k := congrArg Prod.fst heq
    exact Option.some.inj ((hmem.1 hk).symm.trans (hmem.1 hk'))
  rw [hpairs, Tally.get, Tally.get]
  refine congrArg (Option.getD · 0) (Option.ext fun n => ?_)
  rw [Assoc.lookup_ofPairs hfun, hmem]

/-! ## The mirror -/

/-- The vertices in attach order, by their ids. -/
theorem Graph.WF.map_id_transactionsInOrder {g : Graph} (hg : g.WF) :
    g.transactionsInOrder.map DagTransaction.id = g.attachOrder := by
  unfold Graph.transactionsInOrder
  rw [List.map_filterMap]
  refine (List.filterMap_congr fun id hid => ?_).trans List.filterMap_some
  obtain ⟨tx, hl⟩ := Option.isSome_iff_exists.1 ((hg.mem_order id).1 hid)
  rw [hl, Option.map_some, hg.id_eq hl]

/-- A verified vertex shows the addresses of its sender and recipient. -/
theorem DagTransaction.kron1_of_verify {P : Primitives} {tx : DagTransaction}
    (h : tx.verifySignature P = true) :
    tx.senderKron1 = encodeKron tx.sender ∧ tx.recipientKron1 = encodeKron tx.recipient := by
  simp only [verifySignature, Bool.and_eq_true, beq_iff_eq, deriveKronAddress] at h
  obtain ⟨⟨⟨haddr, hsender⟩, hrecipient⟩, -⟩ := h
  exact ⟨by rw [← hsender, haddr], hrecipient.symm⟩

/-- What a snapshot shows of an address is what the node knows of it. The history lists the stored
vertices it sent or received, each once, in attach order. -/
structure WalletSnapshot.Mirrors (snap : WalletSnapshot) (dag : KronDAG) (a : Address) : Prop where
  balance : snap.balance = dag.balance a
  nonce : snap.nonce = dag.nextNonce.get a
  order : (snap.txs.map IndexedTransaction.hash).Sublist dag.attachOrder
  nodup : (snap.txs.map IndexedTransaction.hash).Nodup
  mem : ∀ id, id ∈ snap.txs.map IndexedTransaction.hash ↔
    ∃ tx, dag.vertices.lookup id = some tx ∧ (tx.sender = a ∨ tx.recipient = a)
  flags : ∀ row ∈ snap.txs, row.conflicted = dag.isConflict row.hash
    ∧ row.weight = dag.cumulativeWeight row.hash ∧ row.isTip = decide (row.hash ∈ dag.tips)

section Mirror

variable {P : Primitives} {start : Graph} {dag : KronDAG} {hexDecode : String → Option Bytes}

theorem syncFromDag_balances (dag : KronDAG) (hexDecode : String → Option Bytes)
    (e : ExplorerEngine) (a : Address) :
    (e.syncFromDag hexDecode dag).balancesByKron1.get (encodeKron a) = dag.balance a
      ∧ (e.syncFromDag hexDecode dag).noncesByKron1.get (encodeKron a) = dag.nextNonce.get a := by
  unfold ExplorerEngine.syncFromDag ExplorerEngine.syncNonces ExplorerEngine.syncBalances
  dsimp only
  rw [addRows_eq]
  obtain ⟨hb, hn⟩ := ExplorerEngine.foldl_addRow_frame hexDecode
    (indexRows dag 0 dag.transactionsInOrder) .default
  rw [hb, hn]
  exact ⟨get_foldl_encodeKron _ a, get_foldl_encodeKron _ a⟩

/-- The rows of a grown graph are all recorded. -/
theorem Graph.Grown.recorded (hg : dag.toGraph.Grown P start) (e : ExplorerEngine) :
    (e.syncFromDag hexDecode dag).Recorded (indexRows dag 0 dag.transactionsInOrder) := by
  have hnd : ((indexRows dag 0 dag.transactionsInOrder).map IndexedTransaction.hash).Nodup := by
    rw [map_hash_indexRows, hg.wf.map_id_transactionsInOrder]
    exact hg.wf.nodup
  have hfrom : ∀ row ∈ indexRows dag 0 dag.transactionsInOrder,
      (canonicalKron1 hexDecode row.fromKron1).isSome = true := by
    intro row hrow
    obtain ⟨tx, htx, i, rfl⟩ := mem_indexRows dag hrow
    have hl := (Graph.mem_transactionsInOrder hg.wf).1 htx
    have hkron : (indexVertex dag tx i).fromKron1 = encodeKron tx.sender :=
      (DagTransaction.kron1_of_verify (hg.verified hl).1).1
    rw [hkron, canonicalKron1_encodeKron]
    rfl
  have hrec := ExplorerEngine.recorded_default.foldl hnd hfrom
  rw [← addRows_eq] at hrec
  exact ⟨hrec.lookup, hrec.history⟩

/-- Every spelling of an address is looked up under one key. -/
theorem getWalletSnapshot_eq (e : ExplorerEngine) {a : Address} {s : String}
    (hs : parseExplorerAddress hexDecode s = some a) : e.getWalletSnapshot hexDecode s
      = ⟨encodeKron a, e.balancesByKron1.get (encodeKron a), e.noncesByKron1.get (encodeKron a),
        e.getWalletHistory hexDecode (encodeKron a)⟩ := by
  have hkron : (canonicalKron1 hexDecode s).getD (trimText s) = encodeKron a := by
    rw [canonicalKron1, hs, Option.map_some, Option.getD_some]
  unfold ExplorerEngine.getWalletSnapshot
  rw [hkron]

theorem Graph.Grown.mirrors (hg : dag.toGraph.Grown P start) (e : ExplorerEngine) {a : Address}
    {s : String} (hs : parseExplorerAddress hexDecode s = some a) :
    ((e.syncFromDag hexDecode dag).getWalletSnapshot hexDecode s).Mirrors dag a := by
  obtain ⟨hbalance, hnonce⟩ := syncFromDag_balances dag hexDecode e a
  rw [getWalletSnapshot_eq _ hs, hbalance, hnonce, (hg.recorded e).getWalletHistory
    (indexRows_pairwise dag _ (Nat.zero_le _)).1 a]
  have hids : ((indexRows dag 0 dag.transactionsInOrder).filter fun r =>
      r.fromKron1 = encodeKron a ∨ r.toKron1 = encodeKron a).map IndexedTransaction.hash
        = (dag.transactionsInOrder.filter fun tx =>
          tx.senderKron1 = encodeKron a ∨ tx.recipientKron1 = encodeKron a).map DagTransaction.id :=
    filter_indexRows dag _ _ (fun _ _ => rfl) _ _
  have hsub : (((indexRows dag 0 dag.transactionsInOrder).filter fun r =>
      r.fromKron1 = encodeKron a ∨ r.toKron1 = encodeKron a).map IndexedTransaction.hash).Sublist
        dag.attachOrder := by
    rw [hids, ← hg.wf.map_id_transactionsInOrder]
    exact List.filter_sublist.map _
  refine ⟨rfl, rfl, hsub, hg.wf.nodup.sublist hsub, fun id => ?_, fun row hrow => ?_⟩
  · rw [hids, List.mem_map]
    constructor
    · rintro ⟨tx, htx, rfl⟩
      obtain ⟨hmem, hof⟩ := List.mem_filter.1 htx
      have hl := (Graph.mem_transactionsInOrder hg.wf).1 hmem
      obtain ⟨hsender, hrecipient⟩ := DagTransaction.kron1_of_verify (hg.verified hl).1
      rw [decide_eq_true_eq, hsender, hrecipient, encodeKron_inj, encodeKron_inj] at hof
      exact ⟨tx, hl, hof⟩
    · rintro ⟨tx, hl, hof⟩
      obtain rfl := hg.wf.id_eq hl
      obtain ⟨hsender, hrecipient⟩ := DagTransaction.kron1_of_verify (hg.verified hl).1
      refine ⟨tx, List.mem_filter.2 ⟨(Graph.mem_transactionsInOrder hg.wf).2 hl, ?_⟩, rfl⟩
      rwa [decide_eq_true_eq, hsender, hrecipient, encodeKron_inj, encodeKron_inj]
  · obtain ⟨tx, -, i, rfl⟩ := mem_indexRows dag (List.mem_of_mem_filter hrow)
    exact ⟨rfl, rfl, List.contains_eq_mem _ _⟩

end Mirror

section Run

variable {P : Primitives} {d : KronDAG}

/-- In every state of a run the copy that the explorer makes, whatever it held, shows of an address
what the node knows, under every spelling that is read as it: the display address in either case,
the hex digits with `0x` or without, and whatever else is. -/
theorem getWalletSnapshot_run (h : KronDAG.withGenesis P = some d) (ops : List Op)
    (hexDecode : String → Option Bytes) (e : ExplorerEngine) (a : Address) :
    (∀ s, parseExplorerAddress hexDecode s = some a →
      ((e.syncFromDag hexDecode (run P d ops)).getWalletSnapshot hexDecode s).Mirrors (run P d ops)
        a)
    ∧ parseExplorerAddress hexDecode (encodeKron a) = some a
    ∧ parseExplorerAddress hexDecode (toAsciiUppercase (encodeKron a)) = some a
    ∧ ∀ t : String, t ≠ "" → (∀ c ∈ t.toList, c ∈ hexDigits) → hexDecode t = some (hashBytes a) →
      parseExplorerAddress hexDecode t = some a
        ∧ parseExplorerAddress hexDecode ("0x" ++ t) = some a :=
  ⟨fun _ hs => (grown_run h ops).mirrors e hs, parseExplorerAddress_encodeKron,
    parseExplorerAddress_upper, fun _ => parseExplorerAddress_hex⟩

section

open StandIn

/-- Asked in upper case, the explorer shows the wallet that sent the first transfer. -/
theorem getWalletSnapshot_run_firstOps : ∃ snap : WalletSnapshot,
    (ExplorerEngine.default.syncFromDag (fun _ => none)
      (run primitives genesisDag firstOps)).getWalletSnapshot (fun _ => none)
        (toAsciiUppercase (encodeKron (address 1))) = snap
      ∧ snap.balance = 1099000 ∧ firstTransfer.id ∈ snap.txs.map IndexedTransaction.hash := by
  obtain ⟨hall, -, hupper, -⟩ := getWalletSnapshot_run withGenesis_genesisDag firstOps
    (fun _ => none) .default (address 1)
  have hmirrors := hall _ hupper
  have hlookup : (run primitives genesisDag firstOps).vertices.lookup firstTransfer.id
      = some firstTransfer := by
    rw [run_firstOps]
    rfl
  refine ⟨_, rfl, ?_, (hmirrors.mem firstTransfer.id).2 ⟨firstTransfer, hlookup, .inl rfl⟩⟩
  rw [hmirrors.balance, run_firstOps]
  decide

end

end Run

end KronMesh
