import KronMesh.Exchange
import KronMesh.TxCodec
import KronMesh.Unfunded

/-!
# Trees over the stand-in

Graphs of any number of vertices, in which vertex `i` approves vertex `up i` twice. The digest of
the toy primitives is widened so that the id of a vertex is its amount and one.
-/

namespace KronMesh.StandIn

open Wire Word Outcome

/-- The toy primitives, with a digest that reads the amount of a vertex. Keys are digested as
before. -/
def wide : Primitives :=
  { primitives with
    sha256 := fun bytes =>
      if bytes.length = 5 + pkLen then primitives.sha256 bytes
      else BitVec.ofNat 256 (1 + leNat ((bytes.drop 128).take 8)) }

def nodeId (i : ℕ) : TxHash := BitVec.ofNat 256 (1 + i)

def root : DagTransaction :=
  signed (nodeId 0) genesisSeed nullParent nullParent (addressOf genesisSeed) 0 0 0

/-- Vertex `i`, of amount `i`. -/
def node (up : ℕ → ℕ) (i : ℕ) : DagTransaction :=
  if i = 0 then root
  else
    signed (nodeId i) (BitVec.ofNat 256 1) (nodeId (up i)) (nodeId (up i)) (address 2)
      (UInt64.ofNat i) 1000 0

/-! ## Keys and ids -/

theorem sha256_wide (bytes : Bytes) : wide.sha256 bytes
    = if bytes.length = 5 + pkLen then primitives.sha256 bytes
      else BitVec.ofNat 256 (1 + leNat ((bytes.drop 128).take 8)) := rfl

theorem address_wide (seed : Hash) :
    (LatticeKeyPair.fromSeed primitives seed).pub.address wide = addressOf seed := by
  have hlen : (LatticeKeyPair.fromSeed primitives seed).pub.toBytes.length = 5 + pkLen := by
    rw [LatticePublicKey.toBytes, length_encodeBlob]
    exact congrArg (5 + ·) (List.length_replicate ..)
  rw [← address_fromSeed seed, LatticePublicKey.address, LatticePublicKey.address, sha256_wide,
    if_pos hlen]

theorem verify_signed_wide (id : TxHash) (seed : Hash) (p1 p2 : TxHash) (r : Address)
    (a f m : UInt64) : (signed id seed p1 p2 r a f m).verifySignature wide = true := by
  have hkron : deriveKronAddress wide (LatticeKeyPair.fromSeed primitives seed).pub
      = deriveKronAddress primitives (LatticeKeyPair.fromSeed primitives seed).pub := by
    unfold deriveKronAddress
    rw [address_wide, address_fromSeed]
  unfold DagTransaction.verifySignature signed
  simp only [address_wide, hkron, beq_self_eq_true, Bool.true_and]
  exact verify_fromSeed _ _

/-- The id the code computes is the amount and one. -/
theorem computeId_wide (tx : DagTransaction) (hkey : tx.publicKey.raw.length = pkLen) :
    DagTransaction.computeId wide tx.unsignedBytes = nodeId tx.amount.toNat := by
  have hlen : tx.unsignedBytes.length ≠ 5 + pkLen := by
    rw [DagTransaction.length_unsignedBytes, LatticePublicKey.toBytes, length_encodeBlob]
    omega
  have hamount : (tx.unsignedBytes.drop 128).take 8 = leBytes 8 tx.amount.toNat := by
    have hsplit : ∀ tx : DagTransaction, tx.unsignedBytes
        = (hashBytes tx.parent1 ++ hashBytes tx.parent2 ++ hashBytes tx.sender
          ++ hashBytes tx.recipient) ++ (leBytes 8 tx.amount.toNat ++ (leBytes 8 tx.fee.toNat
            ++ (leBytes 8 tx.nonce.toNat ++ tx.publicKey.toBytes))) := by
      intro tx
      simp only [DagTransaction.unsignedBytes, List.append_assoc]
    rw [hsplit, List.drop_left' (by simp only [List.length_append, length_hashBytes]),
      List.take_left' (length_leBytes _ _)]
  rw [DagTransaction.computeId, sha256_wide, if_neg hlen, hamount,
    leNat_leBytes 8 _ tx.amount.toNat_lt, nodeId]

theorem nodeId_toNat {i : ℕ} (hi : i < 2 ^ 64) : (nodeId i).toNat = 1 + i := by
  rw [nodeId, BitVec.toNat_ofNat, Nat.mod_eq_of_lt (by omega)]

theorem nodeId_inj {i j : ℕ} (hi : i < 2 ^ 64) (hj : j < 2 ^ 64) :
    nodeId i = nodeId j ↔ i = j := by
  refine ⟨fun h => ?_, congrArg nodeId⟩
  have h := congrArg BitVec.toNat h
  rw [nodeId_toNat hi, nodeId_toNat hj] at h
  omega

theorem nodeId_ne_null {i : ℕ} (hi : i < 2 ^ 64) : nodeId i ≠ nullParent := by
  intro h
  have h := congrArg BitVec.toNat h
  rw [nodeId_toNat hi] at h
  have h0 : BitVec.toNat nullParent = 0 := rfl
  omega

/-! ## The first state -/

def rootDag : KronDAG :=
  { KronDAG.new with
    toGraph := Graph.empty.insertVertex root
    toLedger := Ledger.empty.moveSpend root (0, 0) }

theorem signedGenesisTx_wide : signedGenesisTx wide = .ok root := by
  have hkey : LatticeKeyPair.fromSeed wide genesisSeed
      = LatticeKeyPair.fromSeed primitives genesisSeed := rfl
  have hsign : ∀ m, (LatticeKeyPair.fromSeed primitives genesisSeed).secret.sign wide m
      = (LatticeKeyPair.fromSeed primitives genesisSeed).secret.sign primitives m := fun _ => rfl
  have hkron : deriveKronAddress wide (LatticeKeyPair.fromSeed primitives genesisSeed).pub
      = deriveKronAddress primitives (LatticeKeyPair.fromSeed primitives genesisSeed).pub := by
    unfold deriveKronAddress
    rw [address_wide, address_fromSeed]
  unfold signedGenesisTx DagTransaction.assemble
  simp only [DagTransaction.refreshId, hkey, address_wide, hkron, hsign]
  rw [sign_fromSeed, computeId_wide _ (List.length_replicate ..)]
  rfl

theorem withGenesis_rootDag : KronDAG.withGenesis wide = some rootDag :=
  withGenesis_of_signed signedGenesisTx_wide (verify_signed_wide _ _ _ _ _ _ _ _)

/-! ## Trees -/

/-- The genesis state behind `n` vertices that are accepted. -/
def treeOps (up : ℕ → ℕ) (n : ℕ) : List Op :=
  (List.range n).map fun i => .accept (node up (i + 1))

def tree (up : ℕ → ℕ) (n : ℕ) : KronDAG := run wide rootDag (treeOps up n)

section Tree

variable {up : ℕ → ℕ} {n i : ℕ}

theorem node_succ (up : ℕ → ℕ) (i : ℕ) : node up (i + 1)
    = signed (nodeId (i + 1)) (BitVec.ofNat 256 1) (nodeId (up (i + 1))) (nodeId (up (i + 1)))
      (address 2) (UInt64.ofNat (i + 1)) 1000 0 :=
  if_neg (Nat.succ_ne_zero i)

theorem id_node (up : ℕ → ℕ) (i : ℕ) : (node up i).id = nodeId i := by
  rcases i with _ | i
  · rfl
  · rw [node_succ]
    rfl

theorem parents_node (hi : i + 1 < 2 ^ 64) (hup : up (i + 1) < i + 1) :
    (node up (i + 1)).parents = [nodeId (up (i + 1))] := by
  have hne : nodeId (up (i + 1)) ≠ nullParent := nodeId_ne_null (by omega)
  rw [node_succ]
  simp [DagTransaction.parents, signed, hne]

theorem sound_node (hi : i + 1 < 2 ^ 64) (hup : up (i + 1) < i + 1) :
    (node up (i + 1)).Sound wide := by
  have hne : nodeId (up (i + 1)) ≠ nullParent := nodeId_ne_null (by omega)
  have hgen : (node up (i + 1)).isGenesis = false := by
    rw [node_succ]
    simp [DagTransaction.isGenesis, signed, hne]
  refine ⟨hgen, ?_, ?_, ?_, ?_⟩
  · rw [DagTransaction.requiredFee, hgen, node_succ]
    rfl
  · rw [node_succ]
    exact ⟨hne, hne⟩
  · rw [node_succ]
    exact verify_signed_wide _ _ _ _ _ _ _ _
  · rw [node_succ]
    rfl

theorem cost_node (hi : i + 1 < 2 ^ 63) : (node up (i + 1)).cost ≤ u64Max := by
  rw [node_succ]
  have hamount : (UInt64.ofNat (i + 1)).toNat = i + 1 :=
    UInt64.toNat_ofNat_of_lt' (by rw [UInt64.size]; omega)
  have hfee : (1000 : UInt64).toNat = 1000 := rfl
  change (UInt64.ofNat (i + 1)).toNat + (1000 : UInt64).toNat ≤ u64Max
  rw [hamount, hfee, u64Max]
  omega

/-- The vertices up to `n`, each under its id. -/
def Stored (up : ℕ → ℕ) (n : ℕ) (g : Graph) : Prop :=
  ∀ x tx, g.vertices.lookup x = some tx ↔ ∃ i ≤ n, x = nodeId i ∧ tx = node up i

theorem Stored.contains_iff {g : Graph} (h : Stored up n g) {i : ℕ} (hn : n < 2 ^ 64)
    (hi : i < 2 ^ 64) : g.contains (nodeId i) = true ↔ i ≤ n := by
  rw [Graph.contains_iff]
  constructor
  · rintro ⟨tx, hl⟩
    obtain ⟨j, hj, hij, -⟩ := (h _ tx).1 hl
    rw [nodeId_inj hi (by omega)] at hij
    omega
  · exact fun hi => ⟨node up i, (h _ _).2 ⟨i, hi, rfl, rfl⟩⟩

/-- Vertex `n + 1` is admitted: only its parent has to be there. -/
theorem Stored.checkVertex {g : Graph} (h : Stored up n g) (hup : up (n + 1) < n + 1)
    (hn : n + 1 < 2 ^ 64) : g.checkVertex wide (node up (n + 1)) = .ok () := by
  refine (sound_node hn hup).checkVertex ?_ fun p hp => ?_
  · rw [id_node, ← Bool.not_eq_true, h.contains_iff (by omega) hn]
    omega
  · rw [parents_node hn hup, List.mem_singleton] at hp
    rw [hp, h.contains_iff (by omega) (by omega)]
    omega

theorem stored_root : Stored up 0 rootDag.toGraph := by
  intro x tx
  have hl : rootDag.vertices.lookup x = if x = nodeId 0 then some root else none :=
    Graph.lookup_insertVertex x
  rw [hl]
  constructor
  · intro h
    split_ifs at h with hx
    · exact ⟨0, le_rfl, hx, (Option.some.inj h).symm⟩
  · rintro ⟨i, hi, rfl, rfl⟩
    obtain rfl := Nat.le_zero.1 hi
    rw [if_pos rfl]
    rfl

theorem Stored.insertVertex {g : Graph} (h : Stored up n g) (hn : n + 1 < 2 ^ 64) :
    Stored up (n + 1) (g.insertVertex (node up (n + 1))) := by
  intro x tx
  rw [Graph.lookup_insertVertex, id_node]
  by_cases hx : x = nodeId (n + 1)
  · subst hx
    rw [if_pos rfl]
    constructor
    · intro h
      exact ⟨n + 1, le_rfl, rfl, (Option.some.inj h).symm⟩
    · rintro ⟨i, hi, hid, rfl⟩
      rw [nodeId_inj hn (by omega)] at hid
      rw [hid]
  · rw [if_neg hx, h]
    constructor
    · rintro ⟨i, hi, h⟩
      exact ⟨i, by omega, h⟩
    · rintro ⟨i, hi, rfl, rfl⟩
      refine ⟨i, ?_, rfl, rfl⟩
      have : i ≠ n + 1 := fun h => hx (congrArg nodeId h)
      omega

/-- What a tree stores, and in which order. -/
theorem tree_spec (hup : ∀ i, up (i + 1) < i + 1) : ∀ n < 2 ^ 63,
    (tree up n).Unfunded ∧ (tree up n).attachOrder = (List.range (n + 1)).map nodeId
      ∧ Stored up n (tree up n).toGraph
  | 0, _ => ⟨KronDAG.unfunded_withGenesis withGenesis_rootDag, rfl, stored_root⟩
  | n + 1, hn => by
    obtain ⟨hunf, hord, hstored⟩ := tree_spec hup n (by omega)
    have hstep : tree up (n + 1) = exec wide (tree up n) (.accept (node up (n + 1))) := by
      rw [tree, treeOps, List.range_succ, List.map_append, List.map_singleton, run_concat]
      rfl
    have hgraph : (tree up (n + 1)).toGraph
        = (tree up n).toGraph.insertVertex (node up (n + 1)) := by
      rw [hstep]
      exact KronDAG.accept_graph_of_unfunded hunf (hstored.checkVertex (hup n) (by omega))
        (cost_node hn)
    refine ⟨?_, ?_, ?_⟩
    · rw [hstep]
      exact KronDAG.unfunded_exec hunf fun a m h => by cases h
    · rw [hgraph, Graph.insertVertex_attachOrder, hord, id_node, List.range_succ,
        List.range_succ, List.range_succ]
      simp only [List.map_append, List.map_singleton]
    · rw [hgraph]
      exact hstored.insertVertex (by omega)

theorem grown_tree (up : ℕ → ℕ) (n : ℕ) : (tree up n).toGraph.Grown wide rootDag.toGraph :=
  grown_run withGenesis_rootDag (treeOps up n)

section Spec

variable (hup : ∀ i, up (i + 1) < i + 1) (hn : n < 2 ^ 63)

include hup hn

theorem lookup_tree (x : TxHash) (tx : DagTransaction) :
    (tree up n).vertices.lookup x = some tx ↔ ∃ i ≤ n, x = nodeId i ∧ tx = node up i :=
  (tree_spec hup n hn).2.2 x tx

theorem contains_tree (x : TxHash) : (tree up n).contains x = true ↔ ∃ i ≤ n, x = nodeId i := by
  rw [Graph.contains_iff]
  simp only [lookup_tree hup hn]
  exact ⟨fun ⟨_, i, hi, hx, _⟩ => ⟨i, hi, hx⟩, fun ⟨i, hi, hx⟩ => ⟨_, i, hi, hx, rfl⟩⟩

theorem ne_null_tree (x : TxHash) (hx : (tree up n).contains x = true) : x ≠ nullParent := by
  obtain ⟨i, hi, rfl⟩ := (contains_tree hup hn x).1 hx
  exact nodeId_ne_null (by omega)

/-- Every id is the one the code computes. -/
theorem id_tree {x : TxHash} {tx : DagTransaction} (hl : (tree up n).vertices.lookup x = some tx) :
    tx.id = DagTransaction.computeId wide tx.unsignedBytes := by
  obtain ⟨i, hi, rfl, rfl⟩ := (lookup_tree hup hn x tx).1 hl
  rcases i with _ | i
  · exact (computeId_wide root (List.length_replicate ..)).symm
  · have hamount : (UInt64.ofNat (i + 1)).toNat = i + 1 :=
      UInt64.toNat_ofNat_of_lt' (by rw [UInt64.size]; omega)
    rw [node_succ, computeId_wide _ (List.length_replicate ..)]
    change nodeId (i + 1) = nodeId (UInt64.ofNat (i + 1)).toNat
    rw [hamount]

theorem length_tree : (tree up n).vertices.entries.length = n + 1 := by
  have hperm := (grown_tree up n).wf.order_perm.length_eq
  rw [(tree_spec hup n hn).2.1, List.length_map, List.length_map, List.length_range] at hperm
  exact hperm.symm

theorem cost_tree {x : TxHash} {tx : DagTransaction}
    (hl : (tree up n).vertices.lookup x = some tx) : tx.cost ≤ u64Max := by
  obtain ⟨i, hi, rfl, rfl⟩ := (lookup_tree hup hn x tx).1 hl
  rcases i with _ | i
  · exact Nat.zero_le _
  · exact cost_node (by omega)

/-- Every body comes back from its bytes. -/
theorem bytes_tree {x : TxHash} {tx : DagTransaction}
    (hl : (tree up n).vertices.lookup x = some tx) :
    DagTransaction.fromCanonical wide tx.canonicalBytes = .ok tx := by
  have hsig := ((grown_tree up n).verified hl).1
  have hid := id_tree hup hn hl
  obtain ⟨i, -, -, rfl⟩ := (lookup_tree hup hn x tx).1 hl
  have hrelays : (node up i).relayNodes = [] ∧ (node up i).relayProofs = [] := by
    unfold node
    split_ifs <;> exact ⟨rfl, rfl⟩
  exact fromCanonical_of_nil hsig hid (by rw [hrelays.1]; decide) hrelays.2

theorem mem_pushedParents_tree (hi : i ≤ n) (p : TxHash) :
    p ∈ pushedParents (tree up n).vertices (nodeId i) ↔ 0 < i ∧ p = nodeId (up i) := by
  rw [Graph.mem_pushedParents]
  constructor
  · rintro ⟨tx, hl, hp⟩
    obtain ⟨j, hj, hij, rfl⟩ := (lookup_tree hup hn _ _).1 hl
    rw [nodeId_inj (by omega) (by omega)] at hij
    subst hij
    rcases i with _ | i
    · cases hp
    · rw [parents_node (by omega) (hup i), List.mem_singleton] at hp
      exact ⟨Nat.succ_pos i, hp⟩
  · rintro ⟨hpos, rfl⟩
    obtain ⟨i, rfl⟩ := Nat.exists_eq_add_of_le' hpos
    refine ⟨node up (i + 1), (lookup_tree hup hn _ _).2 ⟨i + 1, hi, rfl, rfl⟩, ?_⟩
    rw [parents_node (by omega) (hup i)]
    exact List.mem_singleton.2 rfl

theorem mem_tips_tree (x : TxHash) :
    x ∈ (tree up n).tips ↔ ∃ i ≤ n, x = nodeId i ∧ ∀ j < n, up (j + 1) ≠ i := by
  have hi := (grown_tree up n).indexed
  rw [hi.tips, contains_tree hup hn, List.eq_nil_iff_forall_not_mem]
  simp only [hi.children]
  constructor
  · rintro ⟨⟨i, hin, rfl⟩, hno⟩
    refine ⟨i, hin, rfl, fun j hj he => hno (nodeId (j + 1)) ?_⟩
    refine ⟨node up (j + 1), (lookup_tree hup hn _ _).2 ⟨j + 1, hj, rfl, rfl⟩, ?_⟩
    rw [parents_node (by omega) (hup j), he]
    exact List.mem_singleton.2 rfl
  · rintro ⟨i, hin, rfl, hno⟩
    refine ⟨⟨i, hin, rfl⟩, fun c => ?_⟩
    rintro ⟨tx, hl, hp⟩
    obtain ⟨j, hj, rfl, rfl⟩ := (lookup_tree hup hn _ _).1 hl
    rcases j with _ | j
    · cases hp
    · rw [parents_node (by omega) (hup j), List.mem_singleton] at hp
      have := hup j
      rw [nodeId_inj (by omega) (by omega)] at hp
      exact hno j hj hp.symm

end Spec

theorem contains_rootDag (x : TxHash) : rootDag.contains x = true ↔ x = nodeId 0 := by
  have hroot : rootDag = tree (fun _ => 0) 0 := rfl
  rw [hroot, contains_tree Nat.succ_pos (by decide)]
  constructor
  · rintro ⟨i, hi, rfl⟩
    rw [Nat.le_zero.1 hi]
  · exact fun hx => ⟨0, le_rfl, hx⟩

theorem not_contains_rootDag {i : ℕ} (hi : i < 2 ^ 64) (h0 : i ≠ 0) :
    rootDag.contains (nodeId i) = false := by
  rw [← Bool.not_eq_true, contains_rootDag, nodeId_inj hi (by decide)]
  exact h0

/-! ### All vertices under the genesis one -/

def fan (_ : ℕ) : ℕ := 0

theorem fan_lt (i : ℕ) : fan (i + 1) < i + 1 := Nat.succ_pos i

theorem approves_fan (hn : n < 2 ^ 63) (hi : i ≤ n) {x : TxHash}
    (h : (tree fan n).toGraph.Approves (nodeId i) x) : x = nodeId i ∨ x = nodeId 0 := by
  induction h with
  | refl => exact .inl rfl
  | tail _ hp ih =>
    rcases ih with rfl | rfl
    · exact .inr ((mem_pushedParents_tree fan_lt hn hi _).1 hp).2
    · exact absurd ((mem_pushedParents_tree fan_lt hn (Nat.zero_le n) _).1 hp).1
        (Nat.lt_irrefl 0)

theorem within_fan (hn : n < 2 ^ 63) (tip : TxHash) (htip : tip ∈ (tree fan n).tips) :
    (tree fan n).toGraph.ClosureWithin ancestorWalkBound tip := by
  obtain ⟨i, hi, rfl, -⟩ := (mem_tips_tree fan_lt hn tip).1 htip
  exact ⟨[nodeId i, nodeId 0], (by decide : 2 ≤ ancestorWalkBound),
    fun x hx => List.mem_pair.2 (approves_fan hn hi hx)⟩

/-! ### Every vertex under the next -/

def chain (i : ℕ) : ℕ := i - 1

theorem chain_lt (i : ℕ) : chain (i + 1) < i + 1 := by
  unfold chain
  omega

theorem pushedParents_chain (hn : n < 2 ^ 63) (hi : i + 1 ≤ n) :
    pushedParents (tree chain n).vertices (nodeId (i + 1)) = [nodeId i, nodeId i] := by
  have hl : (tree chain n).vertices.lookup (nodeId (i + 1)) = some (node chain (i + 1)) :=
    (lookup_tree chain_lt hn _ _).2 ⟨i + 1, hi, rfl, rfl⟩
  have hne : nodeId (chain (i + 1)) ≠ nullParent := nodeId_ne_null (by unfold chain; omega)
  unfold pushedParents
  rw [hl, node_succ]
  simp only [signed, ne_eq, hne, not_false_eq_true, if_true]
  rfl

/-- A walk down a chain ends a vertex past its bound. -/
theorem walkUpTo_chain (hn : n < 2 ^ 63) {bound : ℕ} : ∀ (m fuel k : ℕ) (rest seen : List TxHash),
    seen.length + m = bound → m < fuel → m ≤ k → k ≤ n →
    (∀ x ∈ seen, ∃ j, k < j ∧ j ≤ n ∧ x = nodeId j) →
      Search.walkUpTo (pushedParents (tree chain n).vertices) bound fuel (nodeId k :: rest) seen
        = seen ++ (List.range (m + 1)).map fun j => nodeId (k - j)
  | m, 0, _, _, _, _, hf, _, _, _ => absurd hf (Nat.not_lt_zero m)
  | m, fuel + 1, k, rest, seen, hlen, hf, hm, hk, hseen => by
    have hnew : nodeId k ∉ seen := by
      intro hmem
      obtain ⟨j, hj, hjn, he⟩ := hseen _ hmem
      rw [nodeId_inj (by omega) (by omega)] at he
      omega
    rw [Search.walkUpTo, if_neg hnew]
    rcases m with _ | m
    · rw [if_pos (by omega)]
      rfl
    · obtain ⟨k, rfl⟩ := Nat.exists_eq_add_of_le' (Nat.lt_of_lt_of_le (Nat.succ_pos m) hm)
      rw [if_neg (by omega), pushedParents_chain hn hk]
      have hseen' : ∀ x ∈ seen ++ [nodeId (k + 1)], ∃ j, k < j ∧ j ≤ n ∧ x = nodeId j := by
        intro x hx
        rcases List.mem_append.1 hx with hx | hx
        · obtain ⟨j, hj, h⟩ := hseen x hx
          exact ⟨j, by omega, h⟩
        · exact ⟨k + 1, by omega, hk, List.mem_singleton.1 hx⟩
      refine (walkUpTo_chain hn m fuel k (nodeId k :: rest) _ ?_ (by omega) (by omega) (by omega)
        hseen').trans ?_
      · rw [List.length_append, List.length_singleton]
        omega
      · rw [List.range_succ_eq_map (n := m + 1)]
        simp [Function.comp_def]

theorem mem_parentClosure_chain (hn : n < 2 ^ 63) (hlong : ancestorWalkBound ≤ n) (hi : i ≤ n) :
    nodeId i ∈ (tree chain n).toGraph.parentClosure (nodeId n) ↔ n ≤ i + ancestorWalkBound := by
  have hwalk := walkUpTo_chain hn ancestorWalkBound closureFuel n [] [] (Nat.zero_add _)
    (by decide) hlong le_rfl fun _ h => absurd h List.not_mem_nil
  unfold Graph.parentClosure
  rw [hwalk, List.nil_append, List.mem_map]
  constructor
  · rintro ⟨j, hj, he⟩
    rw [List.mem_range] at hj
    rw [nodeId_inj (by omega) (by omega)] at he
    omega
  · intro h
    exact ⟨n - i, List.mem_range.2 (by omega), by rw [Nat.sub_sub_self hi]⟩

theorem mem_tips_chain (hn : n < 2 ^ 63) (x : TxHash) : x ∈ (tree chain n).tips ↔ x = nodeId n := by
  rw [mem_tips_tree chain_lt hn]
  constructor
  · rintro ⟨i, hi, rfl, hno⟩
    by_contra hne
    have hlt : i ≠ n := fun h => hne (congrArg nodeId h)
    exact hno i (by omega) (by unfold chain; omega)
  · rintro rfl
    exact ⟨n, le_rfl, rfl, fun j hj => by unfold chain; omega⟩

end Tree

end KronMesh.StandIn
