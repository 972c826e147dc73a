import KronMesh.Hub

/-!
# Another signature of genesis

A node signs the genesis vertex itself, and a signature is drawn at random: two nodes, or two starts
of one, hold genesis vertices that differ in their signature. No check reads the signature of a
stored vertex. So what a boot makes of its files is the same under any signer, but for the signature
of its genesis vertex (`load_signing`).
-/

namespace KronMesh

open Word Outcome Wire

/-- The same crate, with its draws come out in another way. -/
def Primitives.signing (P : Primitives) (sign : Bytes → Bytes → Bytes → Option Bytes) :
    Primitives :=
  { P with trySign := sign }

def DagTransaction.resigned (sig : LatticeSignature) (tx : DagTransaction) : DagTransaction :=
  if tx.isGenesis then { tx with signature := sig } else tx

/-- The graph with its genesis vertex under the signature `sig`. -/
def Graph.resigned (g : Graph) (sig : LatticeSignature) : Graph :=
  { g with vertices := Assoc.mapValues (DagTransaction.resigned sig) g.vertices }

def KronDAG.resigned (d : KronDAG) (sig : LatticeSignature) : KronDAG :=
  { d with toGraph := d.toGraph.resigned sig }

variable {P : Primitives} {sign : Bytes → Bytes → Bytes → Option Bytes} {sig : LatticeSignature}

namespace DagTransaction

variable {tx : DagTransaction}

theorem resigned_of (h : tx.isGenesis = false) : tx.resigned sig = tx := by
  rw [resigned, h]
  rfl

theorem resigned_eq (sig : LatticeSignature) (tx : DagTransaction) :
    ∃ s, tx.resigned sig = { tx with signature := s } := by
  unfold resigned
  split_ifs
  · exact ⟨sig, rfl⟩
  · exact ⟨tx.signature, rfl⟩

@[simp] theorem isGenesis_resigned (sig : LatticeSignature) (tx : DagTransaction) :
    (tx.resigned sig).isGenesis = tx.isGenesis := by
  obtain ⟨s, hs⟩ := tx.resigned_eq sig
  rw [hs]
  rfl

end DagTransaction

/-! ## The graph -/

namespace Graph

variable {g : Graph} {tx : DagTransaction}

theorem lookup_resigned (id : TxHash) :
    (g.resigned sig).vertices.lookup id = (g.vertices.lookup id).map (.resigned sig) :=
  Assoc.lookup_mapValues _ _ _

theorem contains_resigned (id : TxHash) : (g.resigned sig).contains id = g.contains id := by
  rw [contains, lookup_resigned, Option.isSome_map]
  rfl

theorem entries_resigned_eq_nil :
    (g.resigned sig).vertices.entries = [] ↔ g.vertices.entries = [] :=
  List.map_eq_nil_iff

theorem checkVertex_resigned (tx : DagTransaction) :
    (g.resigned sig).checkVertex (P.signing sign) tx = g.checkVertex P tx := by
  unfold checkVertex checkParents
  simp only [contains_resigned, ne_eq, entries_resigned_eq_nil]
  rfl

theorem pushParentsOf_resigned (h : TxHash) (stack : List TxHash) :
    pushParentsOf (g.resigned sig).vertices h stack = pushParentsOf g.vertices h stack := by
  unfold pushParentsOf
  rw [lookup_resigned]
  rcases g.vertices.lookup h with _ | tx
  · rfl
  · obtain ⟨s, hs⟩ := tx.resigned_eq sig
    rw [Option.map_some, hs]

theorem ancestorWalk_resigned : ∀ (fuel : ℕ) (stack seen : List TxHash),
    ancestorWalk (g.resigned sig).vertices fuel stack seen = ancestorWalk g.vertices fuel stack seen
  | 0, _, _ => rfl
  | _ + 1, [], _ => rfl
  | fuel + 1, h :: stack, seen => by
    rw [ancestorWalk, ancestorWalk, pushParentsOf_resigned, ancestorWalk_resigned fuel,
      ancestorWalk_resigned fuel]

theorem noteChild_resigned (p c : TxHash) :
    (g.resigned sig).noteChild p c = (g.noteChild p c).resigned sig := by
  unfold noteChild
  split_ifs <;> rfl

theorem incrementAncestorWeights_resigned (p1 p2 : TxHash) :
    (g.resigned sig).incrementAncestorWeights p1 p2
      = (g.incrementAncestorWeights p1 p2).resigned sig := by
  unfold incrementAncestorWeights
  rw [ancestorWalk_resigned]
  rfl

/-- A vertex at its place, in front of what its parents are told. -/
def placed (g : Graph) (tx : DagTransaction) : Graph :=
  { g with
    vertices := g.vertices.insert tx.id tx
    attachOrder := g.attachOrder ++ [tx.id]
    weights := g.weights.set tx.id 1
    children := g.children.insert tx.id ((g.children.lookup tx.id).getD [])
    tips := setInsert g.tips tx.id }

/-- What is left of an insertion reads the id of the vertex and its parents. -/
def linked (g : Graph) (id p1 p2 : TxHash) (isGenesis : Bool) : Graph :=
  let g := g.noteChild p1 id
  let g := if p2 ≠ p1 then g.noteChild p2 id else g
  if isGenesis then { g with genesisId := some id } else g.incrementAncestorWeights p1 p2

theorem insertVertex_eq (tx : DagTransaction) :
    g.insertVertex tx = (g.placed tx).linked tx.id tx.parent1 tx.parent2 tx.isGenesis := rfl

theorem linked_resigned (id p1 p2 : TxHash) (isGenesis : Bool) :
    (g.resigned sig).linked id p1 p2 isGenesis = (g.linked id p1 p2 isGenesis).resigned sig := by
  unfold linked
  dsimp only
  rw [noteChild_resigned]
  split_ifs
  · rw [noteChild_resigned]
    rfl
  · rfl
  · rw [noteChild_resigned, incrementAncestorWeights_resigned]
  · rw [incrementAncestorWeights_resigned]

theorem insertVertex_resigned (tx : DagTransaction) :
    (g.resigned sig).insertVertex (tx.resigned sig) = (g.insertVertex tx).resigned sig := by
  obtain ⟨s, hs⟩ := tx.resigned_eq sig
  have hplaced : (g.resigned sig).placed (tx.resigned sig) = (g.placed tx).resigned sig := by
    unfold placed resigned
    rw [Assoc.mapValues_insert, hs]
  rw [insertVertex_eq, hplaced, linked_resigned, hs]
  rfl

/-- A vertex that is no genesis is put into either graph alike. -/
theorem insertVertex_resigned_of (h : tx.isGenesis = false) :
    (g.resigned sig).insertVertex tx = (g.insertVertex tx).resigned sig := by
  rw [← insertVertex_resigned, DagTransaction.resigned_of h]

theorem byNonce_resigned : (g.resigned sig).byNonce = g.byNonce := by
  unfold byNonce
  change List.foldl _ _ (List.map _ g.vertices.entries) = _
  rw [List.foldl_map]
  refine List.foldl_ext _ _ _ fun groups e _ => ?_
  obtain ⟨s, hs⟩ := e.2.resigned_eq sig
  rw [hs]
  rfl

theorem winnerOf_resigned : (g.resigned sig).winnerOf = g.winnerOf := by
  unfold winnerOf
  rw [byNonce_resigned]
  rfl

end Graph

/-- The same ids in the same order with the same indexes, and under each id the same vertex, but
for the signature of a genesis vertex. -/
structure Graph.SameButSigned (g g' : Graph) : Prop where
  attachOrder : g'.attachOrder = g.attachOrder
  children : g'.children = g.children
  tips : g'.tips = g.tips
  weights : g'.weights = g.weights
  genesisId : g'.genesisId = g.genesisId
  contains : ∀ id, g'.contains id = g.contains id
  vertices : ∀ id tx, g.vertices.lookup id = some tx →
    ∃ s, g'.vertices.lookup id = some { tx with signature := s }
      ∧ (tx.isGenesis = false → s = tx.signature)

theorem Graph.sameButSigned_resigned (g : Graph) (sig : LatticeSignature) :
    g.SameButSigned (g.resigned sig) := by
  refine ⟨rfl, rfl, rfl, rfl, rfl, g.contains_resigned, fun id tx hl => ?_⟩
  rw [lookup_resigned, hl, Option.map_some]
  rcases hgen : tx.isGenesis
  · rw [DagTransaction.resigned_of hgen]
    exact ⟨tx.signature, rfl, fun _ => rfl⟩
  · rw [DagTransaction.resigned, if_pos hgen]
    exact ⟨sig, rfl, fun h => by cases h⟩

/-! ## The node -/

theorem applyLedgerEffects_signing (l : Ledger) (tx : DagTransaction) :
    l.applyLedgerEffects (P.signing sign) tx = l.applyLedgerEffects P tx := rfl

theorem replayLoop_resigned {g : Graph} (losers : AList fun _ : TxHash => TxHash)
    (l : Ledger) (extraLosers order : List TxHash) :
    replayLoop (P.signing sign) (g.resigned sig).vertices losers l extraLosers order
      = replayLoop P g.vertices losers l extraLosers order := by
  induction order generalizing l extraLosers with
  | nil => rfl
  | cons id order ih =>
    by_cases hskip : (losers.lookup id).isSome = true
      ∨ ∀ tx, g.vertices.lookup id = some tx → tx.isGenesis = true
    · have hskip' : (losers.lookup id).isSome = true
          ∨ ∀ tx, (g.resigned sig).vertices.lookup id = some tx → tx.isGenesis = true := by
        refine hskip.imp_right fun hgen tx hl => ?_
        rw [Graph.lookup_resigned, Option.map_eq_some_iff] at hl
        obtain ⟨y, hl, rfl⟩ := hl
        rw [DagTransaction.isGenesis_resigned, hgen y hl]
      rw [replayLoop_skip hskip, replayLoop_skip hskip', ih]
    · obtain ⟨hw, hex⟩ := not_or.1 hskip
      have hnone : losers.lookup id = none := Option.not_isSome_iff_eq_none.1 hw
      simp only [not_forall, Bool.not_eq_true] at hex
      obtain ⟨tx, hl, hgen⟩ := hex
      have hl' : (g.resigned sig).vertices.lookup id = some tx := by
        rw [Graph.lookup_resigned, hl, Option.map_some, DagTransaction.resigned_of hgen]
      rw [replayLoop_cons hnone hl' hgen, replayLoop_cons hnone hl hgen,
        applyLedgerEffects_signing]
      rcases l.applyLedgerEffects P tx with ⟨l', e | ⟨⟨⟩⟩⟩
      · cases e <;> first | rfl | exact ih _ _
      · exact ih _ _

namespace KronDAG

variable {d : KronDAG} {tx : DagTransaction}

/-- What a call on the one node leaves and returns, of the other. -/
def resignedOut {α : Type} (sig : LatticeSignature) (r : KronDAG × α) : KronDAG × α :=
  (r.1.resigned sig, r.2)

theorem resolve_resigned : (d.resigned sig).resolveConflictsAndRebuildLedger (P.signing sign)
    = resignedOut sig (d.resolveConflictsAndRebuildLedger P) := by
  have hloop : replayLoop (P.signing sign) (d.resigned sig).vertices d.toGraph.winnerOf
      (d.resigned sig).baseline [] (d.resigned sig).attachOrder
      = replayLoop P d.vertices d.toGraph.winnerOf d.baseline [] d.attachOrder :=
    replayLoop_resigned _ _ _ _
  have hwinner : (d.resigned sig).toGraph.winnerOf = d.toGraph.winnerOf :=
    Graph.winnerOf_resigned
  unfold resolveConflictsAndRebuildLedger
  simp only [hwinner, hloop]
  rcases replayLoop P d.vertices d.toGraph.winnerOf d.baseline [] d.attachOrder with ⟨l, e | extra⟩
  · rfl
  · rfl

theorem creditAccount_resigned (a : Address) (n : ℕ) :
    (d.resigned sig).creditAccount a n = (d.creditAccount a n).resigned sig := by
  unfold creditAccount
  split_ifs <;> rfl

theorem insertVertex_resigned (hgen : tx.isGenesis = false) :
    (d.resigned sig).toGraph.insertVertex tx = (d.toGraph.insertVertex tx).resigned sig :=
  Graph.insertVertex_resigned_of hgen

/-- The vertex in the graph, with the ledger as it was, of either node. -/
theorem stored_resigned (hgen : tx.isGenesis = false) :
    (d.resigned sig).stored tx = (d.stored tx).resigned sig := by
  unfold stored
  rw [insertVertex_resigned hgen]
  rfl

theorem attached_resigned (hgen : tx.isGenesis = false) (new : ℕ × ℕ) (relays : List Address) :
    (d.resigned sig).attached tx new relays = resignedOut sig (d.attached tx new relays) := by
  unfold attached
  rw [insertVertex_resigned hgen, if_pos hgen, if_pos hgen]
  rfl

/-- A new vertex that fails a check is refused with its error. -/
theorem accept_refused {e : DagError} (hc : d.contains tx.id = false)
    (h : d.checkVertex P tx = .error e) : d.acceptWireVertex P tx = (d, .error e) := by
  have hatt : d.attachAndVerifyTx P tx = (d, .error e) := by
    change d.attachVertexAndMaybeMint P tx true (tx.provenRelayNodes P) = _
    unfold attachVertexAndMaybeMint
    rw [h]
  obtain ⟨hdouble, hbalance, -, -⟩ := Graph.checkVertex_error h
  unfold acceptWireVertex
  rw [hc, hatt]
  cases e <;> first | rfl | exact absurd rfl (hdouble _) | exact absurd rfl hbalance

/-- Only a genesis vertex is not put in alike, and that is refused by either. -/
theorem accept_resigned (hne : d.vertices.entries ≠ []) (tx : DagTransaction) :
    (d.resigned sig).acceptWireVertex (P.signing sign) tx
      = resignedOut sig (d.acceptWireVertex P tx) := by
  have hcheck : (d.resigned sig).checkVertex (P.signing sign) tx = d.checkVertex P tx :=
    Graph.checkVertex_resigned tx
  have hgen : d.checkVertex P tx = .ok () → tx.isGenesis = false := by
    intro h
    by_contra hgen
    rw [Bool.not_eq_false] at hgen
    exact hne (Graph.checkParents_genesis (Graph.checkVertex_ok h).2.1 hgen)
  have hcont : (d.resigned sig).contains tx.id = d.contains tx.id := Graph.contains_resigned _
  rcases hc : d.contains tx.id
  case true =>
    unfold acceptWireVertex
    rw [hcont, hc]
    rfl
  rcases hok : d.checkVertex P tx with e | ⟨⟨⟩⟩
  · rw [accept_refused hc hok, accept_refused (hcont.trans hc) (hcheck.trans hok)]
    rfl
  · have hspend : (d.resigned sig).checkSpend tx = d.checkSpend tx := rfl
    have hrel : tx.provenRelayNodes (P.signing sign) = tx.provenRelayNodes P := rfl
    have hres := @resolve_resigned P sign sig (d.stored tx)
    rw [← stored_resigned (hgen hok)] at hres
    rw [accept_admitted (hcheck.trans hok), accept_admitted hok, hspend, hrel]
    rcases hs : d.checkSpend tx with e | new
    · have hstored :=
        congrArg (fun r : Outcome KronDAG DagError => (r.1, r.2.map fun _ => true)) hres
      rcases checkSpend_error hs with ⟨n, rfl⟩ | rfl | rfl
      · exact hstored
      · exact hstored
      · rfl
    · simp only [attached_resigned (hgen hok)]
      rfl

/-- Two signers of one genesis vertex. -/
theorem withGenesis_signing {d' : KronDAG} (h : withGenesis P = some d)
    (h' : withGenesis (P.signing sign) = some d') : ∃ sig, d' = d.resigned sig := by
  obtain ⟨g, hg, hgen, -, rfl⟩ := withGenesis_eq h
  obtain ⟨g', hg', -, -, rfl⟩ := withGenesis_eq h'
  have heq : g' = g.resigned g'.signature := by
    unfold signedGenesisTx DagTransaction.assemble at hg hg'
    dsimp only at hg hg'
    split at hg
    · split at hg'
      · cases hg
        cases hg'
        rw [DagTransaction.resigned, if_pos hgen]
        rfl
      · cases hg'
    · cases hg
  refine ⟨g'.signature, ?_⟩
  have hgraph : Graph.empty.insertVertex g'
      = (Graph.empty.insertVertex g).resigned g'.signature := by
    rw [← Graph.insertVertex_resigned, ← heq]
    rfl
  have hledger : Ledger.empty.moveSpend g' (0, 0) = Ledger.empty.moveSpend g (0, 0) := by
    obtain ⟨s, hs⟩ := g.resigned_eq g'.signature
    rw [heq, hs]
    rfl
  rw [hgraph, hledger]
  rfl

end KronDAG

/-! ## The boot -/

theorem readRelayProofs_signing (bytes : Bytes) : ∀ n off : ℕ,
    readRelayProofs (P.signing sign) bytes n off = readRelayProofs P bytes n off
  | 0, _ => rfl
  | n + 1, off => by
    have hkey : ∀ off, readKeyAndSig (P.signing sign) bytes off = readKeyAndSig P bytes off :=
      fun _ => rfl
    rw [readRelayProofs, readRelayProofs]
    simp only [hkey, readRelayProofs_signing bytes n]

theorem fromCanonical_signing (bytes : Bytes) :
    DagTransaction.fromCanonical (P.signing sign) bytes = DagTransaction.fromCanonical P bytes := by
  unfold DagTransaction.fromCanonical
  simp only [readRelayProofs_signing]
  rfl

theorem readWalLoop_signing (bytes : Bytes) : ∀ fuel off : ℕ,
    readWalLoop (P.signing sign) bytes fuel off = readWalLoop P bytes fuel off
  | 0, _ => rfl
  | fuel + 1, off => by
    have hread : readChecksummed (P.signing sign) bytes walMagic off
        = readChecksummed P bytes walMagic off := rfl
    rw [readWalLoop, readWalLoop, hread]
    simp only [fromCanonical_signing, readWalLoop_signing bytes fuel]

theorem Graph.entries_insertVertex_ne_nil (g : Graph) (tx : DagTransaction) :
    (g.insertVertex tx).vertices.entries ≠ [] := by
  rw [insertVertex_vertices, AList.entries_insert]
  exact List.cons_ne_nil _ _

theorem entries_accept_ne_nil {d : KronDAG} (hne : d.vertices.entries ≠ []) (tx : DagTransaction) :
    (d.acceptWireVertex P tx).1.vertices.entries ≠ [] := by
  rw [d.accept_graph_eq tx]
  split_ifs
  · exact Graph.entries_insertVertex_ne_nil _ _
  · exact hne

theorem creditFaucet_resigned (faucet : Tally Address) (d : KronDAG) :
    creditFaucet (d.resigned sig) faucet = (creditFaucet d faucet).resigned sig := by
  unfold creditFaucet
  generalize inOrder faucet = es
  induction es generalizing d with
  | nil => rfl
  | cons e es ih =>
    rw [List.foldl_cons, List.foldl_cons, ← ih, KronDAG.creditAccount_resigned]
    split_ifs <;> rfl

theorem replayWal_resigned : ∀ (records : List DagTransaction) {d : KronDAG},
    d.vertices.entries ≠ [] → replayWal (P.signing sign) (d.resigned sig) records
      = (replayWal P d records).map (KronDAG.resigned · sig)
  | [], _, _ => rfl
  | tx :: records, d, hne => by
    have hcont : (d.resigned sig).contains tx.id = d.contains tx.id := Graph.contains_resigned _
    have hacc := @KronDAG.accept_resigned P sign sig d hne tx
    have hne' := entries_accept_ne_nil (P := P) hne tx
    rw [replayWal, replayWal, hcont, hacc]
    split_ifs
    · exact replayWal_resigned records hne
    · generalize d.acceptWireVertex P tx = r at hne' ⊢
      obtain ⟨d', e | b⟩ := r
      · cases e
        case unknownParent id => exact replayWal_resigned records hne'
        all_goals rfl
      · exact replayWal_resigned records hne'

/-- What a boot makes of what it has read. -/
def KronDAG.booted (P : Primitives) (d : KronDAG) (snap : DagSnapshot)
    (records : List DagTransaction) : Except (Fault PersistError) (KronDAG × DagSnapshot) := do
  let dag ← replayWal P (creditFaucet d snap.faucet) records
  match dag.resolveConflictsAndRebuildLedger P with
  | (dag, .ok ()) => return (dag, snap)
  | (_, .error e) => .error (.err (.dag e))

theorem booted_resigned {d : KronDAG} (hne : d.vertices.entries ≠ []) (snap : DagSnapshot)
    (records : List DagTransaction) :
    (d.resigned sig).booted (P.signing sign) snap records
      = (d.booted P snap records).map (KronDAG.resignedOut sig) := by
  unfold KronDAG.booted
  rw [creditFaucet_resigned, replayWal_resigned records (by rwa [creditFaucet_toGraph])]
  rcases replayWal P (creditFaucet d snap.faucet) records with e | dag
  · rfl
  · have hres := @KronDAG.resolve_resigned P sign sig dag
    rw [Except.map, ok_bind, ok_bind, hres]
    rcases dag.resolveConflictsAndRebuildLedger P with ⟨d', e | ⟨⟨⟩⟩⟩ <;> rfl

/-- A boot under another signer comes out the same, but for the signature of genesis. -/
theorem load_signing {d d₀ : KronDAG} (h : KronDAG.withGenesis P = some d)
    (h₀ : KronDAG.withGenesis (P.signing sign) = some d₀) : ∃ sig, d₀ = d.resigned sig ∧
      ∀ store : DagStore, store.load (P.signing sign)
        = (store.load P).map (KronDAG.resignedOut sig) := by
  obtain ⟨sig, rfl⟩ := KronDAG.withGenesis_signing h h₀
  refine ⟨sig, rfl, fun store => ?_⟩
  have hne : d.vertices.entries ≠ [] := by
    obtain ⟨g, -, -, -, rfl⟩ := withGenesis_eq h
    exact Graph.entries_insertVertex_ne_nil _ _
  have hsnap : ∀ bytes, readSnapshot (P.signing sign) bytes = readSnapshot P bytes := fun _ => rfl
  have hwal : readWal (P.signing sign) store.wal = readWal P store.wal := by
    unfold readWal
    simp only [readWalLoop_signing]
  unfold DagStore.load
  rw [h, h₀, hwal]
  simp only [hsnap]
  rcases store.snapshot with _ | bytes
  · rcases readWal P store.wal with e | records
    · rfl
    · exact booted_resigned hne _ records
  · rcases hread : readSnapshot P bytes with e | snap
    · simp only [hread]
      rfl
    · simp only [hread]
      rcases readWal P store.wal with e | records
      · rfl
      · exact booted_resigned hne _ records

/-- What a boot holds at the end does not depend on its signer. -/
theorem load_signing_iff {d d₀ : KronDAG} (h : KronDAG.withGenesis P = some d)
    (h₀ : KronDAG.withGenesis (P.signing sign) = some d₀) (store : DagStore)
    (Held : (TxHash → Bool) → Prop) :
    (∃ d' snap, store.load (P.signing sign) = .ok (d', snap) ∧ Held d'.contains)
      ↔ ∃ d' snap, store.load P = .ok (d', snap) ∧ Held d'.contains := by
  obtain ⟨sig, -, hload⟩ := load_signing h h₀
  have hheld : ∀ d : KronDAG, (d.resigned sig).contains = d.contains := fun d =>
    funext d.toGraph.contains_resigned
  rw [hload store]
  rcases store.load P with e | ⟨d₁, snap₁⟩
  · exact iff_of_false (fun ⟨_, _, hl, _⟩ => nomatch hl) fun ⟨_, _, hl, _⟩ => nomatch hl
  · constructor
    · rintro ⟨_, _, hl, hd⟩
      cases hl
      exact ⟨d₁, snap₁, rfl, hheld d₁ ▸ hd⟩
    · rintro ⟨_, _, hl, hd⟩
      cases hl
      exact ⟨d₁.resigned sig, snap₁, rfl, (hheld d₁).symm ▸ hd⟩

end KronMesh
