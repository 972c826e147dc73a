import KronMesh.Lib.Tally
import KronMesh.Tx

/-!
# The graph of vertices

The vertices a node stores, their children and tips, the order in which they came, and their
cumulative weights: one for the vertex itself and one for every later vertex that approves it,
directly or through others, as far as a walk of bounded length finds it.
-/

namespace KronMesh

open Word

structure Graph where
  vertices : AList fun _ : TxHash => DagTransaction
  children : AList fun _ : TxHash => List TxHash
  tips : List TxHash
  weights : Tally TxHash
  genesisId : Option TxHash
  attachOrder : List TxHash

def ancestorWalkBound : ℕ := 1024

/-- A hash set with `x` in it. -/
def setInsert (s : List TxHash) (x : TxHash) : List TxHash := if x ∈ s then s else s ++ [x]

/-- Pushes the parents that are not the dummy one, each once; the head of the stack is its top. -/
def pushParents (p1 p2 : TxHash) (stack : List TxHash) : List TxHash :=
  let stack := if p1 ≠ nullParent then p1 :: stack else stack
  if p2 ≠ nullParent ∧ p2 ≠ p1 then p2 :: stack else stack

/-- The parents of a stored vertex pushed on the stack. -/
def pushParentsOf (vertices : AList fun _ : TxHash => DagTransaction) (h : TxHash)
    (stack : List TxHash) : List TxHash :=
  match vertices.lookup h with
  | some tx => pushParents tx.parent1 tx.parent2 stack
  | none => stack

/-- The walk over ancestors: those visited, in order. The first argument bounds the turns of the
loop, and `walkFuel` of them are enough. -/
def ancestorWalk (vertices : AList fun _ : TxHash => DagTransaction) :
    ℕ → List TxHash → List TxHash → List TxHash
  | 0, _, seen => seen
  | _ + 1, [], seen => seen
  | fuel + 1, h :: stack, seen =>
    if h = nullParent ∨ h ∈ seen then ancestorWalk vertices fuel stack seen
    else if ancestorWalkBound ≤ seen.length then seen
    else ancestorWalk vertices fuel (pushParentsOf vertices h stack) (seen ++ [h])

/-- Two pushes for each of the vertices visited, two to begin with, and the turn that ends. -/
def walkFuel : ℕ := 2 * ancestorWalkBound + 3

def bumpWeight (weights : Tally TxHash) (h : TxHash) : Tally TxHash :=
  match weights.lookup h with
  | some w => weights.set h (saturatingAdd w 1)
  | none => weights

/-- The fee a vertex has to pay. -/
def DagTransaction.requiredFee (tx : DagTransaction) : ℕ :=
  if tx.isGenesis then 0 else fixedTransactionFee

theorem DagTransaction.requiredFee_of {tx : DagTransaction} (h : tx.isGenesis = false) :
    tx.requiredFee = fixedTransactionFee := by
  rw [requiredFee, h]
  rfl

namespace Graph

def empty : Graph := ⟨∅, ∅, [], ∅, none, []⟩

def contains (g : Graph) (id : TxHash) : Bool := (g.vertices.lookup id).isSome

def genesisIdOr (g : Graph) : TxHash := g.genesisId.getD nullParent

def cumulativeWeight (g : Graph) (id : TxHash) : ℕ := g.weights.get id

def checkParents (g : Graph) (tx : DagTransaction) : Except DagError Unit :=
  if tx.isGenesis then
    if g.vertices.entries ≠ [] then .error .invalidGenesis else .ok ()
  else if tx.parent1 = nullParent ∨ g.contains tx.parent1 = false then
    .error (.unknownParent tx.parent1)
  else if tx.parent2 = nullParent ∨ g.contains tx.parent2 = false then
    .error (.unknownParent tx.parent2)
  else .ok ()

/-- What every stored vertex has passed, whatever its spend: it is new, its parents are there, the
fee is the fixed one, and sender, signature and carrier proofs hold. -/
def checkVertex (P : Primitives) (g : Graph) (tx : DagTransaction) : Except DagError Unit :=
  if g.contains tx.id then .error (.duplicateTx tx.id)
  else
    match g.checkParents tx with
    | .error e => .error e
    | .ok () =>
      if tx.fee.toNat ≠ tx.requiredFee then .error .invalidFee
      else if tx.publicKey.address P ≠ tx.sender then .error .addressMismatch
      else if tx.verifySignature P = false then .error .invalidSignature
      else if tx.verifyRelayProofs P = false then .error .invalidRelayProof
      else .ok ()

def noteChild (g : Graph) (parent child : TxHash) : Graph :=
  if parent = nullParent then g
  else
    { g with
      children := g.children.insert parent (setInsert ((g.children.lookup parent).getD []) child)
      tips := g.tips.filter (· ≠ parent) }

/-- The walk reads no weight, so the weights are moved after it. -/
def incrementAncestorWeights (g : Graph) (p1 p2 : TxHash) : Graph :=
  { g with
    weights := (ancestorWalk g.vertices walkFuel (pushParents p1 p2 []) []).foldl bumpWeight
      g.weights }

/-- An admitted vertex put into the graph. -/
def insertVertex (g : Graph) (tx : DagTransaction) : Graph :=
  let g :=
    { g with
      vertices := g.vertices.insert tx.id tx
      attachOrder := g.attachOrder ++ [tx.id]
      weights := g.weights.set tx.id 1
      children := g.children.insert tx.id ((g.children.lookup tx.id).getD [])
      tips := setInsert g.tips tx.id }
  let g := g.noteChild tx.parent1 tx.id
  let g := if tx.parent2 ≠ tx.parent1 then g.noteChild tx.parent2 tx.id else g
  if tx.isGenesis then { g with genesisId := some tx.id }
  else g.incrementAncestorWeights tx.parent1 tx.parent2

/-- Vertices in attach order, genesis first. -/
def transactionsInOrder (g : Graph) : List DagTransaction :=
  g.attachOrder.filterMap fun id => g.vertices.lookup id

/-! ## What an insertion leaves -/

section Insert

variable {P : Primitives} {g : Graph} {tx : DagTransaction}

@[simp] theorem noteChild_vertices (p c : TxHash) :
    (g.noteChild p c).vertices = g.vertices := by
  unfold noteChild
  split_ifs <;> rfl

@[simp] theorem noteChild_attachOrder (p c : TxHash) :
    (g.noteChild p c).attachOrder = g.attachOrder := by
  unfold noteChild
  split_ifs <;> rfl

@[simp] theorem noteChild_weights (p c : TxHash) : (g.noteChild p c).weights = g.weights := by
  unfold noteChild
  split_ifs <;> rfl

@[simp] theorem noteChild_genesisId (p c : TxHash) :
    (g.noteChild p c).genesisId = g.genesisId := by
  unfold noteChild
  split_ifs <;> rfl

@[simp] theorem insertVertex_vertices :
    (g.insertVertex tx).vertices = g.vertices.insert tx.id tx := by
  unfold insertVertex incrementAncestorWeights
  simp only []
  split_ifs <;> simp

@[simp] theorem insertVertex_attachOrder :
    (g.insertVertex tx).attachOrder = g.attachOrder ++ [tx.id] := by
  unfold insertVertex incrementAncestorWeights
  simp only []
  split_ifs <;> simp

theorem insertVertex_genesisId :
    (g.insertVertex tx).genesisId = if tx.isGenesis then some tx.id else g.genesisId := by
  unfold insertVertex incrementAncestorWeights
  simp only []
  split_ifs <;> simp

theorem insertVertex_weights :
    (g.insertVertex tx).weights =
      if tx.isGenesis then g.weights.set tx.id 1
      else (ancestorWalk (g.vertices.insert tx.id tx) walkFuel
        (pushParents tx.parent1 tx.parent2 []) []).foldl bumpWeight (g.weights.set tx.id 1) := by
  unfold insertVertex incrementAncestorWeights
  simp only []
  split_ifs <;> simp

/-- Everything an admitted vertex has passed. -/
theorem checkVertex_ok (h : g.checkVertex P tx = .ok ()) :
    g.vertices.lookup tx.id = none ∧ g.checkParents tx = .ok ()
      ∧ tx.fee.toNat = tx.requiredFee
      ∧ tx.verifySignature P = true ∧ tx.verifyRelayProofs P = true := by
  unfold checkVertex at h
  rcases hp : g.checkParents tx with e | ⟨⟨⟩⟩
  · rw [hp] at h
    split_ifs at h
  · rw [hp] at h
    split_ifs at h with h1 h2 h3 h4 h5
    rw [Bool.not_eq_false] at h4 h5
    exact ⟨Option.not_isSome_iff_eq_none.1 h1, rfl, not_not.1 h2, h4, h5⟩

theorem contains_eq_false {id : TxHash} :
    g.contains id = false ↔ g.vertices.lookup id = none := by
  unfold contains
  rw [Option.isSome_eq_false_iff, Option.isNone_iff_eq_none]

/-- A stored vertex is not admitted again. -/
theorem not_contains_of_checkVertex (h : g.checkVertex P tx = .ok ()) :
    g.contains tx.id = false :=
  contains_eq_false.2 (checkVertex_ok h).1

/-- A vertex is never refused for its spend before that is looked at, and as a duplicate only if it
is one. -/
theorem checkVertex_error {e : DagError} (h : g.checkVertex P tx = .error e) :
    (∀ n, e ≠ .doubleSpend n) ∧ e ≠ .insufficientBalance ∧ e ≠ .overflow
      ∧ ∀ id, e = .duplicateTx id → g.contains tx.id = true := by
  have hp : ∀ e, g.checkParents tx = .error e →
      (∀ n, e ≠ .doubleSpend n) ∧ e ≠ .insufficientBalance ∧ e ≠ .overflow
        ∧ ∀ id, e ≠ .duplicateTx id := by
    intro e he
    unfold checkParents at he
    split_ifs at he
    all_goals
      cases he
      simp
  unfold checkVertex at h
  rcases hc : g.checkParents tx with e' | ⟨⟨⟩⟩
  · rw [hc] at h
    simp only [] at h
    split_ifs at h with hdup
    · cases h
      simp [hdup]
    · cases h
      obtain ⟨h1, h2, h3, h4⟩ := hp _ hc
      exact ⟨h1, h2, h3, fun id he => absurd he (h4 id)⟩
  · rw [hc] at h
    split_ifs at h with hdup
    all_goals
      cases h
      simp [*]

theorem checkVertex_of (h1 : g.vertices.lookup tx.id = none) (h2 : g.checkParents tx = .ok ())
    (h3 : tx.fee.toNat = tx.requiredFee)
    (h4 : tx.verifySignature P = true) (h5 : tx.verifyRelayProofs P = true) :
    g.checkVertex P tx = .ok () := by
  have ha : tx.publicKey.address P = tx.sender := by
    simp only [DagTransaction.verifySignature, Bool.and_eq_true, beq_iff_eq] at h4
    exact h4.1.1.1
  unfold checkVertex contains
  rw [h1, h2, h4, h5]
  simp [h3, ha]

/-- A vertex that is no genesis has both parents among those stored. -/
theorem checkParents_ok (h : g.checkParents tx = .ok ()) (hg : tx.isGenesis = false) :
    (tx.parent1 ≠ nullParent ∧ g.contains tx.parent1 = true)
      ∧ tx.parent2 ≠ nullParent ∧ g.contains tx.parent2 = true := by
  unfold checkParents at h
  rw [hg] at h
  simp only [Bool.false_eq_true, if_false] at h
  split_ifs at h with h1 h2
  rw [not_or, Bool.not_eq_false] at h1 h2
  exact ⟨h1, h2⟩

/-- A genesis vertex is only ever the first. -/
theorem checkParents_genesis (h : g.checkParents tx = .ok ()) (hg : tx.isGenesis = true) :
    g.vertices.entries = [] := by
  unfold checkParents at h
  rw [if_pos hg] at h
  split_ifs at h with h1
  exact not_not.1 h1

end Insert

end Graph

end KronMesh
