import KronMesh.Indexes
import KronMesh.Lib.Lottery
import KronMesh.Miner
import KronMesh.StandInRun
import KronMesh.Weights

/-!
# The weighted pick

The miner's walk picks among the children of a vertex by a ticket below the sum of their weights.
Unless that sum has run to the end of the word, a child is picked by as many tickets as its
cumulative weight, in whatever order the set of the children is iterated.
-/

namespace KronMesh

open Word Lottery

namespace Graph

/-- The loop over the children, with `none` where the subtraction would underflow. -/
def ticketHolderChecked (g : Graph) : ℕ → List TxHash → Option (Option TxHash)
  | _, [] => some none
  | ticket, h :: kids =>
    if ticket < g.childWeight h then some (some h)
    else (checkedSub ticket (g.childWeight h)).bind fun rest => ticketHolderChecked g rest kids

theorem ticketHolder_eq_holder (g : Graph) : ∀ (ticket : ℕ) (kids : List TxHash),
    g.ticketHolder ticket kids = holder g.childWeight ticket kids
  | _, [] => rfl
  | ticket, h :: kids => by
    rw [ticketHolder, holder, ticketHolder_eq_holder g _ kids]

/-- What is subtracted was not above the ticket. -/
theorem ticketHolderChecked_eq (g : Graph) : ∀ (ticket : ℕ) (kids : List TxHash),
    g.ticketHolderChecked ticket kids = some (g.ticketHolder ticket kids)
  | _, [] => rfl
  | ticket, h :: kids => by
    rw [ticketHolderChecked, ticketHolder]
    split_ifs with hlt
    · rfl
    · rw [checkedSub_of_le (Nat.le_of_not_lt hlt)]
      exact ticketHolderChecked_eq g _ kids

theorem foldl_saturatingAdd (w : TxHash → ℕ) : ∀ (l : List TxHash) (acc : ℕ),
    acc + tickets w l ≤ u64Max →
    l.foldl (fun total h => saturatingAdd total (w h)) acc = acc + tickets w l
  | [], _, _ => rfl
  | h :: l, acc, hle => by
    rw [tickets_cons] at hle ⊢
    rw [List.foldl_cons, saturatingAdd_of_le (by omega), foldl_saturatingAdd w l _ (by omega)]
    omega

/-- Below the sum of the weights, the pick is the holder of the ticket that is drawn. -/
theorem pickWeightedChild_ticket (c : Chance) (g : Graph) (parent : TxHash) (rng : Rng)
    {ticket : ℕ} (hmax : tickets g.childWeight (g.childrenOf parent) ≤ u64Max)
    (ht : ticket < tickets g.childWeight (g.childrenOf parent)) :
    (g.pickWeightedChild c parent (Stream'.cons ticket rng)).1
      = holder g.childWeight ticket (c.iter (g.childrenOf parent)) := by
  unfold pickWeightedChild
  unfold childrenOf at hmax ht ⊢
  rcases hl : g.children.lookup parent with _ | kids <;> rw [hl] at hmax ht
  · exact absurd ht (Nat.not_lt_zero _)
  rw [Option.getD_some] at hmax ht
  rw [← tickets_perm _ (c.perm kids)] at hmax ht
  have htotal := foldl_saturatingAdd g.childWeight (c.iter kids) 0 (by rwa [Nat.zero_add])
  rw [Nat.zero_add] at htotal
  have hne : (c.iter kids).isEmpty = false := by
    rcases hkids : c.iter kids with _ | ⟨h, rest⟩
    · rw [hkids] at ht
      exact absurd ht (Nat.not_lt_zero _)
    · rfl
  obtain ⟨h, hh⟩ := Option.isSome_iff_exists.1 (isSome_holder _ ht)
  have hdraw : (Rng.genRange (Stream'.cons ticket rng) (tickets g.childWeight (c.iter kids))).1
      = ticket := Nat.mod_eq_of_lt ht
  simp only [hne, htotal, hdraw, Bool.false_eq_true, if_false, Nat.ne_zero_of_lt ht,
    ticketHolder_eq_holder, Option.getD_some, hh, Option.some_or]

/-- The weight of a stored vertex is not zero. -/
theorem Weighed.childWeight_eq {g : Graph} (hw : g.Weighed) {id : TxHash}
    (hid : g.contains id = true) : g.childWeight id = g.cumulativeWeight id := by
  have hl := hw id
  rw [if_pos hid] at hl
  have hpos : 1 ≤ min u64Max (1 + g.approvers id) :=
    Nat.le_min.2 ⟨by decide, Nat.le_add_right _ _⟩
  rw [childWeight, cumulativeWeight, Tally.get, hl, Option.getD_some, Option.getD_some]
  exact max_eq_left hpos

end Graph

section Runs

variable {P : Primitives} {d : KronDAG}

/-- The children of a vertex are stored, so they weigh what is noted for them. -/
theorem childWeight_run (h : KronDAG.withGenesis P = some d) (ops : List Op) {parent kid : TxHash}
    (hkid : kid ∈ (run P d ops).childrenOf parent) :
    (run P d ops).childWeight kid = (run P d ops).cumulativeWeight kid := by
  obtain ⟨tx, hl, -⟩ := ((indexed_run h ops).children parent kid).1 hkid
  exact (weighed_run h ops).childWeight_eq (by rw [Graph.contains, hl, Option.isSome_some])

theorem tickets_run (h : KronDAG.withGenesis P = some d) (ops : List Op) (parent : TxHash) :
    tickets (run P d ops).childWeight ((run P d ops).childrenOf parent)
      = tickets (run P d ops).cumulativeWeight ((run P d ops).childrenOf parent) := by
  unfold tickets
  rw [List.map_congr_left fun kid hkid => childWeight_run h ops hkid]

/-- In every state of a run, and in whatever order the children of a vertex are iterated: of the
tickets below the sum of the weights, as many pick a child as its cumulative weight, and for none
of them more is subtracted than is left of the ticket. -/
theorem pickWeightedChild_run (h : KronDAG.withGenesis P = some d) (ops : List Op) (c : Chance)
    (rng : Rng) (parent : TxHash)
    (hsum : tickets (run P d ops).cumulativeWeight ((run P d ops).childrenOf parent) < u64Max) :
    (∀ kid ∈ (run P d ops).childrenOf parent,
      (List.range (tickets (run P d ops).cumulativeWeight
          ((run P d ops).childrenOf parent))).countP (fun ticket =>
            ((run P d ops).pickWeightedChild c parent (Stream'.cons ticket rng)).1 = some kid)
        = (run P d ops).cumulativeWeight kid)
      ∧ ∀ ticket < tickets (run P d ops).cumulativeWeight ((run P d ops).childrenOf parent),
          ∃ kid, (run P d ops).ticketHolderChecked ticket (c.iter ((run P d ops).childrenOf parent))
            = some (some kid) := by
  have hperm := c.perm ((run P d ops).childrenOf parent)
  rw [← tickets_run h ops] at hsum ⊢
  refine ⟨fun kid hkid => ?_, fun ticket ht => ?_⟩
  · have hpick : ∀ ticket ∈ List.range (tickets (run P d ops).childWeight
        ((run P d ops).childrenOf parent)),
        ((run P d ops).pickWeightedChild c parent (Stream'.cons ticket rng)).1
          = holder (run P d ops).childWeight ticket (c.iter ((run P d ops).childrenOf parent)) :=
      fun ticket ht =>
        Graph.pickWeightedChild_ticket c _ parent rng hsum.le (List.mem_range.1 ht)
    rw [List.countP_congr fun ticket ht => by rw [hpick ticket ht], ← tickets_perm _ hperm,
      countP_holder_eq _ (hperm.nodup_iff.2 ((indexed_run h ops).nodup parent))
        (hperm.mem_iff.2 hkid), childWeight_run h ops hkid]
  · rw [← tickets_perm _ hperm] at ht
    obtain ⟨kid, hkid⟩ := Option.isSome_iff_exists.1 (isSome_holder _ ht)
    exact ⟨kid, by rw [Graph.ticketHolderChecked_eq, Graph.ticketHolder_eq_holder, hkid]⟩

end Runs

open StandIn in
/-- The genesis vertex of a fork has two children of weight one, and each holds one ticket. -/
theorem pickWeightedChild_run_forkOps :
    firstTransfer.id ∈ (run primitives genesisDag forkOps).childrenOf genesisId
      ∧ (List.range (tickets (run primitives genesisDag forkOps).cumulativeWeight
          ((run primitives genesisDag forkOps).childrenOf genesisId))).countP (fun ticket =>
            ((run primitives genesisDag forkOps).pickWeightedChild stillChance genesisId
              (Stream'.cons ticket stillChance.rng)).1 = some firstTransfer.id)
        = (run primitives genesisDag forkOps).cumulativeWeight firstTransfer.id := by
  have hkid : firstTransfer.id ∈ (run primitives genesisDag forkOps).childrenOf genesisId := by
    rw [run_forkOps]
    decide
  have hsum : tickets (run primitives genesisDag forkOps).cumulativeWeight
      ((run primitives genesisDag forkOps).childrenOf genesisId) < u64Max := by
    rw [run_forkOps]
    decide
  exact ⟨hkid, (pickWeightedChild_run withGenesis_genesisDag forkOps stillChance
    stillChance.rng genesisId hsum).1 _ hkid⟩

end KronMesh
