import KronMesh.Hub

/-!
# Credit commands beside a running hub

A credit command reads the data directory, adds its credit to the faucet of the snapshot it has
read, and writes the whole snapshot back. The hub writes the faucet it has in memory. Whoever writes
last wins, so an acknowledged credit is lost when a writer overwrites it that has read before it. In
a run without such a write the faucet of the snapshot covers all acknowledged credits, up to where
a word ends (`credits_kept_iff`).
-/

namespace KronMesh

open Word Outcome Wire

/-- A credit command between its load and its write. `seen` are the credits that were acknowledged
when it loaded. -/
structure CreditRun where
  address : Address
  units : UInt64
  dag : KronDAG
  snap : DagSnapshot
  seen : List (Address × UInt64)

/-- What the command writes. -/
def CreditRun.written (r : CreditRun) : DagSnapshot :=
  .fromDagWithFaucet (r.dag.creditAccount r.address r.units.toNat)
    (r.snap.faucet.set r.address (saturatingAdd (r.snap.faucet.get r.address) r.units.toNat))

/-- The files, the node of the hub with the credits that were acknowledged at its start, the
commands at work, and the credits whose commands returned `Ok`. -/
structure DataDir (ι : Type*) where
  store : DagStore
  hub : Option (KronDAG × List (Address × UInt64))
  runs : AList fun _ : ι => CreditRun
  acked : List (Address × UInt64)

/-- A step of a command, or of the hub: its start, a call on the node in its memory, and what it
persists. -/
inductive DirMove (ι : Type*)
  | load (i : ι) (address : Address) (units : UInt64)
  | write (i : ι)
  | boot
  | call (op : Op)
  | persistVertex (tx : DagTransaction)
  | persistSnapshot

/-! ## Faucets that cover credits -/

/-- The sum of the credits to an address. -/
def paidTo (credits : List (Address × UInt64)) (a : Address) : ℕ :=
  (credits.map fun c => if c.1 = a then c.2.toNat else 0).sum

theorem paidTo_append (credits credits' : List (Address × UInt64)) (a : Address) :
    paidTo (credits ++ credits') a = paidTo credits a + paidTo credits' a := by
  unfold paidTo
  rw [List.map_append, List.sum_append]

theorem paidTo_singleton (a b : Address) (n : UInt64) :
    paidTo [(a, n)] b = if a = b then n.toNat else 0 := by
  unfold paidTo
  rw [List.map_singleton, List.sum_singleton]

theorem paidTo_zeros {credits : List (Address × UInt64)} (h : ∀ c ∈ credits, c.2 = 0)
    (a : Address) : paidTo credits a = 0 := by
  unfold paidTo
  refine List.sum_eq_zero fun n hn => ?_
  obtain ⟨c, hc, rfl⟩ := List.mem_map.1 hn
  rw [h c hc]
  split_ifs <;> rfl

theorem le_paidTo {credits : List (Address × UInt64)} {c : Address × UInt64} (h : c ∈ credits) :
    c.2.toNat ≤ paidTo credits c.1 := by
  unfold paidTo
  refine List.single_le_sum (fun n _ => Nat.zero_le n) _ (List.mem_map.2 ⟨c, h, ?_⟩)
  rw [if_pos rfl]

/-- The faucet is a map of words and holds, per address, the sum of the credits as far as a word
does. -/
structure Covers (faucet : Tally Address) (credits : List (Address × UInt64)) : Prop where
  word : ∀ a, faucet.get a ≤ u64Max
  paid : ∀ a, min (paidTo credits a) u64Max ≤ faucet.get a

section Covers

variable {P : Primitives} {d : KronDAG} {faucet : Tally Address}
variable {credits later : List (Address × UInt64)}

theorem covers_nil (h : ∀ a, faucet.get a ≤ u64Max) : Covers faucet [] :=
  ⟨h, fun _ => (min_le_left _ _).trans (Nat.zero_le _)⟩

/-- The faucet of a credit, behind a saturating addition. -/
theorem Covers.credit (h : Covers faucet credits) (a : Address) (n : UInt64) :
    Covers (faucet.set a (saturatingAdd (faucet.get a) n.toNat)) (credits ++ [(a, n)]) := by
  refine ⟨Tally.get_set_le h.word a (min_le_right _ _), fun b => ?_⟩
  have hpaid := h.paid b
  have hword := h.word b
  rw [paidTo_append, paidTo_singleton, Tally.get_set]
  by_cases hb : b = a
  · subst hb
    rw [if_pos rfl, if_pos rfl]
    unfold saturatingAdd
    omega
  · rw [if_neg (Ne.symm hb), if_neg hb]
    exact hpaid

theorem Covers.of_append (h : Covers faucet (credits ++ later)) : Covers faucet credits := by
  refine ⟨h.word, fun a => ?_⟩
  have hpaid := h.paid a
  rw [paidTo_append] at hpaid
  omega

theorem Covers.append_zeros (h : Covers faucet credits) (hlater : ∀ c ∈ later, c.2 = 0) :
    Covers faucet (credits ++ later) := by
  refine ⟨h.word, fun a => ?_⟩
  rw [paidTo_append, paidTo_zeros hlater, Nat.add_zero]
  exact h.paid a

theorem Covers.creditAccount (h : Covers d.faucet credits) (a : Address) (n : UInt64) :
    Covers (d.creditAccount a n.toNat).faucet (credits ++ [(a, n)]) := by
  unfold KronDAG.creditAccount
  split_ifs with h0
  · refine h.append_zeros fun c hc => ?_
    rw [List.mem_singleton.1 hc]
    exact UInt64.toNat_inj.1 h0
  · exact h.credit a n

/-- No call takes from the faucet of a node. -/
theorem Covers.run (h : Covers d.faucet credits) (ops : List Op) :
    Covers (run P d ops).faucet credits := by
  refine run_invariant (P := P) (fun d => Covers d.faucet credits) ?_ ?_ ops h
  · exact fun d a n hd => (hd.creditAccount a n).of_append
  · exact fun d d' hs hd => KronDAG.faucet_step hs ▸ hd

theorem Covers.run_creditOps (h : Covers d.faucet []) (credits : List (Address × UInt64)) :
    Covers (KronMesh.run P d (creditOps credits)).faucet credits := by
  induction credits using List.reverseRecOn with
  | nil => exact h
  | append_singleton credits c ih =>
    have hops : creditOps (credits ++ [c]) = creditOps credits ++ [.credit c.1 c.2] := by
      unfold creditOps
      rw [List.map_append, List.map_singleton]
    rw [hops, run_concat]
    exact ih.creditAccount c.1 c.2

/-- What a boot credits, its node has. -/
theorem Covers.creditFaucet (h : KronDAG.withGenesis P = some d) (hf : Covers faucet credits) :
    Covers (KronMesh.creditFaucet d faucet).faucet credits := by
  have hnil : Covers d.faucet [] := by
    obtain ⟨g, -, -, -, rfl⟩ := withGenesis_eq h
    exact covers_nil fun _ => Nat.zero_le _
  have hboot := hnil.run_creditOps (P := P) (bootCredits faucet)
  rw [← creditFaucet_eq_run hf.word] at hboot
  refine ⟨hboot.word, fun a => (hf.paid a).trans ?_⟩
  rcases hl : faucet.lookup a with _ | n
  · unfold Tally.get
    rw [hl]
    exact Nat.zero_le _
  · have hmem := (perm_inOrder faucet).mem_iff.2 (AList.mem_lookup_iff.1 hl)
    have hn : n ≤ u64Max := le_of_mem_inOrder hf.word hmem
    have hcredit : (a, UInt64.ofNat n) ∈ bootCredits faucet := List.mem_map.2 ⟨_, hmem, rfl⟩
    have hle := le_paidTo hcredit
    rw [toNat_ofNat_of_le hn] at hle
    rw [Tally.get_of_mem (AList.mem_lookup_iff.1 hl)]
    exact (le_min hle hn).trans (hboot.paid a)

/-- A snapshot that is read back covers what it did. -/
theorem Covers.reload (h : Covers faucet credits) : Covers (KronMesh.reload faucet) credits := by
  have hget := Tally.get_eq_of_perm (perm_reload h.word)
  refine ⟨fun a => ?_, fun a => ?_⟩
  · rw [hget]
    exact h.word a
  · rw [hget]
    exact h.paid a

end Covers

/-! ## Loading and writing -/

section Files

variable {P : Primitives} {d : KronDAG} {store : DagStore} {snap : DagSnapshot}
variable {credits : List (Address × UInt64)}

theorem DagStore.Snapshots.word (h : store.Snapshots P snap) : ∀ a, snap.faucet.get a ≤ u64Max := by
  rcases h with ⟨-, rfl⟩ | ⟨bytes, -, hread⟩
  · exact fun _ => Nat.zero_le _
  · exact faucet_word_of_readSnapshot hread

/-- A snapshot within reach of its length field is the one that is read next. -/
theorem snapshots_writeSnapshot {written : DagSnapshot}
    (h : (encodeSnapshot written).length < 2 ^ 32) :
    (store.writeSnapshot P written).Snapshots P snap ↔ snap = written.reloaded := by
  constructor
  · rintro (⟨hs, -⟩ | ⟨bytes, hs, hread⟩)
    · cases hs
    · cases hs
      rw [readSnapshot_write h] at hread
      exact (Except.ok.inj hread).symm
  · rintro rfl
    exact .inr ⟨_, rfl, readSnapshot_write h⟩

theorem faucet_replayWal : ∀ {records : List DagTransaction} {d d' : KronDAG},
    replayWal P d records = .ok d' → d'.faucet = d.faucet
  | [], _, _, h => by
    cases h
    rfl
  | tx :: records, d, d', h => by
    rw [replayWal] at h
    rcases hc : d.contains tx.id
    case true =>
      rw [hc] at h
      exact faucet_replayWal h
    have hfaucet := faucet_accept (P := P) d tx
    rcases hacc : d.acceptWireVertex P tx with ⟨d₁, e | b⟩
    · rw [hc, hacc] at h
      rw [hacc] at hfaucet
      cases e
      case unknownParent id => exact (faucet_replayWal h).trans hfaucet
      all_goals cases h
    · rw [hc, hacc] at h
      rw [hacc] at hfaucet
      exact (faucet_replayWal h).trans hfaucet

/-- A load reads the snapshot, and what its faucet covers, that of the node covers. -/
theorem covers_load (h : store.load P = .ok (d, snap)) : store.Snapshots P snap
    ∧ ∀ credits, Covers snap.faucet credits → Covers d.faucet credits := by
  obtain ⟨g, d₁, records, hg, hsnap, hreplay, hres⟩ := load_ok h
  have hframe := (d₁.resolve_frame (P := P)).2
  rw [hres, faucet_replayWal hreplay] at hframe
  exact ⟨hsnap, fun credits hc => hframe ▸ hc.creditFaucet hg⟩

end Files

/-! ## Steps -/

namespace DataDir

variable {ι : Type*} [DecidableEq ι]

/-- A data directory, with nobody at work. -/
def start (store : DagStore) : DataDir ι := ⟨store, none, ∅, []⟩

section

variable (P : Primitives)

/-- A command whose load fails returns that, and a hub whose load fails is not there. -/
def move (s : DataDir ι) : DirMove ι → Option (DataDir ι)
  | .load i address units =>
    if (s.runs.lookup i).isSome then none
    else
      match s.store.load P with
      | .ok (dag, snap) =>
        some { s with runs := s.runs.insert i ⟨address, units, dag, snap, s.acked⟩ }
      | .error _ => some s
  | .write i =>
    match s.runs.lookup i with
    | none => none
    | some r =>
      some { s with
        store := s.store.writeSnapshot P r.written
        runs := s.runs.erase i
        acked := s.acked ++ [(r.address, r.units)] }
  | .boot =>
    match s.store.load P with
    | .ok (dag, _) => some { s with hub := some (dag, s.acked) }
    | .error _ => some { s with hub := none }
  | .call op => s.hub.map fun (dag, seen) => { s with hub := some (exec P dag op, seen) }
  | .persistVertex tx => s.hub.map fun (dag, _) =>
      { s with store := (HubState.persistVertex P ⟨dag, s.store⟩ tx).store }
  | .persistSnapshot => s.hub.map fun (dag, _) =>
      { s with store := (HubState.persistSnapshot P ⟨dag, s.store⟩).store }

/-- The steps of commands and hub in some order. -/
def Runs : DataDir ι → List (DirMove ι) → DataDir ι → Prop
  | s, [], s' => s' = s
  | s, m :: moves, s' => ∃ s₁, s.move P m = some s₁ ∧ Runs s₁ moves s'

end

/-- Who has seen `seen` writes a snapshot: all that was acknowledged since is of no amount, and the
snapshot is within reach of its length field. -/
def Current (s : DataDir ι) (seen : List (Address × UInt64)) (written : DagSnapshot) : Prop :=
  (∃ later, s.acked = seen ++ later ∧ ∀ c ∈ later, c.2 = 0)
    ∧ (encodeSnapshot written).length < 2 ^ 32

/-- What the step writes is current. -/
def WritesCurrent (s : DataDir ι) : DirMove ι → Prop
  | .write i => ∀ r, s.runs.lookup i = some r → s.Current r.seen r.written
  | .persistVertex _ | .persistSnapshot =>
    ∀ dag seen, s.hub = some (dag, seen) → s.Current seen (.fromDag dag)
  | _ => True

/-- At every step of the run. -/
def AllCurrent (P : Primitives) : DataDir ι → List (DirMove ι) → Prop
  | _, [] => True
  | s, m :: moves => s.WritesCurrent m ∧ ∀ s₁, s.move P m = some s₁ → AllCurrent P s₁ moves

/-- The snapshot covers what is acknowledged, and every memory what was when it was read. -/
structure Kept (P : Primitives) (s : DataDir ι) : Prop where
  readable : s.acked = [] ∨ ∃ snap, s.store.Snapshots P snap
  covers : ∀ snap, s.store.Snapshots P snap → Covers snap.faucet s.acked
  runs : ∀ i r, s.runs.lookup i = some r → Covers r.snap.faucet r.seen
  hub : ∀ dag seen, s.hub = some (dag, seen) → Covers dag.faucet seen

variable {P : Primitives} {s s' : DataDir ι} {m : DirMove ι}

theorem kept_start (store : DagStore) : (start (ι := ι) store).Kept P :=
  ⟨.inl rfl, fun _ h => covers_nil h.word, nofun, nofun⟩

omit [DecidableEq ι] in
/-- What a writer's faucet covered when it read, it still covers when it is current. -/
theorem Current.covers {seen : List (Address × UInt64)} {written : DagSnapshot}
    {faucet : Tally Address} (hcur : s.Current seen written) (h : Covers faucet seen) :
    Covers faucet s.acked := by
  obtain ⟨⟨later, hacked, hlater⟩, -⟩ := hcur
  rw [hacked]
  exact h.append_zeros hlater

/-- The hub persists what it has in memory. -/
theorem Kept.persist (hk : s.Kept P) {dag : KronDAG} {seen : List (Address × UInt64)}
    (hhub : s.hub = some (dag, seen)) (hcur : s.Current seen (.fromDag dag)) (store : DagStore) :
    { s with store := store.writeSnapshot P (.fromDag dag) }.Kept P := by
  have hcov := hcur.covers (hk.hub dag seen hhub)
  refine ⟨.inr ⟨_, (snapshots_writeSnapshot hcur.2).2 rfl⟩, fun snap h => ?_, hk.runs, hk.hub⟩
  rw [(snapshots_writeSnapshot hcur.2).1 h]
  exact hcov.reload

/-- A credit command reads the snapshot. -/
theorem Kept.load (hk : s.Kept P) {dag : KronDAG} {snap : DagSnapshot}
    (hload : s.store.load P = .ok (dag, snap)) (i : ι) (address : Address) (units : UInt64) :
    { s with runs := s.runs.insert i ⟨address, units, dag, snap, s.acked⟩ }.Kept P := by
  refine ⟨hk.readable, hk.covers, fun j r hj => ?_, hk.hub⟩
  by_cases hji : j = i
  · subst hji
    rw [AList.lookup_insert] at hj
    cases hj
    exact hk.covers snap (covers_load hload).1
  · rw [AList.lookup_insert_ne hji] at hj
    exact hk.runs j r hj

/-- It writes the snapshot with the credit, which is acknowledged. -/
theorem Kept.write (hk : s.Kept P) {i : ι} {r : CreditRun} (hi : s.runs.lookup i = some r)
    (hcur : s.Current r.seen r.written) :
    Kept P { s with
      store := s.store.writeSnapshot P r.written
      runs := s.runs.erase i
      acked := s.acked ++ [(r.address, r.units)] } := by
  have hcov : Covers r.written.faucet (s.acked ++ [(r.address, r.units)]) :=
    (hcur.covers (hk.runs i r hi)).credit r.address r.units
  refine ⟨.inr ⟨_, (snapshots_writeSnapshot hcur.2).2 rfl⟩, fun snap h => ?_, fun j q hj => ?_,
    hk.hub⟩
  · rw [(snapshots_writeSnapshot hcur.2).1 h]
    exact hcov.reload
  · exact hk.runs j q (Assoc.lookup_erase_eq_some.1 hj).2

theorem Kept.move (hk : s.Kept P) (hm : s.move P m = some s') (hw : s.WritesCurrent m) :
    s'.Kept P := by
  rcases m with ⟨i, address, units⟩ | i | - | op | tx | -
  · rw [DataDir.move] at hm
    split_ifs at hm
    rcases hload : s.store.load P with e | ⟨dag, snap⟩
    · rw [hload] at hm
      cases hm
      exact hk
    · rw [hload] at hm
      cases hm
      exact hk.load hload i address units
  · rw [DataDir.move] at hm
    rcases hi : s.runs.lookup i with _ | r
    · rw [hi] at hm
      cases hm
    rw [hi] at hm
    cases hm
    exact hk.write hi (hw r hi)
  · rw [DataDir.move] at hm
    rcases hload : s.store.load P with e | ⟨dag, snap⟩
    · rw [hload] at hm
      cases hm
      exact ⟨hk.readable, hk.covers, hk.runs, nofun⟩
    · rw [hload] at hm
      cases hm
      refine ⟨hk.readable, hk.covers, hk.runs, fun dag' seen hhub => ?_⟩
      cases hhub
      obtain ⟨hsnap, hcov⟩ := covers_load hload
      exact hcov _ (hk.covers snap hsnap)
  · obtain ⟨⟨dag, seen⟩, hhub, rfl⟩ := Option.map_eq_some_iff.1 hm
    refine ⟨hk.readable, hk.covers, hk.runs, fun dag' seen' hhub' => ?_⟩
    cases hhub'
    exact (hk.hub dag seen hhub).run [op]
  · obtain ⟨⟨dag, seen⟩, hhub, rfl⟩ := Option.map_eq_some_iff.1 hm
    exact hk.persist hhub (hw dag seen hhub) (s.store.appendVertex P tx dag)
  · obtain ⟨⟨dag, seen⟩, hhub, rfl⟩ := Option.map_eq_some_iff.1 hm
    exact hk.persist hhub (hw dag seen hhub) s.store

theorem Kept.runs_moves : ∀ {moves : List (DirMove ι)} {s : DataDir ι}, s.Kept P →
    s.Runs P moves s' → s.AllCurrent P moves → s'.Kept P
  | [], s, hk, hr, _ => by
    obtain rfl : s' = s := hr
    exact hk
  | m :: moves, s, hk, ⟨s₁, hm, hr⟩, ⟨hw, hall⟩ =>
    (hk.move hm hw).runs_moves hr (hall s₁ hm)

/-- Credit commands and a hub share a data directory, in any interleaving of their steps and from
any files. If no step writes a snapshot behind a credit that was acknowledged since its writer read
the directory, and all snapshots are within reach of their length fields, then the snapshot that is
read next holds every acknowledged credit exactly when no address is credited more than a word. -/
theorem credits_kept_iff (store : DagStore) {moves : List (DirMove ι)}
    (hruns : (start store).Runs P moves s) (hcurrent : (start store).AllCurrent P moves) :
    (∀ c ∈ s.acked, ∃ snap, s.store.Snapshots P snap
      ∧ paidTo s.acked c.1 ≤ snap.faucet.get c.1) ↔
    ∀ c ∈ s.acked, paidTo s.acked c.1 ≤ u64Max := by
  have hk := (kept_start store).runs_moves hruns hcurrent
  constructor
  · intro h c hc
    obtain ⟨snap, hsnap, hle⟩ := h c hc
    exact hle.trans (hsnap.word c.1)
  · intro h c hc
    obtain ⟨snap, hsnap⟩ := hk.readable.resolve_left (List.ne_nil_of_mem hc)
    have hpaid := (hk.covers snap hsnap).paid c.1
    rw [min_eq_left (h c hc)] at hpaid
    exact ⟨snap, hsnap, hpaid⟩

/-! ## A credit beside a hub -/

section Examples

open StandIn

theorem allCurrent_cons {moves : List (DirMove ι)} (hm : s.move P m = some s') :
    s.AllCurrent P (m :: moves) ↔ s.WritesCurrent m ∧ s'.AllCurrent P moves := by
  rw [AllCurrent, hm]
  simp only [Option.some.injEq, forall_eq']

theorem move_load {i : ι} {address : Address} {units : UInt64} {dag : KronDAG} {snap : DagSnapshot}
    (hi : s.runs.lookup i = none) (h : s.store.load P = .ok (dag, snap)) :
    s.move P (.load i address units)
      = some { s with runs := s.runs.insert i ⟨address, units, dag, snap, s.acked⟩ } := by
  rw [move, hi, h]
  rfl

theorem move_boot {dag : KronDAG} {snap : DagSnapshot} (h : s.store.load P = .ok (dag, snap)) :
    s.move P .boot = some { s with hub := some (dag, s.acked) } := by
  rw [move, h]

/-- The node of a hub that starts on an empty directory. -/
def emptyDag : KronDAG := (genesisDag.resolveConflictsAndRebuildLedger primitives).1

theorem load_empty : DagStore.empty.load primitives = .ok (emptyDag, .default) :=
  (load_eq_ok_iff withGenesis_genesisDag (.inl ⟨rfl, rfl⟩) rfl).2
    ⟨rfl, genesisDag, rfl, Prod.ext rfl (by decide)⟩

theorem faucet_emptyDag : emptyDag.faucet = ∅ := (genesisDag.resolve_frame (P := primitives)).2

/-- A credit of five units, loaded from an empty directory. -/
def fiveRun : CreditRun := ⟨address 1, 5, emptyDag, .default, []⟩

/-- The command has loaded; the hub has, or has not. -/
def loadedDir (hub : Option (KronDAG × List (Address × UInt64))) : DataDir Unit :=
  ⟨.empty, hub, (∅ : AList fun _ : Unit => CreditRun).insert () fiveRun, []⟩

/-- And it has written. -/
def creditedDir (hub : Option (KronDAG × List (Address × UInt64))) : DataDir Unit :=
  ⟨DagStore.empty.writeSnapshot primitives fiveRun.written, hub, (loadedDir hub).runs.erase (),
    [(address 1, 5)]⟩

theorem move_five (hub : Option (KronDAG × List (Address × UInt64))) :
    move primitives ⟨.empty, hub, ∅, []⟩ (.load () (address 1) 5) = some (loadedDir hub)
      ∧ (loadedDir hub).move primitives (.write ()) = some (creditedDir hub) :=
  ⟨move_load rfl load_empty, rfl⟩

/-- The hub has persisted what is in its memory. -/
def persistedDir (dag : KronDAG) (seen : List (Address × UInt64)) : DataDir Unit :=
  { creditedDir (some (dag, seen)) with
    store := (creditedDir none).store.writeSnapshot primitives (.fromDag dag) }

/-- The hub has started before the command. -/
theorem runs_stale : (start .empty).Runs primitives
    [.boot, .load () (address 1) 5, .write (), .persistSnapshot] (persistedDir emptyDag []) :=
  ⟨_, move_boot load_empty, _, (move_five _).1, _, (move_five _).2, _, rfl, rfl⟩

/-- The node of a hub that starts behind the command. -/
def paidDag : KronDAG :=
  ((genesisDag.creditAccount (address 1) 5).resolveConflictsAndRebuildLedger primitives).1

theorem length_written : (encodeSnapshot fiveRun.written).length < 2 ^ 32
    ∧ (encodeSnapshot (.fromDag emptyDag)).length < 2 ^ 32
    ∧ (encodeSnapshot (.fromDag paidDag)).length < 2 ^ 32 := by
  rw [length_encodeSnapshot, length_encodeSnapshot, length_encodeSnapshot]
  decide

theorem load_creditedDir (hub : Option (KronDAG × List (Address × UInt64))) :
    (creditedDir hub).store.load primitives = .ok (paidDag, fiveRun.written.reloaded) := by
  have hfaucet : fiveRun.written.reloaded.faucet = (∅ : Tally Address).set (address 1) 5 :=
    AList.ext (by decide)
  refine (load_eq_ok_iff withGenesis_genesisDag
    ((snapshots_writeSnapshot length_written.1).2 rfl) rfl).2
      ⟨rfl, genesisDag.creditAccount (address 1) 5, ?_, ?_⟩
  · rw [creditFaucet_single (by decide) hfaucet]
    rfl
  · exact Prod.ext rfl (by decide)

theorem runs_current : (start .empty).Runs primitives
    [.load () (address 1) 5, .write (), .boot, .persistSnapshot]
    (persistedDir paidDag [(address 1, 5)]) :=
  ⟨_, (move_five _).1, _, (move_five _).2, _, move_boot (load_creditedDir none), _, rfl, rfl⟩

theorem credits_kept_iff_boot : ∃ snap,
    (persistedDir paidDag [(address 1, 5)]).store.Snapshots primitives snap
      ∧ paidTo [(address 1, 5)] (address 1) ≤ snap.faucet.get (address 1) := by
  have hload : move primitives (start .empty) (.load () (address 1) 5) = some (loadedDir none) :=
    (move_five none).1
  have hboot := move_boot (load_creditedDir none)
  have hcurrent : (start .empty).AllCurrent primitives
      [.load () (address 1) 5, .write (), .boot, .persistSnapshot] := by
    rw [allCurrent_cons hload, allCurrent_cons (move_five none).2, allCurrent_cons hboot,
      allCurrent_cons rfl]
    refine ⟨trivial, fun r hr => ?_, trivial, fun dag seen hhub => ?_, trivial⟩
    · cases hr
      exact ⟨⟨[], rfl, nofun⟩, length_written.1⟩
    · cases hhub
      exact ⟨⟨[], rfl, nofun⟩, length_written.2.2⟩
  refine (credits_kept_iff .empty runs_current hcurrent).2 (fun c hc => ?_) _ List.mem_cons_self
  rw [List.mem_singleton.1 hc]
  decide

/-- The hub that has started before the command overwrites the credit. -/
theorem credit_overwritten_by_hub :
    ¬ ∀ (moves : List (DirMove Unit)) (s : DataDir Unit), (start .empty).Runs primitives moves s →
      ∀ c ∈ s.acked, ∃ snap, s.store.Snapshots primitives snap
        ∧ paidTo s.acked c.1 ≤ snap.faucet.get c.1 := by
  intro h
  obtain ⟨snap, hsnap, hle⟩ := h _ _ runs_stale (address 1, 5) List.mem_cons_self
  rw [(snapshots_writeSnapshot length_written.2.1).1 hsnap] at hle
  have hfaucet : (DagSnapshot.fromDag emptyDag).reloaded.faucet = ∅ := by
    change reload emptyDag.faucet = ∅
    rw [faucet_emptyDag]
    rfl
  rw [hfaucet] at hle
  exact absurd hle (by decide)

end Examples

end DataDir

end KronMesh
