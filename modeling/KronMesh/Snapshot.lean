import KronMesh.Wal

/-!
# The snapshot read back

A snapshot shorter than `2 ^ 32` bytes is read back with its maps (`readSnapshot_write`), so the
faucet of a restart credits what the faucet of the snapshot did (`creditFaucet_reloaded`).
-/

namespace KronMesh

open Word Wire

/-! ## Fields at an offset -/

section Fields

variable {bytes : Bytes} {off n : ℕ}

theorem takeU64_at (h : At bytes off (leBytes 8 n)) :
    takeU64 bytes off = .ok (n % 2 ^ 64, off + 8) := by
  have hle := h.le
  rw [length_leBytes] at hle
  have h1 : ¬ bytes.length < off + 8 := by omega
  have hv : (UInt64.ofNat (leNat (leBytes 8 n))).toNat = n % 2 ^ 64 := by
    rw [leNat_leBytes_mod, UInt64.toNat_ofNat']
    exact Nat.mod_mod _ _
  unfold takeU64 readU64
  simp only [rejectIf_of_not h1, slice_at h (length_leBytes 8 n), ok_bind]
  exact congrArg (fun v => Except.ok (v, off + 8)) hv

theorem takeU32_at (h : At bytes off (leBytes 4 n)) (hn : n < 2 ^ 32) :
    takeU32 bytes off = .ok (n, off + 4) := by
  have hle := h.le
  rw [length_leBytes] at hle
  have h1 : ¬ bytes.length < off + 4 := by omega
  unfold takeU32
  simp only [rejectIf_of_not h1, readU32_at h hn, ok_bind]
  rfl

theorem takeHash_at {x : Hash} (h : At bytes off (hashBytes x)) :
    takeHash bytes off = .ok (x, off + 32) := by
  have hle := h.le
  rw [length_hashBytes] at hle
  have h1 : ¬ bytes.length < off + 32 := by omega
  unfold takeHash
  simp only [rejectIf_of_not h1, slice_at h (length_hashBytes x), ok_bind, hashOfBytes_hashBytes]
  rfl

/-- One account of a map. -/
def accountBytes (e : Sigma fun _ : Address => ℕ) : Bytes := hashBytes e.1 ++ leBytes 8 e.2

theorem length_flatMap_accountBytes (es : List (Sigma fun _ : Address => ℕ)) :
    (es.flatMap accountBytes).length = 40 * es.length := by
  simp only [List.length_flatMap, accountBytes, List.length_append, length_hashBytes,
    length_leBytes, List.map_const', List.sum_replicate]
  rw [Nat.nsmul_eq_mul, Nat.mul_comm]

theorem decodeAccountsLoop_at : ∀ (es : List (Sigma fun _ : Address => ℕ)) (off : ℕ)
    (out : Tally Address), At bytes off (es.flatMap accountBytes) →
    decodeAccountsLoop bytes es.length off out
      = .ok (es.foldl (fun t e => t.set e.1 (e.2 % 2 ^ 64)) out, off + 40 * es.length)
  | [], _, _, _ => rfl
  | e :: es, off, out, hat => by
    rw [List.flatMap_cons] at hat
    have hhash : At bytes off (hashBytes e.1) := hat.left.left
    have hbal : At bytes (off + 32) (leBytes 8 e.2) := by
      have h := hat.left.right
      rwa [length_hashBytes] at h
    have hrest : At bytes (off + 32 + 8) (es.flatMap accountBytes) := by
      have h := hat.right
      rwa [accountBytes, List.length_append, length_hashBytes, length_leBytes] at h
    have hoff : off + 32 + 8 + 40 * es.length = off + 40 * (es.length + 1) := by omega
    simp only [List.length_cons, decodeAccountsLoop, takeHash_at hhash, takeU64_at hbal, ok_bind,
      decodeAccountsLoop_at es _ _ hrest, List.foldl_cons, hoff]

theorem decodeTips_at : ∀ (tips : List TxHash) (off : ℕ), At bytes off (tips.flatMap hashBytes) →
    decodeTips bytes tips.length off = .ok tips
  | [], _, _ => rfl
  | tip :: tips, off, hat => by
    rw [List.flatMap_cons] at hat
    have hrest : At bytes (off + 32) (tips.flatMap hashBytes) := by
      have h := hat.right
      rwa [length_hashBytes] at h
    simp only [List.length_cons, decodeTips, takeHash_at hat.left, ok_bind,
      decodeTips_at tips _ hrest]
    rfl

end Fields

/-! ## Maps -/

/-- The map that is read back: the entries in the order they were written, in words. -/
def reload (accounts : Tally Address) : Tally Address :=
  Tally.ofEntries ((inOrder accounts).map fun e => ⟨e.1, e.2 % 2 ^ 64⟩)

theorem perm_inOrder (accounts : Tally Address) : (inOrder accounts).Perm accounts.entries :=
  List.perm_insertionSort _ _

theorem length_inOrder (accounts : Tally Address) :
    (inOrder accounts).length = accounts.entries.length :=
  (perm_inOrder accounts).length_eq

theorem nodupKeys_inOrder (accounts : Tally Address) : (inOrder accounts).NodupKeys :=
  (List.perm_nodupKeys (perm_inOrder accounts)).2 accounts.nodupKeys

theorem encodeAccounts_eq (accounts : Tally Address) : encodeAccounts accounts
    = leBytes 4 (accounts.entries.length % 2 ^ 32) ++ (inOrder accounts).flatMap accountBytes := rfl

theorem length_encodeAccounts (accounts : Tally Address) :
    (encodeAccounts accounts).length = 4 + 40 * accounts.entries.length := by
  rw [encodeAccounts_eq, List.length_append, length_leBytes, length_flatMap_accountBytes,
    length_inOrder]

theorem decodeAccounts_at {bytes : Bytes} {off : ℕ} {accounts : Tally Address}
    (h : At bytes off (encodeAccounts accounts)) (hn : accounts.entries.length < 2 ^ 32) :
    decodeAccounts bytes off
      = .ok (reload accounts, off + (encodeAccounts accounts).length) := by
  rw [length_encodeAccounts]
  rw [encodeAccounts_eq, Nat.mod_eq_of_lt hn] at h
  have hrest : At bytes (off + 4) ((inOrder accounts).flatMap accountBytes) := by
    have h := h.right
    rwa [length_leBytes] at h
  have hoff : off + 4 + 40 * accounts.entries.length
      = off + (4 + 40 * accounts.entries.length) := by omega
  have hloop := decodeAccountsLoop_at (inOrder accounts) (off + 4) ∅ hrest
  rw [length_inOrder, hoff] at hloop
  unfold decodeAccounts
  simp only [takeU32_at h.left hn, ok_bind, hloop, reload, Tally.ofEntries, List.foldl_map]

instance : Std.Total fun a b : Sigma fun _ : Address => ℕ => a.1 ≤ b.1 :=
  ⟨fun a b => BitVec.le_total a.1 b.1⟩

instance : IsTrans (Sigma fun _ : Address => ℕ) fun a b => a.1 ≤ b.1 :=
  ⟨fun _ _ _ => BitVec.le_trans⟩

/-- The order is that of the keys, whatever the order of the entries. -/
theorem inOrder_eq_of_perm {t t' : Tally Address} (h : t.entries.Perm t'.entries) :
    inOrder t = inOrder t' := by
  have hp : (inOrder t).Perm (inOrder t') :=
    ((perm_inOrder t).trans h).trans (perm_inOrder t').symm
  refine hp.eq_of_pairwise ?_ (List.pairwise_insertionSort _ _) (List.pairwise_insertionSort _ _)
  intro a b ha hb hab hba
  have ha := (perm_inOrder t).mem_iff.1 ha
  have hb := h.mem_iff.2 ((perm_inOrder t').mem_iff.1 hb)
  have hkey : a.1 = b.1 := BitVec.le_antisymm hab hba
  have hval : a.2 = b.2 := by rw [← Tally.get_of_mem ha, hkey, Tally.get_of_mem hb]
  exact Sigma.ext hkey (heq_of_eq hval)

/-- A map of words is read back with its entries. -/
theorem perm_reload {t : Tally Address} (h : ∀ a, t.get a ≤ u64Max) :
    (reload t).entries.Perm t.entries := by
  have hmap : (inOrder t).map (fun e => (⟨e.1, e.2 % 2 ^ 64⟩ : Sigma fun _ : Address => ℕ))
      = inOrder t := by
    refine (List.map_congr_left fun e he => ?_).trans (List.map_id _)
    have hle := h e.1
    rw [Tally.get_of_mem ((perm_inOrder t).mem_iff.1 he)] at hle
    have hmod : e.2 % 2 ^ 64 = e.2 := Nat.mod_eq_of_lt (Nat.lt_of_le_of_lt hle (by decide))
    rw [hmod]
    rfl
  unfold reload
  rw [hmap]
  exact (Tally.perm_entries_ofEntries (nodupKeys_inOrder t)).trans (perm_inOrder t)

/-! ## Words -/

theorem takeU64_word {bytes : Bytes} {off off' v : ℕ} (h : takeU64 bytes off = .ok (v, off')) :
    v ≤ u64Max := by
  unfold takeU64 at h
  obtain ⟨-, -, h⟩ := bind_eq_ok.1 h
  obtain ⟨w, -, h⟩ := bind_eq_ok.1 h
  cases h
  exact Nat.le_of_lt_succ w.toNat_lt

theorem decodeAccountsLoop_word {bytes : Bytes} : ∀ (n off : ℕ) {out t : Tally Address} {off' : ℕ},
    (∀ a, out.get a ≤ u64Max) → decodeAccountsLoop bytes n off out = .ok (t, off') →
    ∀ a, t.get a ≤ u64Max
  | 0, _, _, _, _, hout, h => by
    cases h
    exact hout
  | n + 1, off, out, t, off', hout, h => by
    rw [decodeAccountsLoop] at h
    obtain ⟨⟨addr, off₁⟩, -, h⟩ := bind_eq_ok.1 h
    obtain ⟨⟨bal, off₂⟩, hbal, h⟩ := bind_eq_ok.1 h
    exact decodeAccountsLoop_word n off₂ (Tally.get_set_le hout addr (takeU64_word hbal)) h

theorem decodeAccounts_word {bytes : Bytes} {off off' : ℕ} {t : Tally Address}
    (h : decodeAccounts bytes off = .ok (t, off')) : ∀ a, t.get a ≤ u64Max := by
  obtain ⟨⟨n, off₁⟩, -, h⟩ := bind_eq_ok.1 h
  exact decodeAccountsLoop_word n off₁ (fun _ => Nat.zero_le _) h

/-- The faucet of any snapshot that is read is a map of words. -/
theorem faucet_word_of_readSnapshot {P : Primitives} {bytes : Bytes} {snap : DagSnapshot}
    (h : readSnapshot P bytes = .ok snap) : ∀ a, snap.faucet.get a ≤ u64Max := by
  obtain ⟨⟨body, _⟩, -, h⟩ := bind_eq_ok.1 h
  obtain ⟨⟨supply, off₁⟩, -, h⟩ := bind_eq_ok.1 h
  obtain ⟨⟨dagTxCount, off₂⟩, -, h⟩ := bind_eq_ok.1 h
  obtain ⟨⟨vertexCount, off₃⟩, -, h⟩ := bind_eq_ok.1 h
  obtain ⟨⟨accounts, off₄⟩, -, h⟩ := bind_eq_ok.1 h
  obtain ⟨⟨faucet, off₅⟩, hfaucet, h⟩ := bind_eq_ok.1 h
  obtain ⟨⟨n, off₆⟩, -, h⟩ := bind_eq_ok.1 h
  obtain ⟨tips, -, h⟩ := bind_eq_ok.1 h
  cases h
  exact decodeAccounts_word hfaucet

/-! ## The snapshot -/

/-- The snapshot that is read back. -/
def DagSnapshot.reloaded (snap : DagSnapshot) : DagSnapshot where
  supply := snap.supply % 2 ^ 64
  dagTxCount := snap.dagTxCount % 2 ^ 64
  vertexCount := snap.vertexCount % 2 ^ 64
  accounts := reload snap.accounts
  faucet := reload snap.faucet
  tips := snap.tips

theorem length_encodeSnapshot (snap : DagSnapshot) : (encodeSnapshot snap).length
    = 36 + 40 * snap.accounts.entries.length + 40 * snap.faucet.entries.length
      + 32 * snap.tips.length := by
  simp only [encodeSnapshot, List.length_append, length_leBytes, length_encodeAccounts,
    length_flatMap_hashBytes]
  omega

theorem decodeSnapshot_encodeSnapshot {snap : DagSnapshot}
    (h : (encodeSnapshot snap).length < 2 ^ 32) :
    decodeSnapshot (encodeSnapshot snap) = .ok snap.reloaded := by
  rw [length_encodeSnapshot] at h
  have haccounts : snap.accounts.entries.length < 2 ^ 32 := by omega
  have hfaucet : snap.faucet.entries.length < 2 ^ 32 := by omega
  have htips : snap.tips.length < 2 ^ 32 := by omega
  have hat : At (encodeSnapshot snap) 0 (leBytes 8 snap.supply ++ leBytes 8 snap.dagTxCount
      ++ leBytes 8 snap.vertexCount ++ encodeAccounts snap.accounts ++ encodeAccounts snap.faucet
      ++ leBytes 4 (snap.tips.length % 2 ^ 32) ++ snap.tips.flatMap hashBytes) := At.refl _
  generalize encodeSnapshot snap = bytes at hat ⊢
  have hcount := hat.left.left.left.left.left.right
  have hvertices := hat.left.left.left.left.right
  have hmap := hat.left.left.left.right
  have hmap' := hat.left.left.right
  have hlen := hat.left.right
  have hrest := hat.right
  simp only [List.length_append, length_leBytes, Nat.zero_add, Nat.reduceAdd] at hcount hvertices
  simp only [List.length_append, length_leBytes, Nat.zero_add, Nat.reduceAdd] at hmap hmap'
  simp only [List.length_append, length_leBytes, Nat.zero_add, Nat.reduceAdd,
    Nat.mod_eq_of_lt htips] at hlen hrest
  unfold decodeSnapshot
  simp only [takeU64_at hat.left.left.left.left.left.left, takeU64_at hcount, takeU64_at hvertices,
    decodeAccounts_at hmap haccounts, decodeAccounts_at hmap' hfaucet, takeU32_at hlen htips,
    decodeTips_at _ _ hrest, ok_bind, Nat.zero_add, Nat.reduceAdd]
  rfl

theorem readSnapshot_write {P : Primitives} {snap : DagSnapshot}
    (h : (encodeSnapshot snap).length < 2 ^ 32) :
    readSnapshot P (writeChecksummed P snapMagic (encodeSnapshot snap)) = .ok snap.reloaded := by
  have hread := readChecksummed_at (P := P) rfl h
    (At.refl (writeChecksummed P snapMagic (encodeSnapshot snap)))
  unfold readSnapshot
  rw [hread, ok_bind]
  exact decodeSnapshot_encodeSnapshot h

/-! ## What is written is read back -/

/-- Every number of the snapshot is a `u64`. -/
structure DagSnapshot.Words (snap : DagSnapshot) : Prop where
  supply : snap.supply ≤ u64Max
  dagTxCount : snap.dagTxCount ≤ u64Max
  vertexCount : snap.vertexCount ≤ u64Max
  accounts : ∀ a, snap.accounts.get a ≤ u64Max
  faucet : ∀ a, snap.faucet.get a ≤ u64Max

/-- Equal as the code compares them: a `BTreeMap` is its entries, and here they have no order. -/
structure DagSnapshot.Same (snap snap' : DagSnapshot) : Prop where
  supply : snap.supply = snap'.supply
  dagTxCount : snap.dagTxCount = snap'.dagTxCount
  vertexCount : snap.vertexCount = snap'.vertexCount
  accounts : snap.accounts.entries.Perm snap'.accounts.entries
  faucet : snap.faucet.entries.Perm snap'.faucet.entries
  tips : snap.tips = snap'.tips

theorem DagSnapshot.same_reloaded {snap : DagSnapshot} (h : snap.Words) :
    snap.reloaded.Same snap where
  supply := Nat.mod_eq_of_lt (Nat.lt_of_le_of_lt h.supply (by decide))
  dagTxCount := Nat.mod_eq_of_lt (Nat.lt_of_le_of_lt h.dagTxCount (by decide))
  vertexCount := Nat.mod_eq_of_lt (Nat.lt_of_le_of_lt h.vertexCount (by decide))
  accounts := perm_reload h.accounts
  faucet := perm_reload h.faucet
  tips := rfl

/-- `n` records read one behind the other, and where the last one ends. -/
def readRecords (P : Primitives) (bytes magic : Bytes) :
    ℕ → ℕ → Except (Fault PersistError) (List Bytes × ℕ)
  | 0, off => .ok ([], off)
  | n + 1, off => do
    let (body, off) ← readChecksummed P bytes magic off
    let (rest, off) ← readRecords P bytes magic n off
    return (body :: rest, off)

theorem readRecords_at {P : Primitives} {bytes magic : Bytes} (hm : magic.length = 4) :
    ∀ (bodies : List Bytes) (off : ℕ), (∀ body ∈ bodies, body.length < 2 ^ 32) →
      At bytes off (bodies.flatMap (writeChecksummed P magic)) →
      readRecords P bytes magic bodies.length off
        = .ok (bodies, off + (bodies.flatMap (writeChecksummed P magic)).length)
  | [], _, _, _ => rfl
  | body :: bodies, off, hlen, hat => by
    obtain ⟨hn, hlen⟩ := List.forall_mem_cons.1 hlen
    rw [List.flatMap_cons] at hat
    have hend : off + (writeChecksummed P magic body).length = off + 9 + body.length + 32 := by
      rw [length_writeChecksummed hm]
      omega
    have hrest := hat.right
    rw [hend] at hrest
    rw [List.flatMap_cons, List.length_append, ← Nat.add_assoc, hend]
    simp only [List.length_cons, readRecords, readChecksummed_at hm hn hat.left, ok_bind,
      readRecords_at hm bodies _ hlen hrest]
    rfl

/-- A snapshot is read back, and so are records that are written back to back. -/
theorem snapshot_readBack (P : Primitives) :
    (∀ snap : DagSnapshot, snap.Words → (encodeSnapshot snap).length < 2 ^ 32 →
      ∃ back, decodeSnapshot (encodeSnapshot snap) = .ok back ∧ back.Same snap)
      ∧ ∀ (magic : Bytes) (bodies : List Bytes), magic.length = 4 →
        (∀ body ∈ bodies, body.length < 2 ^ 32) →
        readRecords P (bodies.flatMap (writeChecksummed P magic)) magic bodies.length 0
          = .ok (bodies, (bodies.flatMap (writeChecksummed P magic)).length) := by
  refine ⟨fun snap hw h => ⟨_, decodeSnapshot_encodeSnapshot h, DagSnapshot.same_reloaded hw⟩,
    fun magic bodies hm hlen => ?_⟩
  rw [readRecords_at hm bodies 0 hlen (At.refl _), Nat.zero_add]

/-- A snapshot with an account, a faucet and a tip. -/
def smallSnapshot : DagSnapshot where
  supply := 50
  dagTxCount := 1
  vertexCount := 2
  accounts := Tally.set ∅ 7 40
  faucet := Tally.set ∅ 7 30
  tips := [3]

theorem words_smallSnapshot : smallSnapshot.Words := by
  have hget : ∀ n : ℕ, n ≤ u64Max → ∀ a : Address, (Tally.set ∅ 7 n).get a ≤ u64Max :=
    fun n hn => Tally.get_set_le (fun _ => Nat.zero_le _) 7 hn
  exact ⟨by decide, by decide, by decide, hget 40 (by decide), hget 30 (by decide)⟩

theorem snapshot_readBack_smallSnapshot (P : Primitives) : (∃ back,
    decodeSnapshot (encodeSnapshot smallSnapshot) = .ok back ∧ back.Same smallSnapshot)
      ∧ readRecords P (writeChecksummed P snapMagic (encodeSnapshot smallSnapshot)
          ++ writeChecksummed P snapMagic []) snapMagic 2 0
        = .ok ([encodeSnapshot smallSnapshot, []], 230) := by
  have hlen : (encodeSnapshot smallSnapshot).length = 148 := length_encodeSnapshot _
  have hmagic : snapMagic.length = 4 := rfl
  obtain ⟨hsnap, hrecords⟩ := snapshot_readBack P
  refine ⟨hsnap _ words_smallSnapshot (by rw [hlen]; decide), ?_⟩
  have h := hrecords snapMagic [encodeSnapshot smallSnapshot, []] hmagic (by simp [hlen])
  simp only [List.flatMap_cons, List.flatMap_nil, List.append_nil, List.length_append,
    length_writeChecksummed hmagic, hlen, List.length_cons, List.length_nil] at h
  exact h

end KronMesh
