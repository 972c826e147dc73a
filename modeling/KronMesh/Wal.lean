import KronMesh.Store

/-!
# The log across a crash

The log is read record by record up to the first that cannot be read, and it is opened for
appending after a crash as before it. So a record that a crash cut short hides what is appended
behind it, as long as what follows does not happen to complete it (`wal_crash_iff`).
-/

namespace KronMesh

open Wire

variable {P : Primitives} {bytes magic body : Bytes} {off off' : ℕ} {tx : DagTransaction}

/-! ## Records -/

theorem length_writeChecksummed (hm : magic.length = 4) :
    (writeChecksummed P magic body).length = body.length + 41 := by
  simp only [writeChecksummed, List.length_append, List.length_singleton, length_leBytes,
    length_hashBytes, hm]
  omega

/-- A record is read where it stands. -/
theorem readChecksummed_at (hm : magic.length = 4) (hn : body.length < 2 ^ 32)
    (h : At bytes off (writeChecksummed P magic body)) :
    readChecksummed P bytes magic off = .ok (body, off + 9 + body.length + 32) := by
  have hle := h.le
  rw [length_writeChecksummed hm] at hle
  unfold writeChecksummed at h
  rw [Nat.mod_eq_of_lt hn] at h
  have hmagic := h.left.left.left.left
  have hversion := h.left.left.left.right
  have hlen := h.left.left.right
  have hbody := h.left.right
  have hsum := h.right
  simp only [List.length_append, List.length_singleton, length_leBytes, hm] at hversion hlen hbody
  simp only [List.length_append, List.length_singleton, length_leBytes, hm] at hsum
  have hsum' : At bytes (off + 9 + body.length) (hashBytes (P.sha256 body)) := by
    rw [Nat.add_assoc]
    exact hsum
  have h1 : ¬ bytes.length < off + 4 + 1 + 4 + 32 := by omega
  have h2 : ¬ bytes.length < off + 9 + body.length + 32 := by omega
  unfold readChecksummed
  simp only [rejectIf_of_not h1, slice_at hmagic hm, byteAt_at hversion, readU32_at hlen hn,
    rejectIf_of_not h2, slice_at hbody rfl, slice_at hsum' (length_hashBytes _), ok_bind,
    rejectIf_of_not (not_not_intro rfl)]
  rfl

/-- Whatever is read as a record is one. -/
theorem readChecksummed_eq_ok (hm : magic.length = 4) :
    readChecksummed P bytes magic off = .ok (body, off') ↔
      body.length < 2 ^ 32 ∧ At bytes off (writeChecksummed P magic body)
        ∧ off' = off + 9 + body.length + 32 := by
  constructor
  · intro h
    obtain ⟨_, hshort, h⟩ := bind_eq_ok.1 h
    obtain ⟨m, hmagic, h⟩ := bind_eq_ok.1 h
    obtain ⟨_, hbad, h⟩ := bind_eq_ok.1 h
    obtain ⟨v, hv, h⟩ := bind_eq_ok.1 h
    obtain ⟨_, hversion, h⟩ := bind_eq_ok.1 h
    obtain ⟨n, hn, h⟩ := bind_eq_ok.1 h
    obtain ⟨_, htrunc, h⟩ := bind_eq_ok.1 h
    obtain ⟨b, hb, h⟩ := bind_eq_ok.1 h
    obtain ⟨sum, hsum, h⟩ := bind_eq_ok.1 h
    obtain ⟨_, hcheck, h⟩ := bind_eq_ok.1 h
    cases h
    have hlt := readU32_lt hn
    obtain rfl : m = magic := not_not.1 (rejectIf_eq_ok.1 hbad)
    obtain rfl : v = version := not_not.1 (rejectIf_eq_ok.1 hversion)
    obtain ⟨hmagic, -⟩ := at_of_slice hmagic
    obtain ⟨hbody, hlen⟩ := at_of_slice hb
    obtain ⟨hsum, -⟩ := at_of_slice hsum
    rw [← not_not.1 (rejectIf_eq_ok.1 hcheck)] at hsum
    refine ⟨hlen ▸ hlt, ?_, by rw [hlen]⟩
    unfold writeChecksummed
    rw [hlen, Nat.mod_eq_of_lt hlt]
    have h5 : off + (m ++ [version]).length = off + 5 := by simp [hm]
    have h9 : off + (m ++ [version] ++ leBytes 4 n).length = off + 9 := by simp [hm]
    have hn9 : off + (m ++ [version] ++ leBytes 4 n ++ body).length = off + 9 + n := by
      simp [hm, hlen]
      omega
    have hhead := hmagic.append (hm.symm ▸ at_of_byteAt hv)
    have hhead' := hhead.append (h5.symm ▸ at_of_readU32 hn)
    exact (hhead'.append (h9.symm ▸ hbody)).append (hn9.symm ▸ hsum)
  · rintro ⟨hn, h, rfl⟩
    exact readChecksummed_at hm hn h

theorem readChecksummed_ne_panic : readChecksummed P bytes magic off ≠ .error .panic := by
  refine bind_ne_panic rejectIf_ne_panic fun _ hlen => ?_
  have hlen := rejectIf_eq_ok.1 hlen
  refine bind_ne_panic (slice_ne_panic (by omega)) fun _ _ => ?_
  refine bind_ne_panic rejectIf_ne_panic fun _ _ => ?_
  refine bind_ne_panic (byteAt_ne_panic (by omega)) fun _ _ => ?_
  refine bind_ne_panic rejectIf_ne_panic fun _ _ => ?_
  refine bind_ne_panic (readU32_ne_panic (by omega)) fun _ _ => ?_
  refine bind_ne_panic rejectIf_ne_panic fun _ htrunc => ?_
  have htrunc := rejectIf_eq_ok.1 htrunc
  refine bind_ne_panic (slice_ne_panic (by omega)) fun _ _ => ?_
  refine bind_ne_panic (slice_ne_panic (by omega)) fun _ _ => ?_
  exact bind_ne_panic rejectIf_ne_panic fun _ _ => nofun

/-! ## The log as a journal -/

variable (P) in
/-- The first vertex of a log, and what is behind its record. -/
def nextRecord (bytes : Bytes) : Option (DagTransaction × Bytes) :=
  match readChecksummed P bytes walMagic 0 with
  | .ok (body, off) =>
    match DagTransaction.fromCanonical P body with
    | .ok tx => some (tx, bytes.drop off)
    | .error _ => none
  | .error _ => none

/-- The decoder inverts the body of the vertex, and its length is a word of four bytes. -/
def Logged (P : Primitives) (tx : DagTransaction) : Prop :=
  DagTransaction.fromCanonical P tx.canonicalBytes = .ok tx ∧ tx.canonicalBytes.length < 2 ^ 32

theorem nextRecord_eq_some {rest : Bytes} : nextRecord P bytes = some (tx, rest) ↔
    ∃ body, body.length < 2 ^ 32 ∧ bytes = writeChecksummed P walMagic body ++ rest
      ∧ DagTransaction.fromCanonical P body = .ok tx := by
  unfold nextRecord
  constructor
  · intro h
    rcases hr : readChecksummed P bytes walMagic 0 with e | ⟨body, off⟩
    · rw [hr] at h
      cases h
    obtain ⟨hn, hat, rfl⟩ := (readChecksummed_eq_ok rfl).1 hr
    rw [hr] at h
    simp only [] at h
    rcases hf : DagTransaction.fromCanonical P body with e | y
    · rw [hf] at h
      cases h
    · rw [hf] at h
      cases h
      obtain ⟨rest, hrest⟩ := (at_iff_drop (Nat.zero_le _)).1 hat
      rw [List.drop_zero] at hrest
      refine ⟨body, hn, ?_, hf⟩
      have hlen : 0 + 9 + body.length + 32 = (writeChecksummed P walMagic body).length := by
        rw [length_writeChecksummed rfl]
        omega
      rw [hlen]
      conv_lhs => rw [hrest]
      rw [hrest, List.drop_left]
  · rintro ⟨body, hn, rfl, hf⟩
    have hat : At (writeChecksummed P walMagic body ++ rest) 0 (writeChecksummed P walMagic body) :=
      (At.refl _).append_right rest
    have hlen : 0 + 9 + body.length + 32 = (writeChecksummed P walMagic body).length := by
      rw [length_writeChecksummed rfl]
      omega
    rw [readChecksummed_at rfl hn hat]
    simp only [hf, hlen, List.drop_left]

theorem reads_wal : Journal.Reads (nextRecord P) (walRecord P) (Logged P) where
  next_record tx rest h := nextRecord_eq_some.2 ⟨tx.canonicalBytes, h.2, rfl, h.1⟩
  shrinks h := by
    obtain ⟨body, -, rfl, -⟩ := nextRecord_eq_some.1 h
    rw [List.length_append, length_writeChecksummed rfl]
    omega

/-- Where no record can be read there is none. -/
theorem nextRecord_drop_of_error {e : Fault PersistError} (hoff : off ≤ bytes.length)
    (hr : readChecksummed P bytes walMagic off = .error e) :
    nextRecord P (bytes.drop off) = none := by
  rcases hn : nextRecord P (bytes.drop off) with _ | ⟨tx, rest⟩
  · rfl
  · obtain ⟨body, hb, hdrop, -⟩ := nextRecord_eq_some.1 hn
    rw [readChecksummed_at rfl hb ((at_iff_drop hoff).2 ⟨rest, hdrop⟩)] at hr
    cases hr

/-- Where one can be read, it is the next one if its body is that of a vertex. -/
theorem nextRecord_drop_of_ok (hoff : off ≤ bytes.length)
    (hr : readChecksummed P bytes walMagic off = .ok (body, off')) :
    off < off' ∧ off' ≤ bytes.length ∧ nextRecord P (bytes.drop off)
      = (DagTransaction.fromCanonical P body).toOption.map fun tx => (tx, bytes.drop off') := by
  obtain ⟨hb, hat, rfl⟩ := (readChecksummed_eq_ok rfl).1 hr
  have hle := hat.le
  rw [length_writeChecksummed rfl] at hle
  refine ⟨by omega, by omega, ?_⟩
  obtain ⟨rest, hdrop⟩ := (at_iff_drop hoff).1 hat
  have hrest : bytes.drop (off + 9 + body.length + 32) = rest := by
    have hlen : off + 9 + body.length + 32
        = off + (writeChecksummed P walMagic body).length := by
      rw [length_writeChecksummed rfl]
      omega
    rw [hlen, ← List.drop_drop, hdrop, List.drop_left]
  rcases hc : DagTransaction.fromCanonical P body with e | tx
  · rcases hn : nextRecord P (bytes.drop off) with _ | ⟨y, rest'⟩
    · rfl
    · obtain ⟨body', hb', hdrop', hc'⟩ := nextRecord_eq_some.1 hn
      have h := readChecksummed_at (P := P) rfl hb' ((at_iff_drop hoff).2 ⟨rest', hdrop'⟩)
      rw [hr] at h
      cases h
      rw [hc] at hc'
      cases hc'
  · rw [hrest]
    exact nextRecord_eq_some.2 ⟨body, hb, hdrop, hc⟩

/-- What the loop reads from a place on is what can be read of the bytes behind it. -/
theorem readWalLoop_eq : ∀ (fuel off : ℕ), bytes.length < off + fuel → off ≤ bytes.length →
    readWalLoop P bytes fuel off = .ok (Journal.read (nextRecord P) (bytes.drop off))
  | 0, off, hf, hoff => by omega
  | fuel + 1, off, hf, hoff => by
    rw [readWalLoop]
    by_cases hlt : off < bytes.length
    · rw [if_pos hlt]
      rcases hr : readChecksummed P bytes walMagic off with (e | _) | ⟨body, off'⟩
      · rw [Journal.read_of_none (nextRecord_drop_of_error hoff hr)]
      · exact absurd hr readChecksummed_ne_panic
      · obtain ⟨hoff', hle, hn⟩ := nextRecord_drop_of_ok hoff hr
        simp only []
        rcases hc : DagTransaction.fromCanonical P body with (e | _) | tx
        · rw [hc] at hn
          rw [Journal.read_of_none hn]
        · exact absurd hc (fromCanonical_ne_panic body)
        · rw [hc] at hn
          rw [reads_wal.read_of_some hn]
          simp only [readWalLoop_eq fuel off' (by omega) hle]
          rfl
    · have hdrop : bytes.drop off = [] := List.drop_eq_nil_of_le (by omega)
      have hn : nextRecord P [] = none := rfl
      rw [if_neg hlt, hdrop, Journal.read_of_none hn]

theorem readWal_some (bytes : Bytes) :
    readWal P (some bytes) = .ok (Journal.read (nextRecord P) bytes) := by
  have h : readWalLoop P bytes (bytes.length + 1) 0
      = .ok (Journal.read (nextRecord P) (bytes.drop 0)) :=
    readWalLoop_eq _ 0 (by omega) (Nat.zero_le _)
  rwa [List.drop_zero] at h

/-! ## A crash -/

theorem getD_foldl_appendWal (txs : List DagTransaction) (file : Option Bytes) :
    (txs.foldl (appendWal P) file).getD [] = file.getD [] ++ Journal.log (walRecord P) txs := by
  induction txs generalizing file with
  | nil => simp
  | cons tx txs ih =>
    rw [List.foldl_cons, ih, appendWal, Option.getD_some, List.append_assoc, Journal.log_cons]

theorem foldl_appendWal_some (txs : List DagTransaction) (bytes : Bytes) :
    txs.foldl (appendWal P) (some bytes)
      = some (bytes ++ Journal.log (walRecord P) txs) := by
  induction txs generalizing bytes with
  | nil => simp
  | cons tx txs ih =>
    rw [List.foldl_cons, appendWal, Option.getD_some, ih, List.append_assoc, Journal.log_cons]

/-- No record can be read of a part of one. -/
theorem nextRecord_torn {torn : Bytes} (htx : tx.canonicalBytes.length < 2 ^ 32)
    (htorn : torn <+: walRecord P tx) (hne : torn ≠ walRecord P tx) :
    nextRecord P torn = none := by
  rcases hn : nextRecord P torn with _ | ⟨y, rest⟩
  · rfl
  obtain ⟨body, hb, htorn', -⟩ := nextRecord_eq_some.1 hn
  obtain ⟨suf, hsuf⟩ := id htorn
  -- Both bodies are read at the start of the whole record.
  have hat : At (walRecord P tx) 0 (writeChecksummed P walMagic body) := by
    rw [← hsuf, htorn', List.append_assoc]
    exact (At.refl _).append_right _
  have hread := readChecksummed_at rfl hb hat
  have hat' : At (walRecord P tx) 0 (writeChecksummed P walMagic tx.canonicalBytes) := At.refl _
  have hread' := readChecksummed_at rfl htx hat'
  rw [hread] at hread'
  have hbody : body = tx.canonicalBytes := (Prod.mk.inj (Except.ok.inj hread')).1
  have hle : (walRecord P tx).length ≤ torn.length := by
    rw [htorn', List.length_append, hbody, walRecord]
    exact Nat.le_add_right _ _
  exact absurd (htorn.eq_of_length (Nat.le_antisymm htorn.length_le hle)) hne

variable (P) in
/-- A whole record stands at the start. -/
def StartsWithRecord (bytes : Bytes) : Prop :=
  ∃ body, body.length < 2 ^ 32 ∧ writeChecksummed P walMagic body <+: bytes

/-- What is cut within the magic is completed by no record behind it. -/
theorem not_startsWithRecord {torn rest : Bytes} (htorn : torn <+: walMagic) (hne : torn ≠ []) :
    ¬ StartsWithRecord P (torn ++ walRecord P tx ++ rest) := by
  rintro ⟨body, -, h⟩
  obtain ⟨suf, h⟩ := h
  unfold walRecord writeChecksummed at h
  have hcut : torn = [] ∨ torn = [75] ∨ torn = [75, 82] ∨ torn = [75, 82, 68]
      ∨ torn = [75, 82, 68, 87] := by
    simpa [walMagic] using (List.mem_inits _ _).2 htorn
  rcases hcut with rfl | rfl | rfl | rfl | rfl
  · exact hne rfl
  all_goals simp [walMagic, version] at h

variable (P) in
/-- The log that a run of appends leaves, with the part of a record that a crash left behind it,
after it is opened again and more is appended. -/
def crashedWal (full : List DagTransaction) (torn : Bytes) (later : List DagTransaction) :
    Option Bytes :=
  later.foldl (appendWal P) (some ((full.foldl (appendWal P) none).getD [] ++ torn))

theorem readWal_crashedWal {full later : List DagTransaction} {torn : Bytes}
    (hfull : ∀ x ∈ full, Logged P x) :
    readWal P (crashedWal P full torn later)
      = .ok (full ++ Journal.read (nextRecord P) (torn ++ Journal.log (walRecord P) later)) := by
  rw [crashedWal, foldl_appendWal_some, readWal_some, getD_foldl_appendWal, Option.getD_none,
    List.nil_append, List.append_assoc, reads_wal.read_log_append _ hfull]

/-- What is appended after a crash is read back where the crash left no part of a record, and is
lost where it left one, unless the bytes behind happen to complete it. -/
theorem wal_crash_iff {full later : List DagTransaction} {tx : DagTransaction} {torn : Bytes}
    (hfull : ∀ x ∈ full, Logged P x) (hlater : ∀ x ∈ later, Logged P x) (htx : Logged P tx)
    (htorn : torn <+: walRecord P tx) (hne : torn ≠ walRecord P tx) :
    (torn = [] ∨ later = [] → readWal P (crashedWal P full torn later) = .ok (full ++ later))
      ∧ ((¬ torn <+: walMagic →
            ¬ StartsWithRecord P (torn ++ Journal.log (walRecord P) later)) →
          (readWal P (crashedWal P full torn later) = .ok (full ++ later) ↔
            torn = [] ∨ later = [])) := by
  have hif : torn = [] ∨ later = [] →
      readWal P (crashedWal P full torn later) = .ok (full ++ later) := by
    intro h
    rw [readWal_crashedWal hfull]
    rcases h with rfl | rfl
    · rw [List.nil_append, reads_wal.read_log hlater]
    · have hnone := nextRecord_torn htx.2 htorn hne
      rw [Journal.log_nil, List.append_nil, Journal.read_of_none hnone]
  refine ⟨hif, fun hfree => ⟨fun hread => ?_, hif⟩⟩
  rw [readWal_crashedWal hfull] at hread
  have hread : Journal.read (nextRecord P) (torn ++ Journal.log (walRecord P) later) = later :=
    List.append_cancel_left (Except.ok.inj hread)
  by_contra hboth
  obtain ⟨htorn0, hlater0⟩ := not_or.1 hboth
  refine hlater0 ?_
  have hnone : nextRecord P (torn ++ Journal.log (walRecord P) later) = none := by
    rcases hn : nextRecord P (torn ++ Journal.log (walRecord P) later) with _ | ⟨y, rest⟩
    · rfl
    obtain ⟨body, hb, hbytes, -⟩ := nextRecord_eq_some.1 hn
    have hstart : StartsWithRecord P (torn ++ Journal.log (walRecord P) later) :=
      ⟨body, hb, rest, hbytes.symm⟩
    by_cases hmagic : torn <+: walMagic
    · obtain ⟨z, zs, rfl⟩ := List.exists_cons_of_ne_nil hlater0
      rw [Journal.log_cons, ← List.append_assoc] at hstart
      exact absurd hstart (not_startsWithRecord hmagic htorn0)
    · exact absurd hstart (hfree hmagic)
  rw [← hread, Journal.read_of_none hnone]

section Examples

open StandIn

/-- A transfer under the id of its bytes is read back from a log. -/
theorem logged_transfer {id : TxHash} {n : ℕ} {p1 p2 : TxHash} {r : Address} {a m : UInt64}
    (hid : id = DagTransaction.computeId primitives (transfer id n p1 p2 r a m).unsignedBytes) :
    Logged primitives (transfer id n p1 p2 r a m) := by
  refine ⟨?_, ?_⟩
  · exact fromCanonical_of_nil (verify_signed _ _ _ _ _ _ _ _) hid (Nat.two_pow_pos 32) rfl
  · rw [length_canonicalBytes_transfer]
    decide

theorem logged_plainTransfer : Logged primitives plainTransfer :=
  logged_transfer id_plainTransfer

/-- One byte of a record is a part of it, and not the whole. -/
theorem torn_byte : [75] <+: walRecord primitives plainTransfer
    ∧ ([75] : Bytes) ≠ walRecord primitives plainTransfer := by
  refine ⟨⟨_, rfl⟩, fun h => ?_⟩
  have hlen := congrArg List.length h
  rw [walRecord, length_writeChecksummed rfl] at hlen
  simp at hlen

theorem wal_crash_iff_byte :
    (∀ x ∈ [plainTransfer], Logged primitives x) ∧ Logged primitives plainTransfer
      ∧ readWal primitives (crashedWal primitives [plainTransfer] [75] [plainTransfer])
        ≠ .ok ([plainTransfer] ++ [plainTransfer]) := by
  have hall : ∀ x ∈ [plainTransfer], Logged primitives x := by
    simpa using logged_plainTransfer
  refine ⟨hall, logged_plainTransfer, fun h => ?_⟩
  have hiff := (wal_crash_iff hall hall logged_plainTransfer torn_byte.1 torn_byte.2).2
    fun h => absurd ⟨[82, 68, 87], rfl⟩ h
  simpa using hiff.1 h

/-- One byte of a record is left behind an empty log, and the transfer appended next is lost. -/
theorem append_behind_torn_byte :
    ¬ ∀ full later : List DagTransaction, ∀ tx : DagTransaction, ∀ torn : Bytes,
      (∀ x ∈ full, Logged primitives x) → (∀ x ∈ later, Logged primitives x) →
      Logged primitives tx → torn <+: walRecord primitives tx →
      torn ≠ walRecord primitives tx →
      readWal primitives (crashedWal primitives full torn later) = .ok (full ++ later) := by
  intro h
  have hall : ∀ x ∈ [plainTransfer], Logged primitives x := by
    simpa using logged_plainTransfer
  have hread := h [] [plainTransfer] plainTransfer [75] (by simp) hall logged_plainTransfer
    torn_byte.1 torn_byte.2
  have hnone : nextRecord primitives ([75] ++ Journal.log (walRecord primitives) [plainTransfer])
      = none := by
    rcases hn : nextRecord primitives
      ([75] ++ Journal.log (walRecord primitives) [plainTransfer]) with _ | ⟨y, rest⟩
    · rfl
    obtain ⟨body, -, hbytes, -⟩ := nextRecord_eq_some.1 hn
    simp [Journal.log, walRecord, writeChecksummed, walMagic] at hbytes
  rw [readWal_crashedWal (by simp), Journal.read_of_none hnone] at hread
  cases hread

end Examples

end KronMesh
