import KronMesh.TxCodec

/-!
# What the decoder of a vertex accepts

The decoder skips what a signature field holds behind the signature, reads a proof without the
length of its key, and does not look behind the last proof. So what it accepts is the encoding of
the vertex exactly when none of the three is there (`canonicalBytes_eq_iff`). It allocates both
lists by the count it has read, and not by what stands behind the count (`bounded_allocs_iff`).
-/

namespace KronMesh

open Wire

/-! ## A key with a signature -/

section KeyAndSig

variable {P : Primitives} {bytes raw : Bytes} {off off' n : ℕ} {pk : LatticePublicKey}
  {sig : LatticeSignature} {slack : Bytes}

/-- What is decoded is the front of an envelope. -/
theorem decodeBlob_eq_ok (h : decodeBlob bytes n = .ok raw) :
    raw.length = n ∧ ∃ rest, bytes = encodeBlob schemeMldsa44 raw ++ rest := by
  obtain ⟨len, hlen, hraw⟩ := bind_eq_ok.1 h
  obtain ⟨_, hshort, h⟩ := bind_eq_ok.1 hlen
  obtain ⟨tag, htag, h⟩ := bind_eq_ok.1 h
  obtain ⟨_, -, h⟩ := bind_eq_ok.1 h
  obtain ⟨_, hscheme, h⟩ := bind_eq_ok.1 h
  obtain ⟨m, hm, h⟩ := bind_eq_ok.1 h
  obtain ⟨_, hn, h⟩ := bind_eq_ok.1 h
  obtain ⟨_, hle, h⟩ := bind_eq_ok.1 h
  cases h
  obtain rfl : m = n := not_not.1 (rejectIf_eq_ok.1 hn)
  obtain rfl : tag = schemeMldsa44 := not_not.1 (rejectIf_eq_ok.1 hscheme)
  have hlt := readU32_lt hm
  obtain ⟨hraw, hlen⟩ := at_of_slice hraw
  have hlen : raw.length = m := by omega
  have hat := (at_of_byteAt htag).append (at_of_readU32 hm)
  have hat := hat.append hraw
  rw [← hlen] at hat hlt
  obtain ⟨rest, hrest⟩ := (at_iff_drop (Nat.zero_le _)).1 hat
  refine ⟨hlen, rest, ?_⟩
  rw [List.drop_zero] at hrest
  rw [encodeBlob, Nat.mod_eq_of_lt hlt]
  exact hrest

/-- A key and a signature as the crate wants them, and a field that its length can measure. -/
structure Enveloped (P : Primitives) (pk : LatticePublicKey) (sig : LatticeSignature)
    (slack : Bytes) : Prop where
  key : pk.raw.length = pkLen
  keyOk : P.publicKeyOk pk.raw = true
  sig : sig.bytes.length = sigLen
  short : 2425 + slack.length < 2 ^ 32

/-- The key, the length of the signature's field, and the field. -/
def keyAndSigBytes (pk : LatticePublicKey) (sig : LatticeSignature) (slack : Bytes) : Bytes :=
  pk.toBytes ++ leBytes 4 (2425 + slack.length) ++ sig.toBytes ++ slack

theorem Enveloped.length (h : Enveloped P pk sig slack) :
    (keyAndSigBytes pk sig slack).length = 3746 + slack.length := by
  simp only [keyAndSigBytes, List.length_append, length_toBytes_key h.key, length_leBytes,
    length_toBytes_sig h.sig]

theorem readKeyAndSig_of_at (he : Enveloped P pk sig slack)
    (hat : At bytes off (keyAndSigBytes pk sig slack)) :
    readKeyAndSig P bytes off = .ok (pk, sig, off + (3746 + slack.length)) := by
  have hpl := length_toBytes_key he.key
  have hsl := length_toBytes_sig he.sig
  have hle := hat.le
  rw [he.length] at hle
  have hkey : At bytes off pk.toBytes := hat.left.left.left
  have hlen : At bytes (off + 1317) (leBytes 4 (2425 + slack.length)) := by
    have h := hat.left.left.right
    rwa [hpl] at h
  have hfield : At bytes (off + 1317 + 4) (sig.toBytes ++ slack) := by
    have h := (show At bytes off (pk.toBytes ++ leBytes 4 (2425 + slack.length)
      ++ (sig.toBytes ++ slack)) by rw [← List.append_assoc]; exact hat).right
    rwa [List.length_append, hpl, length_leBytes, ← Nat.add_assoc] at h
  have hfl : (sig.toBytes ++ slack).length = 2425 + slack.length := by
    rw [List.length_append, hsl]
  have hblob : LatticePublicKey.encodedLen bytes off = .ok 1317 :=
    blobLen_at hkey he.key (by decide)
  have hsig : LatticeSignature.fromBytes (sig.toBytes ++ slack) = .ok sig := by
    have hat : At (sig.toBytes ++ slack) 0 sig.toBytes := (At.refl _).append_right slack
    have hraw : At (sig.toBytes ++ slack) 5 sig.bytes := by
      have h := hat
      unfold LatticeSignature.toBytes encodeBlob at h
      have h5 := h.right
      simp only [List.length_append, List.length_singleton, length_leBytes] at h5
      exact h5
    unfold LatticeSignature.fromBytes decodeBlob
    rw [blobLen_at hat he.sig (by decide), ok_bind, slice_at hraw (by rw [he.sig]; rfl), ok_bind]
    rfl
  have h1 : ¬ bytes.length < off + 1317 + 4 := by omega
  have h2 : ¬ bytes.length < off + (3746 + slack.length) := by omega
  have hoff : off + 1317 + 4 + (2425 + slack.length) = off + (3746 + slack.length) := by omega
  simp only [readKeyAndSig, hblob, asSign, ok_bind, rejectIf_of_not h1, slice_at hkey hpl,
    LatticePublicKey.fromBytes_toBytes he.key he.keyOk, readU32_at hlen he.short, hoff,
    rejectIf_of_not h2, slice_at hfield hfl, hsig]
  rfl

/-- A key and a signature are read where they stand, also with something behind the signature in
its field; and nowhere else. -/
theorem readKeyAndSig_eq_ok_iff : readKeyAndSig P bytes off = .ok (pk, sig, off') ↔
    ∃ slack, Enveloped P pk sig slack ∧ At bytes off (keyAndSigBytes pk sig slack)
      ∧ off' = off + (3746 + slack.length) := by
  constructor
  · intro h
    obtain ⟨len, hlen, h⟩ := bind_eq_ok.1 h
    obtain ⟨_, -, h⟩ := bind_eq_ok.1 h
    obtain ⟨pkBytes, hpkb, h⟩ := bind_eq_ok.1 h
    obtain ⟨pk', hpk, h⟩ := bind_eq_ok.1 h
    obtain ⟨slen, hslen, h⟩ := bind_eq_ok.1 h
    obtain ⟨_, -, h⟩ := bind_eq_ok.1 h
    obtain ⟨sigBytes, hsigb, h⟩ := bind_eq_ok.1 h
    obtain ⟨sig', hsig, h⟩ := bind_eq_ok.1 h
    cases h
    obtain ⟨raw, hraw, h⟩ := bind_eq_ok.1 (asSign_eq_ok hpk)
    obtain ⟨_, -, h⟩ := bind_eq_ok.1 h
    obtain ⟨_, hok, h⟩ := bind_eq_ok.1 h
    cases h
    obtain ⟨sraw, hsraw, h⟩ := bind_eq_ok.1 (asSign_eq_ok hsig)
    cases h
    obtain ⟨hkey, rest, rfl⟩ := decodeBlob_eq_ok hraw
    obtain ⟨hsl, slack, rfl⟩ := decodeBlob_eq_ok hsraw
    obtain ⟨hat, hl⟩ := at_of_slice hpkb
    obtain ⟨hats, hls⟩ := at_of_slice hsigb
    have hlen' := blobLen_at hat.left hkey (by decide)
    obtain rfl : 5 + pkLen = len := Except.ok.inj (hlen'.symm.trans (asSign_eq_ok hlen))
    rw [List.length_append, length_encodeBlob, hkey] at hl
    obtain rfl : rest = [] := List.eq_nil_of_length_eq_zero (by omega)
    rw [List.append_nil] at hat
    rw [List.length_append, length_encodeBlob, hsl] at hls
    have hlt := readU32_lt hslen
    have h2425 : sigLen = 2420 := rfl
    have he : Enveloped P ⟨raw⟩ ⟨sraw⟩ slack :=
      ⟨hkey, by simpa using rejectIf_eq_ok.1 hok, hsl, by omega⟩
    have hslen' := at_of_readU32 hslen
    have hcount : slen = 2425 + slack.length := by omega
    rw [hcount] at hslen'
    have hpkl : (encodeBlob schemeMldsa44 raw).length = 5 + pkLen := by
      rw [length_encodeBlob, hkey]
    refine ⟨slack, he, ?_, ?_⟩
    · have h1 := hat.append (hslen'.at_eq (by rw [hpkl]))
      have h2 := h1.append (hats.at_eq (by
        rw [List.length_append, hpkl, length_leBytes, Nat.add_assoc off]))
      rw [← List.append_assoc] at h2
      exact h2
    · rw [hcount]
      unfold pkLen
      omega
  · rintro ⟨slack, he, hat, rfl⟩
    exact readKeyAndSig_of_at he hat

end KeyAndSig

/-! ## The layout of what is accepted -/

section Layout

variable {P : Primitives} {bytes : Bytes} {off off' n : ℕ} {tx : DagTransaction}

theorem at_of_readHash {h : Hash} (hr : readHash bytes off = .ok h) :
    At bytes off (hashBytes h) := by
  obtain ⟨b, hb, hr⟩ := bind_eq_ok.1 hr
  cases hr
  obtain ⟨hat, hlen⟩ := at_of_slice hb
  rwa [hashBytes_hashOfBytes hlen]

theorem at_of_readRelayNodes : ∀ (n off : ℕ) {nodes : List Address} {off' : ℕ},
    off ≤ bytes.length → readRelayNodes bytes n off = .ok (nodes, off') →
      At bytes off (nodes.flatMap hashBytes) ∧ off' = off + 32 * n
  | 0, off, nodes, off', hle, h => by
    cases h
    exact ⟨(at_iff_drop hle).2 ⟨bytes.drop off, rfl⟩, rfl⟩
  | n + 1, off, nodes, off', hle, h => by
    obtain ⟨_, hroom, h⟩ := bind_eq_ok.1 h
    obtain ⟨node, hnode, h⟩ := bind_eq_ok.1 h
    obtain ⟨⟨rest, end'⟩, hrest, h⟩ := bind_eq_ok.1 h
    cases h
    have hroom := rejectIf_eq_ok.1 hroom
    obtain ⟨hat, rfl⟩ := at_of_readRelayNodes n (off + 32) (by omega) hrest
    refine ⟨?_, by omega⟩
    rw [List.flatMap_cons]
    exact (at_of_readHash hnode).append (by rwa [length_hashBytes])

/-- The bytes in front of the proofs, with what is behind the signature in its field. -/
def DagTransaction.frontBytes (tx : DagTransaction) (slack : Bytes) : Bytes :=
  tx.unsignedBytes ++ leBytes 4 (2425 + slack.length) ++ tx.signature.toBytes ++ slack
    ++ leBytes 4 tx.relayNodes.length ++ tx.relayNodes.flatMap hashBytes
    ++ leBytes 4 tx.relayProofs.length

theorem length_frontBytes {slack : Bytes} (he : Enveloped P tx.publicKey tx.signature slack) :
    (tx.frontBytes slack).length = 3906 + slack.length + 32 * tx.relayNodes.length := by
  simp only [DagTransaction.frontBytes, List.length_append, DagTransaction.length_unsignedBytes,
    length_toBytes_key he.key, length_leBytes, length_toBytes_sig he.sig, length_flatMap_hashBytes]
  omega

/-- The fields of an accepted string stand where they are read. -/
theorem fromCanonical_layout (h : DagTransaction.fromCanonical P bytes = .ok tx) :
    ∃ slack off, Enveloped P tx.publicKey tx.signature slack ∧ At bytes 0 (tx.frontBytes slack)
      ∧ readRelayProofs P bytes tx.relayProofs.length (tx.frontBytes slack).length
        = .ok (tx.relayProofs, off) := by
  obtain ⟨fr, nodes, off, proofs, last, hfront, hnodes, hroom', hk, hproofs, rfl⟩ :=
    fromCanonical_eq_ok.1 h
  have hstands := readFront_eq_ok.1 hfront
  obtain ⟨slack, he, hat, hoff⟩ := readKeyAndSig_eq_ok_iff.1 hstands.keyAndSig
  have hroom := hstands.room
  have hcount := hstands.count
  have hn : nodes.length = fr.nRelays := length_readRelayNodes _ _ hnodes
  obtain ⟨hlist, rfl⟩ := at_of_readRelayNodes _ _ (by omega) hnodes
  rw [hoff] at hcount hlist hk hproofs
  rw [← hn] at hcount hk hproofs
  have hlen := he.length
  -- the header, field by field
  have h1 := (at_of_readHash hstands.parent1).append (at_of_readHash hstands.parent2)
  have h2 := h1.append ((at_of_readHash hstands.sender).at_eq (by simp))
  have h3 := h2.append ((at_of_readHash hstands.recipient).at_eq (by simp))
  have h4 := h3.append ((at_of_readU64 hstands.amount).at_eq (by simp))
  have h5 := h4.append ((at_of_readU64 hstands.fee).at_eq (by simp))
  have h6 := h5.append ((at_of_readU64 hstands.nonce).at_eq (by simp))
  have h7 := h6.append (hat.at_eq (by simp))
  -- then the lists
  have h8 := h7.append ((at_of_readU32 hcount).at_eq (by
    rw [List.length_append, hlen]
    simp))
  have h9 := h8.append (hlist.at_eq (by
    rw [List.length_append, List.length_append, hlen]
    simp))
  have h10 := h9.append ((at_of_readU32 hk).at_eq (by
    rw [List.length_append, List.length_append, List.length_append, hlen, length_flatMap_hashBytes]
    simp))
  refine ⟨slack, last, he, ?_, ?_⟩
  · simpa only [Front.vertex, DagTransaction.frontBytes, DagTransaction.unsignedBytes,
      DagTransaction.refreshId, keyAndSigBytes, List.append_assoc] using h10
  · have hstart : 152 + (3746 + slack.length) + 4 + 32 * nodes.length + 4
        = ((fr.vertex P nodes proofs).frontBytes slack).length := by
      rw [length_frontBytes he]
      show _ = 3906 + slack.length + 32 * nodes.length
      omega
    rw [hstart] at hproofs
    exact hproofs

/-- The three counts of an accepted string are read where they stand. -/
theorem readU32_frontBytes {slack : Bytes} (he : Enveloped P tx.publicKey tx.signature slack)
    (hn : tx.relayNodes.length < 2 ^ 32) (hp : tx.relayProofs.length < 2 ^ 32)
    (hat : At bytes 0 (tx.frontBytes slack)) :
    readU32 (ε := DagError) bytes 1469 = .ok (2425 + slack.length)
      ∧ readU32 (ε := DagError) bytes (3898 + slack.length) = .ok tx.relayNodes.length
      ∧ readU32 (ε := DagError) bytes (3902 + slack.length + 32 * tx.relayNodes.length)
        = .ok tx.relayProofs.length := by
  have h1 := hat.left.left.left.left.left.right
  have h2 := hat.left.left.right
  have h3 := hat.right
  simp only [List.length_append, DagTransaction.length_unsignedBytes, length_toBytes_key he.key,
    length_leBytes, length_toBytes_sig he.sig, length_flatMap_hashBytes] at h1 h2 h3
  exact ⟨readU32_at h1 he.short, readU32_at (h2.at_eq (by omega)) hn,
    readU32_at (h3.at_eq (by omega)) hp⟩

/-- The encoder leaves nothing behind the signature, and the proofs come last. -/
theorem canonicalBytes_eq_front {slack : Bytes}
    (he : Enveloped P tx.publicKey tx.signature slack) (hn : tx.relayNodes.length < 2 ^ 32)
    (hp : tx.relayProofs.length < 2 ^ 32) :
    tx.canonicalBytes = tx.frontBytes [] ++ tx.relayProofs.flatMap relayProofBytes := by
  simp only [DagTransaction.canonicalBytes, DagTransaction.frontBytes, length_toBytes_sig he.sig,
    Nat.mod_eq_of_lt hn, Nat.mod_eq_of_lt hp, List.length_nil, List.append_nil]
  rfl

/-- The first of the proofs that are read has a key as the crate wants it. -/
theorem length_key_of_readRelayProofs {proof : RelayProof} {proofs : List RelayProof}
    (h : readRelayProofs P bytes n off = .ok (proof :: proofs, off')) :
    n = proofs.length + 1 ∧ proof.publicKey.raw.length = pkLen := by
  have hn := length_readRelayProofs n off h
  rw [List.length_cons] at hn
  obtain rfl := hn.symm
  obtain ⟨_, -, h⟩ := bind_eq_ok.1 h
  obtain ⟨_, -, h⟩ := bind_eq_ok.1 h
  obtain ⟨⟨pk, sig, _⟩, hks, h⟩ := bind_eq_ok.1 h
  obtain ⟨_, -, h⟩ := bind_eq_ok.1 h
  cases h
  obtain ⟨slack, he, -, -⟩ := readKeyAndSig_eq_ok_iff.1 hks
  exact ⟨rfl, he.key⟩

/-- The signature's field is as long as the signature, there is no proof, and nothing follows. -/
def Tight (bytes : Bytes) : Prop :=
  readU32 (ε := DagError) bytes 1469 = .ok 2425
    ∧ ∃ n, readU32 (ε := DagError) bytes 3898 = .ok n
      ∧ readU32 (ε := DagError) bytes (3902 + 32 * n) = .ok 0 ∧ bytes.length = 3906 + 32 * n

/-- A string that is accepted is the encoding of what it is read as exactly when it is tight. -/
theorem canonicalBytes_eq_iff (h : DagTransaction.fromCanonical P bytes = .ok tx) :
    tx.canonicalBytes = bytes ↔ Tight bytes := by
  obtain ⟨-, hn, hp⟩ := fromCanonical_facts h
  obtain ⟨slack, last, he, hat, hproofs⟩ := fromCanonical_layout h
  have hcanon := canonicalBytes_eq_front he hn hp
  obtain ⟨hslen, hnodes, hcount⟩ := readU32_frontBytes he hn hp hat
  constructor
  · intro heq
    have he' : Enveloped P tx.publicKey tx.signature [] := ⟨he.key, he.keyOk, he.sig, by decide⟩
    have hat' : At bytes 0 (tx.frontBytes [] ++ tx.relayProofs.flatMap relayProofBytes) :=
      At.of_eq (heq.symm.trans hcanon)
    obtain ⟨hslen', -, -⟩ := readU32_frontBytes he' hn hp hat'.left
    have hlen : 2425 + slack.length = 2425 + 0 := Except.ok.inj (hslen.symm.trans hslen')
    obtain rfl : slack = [] := List.eq_nil_of_length_eq_zero (by omega)
    have hnil : tx.relayProofs = [] := by
      -- the encoder writes the length of a key, the decoder takes it for the key
      rcases hl : tx.relayProofs with _ | ⟨proof, proofs⟩
      · rfl
      · rw [hl] at hproofs hat'
        obtain ⟨-, hkey⟩ := length_key_of_readRelayProofs hproofs
        have hback := hat'.right
        rw [Nat.zero_add] at hback
        rw [List.length_cons, readRelayProofs_at hkey hback] at hproofs
        cases hproofs
    refine ⟨hslen, _, hnodes, ?_, ?_⟩
    · rw [hnil] at hcount
      exact hcount
    · rw [← heq, hcanon, hnil, List.flatMap_nil, List.append_nil, length_frontBytes he]
      rfl
  · rintro ⟨hs, n, hn', hk, hlen⟩
    have h2425 : 2425 + slack.length = 2425 := Except.ok.inj (hslen.symm.trans hs)
    obtain rfl : slack = [] := List.eq_nil_of_length_eq_zero (by omega)
    obtain rfl : tx.relayNodes.length = n := Except.ok.inj (hnodes.symm.trans hn')
    have hnil : tx.relayProofs = [] :=
      List.eq_nil_of_length_eq_zero (Except.ok.inj (hcount.symm.trans hk))
    rw [hcanon, hnil, List.flatMap_nil, List.append_nil]
    refine (hat.eq_of_length ?_).symm
    rw [hlen, length_frontBytes he]
    rfl

end Layout

/-! ## The counts that size the lists -/

section Counts

variable (P : Primitives)

/-- The decoder up to where it allocates `relay_nodes`: the capacity, and where the nodes begin. -/
def allocRelayNodes (bytes : Bytes) : Except (Fault DagError) (ℕ × ℕ) := do
  rejectIf (bytes.length < 32 + 32 + 32 + 32 + 8 + 8 + 8) (.sign .invalidEncoding)
  let _parent1 ← readHash bytes 0
  let _parent2 ← readHash bytes 32
  let _sender ← readHash bytes 64
  let _recipient ← readHash bytes 96
  let _amount ← readU64 bytes 128
  let _fee ← readU64 bytes 136
  let _nonce ← readU64 bytes 144
  let (_publicKey, _signature, off) ← readKeyAndSig P bytes 152
  rejectIf (bytes.length < off + 4) (.sign .invalidEncoding)
  let nRelays ← readU32 bytes off
  return (nRelays, off + 4)

/-- The decoder up to where it allocates `relay_proofs`. -/
def allocRelayProofs (bytes : Bytes) : Except (Fault DagError) (ℕ × ℕ) := do
  let (nRelays, off) ← allocRelayNodes P bytes
  let (_relayNodes, off) ← readRelayNodes bytes nRelays off
  rejectIf (bytes.length < off + 4) (.sign .invalidEncoding)
  let nProofs ← readU32 bytes off
  return (nProofs, off + 4)

/-- Wherever the decoder allocates, the elements asked for could stand in the bytes still unread:
32 bytes a node, 36 and more a proof. -/
def BoundedAllocs (bytes : Bytes) : Prop :=
  (∀ n off, allocRelayNodes P bytes = .ok (n, off) → n * 32 ≤ bytes.length - off)
    ∧ ∀ k off, allocRelayProofs P bytes = .ok (k, off) → k * 36 ≤ bytes.length - off

/-- A header, a key, and a signature in a field that may be longer. -/
def Preamble (pre : Bytes) : Prop :=
  ∃ header pk sig slack, header.length = 152 ∧ Enveloped P pk sig slack
    ∧ pre = header ++ keyAndSigBytes pk sig slack

/-- A list is cut short: a preamble, a count, and less behind it than so many elements take. -/
inductive CutShort : Bytes → Prop
  | nodes {pre rest : Bytes} {n : ℕ} : Preamble P pre → n < 2 ^ 32 → rest.length < n * 32 →
    CutShort (pre ++ leBytes 4 n ++ rest)
  | proofs {pre rest : Bytes} {nodes : List Address} {k : ℕ} : Preamble P pre →
    nodes.length < 2 ^ 32 → k < 2 ^ 32 → rest.length < k * 36 →
    CutShort (pre ++ leBytes 4 nodes.length ++ nodes.flatMap hashBytes ++ leBytes 4 k ++ rest)

variable {P} {bytes pre : Bytes} {off n k : ℕ} {tx : DagTransaction}

theorem bind_error {β β' γ : Type} {x : Except (Fault DagError) β}
    {f : β → Except (Fault DagError) β'} {g : β → Except (Fault DagError) γ} {e : Fault DagError}
    (hfg : ∀ b, f b = .error e → g b = .error e) (h : (x >>= f) = .error e) :
    (x >>= g) = .error e := by
  rcases x with e' | b
  · cases h
    rfl
  · exact hfg b h

theorem allocRelayNodes_eq (bytes : Bytes) :
    allocRelayNodes P bytes
      = readFront P bytes >>= fun fr => .ok (fr.nRelays, fr.countOff + 4) := by
  simp only [allocRelayNodes, readFront, bind_assoc]
  refine bind_congr fun _ => bind_congr fun _ => bind_congr fun _ => bind_congr fun _ =>
    bind_congr fun _ => bind_congr fun _ => bind_congr fun _ => bind_congr fun _ =>
      bind_congr fun ks => ?_
  obtain ⟨publicKey, signature, off⟩ := ks
  simp only [pure_bind]
  rfl

theorem allocRelayNodes_front : allocRelayNodes P bytes = .ok (n, off) ↔
    ∃ fr, readFront P bytes = .ok fr ∧ n = fr.nRelays ∧ off = fr.countOff + 4 := by
  rw [allocRelayNodes_eq, bind_eq_ok]
  simp only [Except.ok.injEq, Prod.mk.injEq, eq_comm]

/-- The decoder ends as it does before it allocates the nodes, unless it comes to that. -/
theorem fromCanonical_of_allocRelayNodes {e : Fault DagError}
    (h : allocRelayNodes P bytes = .error e) : DagTransaction.fromCanonical P bytes = .error e := by
  rw [allocRelayNodes_eq] at h
  rw [fromCanonical_eq]
  rcases hfront : readFront P bytes with e' | fr
  · rw [hfront] at h
    cases h
    rfl
  · rw [hfront] at h
    cases h

/-- And as it does before it allocates the proofs, unless it comes to that. -/
theorem fromCanonical_of_allocRelayProofs {e : Fault DagError}
    (h : allocRelayProofs P bytes = .error e) :
    DagTransaction.fromCanonical P bytes = .error e := by
  rcases halloc : allocRelayNodes P bytes with e' | ⟨n, off⟩
  · rw [allocRelayProofs, halloc] at h
    cases h
    exact fromCanonical_of_allocRelayNodes halloc
  · obtain ⟨fr, hfront, rfl, rfl⟩ := allocRelayNodes_front.1 halloc
    rw [allocRelayProofs, halloc, ok_bind] at h
    rw [fromCanonical_eq, hfront, ok_bind, Front.readLists]
    refine bind_error (fun _ => ?_) h
    refine bind_error fun _ => ?_
    refine bind_error fun _ h => ?_
    cases h

/-- An accepted vertex has lists of the lengths that were allocated. -/
theorem allocs_of_fromCanonical (h : DagTransaction.fromCanonical P bytes = .ok tx) :
    ∃ off off', allocRelayNodes P bytes = .ok (tx.relayNodes.length, off)
      ∧ allocRelayProofs P bytes = .ok (tx.relayProofs.length, off') := by
  obtain ⟨fr, nodes, off, proofs, last, hfront, hnodes, hroom, hk, -, rfl⟩ :=
    fromCanonical_eq_ok.1 h
  have hn : nodes.length = fr.nRelays := length_readRelayNodes _ _ hnodes
  have halloc : allocRelayNodes P bytes = .ok (nodes.length, fr.countOff + 4) :=
    allocRelayNodes_front.2 ⟨fr, hfront, hn, rfl⟩
  refine ⟨fr.countOff + 4, off + 4, halloc, ?_⟩
  rw [← hn] at hnodes
  rw [allocRelayProofs, halloc, ok_bind]
  simp only [hnodes, rejectIf_of_not hroom, hk, ok_bind]
  rfl

theorem readHash_isOk (h : off + 32 ≤ bytes.length) : ∃ x, readHash bytes off = .ok x := by
  rw [readHash, slice, if_pos h]
  exact ⟨_, rfl⟩

theorem readU64_isOk (h : off + 8 ≤ bytes.length) :
    ∃ x, readU64 (ε := DagError) bytes off = .ok x := by
  rw [readU64, slice, if_pos h]
  exact ⟨_, rfl⟩

theorem allocRelayNodes_eq_ok_iff : allocRelayNodes P bytes = .ok (n, off) ↔
    ∃ pre rest, Preamble P pre ∧ n < 2 ^ 32 ∧ bytes = pre ++ leBytes 4 n ++ rest
      ∧ off = pre.length + 4 := by
  constructor
  · intro h
    obtain ⟨fr, hfront, rfl, rfl⟩ := allocRelayNodes_front.1 h
    have hstands := readFront_eq_ok.1 hfront
    have hn := hstands.count
    obtain ⟨slack, he, hat, hoff⟩ := readKeyAndSig_eq_ok_iff.1 hstands.keyAndSig
    rw [hoff] at hn
    obtain ⟨header, rest, hbytes, hlen⟩ :=
      hat.append ((at_of_readU32 hn).at_eq (by rw [he.length]))
    refine ⟨header ++ keyAndSigBytes fr.publicKey fr.signature slack, rest,
      ⟨header, fr.publicKey, fr.signature, slack, hlen, he, rfl⟩, readU32_lt hn, ?_, ?_⟩
    · rw [hbytes]
      simp only [List.append_assoc]
    · rw [List.length_append, hlen, he.length, hoff]
  · rintro ⟨pre, rest, ⟨header, pk, sig, slack, hlen, he, rfl⟩, hn, hbytes, rfl⟩
    have hks : At bytes 152 (keyAndSigBytes pk sig slack) :=
      ⟨header, leBytes 4 n ++ rest, by rw [hbytes, List.append_assoc], hlen⟩
    have hcount : At bytes (152 + (3746 + slack.length)) (leBytes 4 n) :=
      ⟨header ++ keyAndSigBytes pk sig slack, rest, hbytes, by
        rw [List.length_append, hlen, he.length]⟩
    have hle := hcount.le
    rw [length_leBytes] at hle
    have h1 : ¬ bytes.length < 32 + 32 + 32 + 32 + 8 + 8 + 8 := by omega
    have h2 : ¬ bytes.length < 152 + (3746 + slack.length) + 4 := by omega
    obtain ⟨_, hp1⟩ : ∃ x, readHash bytes 0 = .ok x := readHash_isOk (by omega)
    obtain ⟨_, hp2⟩ : ∃ x, readHash bytes 32 = .ok x := readHash_isOk (by omega)
    obtain ⟨_, hs⟩ : ∃ x, readHash bytes 64 = .ok x := readHash_isOk (by omega)
    obtain ⟨_, hr⟩ : ∃ x, readHash bytes 96 = .ok x := readHash_isOk (by omega)
    obtain ⟨_, ha⟩ : ∃ x, readU64 (ε := DagError) bytes 128 = .ok x :=
      readU64_isOk (by omega)
    obtain ⟨_, hf⟩ : ∃ x, readU64 (ε := DagError) bytes 136 = .ok x :=
      readU64_isOk (by omega)
    obtain ⟨_, hno⟩ : ∃ x, readU64 (ε := DagError) bytes 144 = .ok x :=
      readU64_isOk (by omega)
    simp only [allocRelayNodes, rejectIf_of_not h1, hp1, hp2, hs, hr, ha, hf, hno, ok_bind,
      readKeyAndSig_of_at he hks, rejectIf_of_not h2, readU32_at hcount hn, List.length_append,
      hlen, he.length]
    rfl

theorem allocRelayProofs_eq_ok_iff : allocRelayProofs P bytes = .ok (k, off) ↔
    ∃ (pre : Bytes) (nodes : List Address) (rest : Bytes), Preamble P pre
      ∧ nodes.length < 2 ^ 32 ∧ k < 2 ^ 32
      ∧ bytes = pre ++ leBytes 4 nodes.length ++ nodes.flatMap hashBytes ++ leBytes 4 k ++ rest
      ∧ off = pre.length + 4 + 32 * nodes.length + 4 := by
  constructor
  · intro h
    obtain ⟨⟨n, o⟩, halloc, h⟩ := bind_eq_ok.1 h
    obtain ⟨⟨nodes, o'⟩, hnodes, h⟩ := bind_eq_ok.1 h
    obtain ⟨_, -, h⟩ := bind_eq_ok.1 h
    obtain ⟨k', hk, h⟩ := bind_eq_ok.1 h
    cases h
    obtain ⟨pre, rest, hpre, hn, hbytes, rfl⟩ := allocRelayNodes_eq_ok_iff.1 halloc
    obtain rfl : nodes.length = n := length_readRelayNodes n _ hnodes
    have hle : pre.length + 4 ≤ bytes.length := by
      rw [hbytes, List.length_append, List.length_append, length_leBytes]
      omega
    obtain ⟨hlist, rfl⟩ := at_of_readRelayNodes _ _ hle hnodes
    have hfront : At bytes 0 (pre ++ leBytes 4 nodes.length) := ⟨[], rest, by rw [hbytes]; rfl, rfl⟩
    have h1 := hfront.append (hlist.at_eq (by simp))
    have h2 := h1.append ((at_of_readU32 hk).at_eq (by
      simp only [List.length_append, length_leBytes, length_flatMap_hashBytes]
      omega))
    obtain ⟨rest', hrest⟩ := (at_iff_drop (Nat.zero_le _)).1 h2
    exact ⟨pre, nodes, rest', hpre, hn, readU32_lt hk, hrest, rfl⟩
  · rintro ⟨pre, nodes, rest, hpre, hn, hk, hbytes, rfl⟩
    have halloc : allocRelayNodes P bytes = .ok (nodes.length, pre.length + 4) :=
      allocRelayNodes_eq_ok_iff.2 ⟨pre, nodes.flatMap hashBytes ++ leBytes 4 k ++ rest, hpre, hn,
        by rw [hbytes]; simp only [List.append_assoc], rfl⟩
    have hlist : At bytes (pre.length + 4) (nodes.flatMap hashBytes) :=
      ⟨pre ++ leBytes 4 nodes.length, leBytes 4 k ++ rest,
        by rw [hbytes]; simp only [List.append_assoc], by simp⟩
    have hcount : At bytes (pre.length + 4 + 32 * nodes.length) (leBytes 4 k) :=
      ⟨pre ++ leBytes 4 nodes.length ++ nodes.flatMap hashBytes, rest, hbytes, by
        simp only [List.length_append, length_leBytes, length_flatMap_hashBytes]⟩
    have hle := hcount.le
    rw [length_leBytes] at hle
    have h1 : ¬ bytes.length < pre.length + 4 + 32 * nodes.length + 4 := by omega
    simp only [allocRelayProofs, halloc, ok_bind, readRelayNodes_at _ _ hlist, rejectIf_of_not h1,
      readU32_at hcount hk]
    rfl

theorem boundedAllocs_iff_not_cutShort (P : Primitives) (bytes : Bytes) :
    BoundedAllocs P bytes ↔ ¬ CutShort P bytes := by
  constructor
  · rintro ⟨hnodes, hproofs⟩ hcut
    cases hcut with
    | @nodes pre rest n hpre hn hshort =>
      have h := hnodes _ _ (allocRelayNodes_eq_ok_iff.2 ⟨pre, rest, hpre, hn, rfl, rfl⟩)
      simp only [List.length_append, length_leBytes] at h
      omega
    | @proofs pre rest nodes k hpre hn hk hshort =>
      have h := hproofs _ _
        (allocRelayProofs_eq_ok_iff.2 ⟨pre, nodes, rest, hpre, hn, hk, rfl, rfl⟩)
      simp only [List.length_append, length_leBytes, length_flatMap_hashBytes] at h
      omega
  · refine fun hcut => ⟨fun n off h => ?_, fun k off h => ?_⟩
    · obtain ⟨pre, rest, hpre, hn, rfl, rfl⟩ := allocRelayNodes_eq_ok_iff.1 h
      by_contra hlt
      simp only [List.length_append, length_leBytes] at hlt
      exact hcut (.nodes hpre hn (by omega))
    · obtain ⟨pre, nodes, rest, hpre, hn, hk, rfl, rfl⟩ := allocRelayProofs_eq_ok_iff.1 h
      by_contra hlt
      simp only [List.length_append, length_leBytes, length_flatMap_hashBytes] at hlt
      exact hcut (.proofs hpre hn hk (by omega))

/-- The allocations are bounded by the input exactly when no list of it is cut short. They are those
of the decoder: where it does not come to them it has failed, and an accepted vertex has lists of
the lengths allocated. -/
theorem bounded_allocs_iff (P : Primitives) (bytes : Bytes) :
    (BoundedAllocs P bytes ↔ ¬ CutShort P bytes)
      ∧ (∀ e, allocRelayNodes P bytes = .error e → DagTransaction.fromCanonical P bytes = .error e)
      ∧ (∀ e, allocRelayProofs P bytes = .error e → DagTransaction.fromCanonical P bytes = .error e)
      ∧ ∀ tx, DagTransaction.fromCanonical P bytes = .ok tx → ∃ off off',
        allocRelayNodes P bytes = .ok (tx.relayNodes.length, off)
          ∧ allocRelayProofs P bytes = .ok (tx.relayProofs.length, off') :=
  ⟨boundedAllocs_iff_not_cutShort P bytes, fun _ => fromCanonical_of_allocRelayNodes,
    fun _ => fromCanonical_of_allocRelayProofs, fun _ => allocs_of_fromCanonical⟩

end Counts

section Examples

open StandIn

theorem plainTransfer_accepted {bytes : Bytes} (hat : At bytes 0 plainTransfer.canonicalBytes) :
    DagTransaction.fromCanonical primitives bytes = .ok plainTransfer :=
  fromCanonical_of_nil_at (verify_signed _ _ _ _ _ _ _ _) id_plainTransfer (by decide) rfl hat

theorem canonicalBytes_eq_iff_plainTransfer : Tight plainTransfer.canonicalBytes :=
  (canonicalBytes_eq_iff (plainTransfer_accepted (At.refl _))).1 rfl

/-- A byte more behind a vertex gives it another wire form. -/
theorem trailing_byte_accepted :
    DagTransaction.fromCanonical primitives (plainTransfer.canonicalBytes ++ [0])
        = .ok plainTransfer
      ∧ plainTransfer.canonicalBytes ≠ plainTransfer.canonicalBytes ++ [0] :=
  ⟨plainTransfer_accepted ((At.refl _).append_right [0]), fun h =>
    absurd (List.self_eq_append_right.1 h) (List.cons_ne_nil 0 [])⟩

/-- A header, a key and a signature, and a count of `2 ^ 32 - 1` nodes, of which there is none. -/
def countOnly : Bytes :=
  plainTransfer.unsignedBytes ++ leBytes 4 2425 ++ plainTransfer.signature.toBytes
    ++ leBytes 4 (2 ^ 32 - 1)

theorem length_countOnly : countOnly.length = 3902 := by
  have hpk : plainTransfer.publicKey.toBytes.length = 1317 :=
    length_toBytes_key (List.length_replicate ..)
  have hsig : plainTransfer.signature.toBytes.length = 2425 :=
    length_toBytes_sig (List.length_replicate ..)
  simp only [countOnly, List.length_append, DagTransaction.length_unsignedBytes, length_leBytes,
    hpk, hsig]

theorem preamble_plainTransfer : Preamble primitives
    (plainTransfer.unsignedBytes ++ leBytes 4 2425 ++ plainTransfer.signature.toBytes) := by
  refine ⟨hashBytes plainTransfer.parent1 ++ hashBytes plainTransfer.parent2
    ++ hashBytes plainTransfer.sender ++ hashBytes plainTransfer.recipient
    ++ leBytes 8 plainTransfer.amount.toNat ++ leBytes 8 plainTransfer.fee.toNat
    ++ leBytes 8 plainTransfer.nonce.toNat, plainTransfer.publicKey, plainTransfer.signature, [],
    ?_, ⟨List.length_replicate .., rfl, List.length_replicate .., by decide⟩, ?_⟩
  · simp only [List.length_append, length_hashBytes, length_leBytes]
  · simp only [DagTransaction.unsignedBytes, keyAndSigBytes, List.append_assoc, List.append_nil,
      List.length_nil]

/-- 3902 bytes ask for room for `2 ^ 32 - 1` nodes. -/
theorem countOnly_unbounded : countOnly.length = 3902
    ∧ allocRelayNodes primitives countOnly = .ok (2 ^ 32 - 1, 3902)
    ∧ ¬ BoundedAllocs primitives countOnly := by
  have hlen := length_countOnly
  have halloc : allocRelayNodes primitives countOnly = .ok (2 ^ 32 - 1, 3902) := by
    refine allocRelayNodes_eq_ok_iff.2 ⟨_, [], preamble_plainTransfer, by decide, ?_, ?_⟩
    · rw [List.append_nil, countOnly]
    · rw [countOnly, List.length_append, length_leBytes] at hlen
      exact hlen.symm
  refine ⟨hlen, halloc, fun h => ?_⟩
  have := h.1 _ _ halloc
  omega

end Examples

end KronMesh
