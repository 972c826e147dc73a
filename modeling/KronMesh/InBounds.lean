import KronMesh.Words

/-!
# No decoder reads out of bounds

On every slice the decoders on words do what the models on numbers do, and neither panics: each read
lies behind a check that covers it, and with the slice below `2 ^ 63` bytes and the lengths in it
below `2 ^ 32` no sum and no product leaves a word.
-/

namespace KronMesh.Words

open Wire

variable {P : Primitives} {s : Slice} {off : ℕ}

/-! ## Keys and signatures -/

theorem blobLen_agree {n : ℕ} (hoff : off ≤ s.bytes.length) (hn : n < 2 ^ 32) :
    Agree (fun a b => a = b ∧ a = 5 + n ∧ off + a ≤ s.bytes.length) (blobLen s off n)
      (KronMesh.blobLen s.bytes off n) := by
  have hs := s.fits
  refine .add (by omega) (.check fun h5 => ?_)
  refine .index (by omega) fun tag => ?_
  refine .rejectIf Iff.rfl fun _ => .rejectIf Iff.rfl fun _ => ?_
  refine .add (by omega) (.add (by omega) ?_)
  refine .arrayU32 (by omega) fun word => .rejectIf Iff.rfl fun hword => ?_
  obtain rfl : leNat word = n := not_not.1 hword
  refine .add (by omega) (.add (by omega) (.check fun hall => ?_))
  rw [addWord, if_pos (by omega)]
  exact .ok ⟨rfl, rfl, by omega⟩

theorem decodeBlob_agree {n : ℕ} (hn : n < 2 ^ 32) :
    Agree Eq (decodeBlob s n) (KronMesh.decodeBlob s.bytes n) := by
  refine (blobLen_agree (Nat.zero_le _) hn).bind fun a b hab => ?_
  obtain ⟨rfl, rfl, hle⟩ := hab
  rw [← bind_pure (slice s.bytes 5 (5 + n - 5)), Nat.add_sub_cancel_left]
  exact .sub (by omega) fun t _ => .ok rfl

theorem publicKey_agree : Agree Eq (LatticePublicKey.fromBytes P s)
    (KronMesh.LatticePublicKey.fromBytes P s.bytes) := by
  refine (decodeBlob_agree (by decide)).bind fun raw _ hraw => hraw ▸ ?_
  exact .rejectIf Iff.rfl fun _ => .rejectIf Iff.rfl fun _ => .ok rfl

theorem signature_agree : Agree Eq (LatticeSignature.fromBytes s)
    (KronMesh.LatticeSignature.fromBytes s.bytes) :=
  (decodeBlob_agree (by decide)).bind fun _ _ hraw => hraw ▸ .ok rfl

/-! ## Vertices -/

theorem asSign_agree {β γ : Type} {R : β → γ → Prop} {x : Except (Fault CryptoError) β}
    {y : Except (Fault CryptoError) γ} (h : Agree R x y) : Agree R (asSign x) (asSign y) := by
  cases h with
  | ok h => exact .ok h
  | err e => exact .err (DagError.sign e)

theorem readHash_agree (h : off + 32 ≤ s.bytes.length) :
    Agree Eq (readHash s off) (KronMesh.readHash s.bytes off) :=
  .field h fun _ => .ok rfl

/-- What reads a part of `s` returns the same on either side, with an offset within `s`. -/
abbrev Within {β : Type} (s : Slice) (p q : β × ℕ) : Prop := p = q ∧ p.2 ≤ s.bytes.length

/-- A part of `s`, and then what reads on where it ends. -/
theorem Within.bind {ε : Type} {β γ γ' : Type} {R : γ → γ' → Prop} {x y : Except (Fault ε) (β × ℕ)}
    (h : Agree (Within s) x y) {f : β × ℕ → Except (Fault ε) γ} {g : β × ℕ → Except (Fault ε) γ'}
    (hf : ∀ b off, off ≤ s.bytes.length → Agree R (f (b, off)) (g (b, off))) :
    Agree R (x >>= f) (y >>= g) :=
  h.bind fun ⟨b, off⟩ _ hp => by
    obtain ⟨rfl, hoff⟩ := hp
    exact hf b off hoff

theorem readKeyAndSig_agree (hoff : off ≤ s.bytes.length) :
    Agree (fun p q => p = q ∧ p.2.2 ≤ s.bytes.length) (readKeyAndSig P s off)
      (KronMesh.readKeyAndSig P s.bytes off) := by
  have hs := s.fits
  refine (asSign_agree (blobLen_agree hoff (by decide))).bind fun n _ hn => ?_
  obtain ⟨rfl, rfl, hle⟩ := hn
  have hpk : pkLen = 1312 := rfl
  refine .add (by omega) (.add (by omega) (.check fun hslen => ?_))
  refine .span hle fun t _ => (asSign_agree publicKey_agree).bind fun pk _ hpk => hpk ▸ ?_
  refine .add (by omega) (.u32 hslen fun slen hslen => ?_)
  refine .add (by omega) (.add (by omega) (.check fun hsig => ?_))
  refine .span hsig fun t _ => (asSign_agree signature_agree).bind fun sig _ hsig' => hsig' ▸ ?_
  exact .add (by omega) (.ok ⟨rfl, hsig⟩)

theorem readRelayNodes_agree : ∀ n off, off ≤ s.bytes.length →
    Agree (Within s) (readRelayNodes s n off) (KronMesh.readRelayNodes s.bytes n off)
  | 0, _, hoff => .ok ⟨rfl, hoff⟩
  | n + 1, off, hoff => by
    have hs := s.fits
    refine .add (by omega) (.check fun h => ?_)
    refine (readHash_agree h).bind fun node _ hnode => hnode ▸ .add (by omega) ?_
    exact Within.bind (readRelayNodes_agree n _ h) fun nodes off hoff => .ok ⟨rfl, hoff⟩

theorem readRelayProofs_agree : ∀ n off, off ≤ s.bytes.length →
    Agree (Within s) (readRelayProofs P s n off) (KronMesh.readRelayProofs P s.bytes n off)
  | 0, _, hoff => .ok ⟨rfl, hoff⟩
  | n + 1, off, hoff => by
    have hs := s.fits
    refine .add (by omega) (.add (by omega) (.check fun h => ?_))
    refine (readHash_agree (by omega)).bind fun node _ hnode => hnode ▸ .add (by omega) ?_
    refine (readKeyAndSig_agree (by omega)).bind fun p _ hp => ?_
    obtain ⟨rfl, hp⟩ := hp
    exact Within.bind (readRelayProofs_agree n _ hp) fun proofs off hoff => .ok ⟨rfl, hoff⟩

theorem fromCanonical_agree : Agree Eq (DagTransaction.fromCanonical P s)
    (KronMesh.DagTransaction.fromCanonical P s.bytes) := by
  have hs := s.fits
  -- the seven fields in front are covered by one check
  refine .check fun h => ?_
  refine (readHash_agree (by omega)).bind fun parent1 _ h1 => h1 ▸ .add (by omega) ?_
  refine (readHash_agree (by omega)).bind fun parent2 _ h2 => h2 ▸ .add (by omega) ?_
  refine (readHash_agree (by omega)).bind fun sender _ h3 => h3 ▸ .add (by omega) ?_
  refine (readHash_agree (by omega)).bind fun recipient _ h4 => h4 ▸ .add (by omega) ?_
  refine .u64 (by omega) fun amount => .add (by omega) ?_
  refine .u64 (by omega) fun fee => .add (by omega) ?_
  refine .u64 (by omega) fun nonce => .add (by omega) ?_
  refine (readKeyAndSig_agree (by omega)).bind fun ⟨publicKey, signature, off⟩ _ hp => ?_
  obtain ⟨rfl, hoff : off ≤ s.bytes.length⟩ := hp
  refine .add (by omega) (.check fun hnodes => ?_)
  refine .u32 hnodes fun nRelays _ => .add (by omega) ?_
  refine Within.bind (readRelayNodes_agree nRelays _ hnodes) fun nodes off hoff => ?_
  refine .add (by omega) (.check fun hproofs => ?_)
  refine .u32 hproofs fun nProofs _ => .add (by omega) ?_
  exact Within.bind (readRelayProofs_agree nProofs _ hproofs) fun proofs _ _ => .ok rfl

/-! ## Mesh sync -/

theorem hashesAt_agree (base : ℕ) : ∀ n i, base + (i + n) * 32 ≤ s.bytes.length →
    Agree Eq (hashesAt s base n i) (KronMesh.readHashes s.bytes n (base + i * 32))
  | 0, _, _ => .ok rfl
  | n + 1, i, h => by
    have hs := s.fits
    -- the end of the range, by the index that comes next
    have hstop : base + (i + 1) * 32 = base + i * 32 + 32 := by omega
    refine .mul (by omega) (.add (by omega) (.add (by omega) ?_))
    refine .mul (by omega) (.add (by omega) ?_)
    rw [hstop]
    refine .array (by omega) fun b _ => ?_
    rw [← hstop]
    exact (hashesAt_agree base n (i + 1) (by omega)).bind fun rest _ hrest => hrest ▸ .ok rfl

theorem decodeHashList_agree : Agree Eq (decodeHashList s) (KronMesh.decodeHashList s.bytes) := by
  refine .check fun h => .u32 h fun n hn => .rejectIf Iff.rfl fun _ => ?_
  refine .mul (by omega) (.add (by omega) (.rejectIf Iff.rfl fun hlen => ?_))
  have hlen : s.bytes.length = 4 + n * 32 := not_not.1 hlen
  exact hashesAt_agree 4 n 0 (by omega)

theorem readHashes_agree : ∀ n off, off + n * 32 ≤ s.bytes.length →
    Agree (fun p ids => p = (ids, off + n * 32)) (readHashes s n off)
      (KronMesh.readHashes s.bytes n off)
  | 0, off, _ => .ok (by rw [Nat.zero_mul, Nat.add_zero])
  | n + 1, off, h => by
    have hs := s.fits
    have hn : off + (n + 1) * 32 = off + 32 + n * 32 := by omega
    refine .field (by omega) fun b => .add (by omega) ?_
    refine (readHashes_agree n _ (by omega)).bind fun p ids hp => ?_
    subst hp
    exact .ok (by rw [hn])

theorem readPeerId_agree {hasPeer : UInt8} (hoff : off ≤ s.bytes.length) :
    Agree Eq (readPeerId s hasPeer off) (KronMesh.readPeerId s.bytes hasPeer off) := by
  have hs := s.fits
  unfold readPeerId KronMesh.readPeerId
  split_ifs
  · exact .add (by omega) (.check fun h => .field h fun id => .add (by omega) (.ok rfl))
  · exact .ok rfl
  · exact .err _

theorem decodeSyncInventory_agree :
    Agree Eq (decodeSyncInventory s) (KronMesh.decodeSyncInventory s.bytes) := by
  have hs := s.fits
  refine .check fun h => .u32 h fun nt hnt => .rejectIf Iff.rfl fun _ => ?_
  refine .mul (by omega) (.add (by omega) (.add (by omega) (.check fun htips => ?_)))
  refine (readHashes_agree nt 4 (by omega)).bind fun p tips hp => ?_
  subst hp
  refine .u32 htips fun nr hnr => ?_
  have hmax : Word.u64Max = 18446744073709551615 := rfl
  -- the counts are words of four bytes, so the sum of both does not saturate
  have hsat : Word.saturatingAdd nt nr = nt + nr := Word.saturatingAdd_of_le (by omega)
  rw [hsat]
  refine .rejectIf Iff.rfl fun _ => .add (by omega) (.mul (by omega) (.add (by omega) ?_))
  refine .add (by omega) (.check fun hrecent => ?_)
  refine (readHashes_agree nr _ (by omega)).bind fun q recent hq => ?_
  subst hq
  refine .index (by omega) fun hasPeer => .add (by omega) ?_
  exact (readPeerId_agree (by omega)).bind fun peerId _ hpeer => hpeer ▸ .ok rfl

theorem decodeMeshHello_agree :
    Agree Eq (decodeMeshHello s) (KronMesh.decodeHello s.bytes) := by
  have hs := s.fits
  refine .check fun h => ?_
  have h2 : 0 + 2 ≤ s.bytes.length := by omega
  refine .array h2 fun word hword => ?_
  have hn := leNat_lt word
  rw [hword] at hn
  refine .add (by omega) (.add (by omega) (.check fun hrole => .add (by omega) ?_))
  refine .sub (by omega) fun protocol _ => .add (by omega) (.index (by omega) fun r => ?_)
  rcases hr : MeshRole.fromU8 r with _ | role
  · exact .err _
  · exact .ok rfl

theorem asBadFrame_agree {ε β γ : Type} {R : β → γ → Prop} {x : Except (Fault ε) β}
    {y : Except (Fault ε) γ} (h : Agree R x y) : Agree R (asBadFrame x) (asBadFrame y) := by
  cases h with
  | ok h => exact .ok h
  | err e => exact .err NetworkError.badFrame

theorem decodeWire_agree (kind : UInt8) :
    Agree Eq (decodeWire P kind s) (KronMesh.decodeWire P kind s.bytes) := by
  unfold decodeWire KronMesh.decodeWire
  split_ifs
  · exact decodeMeshHello_agree
  · exact .ok rfl
  · exact .ok rfl
  · exact decodeSyncInventory_agree.map fun _ _ => congrArg _
  · exact decodeHashList_agree.map fun _ _ => congrArg _
  · exact decodeHashList_agree.map fun _ _ => congrArg _
  · exact (asBadFrame_agree fromCanonical_agree).map fun _ _ => congrArg _
  · exact .ok rfl
  · exact .err _

/-! ## Gossip -/

open Handshake Gossip

theorem mapFault_agree {ε ε' β γ : Type} {R : β → γ → Prop} {x : Except (Fault ε) β}
    {y : Except (Fault ε) γ} {f : ε → ε'} (h : Agree R x y) :
    Agree R (mapFault f x) (mapFault f y) := by
  cases h with
  | ok h => exact .ok h
  | err e => exact .err (f e)

/-- A part of `s` that is returned as bytes on the one side and as a slice on the other. -/
abbrev Taken (s : Slice) (p : Slice × ℕ) (q : Bytes × ℕ) : Prop :=
  p.1.bytes = q.1 ∧ p.2 = q.2 ∧ p.2 ≤ s.bytes.length

theorem takeBytes_agree (hoff : off ≤ s.bytes.length) :
    Agree (Taken s) (takeBytes s off) (Handshake.takeBytes s.bytes off) := by
  have hs := s.fits
  refine .add (by omega) (.check fun h => .u32 h fun n hn => ?_)
  refine .add (by omega) (.add (by omega) (.check fun hn => ?_))
  exact .span hn fun t _ => .add (by omega) (.ok ⟨rfl, rfl, hn⟩)

theorem decodeMesh_agree : Agree Eq (decodeMesh P s) (Gossip.decodeMesh P s.bytes) := by
  refine .rejectIf Iff.rfl fun hne => ?_
  have hpos : 1 ≤ s.bytes.length := List.length_pos_iff.2 (mt List.isEmpty_iff.2 hne)
  refine .index hpos fun tag => .rejectIf Iff.rfl fun _ => ?_
  refine (mapFault_agree (takeBytes_agree hpos)).bind fun ⟨raw, _⟩ ⟨b, _⟩ hraw => ?_
  obtain ⟨rfl, -⟩ := hraw
  exact (mapFault_agree fromCanonical_agree).bind fun tx _ htx => htx ▸ .ok rfl

theorem inventory_agree : Agree Eq (GossipInventory.decode s)
    (Gossip.GossipInventory.decode s.bytes) := by
  refine .check fun h => .u16 h fun n => ?_
  have hn := n.toNat_lt
  refine .mul (by omega) (.add (by omega) (.rejectIf Iff.rfl fun hlen => ?_))
  have hlen : s.bytes.length = 2 + n.toNat * 32 := not_not.1 hlen
  exact (hashesAt_agree 2 n.toNat 0 (by omega)).bind fun ids _ hids => hids ▸ .ok rfl

theorem payload_agree : Agree Eq (GossipPayload.decode s)
    (Gossip.GossipPayload.decode s.bytes) := by
  refine .check fun h => ?_
  have h32 : 0 + 32 ≤ s.bytes.length := by omega
  refine .array h32 fun id _ => ?_
  refine (takeBytes_agree h).bind fun ⟨body, _⟩ ⟨b, _⟩ hbody => ?_
  obtain ⟨rfl, -⟩ := hbody
  exact .ok rfl

/-! ## The handshake -/

theorem okOr_agree {ε α β γ : Type} {R : β → γ → Prop} {x : Option α} {e : ε}
    {f : α → Except (Fault ε) β} {g : α → Except (Fault ε) γ}
    (hf : ∀ a, Agree R (f a) (g a)) : Agree R (okOr x e >>= f) (okOr x e >>= g) := by
  rcases x with _ | a
  · exact .err e
  · exact hf a

theorem readU64s_agree : Agree (Within s) (readU64s s) (KronMesh.readU64s s.bytes) := by
  refine .rejectIf Iff.rfl fun hne => ?_
  have hpos : 0 < s.bytes.length := List.length_pos_iff.2 (mt List.isEmpty_iff.2 hne)
  refine .index hpos fun n => ?_
  have hn := n.toNat_lt
  refine .mul (by omega) (.add (by omega) (.check fun h => ?_))
  rw [← bind_pure (eachWord s.u64 8 n.toNat 1)]
  refine (eachWord_agree (fun _ => Slice.u64_agree) n.toNat 1 h).bind fun p v hp => ?_
  subst hp
  exact .ok ⟨rfl, h⟩

theorem attestation_agree : Agree Eq (DeviceAttestation.fromBytes s)
    (KronMesh.DeviceAttestation.fromBytes s.bytes) := by
  have hs := s.fits
  -- the first check covers everything up to the length of the first list
  refine .check fun h => ?_
  refine .field (by omega) fun miner => .add (by omega) (.index (by omega) fun tag => ?_)
  refine okOr_agree fun deviceClass => .add (by omega) ?_
  refine .u16 (by omega) fun logicalCores => .add (by omega) ?_
  refine .u32 (by omega) fun advertisedMhz _ => .add (by omega) ?_
  -- both probe lists are read from what is left, and end within it
  refine .tail (by omega) fun rest hrest => Within.bind readU64s_agree fun lattice n1 h1 => ?_
  refine .add (by omega) (.tail (by omega) fun rest' hrest' => ?_)
  refine Within.bind readU64s_agree fun cache n2 h2 => ?_
  -- a check by a length byte covers its list, the fields behind it and the next length byte
  refine .add (by omega) (.add (by omega) (.check fun hskew => .index hskew fun nskew => ?_))
  have hn := nskew.toNat_lt
  refine .add (by omega) (.mul (by omega) (.add (by omega) (.add (by omega) ?_)))
  refine .add (by omega) (.check fun hskews => ?_)
  refine (eachWord_agree (fun _ => Slice.i32_agree) nskew.toNat _ (by omega)).bind
    fun p skews hp => ?_
  subst hp
  refine .field (by omega) fun ipv4 => .add (by omega) (.index hskews fun nrtt => ?_)
  have hn := nrtt.toNat_lt
  refine .add (by omega) (.mul (by omega) (.add (by omega) (.add (by omega) ?_)))
  refine .add (by omega) (.check fun hrtts => ?_)
  refine (eachWord_agree (fun _ => Slice.u16_agree) nrtt.toNat _ (by omega)).bind
    fun p rtts hp => ?_
  subst hp
  refine .u64 (by omega) fun duration => .add (by omega) ?_
  exact .field hrtts fun quote => .add (by omega) (.ok rfl)

theorem decodeHello_agree :
    Agree Eq (decodeHello P s) (Handshake.decodeHello P s.bytes) := by
  refine .check fun h => .index (by omega) fun role => okOr_agree fun role => ?_
  refine .index (by omega) fun deviceClass => okOr_agree fun deviceClass => ?_
  refine (takeBytes_agree h).bind fun ⟨pk, off⟩ ⟨b, _⟩ hpk => ?_
  obtain ⟨rfl, rfl, hoff : off ≤ s.bytes.length⟩ := hpk
  refine (takeBytes_agree hoff).bind fun ⟨att, off⟩ ⟨b, _⟩ hatt => ?_
  obtain ⟨rfl, rfl, hoff : off ≤ s.bytes.length⟩ := hatt
  have hs := s.fits
  refine .add (by omega) (.check fun hnonce => .field hnonce fun clientNonce => ?_)
  refine (mapFault_agree publicKey_agree).bind fun pk _ hpk => hpk ▸ ?_
  exact (mapFault_agree attestation_agree).bind fun p _ hp => hp ▸ .ok rfl

/-! ## The store -/

variable (P) in
theorem readChecksummed_agree (magic : Bytes) (hoff : off ≤ s.bytes.length) :
    Agree (fun p q => Taken s p q ∧ off < q.2) (readChecksummed P s magic off)
      (KronMesh.readChecksummed P s.bytes magic off) := by
  have hs := s.fits
  refine .add (by omega) (.add (by omega) (.add (by omega) (.add (by omega) ?_)))
  refine .check fun hshort => .span (by omega) fun m _ => .rejectIf Iff.rfl fun _ => ?_
  refine .add (by omega) (.index (by omega) fun v => .rejectIf Iff.rfl fun _ => ?_)
  refine .add (by omega) (.u32 (by omega) fun n hn => .add (by omega) ?_)
  refine .add (by omega) (.add (by omega) (.check fun htrunc => ?_))
  refine .span (by omega) fun body hbody => .add (by omega) ?_
  refine .field htrunc fun sum => .add (by omega) (.rejectIf Iff.rfl fun _ => ?_)
  exact .ok ⟨⟨rfl, rfl, htrunc⟩, by omega⟩

theorem takeU64_agree (hoff : off ≤ s.bytes.length) :
    Agree (Within s) (takeU64 s off) (KronMesh.takeU64 s.bytes off) := by
  have hs := s.fits
  exact .add (by omega) (.check fun h => .u64 h fun v => .add (by omega) (.ok ⟨rfl, h⟩))

theorem takeU32_agree (hoff : off ≤ s.bytes.length) :
    Agree (Within s) (takeU32 s off) (KronMesh.takeU32 s.bytes off) := by
  have hs := s.fits
  exact .add (by omega) (.check fun h => .u32 h fun v _ => .add (by omega) (.ok ⟨rfl, h⟩))

theorem takeHash_agree (hoff : off ≤ s.bytes.length) :
    Agree (Within s) (takeHash s off) (KronMesh.takeHash s.bytes off) := by
  have hs := s.fits
  exact .add (by omega) (.check fun h => .field h fun b => .add (by omega) (.ok ⟨rfl, h⟩))

theorem decodeAccountsLoop_agree : ∀ n off out, off ≤ s.bytes.length →
    Agree (Within s) (decodeAccountsLoop s n off out)
      (KronMesh.decodeAccountsLoop s.bytes n off out)
  | 0, _, _, hoff => .ok ⟨rfl, hoff⟩
  | n + 1, _, out, hoff =>
    Within.bind (takeHash_agree hoff) fun addr _ hoff =>
      Within.bind (takeU64_agree hoff) fun bal _ hoff =>
        decodeAccountsLoop_agree n _ (out.set addr bal) hoff

theorem decodeAccounts_agree (hoff : off ≤ s.bytes.length) :
    Agree (Within s) (decodeAccounts s off) (KronMesh.decodeAccounts s.bytes off) :=
  Within.bind (takeU32_agree hoff) fun n _ hoff => decodeAccountsLoop_agree n _ ∅ hoff

theorem decodeTips_agree : ∀ n off, off ≤ s.bytes.length →
    Agree Eq (decodeTips s n off) (KronMesh.decodeTips s.bytes n off)
  | 0, _, _ => .ok rfl
  | n + 1, _, hoff =>
    Within.bind (takeHash_agree hoff) fun _ _ hoff =>
      (decodeTips_agree n _ hoff).bind fun _ _ htips => htips ▸ .ok rfl

theorem decodeSnapshot_agree : Agree Eq (decodeSnapshot s) (KronMesh.decodeSnapshot s.bytes) := by
  refine Within.bind (takeU64_agree (Nat.zero_le _)) fun supply _ hoff => ?_
  refine Within.bind (takeU64_agree hoff) fun dagTxCount _ hoff => ?_
  refine Within.bind (takeU64_agree hoff) fun vertexCount _ hoff => ?_
  refine Within.bind (decodeAccounts_agree hoff) fun accounts _ hoff => ?_
  refine Within.bind (decodeAccounts_agree hoff) fun faucet _ hoff => ?_
  refine Within.bind (takeU32_agree hoff) fun n _ hoff => ?_
  exact (decodeTips_agree n _ hoff).bind fun tips _ htips => htips ▸ .ok rfl

theorem readSnapshot_agree : Agree Eq (readSnapshot P s) (KronMesh.readSnapshot P s.bytes) := by
  refine (readChecksummed_agree P snapMagic (Nat.zero_le _)).bind fun ⟨body, _⟩ ⟨b, _⟩ h => ?_
  obtain ⟨⟨rfl, -⟩, -⟩ := h
  exact decodeSnapshot_agree

/-- Each record that is read moves the offset on, so the turns do not run out. -/
theorem readWalLoop_agree : ∀ fuel off, off ≤ s.bytes.length → s.bytes.length - off < fuel →
    Agree Eq (readWalLoop P s fuel off) (KronMesh.readWalLoop P s.bytes fuel off)
  | 0, _, _, hfuel => absurd hfuel (Nat.not_lt_zero _)
  | fuel + 1, off, hoff, hfuel => by
    unfold readWalLoop KronMesh.readWalLoop
    by_cases hlt : off < s.bytes.length
    · rw [if_pos hlt, if_pos hlt]
      have hread := readChecksummed_agree P walMagic hoff
      generalize readChecksummed P s walMagic off = x,
        KronMesh.readChecksummed P s.bytes walMagic off = y at hread
      rcases hread with @⟨⟨body, off'⟩, ⟨b, _⟩, h⟩ | e
      · obtain ⟨⟨rfl, rfl, hle⟩, hmoved : off < off'⟩ := h
        have htx := fromCanonical_agree (P := P) (s := body)
        simp only [htx.eq]
        rcases htx' : KronMesh.DagTransaction.fromCanonical P body.bytes with (e | _) | tx
        · exact .ok rfl
        · exact absurd htx' (fromCanonical_ne_panic body.bytes)
        · have hle : off' ≤ s.bytes.length := hle
          exact (readWalLoop_agree fuel off' hle (by omega)).map fun _ _ => congrArg _
      · exact .ok rfl
    · rw [if_neg hlt, if_neg hlt]
      exact .ok rfl

theorem readWal_agree : ∀ file : Option Slice,
    Agree Eq (readWal P file) (KronMesh.readWal P (file.map Slice.bytes))
  | none => .ok rfl
  | some _ => readWalLoop_agree _ 0 (Nat.zero_le _) (Nat.lt_succ_self _)

/-! ## Every decoder -/

/-- No range, index or copy leaves its slice, and no sum or product leaves a word. A record is read
where its file goes on, as both readers of files do. -/
theorem decoders_ne_panic (P : Primitives) (bytes : Slice) :
    DagTransaction.fromCanonical P bytes ≠ .error .panic
      ∧ (∀ kind, decodeWire P kind bytes ≠ .error .panic)
      ∧ decodeMesh P bytes ≠ .error .panic
      ∧ GossipInventory.decode bytes ≠ .error .panic
      ∧ GossipPayload.decode bytes ≠ .error .panic
      ∧ decodeHello P bytes ≠ .error .panic
      ∧ DeviceAttestation.fromBytes bytes ≠ .error .panic
      ∧ (∀ magic off, off ≤ bytes.len → readChecksummed P bytes magic off ≠ .error .panic)
      ∧ decodeSnapshot bytes ≠ .error .panic
      ∧ readSnapshot P bytes ≠ .error .panic
      ∧ readWal P (some bytes) ≠ .error .panic := by
  refine ⟨fromCanonical_agree.ne_panic, fun kind => (decodeWire_agree kind).ne_panic,
    decodeMesh_agree.ne_panic, inventory_agree.ne_panic, payload_agree.ne_panic,
    decodeHello_agree.ne_panic, attestation_agree.ne_panic, ?_, decodeSnapshot_agree.ne_panic,
    readSnapshot_agree.ne_panic, (readWal_agree _).ne_panic⟩
  exact fun magic off hoff => (readChecksummed_agree P magic hoff).ne_panic

/-- The head of a snapshot whose length field is the largest there is. -/
def longestRecord : Slice :=
  ⟨snapMagic ++ [version] ++ [255, 255, 255, 255] ++ List.replicate 32 0, by decide⟩

theorem decoders_ne_panic_longestRecord :
    readChecksummed StandIn.primitives longestRecord snapMagic 0 ≠ .error .panic
      ∧ readChecksummed StandIn.primitives longestRecord snapMagic 0
        = .error (.err (.corrupt "truncated body")) := by
  obtain ⟨-, -, -, -, -, -, -, hread, -⟩ := decoders_ne_panic StandIn.primitives longestRecord
  exact ⟨hread snapMagic 0 (Nat.zero_le _), rfl⟩

end KronMesh.Words
