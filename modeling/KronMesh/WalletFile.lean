import KronMesh.HttpPath
import KronMesh.Lib.Decimal
import KronMesh.Lib.Files
import KronMesh.StandIn

/-!
# The wallet file

A wallet is loaded from its file, and what is found there may be replaced: a file without a recovery
phrase is archived first, a file whose keys are not those of its phrase is written over. So the
entropy of a file is never lost, and a key is exactly when the file is loaded under an entropy that
gives another key, and no archive holds it (`loads_keeps_iff`).
-/

namespace KronMesh

open Word Wire Files

structure WalletFile where
  version : UInt32
  entropyHex : Option String
  publicHex : String
  secretHex : String
  nonce : UInt64
  mnemonicBackedUp : Bool
  deriving DecidableEq

inductive WalletIoError
  | io
  | json
  | hex
  | crypto (e : CryptoError)
  | unsupportedVersion (version : UInt32)
  | missingEntropy
  | keyMismatch
  deriving DecidableEq

structure LoadedWallet where
  keypair : LatticeKeyPair
  nonce : UInt64
  entropy : Hash
  created : Bool
  needsOnboarding : Bool
  archivedLegacy : Bool

/-- What the code calls of the `serde_json` and `hex` crates. -/
structure WalletCodec where
  fromStr : String → Option WalletFile
  toStringPretty : WalletFile → String
  hexDecode : String → Option Bytes
  hexEncode : Bytes → String

/-- `wallet.json`, and what `with_extension` makes of it. -/
inductive WalletPath
  | json
  | tmp
  | bak
  | bakAt (stamp : ℕ)
  deriving DecidableEq

abbrev WalletDir := Files WalletPath Bytes

def walletVersion : UInt32 := 2

variable (C : WalletCodec) (P : Primitives)

/-! ## Reading a file -/

/-- `fs::read_to_string`, then `serde_json::from_str`. -/
def readWalletFile (dir : WalletDir) (path : WalletPath) : Except WalletIoError WalletFile :=
  match (dir path).bind strFromUtf8 with
  | none => .error .io
  | some raw =>
    match C.fromStr raw with
    | none => .error .json
    | some file => .ok file

/-- The part of `load_v2_at` that reads the entropy. -/
def WalletFile.entropy (file : WalletFile) : Except WalletIoError Hash :=
  let entropyHex := trimText (file.entropyHex.getD "")
  if entropyHex = "" then .error .missingEntropy
  else
    match C.hexDecode entropyHex with
    | none => .error .hex
    | some bytes => if bytes.length ≠ 32 then .error .missingEntropy else .ok (hashOfBytes bytes)

/-- The `stored_ok` of `load_v2_at`. -/
def WalletFile.storedOk (file : WalletFile) (derived : LatticeKeyPair) : Bool :=
  match C.hexDecode (trimText file.publicHex), C.hexDecode (trimText file.secretHex) with
  | some pk, some sk =>
    match LatticePublicKey.fromBytes P pk, LatticeSecretKey.fromBytes P sk with
    | .ok pub, .ok secret => pub = derived.pub && secret = derived.secret
    | _, _ => false
  | _, _ => false

def looksLikeLegacy (dir : WalletDir) : Bool :=
  match readWalletFile C dir .json with
  | .error _ => false
  | .ok file => file.version = 1 || file.entropyHex.getD "" = ""

/-! ## Writing it -/

/-- The file that `save_at` writes. -/
def WalletFile.ofKeys (keypair : LatticeKeyPair) (nonce : UInt64) (entropy : Hash)
    (mnemonicBackedUp : Bool) : WalletFile where
  version := walletVersion
  entropyHex := some (C.hexEncode (hashBytes entropy))
  publicHex := C.hexEncode keypair.pub.toBytes
  secretHex := C.hexEncode keypair.secret.toBytes
  nonce := nonce
  mnemonicBackedUp := mnemonicBackedUp

def saveAt (dir : WalletDir) (keypair : LatticeKeyPair) (nonce : UInt64) (entropy : Hash)
    (mnemonicBackedUp : Bool) : WalletDir :=
  let json := C.toStringPretty (.ofKeys C keypair nonce entropy mnemonicBackedUp)
  (dir.write .tmp (asBytes json)).rename .tmp .json

/-- `now` is the clock in seconds. -/
def archiveLegacy (dir : WalletDir) (now : ℕ) : WalletDir :=
  (dir.copy .json (if (dir .bak).isSome then .bakAt now else .bak)).remove .json

/-- `generated` is the entropy of `RecoveryPhrase::generate`. -/
def createNewAt (dir : WalletDir) (generated : Hash) (archivedLegacy : Bool) :
    WalletDir × Except WalletIoError LoadedWallet :=
  let keypair := LatticeKeyPair.fromSeed P generated
  (saveAt C dir keypair 0 generated false,
    .ok
      { keypair := keypair
        nonce := 0
        entropy := generated
        created := true
        needsOnboarding := true
        archivedLegacy := archivedLegacy })

def loadV2At (dir : WalletDir) :
    WalletDir × Except WalletIoError (LatticeKeyPair × UInt64 × Hash × Bool) :=
  match readWalletFile C dir .json with
  | .error e => (dir, .error e)
  | .ok file =>
    if file.version = 1 then (dir, .error (.unsupportedVersion 1))
    else if file.version ≠ walletVersion then (dir, .error (.unsupportedVersion file.version))
    else
      match file.entropy C with
      | .error e => (dir, .error e)
      | .ok entropy =>
        let derived := LatticeKeyPair.fromSeed P entropy
        -- in place, whatever key it held: nothing is archived here
        let dir :=
          if file.storedOk C P derived then dir
          else saveAt C dir derived file.nonce entropy file.mnemonicBackedUp
        (dir, .ok (derived, file.nonce, entropy, file.mnemonicBackedUp))

def loadOrCreateAt (dir : WalletDir) (now : ℕ) (generated : Hash) :
    WalletDir × Except WalletIoError LoadedWallet :=
  if (dir .json).isSome then
    match loadV2At C P dir with
    | (dir, .ok (keypair, nonce, entropy, backedUp)) =>
      (dir,
        .ok
          { keypair := keypair
            nonce := nonce
            entropy := entropy
            created := false
            needsOnboarding := !backedUp
            archivedLegacy := false })
    | (dir, .error .missingEntropy) => createNewAt C P (archiveLegacy dir now) generated true
    | (dir, .error (.unsupportedVersion 1)) =>
      createNewAt C P (archiveLegacy dir now) generated true
    | (dir, .error e) =>
      if looksLikeLegacy C dir then createNewAt C P (archiveLegacy dir now) generated true
      else (dir, .error e)
  else createNewAt C P dir generated false

/-- Calls of `load_or_create_at`, each with the clock and the entropy it would generate. -/
def loads (dir : WalletDir) (calls : List (ℕ × Hash)) : WalletDir :=
  calls.foldl (fun dir call => (loadOrCreateAt C P dir call.1 call.2).1) dir

/-! ## What is stored -/

/-- The key of `secret_hex`, if `LatticeSecretKey::from_bytes` accepts it. -/
def WalletFile.secret (file : WalletFile) : Option LatticeSecretKey :=
  (C.hexDecode (trimText file.secretHex)).bind fun bytes =>
    (LatticeSecretKey.fromBytes P bytes).toOption

def fileIn (raw : Bytes) : Option WalletFile := (strFromUtf8 raw).bind C.fromStr

def secretIn (raw : Bytes) : Option LatticeSecretKey := (fileIn C raw).bind (·.secret C P)

def entropyIn (raw : Bytes) : Option Hash :=
  (fileIn C raw).bind fun file => (file.entropy C).toOption

/-- One of the `.bak` files. -/
def WalletPath.IsBak : WalletPath → Prop
  | .bak | .bakAt _ => True
  | .json | .tmp => False

def WalletPath.Kept (path : WalletPath) : Prop := path = .json ∨ path.IsBak

/-- The file is loaded, under this entropy. -/
structure LoadsAs (dir : WalletDir) (file : WalletFile) (entropy : Hash) : Prop where
  read : readWalletFile C dir .json = .ok file
  version : file.version = walletVersion
  entropy : file.entropy C = .ok entropy

variable {C P} {dir : WalletDir} {file : WalletFile} {entropy generated : Hash} {now : ℕ}
  {raw : Bytes}

theorem toOption_eq_some {ε α : Type*} {x : Except ε α} {a : α} :
    x.toOption = some a ↔ x = .ok a := by
  cases x <;> simp [Except.toOption]

theorem readWalletFile_eq_ok {path : WalletPath} : readWalletFile C dir path = .ok file
    ↔ ∃ raw, dir path = some raw ∧ fileIn C raw = some file := by
  unfold readWalletFile fileIn
  rcases dir path with _ | raw
  · simp
  rcases hs : strFromUtf8 raw with _ | s
  · simp [hs]
  rcases hf : C.fromStr s with _ | file' <;> simp [hs, hf]

/-! ## A file that is written -/

/-- The texts of the file are digits of base sixteen. -/
structure WalletFile.InHex (file : WalletFile) : Prop where
  entropy : ∀ s ∈ file.entropyHex, ∀ c ∈ s.toList, c ∈ hexDigits
  pub : ∀ c ∈ file.publicHex.toList, c ∈ hexDigits
  secret : ∀ c ∈ file.secretHex.toList, c ∈ hexDigits

/-- What the code relies on of the two crates: they read back what they write, and a byte is written
in two digits. -/
structure WalletCodec.Reads (C : WalletCodec) : Prop where
  fromStr : ∀ file : WalletFile, file.InHex → C.fromStr (C.toStringPretty file) = some file
  hexDecode : ∀ bytes, C.hexDecode (C.hexEncode bytes) = some bytes
  digits : ∀ bytes, ∀ c ∈ (C.hexEncode bytes).toList, c ∈ hexDigits
  length : ∀ bytes, (C.hexEncode bytes).length = 2 * bytes.length

section Written

variable {keypair : LatticeKeyPair} {nonce : UInt64} {backedUp : Bool}

theorem trimText_hexEncode (hC : C.Reads) (bytes : Bytes) :
    trimText (C.hexEncode bytes) = C.hexEncode bytes := by
  have hblank : hexDigits.Forall fun c => isWhitespace c = false := by decide
  rw [List.forall_iff_forall_mem] at hblank
  exact trimText_of_none fun c hc => hblank c (hC.digits bytes c hc)

theorem hexEncode_ne (hC : C.Reads) {bytes : Bytes} (h : bytes ≠ []) : C.hexEncode bytes ≠ "" := by
  intro he
  have hlen := hC.length bytes
  have hpos := List.length_pos_iff.2 h
  rw [he, String.length_empty] at hlen
  omega

theorem entropy_ofKeys (hC : C.Reads) :
    (WalletFile.ofKeys C keypair nonce entropy backedUp).entropy C = .ok entropy := by
  have hne : hashBytes entropy ≠ [] := by
    intro h
    have hlen := length_hashBytes entropy
    rw [h] at hlen
    cases hlen
  unfold WalletFile.entropy WalletFile.ofKeys
  simp only [Option.getD_some, trimText_hexEncode hC, hexEncode_ne hC hne, hC.hexDecode,
    length_hashBytes, ne_eq, not_true, if_false, hashOfBytes_hashBytes]

theorem secret_ofKeys (hC : C.Reads) :
    (WalletFile.ofKeys C keypair nonce entropy backedUp).secret C P
      = (LatticeSecretKey.fromBytes P keypair.secret.toBytes).toOption := by
  unfold WalletFile.secret WalletFile.ofKeys
  simp only [trimText_hexEncode hC, hC.hexDecode, Option.bind_some]

theorem entropyIn_of_fileIn {raw : Bytes} (h : fileIn C raw = some file) :
    entropyIn C raw = (file.entropy C).toOption := by
  rw [entropyIn, h, Option.bind_some]

theorem secretIn_of_fileIn {raw : Bytes} (h : fileIn C raw = some file) :
    secretIn C P raw = file.secret C P := by
  rw [secretIn, h, Option.bind_some]

theorem inHex_ofKeys (hC : C.Reads) :
    (WalletFile.ofKeys C keypair nonce entropy backedUp).InHex where
  entropy := by
    rintro s hs
    cases hs
    exact hC.digits _
  pub := hC.digits _
  secret := hC.digits _

theorem fileIn_of_inHex (hC : C.Reads) (h : file.InHex) :
    fileIn C (asBytes (C.toStringPretty file)) = some file := by
  rw [fileIn, strFromUtf8_asBytes]
  exact hC.fromStr _ h

theorem fileIn_ofKeys (hC : C.Reads) :
    fileIn C (asBytes (C.toStringPretty (.ofKeys C keypair nonce entropy backedUp)))
      = some (.ofKeys C keypair nonce entropy backedUp) :=
  fileIn_of_inHex hC (inHex_ofKeys hC)

theorem saveAt_eq : saveAt C dir keypair nonce entropy backedUp
    = (dir.remove .tmp).write .json
        (asBytes (C.toStringPretty (.ofKeys C keypair nonce entropy backedUp))) := by
  unfold saveAt
  exact rename_write

theorem saveAt_saveAt {keypair' : LatticeKeyPair} {nonce' : UInt64} {entropy' : Hash}
    {backedUp' : Bool} :
    saveAt C (saveAt C dir keypair' nonce' entropy' backedUp') keypair nonce entropy backedUp
      = saveAt C dir keypair nonce entropy backedUp := by
  have hne : WalletPath.tmp ≠ .json := by decide
  unfold saveAt
  exact rename_write_idem hne _

theorem loadsAs_saveAt (hC : C.Reads) : LoadsAs C (saveAt C dir keypair nonce entropy backedUp)
    (.ofKeys C keypair nonce entropy backedUp) entropy where
  read := by
    refine readWalletFile_eq_ok.2 ⟨_, ?_, fileIn_ofKeys hC⟩
    rw [saveAt_eq, write_self]
  version := rfl
  entropy := entropy_ofKeys hC

/-- What is held after a file was written is in what was written, or in an archive. -/
theorem holds_saveAt {α : Type*} {read : Bytes → Option α} {a : α} :
    (saveAt C dir keypair nonce entropy backedUp).Holds WalletPath.Kept read a
      ↔ read (asBytes (C.toStringPretty (.ofKeys C keypair nonce entropy backedUp))) = some a
        ∨ dir.Holds WalletPath.IsBak read a := by
  have hbak : ∀ p : WalletPath, (p.Kept ∧ p ≠ .json) ∧ p ≠ .tmp ↔ p.IsBak := by
    intro p
    cases p <;> simp [WalletPath.Kept, WalletPath.IsBak]
  rw [saveAt_eq, holds_write, holds_remove]
  simp only [hbak]
  simp [WalletPath.Kept]

end Written

/-! ## What a call does to the file -/

theorem loadV2At_of_loadsAs (h : LoadsAs C dir file entropy) :
    loadV2At C P dir
      = (if file.storedOk C P (LatticeKeyPair.fromSeed P entropy) then dir
          else saveAt C dir (LatticeKeyPair.fromSeed P entropy) file.nonce entropy
            file.mnemonicBackedUp,
        .ok (LatticeKeyPair.fromSeed P entropy, file.nonce, entropy, file.mnemonicBackedUp)) := by
  have h1 : walletVersion ≠ 1 := by decide
  unfold loadV2At
  simp only [h.read, h1, h.version, h.entropy, if_false, ne_eq, not_true]

theorem loadV2At_of_not (h : ∀ file entropy, ¬ LoadsAs C dir file entropy) :
    ∃ e, loadV2At C P dir = (dir, .error e) := by
  unfold loadV2At
  rcases hread : readWalletFile C dir .json with e | file
  · exact ⟨e, rfl⟩
  simp only []
  split_ifs with h1 h2
  · exact ⟨_, rfl⟩
  · exact ⟨_, rfl⟩
  rcases hentropy : file.entropy C with e | entropy
  · exact ⟨e, rfl⟩
  · exact absurd ⟨hread, not_not.1 h2, hentropy⟩ (h file entropy)

theorem loadOrCreateAt_of_none (h : dir .json = none) :
    (loadOrCreateAt C P dir now generated).1
      = saveAt C dir (LatticeKeyPair.fromSeed P generated) 0 generated false := by
  unfold loadOrCreateAt
  rw [h]
  rfl

theorem LoadsAs.isSome (h : LoadsAs C dir file entropy) : (dir .json).isSome := by
  obtain ⟨raw, hraw, -⟩ := readWalletFile_eq_ok.1 h.read
  rw [hraw]
  rfl

/-- A file that is loaded stays, or is written over with the keys of its entropy. -/
theorem loadOrCreateAt_of_loadsAs (h : LoadsAs C dir file entropy) :
    (loadOrCreateAt C P dir now generated).1
      = if file.storedOk C P (LatticeKeyPair.fromSeed P entropy) then dir
        else saveAt C dir (LatticeKeyPair.fromSeed P entropy) file.nonce entropy
          file.mnemonicBackedUp := by
  unfold loadOrCreateAt
  rw [if_pos h.isSome, loadV2At_of_loadsAs h]

/-- A file that is not loaded stays, whenever it is called, or is archived and replaced. -/
theorem loadOrCreateAt_of_not (hsome : (dir .json).isSome)
    (h : ∀ file entropy, ¬ LoadsAs C dir file entropy) :
    (∀ now generated, (loadOrCreateAt C P dir now generated).1 = dir)
      ∨ ∀ now generated, (loadOrCreateAt C P dir now generated).1
        = saveAt C (archiveLegacy dir now) (LatticeKeyPair.fromSeed P generated) 0 generated
          false := by
  obtain ⟨e, he⟩ := loadV2At_of_not (P := P) h
  unfold loadOrCreateAt
  simp only [if_pos hsome, he]
  split
  case h_1 heq => cases heq
  case h_2 heq =>
    cases heq
    exact .inr fun _ _ => rfl
  case h_3 heq =>
    cases heq
    exact .inr fun _ _ => rfl
  case h_4 heq =>
    cases heq
    rcases hl : looksLikeLegacy C dir
    · exact .inl fun _ _ => rfl
    · exact .inr fun _ _ => rfl

/-! ## Runs -/

variable (C P) in
/-- No call changes anything. -/
def Settled (dir : WalletDir) : Prop :=
  ∀ now generated, (loadOrCreateAt C P dir now generated).1 = dir

theorem settled_saveAt (hC : C.Reads) (nonce : UInt64) (backedUp : Bool) :
    Settled C P
      (saveAt C dir (LatticeKeyPair.fromSeed P entropy) nonce entropy backedUp) := by
  intro now generated
  rw [loadOrCreateAt_of_loadsAs (loadsAs_saveAt hC)]
  split_ifs
  · rfl
  · exact saveAt_saveAt

/-- Whatever the file is, one call settles it. -/
theorem settled_loadOrCreateAt (hC : C.Reads) :
    Settled C P (loadOrCreateAt C P dir now generated).1 := by
  rcases hjson : dir .json with _ | raw
  · rw [loadOrCreateAt_of_none hjson]
    exact settled_saveAt hC 0 false
  by_cases h : ∃ file entropy, LoadsAs C dir file entropy
  · obtain ⟨file, entropy, h⟩ := h
    by_cases hok : file.storedOk C P (LatticeKeyPair.fromSeed P entropy) = true
    · have hsame : Settled C P dir := fun _ _ => by
        rw [loadOrCreateAt_of_loadsAs h, if_pos hok]
      rw [hsame]
      exact hsame
    · rw [loadOrCreateAt_of_loadsAs h, if_neg hok]
      exact settled_saveAt hC _ _
  · have hsome : (dir .json).isSome := by
      rw [hjson]
      rfl
    rcases loadOrCreateAt_of_not (P := P) hsome fun file entropy hl => h ⟨file, entropy, hl⟩
      with hsame | hnew
    · rw [hsame]
      exact hsame
    · rw [hnew]
      exact settled_saveAt hC 0 false

theorem loads_of_settled (h : Settled C P dir) :
    ∀ calls : List (ℕ × Hash), loads C P dir calls = dir
  | [] => rfl
  | call :: calls => by
    rw [loads, List.foldl_cons, h]
    exact loads_of_settled h calls

theorem loads_cons (hC : C.Reads) (call : ℕ × Hash) (calls : List (ℕ × Hash)) :
    loads C P dir (call :: calls) = (loadOrCreateAt C P dir call.1 call.2).1 :=
  loads_of_settled (settled_loadOrCreateAt hC) calls

/-! ## What a call keeps -/

section Kept

variable {α : Type*} {read : Bytes → Option α} {a : α}

theorem holds_json : dir.Holds (· = .json) read a
    ↔ ∃ raw, dir .json = some raw ∧ read raw = some a := by
  simp [Holds]

/-- An archive holds what the file held. -/
theorem holds_archiveLegacy (h : dir.Holds (· = .json) read a) :
    (archiveLegacy dir now).Holds WalletPath.IsBak read a := by
  obtain ⟨raw, hraw, ha⟩ := holds_json.1 h
  have hbak : ∀ b : Bool, (if b then WalletPath.bakAt now else .bak).IsBak
      ∧ (if b then WalletPath.bakAt now else .bak) ≠ .json := by
    intro b
    cases b <;> exact ⟨trivial, by simp⟩
  obtain ⟨hbak, hne⟩ := hbak (dir .bak).isSome
  unfold archiveLegacy
  rw [copy_of_some hraw]
  exact ⟨_, hbak, raw, (remove_of_ne hne).trans write_self, ha⟩

/-- A file that is not loaded loses nothing. -/
theorem holds_of_not_loadsAs (h : ∀ file entropy, ¬ LoadsAs C dir file entropy)
    (hstored : dir.Holds (· = .json) read a) :
    (loadOrCreateAt C P dir now generated).1.Holds WalletPath.Kept read a := by
  obtain ⟨raw, hraw, -⟩ := holds_json.1 hstored
  have hsome : (dir .json).isSome := by
    rw [hraw]
    rfl
  rcases loadOrCreateAt_of_not (P := P) hsome h with hsame | hnew
  · rw [hsame]
    exact hstored.mono fun _ => .inl
  · rw [hnew, holds_saveAt]
    exact .inr (holds_archiveLegacy hstored)

end Kept

/-- The entropy of a file is kept. -/
theorem holds_entropy (hC : C.Reads) (hstored : dir.Holds (· = .json) (entropyIn C) entropy) :
    (loadOrCreateAt C P dir now generated).1.Holds WalletPath.Kept (entropyIn C) entropy := by
  by_cases h : ∃ file entropy, LoadsAs C dir file entropy
  · obtain ⟨file, entropy', h⟩ := h
    rw [loadOrCreateAt_of_loadsAs h]
    split_ifs
    · exact hstored.mono fun _ => .inl
    · obtain ⟨raw, hraw, hentropy⟩ := holds_json.1 hstored
      obtain ⟨raw', hraw', hfile⟩ := readWalletFile_eq_ok.1 h.read
      obtain rfl : raw = raw' := Option.some.inj (hraw.symm.trans hraw')
      rw [entropyIn_of_fileIn hfile, h.entropy] at hentropy
      cases hentropy
      rw [holds_saveAt, entropyIn_of_fileIn (fileIn_ofKeys hC), entropy_ofKeys hC]
      exact .inl rfl
  · exact holds_of_not_loadsAs (fun file entropy hl => h ⟨file, entropy, hl⟩) hstored

variable (C P) in
/-- The file is loaded under an entropy that gives another key. -/
def Displaces (dir : WalletDir) (sk : LatticeSecretKey) : Prop :=
  ∃ file entropy, LoadsAs C dir file entropy ∧ (LatticeKeyPair.fromSeed P entropy).secret ≠ sk

section Secret

variable {sk : LatticeSecretKey}

theorem displaces_iff (h : LoadsAs C dir file entropy) :
    Displaces C P dir sk ↔ (LatticeKeyPair.fromSeed P entropy).secret ≠ sk := by
  constructor
  · rintro ⟨file', entropy', h', hne⟩
    obtain rfl : file = file' := Except.ok.inj (h.read.symm.trans h'.read)
    obtain rfl : entropy = entropy' := Except.ok.inj (h.entropy.symm.trans h'.entropy)
    exact hne
  · exact fun hne => ⟨file, entropy, h, hne⟩

/-- A file whose keys are taken for those of its entropy holds no other key. -/
theorem secret_of_storedOk {derived : LatticeKeyPair} (hok : file.storedOk C P derived = true)
    (h : file.secret C P = some sk) : derived.secret = sk := by
  obtain ⟨bytes, hbytes, hsk⟩ := Option.bind_eq_some_iff.1 h
  unfold WalletFile.storedOk at hok
  rw [hbytes] at hok
  rcases hpk : C.hexDecode (trimText file.publicHex) with _ | pk <;> rw [hpk] at hok
  · cases hok
  simp only [] at hok
  rcases hpub : LatticePublicKey.fromBytes P pk with _ | pub <;> rw [hpub] at hok
  · cases hok
  rcases hread : LatticeSecretKey.fromBytes P bytes with _ | secret
  · rw [hread] at hsk
    cases hsk
  rw [hread] at hok hsk
  cases hsk
  simp only [Bool.and_eq_true, decide_eq_true_eq] at hok
  exact hok.2.symm

/-- What is read of a file that was written is the key it was written with, if that is accepted. -/
theorem secretIn_ofKeys (hC : C.Reads) {keypair : LatticeKeyPair} {nonce : UInt64} {backedUp : Bool}
    (hlen : keypair.secret.raw.length = skLen) :
    secretIn C P (asBytes (C.toStringPretty (.ofKeys C keypair nonce entropy backedUp))) = some sk
      ↔ keypair.secret = sk ∧ P.secretKeyOk sk.raw = true := by
  rw [secretIn_of_fileIn (fileIn_ofKeys hC), secret_ofKeys hC, toOption_eq_some]
  constructor
  · intro h
    exact ⟨(LatticeSecretKey.eq_of_fromBytes_toBytes hlen h).symm,
      (LatticeSecretKey.facts_of_fromBytes h).2⟩
  · rintro ⟨rfl, hok⟩
    exact LatticeSecretKey.fromBytes_toBytes hlen hok

/-- The key of a file is kept exactly when the file is not loaded under another one, unless an
archive holds it. -/
theorem holds_secret_iff (hC : C.Reads) (hlen : ∀ seed, (P.keygenFromSeed seed).2.length = skLen)
    (hstored : dir.Holds (· = .json) (secretIn C P) sk) :
    (loadOrCreateAt C P dir now generated).1.Holds WalletPath.Kept (secretIn C P) sk
      ↔ ¬ Displaces C P dir sk ∨ dir.Holds WalletPath.IsBak (secretIn C P) sk := by
  by_cases h : ∃ file entropy, LoadsAs C dir file entropy
  · obtain ⟨file, entropy, h⟩ := h
    obtain ⟨raw, hraw, hsk⟩ := holds_json.1 hstored
    obtain ⟨raw', hraw', hfile⟩ := readWalletFile_eq_ok.1 h.read
    obtain rfl : raw = raw' := Option.some.inj (hraw.symm.trans hraw')
    rw [secretIn_of_fileIn hfile] at hsk
    rw [displaces_iff h, not_ne_iff, loadOrCreateAt_of_loadsAs h]
    split_ifs with hok
    · have hkept : dir.Holds WalletPath.Kept (secretIn C P) sk := hstored.mono fun _ => .inl
      simp only [hkept, secret_of_storedOk hok hsk, true_or]
    · obtain ⟨bytes, -, haccepted⟩ := Option.bind_eq_some_iff.1 hsk
      have haccepted := (LatticeSecretKey.facts_of_fromBytes
        (toOption_eq_some.1 haccepted)).2
      rw [holds_saveAt, secretIn_ofKeys hC (hlen entropy)]
      simp only [haccepted, and_true]
  · have hnot : ∀ file entropy, ¬ LoadsAs C dir file entropy := fun file entropy hl =>
      h ⟨file, entropy, hl⟩
    have hkept : (loadOrCreateAt C P dir now generated).1.Holds WalletPath.Kept (secretIn C P) sk :=
      holds_of_not_loadsAs hnot hstored
    have hdisplaces : ¬ Displaces C P dir sk := fun ⟨file, entropy, hl, _⟩ => hnot file entropy hl
    simp only [hkept, hdisplaces, not_false_iff, true_or]

end Secret

/-! ## A stand-in for the crates -/

namespace StandIn

open Decimal

/-- Two digits for each byte, in lower case. -/
def hexEncode (bytes : Bytes) : String :=
  String.ofList (bytes.flatMap fun b =>
    [Nat.digitChar (b.toNat / 16), Nat.digitChar (b.toNat % 16)])

def readHexPairs : List Char → Option Bytes
  | [] => some []
  | [_] => none
  | hi :: lo :: l => do
    let hi ← hexDigitValue hi
    let lo ← hexDigitValue lo
    let rest ← readHexPairs l
    return UInt8.ofNat (hi * 16 + lo) :: rest

def quoted (s : String) : List Char := '"' :: (s.toList ++ ['"'])

def unquote : List Char → Option String
  | '"' :: l => some (String.ofList l.dropLast)
  | _ => none

/-- What stands before a value, and behind the comma before it. -/
def jsonKey (key : String) : List Char := ("\n  \"" ++ key ++ "\": ").toList

/-- The text of a file whose strings need no escape. -/
def toStringPretty (file : WalletFile) : String :=
  String.ofList ([','].intercalate
    [ '\x7b' :: jsonKey "version" ++ Nat.toDigits 10 file.version.toNat,
      jsonKey "entropy_hex" ++ (file.entropyHex.map quoted).getD "null".toList,
      jsonKey "public_hex" ++ quoted file.publicHex,
      jsonKey "secret_hex" ++ quoted file.secretHex,
      jsonKey "nonce" ++ Nat.toDigits 10 file.nonce.toNat,
      jsonKey "mnemonic_backed_up"
        ++ (if file.mnemonicBackedUp then "true\n\x7d" else "false\n\x7d").toList ])

/-- Reads what `toStringPretty` writes. -/
def fromStr (s : String) : Option WalletFile :=
  match s.toList.splitOn ',' with
  | [version, entropy, pub, secret, nonce, backedUp] => do
    let publicHex ← unquote (pub.drop (jsonKey "public_hex").length)
    let secretHex ← unquote (secret.drop (jsonKey "secret_hex").length)
    some
      { version := UInt32.ofNat (number (version.drop ((jsonKey "version").length + 1)))
        entropyHex := unquote (entropy.drop (jsonKey "entropy_hex").length)
        publicHex := publicHex
        secretHex := secretHex
        nonce := UInt64.ofNat (number (nonce.drop (jsonKey "nonce").length))
        mnemonicBackedUp :=
          backedUp.drop (jsonKey "mnemonic_backed_up").length = "true\n\x7d".toList }
  | _ => none

def walletCodec : WalletCodec where
  fromStr := fromStr
  toStringPretty := toStringPretty
  hexDecode s := readHexPairs s.toList
  hexEncode := hexEncode

theorem readHexPairs_hexEncode (bytes : Bytes) :
    readHexPairs (hexEncode bytes).toList = some bytes := by
  have hvalue : ∀ n < 16, hexDigitValue (Nat.digitChar n) = some n := by decide
  rw [hexEncode, String.toList_ofList]
  induction bytes with
  | nil => rfl
  | cons b bytes ih =>
    have hb := b.toNat_lt
    have hhi := hvalue (b.toNat / 16) (by omega)
    have hlo := hvalue (b.toNat % 16) (by omega)
    have hsum : b.toNat / 16 * 16 + b.toNat % 16 = b.toNat := by omega
    rw [List.flatMap_cons]
    simp only [List.cons_append, List.nil_append, readHexPairs, hhi, hlo, ih, hsum,
      Option.bind_eq_bind, Option.bind_some, UInt8.ofNat_toNat]
    rfl

theorem unquote_quoted (s : String) : unquote (quoted s) = some s := by
  rw [quoted, unquote, List.dropLast_concat, String.ofList_toList]

theorem comma_notMem_quoted {s : String} (h : ∀ c ∈ s.toList, c ∈ hexDigits) : ',' ∉ quoted s := by
  have hcomma : ',' ∉ hexDigits := by decide
  intro hm
  rw [quoted, List.mem_cons, List.mem_append, List.mem_singleton] at hm
  rcases hm with hm | hm | hm
  · cases hm
  · exact hcomma (h _ hm)
  · cases hm

theorem comma_notMem_toDigits (n : ℕ) : ',' ∉ Nat.toDigits 10 n := by
  intro hm
  exact absurd (List.all_eq_true.1 (all_isDigit_toDigits n) _ hm) (by decide)

theorem fromStr_toStringPretty {file : WalletFile} (h : file.InHex) :
    fromStr (toStringPretty file) = some file := by
  have hkey : ["version", "entropy_hex", "public_hex", "secret_hex", "nonce",
      "mnemonic_backed_up"].Forall fun key => ',' ∉ jsonKey key := by decide
  obtain ⟨hversion, hentropy, hpub, hsecret, hnonce, hbacked⟩ := hkey
  have hnull : ',' ∉ (file.entropyHex.map quoted).getD "null".toList := by
    rcases he : file.entropyHex with _ | s
    · decide
    · exact comma_notMem_quoted (h.entropy s he)
  have hflag : ',' ∉ (if file.mnemonicBackedUp then "true\n\x7d" else "false\n\x7d").toList := by
    cases file.mnemonicBackedUp <;> decide
  unfold fromStr toStringPretty
  rw [String.toList_ofList, List.splitOn_intercalate]
  · have hhead : ∀ digits, ('\x7b' :: jsonKey "version" ++ digits).drop
        ((jsonKey "version").length + 1) = digits := by simp
    have hread : unquote ((file.entropyHex.map quoted).getD "null".toList) = file.entropyHex := by
      rcases file.entropyHex with _ | s
      · rfl
      · exact unquote_quoted s
    have hflag : decide ((if file.mnemonicBackedUp then "true\n\x7d" else "false\n\x7d").toList
        = "true\n\x7d".toList) = file.mnemonicBackedUp := by
      cases file.mnemonicBackedUp <;> decide
    simp only [hhead, List.drop_left, unquote_quoted, number_toDigits, UInt32.ofNat_toNat,
      UInt64.ofNat_toNat, hread, hflag, Option.bind_eq_bind, Option.bind_some]
  · have hbrace : ',' ≠ '\x7b' := by decide
    have hversion := List.not_mem_cons_of_ne_of_not_mem hbrace hversion
    simp only [List.mem_cons, List.not_mem_nil, or_false]
    rintro _ (rfl | rfl | rfl | rfl | rfl | rfl)
    · exact List.not_mem_append hversion (comma_notMem_toDigits _)
    · exact List.not_mem_append hentropy hnull
    · exact List.not_mem_append hpub (comma_notMem_quoted h.pub)
    · exact List.not_mem_append hsecret (comma_notMem_quoted h.secret)
    · exact List.not_mem_append hnonce (comma_notMem_toDigits _)
    · exact List.not_mem_append hbacked hflag
  · exact List.cons_ne_nil _ _

theorem walletCodec_reads : walletCodec.Reads where
  fromStr _ h := fromStr_toStringPretty h
  hexDecode := readHexPairs_hexEncode
  digits bytes c hc := by
    have hdigit : ∀ n < 16, Nat.digitChar n ∈ hexDigits := by decide
    simp only [walletCodec, hexEncode, String.toList_ofList, List.mem_flatMap] at hc
    obtain ⟨b, -, hc⟩ := hc
    have hb := b.toNat_lt
    simp only [List.mem_cons, List.not_mem_nil, or_false] at hc
    rcases hc with rfl | rfl
    · exact hdigit _ (by omega)
    · exact hdigit _ (by omega)
  length bytes := by
    simp [walletCodec, hexEncode, Nat.mul_comm]

theorem length_keygen (seed : Hash) : (primitives.keygenFromSeed seed).2.length = skLen :=
  List.length_replicate ..

/-- The keys of a seed, and what `wallet.json` alone holds. -/
def walletKeys (n : ℕ) : LatticeKeyPair := LatticeKeyPair.fromSeed primitives (BitVec.ofNat 256 n)

def onlyJson (file : WalletFile) : WalletDir
  | .json => some (asBytes (toStringPretty file))
  | _ => none

/-- A file of version 2 with the entropy of one wallet and the keys of another one. -/
def strayFile : WalletFile := .ofKeys walletCodec (walletKeys 2) 7 (BitVec.ofNat 256 1) true

/-- A file of version 1. -/
def oldFile : WalletFile :=
  { strayFile with version := 1, entropyHex := none }

theorem fileIn_oldFile : fileIn walletCodec (asBytes (toStringPretty oldFile)) = some oldFile := by
  have h : strayFile.InHex := inHex_ofKeys walletCodec_reads
  exact fileIn_of_inHex walletCodec_reads ⟨nofun, h.pub, h.secret⟩

theorem fromBytes_walletKeys (n : ℕ) :
    LatticeSecretKey.fromBytes primitives (walletKeys n).secret.toBytes
      = .ok (walletKeys n).secret :=
  LatticeSecretKey.fromBytes_toBytes (length_keygen _) rfl

/-- Either file holds the key of the second wallet. -/
theorem holds_strayFile : (onlyJson strayFile).Holds (· = .json)
    (secretIn walletCodec primitives) (walletKeys 2).secret := by
  refine holds_json.2 ⟨_, rfl, ?_⟩
  exact (secretIn_ofKeys walletCodec_reads (length_keygen _)).2 ⟨rfl, rfl⟩

theorem holds_oldFile : (onlyJson oldFile).Holds (· = .json)
    (secretIn walletCodec primitives) (walletKeys 2).secret := by
  have hsame : oldFile.secret walletCodec primitives
      = strayFile.secret walletCodec primitives := rfl
  refine holds_json.2 ⟨_, rfl, ?_⟩
  rw [secretIn_of_fileIn fileIn_oldFile, hsame, strayFile, secret_ofKeys walletCodec_reads,
    fromBytes_walletKeys]
  rfl

theorem not_displaces_oldFile (sk : LatticeSecretKey) :
    ¬ Displaces walletCodec primitives (onlyJson oldFile) sk := by
  rintro ⟨file, entropy, h, -⟩
  have hread : readWalletFile walletCodec (onlyJson oldFile) .json = .ok oldFile :=
    readWalletFile_eq_ok.2 ⟨_, rfl, fileIn_oldFile⟩
  have hversion : (1 : UInt32) ≠ walletVersion := by decide
  obtain rfl : oldFile = file := Except.ok.inj (hread.symm.trans h.read)
  exact hversion h.version

theorem displaces_strayFile :
    Displaces walletCodec primitives (onlyJson strayFile) (walletKeys 2).secret := by
  refine ⟨strayFile, BitVec.ofNat 256 1, ⟨?_, rfl, entropy_ofKeys walletCodec_reads⟩, ?_⟩
  · exact readWalletFile_eq_ok.2 ⟨_, rfl, fileIn_ofKeys walletCodec_reads⟩
  · intro h
    have hraw := congrArg LatticeSecretKey.raw h
    have hbyte := (List.replicate_inj.1 hraw).2
    exact absurd hbyte (by decide)

end StandIn

/-! ## What is kept and what is lost -/

/-- Over any calls, no entropy of the file is lost; and a key of it is, by the first of them,
exactly when the file is loaded under an entropy that gives another key, and no archive holds it.
-/
theorem loads_keeps_iff (hC : C.Reads) (hlen : ∀ seed, (P.keygenFromSeed seed).2.length = skLen)
    (dir : WalletDir) (calls : List (ℕ × Hash)) :
    (∀ entropy, dir.Holds (· = .json) (entropyIn C) entropy →
        (loads C P dir calls).Holds WalletPath.Kept (entropyIn C) entropy)
      ∧ ∀ sk, dir.Holds (· = .json) (secretIn C P) sk →
        ((loads C P dir calls).Holds WalletPath.Kept (secretIn C P) sk
          ↔ calls = [] ∨ ¬ Displaces C P dir sk
            ∨ dir.Holds WalletPath.IsBak (secretIn C P) sk) := by
  rcases calls with _ | ⟨call, calls⟩
  · exact ⟨fun _ h => h.mono fun _ => .inl,
      fun _ h => iff_of_true (h.mono fun _ => .inl) (.inl rfl)⟩
  rw [loads_cons hC]
  refine ⟨fun entropy h => holds_entropy hC h, fun sk h => ?_⟩
  rw [holds_secret_iff hC hlen h]
  simp only [reduceCtorEq, false_or]

open StandIn in
theorem loads_keeps_iff_strayFile :
    (loads walletCodec primitives (onlyJson strayFile) [(1700000000, 7)]).Holds WalletPath.Kept
        (entropyIn walletCodec) (BitVec.ofNat 256 1)
      ∧ (loads walletCodec primitives (onlyJson oldFile) [(1700000000, 7), (1700000001, 8)]).Holds
        WalletPath.Kept (secretIn walletCodec primitives) (walletKeys 2).secret := by
  have hentropy : (onlyJson strayFile).Holds (· = .json) (entropyIn walletCodec)
      (BitVec.ofNat 256 1) := by
    refine holds_json.2 ⟨_, rfl, ?_⟩
    exact (entropyIn_of_fileIn (fileIn_ofKeys walletCodec_reads)).trans
      (toOption_eq_some.2 (entropy_ofKeys walletCodec_reads))
  refine ⟨(loads_keeps_iff walletCodec_reads length_keygen _ _).1 _ hentropy, ?_⟩
  refine ((loads_keeps_iff walletCodec_reads length_keygen _ _).2 _ holds_oldFile).2 ?_
  exact .inr (.inl (not_displaces_oldFile _))

open StandIn in
/-- The key of a file with another entropy is gone after one call. -/
theorem loads_strayFile : ¬ ∀ sk,
    (onlyJson strayFile).Holds (· = .json) (secretIn walletCodec primitives) sk →
    (loads walletCodec primitives (onlyJson strayFile) [(1700000000, 7)]).Holds WalletPath.Kept
      (secretIn walletCodec primitives) sk := by
  intro hkept
  have hkept := hkept _ holds_strayFile
  rw [loads_cons walletCodec_reads,
    holds_secret_iff walletCodec_reads length_keygen holds_strayFile] at hkept
  rcases hkept with hkept | ⟨p, hp, raw, hraw, -⟩
  · exact hkept displaces_strayFile
  · cases p with
    | json => cases hp
    | tmp => cases hp
    | bak => cases hraw
    | bakAt stamp => cases hraw

end KronMesh
