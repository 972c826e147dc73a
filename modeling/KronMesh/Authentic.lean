import KronMesh.Handshake
import KronMesh.StandIn
import Mathlib.Logic.Relation

/-!
# Whom a handshake authenticates

Parties run any number of sessions over a network that an adversary is: it answers every read with
bytes of its choice, as long as these carry no signature that no holder of the key has made. A
session that returns has verified its own transcript under the key that it was shown. So somebody
who holds that key has signed the transcript; and it was somebody else exactly when the key is not
that of the session itself (`authentic_iff`), which the session does not check. Shown its own HELLO
and its own AUTH, an initiator returns.
-/

namespace KronMesh.Handshake

open Wire

/-! ## What a session has been told -/

/-- A question of a session with its reply. -/
abbrev Event := Sigma Reply

/-- The nonce that the session has drawn. -/
def nonceDrawn (trace : List Event) : Option Hash :=
  trace.findSome? fun
    | ⟨.fillNonce, nonce⟩ => some nonce
    | _ => none

/-- What the session has read. -/
def plainsRead (trace : List Event) : List Bytes :=
  trace.filterMap fun
    | ⟨.readPlain, .ok inner⟩ => some inner
    | _ => none

variable (P : Primitives)

/-- The HELLO or CHALLENGE that the session was shown: the frame it has read first. -/
def helloShown (trace : List Event) : Option HelloMsg := do
  let inner ← (plainsRead trace).head?
  let frame ← (decodeFrame inner).toOption
  (decodeHello P frame.2).toOption

/-- The transcript of the session: both nonces, both ids, and the hash of the Noise handshake. -/
def sessionTranscript (cfg : HandshakeConfig) (noiseHash : Hash) (trace : List Event) :
    Option Bytes := do
  let nonce ← nonceDrawn trace
  let hello ← helloShown P trace
  return if cfg.initiator then
    handshakeTranscript P nonce hello.clientNonce (cfg.keys.pub.address P) (hello.pk.address P)
      noiseHash
  else
    handshakeTranscript P hello.clientNonce nonce (hello.pk.address P) (cfg.keys.pub.address P)
      noiseHash

/-- The session has read a signature of the key it was shown, on its transcript. -/
def Accepts (cfg : HandshakeConfig) (noiseHash : Hash) (trace : List Event) (info : PeerInfo) :
    Prop :=
  ∃ hello transcript inner kind payload sig, helloShown P trace = some hello
    ∧ sessionTranscript P cfg noiseHash trace = some transcript
    ∧ info.peer.publicKey = hello.pk
    ∧ ⟨.readPlain, .ok inner⟩ ∈ trace ∧ decodeFrame inner = .ok (kind, payload)
    ∧ LatticeSignature.fromBytes payload = .ok sig ∧ hello.pk.verify P transcript sig = true

section Ensures

variable {P} {cfg : HandshakeConfig} {noiseHash : Hash} {trace : List Event} {β : Type}

theorem ensures_orFail {ε : Type} {f : ε → SessionError} {r : Except ε β}
    {post : List Event → β → Prop} :
    (orFail f r).Ensures post trace ↔ ∀ b, r = .ok b → post trace b := by
  unfold orFail
  rw [Dialog.ensures_lift]
  rcases r with e | b
  · exact iff_of_true nofun nofun
  · exact forall_congr' fun b' => by simp [Except.mapError]

theorem ensures_peerAddr {post : List Event → SocketAddr → Prop} :
    peerAddr.Ensures post trace ↔ ∀ addr, post (trace ++ [⟨.peerAddr, .ok addr⟩]) addr := by
  unfold peerAddr
  rw [Dialog.ensures_bind, Dialog.ensures_query]
  simp only [ensures_orFail]
  exact ⟨fun h addr => h _ addr rfl, fun h r addr hr => hr ▸ h addr⟩

theorem ensures_fillNonce {post : List Event → Hash → Prop} :
    fillNonce.Ensures post trace ↔ ∀ nonce, post (trace ++ [⟨.fillNonce, nonce⟩]) nonce := Iff.rfl

theorem ensures_sign {message : Bytes} {post : List Event → LatticeSignature → Prop} :
    (sign message).Ensures post trace ↔ ∀ sig, post (trace ++ [⟨.sign message, .ok sig⟩]) sig := by
  unfold sign
  rw [Dialog.ensures_bind, Dialog.ensures_query]
  simp only [ensures_orFail]
  exact ⟨fun h sig => h _ sig rfl, fun h r sig hr => hr ▸ h sig⟩

theorem ensures_writeFrame {kind : UInt8} {payload : Bytes} {post : List Event → Unit → Prop}
    (h : post (trace ++ [⟨.writePlain (frameBytes kind payload), .ok ()⟩]) ()) :
    (writeFrame kind payload).Ensures post trace := by
  unfold writeFrame writePlain
  rw [Dialog.ensures_bind, Dialog.ensures_lift]
  intro _ _
  rw [Dialog.ensures_bind, Dialog.ensures_query]
  intro r
  rw [ensures_orFail]
  rintro ⟨⟩ hr
  exact hr ▸ h

theorem ensures_readFrame {post : List Event → UInt8 × Bytes → Prop}
    (h : ∀ inner kind payload, decodeFrame inner = .ok (kind, payload) →
      post (trace ++ [⟨.readPlain, .ok inner⟩]) (kind, payload)) :
    readFrame.Ensures post trace := by
  unfold readFrame readPlain
  rw [Dialog.ensures_bind, Dialog.ensures_bind, Dialog.ensures_query]
  intro r
  rw [ensures_orFail]
  intro inner hr
  rw [Dialog.ensures_lift]
  rintro ⟨kind, payload⟩ hd
  exact hr ▸ h inner kind payload hd

theorem ensures_check {c : Prop} [Decidable c] {e : SessionError}
    {post : List Event → Unit → Prop} :
    (Dialog.lift (rejectIf c e) : Code Unit).Ensures post trace ↔ (¬ c → post trace ()) := by
  rw [Dialog.ensures_lift]
  exact ⟨fun h hc => h () (rejectIf_of_not hc), fun h _ hr => h (rejectIf_eq_ok.1 hr)⟩

/-- A session that rejects does not return. -/
theorem ensures_rejectWith {code : UInt8} {e : SessionError} {post : List Event → β → Prop} :
    (rejectWith code e : Code β).Ensures post trace := by
  unfold rejectWith
  rw [Dialog.ensures_bind]
  exact Dialog.ensures_of_forall (fun _ _ => trivial) _ _

theorem helloShown_eq {inner payload : Bytes} {kind : UInt8} {hello : HelloMsg}
    (hread : (plainsRead trace).head? = some inner)
    (hframe : decodeFrame inner = .ok (kind, payload))
    (hhello : decodeHello P payload = .ok hello) : helloShown P trace = some hello := by
  unfold helloShown
  rw [hread, Option.bind_eq_bind, Option.bind_some, hframe]
  change (decodeHello P payload).toOption = some hello
  rw [hhello]
  rfl

theorem sessionTranscript_eq {nonce : Hash} {hello : HelloMsg}
    (hnonce : nonceDrawn trace = some nonce) (hhello : helloShown P trace = some hello) :
    sessionTranscript P cfg noiseHash trace = some (if cfg.initiator then
        handshakeTranscript P nonce hello.clientNonce (cfg.keys.pub.address P)
          (hello.pk.address P) noiseHash
      else handshakeTranscript P hello.clientNonce nonce (hello.pk.address P)
        (cfg.keys.pub.address P) noiseHash) := by
  unfold sessionTranscript
  rw [hnonce, hhello]
  rfl

theorem ensures_initiatorFlow (hi : cfg.initiator = true) (addr : SocketAddr) :
    (initiatorFlow P cfg noiseHash).Ensures (Accepts P cfg noiseHash)
      [⟨.peerAddr, .ok addr⟩] := by
  unfold initiatorFlow
  rw [Dialog.ensures_bind, ensures_fillNonce]
  intro nonce
  rw [Dialog.ensures_bind]
  refine ensures_writeFrame ?_
  rw [Dialog.ensures_bind]
  refine ensures_readFrame fun inner kind payload hframe => ?_
  rw [Dialog.ensures_bind, ensures_check]
  intro _
  rw [Dialog.ensures_bind, ensures_check]
  intro _
  rw [Dialog.ensures_bind, Dialog.ensures_lift]
  intro ch hch
  rw [Dialog.ensures_bind, Dialog.ensures_lift]
  intro _ _
  rw [Dialog.ensures_bind, ensures_sign]
  intro sig
  rw [Dialog.ensures_bind]
  refine ensures_writeFrame ?_
  rw [Dialog.ensures_bind]
  refine ensures_readFrame fun inner' kind' payload' hframe' => ?_
  rw [Dialog.ensures_bind, ensures_check]
  intro _
  rw [Dialog.ensures_bind, Dialog.ensures_lift]
  intro ackSig hsig
  rw [Dialog.ensures_bind, ensures_check]
  intro hverify
  rw [Dialog.ensures_bind, Dialog.ensures_lift]
  intro score _
  rw [Dialog.ensures_bind, ensures_peerAddr]
  intro addr'
  rw [Dialog.ensures_pure]
  obtain ⟨hello, hhello, hch⟩ := bind_eq_ok.1 hch
  cases hch
  refine ⟨hello, _, inner', kind', payload', ackSig, helloShown_eq rfl hframe hhello, ?_, rfl,
    by simp, hframe', mapFault_eq_ok.1 hsig, eq_true_of_ne_false hverify⟩
  rw [sessionTranscript_eq rfl (helloShown_eq rfl hframe hhello), hi]
  rfl

theorem ensures_answerHello (hi : cfg.initiator = false) {addr : SocketAddr}
    {inner payload : Bytes} {kind : UInt8} {hello : HelloMsg}
    (hframe : decodeFrame inner = .ok (kind, payload))
    (hhello : decodeHello P payload = .ok hello) :
    (answerHello P cfg noiseHash hello).Ensures (Accepts P cfg noiseHash)
      [⟨.peerAddr, .ok addr⟩, ⟨.readPlain, .ok inner⟩] := by
  unfold answerHello
  rw [Dialog.ensures_bind, ensures_fillNonce]
  intro nonce
  rw [Dialog.ensures_bind]
  refine ensures_writeFrame ?_
  rw [Dialog.ensures_bind]
  refine ensures_readFrame fun inner' kind' payload' hframe' => ?_
  simp only []
  split_ifs
  · exact ensures_rejectWith
  rw [Dialog.ensures_bind, Dialog.ensures_lift]
  intro sig hsig
  split_ifs with hverify
  · exact ensures_rejectWith
  rw [Dialog.ensures_bind, ensures_sign]
  intro ack
  rw [Dialog.ensures_bind]
  refine ensures_writeFrame ?_
  rw [Dialog.ensures_bind, Dialog.ensures_lift]
  intro score _
  rw [Dialog.ensures_bind, ensures_peerAddr]
  intro addr'
  rw [Dialog.ensures_pure]
  refine ⟨hello, _, inner', kind', payload', sig, helloShown_eq rfl hframe hhello, ?_, rfl,
    by simp, hframe', mapFault_eq_ok.1 hsig, eq_true_of_ne_false hverify⟩
  rw [sessionTranscript_eq rfl (helloShown_eq rfl hframe hhello), hi]
  rfl

theorem ensures_responderFlow (hi : cfg.initiator = false) (addr : SocketAddr) :
    (responderFlow P cfg noiseHash).Ensures (Accepts P cfg noiseHash)
      [⟨.peerAddr, .ok addr⟩] := by
  unfold responderFlow
  rw [Dialog.ensures_bind]
  refine ensures_readFrame fun inner kind payload hframe => ?_
  simp only []
  split_ifs
  · exact ensures_rejectWith
  rw [Dialog.ensures_bind, Dialog.ensures_lift]
  intro hello hhello
  rcases verifyAttestation P hello.attestation hello.pk cfg.minAuthenticity with (e | _) | ⟨⟨⟩⟩
  · exact ensures_rejectWith
  · trivial
  · exact ensures_answerHello hi hframe hhello

/-- A session that returns has verified its own transcript under the key it was shown. -/
theorem ensures_performSecureHandshake :
    (performSecureHandshake P cfg noiseHash).Ensures (Accepts P cfg noiseHash) [] := by
  unfold performSecureHandshake
  rw [Dialog.ensures_bind, ensures_peerAddr]
  intro addr
  rw [Dialog.ensures_bind, Dialog.ensures_lift]
  intro _ _
  split_ifs with hi
  · exact ensures_initiatorFlow hi addr
  · exact ensures_responderFlow (eq_false_of_ne_true hi) addr

end Ensures

/-! ## An exchange that the initiator accepts -/

section Exchange

variable (cfg remote : HandshakeConfig) (noiseHash nonce nonce' : Hash)

/-- What both sides sign when the initiator `cfg` has drawn `nonce` and `remote` has drawn
`nonce'`. -/
def exchanged : Bytes :=
  handshakeTranscript P nonce nonce' (cfg.keys.pub.address P) (remote.keys.pub.address P) noiseHash

theorem length_exchanged : (exchanged P cfg remote noiseHash nonce nonce').length = 32 := by
  unfold exchanged handshakeTranscript
  exact length_hashBytes _

/-- What the initiator asks and is told. -/
def initiatorTrace (addr : SocketAddr) (sig ack : LatticeSignature) : List Event :=
  [⟨.peerAddr, .ok addr⟩, ⟨.fillNonce, nonce⟩,
    ⟨.writePlain (frameBytes kindHello (encodeHello cfg nonce)), .ok ()⟩,
    ⟨.readPlain, .ok (frameBytes kindChallenge (encodeChallenge remote nonce'))⟩,
    ⟨.sign (exchanged P cfg remote noiseHash nonce nonce'), .ok sig⟩,
    ⟨.writePlain (frameBytes kindAuth sig.toBytes), .ok ()⟩,
    ⟨.readPlain, .ok (frameBytes kindAck ack.toBytes)⟩, ⟨.peerAddr, .ok addr⟩]

variable {P cfg remote noiseHash nonce nonce'}

theorem run_peerAddr (addr : SocketAddr) :
    peerAddr.Run [⟨.peerAddr, .ok addr⟩] (.ret (.ok addr)) :=
  (Dialog.Run.query _ _).bind .nil

theorem run_fillNonce (nonce : Hash) : fillNonce.Run [⟨.fillNonce, nonce⟩] (.ret (.ok nonce)) :=
  Dialog.Run.query _ _

theorem run_sign (message : Bytes) (sig : LatticeSignature) :
    (sign message).Run [⟨.sign message, .ok sig⟩] (.ret (.ok sig)) :=
  (Dialog.Run.query _ _).bind .nil

theorem run_writeFrame {kind : UInt8} {payload : Bytes} (h : payload.length ≤ maxFrame) :
    (writeFrame kind payload).Run [⟨.writePlain (frameBytes kind payload), .ok ()⟩]
      (.ret (.ok ())) :=
  .lift (rejectIf_of_not (not_lt_of_ge h)) ((Dialog.Run.query _ _).bind .nil)

theorem run_readFrame {kind : UInt8} {payload : Bytes} (h : payload.length ≤ maxFrame) :
    readFrame.Run [⟨.readPlain, .ok (frameBytes kind payload)⟩] (.ret (.ok (kind, payload))) := by
  have hread : readPlain.Run [⟨.readPlain, .ok (frameBytes kind payload)⟩]
      (.ret (.ok (frameBytes kind payload))) := (Dialog.Run.query _ _).bind .nil
  unfold readFrame
  refine hread.bind ?_
  rw [decodeFrame_frameBytes h]
  exact .nil

theorem length_toBytes_le {sig : LatticeSignature} (h : sig.bytes.length = sigLen) :
    sig.toBytes.length ≤ maxFrame := by
  rw [LatticeSignature.toBytes, length_encodeBlob, h]
  decide

theorem exists_score_of_verifyAttestation {att : DeviceAttestation} {pk : LatticePublicKey}
    {minAuthenticity : UInt16} (h : verifyAttestation P att pk minAuthenticity = .ok ()) :
    ∃ score, verifyHardwareAuthenticity P att = .ok score := by
  obtain ⟨_, -, h⟩ := bind_eq_ok.1 h
  obtain ⟨score, h, -⟩ := bind_eq_ok.1 h
  exact ⟨score, mapFault_eq_ok.1 h⟩

/-- An initiator that is shown a configuration with a quote that holds, and the signature of its key
on the transcript, returns. -/
theorem run_initiator (hi : cfg.initiator = true) {addr : SocketAddr}
    (hsocket : rejectSocket addr cfg = .ok ()) (hcfg : cfg.Readable P) (hremote : remote.Readable P)
    (hquote : verifyAttestation P remote.attestation remote.keys.pub cfg.minAuthenticity = .ok ())
    {sig ack : LatticeSignature} (hsig : sig.bytes.length = sigLen)
    (hack : remote.keys.pub.verify P (exchanged P cfg remote noiseHash nonce nonce') ack = true) :
    ∃ info, (performSecureHandshake P cfg noiseHash).Run
      (initiatorTrace P cfg remote noiseHash nonce nonce' addr sig ack) (.ret (.ok info)) := by
  obtain ⟨score, hscore⟩ := exists_score_of_verifyAttestation hquote
  have hch : decodeChallenge P (encodeChallenge remote nonce')
      = .ok ⟨remote.role, remote.deviceClass, remote.keys.pub, remote.attestation, nonce'⟩ := by
    rw [decodeChallenge, encodeChallenge, decodeHello_encodeHello hremote]
    rfl
  have hacklen := (LatticePublicKey.verify_facts hack).2.2
  refine ⟨infoFrom P remote.keys.pub remote.role remote.deviceClass addr score, ?_⟩
  unfold performSecureHandshake
  refine (run_peerAddr addr).bind (.lift hsocket ?_)
  rw [if_pos hi]
  unfold initiatorFlow
  refine (run_fillNonce nonce).bind ?_
  refine (run_writeFrame (length_encodeHello hcfg nonce)).bind ?_
  refine (run_readFrame (length_encodeHello hremote nonce')).bind ?_
  refine .lift (rejectIf_of_not (by decide)) (.lift (rejectIf_of_not (by decide)) ?_)
  refine .lift hch (.lift hquote ?_)
  refine (run_sign _ sig).bind ?_
  refine (run_writeFrame (length_toBytes_le hsig)).bind ?_
  refine (run_readFrame (length_toBytes_le hacklen)).bind ?_
  refine .lift (rejectIf_of_not (by decide)) ?_
  refine .lift (mapFault_eq_ok.2 (LatticeSignature.fromBytes_toBytes hacklen)) ?_
  refine .lift (rejectIf_of_not (ne_false_of_eq_true hack)) ?_
  refine .lift (mapFault_eq_ok.2 hscore) ?_
  exact (run_peerAddr addr).bind .nil

theorem helloShown_initiatorTrace (hremote : remote.Readable P) {addr : SocketAddr}
    {sig ack : LatticeSignature} :
    helloShown P (initiatorTrace P cfg remote noiseHash nonce nonce' addr sig ack)
      = some ⟨remote.role, remote.deviceClass, remote.keys.pub, remote.attestation, nonce'⟩ :=
  helloShown_eq rfl (decodeFrame_frameBytes (length_encodeHello hremote nonce'))
    (decodeHello_encodeHello hremote nonce')

end Exchange

/-! ## Parties, and the network as an adversary -/

/-- Who may hold a key. -/
inductive Principal (ι : Type*)
  | party (i : ι)
  | adversary

/-- The key pair of each party, and the keys of the adversary. -/
structure Keyring (ι : Type*) where
  keys : ι → LatticeKeyPair
  ofAdversary : Set LatticePublicKey

def Keyring.Holds {ι : Type*} (K : Keyring ι) : Principal ι → LatticePublicKey → Prop
  | .party i, pk => pk = (K.keys i).pub
  | .adversary, pk => pk ∈ K.ofAdversary

/-- A call of `perform_secure_handshake` by a party, on its way. -/
structure Session (ι : Type*) where
  party : ι
  cfg : HandshakeConfig
  noiseHash : Hash
  trace : List Event
  code : Code PeerInfo

/-- Who has signed what with which key. -/
abbrev SignLog (ι : Type*) := List (Principal ι × LatticePublicKey × Bytes)

/-- A frame of these bytes carries no signature but on what a principal has signed. -/
def SignLog.Unforged {ι : Type*} (signed : SignLog ι) (inner : Bytes) : Prop :=
  ∀ kind payload sig pk message, decodeFrame inner = .ok (kind, payload) →
    LatticeSignature.fromBytes payload = .ok sig → pk.verify P message sig = true →
    ∃ p, (p, pk, message) ∈ signed

theorem SignLog.Unforged.mono {P : Primitives} {ι : Type*} {signed signed' : SignLog ι}
    {inner : Bytes} (h : signed.Unforged P inner) (hle : signed ⊆ signed') :
    signed'.Unforged P inner := by
  intro kind payload sig pk message hframe hsig hverify
  obtain ⟨p, hp⟩ := h kind payload sig pk message hframe hsig hverify
  exact ⟨p, hle hp⟩

/-- A HELLO or CHALLENGE is no signature. -/
theorem SignLog.unforged_encodeHello {P : Primitives} {ι : Type*} {signed : SignLog ι}
    {kind : UInt8} {cfg : HandshakeConfig} {nonce : Hash}
    (h : (encodeHello cfg nonce).length ≤ maxFrame) :
    signed.Unforged P (frameBytes kind (encodeHello cfg nonce)) := by
  intro kind' payload sig pk message hframe hsig _
  rw [decodeFrame_frameBytes h] at hframe
  cases hframe
  have htag : cfg.role.toU8 = schemeMldsa44 := LatticeSignature.tag_of_fromBytes hsig
  exact absurd htag (by cases cfg.role <;> decide)

namespace Session

variable {ι : Type*} (c : Session ι)

/-- A session that has asked nothing so far. -/
def called (i : ι) (cfg : HandshakeConfig) (noiseHash : Hash) : Session ι :=
  ⟨i, cfg, noiseHash, [], performSecureHandshake P cfg noiseHash⟩

/-- The signer is the party's own. All other replies are the adversary's. -/
def MayReply (signed : SignLog ι) : (q : Query) → Reply q → Prop
  | .sign message, r => r = c.cfg.keys.secret.sign P message
  | .readPlain, .ok inner => signed.Unforged P inner
  | _, _ => True

/-- What the reply shows to be signed. -/
def signedBy : Event → SignLog ι
  | ⟨.sign message, .ok _⟩ => [(.party c.party, c.cfg.keys.pub, message)]
  | _ => []

theorem mem_signedBy {c : Session ι} {e : Event} {p : Principal ι} {pk : LatticePublicKey}
    {message : Bytes} (h : (p, pk, message) ∈ c.signedBy e) :
    p = .party c.party ∧ pk = c.cfg.keys.pub := by
  unfold signedBy at h
  split at h
  · cases List.mem_singleton.1 h
    exact ⟨rfl, rfl⟩
  · cases h

/-- What the session may be told, one reply after the other. -/
def Replies (signed : SignLog ι) : List Event → Prop
  | [] => True
  | e :: es => c.MayReply P signed e.1 e.2 ∧ Replies (signed ++ c.signedBy e) es

theorem replies_append {P : Primitives} {c : Session ι} {es es' : List Event} :
    ∀ {signed : SignLog ι}, c.Replies P signed (es ++ es')
      ↔ c.Replies P signed es ∧ c.Replies P (signed ++ es.flatMap c.signedBy) es' := by
  induction es with
  | nil => simp [Replies]
  | cons e es ih =>
    intro signed
    rw [List.cons_append, Replies, ih, Replies, List.flatMap_cons, List.append_assoc, and_assoc]

/-- The session, told something. -/
def told (q : Query) (r : Reply q) (code : Code PeerInfo) : Session ι :=
  { c with trace := c.trace ++ [⟨q, r⟩], code := code }

end Session

structure Network (σ ι : Type*) where
  sessions : AList fun _ : σ => Session ι
  signed : SignLog ι

namespace Network

variable {σ ι : Type*} [DecidableEq σ]

def empty : Network σ ι := ⟨∅, []⟩

variable (K : Keyring ι)

/-- A party starts a session, a session is told something, or a principal uses a key that it holds
for anything else. -/
inductive Step : Network σ ι → Network σ ι → Prop
  | start {n : Network σ ι} {s : σ} {i : ι} {cfg : HandshakeConfig} (noiseHash : Hash) :
    n.sessions.lookup s = none → cfg.keys = K.keys i →
    Step n ⟨n.sessions.insert s (.called P i cfg noiseHash), n.signed⟩
  | reply {n : Network σ ι} {s : σ} {c : Session ι} {q : Query} {k : Reply q → Code PeerInfo}
    {r : Reply q} : n.sessions.lookup s = some c → c.code = .ask q k → c.MayReply P n.signed q r →
    Step n ⟨n.sessions.insert s (c.told q r (k r)), n.signed ++ c.signedBy ⟨q, r⟩⟩
  | sign {n : Network σ ι} {p : Principal ι} {pk : LatticePublicKey} (message : Bytes) :
    K.Holds p pk → Step n ⟨n.sessions, n.signed ++ [(p, pk, message)]⟩

/-- Somebody else who holds the key has signed the message. -/
def SignedByOther (n : Network σ ι) (i : ι) (pk : LatticePublicKey) (message : Bytes) : Prop :=
  ∃ p, p ≠ .party i ∧ K.Holds p pk ∧ (p, pk, message) ∈ n.signed

/-- What the network keeps of a session: it runs the code with the keys of its party, and what it
has read carries no forgery. -/
structure Kept (n : Network σ ι) (c : Session ι) : Prop where
  keys : c.cfg.keys = K.keys c.party
  ran : (performSecureHandshake P c.cfg c.noiseHash).Run c.trace c.code
  read : ∀ inner, ⟨.readPlain, .ok inner⟩ ∈ c.trace → n.signed.Unforged P inner

structure Sound (n : Network σ ι) : Prop where
  kept : ∀ s c, n.sessions.lookup s = some c → n.Kept P K c
  held : ∀ p pk message, (p, pk, message) ∈ n.signed → K.Holds p pk

variable {P K} {n n' : Network σ ι} {c : Session ι}

omit [DecidableEq σ] in
theorem Kept.mono (h : n.Kept P K c) (hle : n.signed ⊆ n'.signed) : n'.Kept P K c :=
  ⟨h.keys, h.ran, fun inner hinner => (h.read inner hinner).mono hle⟩

omit [DecidableEq σ] in
/-- A session that is told something is kept. -/
theorem Kept.told (h : n.Kept P K c) {q : Query} {k : Reply q → Code PeerInfo} {r : Reply q}
    (hcode : c.code = .ask q k) (hr : c.MayReply P n.signed q r) :
    n.Kept P K (c.told q r (k r)) := by
  refine ⟨h.keys, (hcode ▸ h.ran).step r, fun inner hinner => ?_⟩
  rcases List.mem_append.1 hinner with hinner | hinner
  · exact h.read inner hinner
  · cases List.mem_singleton.1 hinner
    exact hr

/-- One session changes, and nothing signed is forgotten. -/
theorem Sound.kept_insert (hn : n.Sound P K) {s : σ} {signed : SignLog ι}
    (hle : n.signed ⊆ signed) (hc : n.Kept P K c) : ∀ t c',
    (n.sessions.insert s c).lookup t = some c' →
      Kept P K ⟨n.sessions.insert s c, signed⟩ c' := by
  intro t c' ht
  by_cases hts : t = s
  · subst hts
    rw [AList.lookup_insert] at ht
    cases ht
    exact hc.mono hle
  · rw [AList.lookup_insert_ne hts] at ht
    exact (hn.kept t c' ht).mono hle

theorem Sound.step (hn : n.Sound P K) (h : Step P K n n') : n'.Sound P K := by
  cases h with
  | start noiseHash hs hkeys =>
    exact ⟨hn.kept_insert (List.Subset.refl _) ⟨hkeys, .nil, nofun⟩, hn.held⟩
  | @reply s c q k r hs hcode hr =>
    have hc := hn.kept s c hs
    refine ⟨hn.kept_insert (List.subset_append_left _ _) (hc.told hcode hr),
      fun p pk message hmem => ?_⟩
    rcases List.mem_append.1 hmem with hmem | hmem
    · exact hn.held p pk message hmem
    · obtain ⟨rfl, rfl⟩ := Session.mem_signedBy hmem
      exact congrArg _ hc.keys
  | @sign p pk message hp =>
    refine ⟨fun t c ht => (hn.kept t c ht).mono (List.subset_append_left _ _),
      fun p' pk' message' hmem => ?_⟩
    rcases List.mem_append.1 hmem with hmem | hmem
    · exact hn.held p' pk' message' hmem
    · cases List.mem_singleton.1 hmem
      exact hp

theorem sound_of_reachable (h : Relation.ReflTransGen (Step P K) empty n) : n.Sound P K := by
  induction h with
  | refl => exact ⟨nofun, nofun⟩
  | tail _ hstep ih => exact ih.step hstep

/-- The network may follow a run of the code of a session when it may give every reply of it. -/
theorem follow {m : AList fun _ : σ => Session ι} {s : σ} {signed : SignLog ι}
    {trace : List Event} {code : Code PeerInfo} (hrun : c.code.Run trace code)
    (hreplies : c.Replies P signed trace) :
    Relation.ReflTransGen (Step P K) ⟨m.insert s c, signed⟩
      ⟨m.insert s { c with trace := c.trace ++ trace, code := code },
        signed ++ trace.flatMap c.signedBy⟩ := by
  induction hrun with
  | nil =>
    rw [List.append_nil, List.flatMap_nil, List.append_nil]
  | @step trace q k hrun r ih =>
    obtain ⟨htrace, hr, -⟩ := Session.replies_append.1 hreplies
    refine (ih htrace).tail ?_
    have hstep := Step.reply (P := P) (K := K) (s := s)
      (n := ⟨m.insert s { c with trace := c.trace ++ trace, code := .ask q k },
        signed ++ trace.flatMap c.signedBy⟩) (AList.lookup_insert _) rfl hr
    rw [AList.insert_insert] at hstep
    rw [← List.append_assoc, List.flatMap_append, List.flatMap_singleton, ← List.append_assoc]
    exact hstep

/-- The signature that a session which returned has accepted was made by a holder of the key. -/
theorem Sound.signer (hn : n.Sound P K) {s : σ} {info : PeerInfo}
    (hs : n.sessions.lookup s = some c) (hret : c.code = .ret (.ok info)) :
    ∃ hello transcript p, helloShown P c.trace = some hello
      ∧ sessionTranscript P c.cfg c.noiseHash c.trace = some transcript
      ∧ info.peer.publicKey = hello.pk ∧ K.Holds p hello.pk
      ∧ (p, hello.pk, transcript) ∈ n.signed := by
  have hc := hn.kept s c hs
  have hensures := hc.ran.ensures ensures_performSecureHandshake
  rw [hret] at hensures
  obtain ⟨hello, transcript, inner, kind, payload, sig, hhello, htranscript, hpk, hread, hframe,
    hsig, hverify⟩ := hensures
  obtain ⟨p, hp⟩ := hc.read inner hread kind payload sig hello.pk transcript hframe hsig hverify
  exact ⟨hello, transcript, p, hhello, htranscript, hpk, hn.held _ _ _ hp, hp⟩

/-- A session that starts with the keys of a party may be given every reply of a run. -/
theorem reachable_run (hn : Relation.ReflTransGen (Step P K) empty n) {s : σ}
    (hs : n.sessions.lookup s = none) {i : ι} {cfg : HandshakeConfig} (hkeys : cfg.keys = K.keys i)
    {noiseHash : Hash} {trace : List Event} {code : Code PeerInfo}
    (hrun : (performSecureHandshake P cfg noiseHash).Run trace code)
    (hreplies : (Session.called P i cfg noiseHash).Replies P n.signed trace) :
    Relation.ReflTransGen (Step P K) empty
      ⟨n.sessions.insert s ⟨i, cfg, noiseHash, trace, code⟩,
        n.signed ++ trace.flatMap (Session.called P i cfg noiseHash).signedBy⟩ :=
  (hn.tail (.start noiseHash hs hkeys)).trans (follow hrun hreplies)

/-- The network may bring an initiator to return: with the signature of the shown key on the
transcript, be it its own. -/
theorem reachable_initiator (hn : Relation.ReflTransGen (Step P K) empty n) {s : σ}
    (hs : n.sessions.lookup s = none) {i : ι} {cfg remote : HandshakeConfig}
    (hkeys : cfg.keys = K.keys i) (hi : cfg.initiator = true) {addr : SocketAddr}
    (hsocket : rejectSocket addr cfg = .ok ()) (hcfg : cfg.Readable P) (hremote : remote.Readable P)
    (hquote : verifyAttestation P remote.attestation remote.keys.pub cfg.minAuthenticity = .ok ())
    {noiseHash nonce nonce' : Hash} {sig ack : LatticeSignature}
    (hsign : cfg.keys.secret.sign P (exchanged P cfg remote noiseHash nonce nonce') = .ok sig)
    (hsig : sig.bytes.length = sigLen)
    (hack : remote.keys.pub.verify P (exchanged P cfg remote noiseHash nonce nonce') ack = true)
    (hunforged : SignLog.Unforged P (n.signed ++ [(.party i, cfg.keys.pub,
      exchanged P cfg remote noiseHash nonce nonce')]) (frameBytes kindAck ack.toBytes)) :
    ∃ info, Relation.ReflTransGen (Step P K) empty
      ⟨n.sessions.insert s ⟨i, cfg, noiseHash,
        initiatorTrace P cfg remote noiseHash nonce nonce' addr sig ack, .ret (.ok info)⟩,
        n.signed ++ [(.party i, cfg.keys.pub,
          exchanged P cfg remote noiseHash nonce nonce')]⟩ := by
  obtain ⟨info, hrun⟩ := run_initiator hi hsocket hcfg hremote hquote hsig hack
  refine ⟨info, reachable_run hn hs hkeys hrun ?_⟩
  have hhello : SignLog.Unforged P n.signed
      (frameBytes kindChallenge (encodeChallenge remote nonce')) :=
    SignLog.unforged_encodeHello (length_encodeHello hremote nonce')
  simp only [initiatorTrace, Session.Replies, Session.MayReply, Session.signedBy, Session.called,
    List.append_nil]
  exact ⟨trivial, trivial, trivial, hhello, hsign.symm, trivial, hunforged, trivial, trivial⟩

end Network

/-! ## An initiator that is shown itself -/

section Endpoints

open StandIn

/-- Measurements of a device of the miner, and its quote. -/
def measured (miner : Address) (quote : Hash) : DeviceAttestation where
  miner := miner
  deviceClass := .personalComputer
  logicalCores := 8
  advertisedMhz := 2500
  latticeProbeNs := [8000, 8100, 7900, 8000]
  cacheProbeNs := [120, 121, 130, 110]
  clockSkewPpm := [1, 2]
  ipv4 := ⟨86, 1, 2, 3⟩
  adjacencyRttMs := [18, 19]
  miningDurationNs := 80000
  quote := quote

def quoteOf (miner : Address) : Hash :=
  inscribing.sha256 (quoteTag ++ (measured miner 0).canonicalBytes)

/-- The initiator of a wallet. -/
def endpoint (seed : Hash) : HandshakeConfig where
  keys := LatticeKeyPair.fromSeed inscribing seed
  role := .edgeMiner
  deviceClass := .personalComputer
  attestation := measured (addressOf seed) (quoteOf (addressOf seed))
  bannedIpv4 := []
  minAuthenticity := 400
  initiator := true

theorem readable_endpoint (seed : Hash) : (endpoint seed).Readable inscribing where
  key := List.length_replicate
  keyOk := rfl
  quote :=
    { lattice := show 4 < 256 by decide
      cache := show 4 < 256 by decide
      skew := show 2 < 256 by decide
      rtt := show 2 < 256 by decide }

theorem quote_holds (miner : Address) :
    ¬ inscribing.sha256 (quoteTag ++ (measured miner (quoteOf miner)).canonicalBytes)
      ≠ (measured miner (quoteOf miner)).quote := by
  have hbytes : ∀ quote,
      (measured miner quote).canonicalBytes = (measured miner 0).canonicalBytes := fun _ => rfl
  have hquote : ∀ quote, (measured miner quote).quote = quote := fun _ => rfl
  rw [hbytes, hquote, ← quoteOf]
  exact not_not_intro rfl

theorem verifyHardwareAuthenticity_measured (miner : Address) :
    verifyHardwareAuthenticity inscribing (measured miner (quoteOf miner))
      = .ok ⟨850, 800, 0, ["residential-prefix"]⟩ := by
  have hzero : verifyHardwareAuthenticity inscribing (measured 0 (quoteOf 0))
      = .ok ⟨850, 800, 0, ["residential-prefix"]⟩ := by decide +kernel
  have hmeasured : measured miner (quoteOf miner)
      = { measured 0 (quoteOf 0) with miner := miner, quote := quoteOf miner } := rfl
  have hquote := quote_holds miner
  rw [hmeasured] at hquote ⊢
  rw [verifyHardwareAuthenticity_of_quote (quote_holds 0) hquote, hzero]

theorem verifyAttestation_endpoint (seed : Hash) :
    verifyAttestation inscribing (endpoint seed).attestation (endpoint seed).keys.pub 400
      = .ok () := by
  have hminer : ¬ (endpoint seed).attestation.miner ≠ (endpoint seed).keys.pub.address inscribing :=
    not_not_intro (inscribing_address seed).symm
  unfold verifyAttestation
  rw [rejectIf_of_not hminer, ok_bind, endpoint, verifyHardwareAuthenticity_measured]
  rfl

/-- A frame with the signature of a message that somebody has signed is no forgery. -/
theorem unforged_ack {ι : Type*} {signed : SignLog ι} {p : Principal ι} {pk : LatticePublicKey}
    {message : Bytes} {ack : LatticeSignature} {kind : UInt8}
    (hack : pk.verify inscribing message ack = true) (h : (p, pk, message) ∈ signed) :
    signed.Unforged inscribing (frameBytes kind ack.toBytes) := by
  have hlen := (LatticePublicKey.verify_facts hack).2.2
  intro kind' payload sig pk' message' hframe hsig hverify
  rw [decodeFrame_frameBytes (length_toBytes_le hlen)] at hframe
  cases hframe
  rw [LatticeSignature.fromBytes_toBytes hlen] at hsig
  cases hsig
  obtain ⟨rfl, rfl⟩ := inscribing_verify_inj hverify hack
  exact ⟨p, h⟩

/-- One party, with the key of wallet 1. -/
def ringOfOne (ofAdversary : Set LatticePublicKey) : Keyring Unit :=
  ⟨fun _ => (endpoint 1).keys, ofAdversary⟩

/-- The socket of the other side. -/
def loopback : SocketAddr := .v4 ⟨127, 0, 0, 1⟩ 9000

theorem Network.reachable_endpoint (seed seed' noiseHash nonce nonce' : Hash) {K : Keyring Unit}
    {n : Network Unit Unit} (hn : Relation.ReflTransGen (Step inscribing K) empty n)
    (hs : n.sessions.lookup () = none) (hkeys : (endpoint seed).keys = K.keys ())
    {p : Principal Unit}
    (hp : (p, (endpoint seed').keys.pub,
        exchanged inscribing (endpoint seed) (endpoint seed') noiseHash nonce nonce')
      ∈ n.signed ++ [(.party (), (endpoint seed).keys.pub,
        exchanged inscribing (endpoint seed) (endpoint seed') noiseHash nonce nonce')]) :
    ∃ sig ack info, Relation.ReflTransGen (Step inscribing K) empty
      ⟨n.sessions.insert () ⟨(), endpoint seed, noiseHash,
        initiatorTrace inscribing (endpoint seed) (endpoint seed') noiseHash nonce nonce' loopback
          sig ack, .ret (.ok info)⟩,
        n.signed ++ [(.party (), (endpoint seed).keys.pub,
          exchanged inscribing (endpoint seed) (endpoint seed') noiseHash nonce nonce')]⟩ := by
  have hlen := length_exchanged inscribing (endpoint seed) (endpoint seed') noiseHash nonce nonce'
  have hsocket : rejectSocket loopback (endpoint seed) = .ok () := rfl
  have hquote : verifyAttestation inscribing (endpoint seed').attestation (endpoint seed').keys.pub
      (endpoint seed).minAuthenticity = .ok () := verifyAttestation_endpoint seed'
  have hsign := inscribing_sign seed hlen
  have hsig := length_inscribed (readable_endpoint seed).key hlen
  have hack := inscribing_verify (readable_endpoint seed').key hlen
  obtain ⟨info, h⟩ := reachable_initiator hn hs hkeys rfl hsocket (readable_endpoint seed)
    (readable_endpoint seed') hquote hsign hsig hack (unforged_ack hack hp)
  exact ⟨_, _, info, h⟩

end Endpoints

/-! ## Whom a session authenticates -/

namespace Network

open StandIn

section

variable {σ ι : Type*} [DecidableEq σ] {P} {K : Keyring ι} {n : Network σ ι} {c : Session ι}

/-- Whenever a session returns, its transcript was signed by somebody else who holds the key of the
peer if the key that it was shown is not its own; and only if, when nobody else holds that one. -/
theorem authentic_iff (hn : Relation.ReflTransGen (Step P K) empty n) {s : σ} {info : PeerInfo}
    (hs : n.sessions.lookup s = some c) (hret : c.code = .ret (.ok info)) :
    ∃ hello transcript, helloShown P c.trace = some hello
      ∧ sessionTranscript P c.cfg c.noiseHash c.trace = some transcript
      ∧ (hello.pk ≠ c.cfg.keys.pub →
        n.SignedByOther K c.party info.peer.publicKey transcript)
      ∧ ((∀ p, K.Holds p c.cfg.keys.pub → p = .party c.party) →
        (n.SignedByOther K c.party info.peer.publicKey transcript ↔
          hello.pk ≠ c.cfg.keys.pub)) := by
  have hsound := sound_of_reachable hn
  obtain ⟨hello, transcript, p, hhello, htranscript, hpk, hholds, hsigned⟩ := hsound.signer hs hret
  have hother : hello.pk ≠ c.cfg.keys.pub →
      n.SignedByOther K c.party info.peer.publicKey transcript := by
    intro hne
    rw [hpk]
    refine ⟨p, ?_, hholds, hsigned⟩
    rintro rfl
    exact hne (hholds.trans (congrArg _ (hsound.kept s c hs).keys).symm)
  refine ⟨hello, transcript, hhello, htranscript, hother, fun hown => ⟨?_, hother⟩⟩
  rintro ⟨q, hq, hqholds, -⟩ heq
  rw [hpk, heq] at hqholds
  exact hq (hown q hqholds)

end

/-- The adversary holds the key of wallet 2, and signs what the initiator will. -/
theorem authentic_iff_adversary : ∃ (n : Network Unit Unit) (c : Session Unit) (info : PeerInfo)
    (transcript : Bytes),
    Relation.ReflTransGen (Step inscribing (ringOfOne {(endpoint 2).keys.pub})) empty n
      ∧ n.sessions.lookup () = some c ∧ c.code = .ret (.ok info)
      ∧ sessionTranscript inscribing c.cfg c.noiseHash c.trace = some transcript
      ∧ n.SignedByOther (ringOfOne {(endpoint 2).keys.pub}) c.party info.peer.publicKey
        transcript := by
  have hsign : Step (ι := Unit) (σ := Unit) inscribing (ringOfOne {(endpoint 2).keys.pub}) empty
      ⟨∅, [] ++ [(.adversary, (endpoint 2).keys.pub,
        exchanged inscribing (endpoint 1) (endpoint 2) 0 5 7)]⟩ :=
    .sign (p := .adversary) _ (Set.mem_singleton _)
  obtain ⟨sig, ack, info, hn⟩ := reachable_endpoint 1 2 0 5 7 (.single hsign) rfl rfl
    (List.mem_append_left _ (List.mem_singleton_self _))
  obtain ⟨hello, transcript, hhello, htranscript, hother, -⟩ :=
    authentic_iff hn (AList.lookup_insert _) rfl
  refine ⟨_, _, info, transcript, hn, AList.lookup_insert _, rfl, htranscript, hother ?_⟩
  rw [helloShown_initiatorTrace (readable_endpoint 2)] at hhello
  cases hhello
  intro heq
  have haddress : addressOf 2 = addressOf 1 := by
    rw [← inscribing_address, ← inscribing_address]
    exact congrArg (LatticePublicKey.address inscribing) heq
  exact absurd haddress (by decide)

/-- Shown its own HELLO and its own AUTH, an initiator returns, and only it has signed. -/
theorem not_authentic : ¬ ∀ (n : Network Unit Unit) (s : Unit) (c : Session Unit) (info : PeerInfo),
    Relation.ReflTransGen (Step inscribing (ringOfOne ∅)) empty n →
      n.sessions.lookup s = some c → c.code = .ret (.ok info) →
      ∃ transcript, sessionTranscript inscribing c.cfg c.noiseHash c.trace = some transcript
        ∧ n.SignedByOther (ringOfOne ∅) c.party info.peer.publicKey transcript := by
  intro h
  obtain ⟨sig, ack, info, hn⟩ := reachable_endpoint 1 1 0 5 5 (K := ringOfOne ∅) .refl rfl rfl
    (List.mem_append_right _ (List.mem_singleton_self _))
  obtain ⟨transcript, -, q, hq, hholds, -⟩ := h _ () _ info hn (AList.lookup_insert _) rfl
  cases q with
  | party i => exact hq rfl
  | adversary => exact hholds

end Network

end KronMesh.Handshake
