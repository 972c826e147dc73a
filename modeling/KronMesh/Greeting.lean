import KronMesh.Authentic
import KronMesh.Lib.Talk

/-!
# Two ends of a handshake

An initiator and a responder run the handshake over one session. In whichever order they take their
turns, both come to an end, and they agree: each accepts the other, with what the other's own
configuration says, when each takes the socket and the quote of the other; else neither does
(`greeting_agree`).
-/

namespace KronMesh.Handshake

open Relation Wire Duplex Dialog

variable (P : Primitives) (eof : SessionError) (noiseHash : Hash)

/-! ## The two ends -/

/-- One end: its configuration, the address of the other end, and the nonce that it draws. -/
structure Side where
  cfg : HandshakeConfig
  addr : SocketAddr
  nonce : Hash

/-- What a session asks, at this end; `eof` is the error of a read when the other end has closed. -/
def Side.answer (s : Side) : ∀ q, Answer Bytes (Reply q)
  | .peerAddr => .here (.ok s.addr)
  | .fillNonce => .here s.nonce
  | .writePlain plaintext => .send plaintext (.ok ())
  | .readPlain => .recv fun m => m.elim (.error eof) .ok
  | .sign message => .here (s.cfg.keys.secret.sign P message)

/-- The handshake at this end. -/
def Side.start (s : Side) : Talk Bytes (Except (Fault SessionError) PeerInfo) :=
  talk (s.answer P eof) (performSecureHandshake P s.cfg noiseHash)

/-- Both ends before the handshake. -/
def greeting (s r : Side) :
    Config (Talk Bytes (Except (Fault SessionError) PeerInfo)) (Option Bytes) :=
  ⟨s.start P eof noiseHash, r.start P eof noiseHash, [], []⟩

/-- The end takes the other's socket and quote. -/
def Side.Admits (s : Side) (other : HandshakeConfig) : Prop :=
  rejectSocket s.addr s.cfg = .ok ()
    ∧ verifyAttestation P other.attestation other.keys.pub s.cfg.minAuthenticity = .ok ()

/-- The end comes out of the handshake with what the other is. -/
def Side.Accepts (s : Side) (other : HandshakeConfig)
    (t : Talk Bytes (Except (Fault SessionError) PeerInfo)) : Prop :=
  ∃ score, verifyHardwareAuthenticity P other.attestation = .ok score
    ∧ t = .stop (.ok (infoFrom P other.keys.pub other.role other.deviceClass s.addr score))

/-- The end comes out of it with an error. -/
def Refuses (t : Talk Bytes (Except (Fault SessionError) PeerInfo)) : Prop :=
  ∃ e, t = .stop (.error e)

/-! ## What a question comes to -/

section Questions

variable {P eof} {s : Side} {kind : UInt8} {payload : Bytes} {ins outs : List (Option Bytes)}
  {t : Talk Bytes (Except (Fault SessionError) PeerInfo)}

theorem talks_peerAddr {f : SocketAddr → Code PeerInfo}
    (hrest : Talks (s.answer P eof) (f s.addr) ins outs t) :
    Talks (s.answer P eof) (peerAddr >>= f) ins outs t := talks_here rfl hrest

theorem talks_fillNonce {f : Hash → Code PeerInfo}
    (hrest : Talks (s.answer P eof) (f s.nonce) ins outs t) :
    Talks (s.answer P eof) (fillNonce >>= f) ins outs t := talks_here rfl hrest

theorem talks_sign {message : Bytes} {sig : LatticeSignature} {f : LatticeSignature → Code PeerInfo}
    (h : s.cfg.keys.secret.sign P message = .ok sig)
    (hrest : Talks (s.answer P eof) (f sig) ins outs t) :
    Talks (s.answer P eof) (sign message >>= f) ins outs t := by
  refine talks_here (q := Query.sign message) rfl ?_
  have hreply : Talks (s.answer P eof) (Dialog.lift
      ((s.cfg.keys.secret.sign P message).mapError fun e => .err (.crypto e)) >>= f) ins outs t :=
    talks_lift (by rw [h]; rfl) hrest
  exact hreply

theorem talks_writeFrame {f : Unit → Code PeerInfo} (h : payload.length ≤ maxFrame)
    (hrest : Talks (s.answer P eof) (f ()) ins outs t) :
    Talks (s.answer P eof) (writeFrame kind payload >>= f) ins
      (some (frameBytes kind payload) :: outs) t := by
  rw [writeFrame, rejectIf_of_not (not_lt_of_ge h)]
  exact talks_send rfl hrest

theorem talks_readFrame {f : UInt8 × Bytes → Code PeerInfo} (h : payload.length ≤ maxFrame)
    (hrest : Talks (s.answer P eof) (f (kind, payload)) ins outs t) :
    Talks (s.answer P eof) (readFrame >>= f) (some (frameBytes kind payload) :: ins) outs t := by
  have hread : Talks (s.answer P eof) (Dialog.lift (decodeFrame (frameBytes kind payload)) >>= f)
      ins outs t := talks_lift (decodeFrame_frameBytes h) hrest
  exact talks_recv rfl hread

/-- The other end has closed. -/
theorem talks_closed (f : UInt8 × Bytes → Code PeerInfo) :
    Talks (s.answer P eof) (readFrame >>= f) [none] [none] (.stop (.error (.err eof))) :=
  .read rfl (.write rfl (.refl _))

theorem length_code (code : UInt8) : [code].length ≤ maxFrame := by
  change 1 ≤ maxFrame
  decide

theorem talks_rejectWith (code : UInt8) (e : SessionError) :
    Talks (s.answer P eof) (rejectWith code e : Code PeerInfo) []
      [some (frameBytes kindReject [code]), none] (.stop (.error (.err e))) := by
  rw [rejectWith, writeFrame, rejectIf_of_not (not_lt_of_ge (length_code code))]
  exact .write rfl (.write rfl (.refl _))

end Questions

/-! ## What each end does -/

section Ends

variable {P eof noiseHash} {s r : Side}

/-- A socket that is not taken. -/
theorem start_refused {e : Fault SessionError} (h : rejectSocket s.addr s.cfg = .error e) :
    Moves talkAct (s.start P eof noiseHash) [] [none] (.stop (.error e)) := by
  unfold Side.start performSecureHandshake
  exact talks_peerAddr (talks_error h)

theorem start_of_socket (h : rejectSocket s.addr s.cfg = .ok ()) :
    s.start P eof noiseHash = talk (s.answer P eof)
      (if s.cfg.initiator then initiatorFlow P s.cfg noiseHash
        else responderFlow P s.cfg noiseHash) := by
  change talk (s.answer P eof) (Dialog.lift (rejectSocket s.addr s.cfg) >>= fun _ => _) = _
  rw [h]
  rfl

/-- An initiator that has sent its HELLO takes a CHALLENGE with a quote that holds, and then the
signature of who showed it. -/
theorem initiator_moves (hi : s.cfg.initiator = true)
    (hsocket : rejectSocket s.addr s.cfg = .ok ()) (hs : s.cfg.Readable P)
    (hr : r.cfg.Readable P) :
    ∃ t, Moves talkAct (s.start P eof noiseHash) []
        [some (frameBytes kindHello (encodeHello s.cfg s.nonce))] t
      ∧ Moves talkAct t [none] [none] (.stop (.error (.err eof)))
      ∧ (∃ e, Moves talkAct t [some (frameBytes kindReject [2])] [none] (.stop (.error e)))
      ∧ (∀ e, verifyAttestation P r.cfg.attestation r.cfg.keys.pub s.cfg.minAuthenticity
            = .error e →
          Moves talkAct t [some (frameBytes kindChallenge (encodeChallenge r.cfg r.nonce))] [none]
            (.stop (.error e)))
      ∧ (verifyAttestation P r.cfg.attestation r.cfg.keys.pub s.cfg.minAuthenticity = .ok () →
          ∀ {sig ack : LatticeSignature},
          s.cfg.keys.secret.sign P (exchanged P s.cfg r.cfg noiseHash s.nonce r.nonce) = .ok sig →
          sig.bytes.length = sigLen →
          r.cfg.keys.pub.verify P (exchanged P s.cfg r.cfg noiseHash s.nonce r.nonce) ack = true →
          ∃ t' t'', Moves talkAct t
              [some (frameBytes kindChallenge (encodeChallenge r.cfg r.nonce))]
              [some (frameBytes kindAuth sig.toBytes)] t'
            ∧ Moves talkAct t' [some (frameBytes kindAck ack.toBytes)] [] t''
            ∧ s.Accepts P r.cfg t'') := by
  have hch : decodeChallenge P (encodeChallenge r.cfg r.nonce)
      = .ok ⟨r.cfg.role, r.cfg.deviceClass, r.cfg.keys.pub, r.cfg.attestation, r.nonce⟩ := by
    rw [decodeChallenge, encodeChallenge, decodeHello_encodeHello hr]
    rfl
  rw [start_of_socket hsocket, if_pos hi]
  unfold initiatorFlow
  refine ⟨_, talks_fillNonce (talks_writeFrame (length_encodeHello hs s.nonce) (.refl _)),
    talks_closed _, ⟨_, talks_readFrame (length_code 2) (talks_error rfl)⟩, fun e he => ?_,
    fun hquote sig ack hsign hsig hack => ?_⟩
  · refine talks_readFrame (length_encodeHello hr r.nonce) ?_
    refine talks_lift (rejectIf_of_not (by decide)) ?_
    refine talks_lift (rejectIf_of_not (by decide)) ?_
    exact talks_lift hch (talks_error he)
  · obtain ⟨score, hscore⟩ := exists_score_of_verifyAttestation hquote
    have hacklen := (LatticePublicKey.verify_facts hack).2.2
    have hnot : ¬ kindChallenge = kindReject := by decide
    refine ⟨_, _, talks_readFrame (length_encodeHello hr r.nonce) (talks_lift (rejectIf_of_not hnot)
      (talks_lift (rejectIf_of_not (not_not_intro rfl)) (talks_lift hch (talks_lift hquote
        (talks_sign hsign (talks_writeFrame (length_toBytes_le hsig) (.refl _))))))), ?_, score,
      hscore, rfl⟩
    refine talks_readFrame (length_toBytes_le hacklen) ?_
    refine talks_lift (rejectIf_of_not (not_not_intro rfl)) ?_
    refine talks_lift (mapFault_eq_ok.2 (LatticeSignature.fromBytes_toBytes hacklen)) ?_
    refine talks_lift (rejectIf_of_not (ne_false_of_eq_true hack)) ?_
    exact talks_lift (mapFault_eq_ok.2 hscore) (talks_peerAddr talks_ok)

/-- A responder that nothing is sent to. -/
theorem responder_closed (hi : r.cfg.initiator = false)
    (hsocket : rejectSocket r.addr r.cfg = .ok ()) :
    Moves talkAct (r.start P eof noiseHash) [none] [none] (.stop (.error (.err eof))) := by
  rw [start_of_socket hsocket, if_neg (Bool.eq_false_iff.1 hi)]
  exact talks_closed _

/-- A responder says what is wrong with a HELLO, or just closes. -/
theorem responder_refuses (hi : r.cfg.initiator = false)
    (hsocket : rejectSocket r.addr r.cfg = .ok ()) (hs : s.cfg.Readable P) {e : Fault SessionError}
    (hquote : verifyAttestation P s.cfg.attestation s.cfg.keys.pub r.cfg.minAuthenticity
      = .error e) :
    ∃ outs, (outs = [some (frameBytes kindReject [2]), none] ∨ outs = [none])
      ∧ Moves talkAct (r.start P eof noiseHash)
        [some (frameBytes kindHello (encodeHello s.cfg s.nonce))] outs (.stop (.error e)) := by
  have hhello := decodeHello_encodeHello hs s.nonce
  rw [start_of_socket hsocket, if_neg (Bool.eq_false_iff.1 hi)]
  unfold responderFlow
  rcases e with e | _
  · refine ⟨_, .inl rfl, talks_readFrame (length_encodeHello hs s.nonce) ?_⟩
    dsimp only
    rw [if_neg (not_not_intro rfl)]
    refine talks_lift hhello ?_
    rw [hquote]
    exact talks_rejectWith 2 e
  · refine ⟨_, .inr rfl, talks_readFrame (length_encodeHello hs s.nonce) ?_⟩
    dsimp only
    rw [if_neg (not_not_intro rfl)]
    refine talks_lift hhello ?_
    rw [hquote]
    exact .write rfl (.refl _)

/-- What a responder does behind a HELLO with a quote that holds. -/
theorem responder_takes (hi : r.cfg.initiator = false)
    (hsocket : rejectSocket r.addr r.cfg = .ok ()) (hs : s.cfg.Readable P)
    (hquote : verifyAttestation P s.cfg.attestation s.cfg.keys.pub r.cfg.minAuthenticity = .ok ())
    {ins outs : List (Option Bytes)} {t : Talk Bytes (Except (Fault SessionError) PeerInfo)}
    (hrest : Talks (r.answer P eof) (answerHello P r.cfg noiseHash
      ⟨s.cfg.role, s.cfg.deviceClass, s.cfg.keys.pub, s.cfg.attestation, s.nonce⟩) ins outs t) :
    Moves talkAct (r.start P eof noiseHash)
      (some (frameBytes kindHello (encodeHello s.cfg s.nonce)) :: ins) outs t := by
  rw [start_of_socket hsocket, if_neg (Bool.eq_false_iff.1 hi)]
  unfold responderFlow
  refine talks_readFrame (length_encodeHello hs s.nonce) ?_
  dsimp only
  rw [if_neg (not_not_intro rfl)]
  refine talks_lift (decodeHello_encodeHello hs s.nonce) ?_
  rw [hquote]
  exact hrest

/-- A responder that has sent its CHALLENGE takes the signature of who sent the HELLO. -/
theorem responder_moves (hi : r.cfg.initiator = false)
    (hsocket : rejectSocket r.addr r.cfg = .ok ()) (hs : s.cfg.Readable P) (hr : r.cfg.Readable P)
    (hquote : verifyAttestation P s.cfg.attestation s.cfg.keys.pub r.cfg.minAuthenticity
      = .ok ()) :
    ∃ t, Moves talkAct (r.start P eof noiseHash)
        [some (frameBytes kindHello (encodeHello s.cfg s.nonce))]
        [some (frameBytes kindChallenge (encodeChallenge r.cfg r.nonce))] t
      ∧ Moves talkAct t [none] [none] (.stop (.error (.err eof)))
      ∧ ∀ {sig ack : LatticeSignature},
        r.cfg.keys.secret.sign P (exchanged P s.cfg r.cfg noiseHash s.nonce r.nonce) = .ok ack →
        ack.bytes.length = sigLen →
        s.cfg.keys.pub.verify P (exchanged P s.cfg r.cfg noiseHash s.nonce r.nonce) sig = true →
        ∃ t', Moves talkAct t [some (frameBytes kindAuth sig.toBytes)]
            [some (frameBytes kindAck ack.toBytes)] t'
          ∧ r.Accepts P s.cfg t' := by
  obtain ⟨score, hscore⟩ := exists_score_of_verifyAttestation hquote
  refine ⟨_, responder_takes hi hsocket hs hquote (talks_fillNonce
    (talks_writeFrame (length_encodeHello hr r.nonce) (.refl _))), talks_closed _,
    fun {sig ack} hsign hack hsig => ?_⟩
  have hsiglen := (LatticePublicKey.verify_facts hsig).2.2
  refine ⟨_, talks_readFrame (length_toBytes_le hsiglen) ?_, score, hscore, rfl⟩
  unfold exchanged at hsign hsig
  dsimp only
  rw [if_neg (not_not_intro rfl)]
  refine talks_lift (mapFault_eq_ok.2 (LatticeSignature.fromBytes_toBytes hsiglen)) ?_
  rw [if_neg (ne_false_of_eq_true hsig)]
  refine talks_sign hsign (talks_writeFrame (length_toBytes_le hack) ?_)
  exact talks_lift (mapFault_eq_ok.2 hscore) (talks_peerAddr talks_ok)

end Ends

/-! ## Both ends -/

section Both

variable {P} {s r : Side}

/-- A key that signs, signs what both ends sign. -/
theorem signs_exchanged {w : LatticeKeyPair} (hw : w.Signs P) (message : Bytes) :
    ∃ sig, w.secret.sign P message = .ok sig ∧ sig.bytes.length = sigLen
      ∧ w.pub.verify P message sig = true := by
  obtain ⟨sig, hsig⟩ := hw.signs message
  have hverify := hw.verifies message sig hsig
  exact ⟨sig, hsig, (LatticePublicKey.verify_facts hverify).2.2, hverify⟩

/-- When one of the ends does not take the other, both come to an error. -/
theorem greeting_refused (eof : SessionError) (noiseHash : Hash) (hi : s.cfg.initiator = true)
    (hi' : r.cfg.initiator = false) (hs : s.cfg.Readable P) (hr : r.cfg.Readable P)
    (hno : ¬ (s.Admits P r.cfg ∧ r.Admits P s.cfg)) :
    ∃ e e' toLeft toRight, ReflTransGen (Duplex.Step talkAct) (greeting P eof noiseHash s r)
      ⟨.stop (.error e), .stop (.error e'), toLeft, toRight⟩ := by
  rcases hsocket : rejectSocket s.addr s.cfg with e | ⟨⟨⟩⟩
  · have hclose : Moves talkAct (s.start P eof noiseHash) _ _ _ := start_refused hsocket
    rcases hsocket' : rejectSocket r.addr r.cfg with e' | ⟨⟨⟩⟩
    · exact ⟨_, _, _, _, hclose.left_turn.trans
        ((start_refused hsocket').right_steps [] [none]).reaches⟩
    · exact ⟨_, _, _, _, hclose.left_turn.trans (responder_closed hi' hsocket').right_turn⟩
  obtain ⟨l, hhello, hclosed, ⟨_, hrejected⟩, hrefuses, -⟩ :=
    @initiator_moves P eof noiseHash s r hi hsocket hs hr
  rcases hsocket' : rejectSocket r.addr r.cfg with e' | ⟨⟨⟩⟩
  · exact ⟨_, _, _, _, hhello.left_turn.trans
      ((((start_refused hsocket').right_steps [] [_]).reaches).trans
        (hclosed.left_steps [] [_]).reaches)⟩
  rcases hquote' : verifyAttestation P s.cfg.attestation s.cfg.keys.pub r.cfg.minAuthenticity
    with e' | ⟨⟨⟩⟩
  · obtain ⟨outs, rfl | rfl, hanswer⟩ := responder_refuses hi' hsocket' hs hquote'
    · exact ⟨_, _, _, _, hhello.left_turn.trans (hanswer.right_turn.trans
        (hrejected.left_steps [none] []).reaches)⟩
    · exact ⟨_, _, _, _, hhello.left_turn.trans (hanswer.right_turn.trans hclosed.left_turn)⟩
  obtain ⟨r₁, hchallenge, hclosed', -⟩ := responder_moves hi' hsocket' hs hr hquote'
  rcases hquote : verifyAttestation P r.cfg.attestation r.cfg.keys.pub s.cfg.minAuthenticity
    with e | ⟨⟨⟩⟩
  · exact ⟨_, _, _, _, hhello.left_turn.trans (hchallenge.right_turn.trans
      ((hrefuses e hquote).left_turn.trans hclosed'.right_turn))⟩
  · exact absurd ⟨⟨hsocket, hquote⟩, hsocket', hquote'⟩ hno

/-- In every order of their turns an initiator and a responder come to one end, after as many turns,
and agree: when each takes the socket and the quote of the other, each accepts the other and nothing
is left under way; else both refuse. -/
theorem greeting_agree (eof : SessionError) (noiseHash : Hash) (hi : s.cfg.initiator = true)
    (hi' : r.cfg.initiator = false) (hs : s.cfg.Readable P) (hr : r.cfg.Readable P)
    (hw : s.cfg.keys.Signs P) (hw' : r.cfg.keys.Signs P) :
    ∃ f, Ends talkAct (greeting P eof noiseHash s r) f
      ∧ (s.Admits P r.cfg ∧ r.Admits P s.cfg → s.Accepts P r.cfg f.left ∧ r.Accepts P s.cfg f.right
          ∧ f.toLeft = [] ∧ f.toRight = [])
      ∧ (¬ (s.Admits P r.cfg ∧ r.Admits P s.cfg) → Refuses f.left ∧ Refuses f.right) := by
  by_cases hboth : s.Admits P r.cfg ∧ r.Admits P s.cfg
  · obtain ⟨⟨hsocket, hquote⟩, hsocket', hquote'⟩ := id hboth
    obtain ⟨sig, hsign, hsig, hverify⟩ :=
      signs_exchanged hw (exchanged P s.cfg r.cfg noiseHash s.nonce r.nonce)
    obtain ⟨ack, hsign', hack, hverify'⟩ :=
      signs_exchanged hw' (exchanged P s.cfg r.cfg noiseHash s.nonce r.nonce)
    obtain ⟨l₁, hhello, -, -, -, htakes⟩ := @initiator_moves P eof noiseHash s r hi hsocket hs hr
    obtain ⟨l₂, _, hauth, hdone, score, hscore, rfl⟩ := htakes hquote hsign hsig hverify'
    obtain ⟨r₁, hchallenge, -, htakes'⟩ :=
      @responder_moves P eof noiseHash s r hi' hsocket' hs hr hquote'
    obtain ⟨_, hacked, score', hscore', rfl⟩ := htakes' hsign' hack hverify
    have hreach := hhello.left_turn.trans (hchallenge.right_turn.trans (hauth.left_turn.trans
      (hacked.right_turn.trans hdone.left_turn)))
    exact ⟨_, ends_of_reaches hreach (not_step_of_stop rfl rfl),
      fun _ => ⟨⟨score, hscore, rfl⟩, ⟨score', hscore', rfl⟩, rfl, rfl⟩,
      fun hno => absurd hboth hno⟩
  · obtain ⟨e, e', toLeft, toRight, hreach⟩ := greeting_refused eof noiseHash hi hi' hs hr hboth
    exact ⟨_, ends_of_reaches hreach (not_step_of_stop rfl rfl), fun h => absurd h hboth,
      fun _ => ⟨⟨e, rfl⟩, e', rfl⟩⟩

section

open StandIn

/-- The end of wallet 1, which calls, and that of wallet 2. -/
def caller : Side := ⟨endpoint 1, loopback, 77⟩

def callee : Side := ⟨{ endpoint 2 with initiator := false }, loopback, 78⟩

theorem admits_endpoint {s : Side} (hsocket : rejectSocket s.addr s.cfg = .ok ())
    (hmin : s.cfg.minAuthenticity = 400) {cfg : HandshakeConfig} {seed : Hash}
    (hquote : cfg.attestation = (endpoint seed).attestation)
    (hkeys : cfg.keys = (endpoint seed).keys) : s.Admits primitives cfg := by
  refine ⟨hsocket, ?_⟩
  rw [hmin, hquote, hkeys]
  exact verifyAttestation_endpoint seed

/-- The two wallets accept each other. -/
theorem greeting_agree_wallets : ∃ f,
    Ends talkAct (greeting primitives (.io "failed to fill whole buffer") 5 caller callee) f
      ∧ caller.Accepts primitives callee.cfg f.left
      ∧ callee.Accepts primitives caller.cfg f.right := by
  have hcaller : caller.cfg.Readable primitives := { readable_endpoint 1 with keyOk := rfl }
  have hcallee : callee.cfg.Readable primitives := { readable_endpoint 2 with keyOk := rfl }
  obtain ⟨f, hends, haccept, -⟩ := greeting_agree (.io "failed to fill whole buffer") 5 rfl rfl
    hcaller hcallee (signs_fromSeed 1) (signs_fromSeed 2)
  obtain ⟨hl, hr, -⟩ := haccept ⟨admits_endpoint rfl rfl rfl rfl, admits_endpoint rfl rfl rfl rfl⟩
  exact ⟨f, hends, hl, hr⟩

end

end Both

end KronMesh.Handshake
