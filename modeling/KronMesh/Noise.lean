import KronMesh.Handshake

/-!
# Frames inside a Noise session

A frame is cut into chunks, each chunk is one Noise message, and a Noise message is a record behind
its length. Each layer has limits of its own on both sides. What one side writes the other reads, in
order (`readFrames_writeFrames`), and a payload longer than a frame may be is refused before a byte
goes out. `snow` is not part of the repository; what the code calls of it is a `Transport`.
-/

namespace KronMesh.Noise

open Wire Handshake

/-- Noise messages are capped at 65535 including the AEAD tag. -/
def noisePlainChunk : ℕ := 65000

/-- What is called of a `TransportState`: it is given a message and the room for what it makes of
it, and is left in another state. -/
structure Transport (σ : Type) where
  writeMessage : σ → Bytes → ℕ → Option (Bytes × σ)
  readMessage : σ → Bytes → ℕ → Option (Bytes × σ)

/-- The longest plaintext of a Noise message. -/
def maxPlain : ℕ := 65519

/-- Between transports that `R` joins, what one writes the other reads, one message after another. A
message is longer than its plaintext by the tag of 16 bytes. -/
structure Transport.Inverts {σ : Type} (T : Transport σ) (R : σ → σ → Prop) : Prop where
  inverts : ∀ {s r}, R s r → ∀ {plain : Bytes}, plain.length ≤ maxPlain →
    ∀ room, plain.length + 16 ≤ room → ∃ cipher s' r',
      T.writeMessage s plain room = some (cipher, s')
      ∧ cipher.length = plain.length + 16
      ∧ T.readMessage r cipher cipher.length = some (plain, r') ∧ R s' r'

/-- A session: what it has sent, what has come in and is not read yet, and its transport. -/
structure NoiseSession (σ : Type) where
  sent : Bytes
  incoming : Bytes
  transport : σ

/-- What is done with a `&mut NoiseSession`. -/
abbrev SessionM (σ : Type) := EStateM (Fault SessionError) (NoiseSession σ)

section Session

variable {σ : Type}

/-- `if c { return Err(e) }`. -/
def failIf (c : Prop) [Decidable c] (e : SessionError) : SessionM σ Unit :=
  if c then throw (.err e) else pure ()

def liftResult {β : Type} : Except (Fault SessionError) β → SessionM σ β
  | .ok b => pure b
  | .error e => throw e

def writeAll (data : Bytes) : SessionM σ Unit :=
  modify fun s => { s with sent := s.sent ++ data }

def readExact (n : ℕ) : SessionM σ Bytes := fun s =>
  if n ≤ s.incoming.length then
    .ok (s.incoming.take n) { s with incoming := s.incoming.drop n }
  else .error (.err (.io "failed to fill whole buffer")) { s with incoming := [] }

def writeRaw (data : Bytes) : SessionM σ Unit := do
  failIf (70000 < data.length) badFrame
  writeAll (leBytes 4 (data.length % 2 ^ 32))
  writeAll data

def readRaw : SessionM σ Bytes := do
  let hdr ← readExact 4
  let n := leNat hdr
  failIf (70000 < n) badFrame
  readExact n

/-- `slice::chunks`; every chunk takes a byte at least, so the length bounds the chunks. -/
def chunksLoop (n : ℕ) : ℕ → Bytes → List Bytes
  | 0, _ => []
  | _ + 1, [] => []
  | fuel + 1, b :: bs => (b :: bs).take n :: chunksLoop n fuel ((b :: bs).drop n)

def chunks (n : ℕ) (bytes : Bytes) : List Bytes := chunksLoop n bytes.length bytes

variable (T : Transport σ)

def encrypt (plain : Bytes) : SessionM σ Bytes := fun s =>
  match T.writeMessage s.transport plain (plain.length + 16) with
  | some (out, t) => .ok out { s with transport := t }
  | none => .error (.err (refused "noise encrypt")) s

def decrypt (cipher : Bytes) : SessionM σ Bytes := fun s =>
  match T.readMessage s.transport cipher cipher.length with
  | some (out, t) => .ok out { s with transport := t }
  | none => .error (.err (refused "noise decrypt")) s

def writeChunks : List Bytes → SessionM σ Unit
  | [] => pure ()
  | chunk :: rest => do
    let out ← encrypt T chunk
    writeRaw out
    writeChunks rest

def writePlain (plaintext : Bytes) : SessionM σ Unit := do
  let chunks := chunks noisePlainChunk plaintext
  writeRaw (leBytes 4 (chunks.length % 2 ^ 32))
  writeChunks T chunks

/-- `n` chunks put behind `plain`. -/
def readChunks : ℕ → Bytes → SessionM σ Bytes
  | 0, plain => pure plain
  | n + 1, plain => do
    let cipher ← readRaw
    let out ← decrypt T cipher
    let plain := plain ++ out
    failIf (maxFrame + 10 < plain.length) badFrame
    readChunks n plain

def readPlain : SessionM σ Bytes := do
  let hdr ← readRaw
  failIf (hdr.length ≠ 4) badFrame
  let nchunks := leNat hdr
  failIf (nchunks = 0 ∨ 16 < nchunks) badFrame
  readChunks T nchunks []

def writeFrame (kind : UInt8) (payload : Bytes) : SessionM σ Unit := do
  failIf (maxFrame < payload.length) badFrame
  writePlain T (frameBytes kind payload)

def readFrame : SessionM σ (UInt8 × Bytes) := do
  let inner ← readPlain T
  liftResult (decodeFrame inner)

/-- One frame after another. -/
def writeFrames : List (UInt8 × Bytes) → SessionM σ Unit
  | [] => pure ()
  | (kind, payload) :: rest => do
    writeFrame T kind payload
    writeFrames rest

/-- As many frames as that, one after another. -/
def readFrames : ℕ → SessionM σ (List (UInt8 × Bytes))
  | 0 => pure []
  | n + 1 => do
    let frame ← readFrame T
    let rest ← readFrames n
    return frame :: rest

end Session

/-! ## What is written is read -/

section Transfer

variable {σ β γ : Type} {t t₁ t₂ : σ} {x y : SessionM σ Unit} {bytes bytes₁ bytes₂ : Bytes}

/-- From the transport `t` on, `x` sends these bytes and leaves `t'`. -/
def Writes (x : SessionM σ Unit) (t : σ) (bytes : Bytes) (t' : σ) : Prop :=
  ∀ sent incoming, x ⟨sent, incoming, t⟩ = .ok () ⟨sent ++ bytes, incoming, t'⟩

/-- From the transport `t` on, `x` takes these bytes off what has come in, returns `b` and leaves
`t'`. -/
def Reads (x : SessionM σ β) (t : σ) (bytes : Bytes) (b : β) (t' : σ) : Prop :=
  ∀ sent rest, x ⟨sent, bytes ++ rest, t⟩ = .ok b ⟨sent, rest, t'⟩

theorem run_bind {x : SessionM σ β} {f : β → SessionM σ γ} {s s' : NoiseSession σ} {b : β}
    (h : x s = .ok b s') : (x >>= f) s = f b s' := by
  change EStateM.bind x f s = _
  unfold EStateM.bind
  rw [h]

theorem Writes.pure : Writes (Pure.pure ()) t [] t := fun sent _ => by
  rw [List.append_nil]
  rfl

theorem Writes.seq {f : Unit → SessionM σ Unit} (hx : Writes x t bytes₁ t₁)
    (hf : Writes (f ()) t₁ bytes₂ t₂) : Writes (x >>= f) t (bytes₁ ++ bytes₂) t₂ := by
  intro sent incoming
  rw [run_bind (hx sent incoming), hf, List.append_assoc]

theorem Writes.failIf {c : Prop} [Decidable c] {e : SessionError} {f : Unit → SessionM σ Unit}
    (hc : ¬ c) (hf : Writes (f ()) t bytes t₁) : Writes (Noise.failIf c e >>= f) t bytes t₁ := by
  unfold Noise.failIf
  rw [if_neg hc]
  exact Writes.pure.seq hf

theorem Reads.pure {b : β} : Reads (Pure.pure b) t [] b t := fun _ _ => rfl

theorem Reads.bind {x : SessionM σ β} {f : β → SessionM σ γ} {b : β} {c : γ}
    (hx : Reads x t bytes₁ b t₁) (hf : Reads (f b) t₁ bytes₂ c t₂) :
    Reads (x >>= f) t (bytes₁ ++ bytes₂) c t₂ := by
  intro sent rest
  rw [List.append_assoc, run_bind (hx sent (bytes₂ ++ rest)), hf]

theorem Reads.failIf {c : Prop} [Decidable c] {e : SessionError} {f : Unit → SessionM σ γ} {b : γ}
    (hc : ¬ c) (hf : Reads (f ()) t bytes b t₁) : Reads (Noise.failIf c e >>= f) t bytes b t₁ := by
  unfold Noise.failIf
  rw [if_neg hc]
  exact Reads.pure.bind hf

theorem reads_readExact (data : Bytes) (t : σ) : Reads (readExact data.length) t data data t := by
  intro sent rest
  have hle : data.length ≤ (data ++ rest).length := by
    rw [List.length_append]
    exact Nat.le_add_right _ _
  rw [readExact]
  simp only [hle, if_true, List.take_left, List.drop_left]

/-- A record on the wire. -/
def rawBytes (data : Bytes) : Bytes := leBytes 4 data.length ++ data

theorem writes_writeRaw {data : Bytes} (h : data.length ≤ 70000) (t : σ) :
    Writes (writeRaw data) t (rawBytes data) t := by
  have hmod : data.length % 2 ^ 32 = data.length := Nat.mod_eq_of_lt (by omega)
  have hall : ∀ data : Bytes, Writes (writeAll data) t data t := fun _ _ _ => rfl
  unfold writeRaw rawBytes
  rw [hmod]
  exact .failIf (by omega) ((hall _).seq (hall _))

theorem reads_readRaw {data : Bytes} (h : data.length ≤ 70000) (t : σ) :
    Reads readRaw t (rawBytes data) data t := by
  have hhdr := reads_readExact (leBytes 4 data.length) t
  rw [length_leBytes] at hhdr
  have hn : leNat (leBytes 4 data.length) = data.length := leNat_leBytes 4 _ (by omega)
  refine hhdr.bind ?_
  rw [hn]
  exact .failIf (by omega) (reads_readExact data t)

end Transfer

/-! ## Chunks -/

theorem chunksLoop_spec {n : ℕ} (hn : 0 < n) : ∀ (fuel : ℕ) (bytes : Bytes), bytes.length ≤ fuel →
    (chunksLoop n fuel bytes).flatten = bytes ∧ (∀ c ∈ chunksLoop n fuel bytes, c.length ≤ n)
      ∧ (chunksLoop n fuel bytes).length * n < bytes.length + n
      ∧ (bytes ≠ [] → chunksLoop n fuel bytes ≠ [])
  | 0, bytes, h => by
    obtain rfl := List.eq_nil_of_length_eq_zero (Nat.le_zero.1 h)
    exact ⟨rfl, nofun, by simpa [chunksLoop] using hn, fun h => absurd rfl h⟩
  | fuel + 1, [], _ => ⟨rfl, nofun, by simpa [chunksLoop] using hn, fun h => absurd rfl h⟩
  | fuel + 1, b :: bs, h => by
    have hdrop : ((b :: bs).drop n).length = (b :: bs).length - n := List.length_drop
    rw [List.length_cons] at h hdrop
    obtain ⟨hflat, hlen, hcount, -⟩ := chunksLoop_spec hn fuel ((b :: bs).drop n) (by omega)
    rw [chunksLoop]
    refine ⟨?_, ?_, ?_, fun _ => List.cons_ne_nil _ _⟩
    · rw [List.flatten_cons, hflat, List.take_append_drop]
    · rintro c (_ | ⟨_, hc⟩)
      · exact List.length_take_le n _
      · exact hlen c hc
    · rw [List.length_cons, List.length_cons, Nat.succ_mul]
      rw [hdrop] at hcount
      -- the last chunk may be short, and then nothing is behind it
      rcases Nat.lt_or_ge (bs.length + 1) n with hlt | hge
      · have h0 : (b :: bs).drop n = [] := List.drop_eq_nil_of_le (by rw [List.length_cons]; omega)
        have hnil : ∀ fuel, chunksLoop n fuel [] = [] := fun fuel => by cases fuel <;> rfl
        rw [h0, hnil, List.length_nil]
        omega
      · omega

section Chunks

variable {bytes : Bytes}

theorem flatten_chunks : (chunks noisePlainChunk bytes).flatten = bytes :=
  (chunksLoop_spec (by decide) _ bytes le_rfl).1

theorem length_of_mem_chunks : ∀ c ∈ chunks noisePlainChunk bytes, c.length ≤ noisePlainChunk :=
  (chunksLoop_spec (by decide) _ bytes le_rfl).2.1

/-- The reader takes 16 chunks; a frame has one at least and five at most. -/
theorem length_chunks (hne : bytes ≠ []) (h : bytes.length ≤ maxFrame + 10) :
    1 ≤ (chunks noisePlainChunk bytes).length ∧ (chunks noisePlainChunk bytes).length ≤ 5 := by
  obtain ⟨-, -, hcount, hpos⟩ := chunksLoop_spec (n := noisePlainChunk) (by decide) _ bytes le_rfl
  refine ⟨List.length_pos_iff.2 (hpos hne), ?_⟩
  unfold chunks
  unfold noisePlainChunk maxFrame at *
  omega

end Chunks

/-! ## From one side to the other -/

section Frames

variable {σ : Type} {T : Transport σ} {R : σ → σ → Prop} {s r : σ}

/-- From transports that `R` joins on, `x` sends what `y` then reads as `b`, and `R` joins what they
leave. -/
def Carried {β : Type} (R : σ → σ → Prop) (x : SessionM σ Unit) (y : SessionM σ β) (b : β)
    (s r : σ) : Prop :=
  ∃ bytes s' r', Writes x s bytes s' ∧ Reads y r bytes b r' ∧ R s' r'

theorem carried_chunk (hT : T.Inverts R) (h : R s r) {chunk : Bytes}
    (hlen : chunk.length ≤ maxPlain) {x : SessionM σ Unit} {β : Type} {y : Bytes → SessionM σ β}
    {b : β} (hrest : ∀ {s r}, R s r → Carried R x (y chunk) b s r) :
    Carried R (encrypt T chunk >>= fun out => writeRaw out >>= fun _ => x)
      (readRaw >>= fun cipher => decrypt T cipher >>= y) b s r := by
  obtain ⟨cipher, s₁, r₁, hw, hcl, hr, h₁⟩ := hT.inverts h hlen _ le_rfl
  obtain ⟨bytes, s₂, r₂, hx, hy, h₂⟩ := hrest h₁
  have hle : cipher.length ≤ 70000 := by
    unfold maxPlain at hlen
    omega
  refine ⟨rawBytes cipher ++ bytes, s₂, r₂, fun sent incoming => ?_, ?_, h₂⟩
  · have henc : encrypt T chunk ⟨sent, incoming, s⟩ = .ok cipher ⟨sent, incoming, s₁⟩ := by
      unfold encrypt
      simp only [hw]
    rw [run_bind henc]
    exact (writes_writeRaw hle s₁).seq (f := fun _ => x) hx sent incoming
  · refine (reads_readRaw hle r).bind ?_
    have hdec : Reads (decrypt T cipher) r [] chunk r₁ := by
      intro sent rest
      unfold decrypt
      simp only [hr]
      rfl
    exact hdec.bind hy

theorem carried_chunks (hT : T.Inverts R) : ∀ (cs : List Bytes) (plain : Bytes) {s r : σ}, R s r →
    (∀ c ∈ cs, c.length ≤ noisePlainChunk) → plain.length + cs.flatten.length ≤ maxFrame + 10 →
    Carried R (writeChunks T cs) (readChunks T cs.length plain) (plain ++ cs.flatten) s r
  | [], plain, s, r, h, _, _ => by
    rw [List.flatten_nil, List.append_nil]
    exact ⟨[], s, r, .pure, .pure, h⟩
  | c :: cs, plain, s, r, h, hlen, hsum => by
    obtain ⟨hc, hcs⟩ := List.forall_mem_cons.1 hlen
    rw [List.flatten_cons, List.length_append] at hsum
    refine carried_chunk hT h (hc.trans (by decide)) (y := fun out => _) fun h => ?_
    obtain ⟨bytes, s', r', hw, hr, h'⟩ := carried_chunks hT cs (plain ++ c) h hcs
      (by rw [List.length_append]; omega)
    refine ⟨bytes, s', r', hw, .failIf (by rw [List.length_append]; omega) ?_, h'⟩
    rw [List.flatten_cons, ← List.append_assoc]
    exact hr

theorem carried_plain (hT : T.Inverts R) (h : R s r) {plain : Bytes} (hne : plain ≠ [])
    (hlen : plain.length ≤ maxFrame + 10) :
    Carried R (writePlain T plain) (readPlain T) plain s r := by
  obtain ⟨hpos, hfive⟩ := length_chunks hne hlen
  have hcount : (leBytes 4 ((chunks noisePlainChunk plain).length % 2 ^ 32)).length ≤ 70000 := by
    rw [length_leBytes]
    decide
  have hn : leNat (leBytes 4 ((chunks noisePlainChunk plain).length % 2 ^ 32))
      = (chunks noisePlainChunk plain).length := by
    rw [Nat.mod_eq_of_lt (by omega), leNat_leBytes 4 _ (by omega)]
  obtain ⟨bytes, s', r', hw, hr, h'⟩ := carried_chunks hT (chunks noisePlainChunk plain) [] h
    length_of_mem_chunks (by rw [flatten_chunks, List.length_nil]; omega)
  rw [List.nil_append, flatten_chunks] at hr
  refine ⟨_, s', r', (writes_writeRaw hcount s).seq hw, (reads_readRaw hcount r).bind ?_, h'⟩
  refine .failIf (not_not.2 (length_leBytes 4 _)) ?_
  rw [hn]
  exact .failIf (by omega) hr

theorem carried_frame (hT : T.Inverts R) (h : R s r) (kind : UInt8) {payload : Bytes}
    (hlen : payload.length ≤ maxFrame) :
    Carried R (writeFrame T kind payload) (readFrame T) (kind, payload) s r := by
  have hframe : (frameBytes kind payload).length = 10 + payload.length := by
    simp only [frameBytes, List.length_append, length_leBytes, List.length_cons, List.length_nil]
    rfl
  have hne : frameBytes kind payload ≠ [] := List.length_pos_iff.1 (by omega)
  obtain ⟨bytes, s', r', hw, hr, h'⟩ := carried_plain hT h hne (by omega)
  refine ⟨bytes, s', r', .failIf (by omega) hw, ?_, h'⟩
  have hread : Reads (readFrame T) r (bytes ++ []) (kind, payload) r' := by
    refine hr.bind ?_
    rw [decodeFrame_frameBytes hlen]
    exact .pure
  rwa [List.append_nil] at hread

/-- Frame by frame. -/
theorem carried_frames (hT : T.Inverts R) : ∀ (frames : List (UInt8 × Bytes)) {s r : σ}, R s r →
    (∀ f ∈ frames, f.2.length ≤ maxFrame) →
    Carried R (writeFrames T frames) (readFrames T frames.length) frames s r
  | [], s, r, h, _ => ⟨[], s, r, .pure, .pure, h⟩
  | (kind, payload) :: frames, s, r, h, hlen => by
    obtain ⟨hf, hfs⟩ := List.forall_mem_cons.1 hlen
    obtain ⟨bytes₁, s₁, r₁, hw₁, hr₁, h₁⟩ := carried_frame hT h kind hf
    obtain ⟨bytes₂, s₂, r₂, hw₂, hr₂, h₂⟩ := carried_frames hT frames h₁ hfs
    refine ⟨bytes₁ ++ bytes₂, s₂, r₂, hw₁.seq hw₂, hr₁.bind ?_, h₂⟩
    have hrest := hr₂.bind (f := fun rest => pure ((kind, payload) :: rest)) .pure
    rwa [List.append_nil] at hrest

/-- What one side writes frame by frame, the other reads frame by frame, and a payload that is too
long is refused with nothing sent. -/
theorem readFrames_writeFrames (hT : T.Inverts R) (w r : NoiseSession σ)
    (h : R w.transport r.transport) :
    (∀ frames : List (UInt8 × Bytes), (∀ f ∈ frames, f.2.length ≤ maxFrame) →
      ∃ w' wire, writeFrames T frames w = .ok () w' ∧ w'.sent = w.sent ++ wire
        ∧ ∀ rest, ∃ r', readFrames T frames.length { r with incoming := wire ++ rest }
            = .ok frames r' ∧ r'.incoming = rest ∧ R w'.transport r'.transport)
      ∧ ∀ kind payload, maxFrame < payload.length →
        writeFrame T kind payload w = .error (.err badFrame) w := by
  refine ⟨fun frames hlen => ?_, fun kind payload hlong => ?_⟩
  · obtain ⟨wire, s', r', hw, hr, h'⟩ := carried_frames hT frames h hlen
    exact ⟨⟨w.sent ++ wire, w.incoming, s'⟩, wire, hw _ _, rfl,
      fun rest => ⟨⟨r.sent, rest, r'⟩, hr _ _, rfl, h'⟩⟩
  · change EStateM.bind (failIf _ _) _ w = _
    unfold failIf EStateM.bind
    rw [if_pos hlong]
    rfl

end Frames

section Example

/-- A transport that numbers its messages in place of sealing them. -/
def numbering : Transport (ℕ × ℕ) where
  writeMessage s plain room :=
    if room < plain.length + 16 ∨ maxPlain < plain.length then none
    else some (plain ++ leBytes 16 s.1, (s.1 + 1, s.2))
  readMessage s cipher room :=
    if cipher.length < 16 ∨ room + 16 < cipher.length
      ∨ cipher.drop (cipher.length - 16) ≠ leBytes 16 s.2 then none
    else some (cipher.take (cipher.length - 16), (s.1, s.2 + 1))

theorem inverts_numbering : numbering.Inverts fun s r => s.1 = r.2 := by
  refine ⟨fun {s r} h {plain} hlen room hroom => ?_⟩
  have hcl : (plain ++ leBytes 16 s.1).length = plain.length + 16 := by
    rw [List.length_append, length_leBytes]
  refine ⟨plain ++ leBytes 16 s.1, (s.1 + 1, s.2), (r.1, r.2 + 1), ?_, hcl, ?_, ?_⟩
  · exact if_neg (by omega)
  · unfold numbering
    simp only [hcl, Nat.add_sub_cancel, List.drop_left, List.take_left, ← h, ne_eq, not_true,
      or_false]
    exact if_neg (by omega)
  · exact congrArg (· + 1) h

theorem readFrames_writeFrames_numbering : ∃ w' wire,
    writeFrames numbering [(20, [1, 2, 3]), (13, [])] ⟨[], [], (0, 0)⟩ = .ok () w'
      ∧ w'.sent = wire ∧ ∃ r', readFrames numbering 2 ⟨[], wire ++ [9], (0, 0)⟩
        = .ok [(20, [1, 2, 3]), (13, [])] r' ∧ r'.incoming = [9] := by
  obtain ⟨w', wire, hw, hsent, hr⟩ := (readFrames_writeFrames inverts_numbering ⟨[], [], (0, 0)⟩
    ⟨[], [], (0, 0)⟩ rfl).1 [(20, [1, 2, 3]), (13, [])] (by decide)
  obtain ⟨r', hread, hrest, -⟩ := hr [9]
  exact ⟨w', wire, hw, hsent, r', hread, hrest⟩

end Example

end KronMesh.Noise
