import KronMesh.Bech32Decode
import KronMesh.Lib.Text

/-!
# The wallet's path at the explorer

The wallet asks the explorer for an address by a path, in which it escapes every byte but letters,
digits and three signs. The explorer takes the path out of what one read returned: the first line,
its second word, what is before a question mark, what follows the route, the escapes read back.
Whatever text the wallet asks for, that is what the explorer looks up: `handleClient_wallet`.
-/

namespace KronMesh

open Wire Text

/-! ## The wallet -/

/-- The bytes that `encode_path` leaves as they are. -/
def isPathByte (b : UInt8) : Bool :=
  (65 ≤ b && b ≤ 90) || (97 ≤ b && b ≤ 122) || (48 ≤ b && b ≤ 57) || b = 45 || b = 95 || b = 46

/-- A digit of `{:X}`. -/
def upperHexDigit (n : ℕ) : Char := if n < 10 then Char.ofNat (48 + n) else Char.ofNat (55 + n)

/-- What a byte of the path is written as: itself, or `%{b:02X}`. -/
def encodePathByte (b : UInt8) : List Char :=
  if isPathByte b then [Char.ofUInt8 b]
  else ['%', upperHexDigit (b.toNat / 16), upperHexDigit (b.toNat % 16)]

def encodePath (s : String) : String := String.ofList ((asBytes s).flatMap encodePathByte)

/-- What `get_json` sends. -/
def getJsonRequest (host path : String) : String :=
  "GET " ++ path ++ " HTTP/1.1\r\nHost: " ++ host ++ "\r\nConnection: close\r\n\r\n"

/-! ## The explorer -/

/-- `char::to_digit(16)`. -/
def hexDigitValue (c : Char) : Option ℕ :=
  if '0' ≤ c ∧ c ≤ '9' then some (c.toNat - '0'.toNat)
  else if 'a' ≤ c ∧ c ≤ 'f' then some (c.toNat - 'a'.toNat + 10)
  else if 'A' ≤ c ∧ c ≤ 'F' then some (c.toNat - 'A'.toNat + 10)
  else none

/-- The digits of `u8::from_str_radix`, after `n` was read. -/
def readHexDigits : ℕ → List Char → Option ℕ
  | n, [] => some n
  | n, c :: l => do
    let digit ← hexDigitValue c
    if n * 16 + digit < 256 then readHexDigits (n * 16 + digit) l else none

/-- `u8::from_str_radix(s, 16)`: a plus may come first. -/
def u8FromStrRadix16 : List Char → Option ℕ
  | [] => none
  | ['+'] => none
  | '+' :: l => readHexDigits 0 l
  | l => readHexDigits 0 l

/-- The two bytes of an escape, as the code reads them behind the sign at `i`. -/
def escapeAt (bytes : Bytes) (i : ℕ) : Option ℕ :=
  u8FromStrRadix16 ((strFromUtf8 ((bytes.drop (i + 1)).take 2)).getD "00").toList

/-- The loop of `percent_decode`, from byte `i` on, after `out`. -/
def percentDecodeFrom (bytes : Bytes) (i : ℕ) (out : Bytes) : Bytes :=
  if h : i < bytes.length then
    let escape := if bytes[i] = 37 ∧ i + 2 < bytes.length then escapeAt bytes i else none
    match escape with
    | some v => percentDecodeFrom bytes (i + 3) (out ++ [UInt8.ofNat v])
    | none => percentDecodeFrom bytes (i + 1) (out ++ [bytes[i]])
  else out
termination_by bytes.length - i

def percentDecode (s : List Char) : String :=
  fromUtf8Lossy (percentDecodeFrom (asBytes (String.ofList s)) 0 [])

/-- What a request is answered with. -/
inductive HttpAnswer
  | nothing
  | methodNotAllowed
  | ui
  | stats
  | metadata
  | vertices
  | txs
  | tx (hash : String)
  | wallet (address : String)
  | compose (address : String)
  | notFound
  deriving DecidableEq

/-- The route of a path, with what follows its prefix read back. -/
def dispatch (path : List Char) : HttpAnswer :=
  if path = "/".toList ∨ path = "/index.html".toList then .ui
  else if path = "/api/stats".toList then .stats
  else if path = "/api/metadata".toList then .metadata
  else if path = "/api/vertices".toList ∨ path = "/api/tips".toList then .vertices
  else if path = "/api/txs".toList then .txs
  else
    match stripPrefix "/api/tx/".toList path with
    | some rest => .tx (percentDecode rest)
    | none =>
      match stripPrefix "/api/wallet/".toList path with
      | some rest => .wallet (percentDecode rest)
      | none =>
        match stripPrefix "/api/compose/".toList path with
        | some rest => .compose (percentDecode rest)
        | none => .notFound

/-- The buffer of one read. -/
def requestBuffer : ℕ := 8192

/-- The method and the path of a request. -/
def requestLine (req : List Char) : List Char × List Char :=
  match firstLine req with
  | some line =>
    let parts := words isWhitespace line
    (parts.head?.getD [], parts[1]?.getD "/".toList)
  | none => ("GET".toList, "/".toList)

/-- What the explorer makes of the bytes that have come in. -/
def handleClient (received : Bytes) : HttpAnswer :=
  let buf := received.take requestBuffer
  if buf.isEmpty then .nothing
  else
    let line := requestLine (fromUtf8Lossy buf).toList
    if line.1 ≠ "GET".toList then .methodNotAllowed
    else dispatch (((splitOnce '?' line.2).map Prod.fst).getD line.2)

/-! ## Escapes read back -/

theorem hexDigitValue_upperHexDigit : ∀ n < 16, hexDigitValue (upperHexDigit n) = some n := by
  decide

theorem readHexDigits_upper {hi lo : ℕ} (hhi : hi < 16) (hlo : lo < 16) :
    readHexDigits 0 [upperHexDigit hi, upperHexDigit lo] = some (hi * 16 + lo) := by
  have h1 : 0 * 16 + hi < 256 := by omega
  have h2 : (0 * 16 + hi) * 16 + lo < 256 := by omega
  simp only [readHexDigits, hexDigitValue_upperHexDigit hi hhi, hexDigitValue_upperHexDigit lo hlo,
    Option.bind_eq_bind, Option.bind_some, if_pos h1, if_pos h2]
  rw [Nat.zero_mul, Nat.zero_add]

theorem u8FromStrRadix16_upper {hi lo : ℕ} (hhi : hi < 16) (hlo : lo < 16) :
    u8FromStrRadix16 [upperHexDigit hi, upperHexDigit lo] = some (hi * 16 + lo) := by
  have hplus : ∀ n < 16, upperHexDigit n ≠ '+' := by decide
  rw [u8FromStrRadix16, readHexDigits_upper hhi hlo]
  · exact List.cons_ne_nil _ _
  · exact fun h => hplus hi hhi (List.cons.inj h).1
  · exact fun l h => hplus hi hhi (List.cons.inj h).1

/-- What is written of a path: letters, digits and signs, and no question mark. -/
def PathChar (c : Char) : Prop := 33 ≤ c.toNat ∧ c.toNat ≤ 126 ∧ c ≠ '?'

instance : DecidablePred PathChar :=
  fun c => inferInstanceAs (Decidable (33 ≤ c.toNat ∧ c.toNat ≤ 126 ∧ c ≠ '?'))

theorem pathChar_upperHexDigit : ∀ n < 16, PathChar (upperHexDigit n) := by
  unfold PathChar
  decide

theorem toNat_ofUInt8 (b : UInt8) : (Char.ofUInt8 b).toNat = b.toNat := UInt8.toNat_toUInt32 b

theorem pathChar_encodePathByte {b : UInt8} {c : Char} (h : c ∈ encodePathByte b) : PathChar c := by
  unfold encodePathByte at h
  split_ifs at h with hb
  · rw [List.mem_singleton] at h
    subst h
    have hcode := toNat_ofUInt8 b
    have hquestion : b.toNat ≠ 63 → Char.ofUInt8 b ≠ '?' := fun hne heq => by
      rw [heq] at hcode
      exact hne hcode.symm
    simp only [isPathByte, Bool.or_eq_true, Bool.and_eq_true, decide_eq_true_eq,
      UInt8.le_iff_toNat_le, ← UInt8.toNat_inj, UInt8.reduceToNat] at hb
    exact ⟨by omega, by omega, hquestion (by omega)⟩
  · have hlt := b.toNat_lt
    simp only [List.mem_cons, List.not_mem_nil, or_false] at h
    rcases h with rfl | rfl | rfl
    · exact ⟨by decide, by decide, by decide⟩
    · exact pathChar_upperHexDigit _ (by omega)
    · exact pathChar_upperHexDigit _ (by omega)

theorem utf8EncodeChar_pathChar {c : Char} (h : PathChar c) :
    String.utf8EncodeChar c = [UInt8.ofNat c.toNat] := by
  have hsize : c.utf8Size = 1 := Char.utf8Size_eq_one_iff.2
    (UInt32.le_iff_toNat_le.2 (h.2.1.trans (by decide)))
  exact String.utf8EncodeChar_eq_singleton hsize

/-- A text of such characters has a byte for each. -/
theorem asBytes_of_pathChars {l : List Char} (h : ∀ c ∈ l, PathChar c) :
    asBytes (String.ofList l) = l.map fun c => UInt8.ofNat c.toNat := by
  rw [asBytes, String.toList_ofList,
    List.flatMap_congr fun c hc => utf8EncodeChar_pathChar (h c hc)]
  exact List.map_eq_flatMap.symm

/-- What a byte of the path is written as, in bytes. -/
def escapeBytes (b : UInt8) : Bytes := (encodePathByte b).map fun c => UInt8.ofNat c.toNat

theorem asBytes_encodePath (s : String) :
    asBytes (encodePath s) = (asBytes s).flatMap escapeBytes := by
  rw [encodePath, asBytes_of_pathChars]
  · rw [List.map_flatMap]
    rfl
  · intro c hc
    obtain ⟨b, -, hb⟩ := List.mem_flatMap.1 hc
    exact pathChar_encodePathByte hb

theorem escapeBytes_of_isPathByte {b : UInt8} (h : isPathByte b = true) : escapeBytes b = [b] := by
  rw [escapeBytes, encodePathByte, if_pos h, List.map_singleton, toNat_ofUInt8, UInt8.ofNat_toNat]

theorem escapeBytes_of_not {b : UInt8} (h : ¬ isPathByte b = true) :
    escapeBytes b = 37 :: asBytes
      (String.ofList [upperHexDigit (b.toNat / 16), upperHexDigit (b.toNat % 16)]) := by
  have hlt := b.toNat_lt
  rw [asBytes_of_pathChars fun c hc => ?_]
  · rw [escapeBytes, encodePathByte, if_neg h]
    rfl
  · simp only [List.mem_cons, List.not_mem_nil, or_false] at hc
    rcases hc with rfl | rfl
    · exact pathChar_upperHexDigit _ (by omega)
    · exact pathChar_upperHexDigit _ (by omega)

theorem isPathByte_percent {b : UInt8} (h : isPathByte b = true) : b ≠ 37 := by
  rintro rfl
  exact absurd h (by decide)

/-- The digits behind the sign are read back as the byte. -/
theorem escapeAt_escape (pre post : Bytes) {b : UInt8} (h : ¬ isPathByte b = true) :
    escapeAt (pre ++ (escapeBytes b ++ post)) pre.length = some b.toNat := by
  have hlt := b.toNat_lt
  have hlen : (escapeBytes b).length = 3 := by rw [escapeBytes, encodePathByte, if_neg h]; rfl
  have hdigits : ((pre ++ (escapeBytes b ++ post)).drop (pre.length + 1)).take 2
      = (escapeBytes b).tail := by
    rw [← List.drop_drop, List.drop_left, List.drop_append_of_le_length (by omega),
      List.take_left' (by rw [List.length_drop, hlen]), List.drop_one]
  rw [escapeAt, hdigits, escapeBytes_of_not h, List.tail_cons, strFromUtf8_asBytes,
    Option.getD_some, String.toList_ofList, u8FromStrRadix16_upper (by omega) (by omega)]
  exact congrArg some (Nat.div_add_mod' b.toNat 16)

/-- One byte: at its escape the loop reads it back and goes on behind it. -/
theorem percentDecodeFrom_escape (pre post out : Bytes) (b : UInt8) :
    percentDecodeFrom (pre ++ (escapeBytes b ++ post)) pre.length out
      = percentDecodeFrom (pre ++ (escapeBytes b ++ post)) (pre ++ escapeBytes b).length
          (out ++ [b]) := by
  by_cases h : isPathByte b = true
  · rw [escapeBytes_of_isPathByte h]
    have hi : pre.length < (pre ++ ([b] ++ post)).length := by simp
    have hb : (pre ++ ([b] ++ post))[pre.length] = b := by simp
    rw [percentDecodeFrom, dif_pos hi]
    simp only [hb, isPathByte_percent h, false_and, if_false]
    simp
  · have hlen : (escapeBytes b).length = 3 := by rw [escapeBytes, encodePathByte, if_neg h]; rfl
    have hi : pre.length + 2 < (pre ++ (escapeBytes b ++ post)).length := by
      rw [List.length_append, List.length_append, hlen]
      omega
    have hb : (pre ++ (escapeBytes b ++ post))[pre.length] = 37 := by
      simp [escapeBytes_of_not h]
    rw [percentDecodeFrom, dif_pos (by omega)]
    simp only [hb, hi, and_self, if_true, escapeAt_escape pre post h]
    rw [UInt8.ofNat_toNat, List.length_append, hlen]

/-- The whole path: what was escaped byte by byte is read back byte by byte. -/
theorem percentDecodeFrom_flatMap : ∀ (l pre out : Bytes),
    percentDecodeFrom (pre ++ l.flatMap escapeBytes) pre.length out = out ++ l
  | [], pre, out => by
    rw [List.flatMap_nil, List.append_nil, percentDecodeFrom, dif_neg (Nat.lt_irrefl _),
      List.append_nil]
  | b :: l, pre, out => by
    have ih := percentDecodeFrom_flatMap l (pre ++ escapeBytes b) (out ++ [b])
    rw [List.append_assoc, List.append_assoc] at ih
    rw [List.flatMap_cons, percentDecodeFrom_escape, ih]
    rfl

theorem percentDecode_encodePath (s : String) : percentDecode (encodePath s).toList = s := by
  have hrun := percentDecodeFrom_flatMap (asBytes s) [] []
  rw [percentDecode, String.ofList_toList, asBytes_encodePath]
  rw [List.nil_append, List.nil_append] at hrun
  exact (congrArg fromUtf8Lossy hrun).trans (fromUtf8Lossy_asBytes s)

/-! ## The request -/

theorem encodePath_chars {s : String} {c : Char} (h : c ∈ (encodePath s).toList) : PathChar c := by
  rw [encodePath, String.toList_ofList] at h
  obtain ⟨b, -, hb⟩ := List.mem_flatMap.1 h
  exact pathChar_encodePathByte hb

theorem PathChar.not_isWhitespace {c : Char} (h : PathChar c) : isWhitespace c = false :=
  isWhitespace_of_graphic h.1 h.2.1

/-- The path of a wallet, with its route before what is escaped. -/
def walletPath (s : String) : String := "/api/wallet/" ++ encodePath s

theorem walletPath_chars {s : String} {c : Char} (h : c ∈ (walletPath s).toList) : PathChar c := by
  rw [walletPath, String.toList_append] at h
  rcases List.mem_append.1 h with h | h
  · have hall : "/api/wallet/".toList.Forall fun c => 33 ≤ c.toNat ∧ c.toNat ≤ 126 ∧ c ≠ '?' := by
      decide
    exact List.forall_iff_forall_mem.1 hall c h
  · exact encodePath_chars h

/-- The request's first line ends where the path's characters cannot end it. -/
theorem requestLine_of_path (host : String) {path : String} (hpath : ∀ c ∈ path.toList, PathChar c)
    (hne : path.toList ≠ []) :
    requestLine (getJsonRequest host path).toList = ("GET".toList, path.toList) := by
  have hspace : isWhitespace ' ' = true := by decide
  have hmethod : ∀ c ∈ "GET".toList, isWhitespace c = false :=
    List.forall_iff_forall_mem.1 (by decide)
  have hblank : ∀ c ∈ path.toList, isWhitespace c = false :=
    fun c hc => (hpath c hc).not_isWhitespace
  have hline : (getJsonRequest host path).toList
      = ("GET".toList ++ ' ' :: (path.toList ++ ' ' :: "HTTP/1.1".toList))
        ++ '\r' :: '\n' :: ("Host: " ++ host ++ "\r\nConnection: close\r\n\r\n").toList := by
    simp [getJsonRequest]
  have hnofeed : '\n' ∉ path.toList := fun hc => absurd (hpath _ hc).1 (by decide)
  have hfeed : '\n' ∉ "GET".toList ++ ' ' :: (path.toList ++ ' ' :: "HTTP/1.1".toList) := by
    simp [hnofeed]
  rw [requestLine, hline, firstLine_crlf hfeed]
  simp only [words_append_cons hmethod (by decide) hspace,
    words_append_cons hblank hne hspace]
  rfl

/-- A request that fits one read is dispatched by its path. -/
theorem handleClient_of_path (host : String) {path : String} (hpath : ∀ c ∈ path.toList, PathChar c)
    (hne : path.toList ≠ []) (hfits : (asBytes (getJsonRequest host path)).length ≤ 8192) :
    handleClient (asBytes (getJsonRequest host path)) = dispatch path.toList := by
  have hquestion : '?' ∉ path.toList := fun hc => (hpath _ hc).2.2 rfl
  have hsome : ¬ (asBytes (getJsonRequest host path)).isEmpty := by
    simp [asBytes, getJsonRequest]
  rw [handleClient, requestBuffer, List.take_of_length_le hfits, fromUtf8Lossy_asBytes,
    requestLine_of_path host hpath hne]
  dsimp only
  rw [if_neg hsome, if_neg (not_not.2 rfl), splitOnce_eq_none.2 hquestion]
  rfl

/-- A path that goes on behind a route is none that does not begin with it. -/
theorem append_ne_of_not_begins {route rest path : List Char} (h : ¬ route <+: path) :
    route ++ rest ≠ path := by
  rintro rfl
  exact h (List.prefix_append _ _)

/-- The route of a wallet, whatever is asked for. -/
theorem dispatch_walletPath (s : String) : dispatch (walletPath s).toList = .wallet s := by
  have hsplit : (walletPath s).toList = "/api/wallet/".toList ++ (encodePath s).toList := by
    rw [walletPath, String.toList_append]
  have hne : ∀ path : List Char, ¬ "/api/wallet/".toList <+: path →
      (walletPath s).toList ≠ path := fun _ h => hsplit ▸ append_ne_of_not_begins h
  have htx : stripPrefix "/api/tx/".toList (walletPath s).toList = none := by
    rw [hsplit]
    rfl
  have hwallet : stripPrefix "/api/wallet/".toList (walletPath s).toList
      = some (encodePath s).toList := by
    rw [hsplit, stripPrefix_append]
  rw [dispatch, if_neg (not_or.2 ⟨hne _ (by decide), hne _ (by decide)⟩),
    if_neg (hne _ (by decide)), if_neg (hne _ (by decide)),
    if_neg (not_or.2 ⟨hne _ (by decide), hne _ (by decide)⟩), if_neg (hne _ (by decide)), htx,
    hwallet]
  exact congrArg HttpAnswer.wallet (percentDecode_encodePath s)

/-- Whatever text the wallet asks for, if its request fits one read the explorer looks up that
text. -/
theorem handleClient_wallet (host s : String)
    (hfits : (asBytes (getJsonRequest host ("/api/wallet/" ++ encodePath s))).length ≤ 8192) :
    handleClient (asBytes (getJsonRequest host ("/api/wallet/" ++ encodePath s))) = .wallet s := by
  have hpath : handleClient (asBytes (getJsonRequest host (walletPath s)))
      = dispatch (walletPath s).toList :=
    handleClient_of_path host (fun _ => walletPath_chars) (by simp [walletPath]) hfits
  exact hpath.trans (dispatch_walletPath s)

/-- A question mark, a percent sign at the end, a space and a letter of two bytes come through. -/
theorem handleClient_wallet_signs :
    handleClient (asBytes (getJsonRequest "127.0.0.1:8080" ("/api/wallet/" ++ encodePath "é ?%")))
      = .wallet "é ?%" :=
  handleClient_wallet "127.0.0.1:8080" "é ?%" (by decide)

end KronMesh
