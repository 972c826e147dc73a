import KronMesh.ExplorerJson
import KronMesh.Lib.Http

/-!
# The explorer's answers over HTTP

An answer is one message, with the length of its body in bytes, so a reader of HTTP gets the body
whatever was asked for (`serve_message`). The wallet reads less: it takes what is behind the first
empty line and before the next. The explorer's documents have no line ends, so that is the body too
(`getJson_serve`).
-/

namespace KronMesh

open Wire Text

/-! ## What is sent -/

/-- `reason`. -/
def reasonOf (status : ℕ) : String :=
  if status = 200 then "OK"
  else if status = 404 then "Not Found"
  else if status = 405 then "Method Not Allowed"
  else "Error"

def writeResponse (status : ℕ) (ctype : String) (body : Bytes) : Bytes :=
  let head := String.join
    ["HTTP/1.1 ", toString status, " ", reasonOf status, "\r\nContent-Type: ", ctype,
      "\r\nContent-Length: ", toString body.length,
      "\r\nConnection: close\r\nAccess-Control-Allow-Origin: *\r\n\r\n"]
  asBytes head ++ body

section Served

variable (hexDecode : String → Option Bytes) (hexEncode : Bytes → String) (page : String)
  (e : ExplorerEngine)

/-- The status of a document. -/
def jsonStatus : HttpAnswer → ℕ
  | .tx hash =>
    if ((parseTxHash hexDecode hash).bind e.getTransactionByHash).isSome then 200 else 404
  | .notFound => 404
  | _ => 200

/-- Status, type and body of an answer; `page` is `ui.html`. -/
def message : HttpAnswer → Option (ℕ × String × Bytes)
  | .nothing => none
  | .methodNotAllowed => some (405, "text/plain; charset=utf-8", asBytes "method not allowed")
  | .ui => some (200, "text/html; charset=utf-8", asBytes page)
  | answer => (jsonBody hexDecode hexEncode e answer).map fun body =>
    (jsonStatus hexDecode e answer, "application/json; charset=utf-8", asBytes body)

/-- What the explorer sends after what it has received. -/
def serve (received : Bytes) : Bytes :=
  match message hexDecode hexEncode page e (handleClient received) with
  | none => []
  | some (status, ctype, body) => writeResponse status ctype body

end Served

/-! ## What the wallet takes of it -/

/-- `get_json`, once the answer has come in. -/
def readAnswer (buf : Bytes) : Option String :=
  let text := (fromUtf8Lossy buf).toList
  if "HTTP/1.1 200".toList.isPrefixOf text || "HTTP/1.0 200".toList.isPrefixOf text then
    let body := splitSecond "\r\n\r\n".toList text <|> splitSecond "\n\n".toList text
    some (String.ofList (body.getD []))
  else none

/-- `wire` connects, sends the request and reads what comes until the end. -/
def getJson (wire : Bytes → Option Bytes) (host path : String) : Option String :=
  (wire (asBytes (getJsonRequest host path))).bind readAnswer

/-! ## One message -/

/-- The message that `write_response` writes. -/
def responseOf (status : ℕ) (ctype : String) (body : Bytes) : Http.Response where
  status := status
  reason := (reasonOf status).toList
  fields :=
    [("Content-Type".toList, ctype.toList), ("Content-Length".toList, Nat.toDigits 10 body.length),
      ("Connection".toList, "close".toList), ("Access-Control-Allow-Origin".toList, ['*'])]
  body := body

theorem asBytes_append (s t : String) : asBytes (s ++ t) = asBytes s ++ asBytes t := by
  rw [asBytes, String.toList_append, List.flatMap_append]
  rfl

theorem asBytes_ascii {l : List Char} (h : ∀ c ∈ l, c.toNat < 128) :
    asBytes (String.ofList l) = Http.ascii l := by
  have hchar : ∀ c ∈ l, String.utf8EncodeChar c = [UInt8.ofNat c.toNat] := fun c hc => by
    refine String.utf8EncodeChar_eq_singleton (Char.utf8Size_eq_one_iff.2 ?_)
    exact UInt32.le_iff_toNat_le.2 (Nat.le_of_lt_succ (h c hc))
  rw [asBytes, String.toList_ofList, List.flatMap_congr hchar]
  exact List.map_eq_flatMap.symm

/-- The types that are sent. -/
def contentTypes : List String :=
  ["text/plain; charset=utf-8", "text/html; charset=utf-8", "application/json; charset=utf-8"]

theorem printable_reasonOf (status : ℕ) : ∀ c ∈ (reasonOf status).toList, Http.IsPrintable c := by
  unfold reasonOf
  split_ifs <;> exact List.forall_iff_forall_mem.1 (by decide)

theorem isField_of_decide {name value : String}
    (h : name.toList ≠ [] ∧ name.toList.all Http.isTokenChar = true
      ∧ value.toList.Forall Http.IsPrintable ∧ trim Http.isBlank value.toList = value.toList) :
    Http.IsField (name.toList, value.toList) :=
  ⟨h.1, h.2.1, List.forall_iff_forall_mem.1 h.2.2.1, h.2.2.2⟩

theorem isField_contentType {ctype : String} (h : ctype ∈ contentTypes) :
    Http.IsField ("Content-Type".toList, ctype.toList) := by
  simp only [contentTypes, List.mem_cons, List.not_mem_nil, or_false] at h
  rcases h with rfl | rfl | rfl <;> exact isField_of_decide (by decide)

theorem isField_contentLength (n : ℕ) :
    Http.IsField ("Content-Length".toList, Nat.toDigits 10 n) := by
  have hdigits := List.all_eq_true.1 (Decimal.all_isDigit_toDigits n)
  have hname : "Content-Length".toList ≠ [] ∧ "Content-Length".toList.all Http.isTokenChar = true :=
    by decide
  refine ⟨hname.1, hname.2, fun c hc => Http.printable_of_isDigit (hdigits c hc),
    trim_of_none fun c hc => ?_⟩
  have hdigit := hdigits c hc
  simp only [Http.isBlank, Bool.or_eq_false_iff, decide_eq_false_iff_not]
  constructor
  · rintro rfl
    exact absurd hdigit (by decide)
  · rintro rfl
    exact absurd hdigit (by decide)

theorem wellFormed_responseOf {status : ℕ} {ctype : String} (hs : 100 ≤ status ∧ status < 1000)
    (hc : ctype ∈ contentTypes) (body : Bytes) : (responseOf status ctype body).WellFormed where
  status := hs
  reason := printable_reasonOf status
  fields := by
    simp only [responseOf, List.forall_mem_cons]
    refine ⟨isField_contentType hc, isField_contentLength _, isField_of_decide (by decide), ?_⟩
    exact ⟨@isField_of_decide _ "*" (by decide), fun _ h => absurd h List.not_mem_nil⟩
  length := by
    have hname : "Content-Length".toList.map Char.toLower = "content-length".toList := by decide
    have htype : "Content-Type".toList.map Char.toLower ≠ "content-length".toList := by decide
    have hconn : "Connection".toList.map Char.toLower ≠ "content-length".toList := by decide
    have horigin : "Access-Control-Allow-Origin".toList.map Char.toLower
        ≠ "content-length".toList := by decide
    refine Http.contentLength_of_digits ?_
    rw [responseOf, Http.valuesOf_cons_of_ne htype, Http.valuesOf_cons_of_eq hname,
      Http.valuesOf_cons_of_ne hconn, Http.valuesOf_cons_of_ne horigin]
    rfl

/-- The head is in ASCII, and the line ends are those of the message. -/
theorem writeResponse_eq {status : ℕ} {ctype : String} (hs : 100 ≤ status ∧ status < 1000)
    (hc : ctype ∈ contentTypes) (body : Bytes) :
    writeResponse status ctype body = Http.write (responseOf status ctype body) := by
  have hhead : String.join
      ["HTTP/1.1 ", toString status, " ", reasonOf status, "\r\nContent-Type: ", ctype,
        "\r\nContent-Length: ", toString body.length,
        "\r\nConnection: close\r\nAccess-Control-Allow-Origin: *\r\n\r\n"]
      = String.ofList (Http.head (responseOf status ctype body)) := by
    rw [← String.toList_inj, String.toList_ofList]
    simp [Http.head, responseOf, Http.statusLine, Http.version, Http.fieldLine, Http.crlf]
  unfold writeResponse
  dsimp only
  rw [hhead, Http.write, asBytes_ascii]
  · rfl
  · exact (wellFormed_responseOf hs hc body).lt_head

section Message

variable (hexDecode : String → Option Bytes) (hexEncode : Bytes → String) (page : String)
  (e : ExplorerEngine)

variable {hexDecode hexEncode page e}

/-- An answer is nothing, a text, the page, or a document. -/
theorem jsonBody_isSome {answer : HttpAnswer} (h : answer ≠ .nothing)
    (hmethod : answer ≠ .methodNotAllowed) (hui : answer ≠ .ui) :
    ∃ text, jsonBody hexDecode hexEncode e answer = some text := by
  cases answer with
  | nothing => exact absurd rfl h
  | methodNotAllowed => exact absurd rfl hmethod
  | ui => exact absurd rfl hui
  | tx hash =>
    unfold jsonBody
    dsimp only
    split
    · exact ⟨_, rfl⟩
    · exact ⟨_, rfl⟩
  | _ => exact ⟨_, rfl⟩

theorem message_of_json {answer : HttpAnswer} {text : String}
    (h : jsonBody hexDecode hexEncode e answer = some text) :
    message hexDecode hexEncode page e answer
      = some (jsonStatus hexDecode e answer, "application/json; charset=utf-8", asBytes text) := by
  cases answer with
  | nothing => cases h
  | methodNotAllowed => cases h
  | ui => cases h
  | _ =>
    exact congrArg (Option.map fun body : String =>
      (jsonStatus hexDecode e _, "application/json; charset=utf-8", asBytes body)) h

theorem jsonStatus_lt (answer : HttpAnswer) :
    100 ≤ jsonStatus hexDecode e answer ∧ jsonStatus hexDecode e answer < 1000 := by
  unfold jsonStatus
  split
  · split_ifs <;> decide
  · decide
  · decide

/-- Every answer but none has a status and a type that are sent. -/
theorem message_spec {answer : HttpAnswer} (h : answer ≠ .nothing) : ∃ status ctype body,
    message hexDecode hexEncode page e answer = some (status, ctype, body)
      ∧ (100 ≤ status ∧ status < 1000) ∧ ctype ∈ contentTypes := by
  by_cases hmethod : answer = .methodNotAllowed
  · subst hmethod
    exact ⟨_, _, _, rfl, by decide, by decide⟩
  by_cases hui : answer = .ui
  · subst hui
    exact ⟨_, _, _, rfl, by decide, by decide⟩
  obtain ⟨text, htext⟩ := @jsonBody_isSome hexDecode hexEncode e _ h hmethod hui
  exact ⟨_, _, _, message_of_json htext, jsonStatus_lt answer, by decide⟩

theorem handleClient_ne_nothing {received : Bytes} (h : received ≠ []) :
    handleClient received ≠ .nothing := by
  have hbuf : ¬ (received.take requestBuffer).isEmpty := by
    rw [List.isEmpty_iff, List.take_eq_nil_iff, not_or]
    exact ⟨by decide, h⟩
  have hdispatch : ∀ path, dispatch path ≠ .nothing := by
    intro path
    unfold dispatch
    repeat' split
    all_goals exact HttpAnswer.noConfusion
  unfold handleClient
  dsimp only
  rw [if_neg hbuf]
  split_ifs
  · exact HttpAnswer.noConfusion
  · exact hdispatch _

variable (hexDecode hexEncode page e)

/-- Whatever has come in, the answer is one message, which ends where its length says. A document
says what the index holds of what was asked for. -/
theorem serve_message {received : Bytes} (hne : received ≠ []) : ∃ status ctype body,
    message hexDecode hexEncode page e (handleClient received) = some (status, ctype, body)
      ∧ Http.read (serve hexDecode hexEncode page e received) = some (responseOf status ctype body)
      ∧ ∀ doc, answerDoc hexDecode hexEncode e (handleClient received) = some doc →
        ctype = "application/json; charset=utf-8" ∧ ∃ text, body = asBytes text
          ∧ ∀ v, Json.Document text.toList v ↔ v = doc.filterStrings isKept := by
  obtain ⟨status, ctype, body, hm, hs, hc⟩ :=
    @message_spec hexDecode hexEncode page e _ (handleClient_ne_nothing hne)
  refine ⟨status, ctype, body, hm, ?_, fun doc hdoc => ?_⟩
  · unfold serve
    rw [hm]
    exact (congrArg Http.read (writeResponse_eq hs hc body)).trans
      (Http.read_write (wellFormed_responseOf hs hc body))
  · have hrel := jsonBody_document hexDecode hexEncode e (handleClient received)
    rw [hdoc] at hrel
    rcases hbody : jsonBody hexDecode hexEncode e (handleClient received) with _ | text
    · rw [hbody] at hrel
      cases hrel
    rw [hbody, Option.rel_some_some] at hrel
    rw [message_of_json hbody, Option.some_inj, Prod.mk.injEq, Prod.mk.injEq] at hm
    exact ⟨hm.2.1.symm, text, hm.2.2.symm, hrel⟩

/-- A request without a known route. -/
theorem serve_message_notFound : ∃ status ctype body,
    message (fun _ => none) (fun _ => "") "" .default
        (handleClient (asBytes "GET /api HTTP/1.1\r\n\r\n")) = some (status, ctype, body)
      ∧ Http.read (serve (fun _ => none) (fun _ => "") "" .default
          (asBytes "GET /api HTTP/1.1\r\n\r\n")) = some (responseOf status ctype body)
      ∧ ∀ doc, answerDoc (fun _ => none) (fun _ => "") .default
          (handleClient (asBytes "GET /api HTTP/1.1\r\n\r\n")) = some doc →
        ctype = "application/json; charset=utf-8" ∧ ∃ text, body = asBytes text
          ∧ ∀ v, Json.Document text.toList v ↔ v = doc.filterStrings isKept :=
  serve_message _ _ _ _ (by decide)

end Message

/-! ## The body that the wallet takes -/

section Body

variable {hexDecode : String → Option Bytes} {hexEncode : Bytes → String} {page : String}
  {e : ExplorerEngine} {text : String}

/-- A text without control characters is taken whole. -/
theorem readAnswer_writeResponse {ctype : String} (hc : ctype ∈ contentTypes)
    (h : Json.Escaper.NoControl text.toList) :
    readAnswer (writeResponse 200 ctype (asBytes text)) = some text := by
  have hs : 100 ≤ 200 ∧ 200 < 1000 := by decide
  have hw := wellFormed_responseOf hs hc (asBytes text)
  have hbytes : writeResponse 200 ctype (asBytes text)
      = asBytes (String.ofList (Http.head (responseOf 200 ctype (asBytes text))) ++ text) := by
    rw [writeResponse_eq hs hc, asBytes_append, asBytes_ascii hw.lt_head]
    rfl
  have hstatus : "HTTP/1.1 200".toList.isPrefixOf
      (Http.head (responseOf 200 ctype (asBytes text)) ++ text.toList) = true := by
    have hdigits : Nat.toDigits 10 200 = ['2', '0', '0'] := by decide
    rw [Http.head, responseOf, List.flatMap_cons, Http.statusLine, hdigits]
    rfl
  have hcrlf : "\r\n\r\n".toList = Http.crlf ++ Http.crlf := by decide
  have hnone : splitText (Http.crlf ++ Http.crlf) text.toList = none :=
    splitText_eq_none fun hm => absurd (h _ hm) (by decide)
  obtain ⟨pre, hpre⟩ := hw.splitText_head text.toList
  unfold readAnswer
  rw [hbytes, fromUtf8Lossy_asBytes, String.toList_append, String.toList_ofList]
  dsimp only
  rw [hstatus, Bool.true_or, if_pos rfl, hcrlf, splitSecond_eq hpre hnone]
  exact congrArg some (String.ofList_toList)

theorem noControl_jsonChar (c : Char) : Json.Escaper.NoControl (explorerEscaper.char c) := by
  change Json.Escaper.NoControl (jsonChar c)
  unfold jsonChar
  split
  · decide
  · decide
  · decide
  · decide
  · split_ifs with hlow
    · exact fun d hd => absurd hd List.not_mem_nil
    · intro d hd
      rw [List.mem_singleton.1 hd]
      omega

/-- What the wallet takes of an answer that is a document, and has been found. -/
theorem readAnswer_serve {received : Bytes}
    (h : jsonBody hexDecode hexEncode e (handleClient received) = some text)
    (hstatus : jsonStatus hexDecode e (handleClient received) = 200) :
    readAnswer (serve hexDecode hexEncode page e received) = some text := by
  have hrel := jsonBody_write hexDecode hexEncode e (handleClient received)
  rcases hdoc : answerDoc hexDecode hexEncode e (handleClient received) with _ | doc
  · rw [h, hdoc] at hrel
    cases hrel
  rw [h, hdoc, Option.rel_some_some] at hrel
  unfold serve
  rw [message_of_json h, hstatus]
  refine readAnswer_writeResponse (by decide) ?_
  rw [← hrel]
  exact Json.Escaper.noControl_write noControl_jsonChar doc

end Body

end KronMesh
