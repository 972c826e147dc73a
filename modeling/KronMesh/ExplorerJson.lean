import KronMesh.Amount
import KronMesh.Explorer
import KronMesh.HttpPath
import KronMesh.Lib.Json

/-!
# The explorer's documents

The explorer writes its answers by hand: a template, with numbers and quoted texts in its gaps. A
quoted text is escaped character by character, and the other control characters are left out.
Whatever is quoted, it ends at its own quotation mark, and each answer is a document that says what
the template says of those texts: `jsonBody_document`.
-/

namespace KronMesh

open Wire Decimal

/-! ## What is written -/

/-- `{whole}.{frac:06}`. -/
def formatUnits (units : ℕ) : String :=
  String.ofList (Nat.toDigits 10 (units / unitsPerCoin) ++ '.' :: padLeft 6 (units % unitsPerCoin))

/-- One turn of the loop of `json_str`. -/
def pushJsonChar (out : String) : Char → String
  | '"' => out ++ "\\\""
  | '\\' => out ++ "\\\\"
  | '\n' => out ++ "\\n"
  | '\r' => out ++ "\\r"
  | c => if c.toNat < 32 then out else out.push c

def jsonStr (s : String) : String := (s.toList.foldl pushJsonChar "\"").push '"'

def defaultBootstrap : String := "144.91.105.244:8000"

def defaultExplorerUrl : String := "http://144.91.105.244:8080"

def ticker : String := "KRON"

/-- The loop of `decimals_from_units`, after `d` decimals. -/
def decimalsFrom (n d : ℕ) : ℕ :=
  if 10 ≤ n ∧ n % 10 = 0 then decimalsFrom (n / 10) (min (d + 1) 255) else d
termination_by n

def decimalsFromUnits (units : ℕ) : ℕ := decimalsFrom units 0

example : unitsPerCoin = 10 ^ decimalsFromUnits unitsPerCoin := by
  simp [decimalsFromUnits, decimalsFrom, unitsPerCoin]

def metadataJson : String :=
  String.join
    ["\x7b\"name\":", jsonStr "KRON Mesh",
      ",\"ticker\":", jsonStr ticker,
      ",\"decimals\":", toString (decimalsFromUnits unitsPerCoin),
      ",\"kind\":\"DAG\",\"hub\":", jsonStr defaultBootstrap,
      ",\"explorer_url\":", jsonStr defaultExplorerUrl,
      ",\"fee_kron\":", jsonStr (formatUnits fixedTransactionFee),
      ",\"miner_share_percent\":80,\"relay_share_percent\":20\x7d"]

def statsJson (s : NetworkStats) : String :=
  String.join
    ["\x7b\"vertex_count\":", toString s.vertexCount,
      ",\"tip_count\":", toString s.tipCount,
      ",\"dag_tx_count\":", toString s.dagTxCount,
      ",\"tx_count\":", toString s.dagTxCount,
      ",\"circulating_supply\":", toString s.circulatingSupply,
      ",\"circulating_kron\":", jsonStr (formatUnits s.circulatingSupply),
      ",\"hard_cap\":", toString s.hardCap,
      ",\"hard_cap_kron\":", jsonStr (formatUnits hardCap),
      ",\"txs_remaining_until_halving\":", toString s.txsRemainingUntilHalving,
      ",\"hub\":", jsonStr defaultBootstrap,
      ",\"explorer_url\":", jsonStr defaultExplorerUrl,
      ",\"mesh_id_hint\":\"fd00::/8 overlay\",\"fee_kron\":",
      jsonStr (formatUnits fixedTransactionFee),
      ",\"miner_share_percent\":80,\"relay_share_percent\":20\x7d"]

section Written

variable (hexDecode : String → Option Bytes) (hexEncode : Bytes → String)

/-- `hexEncode` is `hex::encode`. -/
def hashJson (hash : TxHash) : String := jsonStr (hexEncode (hashBytes hash))

def txJson (tx : IndexedTransaction) : String :=
  let fs := tx.feeSplit
  String.join
    ["\x7b\"hash\":", hashJson hexEncode tx.hash,
      ",\"from\":", jsonStr tx.fromKron1,
      ",\"to\":", jsonStr tx.toKron1,
      ",\"amount\":", toString tx.amount.toNat,
      ",\"amount_kron\":", jsonStr (formatUnits tx.amount.toNat),
      ",\"fee\":", toString tx.fee.toNat,
      ",\"fee_kron\":", jsonStr (formatUnits tx.fee.toNat),
      ",\"parent_1\":", hashJson hexEncode tx.parent1,
      ",\"parent_2\":", hashJson hexEncode tx.parent2,
      ",\"weight\":", toString tx.weight,
      ",\"is_tip\":", toString tx.isTip,
      ",\"conflicted\":", toString tx.conflicted,
      ",\"dag_tx_index\":", toString tx.dagTxIndex,
      ",\"fee_split\":\x7b\"miner_amount\":", toString fs.minerAmount,
      ",\"relay_amount\":", toString fs.relayAmount,
      ",\"miner_amount_kron\":", jsonStr (formatUnits fs.minerAmount),
      ",\"relay_amount_kron\":", jsonStr (formatUnits fs.relayAmount),
      ",\"miner_address\":", jsonStr fs.minerAddress,
      ",\"relay_addresses\":[", ",".intercalate (fs.relayAddresses.map jsonStr), "]\x7d\x7d"]

def txsJson (txs : List IndexedTransaction) : String :=
  String.join ["[", ",".intercalate (txs.map (txJson hexEncode)), "]"]

def walletJson (w : WalletSnapshot) : String :=
  String.join
    ["\x7b\"address\":", jsonStr w.address,
      ",\"balance\":", toString w.balance,
      ",\"balance_kron\":", jsonStr (formatUnits w.balance),
      ",\"nonce\":", toString w.nonce,
      ",\"txs\":", txsJson hexEncode w.txs, "\x7d"]

def vertexJson (v : IndexedVertex) : String :=
  String.join
    ["\x7b\"hash\":", hashJson hexEncode v.hash,
      ",\"tx_count\":", toString v.txCount,
      ",\"subsidy\":", toString v.subsidy,
      ",\"subsidy_kron\":", jsonStr (formatUnits v.subsidy),
      ",\"total_fees\":", toString v.totalFees.toNat,
      ",\"miner_share\":", toString v.minerShare,
      ",\"miner_share_kron\":", jsonStr (formatUnits v.minerShare),
      ",\"relay_share\":", toString v.relayShare,
      ",\"relay_share_kron\":", jsonStr (formatUnits v.relayShare),
      ",\"miner\":", jsonStr v.miner,
      ",\"txs\":", txsJson hexEncode v.txs, "\x7d"]

def verticesJson (vs : List IndexedVertex) : String :=
  String.join ["[", ",".intercalate (vs.map (vertexJson hexEncode)), "]"]

def composeJson (hint : ℕ × TxHash × TxHash × ℕ) (tips : List TxHash) : String :=
  String.join
    ["\x7b\"nonce\":", toString hint.1,
      ",\"balance\":", toString hint.2.2.2,
      ",\"parent_1\":", hashJson hexEncode hint.2.1,
      ",\"parent_2\":", hashJson hexEncode hint.2.2.1,
      ",\"tips\":[", ",".intercalate (tips.map (hashJson hexEncode)), "]\x7d"]

def jsonErr (msg : String) : String := String.join ["\x7b\"error\":", jsonStr msg, "\x7d"]

def parseTxHash (s : String) : Option TxHash :=
  let hex := ((Text.stripPrefix "0x".toList s.toList).map String.ofList).getD s
  match hexDecode hex with
  | none => none
  | some bytes => if bytes.length ≠ 32 then none else some (hashOfBytes bytes)

/-- The body of an answer that is sent as `application/json`. -/
def jsonBody (e : ExplorerEngine) : HttpAnswer → Option String
  | .nothing | .methodNotAllowed | .ui => none
  | .stats => some (statsJson e.getNetworkStats)
  | .metadata => some metadataJson
  | .vertices => some (verticesJson hexEncode (e.recentVertices 32))
  | .txs => some (txsJson hexEncode (e.recentTransactions 64))
  | .tx hash =>
    match (parseTxHash hexDecode hash).bind e.getTransactionByHash with
    | some tx => some (txJson hexEncode tx)
    | none => some (jsonErr "transaction not found")
  | .wallet address => some (walletJson hexEncode (e.getWalletSnapshot hexDecode address))
  | .compose address => some (composeJson hexEncode (e.composeHint hexDecode address) e.tips)
  | .notFound => some (jsonErr "not found")

end Written

/-! ## What it says -/

/-- The characters that `json_str` does not leave out. -/
def isKept (c : Char) : Bool := 32 ≤ c.toNat || c = '\n' || c = '\r'

def textDoc (s : String) : Json := .string s.toList

def natDoc (n : ℕ) : Json := .number (.ofNat n)

def unitsDoc (units : ℕ) : Json := textDoc (formatUnits units)

def metadataDoc : Json :=
  .object
    [("name".toList, textDoc "KRON Mesh"),
      ("ticker".toList, textDoc ticker),
      ("decimals".toList, natDoc (decimalsFromUnits unitsPerCoin)),
      ("kind".toList, .string "DAG".toList),
      ("hub".toList, textDoc defaultBootstrap),
      ("explorer_url".toList, textDoc defaultExplorerUrl),
      ("fee_kron".toList, unitsDoc fixedTransactionFee),
      ("miner_share_percent".toList, natDoc 80),
      ("relay_share_percent".toList, natDoc 20)]

def statsDoc (s : NetworkStats) : Json :=
  .object
    [("vertex_count".toList, natDoc s.vertexCount),
      ("tip_count".toList, natDoc s.tipCount),
      ("dag_tx_count".toList, natDoc s.dagTxCount),
      ("tx_count".toList, natDoc s.dagTxCount),
      ("circulating_supply".toList, natDoc s.circulatingSupply),
      ("circulating_kron".toList, unitsDoc s.circulatingSupply),
      ("hard_cap".toList, natDoc s.hardCap),
      ("hard_cap_kron".toList, unitsDoc hardCap),
      ("txs_remaining_until_halving".toList, natDoc s.txsRemainingUntilHalving),
      ("hub".toList, textDoc defaultBootstrap),
      ("explorer_url".toList, textDoc defaultExplorerUrl),
      ("mesh_id_hint".toList, .string "fd00::/8 overlay".toList),
      ("fee_kron".toList, unitsDoc fixedTransactionFee),
      ("miner_share_percent".toList, natDoc 80),
      ("relay_share_percent".toList, natDoc 20)]

section Said

variable (hexDecode : String → Option Bytes) (hexEncode : Bytes → String)

def hashDoc (hash : TxHash) : Json := textDoc (hexEncode (hashBytes hash))

def feeSplitDoc (fs : FeeSplit) : Json :=
  .object
    [("miner_amount".toList, natDoc fs.minerAmount),
      ("relay_amount".toList, natDoc fs.relayAmount),
      ("miner_amount_kron".toList, unitsDoc fs.minerAmount),
      ("relay_amount_kron".toList, unitsDoc fs.relayAmount),
      ("miner_address".toList, textDoc fs.minerAddress),
      ("relay_addresses".toList, .array (fs.relayAddresses.map textDoc))]

def txDoc (tx : IndexedTransaction) : Json :=
  .object
    [("hash".toList, hashDoc hexEncode tx.hash),
      ("from".toList, textDoc tx.fromKron1),
      ("to".toList, textDoc tx.toKron1),
      ("amount".toList, natDoc tx.amount.toNat),
      ("amount_kron".toList, unitsDoc tx.amount.toNat),
      ("fee".toList, natDoc tx.fee.toNat),
      ("fee_kron".toList, unitsDoc tx.fee.toNat),
      ("parent_1".toList, hashDoc hexEncode tx.parent1),
      ("parent_2".toList, hashDoc hexEncode tx.parent2),
      ("weight".toList, natDoc tx.weight),
      ("is_tip".toList, .bool tx.isTip),
      ("conflicted".toList, .bool tx.conflicted),
      ("dag_tx_index".toList, natDoc tx.dagTxIndex),
      ("fee_split".toList, feeSplitDoc tx.feeSplit)]

def txsDoc (txs : List IndexedTransaction) : Json := .array (txs.map (txDoc hexEncode))

def walletDoc (w : WalletSnapshot) : Json :=
  .object
    [("address".toList, textDoc w.address),
      ("balance".toList, natDoc w.balance),
      ("balance_kron".toList, unitsDoc w.balance),
      ("nonce".toList, natDoc w.nonce),
      ("txs".toList, txsDoc hexEncode w.txs)]

def vertexDoc (v : IndexedVertex) : Json :=
  .object
    [("hash".toList, hashDoc hexEncode v.hash),
      ("tx_count".toList, natDoc v.txCount),
      ("subsidy".toList, natDoc v.subsidy),
      ("subsidy_kron".toList, unitsDoc v.subsidy),
      ("total_fees".toList, natDoc v.totalFees.toNat),
      ("miner_share".toList, natDoc v.minerShare),
      ("miner_share_kron".toList, unitsDoc v.minerShare),
      ("relay_share".toList, natDoc v.relayShare),
      ("relay_share_kron".toList, unitsDoc v.relayShare),
      ("miner".toList, textDoc v.miner),
      ("txs".toList, txsDoc hexEncode v.txs)]

def composeDoc (hint : ℕ × TxHash × TxHash × ℕ) (tips : List TxHash) : Json :=
  .object
    [("nonce".toList, natDoc hint.1),
      ("balance".toList, natDoc hint.2.2.2),
      ("parent_1".toList, hashDoc hexEncode hint.2.1),
      ("parent_2".toList, hashDoc hexEncode hint.2.2.1),
      ("tips".toList, .array (tips.map (hashDoc hexEncode)))]

def errDoc (msg : String) : Json := .object [("error".toList, textDoc msg)]

/-- What an answer says, with every text as it was before it was quoted. -/
def answerDoc (e : ExplorerEngine) : HttpAnswer → Option Json
  | .nothing | .methodNotAllowed | .ui => none
  | .stats => some (statsDoc e.getNetworkStats)
  | .metadata => some metadataDoc
  | .vertices => some (.array ((e.recentVertices 32).map (vertexDoc hexEncode)))
  | .txs => some (txsDoc hexEncode (e.recentTransactions 64))
  | .tx hash =>
    match (parseTxHash hexDecode hash).bind e.getTransactionByHash with
    | some tx => some (txDoc hexEncode tx)
    | none => some (errDoc "transaction not found")
  | .wallet address => some (walletDoc hexEncode (e.getWalletSnapshot hexDecode address))
  | .compose address => some (composeDoc hexEncode (e.composeHint hexDecode address) e.tips)
  | .notFound => some (errDoc "not found")

end Said

/-! ## Quoted texts -/

/-- What `json_str` appends for a character. -/
def jsonChar : Char → List Char
  | '"' => ['\\', '"']
  | '\\' => ['\\', '\\']
  | '\n' => ['\\', 'n']
  | '\r' => ['\\', 'r']
  | c => if c.toNat < 32 then [] else [c]

theorem toList_pushJsonChar (out : String) (c : Char) :
    (pushJsonChar out c).toList = out.toList ++ jsonChar c := by
  unfold pushJsonChar jsonChar
  split
  · simp
  · simp
  · simp
  · simp
  · split_ifs <;> simp

/-- A character is left out, or escaped, or stands for itself. -/
theorem charAt_jsonChar {c : Char} {r : List Char} (h : jsonChar c ≠ []) :
    Json.CharAt (jsonChar c ++ r) c r := by
  unfold jsonChar at h ⊢
  split at h
  · exact .escape rfl
  · exact .escape rfl
  · exact .escape rfl
  · exact .escape rfl
  · rename_i hquote hback _ _
    split_ifs at h ⊢ with hlow
    · exact absurd rfl h
    · refine .unescaped ?_
      simp only [Json.isUnescaped, Bool.and_eq_true, decide_eq_true_eq]
      exact ⟨⟨by omega, hquote⟩, hback⟩

def explorerEscaper : Json.Escaper := ⟨jsonChar, charAt_jsonChar⟩

theorem keeps_explorerEscaper : explorerEscaper.keeps = isKept := by
  funext c
  simp only [Json.Escaper.keeps, explorerEscaper, isKept]
  unfold jsonChar
  split
  · rfl
  · rfl
  · rfl
  · rfl
  · split_ifs <;> simp_all

@[simp] theorem string_explorerEscaper (l : List Char) :
    explorerEscaper.string l = '"' :: (l.flatMap jsonChar ++ ['"']) := rfl

/-- The loop of `json_str` quotes the text. -/
theorem toList_jsonStr (s : String) : (jsonStr s).toList = explorerEscaper.string s.toList := by
  have hloop : ∀ (l : List Char) (out : String),
      (l.foldl pushJsonChar out).toList = out.toList ++ l.flatMap jsonChar := by
    intro l
    induction l with
    | nil => simp
    | cons c l ih =>
      intro out
      rw [List.foldl_cons, ih, toList_pushJsonChar, List.append_assoc, List.flatMap_cons]
  simp [jsonStr, hloop, string_explorerEscaper]

/-- Whatever follows it, a quoted text ends at its own quotation mark, and stands for what is kept
of the text. -/
theorem literal_jsonStr (s : String) (rest decoded rest' : List Char) :
    Json.Literal ((jsonStr s).toList ++ rest) decoded rest'
      ↔ decoded = s.toList.filter isKept ∧ rest' = rest := by
  have hread := explorerEscaper.literal_string s.toList rest
  rw [← toList_jsonStr, keeps_explorerEscaper] at hread
  constructor
  · exact fun h => h.det hread
  · rintro ⟨rfl, rfl⟩
    exact hread

example : jsonStr "a\"\n\t\\" = "\"a\\\"\\n\\\\\"" := by decide

/-! ## Documents -/

@[simp] theorem jsonChar_of_plain {c : Char} (hlow : 32 ≤ c.toNat) (hquote : c ≠ '"')
    (hback : c ≠ '\\') : jsonChar c = [c] := by
  have hfeed : c ≠ '\n' := by
    rintro rfl
    exact absurd hlow (by decide)
  have hreturn : c ≠ '\r' := by
    rintro rfl
    exact absurd hlow (by decide)
  unfold jsonChar
  split
  · contradiction
  · contradiction
  · contradiction
  · contradiction
  · exact if_neg (by omega)

section Documents

variable (hexDecode : String → Option Bytes) (hexEncode : Bytes → String)

@[simp] theorem write_textDoc (s : String) :
    explorerEscaper.write (textDoc s) = (jsonStr s).toList := by
  rw [toList_jsonStr, textDoc, Json.Escaper.write]

@[simp] theorem write_natDoc (n : ℕ) : explorerEscaper.write (natDoc n) = (toString n).toList := by
  simp [natDoc, Json.Escaper.write, Json.Number.ofNat]

@[simp] theorem write_unitsDoc (units : ℕ) :
    explorerEscaper.write (unitsDoc units) = (jsonStr (formatUnits units)).toList :=
  write_textDoc _

@[simp] theorem write_hashDoc (hash : TxHash) :
    explorerEscaper.write (hashDoc hexEncode hash) = (hashJson hexEncode hash).toList :=
  write_textDoc _

@[simp] theorem write_bool (b : Bool) : explorerEscaper.write (.bool b) = (toString b).toList := by
  cases b <;> rfl

/-- What is written one by one is an array when it is joined. -/
theorem write_array_map {α : Type*} {doc : α → Json} {text : α → String}
    (h : ∀ a, explorerEscaper.write (doc a) = (text a).toList) (l : List α) :
    explorerEscaper.write (.array (l.map doc))
      = '[' :: ((",".intercalate (l.map text)).toList ++ [']']) := by
  have hcomp : explorerEscaper.write ∘ doc = String.toList ∘ text := funext h
  rw [Json.Escaper.write_array, List.map_map, hcomp, String.toList_intercalate, List.map_map]
  rfl

theorem write_txDoc (tx : IndexedTransaction) :
    explorerEscaper.write (txDoc hexEncode tx) = (txJson hexEncode tx).toList := by
  simp [txDoc, feeSplitDoc, txJson, write_array_map write_textDoc]

@[simp] theorem write_txsDoc (txs : List IndexedTransaction) :
    explorerEscaper.write (txsDoc hexEncode txs) = (txsJson hexEncode txs).toList := by
  simp [txsDoc, txsJson, write_array_map (write_txDoc hexEncode)]

theorem write_walletDoc (w : WalletSnapshot) :
    explorerEscaper.write (walletDoc hexEncode w) = (walletJson hexEncode w).toList := by
  simp [walletDoc, walletJson]

theorem write_vertexDoc (v : IndexedVertex) :
    explorerEscaper.write (vertexDoc hexEncode v) = (vertexJson hexEncode v).toList := by
  simp [vertexDoc, vertexJson]

theorem write_composeDoc (hint : ℕ × TxHash × TxHash × ℕ) (tips : List TxHash) :
    explorerEscaper.write (composeDoc hexEncode hint tips)
      = (composeJson hexEncode hint tips).toList := by
  simp [composeDoc, composeJson, write_array_map (write_hashDoc hexEncode)]

/-- The shares that the templates spell out. -/
theorem toDigits_shares :
    Nat.toDigits 10 80 = ['8', '0'] ∧ Nat.toDigits 10 20 = ['2', '0'] := by decide

set_option maxRecDepth 1000 in
theorem write_statsDoc (s : NetworkStats) :
    explorerEscaper.write (statsDoc s) = (statsJson s).toList := by
  simp [statsDoc, statsJson, toDigits_shares]

theorem write_metadataDoc : explorerEscaper.write metadataDoc = metadataJson.toList := by
  simp [metadataDoc, metadataJson, toDigits_shares]

theorem write_errDoc (msg : String) :
    explorerEscaper.write (errDoc msg) = (jsonErr msg).toList := by
  simp [errDoc, jsonErr]

theorem document_of_write {doc : Json} {text : String}
    (h : explorerEscaper.write doc = text.toList) (v : Json) :
    Json.Document text.toList v ↔ v = doc.filterStrings isKept := by
  rw [← h, Json.Escaper.document_write, keeps_explorerEscaper]

/-- Each body is what is written of what the answer says. -/
theorem jsonBody_write (e : ExplorerEngine) (answer : HttpAnswer) :
    Option.Rel (fun body doc => explorerEscaper.write doc = body.toList)
      (jsonBody hexDecode hexEncode e answer) (answerDoc hexDecode hexEncode e answer) := by
  cases answer with
  | nothing => exact .none
  | methodNotAllowed => exact .none
  | ui => exact .none
  | stats => exact .some (write_statsDoc _)
  | metadata => exact .some write_metadataDoc
  | vertices =>
    refine .some ?_
    simp [verticesJson, write_array_map (write_vertexDoc hexEncode)]
  | txs => exact .some (write_txsDoc _ _)
  | tx hash =>
    simp only [jsonBody, answerDoc]
    split
    · exact .some (write_txDoc _ _)
    · exact .some (write_errDoc _)
  | wallet address => exact .some (write_walletDoc _ _)
  | compose address => exact .some (write_composeDoc _ _ _)
  | notFound => exact .some (write_errDoc _)

/-- Each body is a document of what the answer says, and can be read as nothing else. -/
theorem jsonBody_document (e : ExplorerEngine) (answer : HttpAnswer) :
    Option.Rel
      (fun body doc => ∀ v, Json.Document body.toList v ↔ v = doc.filterStrings isKept)
      (jsonBody hexDecode hexEncode e answer) (answerDoc hexDecode hexEncode e answer) := by
  have hwrite := jsonBody_write hexDecode hexEncode e answer
  generalize jsonBody hexDecode hexEncode e answer = body at *
  generalize answerDoc hexDecode hexEncode e answer = doc at *
  cases hwrite with
  | none => exact .none
  | some h => exact .some (document_of_write h)

/-- A quoted text is one string of the grammar, which stands for the text without what is left
out. So the document of a wallet says what the snapshot holds, whatever its address, and the
answer to any request says what it was made from. -/
theorem echo_stays_quoted :
    (∀ (s : String) (rest decoded rest' : List Char),
        Json.Literal ((jsonStr s).toList ++ rest) decoded rest'
          ↔ decoded = s.toList.filter isKept ∧ rest' = rest)
      ∧ (∀ (w : WalletSnapshot) (v : Json), Json.Document (walletJson hexEncode w).toList v
          ↔ v = (walletDoc hexEncode w).filterStrings isKept)
      ∧ ∀ (e : ExplorerEngine) (received : Bytes), Option.Rel
          (fun body doc => ∀ v, Json.Document body.toList v ↔ v = doc.filterStrings isKept)
          (jsonBody hexDecode hexEncode e (handleClient received))
          (answerDoc hexDecode hexEncode e (handleClient received)) :=
  ⟨literal_jsonStr, fun w => document_of_write (write_walletDoc hexEncode w),
    fun e received => jsonBody_document hexDecode hexEncode e (handleClient received)⟩

end Documents

end KronMesh
