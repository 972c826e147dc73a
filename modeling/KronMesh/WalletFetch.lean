import KronMesh.ComposeHint
import KronMesh.ExplorerHttp
import KronMesh.WalletFile

/-!
# The wallet at the explorer

The wallet asks the explorer for what it shows, and for the parents and the nonce of a spend. It
reads the documents by the fields it knows. In every state of a run it shows what the node knows of
the address (`fetchView_run`), and the hint it reads is the hint that the node gave
(`Graph.Grown.fetchCompose`).
-/

namespace KronMesh

open Wire Text Word

/-! ## The documents that are read -/

structure StatsJson where
  dagTxCount : Option UInt64
  txCount : Option UInt64
  circulatingKron : Option String

structure TxJson where
  fromKron1 : String
  toKron1 : String
  amount : UInt64
  dagTxIndex : Option UInt64

structure WalletJson where
  balance : UInt64
  nonce : UInt64
  txs : List TxJson

structure ComposeJson where
  nonce : UInt64
  balance : UInt64
  parent1 : Option String
  parent2 : Option String

/-- What the code calls of the `serde_json` and `hex` crates. -/
structure ExplorerCodec where
  statsFromStr : String → Option StatsJson
  walletFromStr : String → Option WalletJson
  composeFromStr : String → Option ComposeJson
  hexDecode : String → Option Bytes

structure HistoryRow where
  fromKron1 : String
  toKron1 : String
  amount : String
  dagTxIndex : UInt64

structure ExplorerView where
  online : Bool
  dagTxCount : UInt64
  circulating : String
  balanceText : String
  txs : List HistoryRow

def ExplorerView.default : ExplorerView where
  online := false
  dagTxCount := 0
  circulating := ""
  balanceText := formatKronAmount 0
  txs := []

structure ComposeHint where
  nonce : UInt64
  parent1 : TxHash
  parent2 : TxHash
  balance : UInt64

/-! ## Fetching -/

section Fetch

variable (C : ExplorerCodec) (wire : Bytes → Option Bytes) (host : String)

def HistoryRow.ofTx (tx : TxJson) : HistoryRow :=
  ⟨tx.fromKron1, tx.toKron1, formatKronAmount tx.amount, tx.dagTxIndex.getD 0⟩

def fetchView (address : String) : ExplorerView :=
  match (getJson wire host "/api/stats").bind C.statsFromStr with
  | none => .default
  | some stats =>
    let body := getJson wire host ("/api/wallet/" ++ encodePath address)
    let wallet := (body.bind C.walletFromStr).getD ⟨0, 0, []⟩
    { online := true
      dagTxCount := (stats.dagTxCount <|> stats.txCount).getD 0
      circulating := stats.circulatingKron.getD ""
      balanceText := formatKronAmount wallet.balance
      txs := (wallet.txs.reverse.take 12).map .ofTx }

/-- The same as `parse_tx_hash` of the explorer. -/
def parseHex32 (s : String) : Option TxHash := parseTxHash C.hexDecode s

def fetchCompose (address : String) : Option ComposeHint := do
  let body ← getJson wire host ("/api/compose/" ++ encodePath address)
  let parsed ← C.composeFromStr body
  let p1 ← parsed.parent1.bind (parseHex32 C)
  let p2 ← parsed.parent2.bind (parseHex32 C)
  return ⟨parsed.nonce, p1, p2, parsed.balance⟩

end Fetch

/-! ## What a document says -/

/-- The member of that name, if it stands once. -/
def Member (ms : List (List Char × Json)) (name : String) (v : Json) : Prop :=
  ms.filter (fun m => m.1 = name.toList) = [(name.toList, v)]

def StatsJson.Reads (v : Json) (s : StatsJson) : Prop := ∃ ms count txs circulating,
  v = .object ms ∧ s = ⟨some count, some txs, some circulating⟩
    ∧ Member ms "dag_tx_count" (natDoc count.toNat) ∧ Member ms "tx_count" (natDoc txs.toNat)
    ∧ Member ms "circulating_kron" (textDoc circulating)

def TxJson.Reads (v : Json) (tx : TxJson) : Prop := ∃ ms index,
  v = .object ms ∧ tx.dagTxIndex = some index ∧ Member ms "from" (textDoc tx.fromKron1)
    ∧ Member ms "to" (textDoc tx.toKron1) ∧ Member ms "amount" (natDoc tx.amount.toNat)
    ∧ Member ms "dag_tx_index" (natDoc index.toNat)

def WalletJson.Reads (v : Json) (w : WalletJson) : Prop := ∃ ms vs,
  v = .object ms ∧ Member ms "balance" (natDoc w.balance.toNat)
    ∧ Member ms "nonce" (natDoc w.nonce.toNat) ∧ Member ms "txs" (.array vs)
    ∧ List.Forall₂ TxJson.Reads vs w.txs

def ComposeJson.Reads (v : Json) (c : ComposeJson) : Prop := ∃ ms p1 p2,
  v = .object ms ∧ c.parent1 = some p1 ∧ c.parent2 = some p2
    ∧ Member ms "nonce" (natDoc c.nonce.toNat) ∧ Member ms "balance" (natDoc c.balance.toNat)
    ∧ Member ms "parent_1" (textDoc p1) ∧ Member ms "parent_2" (textDoc p2)

/-- What the code relies on of the two crates. A document that is not nested too deep, with each
field of the struct once and of its type, is read as the struct; what else stands there is skipped.
What is written in digits of base sixteen is read back. -/
structure ExplorerCodec.Reads (C : ExplorerCodec) (hexEncode : Bytes → String) : Prop where
  stats : ∀ {text : String} {v : Json} {s : StatsJson}, Json.Document text.toList v →
    v.depth < 128 → s.Reads v → C.statsFromStr text = some s
  wallet : ∀ {text : String} {v : Json} {w : WalletJson}, Json.Document text.toList v →
    v.depth < 128 → w.Reads v → C.walletFromStr text = some w
  compose : ∀ {text : String} {v : Json} {c : ComposeJson}, Json.Document text.toList v →
    v.depth < 128 → c.Reads v → C.composeFromStr text = some c
  hexDecode : ∀ bytes, C.hexDecode (hexEncode bytes) = some bytes
  digits : ∀ bytes, ∀ c ∈ (hexEncode bytes).toList, c ∈ hexDigits

/-! ## The explorer's documents as they are read -/

section Members

variable {ms : List (List Char × Json)} {name : String} {v w : Json}

theorem member_of_mem (hnd : (ms.map Prod.fst).Nodup) (h : (name.toList, v) ∈ ms) :
    Member ms name v := by
  unfold Member
  induction ms with
  | nil => exact absurd h List.not_mem_nil
  | cons m ms ih =>
    obtain ⟨hm, hnd⟩ := List.nodup_cons.1 hnd
    rcases List.mem_cons.1 h with rfl | h
    · have hno : ms.filter (fun m => m.1 = name.toList) = [] :=
        List.filter_eq_nil_iff.2 fun m' hm' heq =>
          hm (List.mem_map.2 ⟨m', hm', of_decide_eq_true heq⟩)
      simp [hno]
    · have hne : m.1 ≠ name.toList := fun heq => hm (heq ▸ List.mem_map_of_mem h)
      simpa [hne] using ih hnd h

/-- What a text of the explorer says of a member whose name, as the others', is kept. -/
theorem member_kept {keys : List (List Char)} (hkeys : ms.map Prod.fst = keys)
    (hplain : keys.Nodup ∧ ∀ k ∈ keys, k.filter isKept = k) (hv : v.filterStrings isKept = w)
    (h : (name.toList, v) ∈ ms) : Member (Json.filterMembers isKept ms) name w := by
  subst hkeys hv
  have hms : Json.filterMembers isKept ms = ms.map fun m => (m.1, m.2.filterStrings isKept) := by
    rw [Json.filterMembers_eq]
    refine List.map_congr_left fun m hm => ?_
    rw [hplain.2 m.1 (List.mem_map_of_mem hm)]
  rw [hms]
  refine member_of_mem ?_ (List.mem_map_of_mem h)
  rw [List.map_map]
  exact hplain.1

theorem filterStrings_textDoc {s : String} (h : ∀ c ∈ s.toList, isKept c = true) :
    (textDoc s).filterStrings isKept = textDoc s := by
  rw [textDoc, Json.filterStrings, List.filter_eq_self.2 h]

end Members

section Documents

variable {C : ExplorerCodec} {hexEncode : Bytes → String}

theorem kept_formatUnits (units : ℕ) : ∀ c ∈ (formatUnits units).toList, isKept c = true := by
  have hdigit : ∀ c : Char, c.isDigit = true → isKept c = true := fun c hc => by
    have hprint := (Http.printable_of_isDigit hc).1
    simp [isKept, hprint]
  intro c hc
  rw [formatUnits, String.toList_ofList, List.mem_append, List.mem_cons] at hc
  rcases hc with hc | rfl | hc
  · exact hdigit c (List.all_eq_true.1 (Decimal.all_isDigit_toDigits _) c hc)
  · decide
  · exact hdigit c (List.all_eq_true.1 (Decimal.all_isDigit_padLeft _ _) c hc)

theorem kept_hexEncode (hC : C.Reads hexEncode) (bytes : Bytes) :
    ∀ c ∈ (hexEncode bytes).toList, isKept c = true := by
  have hall : hexDigits.Forall fun c => isKept c = true := by decide
  exact fun c hc => List.forall_iff_forall_mem.1 hall c (hC.digits bytes c hc)

theorem kept_encodeKron (a : Address) : ∀ c ∈ (encodeKron a).toList, isKept c = true :=
  fun _ hc => forall_encodeKron (P := fun c => isKept c = true) (by decide) (by decide) hc

/-- A hash is written without the prefix that is stripped before it is read. -/
theorem parseHex32_hexEncode (hC : C.Reads hexEncode) (hash : TxHash) :
    parseHex32 C (hexEncode (hashBytes hash)) = some hash := by
  have hstrip : stripPrefix "0x".toList (hexEncode (hashBytes hash)).toList = none := by
    refine stripPrefix_eq_none fun hp => ?_
    have hx : 'x' ∈ hexDigits := hC.digits _ 'x' (hp.subset (by decide))
    exact absurd hx (by decide)
  unfold parseHex32 parseTxHash
  rw [hstrip, Option.map_none, Option.getD_none]
  dsimp only
  rw [hC.hexDecode]
  dsimp only
  rw [length_hashBytes, if_neg (not_not.2 rfl), hashOfBytes_hashBytes]

/-! ### The members of each document -/

def composeKeys : List String := ["nonce", "balance", "parent_1", "parent_2", "tips"]

def statsKeys : List String :=
  ["vertex_count", "tip_count", "dag_tx_count", "tx_count", "circulating_supply",
    "circulating_kron", "hard_cap", "hard_cap_kron", "txs_remaining_until_halving", "hub",
    "explorer_url", "mesh_id_hint", "fee_kron", "miner_share_percent", "relay_share_percent"]

def txKeys : List String :=
  ["hash", "from", "to", "amount", "amount_kron", "fee", "fee_kron", "parent_1", "parent_2",
    "weight", "is_tip", "conflicted", "dag_tx_index", "fee_split"]

def walletKeys : List String := ["address", "balance", "balance_kron", "nonce", "txs"]

theorem composeDoc_reads (hC : C.Reads hexEncode) {hint : ℕ × TxHash × TxHash × ℕ}
    (hn : hint.1 ≤ u64Max) (hb : hint.2.2.2 ≤ u64Max) (tips : List TxHash) :
    ComposeJson.Reads ((composeDoc hexEncode hint tips).filterStrings isKept)
      ⟨UInt64.ofNat hint.1, UInt64.ofNat hint.2.2.2, some (hexEncode (hashBytes hint.2.1)),
        some (hexEncode (hashBytes hint.2.2.1))⟩ := by
  have hplain : (composeKeys.map String.toList).Nodup
      ∧ ∀ k ∈ composeKeys.map String.toList, k.filter isKept = k := by
    decide
  refine ⟨_, _, _, rfl, rfl, rfl, ?_, ?_, ?_, ?_⟩
  · rw [toNat_ofNat_of_le hn]
    exact member_kept rfl hplain rfl (.head _)
  · rw [toNat_ofNat_of_le hb]
    exact member_kept rfl hplain rfl (.tail _ (.head _))
  · exact member_kept rfl hplain (filterStrings_textDoc (kept_hexEncode hC _))
      (.tail _ (.tail _ (.head _)))
  · exact member_kept rfl hplain (filterStrings_textDoc (kept_hexEncode hC _))
      (.tail _ (.tail _ (.tail _ (.head _))))

theorem statsDoc_reads {s : NetworkStats} (h : s.dagTxCount ≤ u64Max) :
    StatsJson.Reads ((statsDoc s).filterStrings isKept)
      ⟨some (UInt64.ofNat s.dagTxCount), some (UInt64.ofNat s.dagTxCount),
        some (formatUnits s.circulatingSupply)⟩ := by
  have hplain : (statsKeys.map String.toList).Nodup
      ∧ ∀ k ∈ statsKeys.map String.toList, k.filter isKept = k := by
    decide
  refine ⟨_, _, _, _, rfl, rfl, ?_, ?_, ?_⟩
  · rw [toNat_ofNat_of_le h]
    exact member_kept rfl hplain rfl (.tail _ (.tail _ (.head _)))
  · rw [toNat_ofNat_of_le h]
    exact member_kept rfl hplain rfl
      (.tail _ (.tail _ (.tail _ (.head _))))
  · exact member_kept rfl hplain (filterStrings_textDoc (kept_formatUnits _))
      (.tail _ (.tail _ (.tail _ (.tail _ (.tail _ (.head _))))))

/-- What is read of a row. -/
def IndexedTransaction.read (row : IndexedTransaction) : TxJson :=
  ⟨row.fromKron1, row.toKron1, row.amount, some (UInt64.ofNat row.dagTxIndex)⟩

/-- The row shows two display addresses, and is counted in a word. -/
structure IndexedTransaction.Plain (row : IndexedTransaction) : Prop where
  fromKron1 : ∀ c ∈ row.fromKron1.toList, isKept c = true
  toKron1 : ∀ c ∈ row.toKron1.toList, isKept c = true
  index : row.dagTxIndex ≤ u64Max

theorem txDoc_reads {row : IndexedTransaction} (h : row.Plain) :
    TxJson.Reads ((txDoc hexEncode row).filterStrings isKept) row.read := by
  have hplain : (txKeys.map String.toList).Nodup
      ∧ ∀ k ∈ txKeys.map String.toList, k.filter isKept = k := by
    decide
  refine ⟨_, _, rfl, rfl, ?_, ?_, ?_, ?_⟩
  · exact member_kept rfl hplain (filterStrings_textDoc h.fromKron1) (.tail _ (.head _))
  · exact member_kept rfl hplain (filterStrings_textDoc h.toKron1) (.tail _ (.tail _ (.head _)))
  · exact member_kept rfl hplain rfl
      (.tail _ (.tail _ (.tail _ (.head _))))
  · rw [toNat_ofNat_of_le h.index]
    exact member_kept rfl hplain rfl
      (.tail _ (.tail _ (.tail _ (.tail _ (.tail _ (.tail _ (.tail _ (.tail _ (.tail _ (.tail _
        (.tail _ (.tail _ (.head _)))))))))))))

theorem walletDoc_reads {w : WalletSnapshot} (hb : w.balance ≤ u64Max) (hn : w.nonce ≤ u64Max)
    (hrows : ∀ row ∈ w.txs, row.Plain) :
    WalletJson.Reads ((walletDoc hexEncode w).filterStrings isKept)
      ⟨UInt64.ofNat w.balance, UInt64.ofNat w.nonce, w.txs.map IndexedTransaction.read⟩ := by
  have hplain : (walletKeys.map String.toList).Nodup
      ∧ ∀ k ∈ walletKeys.map String.toList, k.filter isKept = k := by
    decide
  refine ⟨_, Json.filterElements isKept (w.txs.map (txDoc hexEncode)), rfl, ?_, ?_, ?_, ?_⟩
  · rw [toNat_ofNat_of_le hb]
    exact member_kept rfl hplain rfl (.tail _ (.head _))
  · rw [toNat_ofNat_of_le hn]
    exact member_kept rfl hplain rfl (.tail _ (.tail _ (.tail _ (.head _))))
  · exact member_kept rfl hplain rfl
      (.tail _ (.tail _ (.tail _ (.tail _ (.head _)))))
  · rw [Json.filterElements_eq, List.map_map, List.forall₂_map_left_iff,
      List.forall₂_map_right_iff, List.forall₂_same]
    exact fun row hrow => txDoc_reads (hrows row hrow)

/-! ## Nesting -/

theorem depth_txDoc (row : IndexedTransaction) : (txDoc hexEncode row).depth ≤ 3 := by
  have hrelays : Json.depthElements (row.feeSplit.relayAddresses.map textDoc) ≤ 0 :=
    Json.depthElements_map_le (fun s => (le_refl 0 : (textDoc s).depth ≤ 0)) _
  simp [txDoc, feeSplitDoc, hashDoc, textDoc, natDoc, unitsDoc, Json.depth, Json.depthMembers,
    Nat.le_zero.1 hrelays]

theorem depth_walletDoc (w : WalletSnapshot) : (walletDoc hexEncode w).depth ≤ 5 := by
  have htxs : Json.depthElements (w.txs.map (txDoc hexEncode)) ≤ 3 :=
    Json.depthElements_map_le depth_txDoc _
  simp [walletDoc, txsDoc, textDoc, natDoc, unitsDoc, Json.depth, Json.depthMembers]
  omega

theorem depth_statsDoc (s : NetworkStats) : (statsDoc s).depth = 1 := by
  simp [statsDoc, textDoc, natDoc, unitsDoc, Json.depth, Json.depthMembers]

theorem depth_composeDoc (hint : ℕ × TxHash × TxHash × ℕ) (tips : List TxHash) :
    (composeDoc hexEncode hint tips).depth ≤ 2 := by
  have htips : Json.depthElements (tips.map (hashDoc hexEncode)) ≤ 0 :=
    Json.depthElements_map_le (fun h => (le_refl 0 : (hashDoc hexEncode h).depth ≤ 0)) _
  simp [composeDoc, hashDoc, textDoc, natDoc, Json.depth, Json.depthMembers,
    Nat.le_zero.1 htips]

end Documents

/-! ## A request and its answer -/

section Routes

theorem length_getJsonRequest (host path : String) : (asBytes (getJsonRequest host path)).length
    = (asBytes path).length + (asBytes host).length + 44 := by
  have hfixed : (asBytes "GET ").length + (asBytes " HTTP/1.1\r\nHost: ").length
      + (asBytes "\r\nConnection: close\r\n\r\n").length = 44 := by decide
  simp only [getJsonRequest, asBytes_append, List.length_append]
  omega

theorem pathChar_append {route s : String} (h : route.toList.Forall PathChar) :
    ∀ c ∈ (route ++ encodePath s).toList, PathChar c := by
  intro c hc
  rw [String.toList_append] at hc
  rcases List.mem_append.1 hc with hc | hc
  · exact List.forall_iff_forall_mem.1 h c hc
  · exact encodePath_chars hc

/-- The route of a hint, whatever is asked for. -/
theorem dispatch_composePath (s : String) :
    dispatch ("/api/compose/" ++ encodePath s).toList = .compose s := by
  have hsplit : ("/api/compose/" ++ encodePath s).toList
      = "/api/compose/".toList ++ (encodePath s).toList := String.toList_append
  have hne : ∀ path : List Char, ¬ "/api/compose/".toList <+: path →
      ("/api/compose/" ++ encodePath s).toList ≠ path := fun _ h =>
    hsplit ▸ append_ne_of_not_begins h
  have htx : stripPrefix "/api/tx/".toList ("/api/compose/" ++ encodePath s).toList = none := by
    rw [hsplit]
    rfl
  have hwallet : stripPrefix "/api/wallet/".toList ("/api/compose/" ++ encodePath s).toList
      = none := by
    rw [hsplit]
    rfl
  have hcompose : stripPrefix "/api/compose/".toList ("/api/compose/" ++ encodePath s).toList
      = some (encodePath s).toList := by
    rw [hsplit, stripPrefix_append]
  rw [dispatch, if_neg (not_or.2 ⟨hne _ (by decide), hne _ (by decide)⟩),
    if_neg (hne _ (by decide)), if_neg (hne _ (by decide)),
    if_neg (not_or.2 ⟨hne _ (by decide), hne _ (by decide)⟩), if_neg (hne _ (by decide)), htx,
    hwallet, hcompose]
  exact congrArg HttpAnswer.compose (percentDecode_encodePath s)

theorem dispatch_stats : dispatch "/api/stats".toList = .stats := by decide

end Routes

section Answers

variable {C : ExplorerCodec} {hexEncode : Bytes → String} {page host s text : String}
  {e : ExplorerEngine}

/-- The explorer, as the wallet reaches it. -/
def explorerWire (C : ExplorerCodec) (hexEncode : Bytes → String) (page : String)
    (e : ExplorerEngine) (req : Bytes) : Option Bytes :=
  some (serve C.hexDecode hexEncode page e req)

theorem getJson_explorerWire {path : String} (hpath : ∀ c ∈ path.toList, PathChar c)
    (hne : path.toList ≠ []) (hfits : (asBytes (getJsonRequest host path)).length ≤ 8192)
    (h : jsonBody C.hexDecode hexEncode e (dispatch path.toList) = some text)
    (hstatus : jsonStatus C.hexDecode e (dispatch path.toList) = 200) :
    getJson (explorerWire C hexEncode page e) host path = some text := by
  rw [← handleClient_of_path host hpath hne hfits] at h hstatus
  rw [getJson, explorerWire, Option.bind_some]
  exact readAnswer_serve h hstatus

/-- What the wallet reads of a hint is the hint. -/
theorem fetchCompose_explorerWire (hC : C.Reads hexEncode)
    (hfits : (asBytes (getJsonRequest host ("/api/compose/" ++ encodePath s))).length ≤ 8192)
    {nonce balance : ℕ} {p1 p2 : TxHash}
    (hhint : e.composeHint C.hexDecode s = (nonce, p1, p2, balance)) (hn : nonce ≤ u64Max)
    (hb : balance ≤ u64Max) :
    fetchCompose C (explorerWire C hexEncode page e) host s
      = some ⟨UInt64.ofNat nonce, p1, p2, UInt64.ofNat balance⟩ := by
  have hroute := dispatch_composePath s
  have hget : getJson (explorerWire C hexEncode page e) host ("/api/compose/" ++ encodePath s)
      = some (composeJson hexEncode (nonce, p1, p2, balance) e.tips) := by
    refine getJson_explorerWire (pathChar_append (by decide)) (by simp) hfits ?_ ?_
    · rw [hroute, ← hhint]
      rfl
    · rw [hroute]
      rfl
  have hdoc := (document_of_write (write_composeDoc hexEncode (nonce, p1, p2, balance) e.tips)
    _).2 rfl
  have hdepth : ((composeDoc hexEncode (nonce, p1, p2, balance) e.tips).filterStrings
      isKept).depth < 128 := by
    rw [Json.depth_filterStrings]
    exact (depth_composeDoc _ _).trans_lt (by decide)
  have hread := hC.compose hdoc hdepth (composeDoc_reads hC hn hb e.tips)
  simp only [fetchCompose, hget, hread, Option.bind_eq_bind, Option.bind_some,
    parseHex32_hexEncode hC]
  rfl

/-- What the wallet shows of an address whose rows are plain. -/
theorem fetchView_explorerWire (hC : C.Reads hexEncode)
    (hfits : (asBytes (getJsonRequest host ("/api/wallet/" ++ encodePath s))).length ≤ 8192)
    {snap : WalletSnapshot} (hsnap : e.getWalletSnapshot C.hexDecode s = snap)
    (hcount : e.dagTxCount ≤ u64Max) (hb : snap.balance ≤ u64Max) (hn : snap.nonce ≤ u64Max)
    (hrows : ∀ row ∈ snap.txs, row.Plain) :
    fetchView C (explorerWire C hexEncode page e) host s =
      { online := true
        dagTxCount := UInt64.ofNat e.dagTxCount
        circulating := formatUnits e.circulatingSupply
        balanceText := formatKronAmount (UInt64.ofNat snap.balance)
        txs := ((snap.txs.map IndexedTransaction.read).reverse.take 12).map .ofTx } := by
  have hroute := dispatch_walletPath s
  unfold walletPath at hroute
  have hstatsFits : (asBytes (getJsonRequest host "/api/stats")).length ≤ 8192 := by
    have hlen : (asBytes "/api/stats").length ≤ (asBytes "/api/wallet/").length := by decide
    rw [length_getJsonRequest] at hfits ⊢
    rw [asBytes_append, List.length_append] at hfits
    omega
  have hstats : getJson (explorerWire C hexEncode page e) host "/api/stats"
      = some (statsJson e.getNetworkStats) := by
    refine getJson_explorerWire (List.forall_iff_forall_mem.1 (by decide)) (by decide) hstatsFits
      ?_ ?_
    · rw [dispatch_stats]
      rfl
    · rw [dispatch_stats]
      rfl
  have hwallet : getJson (explorerWire C hexEncode page e) host ("/api/wallet/" ++ encodePath s)
      = some (walletJson hexEncode snap) := by
    refine getJson_explorerWire (pathChar_append (by decide)) (by simp) hfits ?_ ?_
    · rw [hroute, ← hsnap]
      rfl
    · rw [hroute]
      rfl
  have hstatsDoc := (document_of_write (write_statsDoc e.getNetworkStats) _).2 rfl
  have hwalletDoc := (document_of_write (write_walletDoc hexEncode snap) _).2 rfl
  have hstatsDepth : ((statsDoc e.getNetworkStats).filterStrings isKept).depth < 128 := by
    rw [Json.depth_filterStrings, depth_statsDoc]
    decide
  have hwalletDepth : ((walletDoc hexEncode snap).filterStrings isKept).depth < 128 := by
    rw [Json.depth_filterStrings]
    exact (depth_walletDoc snap).trans_lt (by decide)
  have hreadStats := hC.stats hstatsDoc hstatsDepth (statsDoc_reads hcount)
  have hreadWallet := hC.wallet hwalletDoc hwalletDepth (walletDoc_reads hb hn hrows)
  unfold fetchView
  rw [hstats, hwallet, Option.bind_some, hreadStats]
  dsimp only
  rw [Option.bind_some, hreadWallet]
  rfl

end Answers

/-! ## A stand-in for the crates -/

namespace StandIn

open Decimal

def memberOf (ms : List (List Char × Json)) (name : String) : Option Json :=
  match ms.filter fun m => m.1 = name.toList with
  | [m] => some m.2
  | _ => none

def readU64 : Json → Option UInt64
  | .number n => some (UInt64.ofNat (number n.text))
  | _ => none

def readText : Json → Option String
  | .string s => some (String.ofList s)
  | _ => none

def readStats : Json → Option StatsJson
  | .object ms => do
    let count ← (memberOf ms "dag_tx_count").bind readU64
    let txs ← (memberOf ms "tx_count").bind readU64
    let circulating ← (memberOf ms "circulating_kron").bind readText
    return ⟨some count, some txs, some circulating⟩
  | _ => none

def readTx : Json → Option TxJson
  | .object ms => do
    let fromKron1 ← (memberOf ms "from").bind readText
    let toKron1 ← (memberOf ms "to").bind readText
    let amount ← (memberOf ms "amount").bind readU64
    let index ← (memberOf ms "dag_tx_index").bind readU64
    return ⟨fromKron1, toKron1, amount, some index⟩
  | _ => none

def readTxs : Json → Option (List TxJson)
  | .array vs => vs.mapM readTx
  | _ => none

def readWallet : Json → Option WalletJson
  | .object ms => do
    let balance ← (memberOf ms "balance").bind readU64
    let nonce ← (memberOf ms "nonce").bind readU64
    let txs ← (memberOf ms "txs").bind readTxs
    return ⟨balance, nonce, txs⟩
  | _ => none

def readCompose : Json → Option ComposeJson
  | .object ms => do
    let nonce ← (memberOf ms "nonce").bind readU64
    let balance ← (memberOf ms "balance").bind readU64
    let p1 ← (memberOf ms "parent_1").bind readText
    let p2 ← (memberOf ms "parent_2").bind readText
    return ⟨nonce, balance, some p1, some p2⟩
  | _ => none

/-- Each document is read by the grammar, and then by its members. -/
noncomputable def explorerCodec : ExplorerCodec where
  statsFromStr text := (Json.reading text.toList).bind readStats
  walletFromStr text := (Json.reading text.toList).bind readWallet
  composeFromStr text := (Json.reading text.toList).bind readCompose
  hexDecode s := readHexPairs s.toList

variable {ms : List (List Char × Json)} {name : String} {v : Json}

theorem memberOf_eq (h : Member ms name v) : memberOf ms name = some v := by
  unfold Member at h
  rw [memberOf, h]

@[simp] theorem readU64_natDoc (n : UInt64) : readU64 (natDoc n.toNat) = some n := by
  rw [natDoc, readU64, Json.Number.ofNat, number_toDigits, UInt64.ofNat_toNat]

@[simp] theorem readText_textDoc (s : String) : readText (textDoc s) = some s := by
  rw [textDoc, readText, String.ofList_toList]

theorem readStats_of_reads {s : StatsJson} (h : s.Reads v) : readStats v = some s := by
  obtain ⟨ms, count, txs, circulating, rfl, rfl, hcount, htxs, hcirculating⟩ := h
  simp [readStats, memberOf_eq hcount, memberOf_eq htxs, memberOf_eq hcirculating]

theorem readTx_of_reads {tx : TxJson} (h : tx.Reads v) : readTx v = some tx := by
  obtain ⟨fromKron1, toKron1, amount, index⟩ := tx
  obtain ⟨ms, i, rfl, rfl, hfrom, hto, hamount, hindex⟩ := h
  simp [readTx, memberOf_eq hfrom, memberOf_eq hto, memberOf_eq hamount, memberOf_eq hindex]

theorem mapM_readTx {vs : List Json} {txs : List TxJson} (h : List.Forall₂ TxJson.Reads vs txs) :
    vs.mapM readTx = some txs := by
  induction h with
  | nil => rfl
  | cons hv _ ih => simp [readTx_of_reads hv, ih]

theorem readWallet_of_reads {w : WalletJson} (h : w.Reads v) : readWallet v = some w := by
  obtain ⟨ms, vs, rfl, hbalance, hnonce, htxs, hall⟩ := h
  simp [readWallet, memberOf_eq hbalance, memberOf_eq hnonce, memberOf_eq htxs, readTxs,
    mapM_readTx hall]

theorem readCompose_of_reads {c : ComposeJson} (h : c.Reads v) : readCompose v = some c := by
  obtain ⟨nonce, balance, parent1, parent2⟩ := c
  obtain ⟨ms, p1, p2, rfl, rfl, rfl, hnonce, hbalance, hp1, hp2⟩ := h
  simp [readCompose, memberOf_eq hnonce, memberOf_eq hbalance, memberOf_eq hp1, memberOf_eq hp2]

theorem explorerCodec_reads : explorerCodec.Reads hexEncode where
  stats hdoc _ hs := by simp [explorerCodec, Json.reading_of_document hdoc, readStats_of_reads hs]
  wallet hdoc _ hw := by
    simp [explorerCodec, Json.reading_of_document hdoc, readWallet_of_reads hw]
  compose hdoc _ hc := by
    simp [explorerCodec, Json.reading_of_document hdoc, readCompose_of_reads hc]
  hexDecode := readHexPairs_hexEncode
  digits := walletCodec_reads.digits

end StandIn

/-! ## In every state of a run -/

section Run

variable {P : Primitives} {d : KronDAG}

open KronDAG

theorem le_indexRows (dag : KronDAG) {row : IndexedTransaction} :
    ∀ {txs : List DagTransaction} {userIndex : ℕ}, userIndex ≤ u64Max →
      row ∈ indexRows dag userIndex txs → row.dagTxIndex ≤ u64Max
  | tx :: txs, userIndex, hle, h => by
    have hnext : (if tx.isGenesis = false then saturatingAdd userIndex 1 else userIndex)
        ≤ u64Max := by
      unfold saturatingAdd
      split_ifs <;> omega
    rcases List.mem_cons.1 h with rfl | h
    · exact hnext
    · exact le_indexRows dag hnext h

/-- The rows of the vertices that an address sent or received, in attach order. -/
def rowsOf (dag : KronDAG) (a : Address) : List IndexedTransaction :=
  (indexRows dag 0 dag.transactionsInOrder).filter fun row =>
    row.fromKron1 = encodeKron a ∨ row.toKron1 = encodeKron a

theorem Graph.Grown.plain_rowsOf {start : Graph} {dag : KronDAG}
    (hg : dag.toGraph.Grown P start) (a : Address) : ∀ row ∈ rowsOf dag a, row.Plain := by
  intro row hrow
  have hmem := List.mem_of_mem_filter hrow
  have hindex := le_indexRows dag (Nat.zero_le _) hmem
  obtain ⟨tx, htx, i, rfl⟩ := mem_indexRows dag hmem
  have hl := (Graph.mem_transactionsInOrder hg.wf).1 htx
  obtain ⟨hfrom, hto⟩ := DagTransaction.kron1_of_verify (hg.verified hl).1
  refine ⟨?_, ?_, hindex⟩
  · change ∀ c ∈ tx.senderKron1.toList, isKept c = true
    rw [hfrom]
    exact kept_encodeKron _
  · change ∀ c ∈ tx.recipientKron1.toList, isKept c = true
    rw [hto]
    exact kept_encodeKron _

/-- In every state of a run the wallet shows of an address, in whichever spelling, what the node
knows of it: the count and the supply, the balance, and of the vertices that the address sent or
received the last twelve, the last first. -/
theorem fetchView_run (h : withGenesis P = some d) (ops : List Op) {C : ExplorerCodec}
    {hexEncode : Bytes → String} (hC : C.Reads hexEncode) (page host : String)
    (e : ExplorerEngine) {a : Address} {s : String}
    (hs : parseExplorerAddress C.hexDecode s = some a)
    (hfits : (asBytes (getJsonRequest host ("/api/wallet/" ++ encodePath s))).length ≤ 8192) :
    fetchView C (explorerWire C hexEncode page (e.syncFromDag C.hexDecode (run P d ops))) host s =
      { online := true
        dagTxCount := UInt64.ofNat (run P d ops).dagTxCount
        circulating := formatUnits (run P d ops).currentSupply
        balanceText := formatKronAmount (UInt64.ofNat ((run P d ops).balance a))
        txs := ((rowsOf (run P d ops) a).reverse.take 12).map fun row =>
          ⟨row.fromKron1, row.toKron1, formatKronAmount row.amount,
            UInt64.ofNat row.dagTxIndex⟩ } := by
  have hg := grown_run h ops
  have hrange := (inRange_run h ops).ledger
  generalize run P d ops = dag at *
  have hsync := syncFromDag_balances dag C.hexDecode e a
  have hhistory : (e.syncFromDag C.hexDecode dag).getWalletHistory C.hexDecode (encodeKron a)
      = rowsOf dag a :=
    (hg.recorded e).getWalletHistory (indexRows_pairwise dag _ (Nat.zero_le _)).1 a
  have hsnap := getWalletSnapshot_eq (e.syncFromDag C.hexDecode dag) hs
  rw [hsync.1, hsync.2, hhistory] at hsnap
  rw [fetchView_explorerWire hC hfits hsnap hrange.count (hrange.balance a) (hrange.nonce a)
    (hg.plain_rowsOf a), ← List.map_reverse, ← List.map_take, List.map_map]
  rfl

/-- What the wallet reads of a hint are the next nonce and the balance of the address, and parents
that a vertex may have. -/
theorem Graph.Grown.fetchCompose {start : Graph} {dag : KronDAG} (hg : dag.toGraph.Grown P start)
    (hrange : dag.toLedger.InRange) {C : ExplorerCodec} {hexEncode : Bytes → String}
    (hC : C.Reads hexEncode) (page host : String) (e : ExplorerEngine) {a : Address} {s : String}
    (hs : parseExplorerAddress C.hexDecode s = some a)
    (hfits : (asBytes (getJsonRequest host ("/api/compose/" ++ encodePath s))).length ≤ 8192) :
    ∃ p1 p2, KronMesh.fetchCompose C
        (explorerWire C hexEncode page (e.syncFromDag C.hexDecode dag)) host s
          = some ⟨UInt64.ofNat (dag.nextNonce.get a), p1, p2, UInt64.ofNat (dag.balance a)⟩
      ∧ dag.Parents (p1, p2) := by
  obtain ⟨p1, p2, hhint, hpar⟩ := hg.composeHint e hs
  exact ⟨p1, p2, fetchCompose_explorerWire hC hfits hhint (hrange.nonce a) (hrange.balance a),
    hpar⟩

section

open StandIn

theorem length_encodePath_le (s : String) :
    (asBytes (encodePath s)).length ≤ 3 * (asBytes s).length := by
  rw [asBytes_encodePath]
  induction asBytes s with
  | nil => exact Nat.le_refl 0
  | cons b l ih =>
    have hb : (escapeBytes b).length ≤ 3 := by
      rw [escapeBytes, encodePathByte]
      split_ifs
      · exact Nat.le_add_left 1 2
      · exact Nat.le_refl 3
    rw [List.flatMap_cons, List.length_append, List.length_cons]
    omega

theorem fits_encodeKron {route : String} (h : (asBytes route).length ≤ 100) (a : Address) :
    (asBytes (getJsonRequest "127.0.0.1:8080" (route ++ encodePath (encodeKron a)))).length
      ≤ 8192 := by
  have hhost : (asBytes "127.0.0.1:8080").length = 14 := by decide
  have hhrp : hrpBytes.length = 4 := by decide
  have hlen := length_encodePath_le (encodeKron a)
  rw [asBytes_encodeKron, List.length_append, List.length_cons, List.length_map,
    length_addressSymbols, hhrp] at hlen
  rw [length_getJsonRequest, asBytes_append, List.length_append, hhost]
  omega

/-- The wallet that sent the first transfer shows what is left. -/
theorem fetchView_run_firstOps : (fetchView explorerCodec
    (explorerWire explorerCodec hexEncode "" (ExplorerEngine.default.syncFromDag
      explorerCodec.hexDecode (run primitives genesisDag firstOps)))
    "127.0.0.1:8080" (encodeKron (address 1))).balanceText = "1.099000" := by
  rw [fetchView_run withGenesis_genesisDag firstOps explorerCodec_reads "" "127.0.0.1:8080"
    .default parseExplorerAddress_encodeKron (fits_encodeKron (by decide) _), run_firstOps]
  decide

end

end Run

end KronMesh
