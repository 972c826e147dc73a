import KronMesh.Hub
import KronMesh.WalletFetch

/-!
# A send from the wallet

The wallet reads the address and the amount that were typed, asks the explorer for parents and a
nonce, signs and broadcasts. Whatever the explorer answers, what is broadcast is signed by the
wallet and pays what was typed (`signSend_pays`). A hub that the explorer mirrors takes it in, and
moves the funds (`signSend_run`).
-/

namespace KronMesh

open Wire Text Word

/-! ## The wallet -/

/-- What is shown of a send that goes no further; `aborted` is a failed `expect`. -/
inductive SendError
  | invalidAddress (e : Fault Bech32Error)
  | invalidAmount (e : ParseAmountError)
  | notPositive
  | signing (e : DagError)
  | verification
  | aborted

inductive SendOutcome
  | error (e : SendError)
  | sent (tx : DagTransaction)
  | failed (tx : DagTransaction) (e : Fault NetworkError)

/-- What `sign_send` reads and writes of the window. -/
structure KronWalletApp where
  keypair : LatticeKeyPair
  address : String
  nonce : UInt64
  sendTo : String
  sendAmount : String

namespace KronWalletApp

variable (P : Primitives)

/-- The address and the amount that were typed. -/
def typed (app : KronWalletApp) : Except SendError (Address × UInt64) :=
  match decodeKron (trimText app.sendTo) with
  | .error e => .error (.invalidAddress e)
  | .ok dest =>
    match parseKronAmount app.sendAmount with
    | .error e => .error (.invalidAmount e)
    | .ok amount => if 0 < amount then .ok (dest, amount) else .error .notPositive

/-- The parents of the hint, or the genesis vertex. -/
def spendParents : Option ComposeHint → Except SendError (TxHash × TxHash)
  | some hint => .ok (hint.parent1, hint.parent2)
  | none =>
    match KronDAG.withGenesis P with
    | some genesis => .ok (genesis.genesisIdOr, genesis.genesisIdOr)
    | none => .error .aborted

/-- The transfer is signed as it is made, and once more. -/
def signTransfer (keypair : LatticeKeyPair) (parents : TxHash × TxHash) (dest : Address)
    (amount nonce : UInt64) : Except SendError DagTransaction :=
  match DagTransaction.userTransfer P parents.1 parents.2 keypair dest amount nonce with
  | .error e => .error (.signing e)
  | .ok tx =>
    match keypair.secret.sign P tx.unsignedBytes with
    | .error _ => .error .aborted
    | .ok sig =>
      let tx := { tx with signature := sig }
      if tx.verifySignature P then .ok tx else .error .verification

/-- What is signed for what was typed; the nonce of the hint is kept. -/
def compose (C : ExplorerCodec) (wire : Bytes → Option Bytes) (host : String)
    (app : KronWalletApp) : KronWalletApp × Except SendError DagTransaction :=
  match app.typed with
  | .error e => (app, .error e)
  | .ok (dest, amount) =>
    let hint := fetchCompose C wire host app.address
    let app := { app with nonce := (hint.map ComposeHint.nonce).getD app.nonce }
    (app, do
      let parents ← spendParents P hint
      signTransfer P app.keypair parents dest amount app.nonce)

/-- `broadcast` is `broadcast_wallet_tx` to the gateway. -/
def signSend (C : ExplorerCodec) (wire : Bytes → Option Bytes) (host : String)
    (broadcast : DagTransaction → Except (Fault NetworkError) Unit) (app : KronWalletApp) :
    KronWalletApp × SendOutcome :=
  let r := app.compose P C wire host
  match r.2 with
  | .error e => (r.1, .error e)
  | .ok tx =>
    match broadcast tx with
    | .error e => (r.1, .failed tx e)
    | .ok () => ({ r.1 with nonce := UInt64.ofNat (saturatingAdd r.1.nonce.toNat 1) }, .sent tx)

end KronWalletApp

/-! ## What is broadcast -/

/-- An address and an amount as they are shown can be typed. -/
theorem typed_of_shown {app : KronWalletApp} {dest : Address} {amount : UInt64}
    (hto : app.sendTo = encodeKron dest) (hamount : app.sendAmount = formatKronAmount amount)
    (hpos : 0 < amount) : app.typed = .ok (dest, amount) := by
  have hblank : ∀ c ∈ (encodeKron dest).toList, isWhitespace c = false := fun c hc =>
    forall_encodeKron (P := fun c => isWhitespace c = false) (by decide) (by decide) hc
  unfold KronWalletApp.typed
  rw [hto, hamount, trimText_of_none hblank, decodeKron_encodeKron, parseKronAmount_format]
  exact if_pos hpos

section Signed

variable {P : Primitives} {keypair : LatticeKeyPair} {dest : Address} {amount nonce : UInt64}
  {parents : TxHash × TxHash} {tx : DagTransaction}

/-- The second signature is the first. -/
theorem signTransfer_eq (hw : keypair.Signs P)
    (h : DagTransaction.userTransfer P parents.1 parents.2 keypair dest amount nonce = .ok tx) :
    KronWalletApp.signTransfer P keypair parents dest amount nonce = .ok tx := by
  have hverify := (DagTransaction.assemble_verify h hw.verifies).1
  have hsign : keypair.secret.sign P tx.unsignedBytes = .ok tx.signature := by
    simp only [DagTransaction.userTransfer, DagTransaction.assemble, DagTransaction.refreshId] at h
    split at h
    · rename_i sig hsig
      cases h
      exact hsig
    · cases h
  unfold KronWalletApp.signTransfer
  rw [h]
  dsimp only
  rw [hsign]
  exact if_pos hverify

/-- What is signed verifies, and pays what it was asked to. -/
theorem signTransfer_pays
    (h : KronWalletApp.signTransfer P keypair parents dest amount nonce = .ok tx) :
    tx.verifySignature P = true ∧ tx.sender = keypair.pub.address P ∧ tx.recipient = dest
      ∧ tx.amount = amount ∧ tx.fee = UInt64.ofNat fixedTransactionFee ∧ tx.nonce = nonce := by
  unfold KronWalletApp.signTransfer at h
  rcases htx : DagTransaction.userTransfer P parents.1 parents.2 keypair dest amount nonce
    with e | tx'
  · rw [htx] at h
    cases h
  · rw [htx] at h
    dsimp only at h
    obtain ⟨-, -, hsender, hrecipient, hamount, hfee, hnonce, -, -⟩ :=
      DagTransaction.assemble_fields htx
    split at h
    · cases h
    · split_ifs at h with hverify
      cases h
      exact ⟨hverify, hsender, hrecipient, hamount, hfee, hnonce⟩

end Signed

section Outcome

variable {P : Primitives} {C : ExplorerCodec} {wire : Bytes → Option Bytes} {host : String}
  {broadcast : DagTransaction → Except (Fault NetworkError) Unit} {app : KronWalletApp}

theorem compose_pays {tx : DagTransaction} (h : (app.compose P C wire host).2 = .ok tx) :
    tx.verifySignature P = true ∧ tx.sender = app.keypair.pub.address P
      ∧ app.typed = .ok (tx.recipient, tx.amount)
      ∧ tx.fee = UInt64.ofNat fixedTransactionFee := by
  unfold KronWalletApp.compose at h
  rcases htyped : app.typed with e | ⟨dest, amount⟩
  · rw [htyped] at h
    cases h
  · rw [htyped] at h
    dsimp only at h
    generalize fetchCompose C wire host app.address = hint at h
    rw [bind_eq_ok] at h
    obtain ⟨parents, -, hsigned⟩ := h
    obtain ⟨hverify, hsender, rfl, rfl, hfee, -⟩ := signTransfer_pays hsigned
    exact ⟨hverify, hsender, rfl, hfee⟩

/-- Whatever the explorer answers, what is broadcast verifies and is the wallet's own, and pays what
was typed, with the one fee. -/
theorem signSend_pays {tx : DagTransaction}
    (h : (app.signSend P C wire host broadcast).2 = .sent tx
      ∨ ∃ e, (app.signSend P C wire host broadcast).2 = .failed tx e) :
    tx.verifySignature P = true ∧ tx.sender = app.keypair.pub.address P
      ∧ app.typed = .ok (tx.recipient, tx.amount)
      ∧ tx.fee = UInt64.ofNat fixedTransactionFee := by
  have hsent : (app.compose P C wire host).2 = .ok tx := by
    unfold KronWalletApp.signSend at h
    dsimp only at h
    generalize app.compose P C wire host = r at h ⊢
    rcases hr : r.2 with e | tx'
    · simp [hr] at h
    · rcases hb : broadcast tx' with e | ⟨⟩
      · simpa [hr, hb] using h
      · simpa [hr, hb] using h
  exact compose_pays hsent

end Outcome

/-! ## What the hub makes of it -/

/-- Without relays the miner has the whole pool. -/
theorem splitPool_nil {pool : ℕ} (h : pool ≤ u64Max) : splitPool pool [] = (pool, []) :=
  Prod.ext (sum_splitPool [] h) rfl

namespace Ledger

variable {P : Primitives} {l l' : Ledger} {tx : DagTransaction}

/-- Without relays the fee comes back to the sender, with the subsidy. -/
theorem balance_applyLedgerEffects (h : l.applyLedgerEffects P tx = (l', .ok ()))
    (hrel : tx.provenRelayNodes P = []) (a : Address) :
    l'.balance a + (if a = tx.sender then tx.amount.toNat else 0)
      = l.balance a + (if a = tx.recipient then tx.amount.toNat else 0)
        + if a = tx.sender then getCurrentTxSubsidy l.dagTxCount l.currentSupply else 0 := by
  have hbook := book_applyLedgerEffects h
  unfold applyLedgerEffects at h
  rcases hs : l.checkSpend tx with e | new
  · rw [hs] at h
    cases h
  rw [hs] at h
  have hpool : l.book.subsidy + tx.fee.toNat ≤ u64Max :=
    (mintConfirmedTx_eq_ok.1 (Outcome.mapErr_eq_ok.1 h)).1
  obtain ⟨hcov, -⟩ := checkSpend_ok hs
  have hle : tx.amount.toNat + tx.fee.toNat ≤ l.balance tx.sender := hcov.2
  rw [Book.apply, if_pos hcov] at hbook
  have hgain : l.book.gain P tx a
      = if a = tx.sender then l.book.subsidy + tx.fee.toNat else 0 := by
    rw [Book.gain, Book.split, hrel, splitPool_nil hpool]
    rfl
  have hbal : l'.balance a = l.balance a
      - (if a = tx.sender then tx.amount.toNat + tx.fee.toNat else 0)
      + (if a = tx.recipient then tx.amount.toNat else 0)
      + if a = tx.sender then l.book.subsidy + tx.fee.toNat else 0 := by
    rw [← hgain]
    exact (congrFun (congrArg Book.balance (Option.some.inj hbook)) a).symm
  change _ = _ + if a = tx.sender then l.book.subsidy else 0
  rw [hbal]
  by_cases ha : a = tx.sender
  · subst ha
    simp only [if_true]
    omega
  · simp only [if_neg ha]
    omega

end Ledger

/-- The transfer is in: it is stored and no conflict, its nonce is used, its amount is with the
recipient, and its sender has the subsidy. -/
structure KronDAG.Paid (d d' : KronDAG) (tx : DagTransaction) : Prop where
  stored : d'.contains tx.id = true
  kept : d'.isConflict tx.id = false
  nonce : d'.nextNonce.get tx.sender = saturatingAdd (d.nextNonce.get tx.sender) 1
  balance : ∀ a, d'.balance a + (if a = tx.sender then tx.amount.toNat else 0)
    = d.balance a + (if a = tx.recipient then tx.amount.toNat else 0)
      + if a = tx.sender then getCurrentTxSubsidy d.dagTxCount d.currentSupply else 0

section Run

variable {P : Primitives} {d : KronDAG}

open KronDAG

/-- What is attached without relays is paid. -/
theorem paid_attached {dag : KronDAG} (hwf : dag.WF) {tx : DagTransaction}
    (hcheck : dag.checkVertex P tx = .ok ()) {new : ℕ × ℕ} (hs : dag.checkSpend tx = .ok new)
    (hrel : tx.provenRelayNodes P = []) (hok : (dag.attached tx new []).2 = .ok ()) :
    dag.Paid (dag.attached tx new []).1 tx := by
  obtain ⟨hgraph, -, hconflicts⟩ := dag.attached_frame tx new []
  have happ := applyLedgerEffects_of_attached (hwf.graph.not_isGenesis hcheck) hs
    (hrel.symm ▸ Prod.ext rfl hok : dag.attached tx new (tx.provenRelayNodes P)
      = ((dag.attached tx new []).1, .ok ()))
  refine ⟨?_, ?_, ?_, Ledger.balance_applyLedgerEffects happ hrel⟩
  · rw [hgraph]
    exact Graph.contains_iff.2 ⟨tx, by rw [Graph.lookup_insertVertex, if_pos rfl]⟩
  · unfold isConflict
    rw [hconflicts]
    exact hwf.isConflict_of_not_contains (Graph.not_contains_of_checkVertex hcheck)
  · have hbook := Ledger.book_applyLedgerEffects happ
    rw [Book.apply, if_pos (Ledger.checkSpend_ok hs).1] at hbook
    have hnonce := congrFun (congrArg Book.nonce (Option.some.inj hbook)) tx.sender
    rw [Book.enter_nonce, if_pos rfl] at hnonce
    exact hnonce.symm

/-- What is typed is composed and goes out, when the explorer has a hint. -/
theorem signSend_hint {C : ExplorerCodec} {wire : Bytes → Option Bytes} {host : String}
    {app : KronWalletApp} {dest : Address} {amount : UInt64} {hint : ComposeHint}
    {tx : DagTransaction} (hw : app.keypair.Signs P) (htyped : app.typed = .ok (dest, amount))
    (hhint : fetchCompose C wire host app.address = some hint)
    (htx : DagTransaction.userTransfer P hint.parent1 hint.parent2 app.keypair dest amount
      hint.nonce = .ok tx) (broadcast : DagTransaction → Except (Fault NetworkError) Unit) :
    (broadcast tx = .ok () → app.signSend P C wire host broadcast
      = ({ app with nonce := UInt64.ofNat (saturatingAdd hint.nonce.toNat 1) }, .sent tx))
    ∧ ∀ e, broadcast tx = .error e → app.signSend P C wire host broadcast
      = ({ app with nonce := hint.nonce }, .failed tx e) := by
  have hcompose : app.compose P C wire host = ({ app with nonce := hint.nonce }, .ok tx) := by
    unfold KronWalletApp.compose
    rw [htyped]
    dsimp only
    rw [hhint]
    exact Prod.ext rfl (signTransfer_eq hw htx)
  unfold KronWalletApp.signSend
  rw [hcompose]
  dsimp only
  exact ⟨fun h => by rw [h], fun e h => by rw [h]⟩

/-- Whatever answers the wallet, all it ever broadcasts is its own payment of what is typed. In
every state of a run, a wallet that can pay for it does broadcast it, and keeps the nonce that is
next behind it. Unless it has the hash of another vertex, the hub takes it in and keeps it: the
amount is with the recipient, and no more than that is gone from the sender, for fee and subsidy
come back to who made the vertex. -/
theorem signSend_run (h : withGenesis P = some d) (ops : List Op)
    (haddr : (run P d ops).Addressed P) (hF : (run P d ops).faucetTotal + hardCap ≤ u64Max)
    (hn : (run P d ops).vertexCount + 1 ≤ u64Max) {C : ExplorerCodec} {hexEncode : Bytes → String}
    (hC : C.Reads hexEncode) (page host : String) (e : ExplorerEngine) {app : KronWalletApp}
    (hw : app.keypair.Signs P) (haddress : app.address = deriveKronAddress P app.keypair.pub)
    (hfits : (asBytes (getJsonRequest host ("/api/compose/" ++ encodePath app.address))).length
      ≤ 8192)
    {dest : Address} {amount : UInt64} (htyped : app.typed = .ok (dest, amount))
    (hbal : amount.toNat + fixedTransactionFee
      ≤ (run P d ops).balance (app.keypair.pub.address P)) (store : DagStore) :
    (∀ wire broadcast tx, ((app.signSend P C wire host broadcast).2 = .sent tx
        ∨ ∃ e, (app.signSend P C wire host broadcast).2 = .failed tx e) →
      tx.verifySignature P = true ∧ tx.sender = app.keypair.pub.address P ∧ tx.recipient = dest
        ∧ tx.amount = amount ∧ tx.fee = UInt64.ofNat fixedTransactionFee) ∧
    ∃ tx, tx.sender = app.keypair.pub.address P ∧ tx.recipient = dest ∧ tx.amount = amount ∧
      (∀ broadcast, broadcast tx = .ok () → ∃ nonce,
        app.signSend P C
            (explorerWire C hexEncode page (e.syncFromDag C.hexDecode (run P d ops))) host broadcast
          = ({ app with nonce := nonce }, .sent tx)
        ∧ nonce.toNat = saturatingAdd ((run P d ops).nextNonce.get tx.sender) 1) ∧
      ((run P d ops).NoCollision P tx → ∃ hub',
        HubState.ingest P ⟨run P d ops, store⟩ tx = (hub', .ok true)
        ∧ (run P d ops).Paid hub'.dag tx) := by
  refine ⟨fun wire broadcast tx hout => ?_, ?_⟩
  · obtain ⟨hverify, hsender, htyped', hfee⟩ := signSend_pays hout
    rw [htyped, Except.ok.injEq, Prod.mk.injEq] at htyped'
    exact ⟨hverify, hsender, htyped'.1.symm, htyped'.2.symm, hfee⟩
  have hg := grown_run h ops
  have hback := backed_run h ops hF
  have hrange := (inRange_run h ops).ledger
  have hwf := wf_run h ops
  generalize run P d ops = dag at *
  have hs : parseExplorerAddress C.hexDecode app.address = some (app.keypair.pub.address P) := by
    rw [haddress]
    exact parseExplorerAddress_encodeKron
  obtain ⟨p1, p2, hhint, hpar⟩ := hg.fetchCompose hrange hC page host e hs hfits
  obtain ⟨tx, htx⟩ := userTransfer_isOk hw p1 p2 dest amount
    (UInt64.ofNat (dag.nextNonce.get (app.keypair.pub.address P)))
  obtain ⟨-, -, hsender, hrecipient, hamount, -, -, -, hproofs⟩ :=
    DagTransaction.assemble_fields htx
  refine ⟨tx, hsender, hrecipient, hamount, fun broadcast hb => ?_, fun hnew => ?_⟩
  · refine ⟨_, (signSend_hint hw htyped hhint htx broadcast).1 hb, ?_⟩
    rw [hsender, UInt64.toNat_ofNat', UInt64.toNat_ofNat']
    rw [Nat.mod_eq_of_lt (Nat.lt_of_le_of_lt (hrange.nonce _) (by decide))]
    exact Nat.mod_eq_of_lt (Nat.lt_of_le_of_lt (min_le_right _ _) (by decide))
  · have hcount := hback.ledger.count
    have hcheck := checkVertex_transfer hg haddr hw hpar htx hnew
    obtain ⟨new, hspend, hok, -⟩ := attached_transfer hg hback hF hrange (by omega) hcheck htx hbal
    have hrel := DagTransaction.provenRelayNodes_nil (P := P) hproofs
    have hacc := accept_admitted (P := P) hcheck
    rw [hspend, hrel] at hacc
    dsimp only at hacc
    rw [hok] at hacc
    refine ⟨HubState.persistVertex P ⟨(dag.attached tx new []).1, store⟩ tx, ?_,
      paid_attached hwf hcheck hspend hrel hok⟩
    unfold HubState.ingest
    dsimp only
    rw [hacc]
    rfl

section

open StandIn

/-- Wallet 1, with a payment of a thousand units to wallet 2 typed. -/
def payingApp : KronWalletApp :=
  ⟨firstWallet, encodeKron (address 1), 0, encodeKron (address 2), formatKronAmount 1000⟩

/-- The payment joins the two tips of a fork, and its thousand units arrive. -/
theorem signSend_run_forkOps : ∃ hub',
    HubState.ingest primitives ⟨run primitives genesisDag forkOps, .empty⟩ hintTransfer
      = (hub', .ok true)
    ∧ hub'.dag.balance (address 2)
      = (run primitives genesisDag forkOps).balance (address 2) + 1000 := by
  have hF : (run primitives genesisDag forkOps).faucetTotal + hardCap ≤ u64Max := by
    rw [run_forkOps]
    decide
  have hn : (run primitives genesisDag forkOps).vertexCount + 1 ≤ u64Max := by
    rw [run_forkOps]
    decide
  have hw : payingApp.keypair.Signs primitives := signs_fromSeed _
  have hsender : payingApp.keypair.pub.address primitives = address 1 := address_firstWallet
  have haddress : payingApp.address = deriveKronAddress primitives payingApp.keypair.pub := by
    rw [deriveKronAddress, hsender]
    rfl
  have htyped : payingApp.typed = .ok (address 2, 1000) := typed_of_shown rfl rfl (by decide)
  have hbal : (1000 : UInt64).toNat + fixedTransactionFee
      ≤ (run primitives genesisDag forkOps).balance (payingApp.keypair.pub.address primitives) := by
    rw [hsender, run_forkOps]
    decide
  have hfits : (asBytes (getJsonRequest "127.0.0.1:8080"
      ("/api/compose/" ++ encodePath payingApp.address))).length ≤ 8192 :=
    fits_encodeKron (by decide) (address 1)
  obtain ⟨-, tx, -, hrecipient, hamount, hsent, htaken⟩ := signSend_run withGenesis_genesisDag
    forkOps addressed_forkOps hF hn explorerCodec_reads "" "127.0.0.1:8080" .default hw haddress
    hfits htyped hbal .empty
  have hhint : fetchCompose explorerCodec (explorerWire explorerCodec hexEncode ""
      (ExplorerEngine.default.syncFromDag explorerCodec.hexDecode
        (run primitives genesisDag forkOps))) "127.0.0.1:8080" payingApp.address
      = some ⟨1, 12534542786466, 12534660997154, 1099000⟩ :=
    fetchCompose_explorerWire explorerCodec_reads hfits composeHint_forkOps (by decide) (by decide)
  obtain ⟨nonce, hout, -⟩ := hsent (fun _ => .ok ()) rfl
  have hsigned := (signSend_hint hw htyped hhint
    (userTransfer_eq 1 _ _ (address 2) 1000 1 id_hintTransfer) fun _ => .ok ()).1 rfl
  obtain rfl : hintTransfer = tx :=
    SendOutcome.sent.inj (congrArg Prod.snd (hsigned.symm.trans hout))
  obtain ⟨hub', hin, hpaid⟩ := htaken (noCollision_forkOps id_hintTransfer (by decide))
  have hbalance := hpaid.balance (address 2)
  have hself : address 2 ≠ hintTransfer.sender := by decide
  have hthousand : (1000 : UInt64).toNat = 1000 := rfl
  rw [if_neg hself, if_neg hself, if_pos hrecipient.symm, hamount, hthousand] at hbalance
  exact ⟨hub', hin, hbalance⟩

end

end Run

end KronMesh
