import KronMesh.Lib.Outcome
import KronMesh.Lib.Tally
import KronMesh.Tx

/-!
# The account ledger

Balances, nonces, relay credits and the two counters of a node, and what one vertex does to them:
the checks of its spend, the move of its amount and fee, and the mint that pays the pool of fee and
subsidy out again.
-/

namespace KronMesh

open Word Outcome

structure Ledger where
  balances : Tally Address
  nextNonce : Tally Address
  relayCredits : Tally Address
  currentSupply : ℕ
  dagTxCount : ℕ

namespace Ledger

def empty : Ledger := ⟨∅, ∅, ∅, 0, 0⟩

def balance (l : Ledger) (address : Address) : ℕ := l.balances.get address

/-! ## Minting -/

/-- An account that is absent counts zero, and a zero cannot overflow: the zero entry the source
puts there first is never left behind by a failure. -/
def creditChecked (l : Ledger) (address : Address) (amount : ℕ) : Outcome Ledger EconomicError :=
  if amount = 0 then (l, .ok ())
  else
    match checkedAdd (l.balance address) amount with
    | some sum => ({ l with balances := l.balances.set address sum }, .ok ())
    | none => (l, .error .overflow)

def creditRelay (l : Ledger) (address : Address) (amount : ℕ) : Outcome Ledger EconomicError :=
  match checkedAdd (l.relayCredits.get address) amount with
  | some sum => ({ l with relayCredits := l.relayCredits.set address sum }, .ok ())
  | none => (l, .error .overflow)

def payRelays : Ledger → List (Address × ℕ) → Outcome Ledger EconomicError
  | l, [] => (l, .ok ())
  | l, (address, amount) :: payouts =>
    andThen (l.creditChecked address amount) fun l =>
      andThen (l.creditRelay address amount) fun l => payRelays l payouts

def addSupply (l : Ledger) (subsidy : ℕ) : Outcome Ledger EconomicError :=
  match checkedAdd l.currentSupply subsidy with
  | some sum => ({ l with currentSupply := sum }, .ok ())
  | none => (l, .error .overflow)

def countTx (l : Ledger) : Outcome Ledger EconomicError :=
  match checkedAdd l.dagTxCount 1 with
  | some sum => ({ l with dagTxCount := sum }, .ok ())
  | none => (l, .error .overflow)

end Ledger

def uniqueRelays (nodes : List Address) : List Address := nodes.foldl DagTransaction.pushNew []

/-- Equal shares of the relays' rest, the dust with the first. -/
def relayPayouts (relayTotal : ℕ) (relays : List Address) : List (Address × ℕ) :=
  relays.zipIdx.map fun p =>
    (p.1, saturatingAdd (relayTotal / relays.length)
      (if p.2 = 0 then relayTotal % relays.length else 0))

/-- The miner's cut of a pool, and what each relay gets of it. -/
def splitPool (totalTxPool : ℕ) (relayNodes : List Address) : ℕ × List (Address × ℕ) :=
  let minerShare := dagMinerShareOf totalTxPool
  let relayTotal := totalTxPool - minerShare
  let relays := uniqueRelays relayNodes
  if relays.isEmpty then (saturatingAdd minerShare relayTotal, [])
  else (minerShare, relayPayouts relayTotal relays)

namespace Ledger

def mintConfirmedTx (l : Ledger) (fee : ℕ) (miner : Address) (relayNodes : List Address) :
    Outcome Ledger EconomicError :=
  let subsidy := getCurrentTxSubsidy l.dagTxCount l.currentSupply
  match checkedAdd subsidy fee with
  | none => (l, .error .overflow)
  | some totalTxPool =>
    let split := splitPool totalTxPool relayNodes
    andThen (l.creditChecked miner split.1) fun l =>
      andThen (l.payRelays split.2) fun l =>
        andThen (l.addSupply subsidy) countTx

/-! ## A spend -/

/-- The checks of a spend: the new balances of the sender and of the recipient. -/
def checkSpend (l : Ledger) (tx : DagTransaction) : Except DagError (ℕ × ℕ) :=
  if tx.nonce.toNat ≠ l.nextNonce.get tx.sender then .error (.doubleSpend tx.nonce)
  else
    match checkedAdd tx.amount.toNat tx.fee.toNat with
    | none => .error .overflow
    | some cost =>
      let fromBal := l.balance tx.sender
      if fromBal < cost then .error .insufficientBalance
      else if tx.sender = tx.recipient then
        match checkedSub fromBal tx.fee.toNat with
        | none => .error .overflow
        | some afterFee => .ok (afterFee, afterFee)
      else
        match checkedSub fromBal cost, checkedAdd (l.balance tx.recipient) tx.amount.toNat with
        | some newFrom, some newTo => .ok (newFrom, newTo)
        | _, _ => .error .overflow

/-- Sets the balances a spend was checked to lead to, and moves the sender's nonce on. -/
def moveSpend (l : Ledger) (tx : DagTransaction) (new : ℕ × ℕ) : Ledger :=
  let balances := l.balances.set tx.sender new.1
  { l with
    balances := if tx.sender = tx.recipient then balances else balances.set tx.recipient new.2
    nextNonce := l.nextNonce.set tx.sender (saturatingAdd (l.nextNonce.get tx.sender) 1) }

/-- `map_err` from a mint to the graph's errors. -/
def ofEconomic : EconomicError → DagError
  | .overflow => .overflow

def applyLedgerEffects (P : Primitives) (l : Ledger) (tx : DagTransaction) :
    Outcome Ledger DagError :=
  match l.checkSpend tx with
  | .error e => (l, .error e)
  | .ok new =>
    mapErr ((l.moveSpend tx new).mintConfirmedTx tx.fee.toNat tx.sender (tx.provenRelayNodes P))
      ofEconomic

end Ledger

end KronMesh
