import KronMesh.Run
import Mathlib.Data.Stream.Defs

/-!
# The phone miner

One tick of the miner: the parents are picked by weighted walks towards the tips, a share of one
unit is signed and attached. On a graph of the genesis vertex alone the phone first credits itself
what the share costs. That dust stays on the phone.
-/

namespace KronMesh

open Word

/-! ## The choice of the parents -/

def tipWalkBound : ℕ := 256

/-- The draws a random generator has still to make. -/
abbrev Rng := Stream' ℕ

/-- `gen_range(0..n)`. -/
def Rng.genRange (rng : Rng) (n : ℕ) : ℕ × Rng := (rng.head % n, rng.tail)

/-- `iter().choose(rng)`. -/
def Rng.choose (rng : Rng) (l : List TxHash) : Option TxHash × Rng :=
  (l[rng.head % l.length]?, rng.tail)

/-- What a call leaves to chance: the order in which a hash set is iterated, and the thread's
random generator. -/
structure Chance where
  iter : List TxHash → List TxHash
  perm : ∀ s, (iter s).Perm s
  rng : Rng

namespace Graph

def childWeight (g : Graph) (h : TxHash) : ℕ := max ((g.weights.lookup h).getD 1) 1

/-- The child the ticket falls on. -/
def ticketHolder (g : Graph) : ℕ → List TxHash → Option TxHash
  | _, [] => none
  | ticket, h :: kids =>
    if ticket < g.childWeight h then some h else ticketHolder g (ticket - g.childWeight h) kids

def pickWeightedChild (c : Chance) (g : Graph) (parent : TxHash) (rng : Rng) :
    Option TxHash × Rng :=
  match g.children.lookup parent with
  | none => (none, rng)
  | some kids =>
    let kids := c.iter kids
    if kids.isEmpty then (none, rng)
    else
      let total := kids.foldl (fun total h => saturatingAdd total (g.childWeight h)) 0
      if total = 0 then (kids.head?, rng)
      else
        let (ticket, rng) := rng.genRange total
        ((g.ticketHolder ticket kids).or kids.head?, rng)

/-- The walk along the children, of so many steps at most. -/
def walkFrom (c : Chance) (g : Graph) : ℕ → TxHash → Rng → TxHash × Rng
  | 0, current, rng =>
    let (tip, rng) := rng.choose (c.iter g.tips)
    (tip.getD current, rng)
  | steps + 1, current, rng =>
    match g.pickWeightedChild c current rng with
    | (some next, rng) => walkFrom c g steps next rng
    | (none, rng) => (current, rng)

def walkToTip (c : Chance) (g : Graph) (rng : Rng) : TxHash × Rng :=
  if g.contains g.genesisIdOr then g.walkFrom c tipWalkBound g.genesisIdOr rng
  else
    let (tip, rng) := rng.choose (c.iter g.tips)
    (tip.getD nullParent, rng)

def selectParents (c : Chance) (g : Graph) : TxHash × TxHash :=
  match g.tips with
  | [] => (nullParent, nullParent)
  | [tip] => if tip = g.genesisIdOr then (tip, tip) else (tip, g.genesisIdOr)
  | _ =>
    let (p1, rng) := g.walkToTip c c.rng
    let (p2, _) := g.walkToTip c rng
    if p1 = p2 then (p1, ((c.iter g.tips).find? (· ≠ p1)).getD p2) else (p1, p2)

end Graph

/-! ## The texts of the errors -/

/-- `{:?}` of a hash. -/
def debugHash (h : Hash) : String :=
  "[" ++ ", ".intercalate ((hashBytes h).map fun b => toString b.toNat) ++ "]"

def CryptoError.text : CryptoError → String
  | verifyFailed => "ML-DSA signature verification failed"
  | signingAborted attempts => "signing aborted after " ++ toString attempts ++ " attempts"
  | invalidEncoding => "malformed ML-DSA key or signature"
  | obsoleteScheme => "rejected obsolete toy-LWE key or signature (need ML-DSA-44)"

def ShieldError.text : ShieldError → String
  | pcArchitecture => "critical: mining/relay/mint is phone-only; host is x86/PC"
  | emulatorTiming => "critical: L1/L2 cache timing matches a VM or emulator"
  | cloudEnvironment => "critical: cloud/datacenter environment variables present"
  | datacenterClass => "critical: device attestation is datacenter/PC class"
  | minerModeRequired => "critical: active miner loop requires explicit miner mode"
  | attachFailed => "critical: miner/relay attach was refused"

def DagError.text : DagError → String
  | unknownParent p => "unknown parent " ++ debugHash p
  | invalidSignature => "ML-DSA-44 signature is not valid for the sender"
  | insufficientBalance => "sender cannot cover amount + fee"
  | doubleSpend nonce =>
    "double-spend: nonce " ++ toString nonce.toNat ++ " already used or not next for sender"
  | duplicateTx id => "transaction " ++ debugHash id ++ " is already in the DAG"
  | invalidGenesis => "genesis parents are only valid as the first vertex"
  | invalidFee => "user transfers must pay FIXED_TRANSACTION_FEE (1000)"
  | addressMismatch => "sender address does not match the public key"
  | overflow => "integer overflow on amount, fee, or balance"
  | invalidRelayProof => "relay carrier proof is not valid"
  | sign e => "lattice signing failed: " ++ e.text
  | shield e => "phone-only shield: " ++ e.text

/-! ## A tick -/

inductive MinerTickStatus
  | attached
  | waitingForTips
  | waitingForBalance
  | composeFailed
  | attachFailed
  deriving DecidableEq, Repr

structure MinerTickOutcome where
  genesisCreated : Bool
  faucetCredited : ℕ
  attached : Bool
  workUnits : ℕ
  vertices : ℕ
  tips : ℕ
  supply : ℕ
  balance : ℕ
  tx : Option DagTransaction
  status : MinerTickStatus
  error : Option String

/-- What one tick is called with, and what the machine and chance add to it. -/
structure MinerTick where
  wallet : LatticeKeyPair
  dest : Address
  device : AttachingDevice
  host : Except ShieldError Unit
  chance : Chance

/-- `need`: the amount and the fee of a share. -/
def shareCost : ℕ := saturatingAdd fixedTransactionFee 1

namespace KronDAG

variable (P : Primitives)

def composeAndSignWithParents (d : KronDAG) (wallet : LatticeKeyPair) (recipient : Address)
    (amount : UInt64) (parent1 parent2 : TxHash) : Except DagError DagTransaction :=
  DagTransaction.userTransfer P parent1 parent2 wallet recipient amount
    (UInt64.ofNat (d.nextNonce.get (wallet.pub.address P)))

def composeAndSign (c : Chance) (d : KronDAG) (wallet : LatticeKeyPair) (recipient : Address)
    (amount : UInt64) : Except DagError DagTransaction :=
  let (p1, p2) := d.selectParents c
  d.composeAndSignWithParents P wallet recipient amount p1 p2

/-- First-share dust: what is missing of a share's cost, on a graph of one vertex. -/
def firstShareDust (d : KronDAG) (sender : Address) : ℕ :=
  if d.vertexCount ≤ 1 ∧ d.balance sender < shareCost then shareCost - d.balance sender else 0

/-- `none` where the genesis vertex panics. The lattice work of a tick has no effect. -/
def minerTick (d : KronDAG) (t : MinerTick) : Option (KronDAG × MinerTickOutcome) :=
  match d.ensureGenesis P with
  | none => none
  | some (d, genesisCreated) =>
    let sender := t.wallet.pub.address P
    let faucetCredited := d.firstShareDust sender
    let d := d.creditAccount sender faucetCredited
    let out : MinerTickOutcome :=
      { genesisCreated := genesisCreated
        faucetCredited := faucetCredited
        attached := false
        workUnits := 1
        vertices := d.vertexCount
        tips := d.tips.length
        supply := d.currentSupply
        balance := d.balance sender
        tx := none
        status := .waitingForTips
        error := none }
    if d.tips.isEmpty then some (d, out)
    else if out.balance < shareCost then some (d, { out with status := .waitingForBalance })
    else
      match d.composeAndSign P t.chance t.wallet t.dest 1 with
      | .error e => some (d, { out with status := .composeFailed, error := some e.text })
      | .ok tx =>
        match d.attachAndVerifyFor P t.host tx t.device with
        | (d, .ok ()) =>
          some (d,
            { out with
              attached := true
              tx := some tx
              vertices := d.vertexCount
              tips := d.tips.length
              supply := d.currentSupply
              balance := d.balance sender
              status := .attached })
        | (d, .error e) => some (d, { out with status := .attachFailed, error := some e.text })

def minerTicks (d : KronDAG) : List MinerTick → Option (KronDAG × List MinerTickOutcome)
  | [] => some (d, [])
  | t :: ts =>
    match d.minerTick P t with
    | none => none
    | some (d, out) => (minerTicks d ts).map fun r => (r.1, out :: r.2)

variable {P} {d c d' : KronDAG} {t : MinerTick} {tx : DagTransaction}

/-- On a graph with a vertex in it there is nothing to be signed. -/
theorem ensureGenesis_of_ne (hne : d.vertices.entries ≠ []) :
    d.ensureGenesis P = some (d, false) := by
  unfold ensureGenesis
  rw [if_pos hne]

/-- A tick that signs a share and gets it attached reports it. -/
theorem minerTick_of_attached {d₀ : KronDAG} {created : Bool}
    (hens : d₀.ensureGenesis P = some (d, created))
    (hc : d.creditAccount (t.wallet.pub.address P) (d.firstShareDust (t.wallet.pub.address P)) = c)
    (htips : c.tips.isEmpty = false) (hbal : ¬ c.balance (t.wallet.pub.address P) < shareCost)
    (htx : c.composeAndSign P t.chance t.wallet t.dest 1 = .ok tx)
    (hatt : c.attachAndVerifyFor P t.host tx t.device = (d', .ok ())) :
    ∃ out, d₀.minerTick P t = some (d', out)
      ∧ out.faucetCredited = d.firstShareDust (t.wallet.pub.address P) ∧ out.tx = some tx
      ∧ out.status = .attached := by
  unfold minerTick
  rw [hens]
  simp only [hc, htips, Bool.false_eq_true, if_false, if_neg hbal, htx, hatt]
  exact ⟨_, rfl, rfl, rfl, rfl⟩

theorem minerTicks_cons {ts : List MinerTick} {out : MinerTickOutcome}
    (h : d.minerTick P t = some (c, out)) :
    d.minerTicks P (t :: ts) = (c.minerTicks P ts).map fun r => (r.1, out :: r.2) := by
  rw [minerTicks, h]

end KronDAG

end KronMesh
