import KronMesh.Gossip
import KronMesh.Lib.Fifo
import KronMesh.StandIn
import Mathlib.Data.Finset.Card

/-!
# The store of gossip

Bodies by their ids, the oldest forgotten first, behind four calls: a message is announced, ids are
offered, ids are wanted, a body comes. Only the first and the last change the store, and both file a
body under its own hash.
-/

namespace KronMesh.Gossip

open Wire Handshake

/-- `NetworkError` with what a body that comes may be refused for. -/
inductive PayloadError
  | hashMismatch
  | gossip (e : GossipError)
  deriving DecidableEq

structure GossipWant where
  ids : List Hash
  deriving DecidableEq

/-- In-memory Have/Need engine. `maxStore` is tiny on phones. -/
structure GossipEngine extends Fifo Hash Bytes where
  maxStore : ℕ
  maxInv : ℕ
  maxWant : ℕ

namespace GossipEngine

def forRole : PeerRole → GossipEngine
  | .edgeMiner => { store := ∅, order := [], maxStore := 64, maxInv := 8, maxWant := 2 }
  | .coreValidator => { store := ∅, order := [], maxStore := 4096, maxInv := 64, maxWant := 32 }

variable (P : Primitives) (e : GossipEngine)

/-- The message that is held under an id. -/
def get (id : Hash) : Option MeshMessage :=
  (e.store.lookup id).bind fun body => (decodeMesh P body).toOption

def insert (id : Hash) (body : Bytes) : GossipEngine :=
  { e with toFifo := e.toFifo.insert e.maxStore id body }

/-- Stores a local message and returns a short inventory to flood. -/
def announce (msg : MeshMessage) : GossipEngine × GossipInventory :=
  let body := encodeMesh msg
  let id := P.sha256 body
  (e.insert id body, ⟨[id].take e.maxInv⟩)

/-- The loop of `onInventory`: it looks at the length behind every id, wanted or not. -/
def wantLoop : List Hash → List Hash → List Hash
  | [], ids => ids
  | id :: rest, ids =>
    let ids := if id ∉ e.store then ids ++ [id] else ids
    if e.maxWant ≤ ids.length then ids else wantLoop rest ids

def onInventory (inv : GossipInventory) : GossipWant := ⟨e.wantLoop inv.ids []⟩

def onWant (want : GossipWant) : List GossipPayload :=
  want.ids.filterMap fun id => (e.store.lookup id).map fun body => ⟨id, body⟩

def onPayload (payload : GossipPayload) :
    GossipEngine × Except (Fault PayloadError) (Option MeshMessage) :=
  if P.sha256 payload.body ≠ payload.id then (e, .error (.err .hashMismatch))
  else if payload.id ∈ e.store then (e, .ok none)
  else
    match mapFault .gossip (decodeMesh P payload.body) with
    | .error fault => (e, .error fault)
    | .ok msg => (e.insert payload.id payload.body, .ok (some msg))

end GossipEngine

/-! ## Runs -/

inductive Call
  | announce (msg : MeshMessage)
  | inventory (inv : GossipInventory)
  | want (want : GossipWant)
  | payload (payload : GossipPayload)

/-- The body that a call may store. -/
def Call.body : Call → Option Bytes
  | .announce msg => some (encodeMesh msg)
  | .payload p => some p.body
  | _ => none

namespace GossipEngine

variable (P : Primitives)

def step (e : GossipEngine) : Call → GossipEngine
  | .announce msg => (e.announce P msg).1
  | .payload p => (e.onPayload P p).1
  | _ => e

def run (e : GossipEngine) (calls : List Call) : GossipEngine := calls.foldl (step P) e

/-- The id that a call brings in: of a message that is announced and not held, or of a payload that
is given back. -/
def inserted (e : GossipEngine) : Call → List Hash
  | .announce msg =>
    let id := P.sha256 (encodeMesh msg)
    if id ∈ e.store then [] else [id]
  | .payload p =>
    match (e.onPayload P p).2 with
    | .ok (some _) => [p.id]
    | _ => []
  | _ => []

/-- The ids that the calls bring in, one call after the other. -/
def insertedBy : GossipEngine → List Call → List Hash
  | _, [] => []
  | e, c :: calls => e.inserted P c ++ insertedBy (e.step P c) calls

/-! ## One call -/

variable {P} {e : GossipEngine}

/-- A payload is taken when its body has its hash, is read and is not held; or nothing changes. -/
theorem onPayload_cases (P : Primitives) (e : GossipEngine) (p : GossipPayload) :
    (e.onPayload P p).1 = e ∧ (∀ msg, (e.onPayload P p).2 ≠ .ok (some msg))
      ∨ ∃ msg, e.onPayload P p = (e.insert p.id p.body, .ok (some msg))
        ∧ P.sha256 p.body = p.id ∧ decodeMesh P p.body = .ok msg ∧ p.id ∉ e.store := by
  unfold onPayload
  split_ifs with hhash hheld
  · exact .inl ⟨rfl, nofun⟩
  · exact .inl ⟨rfl, nofun⟩
  · rcases hread : mapFault PayloadError.gossip (decodeMesh P p.body) with fault | msg
    · exact .inl ⟨rfl, nofun⟩
    · exact .inr ⟨msg, rfl, not_not.1 hhash, mapFault_eq_ok.1 hread, hheld⟩

/-- A call leaves the engine alone, or files its body under the hash of the body. -/
theorem step_cases (P : Primitives) (e : GossipEngine) (c : Call) :
    e.step P c = e ∨ ∃ body, c.body = some body ∧ e.step P c = e.insert (P.sha256 body) body := by
  cases c with
  | announce msg => exact .inr ⟨encodeMesh msg, rfl, rfl⟩
  | inventory inv => exact .inl rfl
  | want want => exact .inl rfl
  | payload p =>
    rcases onPayload_cases P e p with ⟨hsame, -⟩ | ⟨msg, htaken, hhash, -⟩
    · exact .inl hsame
    · refine .inr ⟨p.body, rfl, ?_⟩
      rw [step, htaken, hhash]

theorem run_cons (P : Primitives) (e : GossipEngine) (c : Call) (calls : List Call) :
    e.run P (c :: calls) = (e.step P c).run P calls := rfl

/-- The map and the queue are in step, and every body is held under its hash. -/
structure Sound (P : Primitives) (e : GossipEngine) : Prop where
  pos : 0 < e.maxStore
  inStep : e.toFifo.InStep e.maxStore
  hashed : ∀ id body, e.store.lookup id = some body → P.sha256 body = id

theorem sound_forRole (P : Primitives) (role : PeerRole) : Sound P (forRole role) := by
  cases role <;> exact ⟨by decide, Fifo.inStep_empty, nofun⟩

theorem Sound.step (h : Sound P e) (c : Call) : Sound P (e.step P c) := by
  rcases step_cases P e c with hsame | ⟨body, -, hinsert⟩
  · rw [hsame]
    exact h
  · rw [hinsert]
    refine ⟨h.pos, h.inStep.insert h.pos _ _, fun id body' hlookup => ?_⟩
    rcases Fifo.lookup_insert_cases h.inStep h.pos hlookup with ⟨rfl, rfl⟩ | hold
    · rfl
    · exact h.hashed id body' hold

theorem Sound.run : ∀ {calls : List Call} {e : GossipEngine}, Sound P e → Sound P (e.run P calls)
  | [], _, h => h
  | c :: calls, e, h => by
    rw [run_cons]
    exact Sound.run (h.step c)

theorem maxStore_step (P : Primitives) (e : GossipEngine) (c : Call) :
    (e.step P c).maxStore = e.maxStore := by
  rcases step_cases P e c with hsame | ⟨body, -, hinsert⟩
  · rw [hsame]
  · rw [hinsert]
    rfl

theorem maxStore_run (P : Primitives) : ∀ (calls : List Call) (e : GossipEngine),
    (e.run P calls).maxStore = e.maxStore
  | [], _ => rfl
  | c :: calls, e => by
    rw [run_cons, maxStore_run P calls, maxStore_step]

/-- What has been taken is read back under its id. -/
theorem get_of_onPayload (h : Sound P e) {p : GossipPayload} {msg : MeshMessage}
    (htaken : (e.onPayload P p).2 = .ok (some msg)) :
    (e.onPayload P p).1.get P p.id = some msg := by
  rcases onPayload_cases P e p with ⟨-, hnone⟩ | ⟨msg', hinsert, -, hread, hheld⟩
  · exact absurd htaken (hnone msg)
  · obtain ⟨-, hlookup⟩ := Fifo.behind_insert (v := p.body) hheld h.inStep h.pos
    rw [hinsert] at htaken ⊢
    cases htaken
    change ((e.toFifo.insert e.maxStore p.id p.body).store.lookup p.id).bind _ = _
    rw [hlookup, Option.bind_some, hread]
    rfl

/-! ## How long an id is held -/

theorem inserted_announce {msg : MeshMessage} (hnew : P.sha256 (encodeMesh msg) ∉ e.store) :
    e.inserted P (.announce msg) = [P.sha256 (encodeMesh msg)] := if_neg hnew

/-- A call that brings nothing in leaves the engine alone. Another one files its body, which is new,
under its hash, and this is the id that it brings in. -/
theorem step_new (P : Primitives) (e : GossipEngine) (c : Call) :
    e.step P c = e ∧ e.inserted P c = []
      ∨ ∃ body, c.body = some body ∧ P.sha256 body ∉ e.store
        ∧ e.step P c = e.insert (P.sha256 body) body ∧ e.inserted P c = [P.sha256 body] := by
  cases c with
  | announce msg =>
    by_cases hheld : P.sha256 (encodeMesh msg) ∈ e.store
    · refine .inl ⟨?_, if_pos hheld⟩
      change e.insert (P.sha256 (encodeMesh msg)) (encodeMesh msg) = e
      rw [insert, Fifo.insert_of_mem hheld]
    · exact .inr ⟨encodeMesh msg, rfl, hheld, rfl, inserted_announce hheld⟩
  | inventory inv => exact .inl ⟨rfl, rfl⟩
  | want want => exact .inl ⟨rfl, rfl⟩
  | payload p =>
    rcases onPayload_cases P e p with ⟨hsame, hnone⟩ | ⟨msg, htaken, hhash, -, hheld⟩
    · refine .inl ⟨hsame, ?_⟩
      unfold inserted
      rcases hr : (e.onPayload P p).2 with fault | _ | msg
      · simp only
      · simp only
      · exact absurd hr (hnone msg)
    · refine .inr ⟨p.body, rfl, hhash ▸ hheld, ?_, ?_⟩
      · rw [step, htaken, hhash]
      · unfold inserted
        simp only [htaken, hhash]

/-- A call brings in one id at most. -/
theorem length_insertedBy_le (P : Primitives) : ∀ (calls : List Call) (e : GossipEngine),
    (e.insertedBy P calls).length ≤ calls.length
  | [], _ => Nat.zero_le _
  | c :: calls, e => by
    have hone : (e.inserted P c).length ≤ 1 := by
      rcases step_new P e c with ⟨-, hnone⟩ | ⟨body, -, -, -, hone⟩
      · rw [hnone]
        exact Nat.zero_le 1
      · rw [hone, List.length_singleton]
    have hrest := length_insertedBy_le P calls (e.step P c)
    rw [insertedBy, List.length_append, List.length_cons]
    omega

/-- What is held stays while fewer distinct ids than the store has places for have come in behind.
-/
theorem Sound.retained : ∀ {calls : List Call} {e : GossipEngine} {id : Hash} {body : Bytes}
    {since : List Hash}, Sound P e → e.toFifo.Behind id since → e.store.lookup id = some body →
      (since ++ e.insertedBy P calls).toFinset.card < e.maxStore →
        (e.run P calls).store.lookup id = some body
  | [], _, _, _, _, _, _, hlookup, _ => hlookup
  | c :: calls, e, id, body, since, h, hbehind, hlookup, hroom => by
    rw [run_cons]
    rw [insertedBy, ← List.append_assoc] at hroom
    rcases step_new P e c with ⟨hsame, hnone⟩ | ⟨body', -, hnew, hinsert, hone⟩
    · rw [hnone, List.append_nil] at hroom
      rw [hsame] at hroom ⊢
      exact Sound.retained h hbehind hlookup hroom
    · rw [hone] at hroom
      -- the ids behind are distinct, so their number is the number of insertions
      have hlen : since.length + 1 < e.maxStore := by
        refine lt_of_le_of_lt ?_ hroom
        rw [List.toFinset_append (l := since ++ [P.sha256 body'])]
        refine le_trans (le_of_eq ?_) (Finset.card_le_card Finset.subset_union_left)
        rw [List.toFinset_card_of_nodup (Fifo.nodup_behind h.inStep hbehind hnew),
          List.length_append, List.length_singleton]
      obtain ⟨hbehind', hlookup'⟩ := Fifo.retained_insert (w := body') h.inStep hbehind hlookup
        hnew hlen
      have hnext := h.step c
      rw [hinsert] at hnext hroom ⊢
      exact Sound.retained hnext hbehind' hlookup' hroom

/-! ## The invariant -/

/-- A payload is given back when it is what it says, is read and is new, and it stays away
otherwise. -/
theorem onPayload_spec (P : Primitives) (e : GossipEngine) (p : GossipPayload) :
    (∀ msg, (e.onPayload P p).2 = .ok (some msg) →
        P.sha256 p.body = p.id ∧ decodeMesh P p.body = .ok msg ∧ p.id ∉ e.store)
      ∧ ((∀ msg, (e.onPayload P p).2 ≠ .ok (some msg)) → (e.onPayload P p).1 = e) := by
  rcases onPayload_cases P e p with ⟨hsame, hnone⟩ | ⟨msg, htaken, hhash, hread, hheld⟩
  · exact ⟨fun msg hmsg => absurd hmsg (hnone msg), fun _ => hsame⟩
  · refine ⟨fun msg' hmsg => ?_, fun hnone => ?_⟩
    · rw [htaken] at hmsg
      cases hmsg
      exact ⟨hhash, hread, hheld⟩
    · rw [htaken] at hnone
      exact absurd rfl (hnone msg)

/-- What is announced is held, now or before. -/
theorem Sound.mem_announce (h : Sound P e) (msg : MeshMessage) :
    P.sha256 (encodeMesh msg) ∈ (e.announce P msg).1.store := by
  change _ ∈ (e.toFifo.insert e.maxStore (P.sha256 (encodeMesh msg)) (encodeMesh msg)).store
  by_cases hheld : P.sha256 (encodeMesh msg) ∈ e.store
  · rw [Fifo.insert_of_mem hheld]
    exact hheld
  · obtain ⟨-, hlookup⟩ := Fifo.behind_insert (v := encodeMesh msg) hheld h.inStep h.pos
    rw [← AList.lookup_isSome, hlookup, Option.isSome_some]

/-- A call that brings an id in brings a body with this hash, and the id is the youngest. -/
theorem Sound.of_inserted (h : Sound P e) {c : Call} {id : Hash} (hid : id ∈ e.inserted P c) :
    ∃ body, c.body = some body ∧ P.sha256 body = id ∧ (e.step P c).toFifo.Behind id []
      ∧ (e.step P c).store.lookup id = some body := by
  rcases step_new P e c with ⟨-, hnone⟩ | ⟨body, hbody, hnew, hinsert, hone⟩
  · rw [hnone] at hid
    cases hid
  · rw [hone, List.mem_singleton] at hid
    subst hid
    rw [hinsert]
    exact ⟨body, hbody, rfl, Fifo.behind_insert hnew h.inStep h.pos⟩

/-- In every state that a run of calls leaves, the keys of the store are the entries of the queue,
once each and no more than the store has places for, and each body has its hash. A payload is given
back only when its body has its id for a hash, is read and is not held, and is then held under this
id; otherwise nothing changes. What is announced is held. And an id that a call brings in is given
out with the body of this call until as many other ids have come in. -/
theorem gossip_store (P : Primitives) (role : PeerRole) (calls : List Call) :
    let e := (forRole role).run P calls
    ((∀ id, id ∈ e.store ↔ id ∈ e.order) ∧ e.order.Nodup ∧ e.order.length ≤ (forRole role).maxStore
        ∧ ∀ id body, e.store.lookup id = some body → P.sha256 body = id)
      ∧ (∀ p, (∀ msg, (e.onPayload P p).2 = .ok (some msg) →
            P.sha256 p.body = p.id ∧ decodeMesh P p.body = .ok msg ∧ p.id ∉ e.store
              ∧ (e.onPayload P p).1.get P p.id = some msg)
          ∧ ((∀ msg, (e.onPayload P p).2 ≠ .ok (some msg)) → (e.onPayload P p).1 = e))
      ∧ (∀ msg, P.sha256 (encodeMesh msg) ∈ (e.announce P msg).1.store)
      ∧ ∀ c, ∀ id ∈ e.inserted P c, ∃ body, c.body = some body ∧ P.sha256 body = id
        ∧ ∀ later, ((e.step P c).insertedBy P later).toFinset.card < (forRole role).maxStore →
          ∀ want : GossipWant, id ∈ want.ids →
            ⟨id, body⟩ ∈ ((e.step P c).run P later).onWant want := by
  intro e
  have h : Sound P e := (sound_forRole P role).run
  rw [← maxStore_run P calls (forRole role)]
  refine ⟨⟨h.inStep.keys, h.inStep.nodup, h.inStep.length_le, h.hashed⟩, fun p => ?_,
    h.mem_announce, ?_⟩
  · obtain ⟨htaken, hrest⟩ := onPayload_spec P e p
    refine ⟨fun msg hmsg => ?_, hrest⟩
    obtain ⟨hhash, hread, hnew⟩ := htaken msg hmsg
    exact ⟨hhash, hread, hnew, get_of_onPayload h hmsg⟩
  · intro c id hid
    obtain ⟨body, hbody, hhash, hbehind, hlookup⟩ := h.of_inserted hid
    refine ⟨body, hbody, hhash, fun later hroom want hwant => ?_⟩
    have hplaces : (e.step P c).maxStore = ((forRole role).run P calls).maxStore :=
      maxStore_step P e c
    rw [← hplaces] at hroom
    have hheld := (h.step c).retained hbehind hlookup (by rwa [List.nil_append])
    refine List.mem_filterMap.2 ⟨id, hwant, ?_⟩
    rw [hheld, Option.map_some]

/-- A first vertex is given out after a second one has been announced. -/
theorem gossip_store_announced :
    let first := MeshMessage.vertex (StandIn.transfer 7 1 0 0 2 500 0)
    let second := MeshMessage.vertex (StandIn.transfer 8 1 7 7 2 500 1)
    let id := StandIn.primitives.sha256 (encodeMesh first)
    ⟨id, encodeMesh first⟩ ∈ ((forRole .edgeMiner).run StandIn.primitives
      [.announce first, .announce second]).onWant ⟨[id]⟩ := by
  have hany : ∀ (P : Primitives) (first second : MeshMessage),
      ⟨P.sha256 (encodeMesh first), encodeMesh first⟩ ∈ ((forRole .edgeMiner).run P
        [.announce first, .announce second]).onWant ⟨[P.sha256 (encodeMesh first)]⟩ := by
    intro P first second
    obtain ⟨-, -, -, hheld⟩ := gossip_store P .edgeMiner []
    have hnew : P.sha256 (encodeMesh first) ∉ ((forRole .edgeMiner).run P []).store :=
      AList.notMem_empty _
    have hone : P.sha256 (encodeMesh first)
        ∈ ((forRole .edgeMiner).run P []).inserted P (.announce first) := by
      rw [inserted_announce hnew]
      exact List.mem_singleton_self _
    obtain ⟨body, hbody, -, hlater⟩ := hheld (.announce first) _ hone
    obtain rfl : encodeMesh first = body := Option.some.inj hbody
    have hfew : ((((forRole .edgeMiner).run P []).step P (.announce first)).insertedBy P
        [.announce second]).toFinset.card < (forRole .edgeMiner).maxStore :=
      (List.toFinset_card_le _).trans_lt ((length_insertedBy_le P _ _).trans_lt
        (show 1 < 64 by decide))
    rw [run_cons]
    exact hlater [.announce second] hfew ⟨[P.sha256 (encodeMesh first)]⟩
      (List.mem_singleton_self _)
  exact hany _ _ _

end GossipEngine

end KronMesh.Gossip
