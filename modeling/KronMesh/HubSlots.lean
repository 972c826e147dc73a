import KronMesh.MeshThread
import KronMesh.RateLimit
import KronMesh.SessionSlots

/-!
# The slots of a hub

The sessions of a hub count themselves in and out with one counter that they share. However their
turns fall, the counter is the number of the sessions that have counted themselves in and not yet
out, no more than 64 of them are served at a time, and a session has found no more in the counter
than there are others.
-/

namespace KronMesh

open Wire Serving Relation

/-- A hub, its window, and `sessions`: what all threads share. -/
structure SharedHub extends RateLimit.HubTurn where
  sessions : UInt64

/-- The graph of the hub. -/
def sharedGraph (P : Primitives) : MeshGraph SharedHub where
  inventory g := (RateLimit.hubGraph P).inventory g.toHubTurn
  contains g id := (RateLimit.hubGraph P).contains g.toHubTurn id
  ingest g tx :=
    let r := (RateLimit.hubGraph P).ingest g.toHubTurn tx
    ({ g with toHubTurn := r.1 }, r.2)
  bodiesInOrder g ids := (RateLimit.hubGraph P).bodiesInOrder g.toHubTurn ids
  applyInventory g inv :=
    { g with toHubTurn := (RateLimit.hubGraph P).applyInventory g.toHubTurn inv }
  needAndHave g remote := (RateLimit.hubGraph P).needAndHave g.toHubTurn remote
  allowNewVertex g :=
    let r := (RateLimit.hubGraph P).allowNewVertex g.toHubTurn
    ({ g with toHubTurn := r.1 }, r.2)

def sharedSlots : MeshSlots SharedHub where
  tryAcquire g := ({ g with sessions := g.sessions + 1 }, g.sessions < maxMeshConnections)
  backOut g := { g with sessions := g.sessions - 1 }
  -- `n.saturating_sub(1)`
  release g := { g with sessions := if g.sessions = 0 then 0 else g.sessions - 1 }

/-! ## The programs leave the counter alone -/

section Leaves

variable {P : Primitives} {γ : Type} {β : Type*} {q : γ → β} {G : MeshGraph γ}

/-- The calls of a graph do not change what `q` says. -/
structure MeshGraph.Leaves (G : MeshGraph γ) (q : γ → β) : Prop where
  ingest : ∀ g tx, q (G.ingest g tx).1 = q g
  applyInventory : ∀ g inv, q (G.applyInventory g inv) = q g
  allowNewVertex : ∀ g, q (G.allowNewVertex g).1 = q g

namespace MeshThread

theorem leaves_writeThen {msg : MeshWireMessage} {k : MeshThread γ} (hk : k.Leaves q) :
    (writeThen msg k).Leaves q := by
  unfold writeThen
  cases writeMsg msg with
  | ok frame => exact .write hk
  | error e => exact .stop _

theorem leaves_onFrame {k : MeshWireMessage → MeshThread γ} (hk : ∀ msg, (k msg).Leaves q)
    (frame : Frame) : (onFrame P k frame).Leaves q := by
  unfold onFrame
  cases readMsg P frame with
  | ok msg => exact hk msg
  | error e => exact .stop _

theorem leaves_readThen {k : MeshWireMessage → MeshThread γ} (hk : ∀ msg, (k msg).Leaves q) :
    (readThen P k).Leaves q := .read (leaves_onFrame hk)

theorem leaves_look {δ : Type} {f : γ → δ} {k : δ → MeshThread γ} (hk : ∀ d, (k d).Leaves q) :
    (look f k).Leaves q := .access (fun _ => rfl) fun _ => hk _

theorem leaves_call {δ : Type} {f : γ → γ × δ} {k : δ → MeshThread γ}
    (hf : ∀ g, q (f g).1 = q g) (hk : ∀ d, (k d).Leaves q) : (call f k).Leaves q :=
  .access hf fun _ => hk _

theorem leaves_writeBodies {k : MeshThread γ} (hk : k.Leaves q) (txs : List DagTransaction) :
    (writeBodies txs k).Leaves q := by
  unfold writeBodies
  induction txs with
  | nil => exact hk
  | cons tx txs ih =>
    rw [List.foldr_cons]
    exact leaves_writeThen ih

theorem leaves_collectMissing {k : List TxHash → MeshThread γ} (hk : ∀ ids, (k ids).Leaves q)
    (ids : List TxHash) : ∀ missing, (collectMissing G ids missing k).Leaves q := by
  induction ids with
  | nil => exact hk
  | cons id ids ih => exact fun missing => leaves_look fun _ => ih _

theorem leaves_pushMissing {k : List TxHash → MeshThread γ} (hk : ∀ ids, (k ids).Leaves q)
    (ids : List TxHash) : ∀ need, (pushMissing G ids need k).Leaves q := by
  induction ids with
  | nil => exact hk
  | cons id ids ih => exact fun need => leaves_look fun _ => ih _

theorem leaves_onBody (hG : G.Leaves q) (a : AfterBodies) (msg : MeshWireMessage) :
    (onBody G a msg).Leaves q := by
  cases msg with
  | dagTransaction tx =>
    rw [onBody]
    refine leaves_call hG.allowNewVertex fun allowed => ?_
    split
    · exact leaves_call (hG.ingest · tx) fun _ => .loop _
    · exact .loop _
  | needIds ids =>
    rw [onBody]
    exact leaves_look (leaves_writeBodies (.loop _))
  | haveIds ids =>
    rw [onBody]
    refine leaves_collectMissing (fun missing => ?_) ids []
    split
    · exact leaves_writeThen (.loop _)
    · exact .loop _
  | done =>
    cases a with
    | writeDone =>
      rw [onBody, after]
      exact leaves_writeThen (.stop _)
    | stop => exact .stop _
  | ping =>
    rw [onBody]
    exact leaves_writeThen (.loop _)
  | pong => exact .loop _
  | hello _ _ | syncInventory _ => exact .stop _

theorem leaves_onSubmit (hG : G.Leaves q) (msg : MeshWireMessage) : (onSubmit G msg).Leaves q := by
  cases msg with
  | dagTransaction tx =>
    rw [onSubmit]
    refine leaves_call hG.allowNewVertex fun allowed => ?_
    split
    · refine leaves_call (hG.ingest · tx) fun r => ?_
      split
      · exact leaves_writeThen (.stop _)
      · exact .stop _
    · exact .stop _
  | ping =>
    rw [onSubmit]
    exact leaves_writeThen (.loop _)
  | done | pong | hello _ _ | syncInventory _ | needIds _ | haveIds _ => exact .stop _

theorem leaves_turn (hG : G.Leaves q) (l : MeshLoop) (frame : Frame) :
    (turn P G l frame).Leaves q := by
  cases l with
  | recvBodies a => exact leaves_onFrame (leaves_onBody hG a) frame
  | submit => exact leaves_onFrame (leaves_onSubmit hG) frame

theorem leaves_onTheirHave (remote : SyncInventory) (theirNeed : List TxHash)
    (msg : MeshWireMessage) : (onTheirHave G remote theirNeed msg).Leaves q := by
  cases msg with
  | haveIds theirHave =>
    rw [onTheirHave]
    exact leaves_look fun p => leaves_pushMissing (fun need => leaves_writeThen
      (leaves_look (leaves_writeBodies (.loop _)))) theirHave p.1
  | _ => exact .stop _

theorem leaves_onNeedOf (remote : SyncInventory) (msg : MeshWireMessage) :
    (onNeedOf P G remote msg).Leaves q := by
  cases msg with
  | needIds theirNeed => exact leaves_readThen (leaves_onTheirHave remote theirNeed)
  | _ => exact .stop _

theorem leaves_onTheirInventory (hG : G.Leaves q) (msg : MeshWireMessage) :
    (onTheirInventory P G msg).Leaves q := by
  cases msg with
  | syncInventory remote =>
    exact .access (hG.applyInventory · remote) fun _ => leaves_look fun _ =>
      leaves_writeThen (leaves_readThen (leaves_onNeedOf remote))
  | _ => exact .stop _

theorem leaves_onPing (hG : G.Leaves q) (msg : MeshWireMessage) : (onPing P G msg).Leaves q := by
  cases msg with
  | ping =>
    rw [onPing]
    exact leaves_writeThen (leaves_readThen (leaves_onTheirInventory hG))
  | syncInventory remote =>
    exact .access (hG.applyInventory · remote) fun _ => leaves_look fun _ =>
      leaves_writeThen (leaves_look fun _ => leaves_writeThen (.loop _))
  | _ => exact .stop _

theorem leaves_onHello (hG : G.Leaves q) (msg : MeshWireMessage) :
    (onHello (finishAuthenticatedMesh P G) msg).Leaves q := by
  cases msg with
  | hello protocol role =>
    rw [onHello]
    split
    · exact .stop _
    · refine leaves_writeThen ?_
      cases role with
      | wallet => exact .loop _
      | hub | test => exact leaves_readThen (leaves_onPing hG)
  | _ => exact .stop _

end MeshThread

end Leaves

theorem leaves_sharedGraph (P : Primitives) :
    (sharedGraph P).Leaves SharedHub.sessions where
  ingest _ _ := rfl
  applyInventory _ _ := rfl
  allowNewVertex _ := rfl

/-! ## A session and its slot -/

section Slots

variable {P : Primitives} {σ : Type}

abbrev HubSession (σ : Type) :=
  Session MeshLoop SharedHub Frame (Except (Fault NetworkError) Unit) σ

/-- One in the sessions that have counted themselves in, and not yet out. -/
def held (s : HubSession σ) : ℕ := if s.log.isEmpty || s.thread.hasStopped then 0 else 1

/-- Whether the session has found a slot. -/
def foundSlot (s : HubSession σ) : Bool :=
  s.log.head?.any fun e => e.1.sessions < maxMeshConnections

/-- One in the sessions that are being served. -/
def inService (s : HubSession σ) : ℕ := if foundSlot s then held s else 0

variable (P) in
/-- How far a session has come. -/
inductive SlotState (s : HubSession σ) : Prop
  | waiting : s.log = [] →
    s.thread = MeshThread.handleInbound P (sharedGraph P) sharedSlots → SlotState s
  | calling {t : MeshThread SharedHub} : s.log = [] → t.Leaves SharedHub.sessions →
    s.thread = MeshThread.acquireThen sharedSlots t → SlotState s
  | refused : foundSlot s = false → s.log ≠ [] →
    s.thread = .access sharedSlots.backOut (fun _ => .stop (.ok ())) → SlotState s
  | serving {t : MeshThread SharedHub} : foundSlot s = true → t.Leaves SharedHub.sessions →
    s.thread = t.guarded sharedSlots.release → SlotState s
  | ended {r : Except (Fault NetworkError) Unit} : s.thread = .stop r → SlotState s

variable {act : σ → Duplex.Act σ Frame (Except (Fault NetworkError) Unit)} {g g' : SharedHub}
  {s s' : HubSession σ}

theorem held_le (s : HubSession σ) : held s ≤ 1 := by
  unfold held
  split_ifs <;> omega

theorem inService_le (s : HubSession σ) : inService s ≤ held s := by
  unfold inService
  split_ifs
  · exact le_rfl
  · exact Nat.zero_le _

theorem log_ne_nil_of_foundSlot (h : foundSlot s = true) : s.log ≠ [] := by
  rintro hnil
  rw [foundSlot, hnil] at h
  cases h

theorem held_eq_zero (h : s.log = [] ∨ s.thread.hasStopped = true) : held s = 0 := by
  rw [held]
  rcases h with h | h <;> simp [h]

theorem held_eq_one (h : s.log ≠ []) (ht : s.thread.hasStopped = false) : held s = 1 := by
  rw [held, ht, Bool.or_false, List.isEmpty_eq_false_iff.2 h]
  rfl

theorem SlotState.of_enter {entry : MeshThread.Entry} (hnil : s.log = [])
    (ht : s.thread = MeshThread.enter P (sharedGraph P) sharedSlots entry) : SlotState P s := by
  cases entry with
  | serve =>
    exact .calling hnil (MeshThread.leaves_readThen
      (MeshThread.leaves_onHello (leaves_sharedGraph P))) ht
  | inbound => exact .waiting hnil ht

/-- What one turn does to a slot: it is taken, given back or kept. -/
structure SlotTurn (P : Primitives) (g g' : SharedHub) (s s' : HubSession σ) : Prop where
  state : SlotState P s'
  counted : g'.sessions.toNat + held s = g.sessions.toNat + held s'
  served : inService s' ≤ inService s
    ∨ inService s = 0 ∧ inService s' = 1 ∧ g.sessions.toNat < 64
  found : s'.log.head? = s.log.head? ∨ held s = 0 ∧ s'.log.head? = some (g, g')

/-- A turn in which the session neither takes nor gives back anything. -/
theorem SlotTurn.of_kept (hstate : SlotState P s') (hg : g'.sessions = g.sessions)
    (hlog : s'.log.head? = s.log.head?) (hheld : held s' = held s) : SlotTurn P g g' s s' := by
  refine ⟨hstate, by rw [hg, hheld], .inl (le_of_eq ?_), .inl hlog⟩
  rw [inService, inService, foundSlot, foundSlot, hlog, hheld]

theorem SlotState.slotTurn_of_same (hs : SlotState P s) (hlog : s'.log = s.log)
    (ht : s'.thread = s.thread) : SlotTurn P g g s s' := by
  have hfound : foundSlot s' = foundSlot s := by rw [foundSlot, foundSlot, hlog]
  refine .of_kept ?_ rfl (by rw [hlog]) (by rw [held, held, hlog, ht])
  cases hs with
  | waiting hnil h => exact .waiting (hlog.trans hnil) (ht.trans h)
  | calling hnil hleaves h => exact .calling (hlog.trans hnil) hleaves (ht.trans h)
  | refused hno hne h => exact .refused (hfound.trans hno) (hlog ▸ hne) (ht.trans h)
  | serving hyes hleaves h => exact .serving (hfound.trans hyes) hleaves (ht.trans h)
  | ended h => exact .ended (ht.trans h)

theorem slotTurn_serving {t t' : MeshThread SharedHub} (hyes : foundSlot s = true)
    (ht : s.thread = t.guarded sharedSlots.release) (hleaves : t'.Leaves SharedHub.sessions)
    (ht' : s'.thread = t'.guarded sharedSlots.release) (hg : g'.sessions = g.sessions)
    (hlog : s'.log.head? = s.log.head?) : SlotTurn P g g' s s' := by
  have hyes' : foundSlot s' = true := by rwa [foundSlot, hlog]
  refine .of_kept (.serving hyes' hleaves ht') hg hlog ?_
  rw [held_eq_one (log_ne_nil_of_foundSlot hyes') (ht' ▸ hasStopped_guarded _ _),
    held_eq_one (log_ne_nil_of_foundSlot hyes) (ht ▸ hasStopped_guarded _ _)]

/-- The last access of a session gives back what it holds. -/
theorem slotTurn_ended {r : Except (Fault NetworkError) Unit} (hne : s.log ≠ [])
    (ht : s.thread.hasStopped = false) (hg : g'.sessions.toNat + 1 = g.sessions.toNat)
    (hlog : s'.log = s.log ++ [(g, g')]) (ht' : s'.thread = .stop r) : SlotTurn P g g' s s' := by
  have hheld' : held s' = 0 := held_eq_zero (.inr (ht' ▸ rfl))
  refine ⟨.ended ht', ?_, .inl ?_, .inl ?_⟩
  · rw [hheld', held_eq_one hne ht, hg, Nat.add_zero]
  · rw [inService, hheld', ite_self]
    exact Nat.zero_le _
  · rw [hlog, List.head?_append_of_ne_nil _ hne]

/-- A free slot is taken, and where there is none the session has been counted all the same. -/
theorem slotTurn_calling {t : MeshThread SharedHub} (hnil : s.log = [])
    (hleaves : t.Leaves SharedHub.sessions) (hword : g.sessions.toNat + 1 < 2 ^ 64) :
    SlotTurn P g (sharedSlots.tryAcquire g).1 s { s with
      thread := if (sharedSlots.tryAcquire g).2 then t.guarded sharedSlots.release
        else .access sharedSlots.backOut fun _ => .stop (.ok ())
      log := s.log ++ [(g, (sharedSlots.tryAcquire g).1)]
      turns := s.turns + 1 } := by
  have hheld : held s = 0 := held_eq_zero (.inl hnil)
  have hcount : (sharedSlots.tryAcquire g).1.sessions.toNat = g.sessions.toNat + 1 :=
    SessionThread.toNat_succ hword
  rw [hnil, List.nil_append]
  by_cases hfree : g.sessions < maxMeshConnections
  · have hyes : (sharedSlots.tryAcquire g).2 = true := decide_eq_true hfree
    rw [hyes, if_pos rfl]
    refine ⟨.serving (decide_eq_true hfree) hleaves rfl, ?_,
      .inr ⟨?_, ?_, UInt64.lt_iff_toNat_lt.1 hfree⟩, .inr ⟨hheld, rfl⟩⟩
    · rw [hcount, hheld, held_eq_one (List.cons_ne_nil _ _) (hasStopped_guarded _ _)]
    · rw [inService, hheld, ite_self]
    · rw [inService, held_eq_one (List.cons_ne_nil _ _) (hasStopped_guarded _ _)]
      exact if_pos (decide_eq_true hfree)
  · have hno : (sharedSlots.tryAcquire g).2 = false := decide_eq_false hfree
    rw [hno, if_neg Bool.false_ne_true]
    refine ⟨.refused (decide_eq_false hfree) (List.cons_ne_nil _ _) rfl, ?_,
      .inl ((le_of_eq (if_neg ?_)).trans (Nat.zero_le _)), .inr ⟨hheld, rfl⟩⟩
    · rw [hcount, hheld, held_eq_one (List.cons_ne_nil _ _) rfl]
    · exact fun h => hfree (of_decide_eq_true h)

/-- A session that neither has stopped nor is about to make an access waits for its first frame, or
it is being served. -/
theorem SlotState.served (hs : SlotState P s) (hstop : s.thread.hasStopped = false)
    (haccess : ∀ f k, s.thread ≠ .access f k) :
    (s.log = [] ∧ s.thread = MeshThread.handleInbound P (sharedGraph P) sharedSlots)
      ∨ foundSlot s = true ∧ ∃ t : MeshThread SharedHub, t.Leaves SharedHub.sessions
        ∧ s.thread = t.guarded sharedSlots.release := by
  cases hs with
  | waiting hnil h => exact .inl ⟨hnil, h⟩
  | calling _ _ h | refused _ _ h => exact absurd h (haccess _ _)
  | serving hyes hleaves h => exact .inr ⟨hyes, _, hleaves, h⟩
  | ended h =>
    rw [h] at hstop
    cases hstop

/-- The first frame takes no slot yet. -/
theorem slotTurn_first {s' : HubSession σ} (hnil : s.log = []) (first : Frame)
    (hlog : s'.log = s.log) (ht' : s'.thread = if first.kind = kindMesh
      then MeshThread.serveAuthenticatedMeshFromFirst P (sharedGraph P) sharedSlots first
      else .stop (.ok ())) : SlotTurn P g g s s' := by
  refine .of_kept ?_ rfl (by rw [hlog]) ?_
  · split_ifs at ht' with hkind
    · exact .calling (hlog.trans hnil)
        (MeshThread.leaves_onFrame (MeshThread.leaves_onHello (leaves_sharedGraph P)) first) ht'
    · exact .ended ht'
  · rw [held_eq_zero (.inl hnil), held_eq_zero (.inl (hlog.trans hnil))]

/-- Whatever a session does, it takes a free slot, gives back its own, or leaves the slots alone. -/
theorem slotTurn (hs : SlotState P s)
    (h : Turn (MeshThread.guardedTurn P (sharedGraph P) sharedSlots) act g s g' s')
    (hword : held s = 0 → g.sessions.toNat + 1 < 2 ^ 64) (hin : held s ≤ g.sessions.toNat) :
    SlotTurn P g g' s s' := by
  cases h with
  | peer _ _ => exact hs.slotTurn_of_same rfl rfl
  | access ht =>
    cases hs with
    | waiting hnil h =>
      rw [h] at ht
      cases ht
    | calling hnil hleaves h =>
      rw [h] at ht
      cases ht
      exact slotTurn_calling hnil hleaves (hword (held_eq_zero (.inl hnil)))
    | refused hno hne h =>
      have hstop : s.thread.hasStopped = false := h ▸ rfl
      rw [held_eq_one hne hstop] at hin
      rw [h] at ht
      cases ht
      refine slotTurn_ended hne hstop ?_ rfl rfl
      change (g.sessions - 1).toNat + 1 = _
      rw [SessionThread.toNat_pred hin, Nat.sub_add_cancel hin]
    | serving hyes hleaves h =>
      have hne := log_ne_nil_of_foundSlot hyes
      have hstop : s.thread.hasStopped = false := h ▸ hasStopped_guarded _ _
      rw [held_eq_one hne hstop] at hin
      have ht₀ := h.symm.trans ht
      cases hleaves with
      | stop r =>
        cases ht₀
        refine slotTurn_ended hne hstop ?_ rfl rfl
        have hpos : g.sessions ≠ 0 := fun h0 => absurd (h0 ▸ hin) (by decide)
        change (if g.sessions = 0 then 0 else g.sessions - 1).toNat + 1 = _
        rw [if_neg hpos, SessionThread.toNat_pred hin, Nat.sub_add_cancel hin]
      | access hf hk =>
        cases ht₀
        exact slotTurn_serving hyes h (hk g) rfl (hf g) (List.head?_append_of_ne_nil _ hne)
      | write _ | read _ | loop _ => cases ht₀
    | ended h =>
      rw [h] at ht
      cases ht
  | write ht =>
    rcases hs.served (ht ▸ rfl) (by simp [ht]) with ⟨-, h⟩ | ⟨hyes, t, hleaves, h⟩
    · cases h.symm.trans ht
    · have ht₀ := h.symm.trans ht
      cases hleaves <;> cases ht₀
      rename_i hk
      exact slotTurn_serving hyes h hk rfl rfl rfl
  | read ht _ =>
    rcases hs.served (ht ▸ rfl) (by simp [ht]) with ⟨hnil, h⟩ | ⟨hyes, t, hleaves, h⟩
    · cases h.symm.trans ht
      exact slotTurn_first hnil _ rfl rfl
    · have ht₀ := h.symm.trans ht
      cases hleaves <;> cases ht₀
      rename_i hk
      exact slotTurn_serving hyes h (hk _) rfl rfl rfl
  | loop ht _ =>
    rcases hs.served (ht ▸ rfl) (by simp [ht]) with ⟨-, h⟩ | ⟨hyes, t, hleaves, h⟩
    · cases h.symm.trans ht
    · exact slotTurn_serving hyes h (MeshThread.leaves_turn (leaves_sharedGraph P) _ _) rfl rfl rfl

/-! ## All sessions -/

variable {κ : Type} [Fintype κ] {other : SharedHub → SharedHub → Prop}
  {c c' c₀ : System κ MeshLoop SharedHub Frame (Except (Fault NetworkError) Unit) σ}

variable (P) in
/-- The counter is what the sessions hold, no more than 64 are served, and each has found fewer than
all of them. -/
structure SlotsKept (c : System κ MeshLoop SharedHub Frame (Except (Fault NetworkError) Unit) σ) :
    Prop where
  state : ∀ i, SlotState P (c.session i)
  counted : c.shared.sessions.toNat = ∑ i, held (c.session i)
  served : ∑ i, inService (c.session i) ≤ 64
  found : ∀ i, ∀ e ∈ (c.session i).log.head?, e.1.sessions.toNat < Fintype.card κ

theorem sum_held_lt {j : κ} (h : held (c.session j) = 0) :
    ∑ i, held (c.session i) < Fintype.card κ := by
  rw [← Finset.card_univ, Finset.card_eq_sum_ones]
  exact Finset.sum_lt_sum (fun i _ => held_le _) ⟨j, Finset.mem_univ j, h ▸ Nat.one_pos⟩

variable [DecidableEq κ]

/-- One session's turn changes the sum by what it changes there. -/
theorem sum_turn {f : HubSession σ → ℕ} {j : κ}
    (hsame : ∀ i, i ≠ j → c'.session i = c.session i) :
    ∑ i, f (c'.session i) + f (c.session j) = ∑ i, f (c.session i) + f (c'.session j) := by
  rw [← Finset.add_sum_erase _ _ (Finset.mem_univ j),
    ← Finset.add_sum_erase Finset.univ (fun i => f (c.session i)) (Finset.mem_univ j),
    Finset.sum_congr rfl fun i hi => congrArg f (hsame i (Finset.ne_of_mem_erase hi))]
  omega

theorem SlotsKept.step (hk : SlotsKept P c) (hcard : Fintype.card κ < 2 ^ 64)
    (hother : ∀ {g g'}, other g g' → g'.sessions = g.sessions)
    (h : Serving.Step (MeshThread.guardedTurn P (sharedGraph P) sharedSlots) act other c c') :
    SlotsKept P c' := by
  rcases h.cases with ⟨h, hsame⟩ | ⟨j, h, hsame⟩
  · exact ⟨hsame ▸ hk.state, by rw [hother h, hsame, hk.counted], hsame ▸ hk.served,
      hsame ▸ hk.found⟩
  · have hle : held (c.session j) ≤ c.shared.sessions.toNat :=
      hk.counted ▸ Finset.single_le_sum (f := fun i => held (c.session i))
        (fun _ _ => Nat.zero_le _) (Finset.mem_univ j)
    have hlt : held (c.session j) = 0 → c.shared.sessions.toNat < Fintype.card κ := fun h0 =>
      hk.counted ▸ sum_held_lt h0
    have hturn := slotTurn (hk.state j) h (fun h0 => by have := hlt h0; omega) hle
    have hheld := sum_turn (f := held) hsame
    have hserved := sum_turn (f := inService) hsame
    have hcounted := hturn.counted
    have hkept := hk.counted
    refine ⟨fun i => ?_, by omega, ?_, fun i e he => ?_⟩
    · by_cases hij : i = j
      · exact hij ▸ hturn.state
      · rw [hsame i hij]
        exact hk.state i
    · have hle : ∑ i, inService (c.session i) ≤ ∑ i, held (c.session i) :=
        Finset.sum_le_sum fun i _ => inService_le (c.session i)
      rcases hturn.served with hless | ⟨h0, h1, hfree⟩
      · have hcap := hk.served
        omega
      · omega
    · by_cases hij : i = j
      · subst hij
        rcases hturn.found with heq | ⟨h0, heq⟩
        · exact hk.found i e (heq ▸ he)
        · rw [heq, Option.mem_some_iff] at he
          exact he ▸ hlt h0
      · rw [hsame i hij] at he
        exact hk.found i e he

/-- However the turns of the sessions fall, and whatever else the hub does. -/
theorem slotsKept_run (hcard : Fintype.card κ < 2 ^ 64)
    (hother : ∀ {g g'}, other g g' → g'.sessions = g.sessions)
    (hfresh : Fresh c₀) (hzero : c₀.shared.sessions = 0)
    {entry : κ → MeshThread.Entry} (hserve : ∀ i, (c₀.session i).thread
      = MeshThread.enter P (sharedGraph P) sharedSlots (entry i))
    (hreach : ReflTransGen (Serving.Step (MeshThread.guardedTurn P (sharedGraph P) sharedSlots) act
      other) c₀ c) : SlotsKept P c := by
  induction hreach with
  | refl =>
    have hnil : ∀ i, (c₀.session i).log = [] := fun i => (hfresh i).1
    have hheld : ∀ i, held (c₀.session i) = 0 := fun i => held_eq_zero (.inl (hnil i))
    refine ⟨fun i => .of_enter (hnil i) (hserve i), ?_, ?_, fun i e he => ?_⟩
    · rw [hzero, Finset.sum_eq_zero fun i _ => hheld i]
      rfl
    · refine (Finset.sum_le_sum fun i _ => inService_le (c₀.session i)).trans ?_
      rw [Finset.sum_eq_zero fun i _ => hheld i]
      exact Nat.zero_le 64
    · rw [hnil] at he
      cases he
  | tail _ hstep ih => exact ih.step hcard hother hstep

end Slots

end KronMesh
