import KronMesh.Lib.Pool
import KronMesh.Lib.Replay

/-!
# Session slots

A hub serves 64 mesh sessions at a time. The thread of a connection takes a slot by counting itself
in, and counts itself out again at once when the count shows that the hub is full; a session that
was admitted gives its slot back when its guard is dropped. The counter is one machine word, its
operations are atomic steps, and the steps of different threads come in any order.

The word does not wrap: every thread owns a handle of the hub, and `Arc` lets no more than
`isize::MAX + 1` of them live.
-/

namespace KronMesh

open Pool

/-- `MAX_MESH_CONNECTIONS`. -/
def maxMeshConnections : UInt64 := 64

/-- Where the thread of a connection is. -/
inductive SessionThread
  /-- Before the `fetch_add` of `try_acquire_session`. -/
  | calling
  /-- The hub was full, and the `fetch_sub` is still to come. -/
  | refused
  /-- A slot was free, and the guard is still to be made. -/
  | admitted
  | serving
  /-- The guard is dropped: `fetch_update` has read the counter, and is to exchange what it read. -/
  | releasing (prev : UInt64)
  /-- The slot is given back, and the guard's handle is still to be dropped. -/
  | released
  /-- The thread's own handle is still to be dropped. -/
  | returning
  | done
  deriving DecidableEq

namespace SessionThread

/-- The handles of the hub that the thread owns. -/
def handles : SessionThread → ℕ
  | calling | refused | admitted | returning => 1
  | serving | releasing _ | released => 2
  | done => 0

/-- One in the threads whose session is admitted. -/
def session : SessionThread → ℕ
  | admitted | serving | releasing _ => 1
  | calling | refused | released | returning | done => 0

/-- One in the threads between their `fetch_add` and their `fetch_sub`. -/
def backingOut : SessionThread → ℕ
  | refused => 1
  | calling | admitted | serving | releasing _ | released | returning | done => 0

/-- The next atomic step of a thread: what it leaves in the counter, and where the thread is then.
`compare_exchange_weak` may fail for no reason. -/
def step (sessions : UInt64) (mayClone spurious : Bool) :
    SessionThread → Option (UInt64 × SessionThread)
  | calling => some (sessions + 1, if maxMeshConnections ≤ sessions then refused else admitted)
  | refused => some (sessions - 1, returning)
  | admitted => if mayClone then some (sessions, serving) else none
  | serving => some (sessions, releasing sessions)
  | releasing prev =>
    if sessions = prev ∧ spurious = false then
      -- `prev.saturating_sub(1)`
      some (if prev = 0 then 0 else prev - 1, released)
    else some (sessions, releasing sessions)
  | released => some (sessions, returning)
  | returning => some (sessions, done)
  | done => none

end SessionThread

/-- The hub's counter, the handles of the hub that are not a connection's, and the threads. -/
structure SessionHub where
  sessions : UInt64
  elsewhere : ℕ
  threads : List SessionThread

namespace SessionHub

def new : SessionHub := ⟨0, 1, []⟩

/-- All handles of the hub. -/
def strongCount (h : SessionHub) : ℕ := h.elsewhere + tally SessionThread.handles h.threads

/-- `Arc::clone` aborts the process once there are more than `isize::MAX` handles. -/
def mayClone (h : SessionHub) : Bool := h.strongCount < 2 ^ 63

def admitted (h : SessionHub) : ℕ := tally SessionThread.session h.threads

def backingOut (h : SessionHub) : ℕ := tally SessionThread.backingOut h.threads

end SessionHub

inductive SessionAct
  /-- A connection's thread is given its handle. -/
  | connect
  /-- A handle is cloned, or dropped, by another part of the node. -/
  | cloneElsewhere
  | dropElsewhere
  /-- The next step of a thread. -/
  | step (thread : ℕ) (spurious : Bool)

/-- `none` where the process aborts, or where the thread has no step to take. -/
def sessionExec (h : SessionHub) : SessionAct → Option SessionHub
  | .connect => if h.mayClone then some { h with threads := h.threads ++ [.calling] } else none
  | .cloneElsewhere => if h.mayClone then some { h with elsewhere := h.elsewhere + 1 } else none
  | .dropElsewhere => some { h with elsewhere := h.elsewhere - 1 }
  | .step i spurious => do
    let thread ← h.threads[i]?
    let r ← thread.step h.sessions h.mayClone spurious
    return { h with sessions := r.1, threads := h.threads.set i r.2 }

/-! ## What one step does -/

namespace SessionThread

/-- One in the threads that the counter counts. -/
def counted (t : SessionThread) : ℕ := t.session + t.backingOut

theorem counted_le_handles (t : SessionThread) : t.counted ≤ t.handles := by
  cases t <;> simp [counted, session, backingOut, handles]

variable {c c' : UInt64} {mayClone spurious : Bool} {t t' : SessionThread}

theorem toNat_succ {c : UInt64} (h : c.toNat + 1 < 2 ^ 64) : (c + 1).toNat = c.toNat + 1 := by
  rw [UInt64.toNat_add, UInt64.toNat_one, Nat.mod_eq_of_lt h]

theorem toNat_pred {c : UInt64} (h : 1 ≤ c.toNat) : (c - 1).toNat = c.toNat - 1 :=
  UInt64.toNat_sub_of_le _ _ (UInt64.le_iff_toNat_le.2 h)

/-- A step changes the counter as it changes whether the thread is counted. -/
theorem step_counted (h : t.step c mayClone spurious = some (c', t'))
    (hword : c.toNat + 1 < 2 ^ 64) (hin : t.counted ≤ c.toNat) :
    c'.toNat + t.counted = c.toNat + t'.counted := by
  cases t with
  | calling =>
    cases h
    rw [toNat_succ hword]
    split_ifs <;> rfl
  | refused =>
    cases h
    rw [toNat_pred hin]
    exact Nat.sub_add_cancel hin
  | admitted =>
    obtain ⟨-, h⟩ := Option.ite_none_right_eq_some.1 h
    cases h
    rfl
  | releasing prev =>
    rw [step] at h
    split_ifs at h with hsame hzero
    · rw [hsame.1, hzero] at hin
      exact absurd hin (by decide)
    · cases h
      rw [← hsame.1, toNat_pred hin]
      exact Nat.sub_add_cancel hin
    · cases h
      rfl
  | serving | released | returning => cases h; rfl
  | done => cases h

/-- A session is admitted only while the counter shows a free slot. -/
theorem step_session (h : t.step c mayClone spurious = some (c', t')) :
    t'.session ≤ t.session ∨ t.session = 0 ∧ t'.session = 1 ∧ c.toNat < 64 := by
  cases t with
  | calling =>
    cases h
    split_ifs with hfull
    · exact .inl le_rfl
    · exact .inr ⟨rfl, rfl, Nat.lt_of_not_le fun hle => hfull (UInt64.le_iff_toNat_le.2 hle)⟩
  | admitted =>
    obtain ⟨-, h⟩ := Option.ite_none_right_eq_some.1 h
    cases h
    exact .inl le_rfl
  | releasing prev =>
    rw [step] at h
    split_ifs at h <;> cases h
    · exact .inl (Nat.zero_le _)
    · exact .inl (Nat.zero_le _)
    · exact .inl le_rfl
  | refused | serving | released | returning => cases h; exact .inl (Nat.le_of_ble_eq_true rfl)
  | done => cases h

/-- A thread comes by a handle only where the process may clone one. -/
theorem step_handles (h : t.step c mayClone spurious = some (c', t')) :
    t'.handles ≤ t.handles ∨ mayClone = true ∧ t'.handles = t.handles + 1 := by
  cases t with
  | calling =>
    cases h
    split_ifs <;> exact .inl le_rfl
  | admitted =>
    obtain ⟨hclone, h⟩ := Option.ite_none_right_eq_some.1 h
    cases h
    exact .inr ⟨hclone, rfl⟩
  | releasing prev =>
    rw [step] at h
    split_ifs at h <;> cases h <;> exact .inl le_rfl
  | refused | serving | released | returning => cases h; exact .inl (Nat.le_of_ble_eq_true rfl)
  | done => cases h

end SessionThread

/-! ## What every run keeps -/

namespace SessionHub

/-- The counter counts the admitted sessions and the threads that are backing out. -/
structure Inv (h : SessionHub) : Prop where
  counted : h.sessions.toNat = tally SessionThread.counted h.threads
  capped : h.admitted ≤ 64
  handles : h.strongCount ≤ 2 ^ 63

theorem counted_eq (h : SessionHub) :
    tally SessionThread.counted h.threads = h.admitted + h.backingOut := tally_add h.threads

theorem Inv.word {h : SessionHub} (hi : h.Inv) : h.sessions.toNat + 1 < 2 ^ 64 := by
  have hle := tally_le_tally SessionThread.counted_le_handles h.threads
  have hcount := hi.counted
  have hhandles := hi.handles
  unfold strongCount at hhandles
  omega

theorem inv_new : new.Inv := ⟨rfl, Nat.zero_le _, by decide⟩

theorem inv_step {h : SessionHub} {i : ℕ} {c : UInt64} {spurious : Bool} {t t' : SessionThread}
    (hi : h.Inv) (ht : h.threads[i]? = some t)
    (hstep : t.step h.sessions h.mayClone spurious = some (c, t')) :
    Inv { h with sessions := c, threads := h.threads.set i t' } := by
  have hmem : t ∈ h.threads := List.mem_of_getElem? ht
  have hin : t.counted ≤ h.sessions.toNat := hi.counted ▸ le_tally hmem
  constructor
  · have hc := SessionThread.step_counted hstep hi.word hin
    have hset := tally_set (f := SessionThread.counted) t' ht
    have hcount := hi.counted
    change c.toNat = tally SessionThread.counted (h.threads.set i t')
    omega
  · have hset := tally_set (f := SessionThread.session) t' ht
    have hcap := hi.capped
    have hcount := hi.counted
    rw [counted_eq] at hcount
    change tally SessionThread.session (h.threads.set i t') ≤ 64
    unfold admitted at hcap hcount
    rcases SessionThread.step_session hstep with hle | ⟨h0, h1, hfree⟩ <;> omega
  · have hset := tally_set (f := SessionThread.handles) t' ht
    have hhandles := hi.handles
    change h.elsewhere + tally SessionThread.handles (h.threads.set i t') ≤ 2 ^ 63
    unfold strongCount at hhandles
    rcases SessionThread.step_handles hstep with hle | ⟨hclone, heq⟩
    · omega
    · have hroom : h.elsewhere + tally SessionThread.handles h.threads < 2 ^ 63 :=
        of_decide_eq_true hclone
      omega

theorem inv_exec {h h' : SessionHub} {a : SessionAct} (hexec : sessionExec h a = some h')
    (hi : h.Inv) : h'.Inv := by
  cases a with
  | connect =>
    obtain ⟨hclone, hexec⟩ := Option.ite_none_right_eq_some.1 hexec
    have hroom : h.strongCount < 2 ^ 63 := of_decide_eq_true hclone
    cases hexec
    exact ⟨by simpa [SessionThread.counted, SessionThread.session, SessionThread.backingOut]
        using hi.counted, by simpa [admitted, SessionThread.session] using hi.capped,
      by simp [strongCount, SessionThread.handles] at hroom ⊢; omega⟩
  | cloneElsewhere =>
    obtain ⟨hclone, hexec⟩ := Option.ite_none_right_eq_some.1 hexec
    have hroom : h.strongCount < 2 ^ 63 := of_decide_eq_true hclone
    cases hexec
    exact ⟨hi.counted, hi.capped, by simp only [strongCount] at hroom ⊢; omega⟩
  | dropElsewhere =>
    cases hexec
    have hhandles := hi.handles
    exact ⟨hi.counted, hi.capped, by simp only [strongCount] at hhandles ⊢; omega⟩
  | step i spurious =>
    simp only [sessionExec, Option.bind_eq_bind, Option.bind_eq_some_iff] at hexec
    obtain ⟨t, ht, ⟨c, t'⟩, hstep, heq⟩ := hexec
    cases heq
    exact inv_step hi ht hstep

end SessionHub

/-- In whatever order the threads take their steps, no more than 64 sessions are admitted at a
time, the counter is the number of the admitted sessions and of the threads that are backing out,
so it is not zero where a thread is to count out, and it is zero once all are done. -/
theorem sessions_run {acts : List SessionAct} {h : SessionHub}
    (hrun : Replay.all sessionExec .new acts = some h) :
    h.admitted ≤ 64 ∧ h.sessions.toNat = h.admitted + h.backingOut
      ∧ (∀ t ∈ h.threads, 0 < t.session + t.backingOut → 0 < h.sessions.toNat)
      ∧ ((∀ t ∈ h.threads, t = .done) → h.sessions = 0) := by
  have hi : h.Inv := Replay.all_keeps SessionHub.inv_exec hrun SessionHub.inv_new
  refine ⟨hi.capped, hi.counted.trans h.counted_eq, fun t ht hpos => ?_, fun hdone => ?_⟩
  · exact hi.counted ▸ hpos.trans_le (le_tally (f := SessionThread.counted) ht)
  · refine UInt64.toNat_inj.1 (hi.counted.trans (tally_eq_zero fun t ht => ?_))
    rw [hdone t ht]
    rfl

/-- A connection too many: it is refused, and the counter overshoots until it has backed out. -/
def fullHub : SessionHub := ⟨65, 1, List.replicate 64 .admitted ++ [.refused]⟩

set_option maxRecDepth 4000 in
theorem sessions_run_fullHub :
    fullHub.backingOut = 1 ∧ fullHub.admitted ≤ 64
      ∧ fullHub.sessions.toNat = fullHub.admitted + fullHub.backingOut := by
  have hrun : Replay.all sessionExec .new (List.replicate 65 .connect
      ++ (List.range 65).map fun i => .step i false) = some fullHub := by rfl
  exact ⟨rfl, (sessions_run hrun).1, (sessions_run hrun).2.1⟩

end KronMesh
