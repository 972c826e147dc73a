import KronMesh.SharedRound

/-!
# A session with a graph that others change

A session opens with the two hellos. Behind the client's a peer goes on to a round
(`connect_steps`), and a wallet hands over a vertex: it is answered when the hub takes the vertex
in, and not answered when the hub refuses it, be it for the rate of new ones or for what it finds
(`submit_steps`).
-/

namespace KronMesh

open Wire Serving Duplex

section Session

variable {γ : Type} {P : Primitives} {G : MeshGraph γ} {V : ℕ → γ} {role : MeshRole}
  {g : LoggedDag} {k : MeshProc LoggedDag}

theorem readable_hello (role : MeshRole) :
    (MeshWireMessage.hello protocolKronMesh role).Readable P := by
  have hlen : (asBytes protocolKronMesh).length = 11 := by decide
  refine ⟨?_, decodeHello_at (hlen.trans_le (by decide)) (At.of_eq ?_)⟩
  · cases role <;> decide
  · rw [hlen]
    rfl

/-- What the thread makes of the hello of its client. -/
theorem onFrame_hello (k : MeshRole → MeshThread γ) (role : MeshRole) :
    MeshThread.onFrame P (MeshThread.onHello k) (frameOf (.hello protocolKronMesh role))
      = k role := by
  rw [onFrame_frameOf (readable_hello role), MeshThread.onHello, if_neg (not_not.2 rfl)]

theorem peer_hello : Moves (meshAct P (isolatedDag P).logged) (g, .read (MeshProc.expectHello k))
    [frameOf (.hello protocolKronMesh .hub)] [] (g, k) :=
  moves_read (readable_hello .hub) (.refl _)

/-- The hello of the hub, behind that of the client. -/
theorem hello_steps (role : MeshRole) : Steps (roundAct P G V) 2
    ⟨.inl (g, .read (MeshProc.expectHello k)),
      threadAt P G V [] (MeshThread.finishAuthenticatedMesh P G role), [], []⟩
    ⟨.inl (g, k), threadAt P G V [] (MeshThread.served P G role), [], []⟩ := by
  have hhello : Moves (roundAct P G V)
      (threadAt P G V [] (MeshThread.finishAuthenticatedMesh P G role)) []
      [frameOf (.hello protocolKronMesh .hub)]
      (threadAt P G V [] (MeshThread.served P G role)) :=
    threadAt_write (readable_hello .hub) (.refl _)
  exact hhello.right_turn_steps.trans (peer_moves peer_hello).left_turn_steps

/-! ## A wallet -/

/-- Whether the hub takes in what the wallet hands over. -/
def takes (G : MeshGraph γ) (V : ℕ → γ) (tx : DagTransaction) : Bool :=
  (G.allowNewVertex (V 0)).2 && (G.ingest (V 1) tx).2.isOk

/-- The accesses for the vertex of a wallet. -/
def submitLog (G : MeshGraph γ) (V : ℕ → γ) (tx : DagTransaction) : List (γ × γ) :=
  (V 0, (G.allowNewVertex (V 0)).1) ::
    if (G.allowNewVertex (V 0)).2 then [(V 1, (G.ingest (V 1) tx).1)] else []

def submitRes (G : MeshGraph γ) (V : ℕ → γ) (tx : DagTransaction) :
    Except (Fault NetworkError) Unit :=
  if takes G V tx then .ok () else .error (.err .badFrame)

/-- A wallet that is not answered goes on waiting; its session has been closed. -/
def submitEnd (G : MeshGraph γ) (V : ℕ → γ) (g : LoggedDag) (tx : DagTransaction) :
    LoggedDag × MeshProc LoggedDag :=
  (g, if takes G V tx then .stop (.ok ()) else .read MeshProc.onSubmitted)

theorem thread_submit {tx : DagTransaction}
    (h : (MeshWireMessage.dagTransaction tx).Readable P) : Moves (roundAct P G V)
    (threadAt P G V [] (.loop .submit)) [frameOf (.dagTransaction tx)]
    (if takes G V tx then [frameOf .done] else [])
    (.inr (submitLog G V tx, .stop (submitRes G V tx))) := by
  have hturn : MeshThread.turn P G .submit (frameOf (.dagTransaction tx))
      = MeshThread.onSubmit G (.dagTransaction tx) := onFrame_frameOf h (MeshThread.onSubmit G)
  have hact : roundAct P G V (threadAt P G V [] (.loop .submit))
      = .read fun m => threadAt P G V [] (MeshThread.turn P G .submit m) := rfl
  refine Moves.read hact ?_
  rw [hturn, MeshThread.onSubmit, MeshThread.call, threadAt_access, submitLog, submitRes, takes]
  change Moves _ (threadAt P G V [(V 0, _)] (if (G.allowNewVertex (V 0)).2 = true then _ else _)) _
    _ _
  cases (G.allowNewVertex (V 0)).2 with
  | false => exact .refl _
  | true =>
    simp only [if_true, Bool.true_and]
    rw [MeshThread.call, threadAt_access, List.length_singleton]
    cases (G.ingest (V 1) tx).2 with
    | ok b => exact threadAt_write readable_done (.refl _)
    | error e => exact .refl _

/-- For any views of the thread the session of a wallet comes to its end. -/
theorem submit_steps {tx : DagTransaction} (h : (MeshWireMessage.dagTransaction tx).Readable P) :
    Steps (roundAct P G V) (if takes G V tx then 6 else 4)
      ⟨.inl (g, .read (MeshProc.expectHello (.write (.dagTransaction tx)
          (.read MeshProc.onSubmitted)))),
        threadAt P G V [] (MeshThread.finishAuthenticatedMesh P G .wallet), [], []⟩
      ⟨.inl (submitEnd G V g tx), .inr (submitLog G V tx, .stop (submitRes G V tx)), [], []⟩ := by
  have hhand : Moves (meshAct P (isolatedDag P).logged)
      (g, .write (.dagTransaction tx) (.read MeshProc.onSubmitted)) []
      [frameOf (.dagTransaction tx)] (g, .read MeshProc.onSubmitted) :=
    moves_write h (.refl _)
  have hsteps := (hello_steps (V := V) (G := G) .wallet).trans
    ((peer_moves hhand).left_turn_steps.trans (thread_submit (V := V) h).right_turn_steps)
  rw [submitEnd]
  cases htakes : takes G V tx with
  | false =>
    rw [htakes] at hsteps
    exact hsteps
  | true =>
    have hdone : Moves (meshAct P (isolatedDag P).logged) (g, .read MeshProc.onSubmitted)
        [frameOf .done] [] (g, .stop (.ok ())) := moves_read readable_done (.refl _)
    rw [htakes] at hsteps
    exact hsteps.trans (peer_moves hdone).left_turn_steps

/-! ## A peer -/

variable {dag : γ → KronDAG} {start : Graph} {U : Finset DagTransaction} {s : KronDAG}

theorem connect_steps (hrole : role ≠ .wallet) (hG : G.Serves P dag) (hU : Universe P U)
    (hs : s.Within P start U) (hV : Views P start U dag V) :
    Steps (roundAct P G V)
      (20 + 2 * ((bodiesUp dag V s).length + (bodiesDown dag V s).length))
      ⟨.inl ((s, []), .read (MeshProc.expectHello
          (MeshProc.runSyncRound (isolatedDag P).logged true))),
        threadAt P G V [] (MeshThread.finishAuthenticatedMesh P G role), [], []⟩
      ⟨.inl (peerEnd P dag V s), .inr (roundLog G dag V s, .stop (.ok ())), [], []⟩ := by
  have hserved : MeshThread.served P G role = MeshThread.runSyncRound P G false := by
    cases role with
    | wallet => exact absurd rfl hrole
    | hub | test => rfl
  have hhello := hello_steps (P := P) (G := G) (V := V) (g := (s, []))
    (k := MeshProc.runSyncRound (isolatedDag P).logged true) role
  rw [hserved] at hhello
  exact (hhello.trans (round_steps hG hU hs hV)).of_eq (by omega)

end Session

end KronMesh
