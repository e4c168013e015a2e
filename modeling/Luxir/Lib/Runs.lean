/-!
Runs of a system whose steps may be impossible: a run is a fold of the step function over the
events, and exists where every event was possible in the state it met.
-/

namespace Luxir.Lib.Runs
variable {σ ε : Type} {act : σ → ε → Option σ} {holds : σ → Prop} {events : List ε} {start last : σ}

theorem foldlM_cons_some {event : ε} (ran : (event :: events).foldlM act start = some last) :
    ∃ next, act start event = some next ∧ events.foldlM act next = some last := by
  rw [List.foldlM_cons] at ran
  exact Option.bind_eq_some_iff.mp ran

/-- What the allowed events keep holds after every run of them. -/
theorem invariant {allowed : ε → Prop}
    (keeps : ∀ {state event next}, holds state → allowed event → act state event = some next →
      holds next) (first : holds start) (each : ∀ event ∈ events, allowed event)
    (ran : events.foldlM act start = some last) : holds last := by
  induction events generalizing start with
  | nil =>
    cases ran
    exact first
  | cons event events ih =>
    obtain ⟨next, stepped, rest⟩ := foldlM_cons_some ran
    have kept := keeps first (each event List.mem_cons_self) stepped
    exact ih kept (fun later mem => each later (List.mem_cons_of_mem _ mem)) rest

theorem always
    (keeps : ∀ {state event next}, holds state → act state event = some next → holds next)
    {start last : σ} (first : holds start) (ran : events.foldlM act start = some last) :
    holds last :=
  invariant (fun kept (_ : True) => keeps kept) first (fun _ _ => trivial) ran

theorem countP_le (rank : σ → Nat) (counted : ε → Bool)
    (less : ∀ {state event next}, act state event = some next →
      (if counted event then 1 else 0) + rank next ≤ rank state)
    (ran : events.foldlM act start = some last) :
    events.countP counted + rank last ≤ rank start := by
  induction events generalizing start with
  | nil =>
    cases ran
    simp
  | cons event events ih =>
    obtain ⟨next, stepped, rest⟩ := foldlM_cons_some ran
    have later := ih rest
    have now := less stepped
    rw [List.countP_cons]
    omega

end Luxir.Lib.Runs
