import Mathlib.Logic.Function.Iterate

/-!
# Lockstep simulation

Two deterministic machines, each a step function, that make one step at a time side by side. A
relation between their states that a step keeps, where the first machine is in a state that
allows it, holds after any number of steps.
-/

namespace Lockstep

variable {S T : Type*} {f : S → S} {g : T → T} {R : S → T → Prop} {Allowed : S → Prop}

/-- **Runs of a simulation.** -/
theorem iterate (step : ∀ s t, R s t → Allowed s → R (f s) (g t)) {s : S} {t : T}
    (start : R s t) (n : Nat) (allowed : ∀ k < n, Allowed (f^[k] s)) :
    R (f^[n] s) (g^[n] t) := by
  induction n with
  | zero => exact start
  | succ n ih =>
    rw [Function.iterate_succ_apply', Function.iterate_succ_apply']
    have hn := ih fun k hk => allowed k (Nat.lt_succ_of_lt hk)
    exact step _ _ hn (allowed n (Nat.lt_succ_self n))

end Lockstep
