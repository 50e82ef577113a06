import EduCpu16.Lib.Lockstep

/-!
# Runs with a number of steps

For a machine that is a step function, `Leads f A n s t`: `n` steps lead from `s` to `t`, and every
state they start in is in `A`. Runs are put end to end (`Leads.trans`), a loop is as many runs as it
makes turns (`Leads.loop`), and a run of one machine is one of another that it simulates
(`Leads.simulate`).
-/

namespace CountedRun

variable {S T : Type*} {f : S → S} {A : S → Prop}

structure Leads (f : S → S) (A : S → Prop) (n : Nat) (s t : S) : Prop where
  allowed : ∀ k < n, A (f^[k] s)
  ends : f^[n] s = t

namespace Leads

theorem refl (s : S) : Leads f A 0 s s where
  allowed := fun k hk => absurd hk (Nat.not_lt_zero k)
  ends := rfl

theorem step {s : S} (h : A s) : Leads f A 1 s (f s) where
  allowed := by
    intro k hk
    obtain rfl := Nat.lt_one_iff.mp hk
    exact h
  ends := rfl

theorem trans {m n : Nat} {s t u : S} (h : Leads f A m s t) (h' : Leads f A n t u) :
    Leads f A (m + n) s u where
  allowed := by
    intro k hk
    by_cases hkm : k < m
    · exact h.allowed k hkm
    · have hsplit : f^[k] s = f^[k - m] t := by
        rw [← h.ends, ← Function.iterate_add_apply, Nat.sub_add_cancel (Nat.not_lt.mp hkm)]
      rw [hsplit]
      exact h'.allowed (k - m) (by omega)
  ends := by rw [Nat.add_comm, Function.iterate_add_apply, h.ends, h'.ends]

/-- **A loop** whose turns take `c` steps each. -/
theorem loop {I : Nat → S → Prop} {c n : Nat}
    (turn : ∀ i < n, ∀ s, I i s → ∃ t, Leads f A c s t ∧ I (i + 1) t) {s : S} (start : I 0 s) :
    ∃ t, Leads f A (c * n) s t ∧ I n t := by
  induction n with
  | zero => exact ⟨s, refl s, start⟩
  | succ n ih =>
    obtain ⟨t, hrun, ht⟩ := ih fun i hi => turn i (Nat.lt_succ_of_lt hi)
    obtain ⟨u, hturn, hu⟩ := turn n (Nat.lt_succ_self n) t ht
    exact ⟨u, hrun.trans hturn, hu⟩

/-- A machine that stays beside this one for a step stays beside it for the run. -/
theorem simulate {g : T → T} {R : S → T → Prop}
    (step : ∀ s t, R s t → A s → R (f s) (g t)) {n : Nat} {s s' : S} {t : T}
    (h : Leads f A n s s') (start : R s t) : R s' (g^[n] t) := by
  rw [← h.ends]
  exact Lockstep.iterate step start n h.allowed

end Leads

end CountedRun
