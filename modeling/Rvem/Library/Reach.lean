import Mathlib

/-!
# Runs of a step function

`Reaches step s t` says that a deterministic step function takes `s` to `t` in
some number of steps.  The loop rule turns one pass of a loop body into the whole
loop; the invariant is indexed by the number of passes made.
-/

namespace Rvem.Library.Reach

variable {S : Type*} {step : S → S}

/-- Some number of steps leads from `s` to `t`. -/
def Reaches (step : S → S) (s t : S) : Prop :=
  ∃ n, step^[n] s = t

theorem Reaches.refl (s : S) : Reaches step s s :=
  ⟨0, rfl⟩

theorem Reaches.single (s : S) : Reaches step s (step s) :=
  ⟨1, rfl⟩

theorem Reaches.iterate (step : S → S) (n : ℕ) (s : S) : Reaches step s (step^[n] s) :=
  ⟨n, rfl⟩

theorem Reaches.trans {s t u : S} (hfirst : Reaches step s t)
    (hsecond : Reaches step t u) : Reaches step s u := by
  obtain ⟨m, rfl⟩ := hfirst
  obtain ⟨n, rfl⟩ := hsecond
  exact ⟨n + m, Function.iterate_add_apply step n m s⟩

/-- A loop whose body takes each invariant to the next one makes all its passes. -/
theorem Reaches.loop {invariant : ℕ → S → Prop} {passes : ℕ}
    (hbody : ∀ i < passes, ∀ s, invariant i s →
      ∃ t, Reaches step s t ∧ invariant (i + 1) t)
    {s : S} (hstart : invariant 0 s) :
    ∃ t, Reaches step s t ∧ invariant passes t := by
  induction passes with
  | zero => exact ⟨s, Reaches.refl s, hstart⟩
  | succ passes ih =>
      obtain ⟨t, hst, ht⟩ := ih fun i hi => hbody i (by omega)
      obtain ⟨u, htu, hu⟩ := hbody passes (Nat.lt_succ_self _) t ht
      exact ⟨u, hst.trans htu, hu⟩

end Rvem.Library.Reach
