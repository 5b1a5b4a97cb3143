import Deltasync.Lib.Transition
import Mathlib.Algebra.BigOperators.Group.Finset.Basic
import Mathlib.Data.Fintype.BigOperators

/-!
# Counting the steps of a run

A potential is a number attached to each state.  If every step of one kind lowers
it, and a step of another kind raises it by at most `k`, then a run has no more
steps of the first kind than the potential of its first state and `k` for each
step of the second kind.
-/

namespace Transition

variable {σ ε : Type*} {step : σ → ε → Option σ}

/-- Steps that do work are paid for by the potential and by the steps that raise it. -/
theorem run_countP_le {I : σ → Prop} (m : σ → ℕ) (works raises : ε → Bool) (k : ℕ)
    (hstep : ∀ s e t, I s → step s e = some t → I t)
    (hcost : ∀ s e t, I s → step s e = some t →
      m t + (if works e then 1 else 0) ≤ m s + (if raises e then k else 0))
    {s t : σ} {es : List ε} (h0 : I s) (h : run step s es = some t) :
    m t + es.countP works ≤ m s + k * es.countP raises := by
  have hind : I t ∧ m t + es.countP works ≤ m s + k * es.countP raises := by
    refine run_induction (P := fun es t => I t ∧ m t + es.countP works ≤
      m s + k * es.countP raises) ⟨h0, by simp⟩ ?_ h
    rintro es u e t - ⟨hu, hle⟩ ht
    refine ⟨hstep u e t hu ht, ?_⟩
    have hlast := hcost u e t hu ht
    rw [List.countP_append, List.countP_append, List.countP_singleton, List.countP_singleton,
      Nat.mul_add]
    split_ifs at hlast ⊢ <;> omega
  exact hind.2

/-- A sum in which one term changes. -/
theorem sum_of_ne {ι : Type*} [Fintype ι] [DecidableEq ι] {f g : ι → ℕ} (i : ι)
    (h : ∀ j, j ≠ i → g j = f j) : (∑ j, g j) + f i = (∑ j, f j) + g i := by
  rw [← Finset.add_sum_erase _ f (Finset.mem_univ i),
    ← Finset.add_sum_erase _ g (Finset.mem_univ i)]
  have hrest : ∑ j ∈ Finset.univ.erase i, g j = ∑ j ∈ Finset.univ.erase i, f j := by
    apply Finset.sum_congr rfl
    intro j hj
    exact h j (Finset.ne_of_mem_erase hj)
  omega

end Transition
