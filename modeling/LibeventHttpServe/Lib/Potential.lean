import LibeventHttpServe.Lib.Reach
import Mathlib.Algebra.BigOperators.Group.List.Basic
import Mathlib.Algebra.BigOperators.Group.Finset.Basic
import Mathlib.Algebra.Order.BigOperators.Group.Finset
import Mathlib.Tactic.Ring

/-!
# Potentials of a transition system

A step pays its cost out of the potential of the state and the credit of its
action; along a run the costs sum up to no more than the first potential and
the credits. Actions of positive cost and no credit then run out.
-/

namespace LibeventHttpServe.Lib

namespace System

variable {σ α : Type} {S : System σ α} {Φ : σ → ℕ} {cost credit : α → ℕ}

/-- Every step from a reachable state pays its cost. -/
def Paid (S : System σ α) (Φ : σ → ℕ) (cost credit : α → ℕ) : Prop :=
  ∀ s a s', S.Reachable s → S.step s a = some s' → Φ s' + cost a ≤ Φ s + credit a

theorem Paid.exec (h : S.Paid Φ cost credit) {as : List α} {s s' : σ} (hs : S.Reachable s)
    (hrun : S.exec as s = some s') :
    Φ s' + (as.map cost).sum ≤ Φ s + (as.map credit).sum := by
  induction as generalizing s with
  | nil =>
    cases hrun
    exact le_rfl
  | cons a as ih =>
    obtain ⟨t, ht, hrest⟩ := Option.bind_eq_some_iff.mp hrun
    have hstep := h s a t hs ht
    have htail := ih (.step hs ht) hrest
    simp only [List.map_cons, List.sum_cons]
    omega

/-- None of the actions in `A` is enabled. -/
def Stuck (S : System σ α) (A : α → Prop) (s : σ) : Prop := ∀ a, A a → S.step s a = none

section
variable {A : α → Prop}

/-- A run of actions that are not credited is no longer than the potential. -/
theorem Paid.length_le (h : S.Paid Φ cost credit) (hcost : ∀ a, A a → 0 < cost a)
    (hcredit : ∀ a, A a → credit a = 0) {as : List α} {s s' : σ} (hs : S.Reachable s)
    (has : ∀ a ∈ as, A a) (hrun : S.exec as s = some s') : as.length ≤ Φ s := by
  have hpaid := h.exec hs hrun
  have hzero : (as.map credit).sum = 0 := by
    refine List.sum_eq_zero ?_
    intro n hn
    obtain ⟨a, ha, rfl⟩ := List.mem_map.mp hn
    exact hcredit a (has a ha)
  have hone : as.length ≤ (as.map cost).sum := by
    have hle := List.card_nsmul_le_sum (as.map cost) 1 (by
      intro n hn
      obtain ⟨a, ha, rfl⟩ := List.mem_map.mp hn
      exact hcost a (has a ha))
    simpa using hle
  omega

/-- From every reachable state such actions lead to one where none is enabled. -/
theorem Paid.settles (h : S.Paid Φ cost credit) (hcost : ∀ a, A a → 0 < cost a)
    (hcredit : ∀ a, A a → credit a = 0) {s : σ} (hs : S.Reachable s) :
    ∃ as s', (∀ a ∈ as, A a) ∧ S.exec as s = some s' ∧ S.Stuck A s' := by
  induction hn : Φ s using Nat.strong_induction_on generalizing s with
  | _ n ih =>
    subst hn
    by_cases hstuck : S.Stuck A s
    · exact ⟨[], s, by simp, rfl, hstuck⟩
    · simp only [Stuck, not_forall] at hstuck
      obtain ⟨a, ha, hsome⟩ := hstuck
      obtain ⟨t, ht⟩ := Option.ne_none_iff_exists'.mp hsome
      have hlt : Φ t < Φ s := by
        have hstep := h s a t hs ht
        have := hcost a ha
        have := hcredit a ha
        omega
      obtain ⟨as, s', has, hrun, hend⟩ := ih (Φ t) hlt (.step hs ht) rfl
      refine ⟨a :: as, s', ?_, ?_, hend⟩
      · intro b hb
        rcases List.mem_cons.mp hb with rfl | hb
        · exact ha
        · exact has b hb
      · exact Option.bind_eq_some_iff.mpr ⟨t, ht, hrun⟩

end
end System

/-- A sum over the indices below `n` in which only one summand changes. -/
theorem sum_range_le {n i : ℕ} {f g : ℕ → ℕ} {b c : ℕ} (hi : i < n) (hsum : g i + b ≤ f i + c)
    (hrest : ∀ j, j ≠ i → g j = f j) :
    ∑ j ∈ Finset.range n, g j + b ≤ ∑ j ∈ Finset.range n, f j + c := by
  have hmem : i ∈ Finset.range n := Finset.mem_range.mpr hi
  rw [← Finset.add_sum_erase _ g hmem, ← Finset.add_sum_erase _ f hmem]
  have hsame : ∑ j ∈ (Finset.range n).erase i, g j = ∑ j ∈ (Finset.range n).erase i, f j :=
    Finset.sum_congr rfl fun j hj => hrest j (Finset.ne_of_mem_erase hj)
  omega

end LibeventHttpServe.Lib
