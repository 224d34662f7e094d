import Mathlib.Data.List.Basic

/-!
# The first and the last separator of a list

A list splits in one way at its first separator, and either has none or splits in one way
at its last one.
-/

namespace LibeventHttpServe.Lib

variable {α : Type}

theorem split_last (c : α) (s : List α) :
    c ∉ s ∨ ∃ host port, s = host ++ c :: port ∧ c ∉ port := by
  by_cases h : c ∈ s
  · obtain ⟨a, b, hab, hn⟩ := List.eq_append_cons_of_mem (List.mem_reverse.mpr h)
    refine Or.inr ⟨b.reverse, a.reverse, ?_, fun hc => hn (List.mem_reverse.mp hc)⟩
    have hs := congrArg List.reverse hab
    simpa using hs
  · exact Or.inl h

theorem split_unique {c : α} {a b a' b' : List α} (h : a ++ c :: b = a' ++ c :: b')
    (hb : c ∉ b) (hb' : c ∉ b') : a = a' ∧ b = b' := by
  have hr : b.reverse ++ c :: a.reverse = b'.reverse ++ c :: a'.reverse := by
    have hrev := congrArg List.reverse h
    simpa using hrev
  rcases List.append_eq_append_iff.mp hr with ⟨l, hl, hc⟩ | ⟨l, hl, hc⟩
  · cases l with
    | nil => simp_all
    | cons x l =>
      simp only [List.cons_append, List.cons.injEq] at hc
      have hm : c ∈ b'.reverse := by
        rw [hl, hc.1]
        simp
      exact (hb' (List.mem_reverse.mp hm)).elim
  · cases l with
    | nil => simp_all
    | cons x l =>
      simp only [List.cons_append, List.cons.injEq] at hc
      have hm : c ∈ b.reverse := by
        rw [hl, hc.1]
        simp
      exact (hb (List.mem_reverse.mp hm)).elim

theorem split_first {c : α} {a b a' b' : List α} (h : a ++ c :: b = a' ++ c :: b')
    (ha : c ∉ a) (ha' : c ∉ a') : a = a' ∧ b = b' := by
  have hr : b.reverse ++ c :: a.reverse = b'.reverse ++ c :: a'.reverse := by
    have hrev := congrArg List.reverse h
    simpa using hrev
  obtain ⟨hb, ha⟩ := split_unique hr (by simpa using ha) (by simpa using ha')
  exact ⟨List.reverse_injective ha, List.reverse_injective hb⟩

/-- `t` is what follows the last `c` of `s`, or all of `s` when it has no `c`. -/
def AfterLast (c : α) (s t : List α) : Prop :=
  c ∉ t ∧ (t = s ∨ ∃ dir, s = dir ++ c :: t)

theorem afterLast_whole {c : α} {s : List α} : AfterLast c s s ↔ c ∉ s := by
  constructor
  · exact fun h => h.1
  · exact fun h => ⟨h, Or.inl rfl⟩

theorem afterLast_append {c : α} {dir t : List α} (h : c ∉ t) :
    AfterLast c (dir ++ c :: t) t := ⟨h, Or.inr ⟨dir, rfl⟩⟩

end LibeventHttpServe.Lib
