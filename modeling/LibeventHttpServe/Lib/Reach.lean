import Mathlib.Data.Option.Basic

/-!
# Reachable states of a transition system

A system is given by its initial states and by a partial step function: the
action carries every choice of the environment, and `none` means that the
action is not enabled. An invariant of the steps holds in every reachable
state; restricting the enabled actions only removes reachable states.
-/

namespace LibeventHttpServe.Lib

/-- Initial states and the effect of each enabled action. -/
structure System (σ α : Type) where
  init : σ → Prop
  step : σ → α → Option σ

namespace System

variable {σ α : Type} {S : System σ α}

inductive Reachable (S : System σ α) : σ → Prop where
  | init {s : σ} (h : S.init s) : Reachable S s
  | step {s s' : σ} {a : α} (hs : Reachable S s) (h : S.step s a = some s') : Reachable S s'

/-- What holds initially and is kept by every step holds in every reachable
state; the step may use that its source is reachable. -/
theorem Reachable.invariant {I : σ → Prop} (hinit : ∀ s, S.init s → I s)
    (hstep : ∀ s a s', S.Reachable s → I s → S.step s a = some s' → I s')
    {s : σ} (hs : S.Reachable s) : I s := by
  induction hs with
  | init h => exact hinit _ h
  | step hs h ih => exact hstep _ _ _ hs ih h

/-- The system in which only the steps that meet `G` are taken. -/
def restrict (S : System σ α) (G : σ → α → Prop) [∀ s a, Decidable (G s a)] : System σ α where
  init := S.init
  step s a := if G s a then S.step s a else none

theorem restrict_step {G : σ → α → Prop} [∀ s a, Decidable (G s a)] {s s' : σ} {a : α} :
    (S.restrict G).step s a = some s' ↔ G s a ∧ S.step s a = some s' := by
  by_cases hg : G s a <;> simp [restrict, hg]

theorem reachable_of_restrict {G : σ → α → Prop} [∀ s a, Decidable (G s a)] {s : σ}
    (hs : (S.restrict G).Reachable s) : S.Reachable s := by
  induction hs with
  | init h => exact .init h
  | step _ h ih => exact .step ih (restrict_step.mp h).2

/-- The state after a list of actions, when each of them is enabled in turn. -/
def exec (S : System σ α) : List α → σ → Option σ
  | [], s => some s
  | a :: as, s => (S.step s a).bind (S.exec as)

theorem exec_of_restrict {G : σ → α → Prop} [∀ s a, Decidable (G s a)] {as : List α} {s s' : σ}
    (h : (S.restrict G).exec as s = some s') : S.exec as s = some s' := by
  induction as generalizing s with
  | nil => exact h
  | cons a as ih =>
    obtain ⟨t, ht, hrest⟩ := Option.bind_eq_some_iff.mp h
    exact Option.bind_eq_some_iff.mpr ⟨t, (restrict_step.mp ht).2, ih hrest⟩

theorem reachable_exec {as : List α} {s s' : σ} (hs : S.Reachable s)
    (h : S.exec as s = some s') : S.Reachable s' := by
  induction as generalizing s with
  | nil =>
    cases h
    exact hs
  | cons a as ih =>
    obtain ⟨t, ht, hrest⟩ := Option.bind_eq_some_iff.mp h
    exact ih (.step hs ht) hrest

/-- `P` holds of every step that a list of actions takes from `s`. -/
def Along (S : System σ α) (P : σ → α → Prop) : List α → σ → Prop
  | [], _ => True
  | a :: as, s => P s a ∧ ∀ s', S.step s a = some s' → S.Along P as s'

theorem along_congr {P Q : σ → α → Prop} (h : ∀ s a, S.Reachable s → (P s a ↔ Q s a))
    {s : σ} (hs : S.Reachable s) (as : List α) : S.Along P as s ↔ S.Along Q as s := by
  induction as generalizing s with
  | nil => exact Iff.rfl
  | cons a as ih =>
    refine and_congr (h s a hs) ?_
    exact forall_congr' fun s' => forall_congr' fun hstep => ih (.step hs hstep)

/-- Every step of `S` is, seen through `f`, a step of `T` or no step at all. -/
structure Refines {τ β : Type} (S : System σ α) (T : System τ β) (f : σ → τ) : Prop where
  init : ∀ s, S.init s → T.init (f s)
  step : ∀ s a s', S.Reachable s → S.step s a = some s' →
    f s' = f s ∨ ∃ b, T.step (f s) b = some (f s')

theorem Refines.reachable {τ β : Type} {T : System τ β} {f : σ → τ} (h : S.Refines T f) {s : σ}
    (hs : S.Reachable s) : T.Reachable (f s) := by
  induction hs with
  | init hi => exact .init (h.init _ hi)
  | step hs ha ih =>
    rcases h.step _ _ _ hs ha with he | ⟨b, hb⟩
    · rw [he]
      exact ih
    · exact .step ih hb

end System
end LibeventHttpServe.Lib
