import Mathlib.Data.List.Perm.Basic
import Mathlib.Data.List.Nodup

/-!
# Resources that are acquired and released

The history of a resource is the part of a log that concerns it. A resource is settled
when the log never mentions it, or acquires it once and then releases it once. A log
that first acquires distinct resources and then releases some of them settles those.
-/

namespace LibeventHttpServe.Lib

inductive Entry (ρ : Type) where
  | acquire (r : ρ)
  | release (r : ρ)
  deriving DecidableEq, Repr

variable {ρ : Type}

def Entry.resource : Entry ρ → ρ
  | .acquire r => r
  | .release r => r

/-- The resources that a log releases, in its order. -/
def releases (es : List (Entry ρ)) : List ρ :=
  es.filterMap fun e => match e with
    | .acquire _ => none
    | .release r => some r

theorem releases_phases (as bs : List ρ) :
    releases (as.map .acquire ++ bs.map .release) = bs := by
  unfold releases
  simp [List.filterMap_map]

variable [DecidableEq ρ]

def history (r : ρ) (es : List (Entry ρ)) : List (Entry ρ) :=
  es.filter fun e => decide (e.resource = r)

def Settled (es : List (Entry ρ)) (r : ρ) : Prop :=
  history r es = [] ∨ history r es = [.acquire r, .release r]

@[simp] theorem history_append (r : ρ) (es fs : List (Entry ρ)) :
    history r (es ++ fs) = history r es ++ history r fs := List.filter_append ..

/- One kind of entry for each resource of a list without repetition. -/
theorem history_map {c : ρ → Entry ρ} (hc : ∀ r, (c r).resource = r) {as : List ρ}
    (has : as.Nodup) (r : ρ) : history r (as.map c) = if r ∈ as then [c r] else [] := by
  induction as with
  | nil => rfl
  | cons a as ih =>
    obtain ⟨ha, has⟩ := List.nodup_cons.mp has
    have htail := ih has
    unfold history at htail ⊢
    rw [List.map_cons, List.filter_cons, hc, htail]
    by_cases h : a = r
    · subst h
      simp [ha]
    · have hmem : r ∈ a :: as ↔ r ∈ as := by
        simp [Ne.symm h]
      simp [h, hmem]

theorem history_phases {as bs : List ρ} (has : as.Nodup) (hbs : bs.Nodup) (r : ρ) :
    history r (as.map .acquire ++ bs.map .release) =
      (if r ∈ as then [.acquire r] else []) ++ (if r ∈ bs then [.release r] else []) := by
  rw [history_append, history_map (fun _ => rfl) has, history_map (fun _ => rfl) hbs]

theorem settled_of_perm {as bs : List ρ} (has : as.Nodup) (hp : bs.Perm as) (r : ρ) :
    Settled (as.map .acquire ++ bs.map .release) r := by
  unfold Settled
  rw [history_phases has (hp.nodup_iff.mpr has)]
  simp only [hp.mem_iff]
  by_cases h : r ∈ as
  · simp [h]
  · simp [h]

/- All but the resource `k` are released. -/
theorem history_kept {as bs : List ρ} {k : ρ} (has : as.Nodup) (hp : (k :: bs).Perm as) :
    history k (as.map .acquire ++ bs.map .release) = [.acquire k] ∧
      ∀ r, r ≠ k → Settled (as.map .acquire ++ bs.map .release) r := by
  obtain ⟨hk, hbs⟩ := List.nodup_cons.mp (hp.nodup_iff.mpr has)
  constructor
  · have hmem : k ∈ as := hp.subset List.mem_cons_self
    rw [history_phases has hbs, if_pos hmem, if_neg hk]
    rfl
  · intro r hr
    have hiff : r ∈ as ↔ r ∈ bs := by
      rw [← hp.mem_iff, List.mem_cons, or_iff_right hr]
    unfold Settled
    rw [history_phases has hbs]
    simp only [hiff]
    by_cases h : r ∈ bs
    · simp [h]
    · simp [h]

end LibeventHttpServe.Lib
