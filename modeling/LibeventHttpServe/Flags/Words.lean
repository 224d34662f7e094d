import LibeventHttpServe.Flags.Lookup
import LibeventHttpServe.Flags.Memory
import LibeventHttpServe.Lib.Split

/-!
# The words for a flag (flags.c:2467-2732)

A flag that has its names for itself is found by each of the tokens it can be given in.
-/

namespace LibeventHttpServe.Flags

open LibeventHttpServe.Lib

/-! ### Tokens -/

theorem tokenOf_long {n : Bytes} (h : n ≠ []) : tokenOf (text "--" ++ n) = .long n := by
  show tokenOf (ascii '-' :: ascii '-' :: n) = .long n
  simp [tokenOf, h]

theorem tokenOf_short {k : UInt8} (h : k ≠ ascii '-') (r : Bytes) :
    tokenOf (ascii '-' :: k :: r) = .short (k :: r) := by
  simp [tokenOf, h]

/-! ### Flags by their names -/

/-- The names of `f` are its own in the list, and ask for no help. -/
structure OwnNames (fs : List Flag) (f : Flag) : Prop where
  mem : f ∈ fs
  name : ∀ g ∈ fs, g.name = f.name → g = f
  short : f.shortName ≠ 0 → ∀ g ∈ fs, g.shortName = f.shortName → g = f
  nonempty : f.name ≠ []
  help : f.name ≠ text "help"
  shortHelp : f.shortName ≠ ascii 'h'

theorem listed_names {v : Forest} (hv : WellFormed v) {c : Ptr} {f : Flag}
    (hf : f ∈ v.commands.flag c) : OwnNames (v.commands.flag c) f := by
  have hown (g : Flag) (hg : g ∈ v.commands.flag c) (h : g.name = f.name ∨
      (g.shortName ≠ 0 ∧ g.shortName = f.shortName)) : g = f := by
    obtain ⟨x, hx, hgx⟩ := mem_flag hg
    obtain ⟨y, hy, hfy⟩ := mem_flag hf
    rw [hx, Option.some.injEq] at hy
    subst hy
    exact listed_ptr hg hf
      (hv.flagNames c x _ _ _ _ hx hgx hfy (listed_flag hg) (listed_flag hf) h)
  obtain ⟨hname, hhelp, hshort⟩ := hv.flagName _ _ (listed_flag hf)
  refine ⟨hf, fun g hg h => hown g hg (Or.inl h), ?_, hname, hhelp, hshort⟩
  intro hne g hg h
  exact hown g hg (Or.inr ⟨by rwa [h], h⟩)

section Names

variable {fs : List Flag} {f : Flag}

theorem findShort_own (hf : f ∈ fs) (hne : f.shortName ≠ 0)
    (hown : ∀ g ∈ fs, g.shortName = f.shortName → g = f) (r : Bytes) :
    findShort (f.shortName :: r) fs = some f := by
  induction fs with
  | nil => cases hf
  | cons g fs ih =>
    unfold findShort
    by_cases hg : g.shortName = f.shortName
    · rw [hown g List.mem_cons_self hg, if_pos ⟨hne, rfl⟩]
    · have hno : ¬ (g.shortName ≠ 0 ∧ (f.shortName :: r)[0]? = some g.shortName) := by
        intro h
        exact hg (Option.some.inj h.2).symm
      have hmem : f ∈ fs := by
        rcases List.mem_cons.mp hf with rfl | hmem
        · exact (hg rfl).elim
        · exact hmem
      rw [if_neg hno]
      exact ih hmem fun g hg => hown g (List.mem_cons_of_mem _ hg)

/- A text with the name in front is about the flag when no other name has a `'='`. -/
theorem findFlag_own (hf : f ∈ fs) (hown : ∀ g ∈ fs, g.name = f.name → g = f)
    (hno : ∀ g ∈ fs, ascii '=' ∉ g.name) (s : Bytes) :
    findFlag f.name fs = some (f, false) ∧
      findFlag (f.name ++ ascii '=' :: s) fs = some (f, true) := by
  have hfno := hno f hf
  induction fs with
  | nil => cases hf
  | cons g fs ih =>
    have hgno := hno g List.mem_cons_self
    have hwhole : f.name ++ ascii '=' :: s ≠ g.name := by
      intro h
      rw [← h] at hgno
      simp at hgno
    unfold findFlag
    rw [if_neg hwhole]
    by_cases hg : g.name = f.name
    · rw [hown g List.mem_cons_self hg, if_pos rfl, if_pos (assigned_iff.mpr ⟨s, rfl⟩)]
      exact ⟨rfl, rfl⟩
    · have hne : ¬ ∃ r, f.name = g.name ++ ascii '=' :: r := by
        intro h
        obtain ⟨r, hr⟩ := h
        rw [hr] at hfno
        simp at hfno
      have hne' : ¬ ∃ r, f.name ++ ascii '=' :: s = g.name ++ ascii '=' :: r := by
        intro h
        obtain ⟨r, hr⟩ := h
        exact hg (split_first hr hfno hgno).1.symm
      have hmem : f ∈ fs := by
        rcases List.mem_cons.mp hf with rfl | hmem
        · exact (hg rfl).elim
        · exact hmem
      rw [if_neg (Ne.symm hg), if_neg fun h => hne (assigned_iff.mp h),
        if_neg fun h => hne' (assigned_iff.mp h)]
      exact ih hmem (fun g hg => hown g (List.mem_cons_of_mem _ hg))
        (fun g hg => hno g (List.mem_cons_of_mem _ hg))

/-! ### Words -/

theorem longWord_own (h : OwnNames fs f) (hno : ∀ g ∈ fs, ascii '=' ∉ g.name) (s : Bytes) :
    longWord fs f.name = .bare f ∧
      longWord fs (f.name ++ ascii '=' :: s) = .assign f s := by
  obtain ⟨hwhole, hassigned⟩ := findFlag_own h.mem h.name hno s
  have hfno := hno f h.mem
  have hhelp : ascii '=' ∉ text "help" := by decide
  -- no text with the name in front asks for help
  have hask (t : Bytes) (ht : t.take 5 = text "help=") :
      t = text "help" ++ ascii '=' :: t.drop 5 := by
    have heq : text "help=" = text "help" ++ [ascii '='] := rfl
    rw [← List.singleton_append, ← List.append_assoc, ← heq, ← ht, List.take_append_drop]
  constructor
  · have hbare : ¬ (4 < f.name.length ∧ f.name.take 5 = text "help=") := by
      intro hask'
      have hmem := hask _ hask'.2
      rw [hmem] at hfno
      simp at hfno
    rw [longWord, if_neg h.help, if_neg hbare, hwhole]
  · have hne : f.name ++ ascii '=' :: s ≠ text "help" := by
      intro heq
      rw [← heq] at hhelp
      simp at hhelp
    have hassign : ¬ (4 < (f.name ++ ascii '=' :: s).length ∧
        (f.name ++ ascii '=' :: s).take 5 = text "help=") := by
      intro hask'
      exact h.help (split_first (hask _ hask'.2) hfno hhelp).1
    rw [longWord, if_neg hne, if_neg hassign, hassigned]
    simp

theorem shortWord_own (h : OwnNames fs f) (hne : f.shortName ≠ 0) (r : Bytes) :
    shortWord fs (f.shortName :: r) =
      if r = [] then .bare f
      else if r.head? = some (ascii '=') then .assign f r.tail
      else if f.type.elem = .bool then .member f
      else .assign f r := by
  have hhelp : ∀ t, (f.shortName :: r).take (t.length + 1) ≠ ascii 'h' :: t := by
    intro t heq
    rw [List.take_succ_cons, List.cons.injEq] at heq
    exact h.shortHelp heq.1
  have hbare : f.shortName :: r ≠ text "h" := by
    intro heq
    exact h.shortHelp (List.cons.inj heq).1
  have hassign : ¬ (1 < (f.shortName :: r).length ∧
      (f.shortName :: r).take 2 = text "h=") := fun hask => hhelp [ascii '='] hask.2
  rw [shortWord, if_neg hbare, if_neg hassign, findShort_own h.mem hne (h.short hne)]
  cases r with
  | nil => rfl
  | cons k r => simp

end Names

end LibeventHttpServe.Flags
