import LibeventHttpServe.Flags.Execute
import LibeventHttpServe.Lib.Split

/-!
# The name of the program (flags.c)

`ppp_c_flags_base_name` as the Linux build has it, with `'/'` as the only separator.
-/

namespace LibeventHttpServe.Flags

open LibeventHttpServe.Lib

/-- `for (size_t i = len - 1; i > 0; i--)`, entered with `i`. -/
def baseNameLoop (filepath : Bytes) : ℕ → Str
  | 0 => ⟨filepath, 0⟩
  | i + 1 => if filepath[i + 1]? = some (ascii '/') then ⟨filepath, i + 2⟩
    else baseNameLoop filepath i

/-- `ppp_c_flags_base_name`: a pointer into `filepath`. -/
def baseName (filepath : Bytes) : Str :=
  if 2 < filepath.length then baseNameLoop filepath (filepath.length - 1) else ⟨filepath, 0⟩

theorem baseNameLoop_whole {filepath : Bytes} (h : ascii '/' ∉ filepath.drop 1) (i : ℕ) :
    baseNameLoop filepath i = ⟨filepath, 0⟩ := by
  induction i with
  | zero => rfl
  | succ i ih =>
    have hne : filepath[i + 1]? ≠ some (ascii '/') := by
      intro hc
      apply h
      rw [Nat.add_comm, ← List.getElem?_drop] at hc
      exact List.mem_of_getElem? hc
    rw [baseNameLoop, if_neg hne, ih]

/-- The search meets the last `'/'` first, when that is not the first character. -/
theorem baseNameLoop_split {dir name : Bytes} (hdir : dir ≠ []) (hname : ascii '/' ∉ name)
    (n : ℕ) (hn : n ≤ name.length) :
    baseNameLoop (dir ++ ascii '/' :: name) (dir.length + n) =
      ⟨dir ++ ascii '/' :: name, dir.length + 1⟩ := by
  have hpos : 0 < dir.length := List.length_pos_iff.mpr hdir
  induction n with
  | zero =>
    obtain ⟨d, hd⟩ : ∃ d, dir.length = d + 1 := ⟨dir.length - 1, by omega⟩
    have hat : (dir ++ ascii '/' :: name)[d + 1]? = some (ascii '/') := by
      rw [← hd, List.getElem?_append_right (Nat.le_refl _), Nat.sub_self]
      rfl
    rw [Nat.add_zero, hd, baseNameLoop, if_pos hat]
  | succ n ih =>
    have hne : (dir ++ ascii '/' :: name)[dir.length + n + 1]? ≠ some (ascii '/') := by
      intro hc
      apply hname
      rw [List.getElem?_append_right (by omega),
        show dir.length + n + 1 - dir.length = n + 1 by omega, List.getElem?_cons_succ] at hc
      exact List.mem_of_getElem? hc
    rw [← Nat.add_assoc, baseNameLoop, if_neg hne]
    exact ih (by omega)

theorem baseName_split {dir name : Bytes} (hdir : dir ≠ []) (hname : ascii '/' ∉ name)
    (hlen : 2 < (dir ++ ascii '/' :: name).length) :
    (baseName (dir ++ ascii '/' :: name)).text = name := by
  have hend : (dir ++ ascii '/' :: name).length - 1 = dir.length + name.length := by
    simp only [List.length_append, List.length_cons]
    omega
  rw [baseName, if_pos hlen, hend, baseNameLoop_split hdir hname _ (Nat.le_refl _)]
  simp [Str.text]

theorem baseName_whole {filepath : Bytes}
    (h : filepath.length ≤ 2 ∨ ascii '/' ∉ filepath.drop 1) :
    (baseName filepath).text = filepath := by
  rw [baseName]
  split
  · rw [baseNameLoop_whole (h.resolve_left (by omega))]
    rfl
  · rfl

theorem baseName_afterLast {filepath : Bytes}
    (h : ascii '/' ∉ filepath ∨ 2 < filepath.length ∧ ascii '/' ∈ filepath.drop 1) :
    AfterLast (ascii '/') filepath (baseName filepath).text := by
  rcases h with h | ⟨hlen, hmem⟩
  · rw [baseName_whole (Or.inr (fun hc => h (List.mem_of_mem_drop hc)))]
    exact afterLast_whole.mpr h
  · rcases split_last (ascii '/') filepath with hno | ⟨dir, name, rfl, hname⟩
    · exact (hno (List.mem_of_mem_drop hmem)).elim
    · have hdir : dir ≠ [] := by
        rintro rfl
        exact hname (by simpa using hmem)
      rw [baseName_split hdir hname hlen]
      exact afterLast_append hname

/-- The last component of a path, which has no `'/'`, is what `ppp_c_flags_base_name`
returns unless the path is shorter than three characters or starts with its only `'/'`. -/
theorem baseName_lastComponent_iff (filepath : Bytes) :
    (AfterLast (ascii '/') filepath (baseName filepath).text ↔
      ascii '/' ∉ filepath ∨ 2 < filepath.length ∧ ascii '/' ∈ filepath.drop 1) ∧
    (ascii '/' ∉ (baseName filepath).text ↔
      ascii '/' ∉ filepath ∨ 2 < filepath.length ∧ ascii '/' ∈ filepath.drop 1) := by
  have hback : ascii '/' ∉ (baseName filepath).text →
      ascii '/' ∉ filepath ∨ 2 < filepath.length ∧ ascii '/' ∈ filepath.drop 1 := by
    intro h
    by_cases hc : 2 < filepath.length ∧ ascii '/' ∈ filepath.drop 1
    · exact Or.inr hc
    · rw [baseName_whole (by
        rw [not_and_or, Nat.not_lt] at hc
        exact hc)] at h
      exact Or.inl h
  exact ⟨⟨fun h => hback h.1, baseName_afterLast⟩,
    ⟨hback, fun h => (baseName_afterLast h).1⟩⟩

theorem baseName_leadingSlash : ¬ ∀ filepath : Bytes,
    AfterLast (ascii '/') filepath (baseName filepath).text ∧
      ascii '/' ∉ (baseName filepath).text := by
  intro h
  exact (h (text "/a")).2 (by decide)

end LibeventHttpServe.Flags
