import LibeventHttpServe.Flags.Arrays

/-!
# What a growth reads from the old buffer (flags.c:40-110)

`memcpy(ptr, p->p, size * cap)` copies as many elements as the new buffer has. Any
number of flags may share the array; each of them has its own `_set_value`.
-/

namespace LibeventHttpServe.Flags

open LibeventHttpServe.Lib

variable {α : Type}

/-- The number of elements of the buffer: its capacity on the heap, the length of the
caller's array otherwise. -/
def held (a : ArrayCell α) : ℕ :=
  if a.cap ≠ 0 then a.cap.toNat else if a.p = none then 0 else a.cells.length

/-- The capacity that `ppp_c_flags_gropw` asks for when the array has no room. -/
def grownCap (a : ArrayCell α) (n : UInt64) : ℕ :=
  if a.cap = 0 then max 1 (min 64 (n + 1).toNat)
  else max (a.cap.toNat + 1) (min (2 * a.cap.toNat) (n + 1 + a.cap).toNat)

/-- A growth reads no element behind the old buffer. -/
def CopiesHeld (fl : Floats) {e : ElemType} (a : ArrayCell e.Value) (c : ArrayCall e) : Prop :=
  ∀ g, c.growth fl a = some g → g.copied ≤ held a

/-- The value is not taken, there is room, memory is refused, or the new capacity is
not above the length of the caller's array. -/
def CopyFits (fl : Floats) {e : ElemType} (a : ArrayCell e.Value) (c : ArrayCall e) : Prop :=
  (∀ v, c.value fl ≠ .ok (.ok v)) ∨ (a.cap ≠ 0 ∧ startLen a < a.cap) ∨
    c.malloc.answer (UInt64.ofNat (grownCap a c.n) * e.size) = none ∨
    (a.cap = 0 ∧ grownCap a c.n ≤ held a)

/-! ### The capacity of the new buffer -/

theorem succ_toNat {x : UInt64} (h : x.toNat < 2 ^ 63) : (x + 1).toNat = x.toNat + 1 := by
  rw [UInt64.toNat_add, UInt64.toNat_one]
  exact Nat.mod_eq_of_lt (by omega)

theorem clampCap_toNat {cap len argc : UInt64} (h : len.toNat < 2 ^ 63) :
    (clampCap cap len argc).toNat =
      max (len.toNat + 1) (min cap.toNat (argc + 1 + len).toNat) := by
  unfold clampCap
  dsimp only
  rw [← succ_toNat h]
  split_ifs with h1 h2 <;> simp only [UInt64.lt_iff_toNat_lt] at * <;> omega

/-- An array without room: the caller's, or one whose buffer is full. -/
def Full (a : ArrayCell α) : Prop :=
  (a.cap = 0 ∧ startLen a = 0) ∨ (a.cap ≠ 0 ∧ startLen a = a.cap ∧ a.cap.toNat < 2 ^ 63)

theorem wantedCap_toNat {a : ArrayCell α} (h : Full a) :
    (wantedCap a (startLen a) 1).toNat = if a.cap = 0 then 64 else 2 * a.cap.toNat := by
  rcases h with ⟨hcap, hlen⟩ | ⟨hcap, hlen, hmax⟩
  · rw [wantedCap, if_pos ⟨hcap, by decide⟩, if_pos hcap]
    rfl
  · have hpos : a.cap.toNat ≠ 0 := fun h0 => hcap (UInt64.toNat_inj.mp h0)
    have hdouble : (a.cap * 2).toNat = 2 * a.cap.toNat := by
      rw [UInt64.toNat_mul, show (2 : UInt64).toNat = 2 from rfl, Nat.mul_comm]
      exact Nat.mod_eq_of_lt (by omega)
    have hsucc := succ_toNat hmax
    rw [wantedCap, if_neg (fun hc => hcap hc.1), if_pos hcap, hlen, if_neg hcap]
    dsimp only
    split_ifs with hle
    · have hle' := UInt64.le_iff_toNat_le.mp hle
      omega
    · exact hdouble

theorem grownCap_spec {a : ArrayCell α} (h : Full a) (n : UInt64) :
    clampCap (wantedCap a (startLen a) 1) (startLen a) n = UInt64.ofNat (grownCap a n) ∧
      (UInt64.ofNat (grownCap a n)).toNat = grownCap a n ∧
      (a.cap ≠ 0 → a.cap.toNat < grownCap a n) ∧ grownCap a n ≤ max 64 (2 * a.cap.toNat) := by
  have hwanted := wantedCap_toNat h
  have hlen : (startLen a).toNat = a.cap.toNat ∧ a.cap.toNat < 2 ^ 63 := by
    rcases h with ⟨hcap, hlen⟩ | ⟨-, hlen, hmax⟩
    · rw [hcap, hlen]
      decide
    · exact ⟨congrArg UInt64.toNat hlen, hmax⟩
  have hclamp : (clampCap (wantedCap a (startLen a) 1) (startLen a) n).toNat = grownCap a n := by
    rw [clampCap_toNat (by omega), hwanted, grownCap, hlen.1,
      UInt64.toNat_inj.mp hlen.1]
    split_ifs with hcap
    · rw [hcap, UInt64.add_zero]
      rfl
    · rfl
  refine ⟨?_, ?_, ?_, ?_⟩
  · rw [← hclamp, UInt64.ofNat_toNat]
  · rw [← hclamp, UInt64.ofNat_toNat]
  · intro hcap
    rw [grownCap, if_neg hcap]
    omega
  · have hpos (hcap : a.cap ≠ 0) : a.cap.toNat ≠ 0 := fun h0 => hcap (UInt64.toNat_inj.mp h0)
    rw [grownCap]
    split_ifs with hcap
    · omega
    · have hne := hpos hcap
      omega

section Full

variable {size n : UInt64} {malloc : Malloc} {a : ArrayCell α} (hfull : Full a)

include hfull

theorem growBuffer_request : growBuffer size n malloc a =
    (malloc.answer (UInt64.ofNat (grownCap a n) * size)).map
      (copied size (UInt64.ofNat (grownCap a n)) a) := by
  have hcase : (a.cap = 0 ∧ startLen a = 0) ∨ (a.cap ≠ 0 ∧ startLen a = a.cap) :=
    hfull.imp_right fun hc => ⟨hc.1, hc.2.1⟩
  rw [growBuffer_full hcase, (grownCap_spec hfull n).1]

/- Without room a growth copies as many elements as the new buffer has. -/
theorem growBuffer_copied {g : Growth α} (hsize : 1 ≤ size.toNat ∧ size.toNat ≤ 8)
    (hobject : a.cap.toNat * size.toNat < 2 ^ 63) (h : growBuffer size n malloc a = some g) :
    g.copied = grownCap a n := by
  obtain ⟨-, hnat, -, hle⟩ := grownCap_spec hfull n
  rw [growBuffer_request hfull] at h
  obtain ⟨p, -, rfl⟩ := Option.map_eq_some_iff.mp h
  have hmul : grownCap a n * size.toNat ≤ max 64 (2 * a.cap.toNat) * size.toNat :=
    Nat.mul_le_mul_right _ hle
  have hwrap : grownCap a n * size.toNat < 2 ^ 64 := by
    rcases Nat.le_total 64 (2 * a.cap.toNat) with hbig | hsmall
    · rw [Nat.max_eq_right hbig, Nat.mul_assoc] at hmul
      omega
    · rw [Nat.max_eq_left hsmall] at hmul
      omega
  show (UInt64.ofNat (grownCap a n) * size).toNat / size.toNat = grownCap a n
  rw [UInt64.toNat_mul, hnat, Nat.mod_eq_of_lt hwrap, Nat.mul_div_cancel _ hsize.1]

/- A copy into a larger heap buffer never fits; that of a caller's array may. -/
theorem growBuffer_fits_iff (hsize : 1 ≤ size.toNat ∧ size.toNat ≤ 8)
    (hobject : a.cap.toNat * size.toNat < 2 ^ 63) :
    (∀ g, growBuffer size n malloc a = some g → g.copied ≤ held a) ↔
      malloc.answer (UInt64.ofNat (grownCap a n) * size) = none ∨
        (a.cap = 0 ∧ grownCap a n ≤ held a) := by
  have hrequest := @growBuffer_request _ size n malloc a hfull
  constructor
  · intro h
    cases hm : malloc.answer (UInt64.ofNat (grownCap a n) * size) with
    | none => exact Or.inl rfl
    | some p =>
      rw [hm] at hrequest
      have hle := h _ hrequest
      rw [growBuffer_copied hfull hsize hobject hrequest] at hle
      refine Or.inr ⟨?_, hle⟩
      by_contra hne
      have hgrows := (grownCap_spec hfull n).2.2.1 hne
      rw [held, if_pos hne] at hle
      omega
  · rintro (h | ⟨-, h⟩) g hg
    · rw [hrequest, h] at hg
      cases hg
    · rw [growBuffer_copied hfull hsize hobject hg]
      exact h

end Full

/-! ### One call -/

theorem full_of_no_room {size : UInt64} (hsize : 1 ≤ size.toNat ∧ size.toNat ≤ 8)
    {a : ArrayCell α} (ha : Usable size a) (hroom : ¬ (a.cap ≠ 0 ∧ startLen a < a.cap)) :
    Full a ∧ a.cap.toNat * size.toNat < 2 ^ 63 := by
  rcases ha with ⟨hcap, hset⟩ | ⟨hcap, ho⟩
  · have hzero : startLen a = 0 := by
      unfold startLen
      rw [hset]
      rfl
    refine ⟨Or.inl ⟨hcap, hzero⟩, ?_⟩
    rw [hcap]
    simp
  · have heq : startLen a = a.cap := by
      by_contra hne
      exact hroom ⟨hcap, UInt64.lt_of_le_of_ne (startLen_le ho) hne⟩
    have hmax : a.cap.toNat < 2 ^ 63 :=
      Nat.lt_of_le_of_lt (Nat.le_mul_of_pos_right _ hsize.1) ho.object
    exact ⟨Or.inr ⟨hcap, heq, hmax⟩, ho.object⟩

theorem copiesHeld_iff_of_usable (fl : Floats) {e : ElemType} {a : ArrayCell e.Value}
    (ha : Usable e.size a) (c : ArrayCall e) : CopiesHeld fl a c ↔ CopyFits fl a c := by
  by_cases hvalue : ∃ v, c.value fl = .ok (.ok v)
  · obtain ⟨v, hv⟩ := hvalue
    have hgrowth : c.growth fl a = growBuffer e.size c.n c.malloc a := by
      unfold ArrayCall.growth
      rw [hv]
    have htaken : ¬ ∀ w, c.value fl ≠ .ok (.ok w) := fun h => h v hv
    unfold CopiesHeld CopyFits
    rw [hgrowth]
    by_cases hroom : a.cap ≠ 0 ∧ startLen a < a.cap
    · refine iff_of_true ?_ (Or.inr (Or.inl hroom))
      intro g hg
      rw [growBuffer_room hroom.1 hroom.2] at hg
      cases hg
      exact Nat.zero_le _
    · obtain ⟨hfull, hobject⟩ := full_of_no_room (size_bounds e) ha hroom
      rw [growBuffer_fits_iff hfull (size_bounds e) hobject]
      simp only [htaken, hroom, false_or]
  · have hno : ∀ v, c.value fl ≠ .ok (.ok v) := fun v hv => hvalue ⟨v, hv⟩
    refine iff_of_true ?_ (Or.inl hno)
    intro g hg
    unfold ArrayCall.growth at hg
    split at hg
    · exact (hno _ ‹_›).elim
    · cases hg

/-! ### Any sequence of calls of the flags that share the array -/

/-- The variable of the flags `ι`, and which of them are set. -/
structure SharedArray (ι α : Type) where
  cell : ArrayCell α
  used : ι → Bool

/-- The array as the flag `i` has it. -/
def SharedArray.view {ι : Type} (s : SharedArray ι α) (i : ι) : ArrayCell α :=
  { s.cell with setValue := s.used i }

def sharedSystem {ι : Type} [DecidableEq ι] (fl : Floats) (e : ElemType)
    (default : ArrayCell e.Value) : System (SharedArray ι e.Value) (ι × ArrayCall e) where
  init s := s = ⟨default, fun _ => false⟩
  step s a :=
    match a.2.run fl (s.view a.1) with
    | .ok (_, b) => some ⟨b, Function.update s.used a.1 b.setValue⟩
    | .error _ => none

/-- The array is the caller's as long as no flag is set. -/
def SharedUsable {ι : Type} (size : UInt64) (s : SharedArray ι α) : Prop :=
  (s.cell.cap = 0 ∧ ∀ i, s.used i = false) ∨ (s.cell.cap ≠ 0 ∧ Owned size s.cell)

theorem SharedUsable.view {ι : Type} {size : UInt64} {s : SharedArray ι α}
    (h : SharedUsable size s) (i : ι) : Usable size (s.view i) := by
  rcases h with ⟨hcap, hset⟩ | ⟨hcap, ho⟩
  · exact Or.inl ⟨hcap, hset i⟩
  · exact Or.inr ⟨hcap, ho.len_le, ho.room, ho.object⟩

theorem ArrayAppended.cap_ne {size : UInt64} {a b : ArrayCell α} {v : α}
    (h : ArrayAppended size a v b) : b.cap ≠ 0 := by
  intro h0
  have hle := UInt64.le_iff_toNat_le.mp h.owned.len_le
  have hlen := h.len_eq
  have hzero : (0 : UInt64).toNat = 0 := rfl
  rw [h0, hzero] at hle
  omega

section Shared

variable {ι : Type} [DecidableEq ι] {fl : Floats} {e : ElemType} {default : ArrayCell e.Value}

theorem sharedUsable_step {s s' : SharedArray ι e.Value} {a : ι × ArrayCall e}
    (h : SharedUsable e.size s) (hstep : (sharedSystem fl e default).step s a = some s') :
    SharedUsable e.size s' := by
  have hnull : ¬ NullAccess (s.view a.1) (a.2.growth fl (s.view a.1)) := by
    intro hnull
    obtain ⟨fault, hfault⟩ := ArrayCall.run_null (h.view a.1) hnull
    simp only [sharedSystem, hfault] at hstep
    cases hstep
  obtain ⟨r, b, hrun, hcase⟩ := ArrayCall.run_spec (h.view a.1) hnull
  replace hstep : (match a.2.run fl (s.view a.1) with
    | .ok (_, b) => some (⟨b, Function.update s.used a.1 b.setValue⟩ : SharedArray ι e.Value)
    | .error _ => none) = some s' := hstep
  rw [hrun] at hstep
  cases hstep
  rcases hcase with ⟨-, rfl⟩ | ⟨-, v, -, happ⟩
  · have hsame : Function.update s.used a.1 (s.used a.1) = s.used := Function.update_eq_self _ _
    unfold SharedUsable
    rcases h with ⟨hcap, hset⟩ | ⟨hcap, ho⟩
    · refine Or.inl ⟨hcap, fun i => ?_⟩
      show Function.update s.used a.1 (s.used a.1) i = false
      rw [hsame]
      exact hset i
    · exact Or.inr ⟨hcap, ho.len_le, ho.room, ho.object⟩
  · exact Or.inr ⟨happ.cap_ne, happ.owned⟩

theorem sharedUsable_reachable (hd : Registered e.size default) {s : SharedArray ι e.Value}
    (hs : (sharedSystem fl e default).Reachable s) : SharedUsable e.size s := by
  refine hs.invariant (I := SharedUsable e.size) ?_ ?_
  · rintro s rfl
    by_cases h0 : default.cap = 0
    · exact Or.inl ⟨h0, fun _ => rfl⟩
    · exact Or.inr ⟨h0, hd.2.resolve_left h0⟩
  · intro s a s' _ hi hstep
    exact sharedUsable_step hi hstep

/-- In every reachable state a call copies only elements of the old buffer exactly when
the copy fits, and so in a whole run. -/
theorem growth_copies_iff (hd : Registered e.size default) :
    (∀ s : SharedArray ι e.Value, (sharedSystem fl e default).Reachable s →
      ∀ i c, CopiesHeld fl (s.view i) c ↔ CopyFits fl (s.view i) c) ∧
    ∀ calls : List (ι × ArrayCall e),
      (sharedSystem fl e default).Along (fun s a => CopiesHeld fl (s.view a.1) a.2) calls
          ⟨default, fun _ => false⟩ ↔
        (sharedSystem fl e default).Along (fun s a => CopyFits fl (s.view a.1) a.2) calls
          ⟨default, fun _ => false⟩ := by
  have hcall (s : SharedArray ι e.Value) (hs : (sharedSystem fl e default).Reachable s) (i : ι)
      (c : ArrayCall e) : CopiesHeld fl (s.view i) c ↔ CopyFits fl (s.view i) c :=
    copiesHeld_iff_of_usable fl ((sharedUsable_reachable hd hs).view i) c
  exact ⟨hcall, fun calls =>
    System.along_congr (fun s a hs => hcall s hs a.1 a.2) (.init rfl) calls⟩

/- The first value has three elements copied from a default that has one. -/
theorem growth_copies_run :
    ¬ (sharedSystem .none .uint8 ⟨some 1, [some 7], 0, 1, false⟩).Along
        (fun s a => CopiesHeld .none (s.view a.1) a.2) (uint8ArrayRun.map (Prod.mk ()))
        ⟨⟨some 1, [some 7], 0, 1, false⟩, fun _ => false⟩ := by
  rw [(@growth_copies_iff Unit _ .none .uint8 ⟨some 1, [some 7], 0, 1, false⟩
    ⟨rfl, Or.inl rfl⟩).2]
  rintro ⟨hvalue | ⟨hcap, -⟩ | hmalloc | ⟨-, hlen⟩, -⟩
  · exact hvalue 1 rfl
  · exact hcap rfl
  · exact absurd hmalloc (by decide)
  · exact absurd hlen (by decide)

/-- The first value of a flag without a default, as the last argument: one element is
read from the null pointer. -/
theorem growth_copies_null : ∃ (c : ArrayCall .uint8) (g : Growth UInt8),
    c.growth .none ⟨none, [], 0, 0, false⟩ = some g ∧ g.copied = 1 ∧
      held (⟨none, [], 0, 0, false⟩ : ArrayCell UInt8) = 0 ∧
      (sharedSystem .none .uint8 ⟨none, [], 0, 0, false⟩).Reachable
        ⟨⟨none, [], 0, 0, false⟩, fun _ : Unit => false⟩ :=
  ⟨⟨text "1", 0, none, .always⟩, _, rfl, rfl, rfl, .init rfl⟩

end Shared

end LibeventHttpServe.Flags
