import LibeventHttpServe.Flags.Parse

/-!
# The literals of parse_uint64 (flags.c:1147-1270)

The grammar of the integer literals, for base 0 and for an explicit base, and that
`ppp_c_flags_parse_uint64` accepts exactly these. In base 0 the digit loop skips
every underscore; where they may stand is decided by the scan of
`ppp_c_flags_underscore_ok` over the text with its prefix.
-/

namespace LibeventHttpServe.Flags

open LibeventHttpServe.Lib

/-! ### The grammar -/

/-- The value of a digit, or of a letter of either case. -/
def digitValue (c : UInt8) : Option ℕ :=
  if ascii '0' ≤ c ∧ c ≤ ascii '9' then some (c.toNat - (ascii '0').toNat)
  else if ascii 'a' ≤ c ∧ c ≤ ascii 'z' then some (c.toNat - (ascii 'a').toNat + 10)
  else if ascii 'A' ≤ c ∧ c ≤ ascii 'Z' then some (c.toNat - (ascii 'A').toNat + 10)
  else none

/-- `c` is the digit `d` of base `b`. -/
def IsDigit (b : ℕ) (c : UInt8) (d : ℕ) : Prop := digitValue c = some d ∧ d < b

/-- Digits of base `b`, each with at most one underscore before it. -/
inductive DigitTail (b : ℕ) : Bytes → List ℕ → Prop where
  | nil : DigitTail b [] []
  | digit {c : UInt8} {d : ℕ} {t : Bytes} {ds : List ℕ} (hc : IsDigit b c d)
      (ht : DigitTail b t ds) : DigitTail b (c :: t) (d :: ds)
  | underscore {c : UInt8} {d : ℕ} {t : Bytes} {ds : List ℕ} (hc : IsDigit b c d)
      (ht : DigitTail b t ds) : DigitTail b (ascii '_' :: c :: t) (d :: ds)

def prefixBase (c : UInt8) : Option ℕ :=
  if c = ascii 'b' ∨ c = ascii 'B' then some 2
  else if c = ascii 'o' ∨ c = ascii 'O' then some 8
  else if c = ascii 'x' ∨ c = ascii 'X' then some 16
  else none

/-- The literals of base 0 with their base and digits. -/
inductive Literal : Bytes → ℕ → List ℕ → Prop where
  | decimal {c : UInt8} {d : ℕ} {t : Bytes} {ds : List ℕ} (hc : IsDigit 10 c d) (hd : d ≠ 0)
      (ht : DigitTail 10 t ds) : Literal (c :: t) 10 (d :: ds)
  | octal {t : Bytes} {ds : List ℕ} (ht : DigitTail 8 t ds) : Literal (ascii '0' :: t) 8 ds
  | prefixed {p : UInt8} {b : ℕ} {t : Bytes} {ds : List ℕ} (hp : prefixBase p = some b)
      (hds : ds ≠ []) (ht : DigitTail b t ds) : Literal (ascii '0' :: p :: t) b ds

/-- The text is well formed for the base and denotes the number. -/
inductive Denotes : ℤ → Bytes → ℕ → Prop where
  | literal {s : Bytes} {b : ℕ} {ds : List ℕ} (h : Literal s b ds) : Denotes 0 s (numeral b 0 ds)
  | digits {s : Bytes} {b : ℕ} {ds : List ℕ} (h2 : 2 ≤ b) (h36 : b ≤ 36) (hs : s ≠ [])
      (h : List.Forall₂ (IsDigit b) s ds) : Denotes b s (numeral b 0 ds)

/-! ### Bytes -/

theorem uint8_all {P : UInt8 → Prop} (h : ∀ n < 256, P (UInt8.ofNat n)) (c : UInt8) : P c := by
  have hc := h c.toNat c.toNat_lt
  rw [UInt8.ofNat_toNat] at hc
  exact hc

theorem digitOf_value (c : UInt8) : (digitOf c).map UInt8.toNat = digitValue c := by
  revert c
  exact uint8_all (by decide +kernel)

theorem digitBelow_iff {b d : ℕ} {c : UInt8} : digitBelow b c = some d ↔ IsDigit b c d := by
  unfold digitBelow IsDigit
  rw [← digitOf_value]
  cases digitOf c with
  | none => simp
  | some e =>
    simp only [Option.bind_some, Option.map_some, Option.some.injEq]
    by_cases he : e.toNat < b
    · rw [if_pos he, Option.some.injEq]
      constructor
      · rintro rfl
        exact ⟨rfl, he⟩
      · exact fun h => h.1
    · rw [if_neg he]
      constructor
      · nofun
      · intro h
        exact (he (h.1 ▸ h.2)).elim

theorem underscore_notDigit {b d : ℕ} : ¬ IsDigit b (ascii '_') d := by
  intro h
  have hnone : digitValue (ascii '_') = none := by decide
  have hsome := h.1
  rw [hnone] at hsome
  cases hsome

theorem zero_digit {b d : ℕ} : IsDigit b (ascii '0') d → d = 0 := by
  intro h
  have hzero : digitValue (ascii '0') = some 0 := by decide
  have hsome := h.1
  rw [hzero] at hsome
  exact (Option.some.inj hsome).symm

theorem prefixBase_loger (c : UInt8) :
    prefixBase c = if loger c = ascii 'b' then some 2
      else if loger c = ascii 'o' then some 8
      else if loger c = ascii 'x' then some 16 else none := by
  revert c
  exact uint8_all (by decide +kernel)

/- A letter of a prefix is no octal digit and no underscore. -/
theorem prefixBase_letter (c : UInt8) (h : prefixBase c ≠ none) :
    c ≠ ascii '_' ∧ ∀ d, ¬ IsDigit 8 c d := by
  have hall : ∀ c : UInt8, prefixBase c ≠ none →
      c ≠ ascii '_' ∧ (digitValue c).all (fun d => decide (8 ≤ d)) = true :=
    uint8_all (by decide +kernel)
  obtain ⟨hne, hbig⟩ := hall c h
  refine ⟨hne, ?_⟩
  intro d hd
  rw [hd.1, Option.all_some] at hbig
  exact absurd hd.2 (Nat.not_lt.mpr (of_decide_eq_true hbig))

/- Every digit of the base of a literal is a digit for the scan. -/
theorem digit_scanned {b d : ℕ} {c : UInt8} {hex : Bool} (hb : b ≤ 10 ∨ (b = 16 ∧ hex = true))
    (hc : IsDigit b c d) : isDigitOrHex hex c = true := by
  have hall : ∀ c : UInt8, ((digitValue c).all fun d => decide (10 ≤ d)) = true ∨
      (isDigitOrHex true c = true ∧ isDigitOrHex false c = true) :=
    uint8_all (by decide +kernel)
  have hhex : ∀ c : UInt8, digitValue c ≠ none →
      ((digitValue c).all fun d => decide (16 ≤ d)) = true ∨ isDigitOrHex true c = true :=
    uint8_all (by decide +kernel)
  rcases hb with hb | ⟨rfl, rfl⟩
  · rcases hall c with h | h
    · rw [hc.1, Option.all_some] at h
      have hge := of_decide_eq_true h
      have hlt := hc.2
      omega
    · cases hex
      · exact h.2
      · exact h.1
  · rcases hhex c (by rw [hc.1]; nofun) with h | h
    · rw [hc.1, Option.all_some] at h
      exact absurd hc.2 (Nat.not_lt.mpr (of_decide_eq_true h))
    · exact h

/-! ### The digits of a literal -/

section

variable {b : ℕ} {c : UInt8} {d : ℕ} {t : Bytes} {ds : List ℕ}

theorem digitTail_digit (hc : IsDigit b c d) :
    DigitTail b (c :: t) (d :: ds) ↔ DigitTail b t ds := by
  constructor
  · intro h
    cases h with
    | digit _ ht => exact ht
    | underscore _ _ => exact (underscore_notDigit hc).elim
  · exact .digit hc

theorem digitTail_underscore (hc : IsDigit b c d) :
    DigitTail b (ascii '_' :: c :: t) (d :: ds) ↔ DigitTail b t ds := by
  constructor
  · intro h
    cases h with
    | digit h _ => exact (underscore_notDigit h).elim
    | underscore _ ht => exact ht
  · exact .underscore hc

theorem literalDigits_cons (hc : IsDigit b c d) (base0 : Bool) :
    literalDigits base0 b (c :: t) = (literalDigits base0 b t).map (d :: ·) := by
  have hne : ¬ (c = ascii '_' ∧ base0 = true) := by
    intro h
    rw [h.1] at hc
    exact underscore_notDigit hc
  rw [literalDigits_digit hne, digitBelow_iff.mpr hc]
  rfl

theorem literalDigits_underscore : literalDigits true b (ascii '_' :: t) = literalDigits true b t :=
  if_pos ⟨rfl, rfl⟩

/- The bytes that the digit loop accepts. -/
theorem literalDigits_some {base0 : Bool} (h : literalDigits base0 b (c :: t) = some ds) :
    (c = ascii '_' ∧ base0 = true ∧ literalDigits base0 b t = some ds) ∨
      ∃ d es, IsDigit b c d ∧ ds = d :: es ∧ literalDigits base0 b t = some es := by
  by_cases hc : c = ascii '_' ∧ base0 = true
  · obtain ⟨rfl, rfl⟩ := hc
    exact Or.inl ⟨rfl, rfl, h⟩
  · rw [literalDigits_digit hc] at h
    obtain ⟨d, hd, h⟩ := Option.bind_eq_some_iff.mp h
    obtain ⟨es, hes, rfl⟩ := Option.map_eq_some_iff.mp h
    exact Or.inr ⟨d, es, digitBelow_iff.mp hd, rfl, hes⟩

theorem DigitTail.digits (h : DigitTail b t ds) : literalDigits true b t = some ds := by
  induction h with
  | nil => rfl
  | digit hc _ ih => rw [literalDigits_cons hc, ih, Option.map_some]
  | underscore hc _ ih =>
    rw [literalDigits_underscore, literalDigits_cons hc, ih, Option.map_some]

theorem literalDigits_forall : literalDigits false b t = some ds ↔
    List.Forall₂ (IsDigit b) t ds := by
  induction t generalizing ds with
  | nil =>
    rw [List.forall₂_nil_left_iff]
    exact ⟨fun h => (Option.some.inj h).symm, fun h => by rw [h]; rfl⟩
  | cons c t ih =>
    constructor
    · intro h
      rcases literalDigits_some h with ⟨-, hfalse, -⟩ | ⟨d, es, hc, rfl, hes⟩
      · cases hfalse
      · exact .cons hc (ih.mp hes)
    · intro h
      cases h with
      | cons hc ht => rw [literalDigits_cons hc, ih.mpr ht, Option.map_some]

/-! ### The scan of the underscores -/

/-- The loop of `ppp_c_flags_underscore_ok` on the bytes that are left. -/
def underscoreScan (hex : Bool) : Bytes → Saw → Bool
  | [], saw => saw != .underscore
  | c :: t, saw =>
    if isDigitOrHex hex c then underscoreScan hex t .digit
    else if c = ascii '_' then
      if saw ≠ .digit then false else underscoreScan hex t .underscore
    else if saw = .underscore then false
    else underscoreScan hex t .other

theorem underscoreLoop_scan (hex : Bool) (s : Bytes) (rest i : ℕ) (saw : Saw)
    (h : i + rest ≤ s.length) :
    underscoreLoop hex s rest i saw = .ok (underscoreScan hex ((s.drop i).take rest) saw) := by
  induction rest generalizing i saw with
  | zero => rfl
  | succ rest ih =>
    have hi : i < s.length := by omega
    have hr : readAt s i = .ok s[i] := readAt_ok (List.getElem?_eq_getElem hi)
    rw [List.drop_eq_getElem_cons hi, List.take_succ_cons]
    unfold underscoreLoop underscoreScan
    simp only [hr, ok_bind, ih (i + 1) _ (by omega)]
    split
    · rfl
    split
    · split <;> rfl
    split <;> rfl

theorem underscoreScan_digit {hex : Bool} (hc : isDigitOrHex hex c = true) (saw : Saw) :
    underscoreScan hex (c :: t) saw = underscoreScan hex t .digit := if_pos hc

theorem underscoreScan_underscore {hex : Bool} (saw : Saw) :
    underscoreScan hex (ascii '_' :: t) saw =
      if saw ≠ .digit then false else underscoreScan hex t .underscore := by
  have hno : ¬ isDigitOrHex hex (ascii '_') = true := by
    cases hex <;> decide
  exact (if_neg hno).trans (if_pos rfl)

/- The scan is positive exactly on the tails of the grammar. Behind an underscore
it asks for the same as the grammar does with that underscore put back. -/
theorem underscoreScan_iff {hex : Bool} (hb : b ≤ 10 ∨ (b = 16 ∧ hex = true))
    (h : literalDigits true b t = some ds) :
    (underscoreScan hex t .digit = true ↔ DigitTail b t ds) ∧
      (underscoreScan hex t .underscore = true ↔ DigitTail b (ascii '_' :: t) ds) := by
  induction t generalizing ds with
  | nil =>
    cases h
    exact ⟨iff_of_true rfl .nil, iff_of_false nofun nofun⟩
  | cons c t ih =>
    rcases literalDigits_some h with ⟨rfl, -, ht⟩ | ⟨d, es, hc, rfl, ht⟩
    · obtain ⟨-, hunder⟩ := ih ht
      rw [underscoreScan_underscore, underscoreScan_underscore]
      refine ⟨hunder, iff_of_false nofun ?_⟩
      intro h
      cases h with
      | digit hc _ => exact underscore_notDigit hc
      | underscore hc _ => exact underscore_notDigit hc
    · have hscan := digit_scanned hb hc
      rw [underscoreScan_digit hscan, underscoreScan_digit hscan, digitTail_digit hc,
        digitTail_underscore hc]
      exact ⟨(ih ht).1, (ih ht).1⟩

theorem digitTail_plain (h : literalDigits true b t = some ds) (hno : ascii '_' ∉ t) :
    DigitTail b t ds := by
  induction t generalizing ds with
  | nil =>
    cases h
    exact .nil
  | cons c t ih =>
    rcases literalDigits_some h with ⟨rfl, -, -⟩ | ⟨d, es, hc, rfl, ht⟩
    · exact (hno List.mem_cons_self).elim
    · exact .digit hc (ih ht (fun hm => hno (List.mem_cons_of_mem _ hm)))

/-- The check of the underscores is made only when there are some. -/
theorem checked_iff (hex : Bool) (hb : b ≤ 10 ∨ (b = 16 ∧ hex = true))
    (h : literalDigits true b t = some ds) :
    (t.contains (ascii '_') = true → underscoreScan hex t .digit = true) ↔ DigitTail b t ds := by
  have hiff := (underscoreScan_iff hb h).1
  constructor
  · intro hcheck
    by_cases hm : ascii '_' ∈ t
    · exact hiff.mp (hcheck (List.contains_iff_mem.mpr hm))
    · exact digitTail_plain h hm
  · exact fun ht _ => hiff.mpr ht

end

/-! ### The base of a literal -/

/-- The base of a text that follows a zero, with what stands behind its prefix. -/
def zeroPrefix : Bytes → ℕ × Bytes
  | p :: x :: r => (prefixBase p).elim (8, p :: x :: r) fun b => (b, x :: r)
  | t => (8, t)

/-- The base that `basePart` takes for base 0, with the text behind the prefix. -/
def splitPrefix : Bytes → ℕ × Bytes
  | [] => (10, [])
  | c :: t => if c = ascii '0' then zeroPrefix t else (10, c :: t)

/-- The three kinds of text in base 0. -/
inductive Split : Bytes → ℕ → Bytes → Prop where
  | prefixed {p x : UInt8} {b : ℕ} {r : Bytes} (hp : prefixBase p = some b) :
      Split (ascii '0' :: p :: x :: r) b (x :: r)
  | octal {t : Bytes} (hp : ∀ p x r, t = p :: x :: r → prefixBase p = none) :
      Split (ascii '0' :: t) 8 t
  | decimal {c : UInt8} {t : Bytes} (hc : c ≠ ascii '0') : Split (c :: t) 10 (c :: t)

theorem zeroPrefix_split (t : Bytes) :
    Split (ascii '0' :: t) (zeroPrefix t).1 (zeroPrefix t).2 := by
  rcases t with _ | ⟨p, _ | ⟨x, r⟩⟩
  · exact .octal nofun
  · exact .octal nofun
  · have he : zeroPrefix (p :: x :: r) =
        (prefixBase p).elim (8, p :: x :: r) fun b => (b, x :: r) := rfl
    rw [he]
    cases hp : prefixBase p with
    | none =>
      apply Split.octal
      rintro p' x' r' ⟨⟩
      exact hp
    | some b => exact .prefixed hp

theorem splitPrefix_split {s : Bytes} (hs : s ≠ []) :
    Split s (splitPrefix s).1 (splitPrefix s).2 := by
  cases s with
  | nil => exact (hs rfl).elim
  | cons c t =>
    by_cases hc : c = ascii '0'
    · have he : splitPrefix (c :: t) = zeroPrefix t := if_pos hc
      rw [he, hc]
      exact zeroPrefix_split t
    · have he : splitPrefix (c :: t) = (10, c :: t) := if_neg hc
      rw [he]
      exact .decimal hc

theorem prefixBase_elim {α : Type} (c : UInt8) (g : α) (f : ℕ → α) :
    (if loger c = ascii 'b' then f 2 else if loger c = ascii 'o' then f 8
      else if loger c = ascii 'x' then f 16 else g) = (prefixBase c).elim g f := by
  rw [prefixBase_loger]
  split_ifs <;> rfl

theorem Split.basePart {s t : Bytes} {b : ℕ} (h : Split s b t) :
    basePart s s.length 0 = .ok (some (b, t, t.length)) := by
  unfold Flags.basePart
  rw [if_neg (by omega), if_pos rfl]
  cases h with
  | @prefixed p x b r hp =>
    have h0 : readAt (ascii '0' :: p :: x :: r) 0 = .ok (ascii '0') := rfl
    have h1 : readAt (ascii '0' :: p :: x :: r) 1 = .ok p := rfl
    have hlen : 3 ≤ (ascii '0' :: p :: x :: r).length := by simp
    have hsub2 : subLen (ascii '0' :: p :: x :: r).length 2 = .ok (x :: r).length :=
      subLen_ok (by omega)
    have hsub1 : subLen (ascii '0' :: p :: x :: r).length 1 = .ok (p :: x :: r).length :=
      subLen_ok (by omega)
    simp only [h0, ok_bind, if_true, hlen, h1, hsub2, hsub1, List.drop_succ_cons, List.drop_zero]
    rw [prefixBase_elim p _ fun b => pure (some (b, x :: r, (x :: r).length)), hp]
    rfl
  | octal hp =>
    have h0 : readAt (ascii '0' :: t) 0 = .ok (ascii '0') := rfl
    have hsub : subLen (ascii '0' :: t).length 1 = .ok t.length := subLen_ok (by simp)
    simp only [h0, ok_bind, if_true, hsub]
    rcases t with _ | ⟨p, _ | ⟨x, r⟩⟩
    · rfl
    · rfl
    have h1 : readAt (ascii '0' :: p :: x :: r) 1 = .ok p := rfl
    have hlen : 3 ≤ (ascii '0' :: p :: x :: r).length := by simp
    have hsub2 : subLen (ascii '0' :: p :: x :: r).length 2 = .ok (x :: r).length :=
      subLen_ok (by omega)
    simp only [h1, hlen, hsub2, ok_bind, if_true, List.drop_succ_cons, List.drop_zero]
    rw [prefixBase_elim p _ fun b => pure (some (b, x :: r, (x :: r).length)), hp p x r rfl]
    rfl
  | @decimal c t hc =>
    have h0 : readAt (c :: t) 0 = .ok c := rfl
    simp only [h0, ok_bind, hc, if_false]
    rfl

theorem Split.base_bounds {s t : Bytes} {b : ℕ} (h : Split s b t) : 2 ≤ b ∧ b ≤ 36 := by
  cases h with
  | prefixed hp =>
    unfold prefixBase at hp
    split_ifs at hp <;> cases hp <;> decide
  | octal _ => decide
  | decimal _ => decide

/-! ### The check of the underscores -/

theorem prefixBase_le {p : UInt8} {b : ℕ} (hp : prefixBase p = some b) :
    b ≤ 10 ∨ (b = 16 ∧ decide (b = 16) = true) := by
  unfold prefixBase at hp
  split_ifs at hp <;> cases hp <;> decide

theorem underscoreLoop_all (hex : Bool) (s : Bytes) (saw : Saw) :
    underscoreLoop hex s s.length 0 saw = .ok (underscoreScan hex s saw) := by
  rw [underscoreLoop_scan _ _ _ _ _ (by omega), List.drop_zero, List.take_length]

theorem underscoreLoop_behind (hex : Bool) (c p : UInt8) (t : Bytes) (saw : Saw) :
    underscoreLoop hex (c :: p :: t) t.length 2 saw = .ok (underscoreScan hex t saw) := by
  have hlen : 2 + t.length ≤ (c :: p :: t).length := by
    simp only [List.length_cons]
    omega
  rw [underscoreLoop_scan _ _ _ _ _ hlen, List.drop_succ_cons, List.drop_succ_cons,
    List.drop_zero, List.take_length]

/- Without a sign and a prefix the whole text is scanned. -/
theorem underscoreOk_plain {c : UInt8} {t : Bytes} (hsign : ¬ (c = ascii '-' ∨ c = ascii '+'))
    (hp : c = ascii '0' → ∀ p r, t = p :: r → prefixBase p = none) :
    underscoreOk (c :: t) (t.length + 1) = .ok (underscoreScan false (c :: t) .start) := by
  have h0 : readAt (c :: t) 0 = .ok c := rfl
  have hloop : underscoreLoop false (c :: t) (t.length + 1) 0 .start = _ :=
    underscoreLoop_all false (c :: t) .start
  unfold underscoreOk
  simp only [Nat.le_add_left, if_true, h0, ok_bind, pure_eq_ok, hsign, decide_false,
    Bool.false_eq_true, if_false, hloop]
  cases t with
  | nil => rfl
  | cons p r =>
    have h1 : readAt (c :: p :: r) 1 = .ok p := rfl
    simp only [List.length_cons, Nat.le_add_left, if_true, ok_bind, h1]
    by_cases hc : c = ascii '0'
    · have hnone := prefixBase_loger p
      rw [hp hc p r rfl] at hnone
      rw [if_pos hc]
      split_ifs at hnone with hb ho hx
      rw [if_neg hx, if_neg (not_or.mpr ⟨hb, ho⟩)]
    · rw [if_neg hc]

theorem underscoreOk_prefixed {p : UInt8} {b : ℕ} {t : Bytes} (hp : prefixBase p = some b) :
    underscoreOk (ascii '0' :: p :: t) (t.length + 2) =
      .ok (underscoreScan (decide (b = 16)) t .digit) := by
  have h0 : readAt (ascii '0' :: p :: t) 0 = .ok (ascii '0') := rfl
  have h1 : readAt (ascii '0' :: p :: t) 1 = .ok p := rfl
  have hsign : ¬ (ascii '0' = ascii '-' ∨ ascii '0' = ascii '+') := by decide
  have hone : 1 ≤ t.length + 2 := by omega
  have hsome := prefixBase_loger p
  rw [hp] at hsome
  unfold underscoreOk
  simp only [hone, Nat.le_add_left, if_true, h0, h1, ok_bind, pure_eq_ok, hsign, decide_false,
    Bool.false_eq_true, if_false, Nat.add_sub_cancel, underscoreLoop_behind]
  split_ifs at hsome with hb ho hx
  · cases hsome
    rw [if_neg (by rw [hb]; decide), if_pos (Or.inl hb)]
    rfl
  · cases hsome
    rw [if_neg (by rw [ho]; decide), if_pos (Or.inr ho)]
    rfl
  · cases hsome
    rw [if_pos hx]
    rfl

/-! ### The literals are what the two passes accept -/

theorem digit_zero {b : ℕ} {c : UInt8} (h : IsDigit b c 0) : c = ascii '0' := by
  have hall : ∀ c : UInt8, digitValue c = some 0 → c = ascii '0' := uint8_all (by decide +kernel)
  exact hall c h.1

theorem digit_unsigned {b d : ℕ} {c : UInt8} (h : IsDigit b c d) :
    ¬ (c = ascii '-' ∨ c = ascii '+') := by
  have hminus : digitValue (ascii '-') = none := by decide
  have hplus : digitValue (ascii '+') = none := by decide
  have hsome := h.1
  rintro (rfl | rfl)
  · rw [hminus] at hsome
    cases hsome
  · rw [hplus] at hsome
    cases hsome

theorem digitTail_letter {p : UInt8} {t : Bytes} {ds : List ℕ} (hp : prefixBase p ≠ none) :
    ¬ DigitTail 8 (p :: t) ds := by
  obtain ⟨hne, hno⟩ := prefixBase_letter p hp
  intro h
  cases h with
  | digit hc _ => exact hno _ hc
  | underscore _ _ => exact hne rfl

theorem literal_ne {s : Bytes} {b : ℕ} {ds : List ℕ} (h : Literal s b ds) : s ≠ [] := by
  cases h <;> nofun

theorem literal_prefixed {p : UInt8} {b : ℕ} {t : Bytes} {b' : ℕ} {ds : List ℕ}
    (hp : prefixBase p = some b) (ht : t ≠ []) :
    Literal (ascii '0' :: p :: t) b' ds ↔ b' = b ∧ DigitTail b t ds := by
  constructor
  · intro h
    cases h with
    | decimal hc hd _ => exact (hd (zero_digit hc)).elim
    | octal h => exact (digitTail_letter (by rw [hp]; nofun) h).elim
    | prefixed hp' _ h =>
      rw [hp] at hp'
      cases hp'
      exact ⟨rfl, h⟩
  · rintro ⟨rfl, h⟩
    refine .prefixed hp ?_ h
    rintro rfl
    cases h
    exact ht rfl

theorem literal_octal {t : Bytes} {b' : ℕ} {ds : List ℕ}
    (hp : ∀ p x r, t = p :: x :: r → prefixBase p = none) :
    Literal (ascii '0' :: t) b' ds ↔ b' = 8 ∧ DigitTail 8 t ds := by
  constructor
  · intro h
    cases h with
    | decimal hc hd _ => exact (hd (zero_digit hc)).elim
    | octal h => exact ⟨rfl, h⟩
    | @prefixed p b r ds hp' hds h =>
      cases r with
      | nil =>
        cases h
        exact (hds rfl).elim
      | cons x r =>
        rw [hp p x r rfl] at hp'
        cases hp'
  · rintro ⟨rfl, h⟩
    exact .octal h

theorem literal_decimal {c : UInt8} {t : Bytes} {b' : ℕ} {ds : List ℕ} (hc : c ≠ ascii '0') :
    Literal (c :: t) b' ds ↔
      b' = 10 ∧ ∃ d es, IsDigit 10 c d ∧ ds = d :: es ∧ DigitTail 10 t es := by
  constructor
  · intro h
    cases h with
    | decimal hd _ ht => exact ⟨rfl, _, _, hd, rfl, ht⟩
    | octal _ => exact (hc rfl).elim
    | prefixed _ _ _ => exact (hc rfl).elim
  · rintro ⟨rfl, d, es, hd, rfl, ht⟩
    refine .decimal hd ?_ ht
    rintro rfl
    exact hc (digit_zero hd)

/-- A literal is in the base that the code takes, with the digits that its loop reads. -/
theorem literal_split {s t : Bytes} {b b' : ℕ} {ds : List ℕ} (hs : Split s b t)
    (h : Literal s b' ds) : b' = b ∧ literalDigits true b t = some ds := by
  cases hs with
  | prefixed hp =>
    obtain ⟨hb, ht⟩ := (literal_prefixed hp (List.cons_ne_nil _ _)).mp h
    exact ⟨hb, ht.digits⟩
  | octal hp =>
    obtain ⟨hb, ht⟩ := (literal_octal hp).mp h
    exact ⟨hb, ht.digits⟩
  | decimal hc =>
    obtain ⟨hb, d, es, hd, rfl, ht⟩ := (literal_decimal hc).mp h
    exact ⟨hb, (DigitTail.digit hd ht).digits⟩

/-- With the digits read, the check of the underscores decides whether the text is
a literal. -/
theorem literal_check {s t : Bytes} {b : ℕ} {ds : List ℕ} (hs : Split s b t)
    (hds : literalDigits true b t = some ds) :
    ∃ ok : Bool, (if t.contains (ascii '_') = true then underscoreOk s s.length
        else pure true) = .ok ok ∧ (ok = true ↔ Literal s b ds) := by
  cases hs with
  | @prefixed p x b r hp =>
    have hok : underscoreOk (ascii '0' :: p :: x :: r) (ascii '0' :: p :: x :: r).length =
        .ok (underscoreScan (decide (b = 16)) (x :: r) .digit) := underscoreOk_prefixed hp
    rw [hok, literal_prefixed hp (List.cons_ne_nil x r), ← checked_iff _ (prefixBase_le hp) hds]
    split_ifs with hm
    · exact ⟨_, rfl, fun h => ⟨rfl, fun _ => h⟩, fun h => h.2 hm⟩
    · exact ⟨_, rfl, fun _ => ⟨rfl, fun h => (hm h).elim⟩, fun _ => rfl⟩
  | octal hp =>
    rw [literal_octal hp, ← checked_iff false (Or.inl (by decide)) hds]
    split_ifs with hm
    · have hsign : ¬ (ascii '0' = ascii '-' ∨ ascii '0' = ascii '+') := by decide
      have hnone : ∀ p r, t = p :: r → prefixBase p = none := by
        intro p r ht
        cases r with
        | nil =>
          rw [ht, List.contains_iff_mem, List.mem_singleton] at hm
          rw [← hm]
          decide
        | cons x r => exact hp p x r ht
      have hok : underscoreOk (ascii '0' :: t) (ascii '0' :: t).length =
          .ok (underscoreScan false t .digit) := underscoreOk_plain hsign (fun _ => hnone)
      exact ⟨_, hok, fun h => ⟨rfl, fun _ => h⟩, fun h => h.2 hm⟩
    · exact ⟨_, rfl, fun _ => ⟨rfl, fun h => (hm h).elim⟩, fun _ => rfl⟩
  | @decimal c t hc =>
    rw [literal_decimal hc]
    rcases literalDigits_some hds with ⟨rfl, -, ht⟩ | ⟨d, es, hd, rfl, ht⟩
    · have hm : (ascii '_' :: t).contains (ascii '_') = true := by simp
      have hsign : ¬ (ascii '_' = ascii '-' ∨ ascii '_' = ascii '+') := by decide
      have hok : underscoreOk (ascii '_' :: t) (ascii '_' :: t).length = .ok false :=
        underscoreOk_plain hsign (fun h => (hc h).elim)
      rw [if_pos hm, hok]
      refine ⟨_, rfl, iff_of_false nofun ?_⟩
      rintro ⟨-, d, es, hd, -, -⟩
      exact underscore_notDigit hd
    · have hiff := checked_iff false (Or.inl (by decide)) ht
      have hgoal : DigitTail 10 t es ↔
          10 = 10 ∧ ∃ d' es', IsDigit 10 c d' ∧ d :: es = d' :: es' ∧ DigitTail 10 t es' := by
        constructor
        · exact fun h => ⟨rfl, d, es, hd, rfl, h⟩
        · rintro ⟨-, d', es', -, he, h⟩
          cases he
          exact h
      rw [← hgoal, ← hiff]
      have hm : (c :: t).contains (ascii '_') = t.contains (ascii '_') := by
        have hne : ¬ ascii '_' = c := by
          rintro rfl
          exact underscore_notDigit hd
        simp [hne]
      rw [hm]
      split_ifs with hm
      · have hok : underscoreOk (c :: t) (c :: t).length =
            .ok (underscoreScan false (c :: t) .start) :=
          underscoreOk_plain (digit_unsigned hd) (fun h => (hc h).elim)
        rw [underscoreScan_digit (digit_scanned (Or.inl (by decide)) hd)] at hok
        exact ⟨_, hok, fun h _ => h, fun h => h hm⟩
      · exact ⟨_, rfl, fun _ h => (hm h).elim, fun _ => rfl⟩

/-! ### `ppp_c_flags_parse_uint64` -/

/-- The number of bits of a `bit_size`, where 0 stands for 64. -/
def width (bitSize : ℤ) : ℕ := if bitSize = 0 then 64 else bitSize.toNat

/-- The bases and sizes that the parsers take. -/
def Admissible (base bitSize : ℤ) : Prop :=
  (base = 0 ∨ 2 ≤ base ∧ base ≤ 36) ∧ 0 ≤ bitSize ∧ bitSize ≤ 64

/-- The three outcomes of an admissible call. -/
def Exact (base : ℤ) (w : ℕ) (s : Bytes) (r : ℤ) (out : Option UInt64) : Prop :=
  (r = 0 ∧ ∃ n, out = some n ∧ Denotes base s n.toNat ∧ n.toNat < 2 ^ w) ∨
    (r = 1 ∧ out = some (maxVal w) ∧ ∀ v, Denotes base s v → 2 ^ w ≤ v) ∨
    (r = -1 ∧ out = none ∧ ∀ v, ¬ Denotes base s v)

theorem literal_unique {s : Bytes} {b b' : ℕ} {ds ds' : List ℕ} (h : Literal s b ds)
    (h' : Literal s b' ds') : b = b' ∧ ds = ds' := by
  have hs := splitPrefix_split (literal_ne h)
  obtain ⟨hb, hds⟩ := literal_split hs h
  obtain ⟨hb', hds'⟩ := literal_split hs h'
  rw [hds'] at hds
  exact ⟨hb.trans hb'.symm, (Option.some.inj hds).symm⟩

theorem denotes_unique {base : ℤ} {s : Bytes} {v v' : ℕ} (h : Denotes base s v)
    (h' : Denotes base s v') : v = v' := by
  generalize hb : base = base' at h'
  cases h with
  | literal h =>
    cases h' with
    | literal h' =>
      obtain ⟨rfl, rfl⟩ := literal_unique h h'
      rfl
    | digits _ _ _ _ => omega
  | digits _ _ _ h =>
    cases h' with
    | literal _ => omega
    | digits _ _ _ h' =>
      cases Int.ofNat_inj.mp hb
      rw [← literalDigits_forall] at h h'
      rw [h] at h'
      cases h'
      rfl

theorem denotes_zero {s : Bytes} {v : ℕ} :
    Denotes 0 s v ↔ ∃ b ds, Literal s b ds ∧ v = numeral b 0 ds := by
  constructor
  · intro h
    generalize hb : (0 : ℤ) = base at h
    cases h with
    | literal h => exact ⟨_, _, h, rfl⟩
    | digits _ _ _ _ => omega
  · rintro ⟨b, ds, h, rfl⟩
    exact .literal h

theorem denotes_explicit {b : ℕ} (h2 : 2 ≤ b) (h36 : b ≤ 36) {s : Bytes} {v : ℕ} :
    Denotes b s v ↔ s ≠ [] ∧ ∃ ds, literalDigits false b s = some ds ∧ v = numeral b 0 ds := by
  constructor
  · intro h
    generalize hb : (b : ℤ) = base at h
    cases h with
    | literal h => omega
    | digits _ _ hs h =>
      cases Int.ofNat_inj.mp hb
      exact ⟨hs, _, literalDigits_forall.mpr h, rfl⟩
  · rintro ⟨hs, ds, h, rfl⟩
    exact .digits h2 h36 hs (literalDigits_forall.mp h)

theorem Admissible.width_bounds {base bits : ℤ} (h : Admissible base bits) :
    1 ≤ width bits ∧ width bits ≤ 64 := by
  obtain ⟨-, h0, h64⟩ := h
  unfold width
  split_ifs <;> omega

theorem parseUint64_width (s : Bytes) (base : ℤ) {bits : ℤ} (h0 : 0 ≤ bits) :
    parseUint64 (some s) s.length base bits = parseUint64 (some s) s.length base (width bits) := by
  by_cases h : bits = 0
  · subst h
    rfl
  · rw [width, if_neg h, Int.toNat_of_nonneg h0]

theorem parseUint64_base0 {w : ℕ} (h1 : 1 ≤ w) (h64 : w ≤ 64) (s : Bytes) :
    ∃ r out, parseUint64 (some s) s.length 0 w = .ok (r, out) ∧ Exact 0 w s r out := by
  have hM := maxVal_toNat h1 h64
  have hpow : 0 < 2 ^ w := Nat.two_pow_pos w
  by_cases hs : s = []
  · subst hs
    refine ⟨-1, none, rfl, Or.inr (Or.inr ⟨rfl, rfl, ?_⟩)⟩
    intro v hv
    obtain ⟨b, ds, h, -⟩ := denotes_zero.mp hv
    exact literal_ne h rfl
  obtain ⟨b, t, hsplit⟩ : ∃ b t, Split s b t := ⟨_, _, splitPrefix_split hs⟩
  have hpart := hsplit.basePart
  have hlen : ¬ s.length = 0 := fun h => hs (List.length_eq_zero_iff.mp h)
  have hb := hsplit.base_bounds
  obtain ⟨r, hrun, hspec⟩ := digitLoop_spec (M := maxVal w) true hb.1 hb.2 t
    t.length 0 0 false (by omega) (Nat.zero_le _)
  rw [List.drop_zero, List.take_length] at hspec
  have hbits : ¬ ((w : ℤ) < 0 ∨ (64 : ℤ) < w) := by omega
  have hwz : ¬ (w : ℤ) = 0 := by omega
  unfold parseUint64
  simp only [hlen, if_false, hpart, ok_bind, hwz, hbits, BEq.rfl, Int.toNat_natCast, hrun]
  cases r with
  | invalid =>
    refine ⟨-1, none, rfl, Or.inr (Or.inr ⟨rfl, rfl, ?_⟩)⟩
    intro v hv
    obtain ⟨b', ds, h, -⟩ := denotes_zero.mp hv
    have hsome := (literal_split hsplit h).2
    rw [show literalDigits true b t = none from hspec] at hsome
    cases hsome
  | overflow =>
    refine ⟨1, _, rfl, Or.inr (Or.inl ⟨rfl, rfl, ?_⟩)⟩
    intro v hv
    obtain ⟨b', ds, h, rfl⟩ := denotes_zero.mp hv
    obtain ⟨rfl, hds⟩ := literal_split hsplit h
    have hlt : _ < numeral b' 0 ds := hspec ds hds
    omega
  | done n u =>
    obtain ⟨hu, ds, hds, hv, hle⟩ := hspec
    obtain ⟨ok, hok, hiff⟩ := literal_check hsplit hds
    rw [Bool.false_or, Bool.true_and] at hu
    rw [← hu] at hok
    have hend (k : Bool → Checked (ℤ × Option UInt64)) :
        (if u = true then underscoreOk s s.length >>= k else pure true >>= k) = k ok := by
      cases u with
      | true =>
        rw [if_pos rfl] at hok
        rw [if_pos rfl, hok]
        rfl
      | false =>
        cases hok
        rfl
    dsimp only
    rw [hend]
    have h0 : (0 : UInt64).toNat = 0 := rfl
    rw [h0] at hv
    cases ok with
    | true =>
      have hlit := hiff.mp rfl
      exact ⟨0, some n, rfl, Or.inl ⟨rfl, n, rfl, denotes_zero.mpr ⟨b, ds, hlit, hv⟩, by omega⟩⟩
    | false =>
      refine ⟨-1, none, rfl, Or.inr (Or.inr ⟨rfl, rfl, ?_⟩)⟩
      intro v hv'
      obtain ⟨b', ds', h, -⟩ := denotes_zero.mp hv'
      obtain ⟨rfl, hds'⟩ := literal_split hsplit h
      rw [hds] at hds'
      cases hds'
      exact absurd (hiff.mpr h) nofun

/-- `ppp_c_flags_parse_uint64` on the bases and sizes that it takes. -/
theorem parseUint64_outcome {base bits : ℤ} (h : Admissible base bits) (s : Bytes) :
    ∃ r out, parseUint64 (some s) s.length base bits = .ok (r, out) ∧
      Exact base (width bits) s r out := by
  have hw := h.width_bounds
  obtain ⟨hbase, h0, h64⟩ := h
  rw [parseUint64_width s base h0]
  rcases hbase with rfl | ⟨h2, h36⟩
  · exact parseUint64_base0 hw.1 hw.2 s
  · obtain ⟨b, rfl⟩ := Int.eq_ofNat_of_zero_le (by omega : 0 ≤ base)
    obtain ⟨r, out, hrun, hout⟩ :=
      parseUint64_explicit b (width bits) (by omega) (by omega) hw.1 hw.2 s
    have hden {v : ℕ} := denotes_explicit (b := b) (by omega) (by omega) (s := s) (v := v)
    refine ⟨r, out, hrun, ?_⟩
    rcases hout with ⟨hr, ds, n, hs, hds, hn, hv, hlt⟩ | ⟨hr, -, hn, hover⟩ | ⟨hr, hn, hbad⟩
    · exact Or.inl ⟨hr, n, hn, hden.mpr ⟨hs, ds, hds, hv⟩, hlt⟩
    · refine Or.inr (Or.inl ⟨hr, hn, ?_⟩)
      intro v hv
      obtain ⟨-, ds, hds, rfl⟩ := hden.mp hv
      exact hover ds hds
    · refine Or.inr (Or.inr ⟨hr, hn, ?_⟩)
      intro v hv
      obtain ⟨hs, ds, hds, -⟩ := hden.mp hv
      rcases hbad with hnil | hnone
      · exact hs hnil
      · rw [hds] at hnone
        cases hnone

theorem parseUint64_refused {base bits : ℤ} (h : ¬ Admissible base bits) (s : Bytes) :
    parseUint64 (some s) s.length base bits = .ok (-1, none) := by
  by_cases hs : s.length = 0
  · simp only [parseUint64, hs, if_true, pure_eq_ok]
  have hpart : ∃ r, basePart s s.length base = .ok r ∧
      (r ≠ none → base = 0 ∨ 2 ≤ base ∧ base ≤ 36) := by
    by_cases h2 : 2 ≤ base ∧ base ≤ 36
    · exact ⟨_, if_pos h2, fun _ => Or.inr h2⟩
    by_cases h0 : base = 0
    · subst h0
      have hne : s ≠ [] := fun h => hs (by rw [h]; rfl)
      exact ⟨_, (splitPrefix_split hne).basePart, fun _ => Or.inl rfl⟩
    · refine ⟨none, ?_, fun h => (h rfl).elim⟩
      unfold basePart
      rw [if_neg h2, if_neg h0]
      rfl
  obtain ⟨r, hpart, hbase⟩ := hpart
  unfold parseUint64
  simp only [hs, if_false, hpart, ok_bind]
  cases r with
  | none => rfl
  | some part =>
    have hbits : ¬ (0 ≤ bits ∧ bits ≤ 64) := fun hb => h ⟨hbase nofun, hb⟩
    have hbig : (if bits = 0 then 64 else bits) < 0 ∨ 64 < (if bits = 0 then 64 else bits) := by
      split_ifs <;> omega
    obtain ⟨b, t, tLen⟩ := part
    simp only [hbig, if_true, pure_eq_ok]

theorem exact_value {base : ℤ} {w : ℕ} {s : Bytes} {r : ℤ} {out : Option UInt64}
    (h : Exact base w s r out) (v : ℕ) :
    (r = 0 ∧ out.map UInt64.toNat = some v) ↔ Denotes base s v ∧ v < 2 ^ w := by
  rcases h with ⟨rfl, n, rfl, hv, hlt⟩ | ⟨rfl, -, hover⟩ | ⟨rfl, -, hbad⟩
  · constructor
    · rintro ⟨-, hn⟩
      cases hn
      exact ⟨hv, hlt⟩
    · rintro ⟨hd, -⟩
      rw [denotes_unique hd hv]
      exact ⟨rfl, rfl⟩
  · refine iff_of_false (fun h => absurd h.1 (by decide)) ?_
    rintro ⟨hd, hlt⟩
    exact absurd (hover v hd) (by omega)
  · exact iff_of_false (fun h => absurd h.1 (by decide)) (fun h => hbad v h.1)

/-- `ppp_c_flags_parse_uint64` returns 0 with the value exactly on the well-formed
texts whose value fits, 1 with the bound on those above it, never 0 on a
malformed one, and stores nothing when it returns -1. -/
theorem parseUint64_exact (s : Bytes) (base bitSize : ℤ) :
    ∃ r out, parseUint64 (some s) s.length base bitSize = .ok (r, out) ∧
      (Admissible base bitSize →
        (∀ v, (r = 0 ∧ out.map UInt64.toNat = some v) ↔
          Denotes base s v ∧ v ≤ 2 ^ width bitSize - 1) ∧
        (∀ v, Denotes base s v → 2 ^ width bitSize - 1 < v →
          r = 1 ∧ out.map UInt64.toNat = some (2 ^ width bitSize - 1)) ∧
        ((∀ v, ¬ Denotes base s v) → r ≠ 0)) ∧
      (¬ Admissible base bitSize → r = -1) ∧ (r = -1 → out = none) := by
  by_cases h : Admissible base bitSize
  · obtain ⟨r, out, hrun, hout⟩ := parseUint64_outcome h s
    have hpow : 0 < 2 ^ width bitSize := Nat.two_pow_pos _
    refine ⟨r, out, hrun, fun _ => ⟨?_, ?_, ?_⟩, fun hno => (hno h).elim, ?_⟩
    · intro v
      rw [exact_value hout, Nat.le_sub_one_iff_lt hpow]
    · intro v hv hbig
      rcases hout with ⟨-, n, -, hn, hlt⟩ | ⟨hr, ho, -⟩ | ⟨-, -, hbad⟩
      · rw [denotes_unique hn hv] at hlt
        omega
      · have hw := h.width_bounds
        rw [ho, Option.map_some, maxVal_toNat hw.1 hw.2]
        exact ⟨hr, rfl⟩
      · exact (hbad v hv).elim
    · rintro hbad rfl
      rcases hout with ⟨-, n, -, hn, -⟩ | ⟨hr, -, -⟩ | ⟨hr, -, -⟩
      · exact hbad _ hn
      · cases hr
      · cases hr
    · rintro rfl
      rcases hout with ⟨hr, -⟩ | ⟨hr, -⟩ | ⟨-, ho, -⟩
      · cases hr
      · cases hr
      · exact ho
  · exact ⟨-1, none, parseUint64_refused h s, fun ha => (h ha).elim, fun _ => rfl, fun _ => rfl⟩

/-- What stands before and behind an underscore in a literal of base `b`: a digit
behind it, a digit or the letter of a prefix before it. -/
def Between (b : ℕ) (before behind : Bytes) : Prop :=
  (∃ c t, behind = c :: t ∧ ∃ d, IsDigit b c d) ∧
    ∃ q c, before = q ++ [c] ∧ ((∃ d, IsDigit b c d) ∨ (q = [ascii '0'] ∧ prefixBase c = some b))

theorem digitTail_between {b : ℕ} {t : Bytes} {ds : List ℕ} (h : DigitTail b t ds)
    {before behind : Bytes} (ht : t = before ++ ascii '_' :: behind) :
    (∃ c t', behind = c :: t' ∧ ∃ d, IsDigit b c d) ∧
      (before = [] ∨ ∃ q c, before = q ++ [c] ∧ ∃ d, IsDigit b c d) := by
  have hstep {c : UInt8} {r : Bytes} (hc : ∃ d, IsDigit b c d)
      (hr : r = [] ∨ ∃ q c, r = q ++ [c] ∧ ∃ d, IsDigit b c d) :
      ∃ q c', c :: r = q ++ [c'] ∧ ∃ d, IsDigit b c' d := by
    rcases hr with rfl | ⟨q, c', rfl, hc'⟩
    · exact ⟨[], c, rfl, hc⟩
    · exact ⟨c :: q, c', rfl, hc'⟩
  induction h generalizing before with
  | nil => exact (List.cons_ne_nil _ _ (List.append_eq_nil_iff.mp ht.symm).2).elim
  | @digit c d t ds hc _ ih =>
    cases before with
    | nil =>
      cases ht
      exact (underscore_notDigit hc).elim
    | cons e r =>
      cases ht
      obtain ⟨hbehind, hr⟩ := ih rfl
      exact ⟨hbehind, Or.inr (hstep ⟨d, hc⟩ hr)⟩
  | @underscore c d t ds hc _ ih =>
    rcases before with _ | ⟨e, _ | ⟨e', r⟩⟩
    · cases ht
      exact ⟨⟨c, t, rfl, d, hc⟩, Or.inl rfl⟩
    · cases ht
      exact (underscore_notDigit hc).elim
    · cases ht
      obtain ⟨hbehind, hr⟩ := ih rfl
      obtain ⟨q, c', hq, hc'⟩ := hstep ⟨d, hc⟩ hr
      exact ⟨hbehind, Or.inr ⟨ascii '_' :: q, c', by rw [hq]; rfl, hc'⟩⟩

theorem literal_between {s : Bytes} {b : ℕ} {ds : List ℕ} (h : Literal s b ds)
    {before behind : Bytes} (hs : s = before ++ ascii '_' :: behind) :
    Between b before behind := by
  have hzero : IsDigit 8 (ascii '0') 0 := by
    constructor <;> decide
  cases h with
  | @decimal c d t ds hc _ ht =>
    obtain ⟨hbehind, hbefore⟩ := digitTail_between (.digit hc ht) hs
    rcases hbefore with rfl | ⟨q, c', hq, hc'⟩
    · cases hs
      exact (underscore_notDigit hc).elim
    · exact ⟨hbehind, q, c', hq, Or.inl hc'⟩
  | octal ht =>
    obtain ⟨hbehind, hbefore⟩ := digitTail_between (.digit hzero ht) hs
    rcases hbefore with rfl | ⟨q, c', hq, hc'⟩
    · cases hs
    · exact ⟨hbehind, q, c', hq, Or.inl hc'⟩
  | @prefixed p b t ds hp _ ht =>
    rcases before with _ | ⟨e, _ | ⟨e', r⟩⟩
    · cases hs
    · cases hs
      exact ((prefixBase_letter _ (by rw [hp]; nofun)).1 rfl).elim
    · cases hs
      obtain ⟨hbehind, hbefore⟩ := digitTail_between ht rfl
      rcases hbefore with rfl | ⟨q, c', hq, hc'⟩
      · exact ⟨hbehind, [ascii '0'], p, rfl, Or.inr ⟨rfl, hp⟩⟩
      · exact ⟨hbehind, ascii '0' :: p :: q, c', by rw [hq]; rfl, Or.inl hc'⟩

theorem parseUint64_accepts (s : Bytes) :
    (∃ out, parseUint64 (some s) s.length 0 64 = .ok (0, out)) ↔
      ∃ b ds, Literal s b ds ∧ numeral b 0 ds < 2 ^ 64 := by
  obtain ⟨r, out, hrun, hout⟩ := @parseUint64_outcome 0 64 ⟨Or.inl rfl, by decide⟩ s
  have hvalue := exact_value hout
  rw [hrun]
  constructor
  · rintro ⟨out', h⟩
    cases h
    rcases hout with ⟨-, n, -, hn, hlt⟩ | ⟨hr, -⟩ | ⟨hr, -⟩
    · obtain ⟨b, ds, hl, hv⟩ := denotes_zero.mp hn
      exact ⟨b, ds, hl, hv ▸ hlt⟩
    · cases hr
    · cases hr
  · rintro ⟨b, ds, hl, hlt⟩
    have hr := ((hvalue _).mpr ⟨.literal hl, hlt⟩).1
    exact ⟨out, by rw [hr]⟩

/-- In base 0 with 64 bits the call succeeds exactly on the literals whose value
fits, and every underscore of such a text stands behind a digit or a prefix and
before a digit, in the base of the literal. -/
theorem parseUint64_language (s : Bytes) :
    ((∃ out, parseUint64 (some s) s.length 0 64 = .ok (0, out)) ↔
      ∃ b ds, Literal s b ds ∧ numeral b 0 ds < 2 ^ 64) ∧
    ((∃ out, parseUint64 (some s) s.length 0 64 = .ok (0, out)) →
      ∃ b ds, Literal s b ds ∧
        ∀ before behind, s = before ++ ascii '_' :: behind → Between b before behind) := by
  refine ⟨parseUint64_accepts s, ?_⟩
  intro hout
  obtain ⟨b, ds, hl, -⟩ := (parseUint64_accepts s).mp hout
  exact ⟨b, ds, hl, fun before behind hs => literal_between hl hs⟩

end LibeventHttpServe.Flags
