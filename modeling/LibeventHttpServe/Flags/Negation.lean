import LibeventHttpServe.Flags.ParseInt

/-!
# The negations of `ppp_c_flags_parse_int64` (flags.c:1584-1628)

`-(int64_t)(cutoff)` and `-*output` are signed. Their operand is the smaller one of
the cutoff and the magnitude, as `int64_t`; the cutoff of 64 bits is `2^63`.
-/

namespace LibeventHttpServe.Flags

open LibeventHttpServe.Lib

def FitsInt64 (z : ℤ) : Prop := -2 ^ 63 ≤ z ∧ z ≤ 2 ^ 63 - 1

/-- The negation that the call computes, if any, is in the range of `int64_t`. -/
def Int64Result.Safe (r : Int64Result) : Prop := ∀ x, r.negated = some x → FitsInt64 (-x.toInt)

/-- A minus sign, read at 64 bits, before a text whose first digits are too large for
`uint64_t` or whose value is `2^63` or more. -/
def NegationOverflows (base bits : ℤ) (s : Bytes) : Prop :=
  Admissible base bits ∧ width bits = 64 ∧ ∃ t, s = ascii '-' :: t ∧
    (Exceeds base (2 ^ 64 - 1) t ∨ ∃ n, Denotes base t n ∧ 2 ^ 63 ≤ n)

theorem neg_toInt64_fits {x : UInt64} (h : x.toNat ≤ 2 ^ 63) :
    FitsInt64 (-x.toInt64.toInt) ↔ x.toNat < 2 ^ 63 := by
  unfold FitsInt64
  by_cases hlt : x.toNat < 2 ^ 63
  · rw [toInt64_toInt hlt]
    omega
  · have hx : x = 9223372036854775808 := UInt64.toNat_inj.mp (by
      have hmin : (9223372036854775808 : UInt64).toNat = 2 ^ 63 := rfl
      omega)
    subst hx
    decide

section Range

variable {base bits : ℤ} (h0 : 0 ≤ bits) (h64 : bits ≤ 64) (un : UInt64)

include h0 h64

/- The operand is `2^63` only when cutoff and magnitude both reach it. -/
theorem checkRange_safe (neg : Bool) : (checkRange neg bits un).Safe ↔
    ¬ (neg = true ∧ width bits = 64 ∧ 2 ^ 63 ≤ un.toNat) := by
  obtain ⟨hw, hcut⟩ := cutoff_spec h0 h64
  have hle : 2 ^ (width bits - 1) ≤ 2 ^ 63 := Nat.pow_le_pow_right (by decide) hw
  have hfull : 2 ^ (width bits - 1) = 2 ^ 63 ↔ width bits = 64 := by
    have hinj : 2 ^ (width bits - 1) = 2 ^ 63 ↔ width bits - 1 = 63 :=
      Nat.pow_right_inj (by decide)
    rw [hinj]
    omega
  unfold Int64Result.Safe checkRange
  dsimp only
  generalize (1 : UInt64) <<< UInt64.ofNat _ = cutoff at *
  cases neg with
  | false =>
    rw [if_neg Bool.false_ne_true]
    split_ifs <;> simp
  | true =>
    rw [if_pos rfl]
    split_ifs with h
    · have hlt := UInt64.lt_iff_toNat_lt.mp h
      simp only [Option.some.injEq, forall_eq', true_and]
      rw [neg_toInt64_fits (by omega), hcut]
      omega
    · have hun := UInt64.le_iff_toNat_le.mp (UInt64.not_lt.mp h)
      simp only [Option.some.injEq, forall_eq', true_and]
      rw [neg_toInt64_fits (by omega)]
      omega

theorem signedResult_safe (neg : Bool) (err : ℤ) (out : Option UInt64) :
    (signedResult neg bits err out).Safe ↔
      ¬ (neg = true ∧ width bits = 64 ∧ (err = 0 ∨ err = 1) ∧ 2 ^ 63 ≤ (out.getD 0).toNat) := by
  unfold signedResult
  split_ifs with herr
  · have hnone : (⟨err, none, none⟩ : Int64Result).Safe := by
      intro x hx
      cases hx
    refine iff_of_true hnone ?_
    omega
  · have hok : err = 0 ∨ err = 1 := by omega
    rw [checkRange_safe h0 h64]
    simp only [hok, true_and]

end Range

/- What the magnitude of 64 bits says about the text. -/
theorem magnitude_large {base bits : ℤ} (h : Admissible base bits) (hw : width bits = 64)
    {t : Bytes} {r : ℤ} {out : Option UInt64}
    (hrun : parseUint64 (some t) t.length base bits = .ok (r, out)) :
    ((r = 0 ∨ r = 1) ∧ 2 ^ 63 ≤ (out.getD 0).toNat) ↔
      Exceeds base (2 ^ 64 - 1) t ∨ ∃ n, Denotes base t n ∧ 2 ^ 63 ≤ n := by
  have hover := parseUint64_overflows h t
  obtain ⟨r', out', hrun', hout⟩ := parseUint64_outcome h t
  rw [hrun] at hrun' hover
  cases hrun'
  rw [hw] at hout hover
  have hone : Exceeds base (2 ^ 64 - 1) t ↔ r = 1 := by
    rw [← hover]
    constructor
    · rintro ⟨o, ho⟩
      cases ho
      rfl
    · rintro rfl
      exact ⟨out, rfl⟩
  rw [hone]
  rcases hout with ⟨rfl, n, rfl, hn, -⟩ | ⟨rfl, rfl, -⟩ | ⟨rfl, rfl, hbad⟩
  · constructor
    · exact fun hbig => Or.inr ⟨n.toNat, hn, hbig.2⟩
    · intro hbig
      obtain ⟨m, hm, hle⟩ := hbig.resolve_left (by decide)
      rw [denotes_unique hm hn] at hle
      exact ⟨Or.inl rfl, hle⟩
  · exact iff_of_true ⟨Or.inr rfl, by decide⟩ (Or.inl rfl)
  · refine iff_of_false (by simp) ?_
    rintro (hr | ⟨m, hm, -⟩)
    · cases hr
    · exact hbad m hm

theorem negationOverflows_minus {base bits : ℤ} {t : Bytes} : NegationOverflows base bits
    (ascii '-' :: t) ↔ Admissible base bits ∧ width bits = 64 ∧
      (Exceeds base (2 ^ 64 - 1) t ∨ ∃ n, Denotes base t n ∧ 2 ^ 63 ≤ n) := by
  unfold NegationOverflows
  simp only [List.cons.injEq, true_and, exists_eq_left']

/-- The call computes no negation outside `int64_t` except on the texts named above. -/
theorem parseInt64_safe {bits : ℤ} (h0 : 0 ≤ bits) (h64 : bits ≤ 64) (base : ℤ) (s : Bytes) :
    ∃ r, parseInt64 (some s) s.length base bits = .ok r ∧
      (r.Safe ↔ ¬ NegationOverflows base bits s) := by
  have hrun (t : Bytes) : ∃ r out, parseUint64 (some t) t.length base bits = .ok (r, out) ∧
      (((r = 0 ∨ r = 1) ∧ width bits = 64 ∧ 2 ^ 63 ≤ (out.getD 0).toNat) ↔
        NegationOverflows base bits (ascii '-' :: t)) := by
    rw [negationOverflows_minus]
    by_cases ha : Admissible base bits
    · obtain ⟨r, out, hr, -⟩ := parseUint64_outcome ha t
      refine ⟨r, out, hr, ?_⟩
      by_cases hw : width bits = 64
      · rw [← magnitude_large ha hw hr]
        simp only [ha, hw, true_and]
      · simp only [hw, false_and, and_false]
    · refine ⟨-1, none, parseUint64_refused ha t, ?_⟩
      exact iff_of_false (by simp) (fun h => ha h.1)
  cases s with
  | nil =>
    refine ⟨⟨-1, none, none⟩, rfl, iff_of_true ?_ ?_⟩
    · intro x hx
      cases hx
    · rintro ⟨-, -, t, ht, -⟩
      cases ht
  | cons c t =>
    by_cases hc : c = ascii '-' ∨ c = ascii '+'
    · obtain ⟨r, out, hr, hover⟩ := hrun t
      refine ⟨_, parseInt64_sign hc t hr, ?_⟩
      rw [signedResult_safe h0 h64, not_iff_not, decide_eq_true_eq]
      by_cases hminus : c = ascii '-'
      · subst hminus
        rw [← hover]
        simp only [true_and]
        exact and_left_comm
      · refine iff_of_false (fun h => hminus h.1) ?_
        rintro ⟨-, -, t', ht, -⟩
        cases ht
        exact hminus rfl
    · obtain ⟨r, out, hr, -⟩ := hrun (c :: t)
      refine ⟨_, parseInt64_plain hc t hr, ?_⟩
      rw [signedResult_safe h0 h64]
      refine iff_of_true (fun h => Bool.false_ne_true h.1) ?_
      rintro ⟨-, -, t', ht, -⟩
      cases ht
      exact hc (Or.inl rfl)

theorem parseInt64_safe_int8 :
    ∃ r, parseInt64 (some (text "-128")) (text "-128").length 10 8 = .ok r ∧ r.Safe := by
  obtain ⟨r, hrun, hsafe⟩ := parseInt64_safe (show (0 : ℤ) ≤ 8 by decide) (by decide) 10
    (text "-128")
  refine ⟨r, hrun, hsafe.mpr ?_⟩
  rintro ⟨-, hw, -⟩
  exact absurd hw (by decide)

/-- The least `int64_t` and what is below it are both negated from `2^63`. -/
theorem parseInt64_negates_minimum :
    (∃ r, parseInt64 (some (text "-9223372036854775808")) 20 10 64 = .ok r ∧
      r.negated = some Int64.minValue ∧ ¬ r.Safe) ∧
    ∃ r, parseInt64 (some (text "-9223372036854775809")) 20 10 64 = .ok r ∧
      r.negated = some Int64.minValue ∧ ¬ r.Safe := by
  have hmin {r : Int64Result} (h : r.negated = some Int64.minValue) : ¬ r.Safe :=
    fun hs => absurd (hs _ h).2 (by decide)
  refine ⟨⟨_, rfl, rfl, hmin rfl⟩, ⟨_, rfl, rfl, hmin rfl⟩⟩

end LibeventHttpServe.Flags
