import LibeventHttpServe.Flags.Literal

/-!
# `ppp_c_flags_parse_int64` (flags.c:1561-1629)

The sign is taken off and the rest is read by `ppp_c_flags_parse_uint64` with the
same bit size. Its overflow is not looked at: the saturated value is compared with
`2^(b-1)` again, and for `b = 1` and a minus sign it does not exceed it.
-/

namespace LibeventHttpServe.Flags

open LibeventHttpServe.Lib

/-- What a call returns, what it stores through `output`, and the operand of the
signed negation that it computes. -/
structure Int64Result where
  err : ℤ
  output : Option Int64
  negated : Option Int64
  deriving DecidableEq

/-- The comparison of the magnitude with the cutoff (`flags.c:1591-1628`). -/
def checkRange (neg : Bool) (bitSize : ℤ) (un : UInt64) : Int64Result :=
  let bitSize := if bitSize = 0 then 63 else bitSize - 1
  let cutoff : UInt64 := 1 <<< UInt64.ofNat bitSize.toNat
  if neg then
    if cutoff < un then ⟨1, some (-cutoff.toInt64), some cutoff.toInt64⟩
    else ⟨0, some (-un.toInt64), some un.toInt64⟩
  else if cutoff ≤ un then ⟨1, some (cutoff - 1).toInt64, none⟩
  else ⟨0, some un.toInt64, none⟩

/-- `ppp_c_flags_parse_int64`. -/
def parseInt64 (s : Option Bytes) (sLen : ℕ) (base bitSize : ℤ) : Checked Int64Result :=
  match s with
  | none => pure ⟨-1, none, none⟩
  | some s =>
    if sLen = 0 then pure ⟨-1, none, none⟩
    else do
      let c ← readAt s 0
      let sign := decide (c = ascii '-' ∨ c = ascii '+')
      let t := if sign then s.drop 1 else s
      let tLen ← if sign then subLen sLen 1 else pure sLen
      let (err, un) ← parseUint64 (some t) tLen base bitSize
      if err ≠ 0 ∧ err ≠ 1 then pure ⟨err, none, none⟩
      else pure (checkRange (decide (c = ascii '-')) bitSize (un.getD 0))

/-! ### When the digits are too large -/

/-- The base of a text with its digits, as `basePart` takes them. -/
def digitsOf (base : ℤ) (s : Bytes) : ℕ × Bytes :=
  if base = 0 then splitPrefix s else (base.toNat, s)

/-- The first digits of the text already denote more than `m`. -/
def Exceeds (base : ℤ) (m : ℕ) (s : Bytes) : Prop :=
  ∃ k ds, literalDigits (base == 0) (digitsOf base s).1 ((digitsOf base s).2.take k) = some ds ∧
    m < numeral (digitsOf base s).1 0 ds

section DigitLoop

variable {base0 : Bool} {base : ℕ} {M : UInt64}

/-- The tests of one round that end the loop with an overflow. -/
def RoundOver (base : ℕ) (M n : UInt64) (d : UInt8) : Prop :=
  cutoffOf base ≤ n ∨ n * UInt64.ofNat base + d.toUInt64 < n * UInt64.ofNat base ∨
    M < n * UInt64.ofNat base + d.toUInt64

theorem RoundOver.above (h2 : 2 ≤ base) (h36 : base ≤ 36) {n : UInt64} {d : UInt8}
    (hd : d.toNat < base) (h : RoundOver base M n d) : M.toNat < n.toNat * base + d.toNat := by
  by_cases hcut : cutoffOf base ≤ n
  · have hq : (2 ^ 64 - 1) / base + 1 ≤ n.toNat := by
      rw [← cutoffOf_toNat h2 h36]
      exact UInt64.le_iff_toNat_le.mp hcut
    have hmul : 2 ^ 64 - 1 < n.toNat * base := (Nat.div_lt_iff_lt_mul (by omega)).mp hq
    have hM : M.toNat < 2 ^ 64 := M.toNat_lt
    omega
  · exact (round_spec h2 h36 hd hcut).1.mp (h.resolve_left hcut)

theorem not_roundOver (h2 : 2 ≤ base) (h36 : base ≤ 36) {n : UInt64} {d : UInt8}
    (hd : d.toNat < base) (h : ¬ RoundOver base M n d) :
    (n * UInt64.ofNat base + d.toUInt64).toNat = n.toNat * base + d.toNat := by
  obtain ⟨hcut, hround⟩ := not_or.mp h
  exact (round_spec h2 h36 hd hcut).2 hround

/- The ways in which one round leads to an overflow. -/
theorem digitLoop_overflow_iff {s : Bytes} {rest i : ℕ} {n : UInt64} {u : Bool} :
    digitLoop base0 base (cutoffOf base) M s (rest + 1) i n u = .ok .overflow ↔
      ∃ c, readAt s i = .ok c ∧
        (((c = ascii '_' ∧ base0 = true) ∧
            digitLoop base0 base (cutoffOf base) M s rest (i + 1) n true = .ok .overflow) ∨
          (¬ (c = ascii '_' ∧ base0 = true) ∧ ∃ d, digitOf c = some d ∧ d.toNat < base ∧
            (RoundOver base M n d ∨ ¬ RoundOver base M n d ∧
              digitLoop base0 base (cutoffOf base) M s rest (i + 1)
                (n * UInt64.ofNat base + d.toUInt64) u = .ok .overflow))) := by
  cases hr : readAt s i with
  | error e =>
    constructor
    · intro h
      rw [digitLoop, hr] at h
      cases h
    · rintro ⟨c, hc, -⟩
      cases hc
  | ok c =>
    have hread (P : UInt8 → Prop) : (∃ c', (.ok c : Checked UInt8) = .ok c' ∧ P c') ↔ P c := by
      constructor
      · rintro ⟨c', hc, h⟩
        cases hc
        exact h
      · exact fun h => ⟨c, rfl, h⟩
    rw [hread, digitLoop]
    simp only [hr, ok_bind]
    by_cases hc : c = ascii '_' ∧ base0 = true
    · simp only [hc, and_self, if_true, true_and, not_true_eq_false, false_and, or_false]
    rw [if_neg hc]
    simp only [hc, false_and, not_false_eq_true, true_and, false_or]
    cases hd : digitOf c with
    | none =>
      constructor
      · intro h
        cases h
      · rintro ⟨d, hd, -⟩
        cases hd
    | some d =>
      have hdigit (P : UInt8 → Prop) : (∃ d', some d = some d' ∧ P d') ↔ P d := by
        simp only [Option.some.injEq, exists_eq_left']
      rw [hdigit]
      dsimp only
      by_cases hbig : base ≤ d.toNat
      · rw [if_pos hbig]
        constructor
        · intro h
          cases h
        · intro h
          exact absurd h.1 (Nat.not_lt.mpr hbig)
      rw [if_neg hbig]
      simp only [Nat.not_le.mp hbig, true_and]
      unfold RoundOver
      by_cases hcut : cutoffOf base ≤ n
      · simp only [hcut, if_true, pure_eq_ok, true_or]
      rw [if_neg hcut]
      split_ifs with hround
      · simp only [pure_eq_ok, hround, or_true, true_or]
      · simp only [hcut, hround, or_self, not_false_eq_true, true_and, false_or]

/- An overflow of the first rounds ends the loop, whatever stands behind. -/
theorem digitLoop_more {s : Bytes} {rest i : ℕ} {n : UInt64} {u : Bool} (more : ℕ)
    (h : digitLoop base0 base (cutoffOf base) M s rest i n u = .ok .overflow) :
    digitLoop base0 base (cutoffOf base) M s (rest + more) i n u = .ok .overflow := by
  induction rest generalizing i n u with
  | zero => cases h
  | succ rest ih =>
    rw [Nat.succ_add, digitLoop_overflow_iff]
    obtain ⟨c, hr, hstep⟩ := digitLoop_overflow_iff.mp h
    refine ⟨c, hr, ?_⟩
    rcases hstep with ⟨hc, hloop⟩ | ⟨hc, d, hd, hlt, hover | ⟨hno, hloop⟩⟩
    · exact Or.inl ⟨hc, ih hloop⟩
    · exact Or.inr ⟨hc, d, hd, hlt, Or.inl hover⟩
    · exact Or.inr ⟨hc, d, hd, hlt, Or.inr ⟨hno, ih hloop⟩⟩

theorem digitLoop_exceeds (h2 : 2 ≤ base) (h36 : base ≤ 36) {s : Bytes} {rest i : ℕ} {n : UInt64}
    {u : Bool} (h : digitLoop base0 base (cutoffOf base) M s rest i n u = .ok .overflow) :
    ∃ k ds, literalDigits base0 base ((s.drop i).take k) = some ds ∧
      M.toNat < numeral base n.toNat ds := by
  induction rest generalizing i n u with
  | zero => cases h
  | succ rest ih =>
    obtain ⟨c, hr, hstep⟩ := digitLoop_overflow_iff.mp h
    have htake (k : ℕ) : (s.drop i).take (k + 1) = c :: (s.drop (i + 1)).take k := by
      obtain ⟨hi, rfl⟩ := List.getElem?_eq_some_iff.mp (readAt_eq hr)
      rw [List.drop_eq_getElem_cons hi, List.take_succ_cons]
    rcases hstep with ⟨hc, hloop⟩ | ⟨hc, d, hd, hlt, hover | ⟨hno, hloop⟩⟩
    · obtain ⟨k, ds, hds, hbig⟩ := ih hloop
      refine ⟨k + 1, ds, ?_, hbig⟩
      rw [htake]
      exact (if_pos hc).trans hds
    · refine ⟨1, [d.toNat], ?_, hover.above h2 h36 hlt⟩
      rw [htake, literalDigits_digit hc, digitBelow_some hd hlt]
      rfl
    · obtain ⟨k, ds, hds, hbig⟩ := ih hloop
      refine ⟨k + 1, d.toNat :: ds, ?_, ?_⟩
      · rw [htake, literalDigits_digit hc, digitBelow_some hd hlt, hds]
        rfl
      · rw [not_roundOver h2 h36 hlt hno] at hbig
        exact hbig

/- The loop finds an overflow exactly when some first digits are above the bound. -/
theorem digitLoop_overflows (h2 : 2 ≤ base) (h36 : base ≤ 36) (t : Bytes) :
    digitLoop base0 base (cutoffOf base) M t t.length 0 0 false = .ok .overflow ↔
      ∃ k ds, literalDigits base0 base (t.take k) = some ds ∧ M.toNat < numeral base 0 ds := by
  constructor
  · intro h
    exact digitLoop_exceeds h2 h36 h
  · rintro ⟨k, ds, hds, hbig⟩
    have hmin : t.take (min k t.length) = t.take k := by
      rw [← List.take_take, List.take_length]
    obtain ⟨r, hrun, hspec⟩ := digitLoop_spec (M := M) base0 h2 h36 t
      (min k t.length) 0 0 false (by omega) (Nat.zero_le _)
    rw [List.drop_zero, hmin] at hspec
    have hover : r = .overflow := by
      cases r with
      | invalid =>
        rw [show literalDigits base0 base (t.take k) = none from hspec] at hds
        cases hds
      | overflow => rfl
      | done n u =>
        obtain ⟨-, ds', hds', hv, hle⟩ := hspec
        rw [hds] at hds'
        cases hds'
        have h0 : (0 : UInt64).toNat = 0 := rfl
        rw [h0] at hv
        omega
    rw [hover] at hrun
    have hmore := digitLoop_more (t.length - min k t.length) hrun
    rw [show min k t.length + (t.length - min k t.length) = t.length by omega] at hmore
    exact hmore

end DigitLoop

theorem digitsOf_part {base : ℤ} (hbase : base = 0 ∨ 2 ≤ base ∧ base ≤ 36) {s : Bytes}
    (hs : s ≠ []) :
    basePart s s.length base =
        .ok (some ((digitsOf base s).1, (digitsOf base s).2, (digitsOf base s).2.length)) ∧
      2 ≤ (digitsOf base s).1 ∧ (digitsOf base s).1 ≤ 36 := by
  unfold digitsOf
  rcases hbase with rfl | h2
  · have hsplit := splitPrefix_split hs
    rw [if_pos rfl]
    exact ⟨hsplit.basePart, hsplit.base_bounds⟩
  · rw [if_neg (by omega)]
    refine ⟨?_, by omega⟩
    unfold basePart
    rw [if_pos h2]
    rfl

/-- `ppp_c_flags_parse_uint64` returns 1 exactly when some first digits are above
the bound. -/
theorem parseUint64_overflows {base bits : ℤ} (h : Admissible base bits) (s : Bytes) :
    (∃ out, parseUint64 (some s) s.length base bits = .ok (1, out)) ↔
      Exceeds base (2 ^ width bits - 1) s := by
  have hw := h.width_bounds
  rw [parseUint64_width s base h.2.1]
  by_cases hs : s = []
  · subst hs
    refine iff_of_false nofun ?_
    rintro ⟨k, ds, hds, hbig⟩
    have hnil : (digitsOf base []).2 = [] := by
      unfold digitsOf
      split_ifs <;> rfl
    rw [hnil, List.take_nil] at hds
    cases hds
    exact absurd hbig (Nat.not_lt_zero _)
  obtain ⟨hpart, h2, h36⟩ := digitsOf_part h.1 hs
  have hover := @digitLoop_overflows (base == 0) _ (maxVal (width bits)) h2 h36
    (digitsOf base s).2
  rw [maxVal_toNat hw.1 hw.2] at hover
  have hlen : ¬ s.length = 0 := fun h => hs (List.length_eq_zero_iff.mp h)
  have hbits : ¬ ((width bits : ℤ) < 0 ∨ (64 : ℤ) < width bits) := by omega
  have hwz : ¬ (width bits : ℤ) = 0 := by omega
  unfold Exceeds
  rw [← hover]
  unfold parseUint64
  simp only [hlen, if_false, hpart, ok_bind, hwz, hbits, Int.toNat_natCast]
  generalize digitLoop _ _ _ _ _ _ _ _ _ = run
  rcases run with e | r
  · exact iff_of_false nofun nofun
  cases r with
  | invalid => exact iff_of_false nofun nofun
  | overflow => exact iff_of_true ⟨_, rfl⟩ rfl
  | done n u =>
    refine iff_of_false ?_ nofun
    rintro ⟨out, hrun⟩
    have hend (ok : Bool) : (if ok = true then pure (0, some n) else pure (-1, none) :
        Checked (ℤ × Option UInt64)) ≠ .ok (1, out) := by
      cases ok <;> nofun
    cases u with
    | false => exact hend true hrun
    | true =>
      simp only [ok_bind, if_true] at hrun
      cases hu : underscoreOk s s.length with
      | error e =>
        rw [hu] at hrun
        cases hrun
      | ok ok =>
        rw [hu] at hrun
        exact hend ok hrun

/-! ### The range of a signed value -/

/-- The text is an unsigned literal behind at most one sign. -/
inductive SignedDenotes (base : ℤ) : Bytes → ℤ → Prop where
  | plain {s : Bytes} {n : ℕ} (h : Denotes base s n) : SignedDenotes base s n
  | plus {s : Bytes} {n : ℕ} (h : Denotes base s n) : SignedDenotes base (ascii '+' :: s) n
  | minus {s : Bytes} {n : ℕ} (h : Denotes base s n) : SignedDenotes base (ascii '-' :: s) (-n)

/-- The result is exact for the values `D` of the text at `w` bits: the value when it
is in range, the nearer bound when it is not, and an error when there is none. -/
structure SignedExact (D : ℤ → Prop) (w : ℕ) (r : Int64Result) : Prop where
  value : ∀ v, (r.err = 0 ∧ r.output.map Int64.toInt = some v) ↔
    D v ∧ -2 ^ (w - 1) ≤ v ∧ v ≤ 2 ^ (w - 1) - 1
  above : ∀ v, D v → 2 ^ (w - 1) - 1 < v →
    r.err = 1 ∧ r.output.map Int64.toInt = some (2 ^ (w - 1) - 1)
  below : ∀ v, D v → v < -2 ^ (w - 1) →
    r.err = 1 ∧ r.output.map Int64.toInt = some (-2 ^ (w - 1))
  malformed : (∀ v, ¬ D v) → r.err ≠ 0
  untouched : r.err = -1 → r.output = none

/-- The four ways in which the result is exact. -/
def SignedOutcome (D : ℤ → Prop) (w : ℕ) (r : Int64Result) : Prop :=
  (∃ v, D v ∧ -2 ^ (w - 1) ≤ v ∧ v ≤ 2 ^ (w - 1) - 1 ∧ r.err = 0 ∧
      r.output.map Int64.toInt = some v) ∨
    (r.err = 1 ∧ r.output.map Int64.toInt = some (2 ^ (w - 1) - 1) ∧
      ∀ v, D v → 2 ^ (w - 1) - 1 < v) ∨
    (r.err = 1 ∧ r.output.map Int64.toInt = some (-2 ^ (w - 1)) ∧ ∀ v, D v → v < -2 ^ (w - 1)) ∨
    (r.err = -1 ∧ r.output = none ∧ ∀ v, ¬ D v)

theorem SignedOutcome.exact {D : ℤ → Prop} (hD : ∀ v v', D v → D v' → v = v') {w : ℕ}
    {r : Int64Result} (h : SignedOutcome D w r) : SignedExact D w r := by
  have hpow : (0 : ℤ) < 2 ^ (w - 1) := Int.pow_pos (by decide)
  rcases h with ⟨v, hv, hlo, hhi, herr, hout⟩ | ⟨herr, hout, hall⟩ | ⟨herr, hout, hall⟩ |
    ⟨herr, hout, hall⟩
  · refine ⟨?_, ?_, ?_, fun hno => (hno v hv).elim, fun h => absurd (herr.symm.trans h) (by decide)⟩
    · intro v'
      constructor
      · rintro ⟨-, h⟩
        rw [hout] at h
        cases h
        exact ⟨hv, hlo, hhi⟩
      · rintro ⟨hv', -, -⟩
        rw [hD v' v hv' hv]
        exact ⟨herr, hout⟩
    · intro v' hv' hbig
      rw [hD v' v hv' hv] at hbig
      omega
    · intro v' hv' hsmall
      rw [hD v' v hv' hv] at hsmall
      omega
  · have hne : ¬ r.err = 0 := by omega
    refine ⟨?_, fun _ _ _ => ⟨herr, hout⟩, ?_, fun _ => hne, by omega⟩
    · intro v
      refine iff_of_false (fun h => hne h.1) ?_
      rintro ⟨hv, -, hle⟩
      exact absurd (hall v hv) (by omega)
    · intro v hv hsmall
      have hbig := hall v hv
      omega
  · have hne : ¬ r.err = 0 := by omega
    refine ⟨?_, ?_, fun _ _ _ => ⟨herr, hout⟩, fun _ => hne, by omega⟩
    · intro v
      refine iff_of_false (fun h => hne h.1) ?_
      rintro ⟨hv, hle, -⟩
      exact absurd (hall v hv) (by omega)
    · intro v hv hbig
      have hsmall := hall v hv
      omega
  · have hne : ¬ r.err = 0 := by omega
    refine ⟨?_, fun v hv => (hall v hv).elim, fun v hv => (hall v hv).elim, fun _ => hne,
      fun _ => hout⟩
    intro v
    exact iff_of_false (fun h => hne h.1) (fun h => hall v h.1)

/-! ### The comparison with the cutoff -/

theorem toInt64_ofNat (x : UInt64) : x.toInt64 = Int64.ofNat x.toNat := by
  apply Int64.toBitVec.inj
  rw [UInt64.toBitVec_toInt64]
  simp

theorem toInt64_toInt {x : UInt64} (h : x.toNat < 2 ^ 63) : x.toInt64.toInt = x.toNat := by
  rw [toInt64_ofNat, Int64.toInt_ofNat_of_lt h]

theorem neg_toInt64_toInt {x : UInt64} (h : x.toNat ≤ 2 ^ 63) :
    (-x.toInt64).toInt = -x.toNat := by
  rw [toInt64_ofNat, Int64.toInt_neg_ofNat_of_le h]

theorem shift_toNat {k : ℕ} (h : k < 64) : ((1 : UInt64) <<< UInt64.ofNat k).toNat = 2 ^ k := by
  have hall : ∀ k < 64, ((1 : UInt64) <<< UInt64.ofNat k).toNat = 2 ^ k := by decide
  exact hall k h

section Range

variable {bits : ℤ} (h0 : 0 ≤ bits) (h64 : bits ≤ 64) (un : UInt64)

include h0 h64

/- The cutoff is the power of two below the width. -/
theorem cutoff_spec : width bits - 1 ≤ 63 ∧
    ((1 : UInt64) <<< UInt64.ofNat (if bits = 0 then 63 else bits - 1).toNat).toNat =
      2 ^ (width bits - 1) := by
  have hk : (if bits = 0 then 63 else bits - 1).toNat = width bits - 1 := by
    unfold width
    split_ifs <;> omega
  have hw : width bits - 1 ≤ 63 := by
    unfold width
    split_ifs <;> omega
  rw [hk]
  exact ⟨hw, shift_toNat (by omega)⟩

theorem checkRange_minus :
    (2 ^ (width bits - 1) < un.toNat ∧ (checkRange true bits un).err = 1 ∧
        (checkRange true bits un).output.map Int64.toInt = some (-2 ^ (width bits - 1))) ∨
      (un.toNat ≤ 2 ^ (width bits - 1) ∧ (checkRange true bits un).err = 0 ∧
        (checkRange true bits un).output.map Int64.toInt = some (-(un.toNat : ℤ))) := by
  obtain ⟨hw, hcut⟩ := cutoff_spec h0 h64
  have hle : 2 ^ (width bits - 1) ≤ 2 ^ 63 := Nat.pow_le_pow_right (by decide) hw
  unfold checkRange
  dsimp only
  generalize (1 : UInt64) <<< UInt64.ofNat _ = cutoff at *
  rw [if_pos rfl]
  split_ifs with h
  · have hlt := UInt64.lt_iff_toNat_lt.mp h
    rw [hcut] at hlt
    refine Or.inl ⟨hlt, rfl, ?_⟩
    rw [Option.map_some, neg_toInt64_toInt (by omega), hcut]
    push_cast
    rfl
  · have hle' := UInt64.le_iff_toNat_le.mp (UInt64.not_lt.mp h)
    rw [hcut] at hle'
    refine Or.inr ⟨hle', rfl, ?_⟩
    rw [Option.map_some, neg_toInt64_toInt (by omega)]

theorem checkRange_plus :
    (2 ^ (width bits - 1) ≤ un.toNat ∧ (checkRange false bits un).err = 1 ∧
        (checkRange false bits un).output.map Int64.toInt = some (2 ^ (width bits - 1) - 1)) ∨
      (un.toNat < 2 ^ (width bits - 1) ∧ (checkRange false bits un).err = 0 ∧
        (checkRange false bits un).output.map Int64.toInt = some (un.toNat : ℤ)) := by
  obtain ⟨hw, hcut⟩ := cutoff_spec h0 h64
  have hle : 2 ^ (width bits - 1) ≤ 2 ^ 63 := Nat.pow_le_pow_right (by decide) hw
  have hpos : 0 < 2 ^ (width bits - 1) := Nat.two_pow_pos _
  unfold checkRange
  dsimp only
  generalize (1 : UInt64) <<< UInt64.ofNat _ = cutoff at *
  rw [if_neg Bool.false_ne_true]
  split_ifs with h
  · have hle' := UInt64.le_iff_toNat_le.mp h
    rw [hcut] at hle'
    refine Or.inl ⟨hle', rfl, ?_⟩
    have hone : (1 : UInt64).toNat = 1 := rfl
    have hsub : (cutoff - 1).toNat = 2 ^ (width bits - 1) - 1 := by
      rw [UInt64.toNat_sub_of_le _ _ (UInt64.le_iff_toNat_le.mpr (by omega)), hcut, hone]
    rw [Option.map_some, toInt64_toInt (by omega), hsub, Nat.cast_sub hpos]
    push_cast
    rfl
  · have hlt := UInt64.lt_iff_toNat_lt.mp (UInt64.not_le.mp h)
    rw [hcut] at hlt
    refine Or.inr ⟨hlt, rfl, ?_⟩
    rw [Option.map_some, toInt64_toInt (by omega)]

end Range

/-! ### The signed parser -/

/-- The result for the magnitude that `ppp_c_flags_parse_uint64` returns. -/
def signedResult (neg : Bool) (bits err : ℤ) (un : Option UInt64) : Int64Result :=
  if err ≠ 0 ∧ err ≠ 1 then ⟨err, none, none⟩ else checkRange neg bits (un.getD 0)

theorem parseInt64_sign {c : UInt8} (hc : c = ascii '-' ∨ c = ascii '+') (t : Bytes)
    {base bits r : ℤ} {out : Option UInt64}
    (h : parseUint64 (some t) t.length base bits = .ok (r, out)) :
    parseInt64 (some (c :: t)) (c :: t).length base bits =
      .ok (signedResult (decide (c = ascii '-')) bits r out) := by
  have h0 : readAt (c :: t) 0 = .ok c := rfl
  have hsub : subLen (t.length + 1) 1 = .ok t.length := subLen_ok (by omega)
  unfold parseInt64 signedResult
  simp only [List.length_cons, Nat.succ_ne_zero, if_false, h0, ok_bind, hc, decide_true, if_true,
    hsub, List.drop_succ_cons, List.drop_zero, h]
  split_ifs <;> rfl

theorem parseInt64_plain {c : UInt8} (hc : ¬ (c = ascii '-' ∨ c = ascii '+')) (t : Bytes)
    {base bits r : ℤ} {out : Option UInt64}
    (h : parseUint64 (some (c :: t)) (c :: t).length base bits = .ok (r, out)) :
    parseInt64 (some (c :: t)) (c :: t).length base bits = .ok (signedResult false bits r out) := by
  have h0 : readAt (c :: t) 0 = .ok c := rfl
  have hminus : ¬ c = ascii '-' := fun he => hc (Or.inl he)
  unfold parseInt64 signedResult
  simp only [List.length_cons, Nat.succ_ne_zero, if_false, h0, ok_bind, hc, decide_false,
    Bool.false_eq_true, pure_eq_ok]
  rw [List.length_cons] at h
  simp only [h, ok_bind, hminus, decide_false]
  split_ifs <;> rfl

section Outcome

variable {base bits : ℤ} {t : Bytes} {r : ℤ} {out : Option UInt64}

theorem saturated_half {w : ℕ} (h1 : 1 ≤ w) (h64 : w ≤ 64) :
    (maxVal w).toNat = 2 * 2 ^ (w - 1) - 1 ∧ 2 ^ w = 2 * 2 ^ (w - 1) := by
  have hpow : 2 ^ w = 2 * 2 ^ (w - 1) := by
    rw [← Nat.pow_succ', Nat.succ_eq_add_one, Nat.sub_add_cancel h1]
  rw [maxVal_toNat h1 h64, hpow]
  exact ⟨rfl, rfl⟩

theorem signedResult_plus (h : Admissible base bits) (hout : Exact base (width bits) t r out) :
    SignedOutcome (fun v => ∃ n : ℕ, v = n ∧ Denotes base t n) (width bits)
      (signedResult false bits r out) := by
  obtain ⟨h1, h64⟩ := h.width_bounds
  obtain ⟨hmax, hpow⟩ := saturated_half h1 h64
  have hcast : ((2 ^ (width bits - 1) : ℕ) : ℤ) = 2 ^ (width bits - 1) := by push_cast; rfl
  have hpos : 0 < 2 ^ (width bits - 1) := Nat.two_pow_pos _
  have hrange (un : UInt64) := checkRange_plus h.2.1 h.2.2 un
  unfold SignedOutcome signedResult
  rw [← hcast]
  rcases hout with ⟨rfl, n, rfl, hn, hlt⟩ | ⟨rfl, rfl, hover⟩ | ⟨rfl, rfl, hbad⟩
  · rw [if_neg (by decide)]
    rcases hrange n with ⟨hle, herr, ho⟩ | ⟨hlt', herr, ho⟩
    · refine Or.inr (Or.inl ⟨herr, by rw [hcast]; exact ho, ?_⟩)
      rintro v ⟨m, rfl, hm⟩
      rw [denotes_unique hm hn]
      omega
    · exact Or.inl ⟨n.toNat, ⟨_, rfl, hn⟩, by omega, by omega, herr, ho⟩
  · rw [if_neg (by decide)]
    rcases hrange (maxVal (width bits)) with ⟨hle, herr, ho⟩ | ⟨hlt', herr, ho⟩
    · refine Or.inr (Or.inl ⟨herr, by rw [hcast]; exact ho, ?_⟩)
      rintro v ⟨m, rfl, hm⟩
      have hbig := hover m hm
      omega
    · omega
  · rw [if_pos (by decide)]
    refine Or.inr (Or.inr (Or.inr ⟨rfl, rfl, ?_⟩))
    rintro v ⟨m, rfl, hm⟩
    exact hbad m hm

/- With the minus sign the saturated value exceeds the cutoff except at one bit. -/
theorem signedResult_minus (h : Admissible base bits) (hout : Exact base (width bits) t r out)
    (hone : ¬ (width bits = 1 ∧ r = 1)) :
    SignedOutcome (fun v => ∃ n : ℕ, v = -n ∧ Denotes base t n) (width bits)
      (signedResult true bits r out) := by
  obtain ⟨h1, h64⟩ := h.width_bounds
  obtain ⟨hmax, hpow⟩ := saturated_half h1 h64
  have hcast : ((2 ^ (width bits - 1) : ℕ) : ℤ) = 2 ^ (width bits - 1) := by push_cast; rfl
  have hpos : 0 < 2 ^ (width bits - 1) := Nat.two_pow_pos _
  have hrange (un : UInt64) := checkRange_minus h.2.1 h.2.2 un
  unfold SignedOutcome signedResult
  rw [← hcast]
  rcases hout with ⟨rfl, n, rfl, hn, hlt⟩ | ⟨rfl, rfl, hover⟩ | ⟨rfl, rfl, hbad⟩
  · rw [if_neg (by decide)]
    rcases hrange n with ⟨hlt', herr, ho⟩ | ⟨hle, herr, ho⟩
    · refine Or.inr (Or.inr (Or.inl ⟨herr, by rw [hcast]; exact ho, ?_⟩))
      rintro v ⟨m, rfl, hm⟩
      rw [denotes_unique hm hn]
      omega
    · exact Or.inl ⟨-n.toNat, ⟨_, rfl, hn⟩, by omega, by omega, herr, ho⟩
  · rw [if_neg (by decide)]
    have hw : 1 ≤ width bits - 1 := by omega
    have hwide : 2 ^ 1 ≤ 2 ^ (width bits - 1) := Nat.pow_le_pow_right (by decide) hw
    rcases hrange (maxVal (width bits)) with ⟨hlt', herr, ho⟩ | ⟨hle, herr, ho⟩
    · refine Or.inr (Or.inr (Or.inl ⟨herr, by rw [hcast]; exact ho, ?_⟩))
      rintro v ⟨m, rfl, hm⟩
      have hbig := hover m hm
      omega
    · omega
  · rw [if_pos (by decide)]
    refine Or.inr (Or.inr (Or.inr ⟨rfl, rfl, ?_⟩))
    rintro v ⟨m, rfl, hm⟩
    exact hbad m hm

end Outcome

/-! ### Exactness -/

theorem denotes_sign {base : ℤ} {c : UInt8} {t : Bytes} {n : ℕ} (h : Denotes base (c :: t) n) :
    ¬ (c = ascii '-' ∨ c = ascii '+') := by
  cases h with
  | literal h =>
    cases h with
    | decimal hc _ _ => exact digit_unsigned hc
    | octal _ => decide
    | prefixed _ _ _ => decide
  | digits _ _ _ h =>
    cases h with
    | cons hc _ => exact digit_unsigned hc

theorem signedDenotes_plus {base : ℤ} {t : Bytes} {v : ℤ} :
    SignedDenotes base (ascii '+' :: t) v ↔ ∃ n : ℕ, v = n ∧ Denotes base t n := by
  constructor
  · intro h
    cases h with
    | plain h => exact (denotes_sign h (Or.inr rfl)).elim
    | plus h => exact ⟨_, rfl, h⟩
  · rintro ⟨n, rfl, h⟩
    exact .plus h

theorem signedDenotes_minus {base : ℤ} {t : Bytes} {v : ℤ} :
    SignedDenotes base (ascii '-' :: t) v ↔ ∃ n : ℕ, v = -n ∧ Denotes base t n := by
  constructor
  · intro h
    cases h with
    | plain h => exact (denotes_sign h (Or.inl rfl)).elim
    | minus h => exact ⟨_, rfl, h⟩
  · rintro ⟨n, rfl, h⟩
    exact .minus h

theorem signedDenotes_plain {base : ℤ} {c : UInt8} {t : Bytes} {v : ℤ}
    (hc : ¬ (c = ascii '-' ∨ c = ascii '+')) :
    SignedDenotes base (c :: t) v ↔ ∃ n : ℕ, v = n ∧ Denotes base (c :: t) n := by
  constructor
  · intro h
    cases h with
    | plain h => exact ⟨_, rfl, h⟩
    | plus _ => exact (hc (Or.inr rfl)).elim
    | minus _ => exact (hc (Or.inl rfl)).elim
  · rintro ⟨n, rfl, h⟩
    exact .plain h

theorem denotes_ne {base : ℤ} {n : ℕ} : ¬ Denotes base [] n := by
  intro h
  cases h with
  | literal h => exact literal_ne h rfl
  | digits _ _ hs _ => exact hs rfl

theorem signedDenotes_unique {base : ℤ} {s : Bytes} {v v' : ℤ} (h : SignedDenotes base s v)
    (h' : SignedDenotes base s v') : v = v' := by
  cases h with
  | @plain _ n h =>
    cases s with
    | nil => exact (denotes_ne h).elim
    | cons c t =>
      obtain ⟨m, rfl, hm⟩ := (signedDenotes_plain (denotes_sign h)).mp h'
      rw [denotes_unique h hm]
  | plus h =>
    obtain ⟨m, rfl, hm⟩ := signedDenotes_plus.mp h'
    rw [denotes_unique h hm]
  | minus h =>
    obtain ⟨m, rfl, hm⟩ := signedDenotes_minus.mp h'
    rw [denotes_unique h hm]

/-- The texts on which `ppp_c_flags_parse_int64` is not exact: a minus sign before
digits above 1, read at one bit. -/
def Misread (base bits : ℤ) (s : Bytes) : Prop :=
  bits = 1 ∧ ∃ t, s = ascii '-' :: t ∧ Exceeds base 1 t

theorem misread_iff {base bits : ℤ} (h : Admissible base bits) {t : Bytes} {r : ℤ}
    {out : Option UInt64} (hrun : parseUint64 (some t) t.length base bits = .ok (r, out)) :
    Misread base bits (ascii '-' :: t) ↔ width bits = 1 ∧ r = 1 := by
  have hover := parseUint64_overflows h t
  have hbits : width bits = 1 ↔ bits = 1 := by
    obtain ⟨-, h0, -⟩ := h
    unfold width
    split_ifs <;> omega
  rw [hrun] at hover
  constructor
  · rintro ⟨hone, t', ht, hbig⟩
    cases ht
    have hw := hbits.mpr hone
    rw [hw] at hover
    obtain ⟨out', ho⟩ := hover.mpr hbig
    cases ho
    exact ⟨hw, rfl⟩
  · rintro ⟨hw, rfl⟩
    have hbig := hover.mp ⟨out, rfl⟩
    rw [hw] at hbig
    exact ⟨hbits.mp hw, t, rfl, hbig⟩

theorem parseInt64_outcome {base bits : ℤ} (h : Admissible base bits) {s : Bytes}
    (hs : ¬ Misread base bits s) :
    ∃ r, parseInt64 (some s) s.length base bits = .ok r ∧
      SignedOutcome (SignedDenotes base s) (width bits) r := by
  cases s with
  | nil =>
    refine ⟨⟨-1, none, none⟩, rfl, Or.inr (Or.inr (Or.inr ⟨rfl, rfl, ?_⟩))⟩
    intro v hv
    cases hv with
    | plain h => exact denotes_ne h
  | cons c t =>
    by_cases hc : c = ascii '-' ∨ c = ascii '+'
    · obtain ⟨r, out, hrun, hout⟩ := parseUint64_outcome h t
      refine ⟨_, parseInt64_sign hc t hrun, ?_⟩
      rcases hc with rfl | rfl
      · rw [misread_iff h hrun] at hs
        have hden : SignedDenotes base (ascii '-' :: t) = _ := funext fun v =>
          propext signedDenotes_minus
        rw [hden]
        exact signedResult_minus h hout hs
      · have hden : SignedDenotes base (ascii '+' :: t) = _ := funext fun v =>
          propext signedDenotes_plus
        rw [hden]
        exact signedResult_plus h hout
    · obtain ⟨r, out, hrun, hout⟩ := parseUint64_outcome h (c :: t)
      refine ⟨_, parseInt64_plain hc t hrun, ?_⟩
      have hden : SignedDenotes base (c :: t) = _ := funext fun v =>
        propext (signedDenotes_plain hc)
      rw [hden]
      exact signedResult_plus h hout

/- At one bit the saturated value 1 is taken for the magnitude. -/
theorem parseInt64_misread {base bits : ℤ} (h : Admissible base bits) {s : Bytes}
    (hs : Misread base bits s) :
    ∃ r, parseInt64 (some s) s.length base bits = .ok r ∧
      ¬ SignedExact (SignedDenotes base s) (width bits) r := by
  obtain ⟨-, t, rfl, -⟩ := id hs
  obtain ⟨r, out, hrun, hout⟩ := parseUint64_outcome h t
  obtain ⟨hw, rfl⟩ := (misread_iff h hrun).mp hs
  refine ⟨_, parseInt64_sign (Or.inl rfl) t hrun, ?_⟩
  intro hexact
  rcases hout with ⟨hr, -⟩ | ⟨-, rfl, hover⟩ | ⟨hr, -⟩
  · cases hr
  · have hone : (maxVal (width bits)).toNat = 1 := by rw [hw]; rfl
    have hres : signedResult (decide (ascii '-' = ascii '-')) bits 1
        (some (maxVal (width bits))) = checkRange true bits (maxVal (width bits)) := rfl
    rw [hres] at hexact
    rcases checkRange_minus h.2.1 h.2.2 (maxVal (width bits)) with ⟨hlt, -⟩ | ⟨-, herr, ho⟩
    · rw [hone, hw] at hlt
      exact absurd hlt (by decide)
    · obtain ⟨hden, -⟩ := (hexact.value _).mp ⟨herr, ho⟩
      obtain ⟨n, hn, hden⟩ := signedDenotes_minus.mp hden
      have htwo := hover n hden
      rw [hw] at htwo
      omega
  · cases hr

/-- `ppp_c_flags_parse_int64` is exact on every text but those that are misread. -/
theorem parseInt64_exact {base bits : ℤ} (h : Admissible base bits) (s : Bytes) :
    ∃ r, parseInt64 (some s) s.length base bits = .ok r ∧
      (SignedExact (SignedDenotes base s) (width bits) r ↔ ¬ Misread base bits s) := by
  by_cases hs : Misread base bits s
  · obtain ⟨r, hrun, hno⟩ := parseInt64_misread h hs
    exact ⟨r, hrun, iff_of_false hno (not_not.mpr hs)⟩
  · obtain ⟨r, hrun, hout⟩ := parseInt64_outcome h hs
    exact ⟨r, hrun, iff_of_true (hout.exact fun _ _ => signedDenotes_unique) hs⟩

theorem parseInt64_exact_int8 :
    ∃ r, parseInt64 (some (text "-128")) (text "-128").length 10 8 = .ok r ∧
      r.err = 0 ∧ r.output = some (-128) ∧
      SignedExact (SignedDenotes 10 (text "-128")) (width 8) r := by
  obtain ⟨r, hrun, hexact⟩ := parseInt64_exact
    (show Admissible 10 8 from ⟨Or.inr (by decide), by decide⟩) (text "-128")
  have hread : ¬ Misread 10 8 (text "-128") := by
    rintro ⟨hw, -⟩
    exact absurd hw (by decide)
  have hvalue : parseInt64 (some (text "-128")) (text "-128").length 10 8 =
      .ok ⟨0, some (-128), some 128⟩ := rfl
  refine ⟨r, hrun, ?_, ?_, hexact.mpr hread⟩ <;> cases hvalue.symm.trans hrun <;> rfl

/-- At one bit the value -2 is below the range, and the call succeeds with -1. -/
theorem parseInt64_minus_two :
    parseInt64 (some (text "-2")) (text "-2").length 10 1 = .ok ⟨0, some (-1), some 1⟩ ∧
      SignedDenotes 10 (text "-2") (-2) ∧
      ¬ SignedExact (SignedDenotes 10 (text "-2")) (width 1) ⟨0, some (-1), some 1⟩ := by
  have htwo : Denotes 10 (text "2") 2 := by
    refine @Denotes.digits _ 10 [2] (by decide) (by decide) nofun ?_
    exact .cons ⟨by decide, by decide⟩ .nil
  have hden : SignedDenotes 10 (text "-2") (-2) := .minus htwo
  refine ⟨rfl, hden, ?_⟩
  intro hexact
  have herr := (hexact.below (-2) hden (by decide)).1
  cases herr

end LibeventHttpServe.Flags
