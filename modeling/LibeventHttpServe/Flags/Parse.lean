import LibeventHttpServe.Lib.Checked
import LibeventHttpServe.Lib.Numeral
import Mathlib.Data.UInt

/-!
# Integer and bool literals (flags.c:1147-1665)

`ppp_c_flags_underscore_ok`, `ppp_c_flags_parse_uint64`,
`ppp_c_flags_parse_int64` and `ppp_c_flags_parse_bool`. A string argument is the
list of the bytes behind the pointer, with its length passed beside it as in the
source; `s += n` drops `n` bytes. What a call stores through a non-null `output`
is the second component of its result, `none` when it stores nothing.
-/

namespace LibeventHttpServe.Flags

open LibeventHttpServe.Lib

abbrev Bytes := List UInt8

/-- The byte of an ASCII character. -/
def ascii (c : Char) : UInt8 := c.toUInt8

/-- `PPP_C_FLAGS_LOGER`. -/
def loger (c : UInt8) : UInt8 := c ||| 32

/-- The variable `saw` of `ppp_c_flags_underscore_ok`. -/
inductive Saw where
  /- `'^'` -/
  | start
  /- `'0'` -/
  | digit
  /- `'_'` -/
  | underscore
  /- `'!'` -/
  | other
  deriving DecidableEq, Repr

def isDigitOrHex (hex : Bool) (c : UInt8) : Bool :=
  ascii '0' ≤ c && c ≤ ascii '9' || hex && ascii 'a' ≤ loger c && loger c ≤ ascii 'f'

/-- The loop of `ppp_c_flags_underscore_ok`; the first argument counts the rounds
left. -/
def underscoreLoop (hex : Bool) (s : Bytes) : ℕ → ℕ → Saw → Checked Bool
  | 0, _, saw => pure (saw != .underscore)
  | rest + 1, i, saw => do
    let c ← readAt s i
    if isDigitOrHex hex c then underscoreLoop hex s rest (i + 1) .digit
    else if c = ascii '_' then
      if saw ≠ .digit then pure false else underscoreLoop hex s rest (i + 1) .underscore
    else if saw = .underscore then pure false
    else underscoreLoop hex s rest (i + 1) .other

/-- `ppp_c_flags_underscore_ok`. -/
def underscoreOk (s : Bytes) (sLen : ℕ) : Checked Bool := do
  let sign ← if 1 ≤ sLen then (do
      let c ← readAt s 0
      pure (decide (c = ascii '-' ∨ c = ascii '+')))
    else pure false
  let s := if sign then s.drop 1 else s
  let sLen ← if sign then subLen sLen 1 else pure sLen
  let c0 ← if 2 ≤ sLen then readAt s 0 else pure 0
  if c0 = ascii '0' then
    let c1 ← readAt s 1
    if loger c1 = ascii 'x' then underscoreLoop true s (sLen - 2) 2 .digit
    else if loger c1 = ascii 'b' ∨ loger c1 = ascii 'o' then
      underscoreLoop false s (sLen - 2) 2 .digit
    else underscoreLoop false s sLen 0 .start
  else underscoreLoop false s sLen 0 .start

/-- The constants of the `switch (bit_size)`, for 1 to 64. -/
def maxVals : List UInt64 :=
  [1, 3, 7, 15, 31, 63, 127, 255, 511, 1023, 2047, 4095, 8191, 16383, 32767, 65535, 131071,
    262143, 524287, 1048575, 2097151, 4194303, 8388607, 16777215, 33554431, 67108863, 134217727,
    268435455, 536870911, 1073741823, 2147483647, 4294967295, 8589934591, 17179869183,
    34359738367, 68719476735, 137438953471, 274877906943, 549755813887, 1099511627775,
    2199023255551, 4398046511103, 8796093022207, 17592186044415, 35184372088831,
    70368744177663, 140737488355327, 281474976710655, 562949953421311, 1125899906842623,
    2251799813685247, 4503599627370495, 9007199254740991, 18014398509481983,
    36028797018963967, 72057594037927935, 144115188075855871, 288230376151711743,
    576460752303423487, 1152921504606846975, 2305843009213693951, 4611686018427387903,
    9223372036854775807, 18446744073709551615]

def maxVal (bitSize : ℕ) : UInt64 := maxVals.getD (bitSize - 1) 1

-- the least value whose product with the base overflows
def cutoffOf (base : ℕ) : UInt64 := 18446744073709551615 / UInt64.ofNat base + 1

/-- The base with the digits it is the base of (`flags.c:1224-1265`); `none` is
the return value -1. -/
def basePart (s : Bytes) (sLen : ℕ) (base : ℤ) : Checked (Option (ℕ × Bytes × ℕ)) :=
  if 2 ≤ base ∧ base ≤ 36 then pure (some (base.toNat, s, sLen))
  else if base = 0 then do
    let c ← readAt s 0
    if c = ascii '0' then
      if 3 ≤ sLen then do
        let c ← readAt s 1
        if loger c = ascii 'b' then do
          let sLen ← subLen sLen 2
          pure (some (2, s.drop 2, sLen))
        else if loger c = ascii 'o' then do
          let sLen ← subLen sLen 2
          pure (some (8, s.drop 2, sLen))
        else if loger c = ascii 'x' then do
          let sLen ← subLen sLen 2
          pure (some (16, s.drop 2, sLen))
        else do
          let sLen ← subLen sLen 1
          pure (some (8, s.drop 1, sLen))
      else do
        let sLen ← subLen sLen 1
        pure (some (8, s.drop 1, sLen))
    else pure (some (10, s, sLen))
  else pure none

inductive Digits where
  /- `return -1` -/
  | invalid
  /- `return 1` -/
  | overflow
  | done (n : UInt64) (underscores : Bool)
  deriving DecidableEq, Repr

def digitOf (c : UInt8) : Option UInt8 :=
  if ascii '0' ≤ c ∧ c ≤ ascii '9' then some (c - ascii '0')
  else if ascii 'a' ≤ loger c ∧ loger c ≤ ascii 'z' then some (loger c - ascii 'a' + 10)
  else none

/-- The loop over the digits (`flags.c:1496-1545`); the first argument counts the
rounds left. -/
def digitLoop (base0 : Bool) (base : ℕ) (cutoff maxVal : UInt64) (s : Bytes) :
    ℕ → ℕ → UInt64 → Bool → Checked Digits
  | 0, _, n, underscores => pure (.done n underscores)
  | rest + 1, i, n, underscores => do
    let c ← readAt s i
    if c = ascii '_' ∧ base0 = true then
      digitLoop base0 base cutoff maxVal s rest (i + 1) n true
    else
      match digitOf c with
      | none => pure .invalid
      | some d =>
        if base ≤ d.toNat then pure .invalid
        else if cutoff ≤ n then pure .overflow
        else
          let n := n * UInt64.ofNat base
          let n1 := n + d.toUInt64
          if n1 < n ∨ maxVal < n1 then pure .overflow
          else digitLoop base0 base cutoff maxVal s rest (i + 1) n1 underscores

/-- `ppp_c_flags_parse_uint64`. -/
def parseUint64 (s : Option Bytes) (sLen : ℕ) (base bitSize : ℤ) :
    Checked (ℤ × Option UInt64) :=
  match s with
  | none => pure (-1, none)
  | some s =>
    if sLen = 0 then pure (-1, none)
    else do
      match ← basePart s sLen base with
      | none => pure (-1, none)
      | some (b, t, tLen) =>
        let bits := if bitSize = 0 then 64 else bitSize
        if bits < 0 ∨ 64 < bits then pure (-1, none)
        else
          let maxVal := maxVal bits.toNat
          match ← digitLoop (base == 0) b (cutoffOf b) maxVal t tLen 0 0 false with
          | .invalid => pure (-1, none)
          | .overflow => pure (1, some maxVal)
          | .done n underscores =>
            let ok ← if underscores then underscoreOk s sLen else pure true
            if ok then pure (0, some n) else pure (-1, none)

def text (s : String) : Bytes := s.toList.map ascii

/-- `ppp_c_flags_parse_bool`. -/
def parseBool (s : Bytes) (sLen : ℕ) : Checked ℤ := do
  if sLen = 1 then
    let c ← readAt s 0
    if c = ascii '1' ∨ c = ascii 't' ∨ c = ascii 'T' then pure 1
    else if c = ascii '0' ∨ c = ascii 'f' ∨ c = ascii 'F' then pure 0
    else pure (-1)
  else if sLen = 4 then
    let t ← readN s 4
    if t = text "true" ∨ t = text "TRUE" ∨ t = text "True" then pure 1 else pure (-1)
  else if sLen = 5 then
    let t ← readN s 5
    if t = text "false" ∨ t = text "FALSE" ∨ t = text "False" then pure 0 else pure (-1)
  else pure (-1)

/-! ### What the digit loop computes -/

/-- The value of a digit that the base has. -/
def digitBelow (base : ℕ) (c : UInt8) : Option ℕ :=
  (digitOf c).bind fun d => if d.toNat < base then some d.toNat else none

/-- The digits of a literal, in base 0 without its underscores. -/
def literalDigits (base0 : Bool) (base : ℕ) : Bytes → Option (List ℕ)
  | [] => some []
  | c :: t =>
    if c = ascii '_' ∧ base0 = true then literalDigits base0 base t
    else (digitBelow base c).bind fun d => (literalDigits base0 base t).map (d :: ·)

def DigitsSpec (base0 : Bool) (base M a : ℕ) (u : Bool) (t : Bytes) : Digits → Prop
  | .invalid => literalDigits base0 base t = none
  | .overflow => ∀ ds, literalDigits base0 base t = some ds → M < numeral base a ds
  | .done n u' => u' = (u || base0 && t.contains (ascii '_')) ∧
      ∃ ds, literalDigits base0 base t = some ds ∧ n.toNat = numeral base a ds ∧ n.toNat ≤ M

section DigitLoop

variable {base0 : Bool} {base : ℕ} {M : UInt64}

theorem cutoffOf_toNat (h2 : 2 ≤ base) (h36 : base ≤ 36) :
    (cutoffOf base).toNat = (2 ^ 64 - 1) / base + 1 := by
  have hb : (UInt64.ofNat base).toNat = base := by
    apply UInt64.toNat_ofNat_of_lt'
    show base < 2 ^ 64
    omega
  have hq : (2 ^ 64 - 1) / base ≤ (2 ^ 64 - 1) / 2 := Nat.div_le_div_left h2 (by omega)
  unfold cutoffOf
  rw [UInt64.toNat_add, UInt64.toNat_div, hb]
  show ((2 ^ 64 - 1) / base + 1) % 2 ^ 64 = _
  exact Nat.mod_eq_of_lt (by omega)

/- One round below the cutoff: the product is exact, and the test finds whether
the sum is above the bound. -/
theorem round_spec (h2 : 2 ≤ base) (h36 : base ≤ 36) {n : UInt64} {d : UInt8}
    (hd : d.toNat < base) (hn : ¬ cutoffOf base ≤ n) :
    let p := n * UInt64.ofNat base
    let n1 := p + d.toUInt64
    (n1 < p ∨ M < n1 ↔ M.toNat < n.toNat * base + d.toNat) ∧
      (¬ (n1 < p ∨ M < n1) → n1.toNat = n.toNat * base + d.toNat) := by
  intro p n1
  have hcut : n.toNat < (2 ^ 64 - 1) / base + 1 := by
    rw [← cutoffOf_toNat h2 h36]
    exact UInt64.lt_iff_toNat_lt.mp (UInt64.not_le.mp hn)
  have hprod : n.toNat * base ≤ 2 ^ 64 - 1 := by
    have hle : n.toNat ≤ (2 ^ 64 - 1) / base := by omega
    exact (Nat.le_div_iff_mul_le (by omega)).mp hle
  have hp : p.toNat = n.toNat * base := by
    show (n * UInt64.ofNat base).toNat = _
    rw [UInt64.toNat_mul, UInt64.toNat_ofNat_of_lt' (show base < UInt64.size by
      show base < 2 ^ 64
      omega)]
    exact Nat.mod_eq_of_lt (by omega)
  have hn1 : n1.toNat = (n.toNat * base + d.toNat) % 2 ^ 64 := by
    show (p + d.toUInt64).toNat = _
    rw [UInt64.toNat_add, hp, UInt8.toNat_toUInt64]
  have hM : M.toNat < 2 ^ 64 := M.toNat_lt
  have hd36 : d.toNat < 36 := by omega
  rw [UInt64.lt_iff_toNat_lt, UInt64.lt_iff_toNat_lt, hn1, hp]
  generalize n.toNat * base = x at *
  omega

theorem literalDigits_digit {c : UInt8} {t : Bytes} (h : ¬ (c = ascii '_' ∧ base0 = true)) :
    literalDigits base0 base (c :: t) =
      (digitBelow base c).bind fun d => (literalDigits base0 base t).map (d :: ·) := if_neg h

theorem DigitsSpec.skip {m a : ℕ} {u : Bool} {c : UInt8} {t : Bytes} {r : Digits}
    (hc : c = ascii '_' ∧ base0 = true) (h : DigitsSpec base0 base m a true t r) :
    DigitsSpec base0 base m a u (c :: t) r := by
  obtain ⟨rfl, rfl⟩ := hc
  cases r with
  | invalid => exact h
  | overflow => exact h
  | done n u' =>
    obtain ⟨hu, hds⟩ := h
    refine ⟨?_, hds⟩
    rw [hu]
    simp

theorem DigitsSpec.digit {m a d : ℕ} {u : Bool} {c : UInt8} {t : Bytes} {r : Digits}
    (hc : ¬ (c = ascii '_' ∧ base0 = true)) (hd : digitBelow base c = some d)
    (h : DigitsSpec base0 base m (a * base + d) u t r) :
    DigitsSpec base0 base m a u (c :: t) r := by
  have hl : literalDigits base0 base (c :: t) = (literalDigits base0 base t).map (d :: ·) := by
    rw [literalDigits_digit hc, hd]
    rfl
  cases r with
  | invalid =>
    have hnone : literalDigits base0 base t = none := h
    show literalDigits base0 base (c :: t) = none
    rw [hl, hnone]
    rfl
  | overflow =>
    intro ds hds
    rw [hl] at hds
    obtain ⟨es, hes, rfl⟩ := Option.map_eq_some_iff.mp hds
    exact h es hes
  | done n u' =>
    obtain ⟨hu, ds, hds, hv, hle⟩ := h
    refine ⟨?_, d :: ds, ?_, hv, hle⟩
    · rw [hu]
      by_cases h0 : base0 = true
      · have hne : ¬ c = ascii '_' := fun he => hc ⟨he, h0⟩
        simp [Ne.symm hne]
      · simp [h0]
    · rw [hl, hds]
      rfl

theorem digitBelow_none {c : UInt8} (h : digitOf c = none) : digitBelow base c = none := by
  rw [digitBelow, h]
  rfl

theorem digitBelow_some {c d : UInt8} (h : digitOf c = some d) (hd : d.toNat < base) :
    digitBelow base c = some d.toNat := by
  rw [digitBelow, h]
  exact if_pos hd

theorem digitBelow_big {c d : UInt8} (h : digitOf c = some d) (hd : base ≤ d.toNat) :
    digitBelow base c = none := by
  rw [digitBelow, h]
  exact if_neg (by omega)

theorem DigitsSpec.above {m a d : ℕ} {u : Bool} {c : UInt8} {t : Bytes} (hb : 0 < base)
    (hc : ¬ (c = ascii '_' ∧ base0 = true)) (hd : digitBelow base c = some d)
    (h : m < a * base + d) : DigitsSpec base0 base m a u (c :: t) .overflow := by
  apply DigitsSpec.digit hc hd
  intro ds _
  have hle := le_numeral hb (a * base + d) ds
  omega

/-- The digit loop reads the literal or stops at a byte that is no digit of the
base or at the first value above the bound, with no read outside. -/
theorem digitLoop_spec (base0 : Bool) (h2 : 2 ≤ base) (h36 : base ≤ 36) (s : Bytes) (rest i : ℕ)
    (n : UInt64) (u : Bool) (hlen : i + rest ≤ s.length) (hn : n.toNat ≤ M.toNat) :
    ∃ r, digitLoop base0 base (cutoffOf base) M s rest i n u = .ok r ∧
      DigitsSpec base0 base M.toNat n.toNat u ((s.drop i).take rest) r := by
  induction rest generalizing i n u with
  | zero =>
    refine ⟨.done n u, rfl, ?_⟩
    simp only [List.take_zero]
    exact ⟨by simp, [], rfl, rfl, hn⟩
  | succ rest ih =>
    have hi : i < s.length := by omega
    have hs : (s.drop i).take (rest + 1) = s[i] :: (s.drop (i + 1)).take rest := by
      rw [List.drop_eq_getElem_cons hi, List.take_succ_cons]
    have hr : readAt s i = .ok s[i] := readAt_ok (List.getElem?_eq_getElem hi)
    generalize s[i] = c at hs hr
    rw [hs]
    unfold digitLoop
    simp only [hr, ok_bind]
    by_cases hc : c = ascii '_' ∧ base0 = true
    · obtain ⟨r, hrun, hspec⟩ := ih (i + 1) n true (by omega) hn
      rw [if_pos hc]
      exact ⟨r, hrun, hspec.skip hc⟩
    rw [if_neg hc]
    cases hd : digitOf c with
    | none =>
      refine ⟨.invalid, rfl, ?_⟩
      show literalDigits base0 base (c :: _) = none
      rw [literalDigits_digit hc, digitBelow_none hd]
      rfl
    | some d =>
      dsimp only
      by_cases hbig : base ≤ d.toNat
      · rw [if_pos hbig]
        refine ⟨.invalid, rfl, ?_⟩
        show literalDigits base0 base (c :: _) = none
        rw [literalDigits_digit hc, digitBelow_big hd hbig]
        rfl
      rw [if_neg hbig]
      have hdb := digitBelow_some hd (by omega : d.toNat < base)
      by_cases hcut : cutoffOf base ≤ n
      · rw [if_pos hcut]
        refine ⟨.overflow, rfl, DigitsSpec.above (by omega) hc hdb ?_⟩
        have hq : (2 ^ 64 - 1) / base + 1 ≤ n.toNat := by
          rw [← cutoffOf_toNat h2 h36]
          exact UInt64.le_iff_toNat_le.mp hcut
        have hmul : 2 ^ 64 - 1 < n.toNat * base :=
          (Nat.div_lt_iff_lt_mul (by omega)).mp hq
        have hM : M.toNat < 2 ^ 64 := M.toNat_lt
        omega
      rw [if_neg hcut]
      obtain ⟨hover, hval⟩ := round_spec (M := M) h2 h36 (by omega : d.toNat < base) hcut
      split
      · rename_i h
        exact ⟨.overflow, rfl, DigitsSpec.above (by omega) hc hdb (hover.mp h)⟩
      · rename_i h
        have hv := hval h
        have hle := mt hover.mpr h
        obtain ⟨r, hrun, hspec⟩ := ih (i + 1) (n * UInt64.ofNat base + d.toUInt64) u
          (by omega) (by omega)
        rw [hv] at hspec
        exact ⟨r, hrun, hspec.digit hc hdb⟩

end DigitLoop

theorem maxVal_toNat {b : ℕ} (h1 : 1 ≤ b) (h64 : b ≤ 64) : (maxVal b).toNat = 2 ^ b - 1 := by
  have hall : ∀ k < 64, (maxVal (k + 1)).toNat = 2 ^ (k + 1) - 1 := by decide
  have hk := hall (b - 1) (by omega)
  rw [Nat.sub_add_cancel h1] at hk
  exact hk

/-- `ppp_c_flags_parse_uint64` in an explicit base: the value of the digits when
it fits, and an error otherwise. -/
theorem parseUint64_explicit (base bits : ℕ) (h2 : 2 ≤ base) (h36 : base ≤ 36) (hb : 1 ≤ bits)
    (h64 : bits ≤ 64) (s : Bytes) :
    ∃ r out, parseUint64 (some s) s.length base bits = .ok (r, out) ∧
      ((r = 0 ∧ ∃ ds n, s ≠ [] ∧ literalDigits false base s = some ds ∧ out = some n ∧
          n.toNat = numeral base 0 ds ∧ n.toNat < 2 ^ bits) ∨
        (r = 1 ∧ s ≠ [] ∧ out = some (maxVal bits) ∧
          ∀ ds, literalDigits false base s = some ds → 2 ^ bits ≤ numeral base 0 ds) ∨
        (r = -1 ∧ out = none ∧ (s = [] ∨ literalDigits false base s = none))) := by
  have hM := maxVal_toNat hb h64
  have hpow : 0 < 2 ^ bits := Nat.two_pow_pos bits
  have hzero : ((base : ℤ) == 0) = false := by
    simp only [beq_eq_false_iff_ne]
    omega
  have hpart : basePart s s.length base = .ok (some (base, s, s.length)) := by
    unfold basePart
    rw [if_pos (by omega)]
    rfl
  unfold parseUint64
  by_cases hs : s.length = 0
  · have hnil : s = [] := List.length_eq_zero_iff.mp hs
    refine ⟨-1, none, ?_, Or.inr (Or.inr ⟨rfl, rfl, Or.inl hnil⟩)⟩
    simp only [hs, if_true, pure_eq_ok]
  · have hne : s ≠ [] := fun h => hs (by rw [h]; rfl)
    obtain ⟨r, hrun, hspec⟩ := digitLoop_spec (M := maxVal bits) false h2 h36 s
      s.length 0 0 false (by omega) (Nat.zero_le _)
    rw [List.drop_zero, List.take_length] at hspec
    have hbits : ¬ ((bits : ℤ) < 0 ∨ (64 : ℤ) < bits) := by omega
    have hbz : ¬ (bits : ℤ) = 0 := by omega
    simp only [hs, if_false, hpart, ok_bind, hbz, hbits, hzero, Int.toNat_natCast, hrun]
    cases r with
    | invalid => exact ⟨-1, none, rfl, Or.inr (Or.inr ⟨rfl, rfl, Or.inr hspec⟩)⟩
    | overflow =>
      refine ⟨1, _, rfl, Or.inr (Or.inl ⟨rfl, hne, rfl, ?_⟩)⟩
      intro ds hds
      have hlt : _ < numeral base 0 ds := hspec ds hds
      omega
    | done n u =>
      obtain ⟨hu, ds, hds, hv, hle⟩ := hspec
      have hfalse : u = false := by simpa using hu
      subst hfalse
      exact ⟨0, some n, rfl, Or.inl ⟨rfl, ds, n, hne, hds, rfl, hv, by omega⟩⟩

end LibeventHttpServe.Flags
