import LibeventHttpServe.Flags.ParseInt
import Mathlib.Data.Bool.AllAny
import Mathlib.Data.Nat.Digits.Lemmas

/-!
# The conversions of printf that the program uses (flags.c:2317-2333)

The decimal conversions, and `%-<n>s` with a width that `sprintf` wrote into the
format before.
-/

namespace LibeventHttpServe.Flags
open Lib

/-- `%u`, `%lu` and the `PRIu` conversions. -/
def decimal (n : ℕ) : Bytes := (decimalDigits n).map fun d => UInt8.ofNat (48 + d)

/-- `%d` and `%ld`. -/
def decimalInt (z : ℤ) : Bytes :=
  if z < 0 then ascii '-' :: decimal z.natAbs else decimal z.natAbs

/-- `s` in a field of `n` characters, at its left. -/
def padRight (n : ℕ) (s : Bytes) : Bytes := s ++ List.replicate (n - s.length) (ascii ' ')

/-- `char buf[2 + 21 + 1]` with the two bytes that are set first. -/
def formatBuf : Bytes := text "%-" ++ List.replicate 22 0

/-- The `%ld` of a `size_t`. -/
def sizeText (n : ℕ) : Bytes := decimalInt (UInt64.ofNat n).toInt64.toInt

/-- `sprintf(buf + 2, "%lds", n)`; it writes a NUL, too. -/
def sprintfWidth (buf : Bytes) (n : ℕ) : Checked Bytes :=
  let out := sizeText n ++ text "s" ++ [0]
  if buf.length < 2 + out.length then .error .write
  else .ok (buf.take 2 ++ out ++ buf.drop (2 + out.length))

def isDecimal (c : UInt8) : Bool := ascii '0' ≤ c && c ≤ ascii '9'

/-- `printf(buf, s)` for a format `%-<n>s`. A field is not wider than `INT_MAX`; what
another format does is left open. -/
def printfField (buf s : Bytes) : Checked Bytes :=
  let format := cString buf
  let digits := (format.drop 2).takeWhile isDecimal
  let width := numeral 10 0 (digits.map fun c => (c - ascii '0').toNat)
  if format = text "%-" ++ digits ++ text "s" ∧ width ≤ 2147483647 then
    .ok (padRight width (cString s))
  else .error .wrap

/-! ### Decimal numbers -/

theorem digit_isDecimal : ∀ d < 10, isDecimal (UInt8.ofNat (48 + d)) = true := by decide

theorem digit_value : ∀ d < 10, (UInt8.ofNat (48 + d) - ascii '0').toNat = d := by decide

theorem decimal_isDecimal {n : ℕ} {c : UInt8} (h : c ∈ decimal n) : isDecimal c = true := by
  obtain ⟨d, hd, rfl⟩ := List.mem_map.mp h
  exact digit_isDecimal d (decimalDigits_lt hd)

theorem isDecimal_ne_zero {c : UInt8} (h : isDecimal c = true) : c ≠ 0 := by
  intro hc
  rw [hc] at h
  cases h

theorem decimal_value (n : ℕ) :
    (decimal n).map (fun c => (c - ascii '0').toNat) = decimalDigits n := by
  unfold decimal
  rw [List.map_map]
  have hvalue : ∀ d ∈ decimalDigits n,
      ((fun c => (c - ascii '0').toNat) ∘ fun d => UInt8.ofNat (48 + d)) d = id d := by
    intro d hd
    exact digit_value d (decimalDigits_lt hd)
  rw [List.map_congr_left hvalue, List.map_id]

theorem decimal_length {n k : ℕ} (hk : 0 < k) (h : n < 10 ^ k) : (decimal n).length ≤ k := by
  unfold decimal decimalDigits
  rw [List.length_map]
  split
  · exact hk
  · rw [List.length_reverse]
    exact (Nat.digits_length_le_iff (by decide) n).mpr h

/-! ### The width of a field -/

theorem padRight_length (n : ℕ) (s : Bytes) : (padRight n s).length = max n s.length := by
  simp only [padRight, List.length_append, List.length_replicate]
  omega

theorem padRight_append (n : ℕ) (a s : Bytes) :
    padRight n (a ++ s) = a ++ padRight (n - a.length) s := by
  unfold padRight
  rw [List.length_append, Nat.sub_add_eq, List.append_assoc]

theorem sizeText_length (n : ℕ) : (sizeText n).length ≤ 20 := by
  unfold sizeText
  generalize (UInt64.ofNat n).toInt64 = x
  have hlo := x.le_toInt
  have hhi := x.toInt_lt
  have hdigits : (decimal x.toInt.natAbs).length ≤ 19 := by
    apply decimal_length (by decide)
    omega
  unfold decimalInt
  split
  · rw [List.length_cons]
    omega
  · omega

theorem sizeText_decimal {n : ℕ} (hn : n < 2 ^ 63) : sizeText n = decimal n := by
  have hnat : (UInt64.ofNat n).toNat = n := by
    rw [UInt64.toNat_ofNat']
    omega
  unfold sizeText decimalInt
  rw [toInt64_toInt (by omega), hnat, if_neg (by omega), Int.natAbs_natCast]

/-- The buffer starts with `%-` and has the size it was declared with. -/
def FormatBuf (buf : Bytes) : Prop := buf.length = 24 ∧ buf.take 2 = text "%-"

theorem formatBuf_start : FormatBuf formatBuf := ⟨rfl, rfl⟩

/-- No length makes `sprintf` write behind the buffer. -/
theorem sprintfWidth_fits {buf : Bytes} (hb : FormatBuf buf) (n : ℕ) :
    ∃ buf', sprintfWidth buf n = .ok buf' ∧ FormatBuf buf' ∧
      ∃ rest, buf' = text "%-" ++ sizeText n ++ text "s" ++ 0 :: rest := by
  obtain ⟨hlen, htake⟩ := hb
  have hsize := sizeText_length n
  have hout : (sizeText n ++ text "s" ++ [0]).length = (sizeText n).length + 2 := by
    simp only [List.length_append]
    rfl
  refine ⟨_, if_neg (by omega), ⟨?_, ?_⟩, buf.drop (2 + (sizeText n).length + 2), ?_⟩
  · simp only [List.length_append, List.length_take, List.length_drop, hout]
    have hs : (text "s").length = 1 := rfl
    omega
  · rw [List.append_assoc, List.take_append_of_le_length (by rw [htake]; decide), List.take_take]
    exact htake
  · rw [htake, hout]
    simp only [List.append_assoc, List.cons_append, List.nil_append, Nat.add_assoc]

/-- A field of a width that `sprintf` wrote. -/
theorem printfField_width {buf rest : Bytes} {n : ℕ} (hn : n ≤ 2147483647)
    (hbuf : buf = text "%-" ++ sizeText n ++ text "s" ++ 0 :: rest) (s : Bytes) :
    printfField buf s = .ok (padRight n (cString s)) := by
  have hformat : cString buf = text "%-" ++ decimal n ++ text "s" := by
    rw [hbuf, sizeText_decimal (by omega)]
    unfold cString
    have hstart : ∀ c ∈ text "%-", c ≠ 0 := List.all_iff_forall_prop.mp rfl
    have hend : ∀ c ∈ text "s", c ≠ 0 := List.all_iff_forall_prop.mp rfl
    rw [List.takeWhile_append_of_pos, List.takeWhile_cons_of_neg (by decide), List.append_nil]
    intro c hc
    have hne : c ≠ 0 := by
      rcases List.mem_append.mp hc with hc | hc
      · rcases List.mem_append.mp hc with hc | hc
        · exact hstart c hc
        · exact isDecimal_ne_zero (decimal_isDecimal hc)
      · exact hend c hc
    simpa using hne
  have hdigits : ((cString buf).drop 2).takeWhile isDecimal = decimal n := by
    rw [hformat, List.append_assoc]
    show (decimal n ++ text "s").takeWhile isDecimal = decimal n
    rw [List.takeWhile_append_of_pos fun c hc => decimal_isDecimal hc]
    exact List.append_nil _
  unfold printfField
  simp only [hdigits, decimal_value, numeral_decimalDigits]
  exact if_pos ⟨hformat, hn⟩

end LibeventHttpServe.Flags
