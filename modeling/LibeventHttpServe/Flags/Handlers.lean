import LibeventHttpServe.Flags.ParseInt
import LibeventHttpServe.Flags.Registry

/-!
# The handlers of the flag types (flags.c:20-30, 160-540)

`set_flag` of the types that are no arrays. The result is the error that is
returned, or the value that is stored through `_value`. The bits of a `float` and of
a `double` stand for them, and `strtod` with the operations on them are parameters.
-/

namespace LibeventHttpServe.Flags

open LibeventHttpServe.Lib

/-- Parse, `PPP_C_FLAGS_VERIFY_FLAG`, and the value to store. -/
def setFlagWith {α : Type} (parse : Checked (Except ℤ α)) (verify : Option (α → ℤ)) :
    Checked (Except ℤ α) := do
  match ← parse with
  | .error err => pure (.error err)
  | .ok v =>
    match verify with
    | none => pure (.ok v)
    | some f => if f v ≠ 0 then pure (.error (f v)) else pure (.ok v)

/-- `ppp_c_flags_handler_bool_set_flag`. -/
def handlerBoolSetFlag (verify : Option (UInt8 → ℤ)) (s : Bytes) (sLen : ℕ) :
    Checked (Except ℤ UInt8) :=
  setFlagWith (do
    let b ← parseBool s sLen
    if b = 0 then pure (.ok 0) else if b = 1 then pure (.ok 1) else pure (.error (-1))) verify

/-- `int64_t v0`, read in base 0 with the bits of the type, and its assignment to
`new_value`. -/
def parseInt {α : Type} (bits : ℤ) (narrow : Int64 → α) (s : Bytes) (sLen : ℕ) :
    Checked (Except ℤ α) := do
  let r ← parseInt64 (some s) sLen 0 bits
  if r.err ≠ 0 then pure (.error r.err) else pure (.ok (narrow (r.output.getD 0)))

/-- `uint64_t v0`, read in base 0 with the bits of the type, and its assignment to
`new_value`. -/
def parseUint {α : Type} (bits : ℤ) (narrow : UInt64 → α) (s : Bytes) (sLen : ℕ) :
    Checked (Except ℤ α) := do
  let (err, v0) ← parseUint64 (some s) sLen 0 bits
  if err ≠ 0 then pure (.error err) else pure (.ok (narrow (v0.getD 0)))

/-- `ppp_c_flags_handler_int8_set_flag`. -/
def handlerInt8SetFlag (verify : Option (Int8 → ℤ)) (s : Bytes) (sLen : ℕ) :
    Checked (Except ℤ Int8) :=
  setFlagWith (parseInt 8 Int64.toInt8 s sLen) verify

/-- `ppp_c_flags_handler_int16_set_flag`. -/
def handlerInt16SetFlag (verify : Option (Int16 → ℤ)) (s : Bytes) (sLen : ℕ) :
    Checked (Except ℤ Int16) :=
  setFlagWith (parseInt 16 Int64.toInt16 s sLen) verify

/-- `ppp_c_flags_handler_int32_set_flag`. -/
def handlerInt32SetFlag (verify : Option (Int32 → ℤ)) (s : Bytes) (sLen : ℕ) :
    Checked (Except ℤ Int32) :=
  setFlagWith (parseInt 32 Int64.toInt32 s sLen) verify

/-- `ppp_c_flags_handler_int64_set_flag`. -/
def handlerInt64SetFlag (verify : Option (Int64 → ℤ)) (s : Bytes) (sLen : ℕ) :
    Checked (Except ℤ Int64) :=
  setFlagWith (parseInt 64 id s sLen) verify

/-- `ppp_c_flags_handler_uint8_set_flag`. -/
def handlerUint8SetFlag (verify : Option (UInt8 → ℤ)) (s : Bytes) (sLen : ℕ) :
    Checked (Except ℤ UInt8) :=
  setFlagWith (parseUint 8 UInt64.toUInt8 s sLen) verify

/-- `ppp_c_flags_handler_uint16_set_flag`. -/
def handlerUint16SetFlag (verify : Option (UInt16 → ℤ)) (s : Bytes) (sLen : ℕ) :
    Checked (Except ℤ UInt16) :=
  setFlagWith (parseUint 16 UInt64.toUInt16 s sLen) verify

/-- `ppp_c_flags_handler_uint32_set_flag`. -/
def handlerUint32SetFlag (verify : Option (UInt32 → ℤ)) (s : Bytes) (sLen : ℕ) :
    Checked (Except ℤ UInt32) :=
  setFlagWith (parseUint 32 UInt64.toUInt32 s sLen) verify

/-- `ppp_c_flags_handler_uint64_set_flag`. -/
def handlerUint64SetFlag (verify : Option (UInt64 → ℤ)) (s : Bytes) (sLen : ℕ) :
    Checked (Except ℤ UInt64) :=
  setFlagWith (parseUint 64 id s sLen) verify

/-- What the C library does with floating-point numbers. -/
structure Floats where
  /- the value, the index that `end` points to, and whether `errno` is set -/
  strtod : Bytes → UInt64 × ℕ × Bool
  narrow : UInt64 → UInt32
  widen : UInt32 → UInt64
  ne : UInt64 → UInt64 → Bool

/-- The use of `strtod` in the handlers; the byte behind the text is its NUL. -/
def parseFloat (fl : Floats) (s : Bytes) : Except ℤ UInt64 :=
  let (v, stop, errno) := fl.strtod s
  if errno then .error (-1) else if s[stop]?.getD 0 ≠ 0 then .error (-1) else .ok v

/-- `ppp_c_flags_handler_float32_set_flag`. -/
def handlerFloat32SetFlag (fl : Floats) (verify : Option (UInt32 → ℤ)) (s : Bytes) :
    Checked (Except ℤ UInt32) :=
  setFlagWith (pure (do
    let v ← parseFloat fl s
    if fl.ne v (fl.widen (fl.narrow v)) then .error (-1) else .ok (fl.narrow v))) verify

/-- `ppp_c_flags_handler_float64_set_flag`. -/
def handlerFloat64SetFlag (fl : Floats) (verify : Option (UInt64 → ℤ)) (s : Bytes) :
    Checked (Except ℤ UInt64) :=
  setFlagWith (pure (parseFloat fl s)) verify

/-- `ppp_c_flags_handler_string_set_flag`. -/
def handlerStringSetFlag (verify : Option (Bytes → ℤ)) (s : Bytes) :
    Checked (Except ℤ Bytes) :=
  setFlagWith (pure (.ok s)) verify

theorem setFlagWith_verified {α : Type} {parse : Checked (Except ℤ α)} {f : α → ℤ} {v : α}
    (h : setFlagWith parse (some f) = .ok (.ok v)) : f v = 0 := by
  unfold setFlagWith at h
  cases hp : parse with
  | error e =>
    rw [hp] at h
    cases h
  | ok r =>
    rw [hp] at h
    cases r with
    | error err => cases h
    | ok w =>
      simp only [ok_bind] at h
      split at h
      · cases h
      · rename_i hw
        cases h
        exact not_not.mp hw

/-! ### The table of the types -/

abbrev ElemType.Value : ElemType → Type
  | .bool => UInt8
  | .int8 => Int8
  | .int16 => Int16
  | .int32 => Int32
  | .int64 => Int64
  | .uint8 => UInt8
  | .uint16 => UInt16
  | .uint32 => UInt32
  | .uint64 => UInt64
  | .float32 => UInt32
  | .float64 => UInt64
  | .string => Bytes

/-- The `set_flag` of the handler of a type that is no array. -/
def ElemType.setFlag (fl : Floats) : (e : ElemType) → Option (e.Value → ℤ) → Bytes → ℕ →
    Checked (Except ℤ e.Value)
  | .bool, verify, s, sLen => handlerBoolSetFlag verify s sLen
  | .int8, verify, s, sLen => handlerInt8SetFlag verify s sLen
  | .int16, verify, s, sLen => handlerInt16SetFlag verify s sLen
  | .int32, verify, s, sLen => handlerInt32SetFlag verify s sLen
  | .int64, verify, s, sLen => handlerInt64SetFlag verify s sLen
  | .uint8, verify, s, sLen => handlerUint8SetFlag verify s sLen
  | .uint16, verify, s, sLen => handlerUint16SetFlag verify s sLen
  | .uint32, verify, s, sLen => handlerUint32SetFlag verify s sLen
  | .uint64, verify, s, sLen => handlerUint64SetFlag verify s sLen
  | .float32, verify, s, _ => handlerFloat32SetFlag fl verify s
  | .float64, verify, s, _ => handlerFloat64SetFlag fl verify s
  | .string, verify, s, _ => handlerStringSetFlag verify s

/-- The call makes no access outside its text, and an error that it returns is not
zero. -/
def Proper {α : Type} (c : Checked (Except ℤ α)) : Prop :=
  ∃ r, c = .ok r ∧ ∀ err, r = .error err → err ≠ 0

theorem proper_ok {α : Type} (v : α) : Proper (.ok (.ok v)) := ⟨_, rfl, nofun⟩

theorem proper_error {α : Type} {err : ℤ} (h : err ≠ 0) : Proper (α := α) (.ok (.error err)) := by
  refine ⟨_, rfl, ?_⟩
  rintro err' ⟨⟩
  exact h

theorem Proper.setFlagWith {α : Type} {parse : Checked (Except ℤ α)} (h : Proper parse)
    (verify : Option (α → ℤ)) : Proper (setFlagWith parse verify) := by
  obtain ⟨r, rfl, herr⟩ := h
  unfold Flags.setFlagWith
  cases r with
  | error err => exact proper_error (herr err rfl)
  | ok v =>
    simp only [ok_bind]
    cases verify with
    | none => exact proper_ok v
    | some f =>
      dsimp only
      split_ifs with hf
      · exact proper_error hf
      · exact proper_ok v

theorem parseInt_proper {α : Type} {bits : ℤ} (h1 : 2 ≤ bits) (h64 : bits ≤ 64)
    (narrow : Int64 → α) (s : Bytes) : Proper (parseInt bits narrow s s.length) := by
  have hadm : Admissible 0 bits := ⟨Or.inl rfl, by omega, h64⟩
  obtain ⟨r, hrun, -⟩ := parseInt64_outcome hadm (s := s) (fun hm => by
    have hone := hm.1
    omega)
  unfold parseInt
  simp only [hrun, ok_bind]
  split_ifs with herr
  · exact proper_error herr
  · exact proper_ok _

theorem parseUint_proper {α : Type} {bits : ℤ} (h1 : 0 ≤ bits) (h64 : bits ≤ 64)
    (narrow : UInt64 → α) (s : Bytes) : Proper (parseUint bits narrow s s.length) := by
  obtain ⟨r, out, hrun, -⟩ := @parseUint64_outcome 0 bits ⟨Or.inl rfl, h1, h64⟩ s
  unfold parseUint
  simp only [hrun, ok_bind]
  split_ifs with herr
  · exact proper_error herr
  · exact proper_ok _

theorem parseBool_total (s : Bytes) : ∃ r, parseBool s s.length = .ok r := by
  have hite {P : Prop} [Decidable P] {a b : Checked ℤ} (ha : ∃ r, a = .ok r) (hb : ∃ r, b = .ok r) :
      ∃ r, (if P then a else b) = .ok r := by
    split_ifs
    · exact ha
    · exact hb
  have hpure (v : ℤ) : ∃ r, (pure v : Checked ℤ) = .ok r := ⟨v, rfl⟩
  unfold parseBool
  split_ifs with h1 h4 h5
  · have hr : readAt s 0 = .ok s[0] := readAt_ok (List.getElem?_eq_getElem (by omega))
    simp only [hr, ok_bind]
    exact hite (hpure _) (hite (hpure _) (hpure _))
  · have hr : readN s 4 = .ok (s.take 4) := if_neg (by omega)
    simp only [hr, ok_bind]
    exact hite (hpure _) (hpure _)
  · have hr : readN s 5 = .ok (s.take 5) := if_neg (by omega)
    simp only [hr, ok_bind]
    exact hite (hpure _) (hpure _)
  · exact hpure _

theorem parseFloat_error {fl : Floats} {s : Bytes} {err : ℤ} (h : parseFloat fl s = .error err) :
    err ≠ 0 := by
  unfold parseFloat at h
  obtain ⟨v, stop, errno⟩ := fl.strtod s
  dsimp only at h
  split_ifs at h <;> cases h <;> decide

/-- Every handler of the table returns 0 or an error that is not zero. -/
theorem ElemType.setFlag_proper (fl : Floats) (e : ElemType) (verify : Option (e.Value → ℤ))
    (s : Bytes) : Proper (e.setFlag fl verify s s.length) := by
  cases e with
  | bool =>
    apply Proper.setFlagWith
    obtain ⟨b, hb⟩ := parseBool_total s
    simp only [hb, ok_bind]
    split_ifs
    · exact proper_ok _
    · exact proper_ok _
    · exact proper_error (by decide)
  | int8 => exact (parseInt_proper (by decide) (by decide) _ s).setFlagWith verify
  | int16 => exact (parseInt_proper (by decide) (by decide) _ s).setFlagWith verify
  | int32 => exact (parseInt_proper (by decide) (by decide) _ s).setFlagWith verify
  | int64 => exact (parseInt_proper (by decide) (by decide) _ s).setFlagWith verify
  | uint8 => exact (parseUint_proper (by decide) (by decide) _ s).setFlagWith verify
  | uint16 => exact (parseUint_proper (by decide) (by decide) _ s).setFlagWith verify
  | uint32 => exact (parseUint_proper (by decide) (by decide) _ s).setFlagWith verify
  | uint64 => exact (parseUint_proper (by decide) (by decide) _ s).setFlagWith verify
  | float32 =>
    apply Proper.setFlagWith
    cases hp : parseFloat fl s with
    | error err => exact proper_error (parseFloat_error hp)
    | ok v =>
      show Proper (.ok (if fl.ne v (fl.widen (fl.narrow v)) then .error (-1)
        else .ok (fl.narrow v)))
      split_ifs
      · exact proper_error (by decide)
      · exact proper_ok _
  | float64 =>
    apply Proper.setFlagWith
    cases hp : parseFloat fl s with
    | error err => exact proper_error (parseFloat_error hp)
    | ok v => exact proper_ok v
  | string => exact (proper_ok s).setFlagWith verify

end LibeventHttpServe.Flags
