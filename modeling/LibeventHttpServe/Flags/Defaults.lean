import LibeventHttpServe.Flags.Integers
import LibeventHttpServe.Flags.Printf

/-!
# The defaults of flags (flags.c:119-1089)

`print_default` of the handlers: what the usage says of the value that a variable had
when its flag was added. `print` is the text that the callback of that name writes, if it
is set.
-/

namespace LibeventHttpServe.Flags

open LibeventHttpServe.Lib

/-- A value of `_default`; the pointer to a text can be null. -/
abbrev ElemType.Default : ElemType → Type
  | .string => Option Bytes
  | e => e.Value

/-- `_default` of a flag; that of an array has the elements that its pointer leads to. -/
abbrev FlagType.Default : FlagType → Type
  | ⟨e, false⟩ => e.Default
  | ⟨e, true⟩ => ArrayCell e.Value

/-- `PPP_C_FLAGS_PRINT_DEFAULT_FUNC`; `val` is whether there is something to print, and
`out` the value in its format. -/
def printDefaultFunc (print : Option Bytes) (val : Bool) (out : Bytes) : Bytes :=
  if val then text "<default: " ++ print.getD out ++ text ">" else []

variable {α : Type}

/-- `vals->p[i]`. -/
def ArrayCell.at (vals : ArrayCell α) (i : ℕ) : Checked α := do
  match ← readAt vals.cells i with
  | some v => pure v
  | none => .error .read

/-- The loop over the elements; the first number counts the rounds left. -/
def printElements (sep : Bytes) (format : α → Bytes) (vals : ArrayCell α) :
    ℕ → ℕ → Checked Bytes
  | 0, _ => pure []
  | rest + 1, i => do
    let v ← vals.at i
    let out ← printElements sep format vals rest (i + 1)
    pure ((if i ≠ 0 then sep ++ format v else format v) ++ out)

/-- `PPP_C_FLAGS_PRINT_ARRAY_DEFAULT_FUNC`. Only the loop closes the bracket that it
opened with `<`. -/
def printArrayDefaultFunc (print : Option Bytes) (sep : Bytes) (format : α → Bytes)
    (vals : ArrayCell α) : Checked Bytes :=
  match print, vals.len.toNat with
  | _, 0 => pure []
  | some s, _ => pure (text "<default: [" ++ s ++ text "]")
  | none, 1 => do
    let v ← vals.at 0
    pure (text "<default: [" ++ format v ++ text "]")
  | none, n => do
    let out ← printElements sep format vals n 0
    pure (text "<default: [" ++ out ++ text "]>")

section Handlers

variable (print : Option Bytes)

/-- The word for a `bool`. -/
def boolText (v : UInt8) : Bytes := if v ≠ 0 then text "true" else text "false"

/-- `ppp_c_flags_handler_bool_print_default`. -/
def handlerBoolPrintDefault (v : UInt8) := printDefaultFunc print (v != 0) (text "true")

/-- `ppp_c_flags_handler_int8_print_default`. -/
def handlerInt8PrintDefault (v : Int8) := printDefaultFunc print (v != 0) (decimalInt v.toInt)

/-- `ppp_c_flags_handler_int16_print_default`. -/
def handlerInt16PrintDefault (v : Int16) := printDefaultFunc print (v != 0) (decimalInt v.toInt)

/-- `ppp_c_flags_handler_int32_print_default`. -/
def handlerInt32PrintDefault (v : Int32) := printDefaultFunc print (v != 0) (decimalInt v.toInt)

/-- `ppp_c_flags_handler_int64_print_default`. -/
def handlerInt64PrintDefault (v : Int64) := printDefaultFunc print (v != 0) (decimalInt v.toInt)

/-- `ppp_c_flags_handler_uint8_print_default`. -/
def handlerUint8PrintDefault (v : UInt8) := printDefaultFunc print (v != 0) (decimal v.toNat)

/-- `ppp_c_flags_handler_uint16_print_default`. -/
def handlerUint16PrintDefault (v : UInt16) := printDefaultFunc print (v != 0) (decimal v.toNat)

/-- `ppp_c_flags_handler_uint32_print_default`. -/
def handlerUint32PrintDefault (v : UInt32) := printDefaultFunc print (v != 0) (decimal v.toNat)

/-- `ppp_c_flags_handler_uint64_print_default`. -/
def handlerUint64PrintDefault (v : UInt64) := printDefaultFunc print (v != 0) (decimal v.toNat)

/-- `ppp_c_flags_handler_float32_print_default`; `g` is the text of `%g`. -/
def handlerFloat32PrintDefault (fl : Floats) (g : UInt64 → Bytes) (v : UInt32) :=
  printDefaultFunc print (fl.ne (fl.widen v) 0) (g (fl.widen v))

/-- `ppp_c_flags_handler_float64_print_default`. -/
def handlerFloat64PrintDefault (fl : Floats) (g : UInt64 → Bytes) (v : UInt64) :=
  printDefaultFunc print (fl.ne v 0) (g v)

/-- `ppp_c_flags_handler_string_print_default`; it does not call `print`. -/
def handlerStringPrintDefault (s : Option Bytes) : Bytes :=
  printDefaultFunc none (s.getD [] != []) (s.getD [])

/-- `ppp_c_flags_handler_bool_array_print_default`; the words have no blank between. -/
def handlerBoolArrayPrintDefault := printArrayDefaultFunc print (text ",") boolText

/-- `ppp_c_flags_handler_int8_array_print_default`. -/
def handlerInt8ArrayPrintDefault :=
  printArrayDefaultFunc print (text ", ") fun v : Int8 => decimalInt v.toInt

/-- `ppp_c_flags_handler_int16_array_print_default`. -/
def handlerInt16ArrayPrintDefault :=
  printArrayDefaultFunc print (text ", ") fun v : Int16 => decimalInt v.toInt

/-- `ppp_c_flags_handler_int32_array_print_default`. -/
def handlerInt32ArrayPrintDefault :=
  printArrayDefaultFunc print (text ", ") fun v : Int32 => decimalInt v.toInt

/-- `ppp_c_flags_handler_int64_array_print_default`. -/
def handlerInt64ArrayPrintDefault :=
  printArrayDefaultFunc print (text ", ") fun v : Int64 => decimalInt v.toInt

/-- `ppp_c_flags_handler_uint8_array_print_default`. -/
def handlerUint8ArrayPrintDefault :=
  printArrayDefaultFunc print (text ", ") fun v : UInt8 => decimal v.toNat

/-- `ppp_c_flags_handler_uint16_array_print_default`. -/
def handlerUint16ArrayPrintDefault :=
  printArrayDefaultFunc print (text ", ") fun v : UInt16 => decimal v.toNat

/-- `ppp_c_flags_handler_uint32_array_print_default`. -/
def handlerUint32ArrayPrintDefault :=
  printArrayDefaultFunc print (text ", ") fun v : UInt32 => decimal v.toNat

/-- `ppp_c_flags_handler_uint64_array_print_default`. -/
def handlerUint64ArrayPrintDefault :=
  printArrayDefaultFunc print (text ", ") fun v : UInt64 => decimal v.toNat

/-- `ppp_c_flags_handler_float32_array_print_default`. -/
def handlerFloat32ArrayPrintDefault (fl : Floats) (g : UInt64 → Bytes) :=
  printArrayDefaultFunc print (text ", ") fun v : UInt32 => g (fl.widen v)

/-- `ppp_c_flags_handler_float64_array_print_default`. -/
def handlerFloat64ArrayPrintDefault (g : UInt64 → Bytes) :=
  printArrayDefaultFunc print (text ", ") g

/-- `ppp_c_flags_handler_string_array_print_default`. -/
def handlerStringArrayPrintDefault :=
  printArrayDefaultFunc print (text ", ") fun s : Bytes => s

end Handlers

/-- `flag->_handler->print_default(flag)` for the handler of a type. -/
def FlagType.printDefault (fl : Floats) (g : UInt64 → Bytes) (print : Option Bytes) :
    (t : FlagType) → t.Default → Checked Bytes
  | ⟨.bool, false⟩, v => pure (handlerBoolPrintDefault print v)
  | ⟨.int8, false⟩, v => pure (handlerInt8PrintDefault print v)
  | ⟨.int16, false⟩, v => pure (handlerInt16PrintDefault print v)
  | ⟨.int32, false⟩, v => pure (handlerInt32PrintDefault print v)
  | ⟨.int64, false⟩, v => pure (handlerInt64PrintDefault print v)
  | ⟨.uint8, false⟩, v => pure (handlerUint8PrintDefault print v)
  | ⟨.uint16, false⟩, v => pure (handlerUint16PrintDefault print v)
  | ⟨.uint32, false⟩, v => pure (handlerUint32PrintDefault print v)
  | ⟨.uint64, false⟩, v => pure (handlerUint64PrintDefault print v)
  | ⟨.float32, false⟩, v => pure (handlerFloat32PrintDefault print fl g v)
  | ⟨.float64, false⟩, v => pure (handlerFloat64PrintDefault print fl g v)
  | ⟨.string, false⟩, s => pure (handlerStringPrintDefault s)
  | ⟨.bool, true⟩, a => handlerBoolArrayPrintDefault print a
  | ⟨.int8, true⟩, a => handlerInt8ArrayPrintDefault print a
  | ⟨.int16, true⟩, a => handlerInt16ArrayPrintDefault print a
  | ⟨.int32, true⟩, a => handlerInt32ArrayPrintDefault print a
  | ⟨.int64, true⟩, a => handlerInt64ArrayPrintDefault print a
  | ⟨.uint8, true⟩, a => handlerUint8ArrayPrintDefault print a
  | ⟨.uint16, true⟩, a => handlerUint16ArrayPrintDefault print a
  | ⟨.uint32, true⟩, a => handlerUint32ArrayPrintDefault print a
  | ⟨.uint64, true⟩, a => handlerUint64ArrayPrintDefault print a
  | ⟨.float32, true⟩, a => handlerFloat32ArrayPrintDefault print fl g a
  | ⟨.float64, true⟩, a => handlerFloat64ArrayPrintDefault print g a
  | ⟨.string, true⟩, a => handlerStringArrayPrintDefault print a

/-! ### The texts of values -/

/-- A value in the format of its type. -/
def ElemType.format (fl : Floats) (g : UInt64 → Bytes) : (e : ElemType) → e.Value → Bytes
  | .bool, v => boolText v
  | .int8, v => decimalInt v.toInt
  | .int16, v => decimalInt v.toInt
  | .int32, v => decimalInt v.toInt
  | .int64, v => decimalInt v.toInt
  | .uint8, v => decimal v.toNat
  | .uint16, v => decimal v.toNat
  | .uint32, v => decimal v.toNat
  | .uint64, v => decimal v.toNat
  | .float32, v => g (fl.widen v)
  | .float64, v => g v
  | .string, s => s

/-- What is between the elements of an array. -/
def ElemType.separator (e : ElemType) : Bytes := if e = .bool then text "," else text ", "

/-- A value as `set_flag` stores it: every true `bool` is 1. -/
def ElemType.meaning : (e : ElemType) → e.Value → e.Value
  | .bool, v => if v ≠ 0 then 1 else 0
  | .int8, v => v
  | .int16, v => v
  | .int32, v => v
  | .int64, v => v
  | .uint8, v => v
  | .uint16, v => v
  | .uint32, v => v
  | .uint64, v => v
  | .float32, v => v
  | .float64, v => v
  | .string, s => s

theorem printDefault_array (fl : Floats) (g : UInt64 → Bytes) (print : Option Bytes)
    (e : ElemType) (a : ArrayCell e.Value) :
    FlagType.printDefault fl g print ⟨e, true⟩ a =
      printArrayDefaultFunc print e.separator (e.format fl g) a := by
  cases e <;> rfl

/-! ### Reading a number back -/

theorem digit_isDigit : ∀ d < 10, IsDigit 10 (UInt8.ofNat (48 + d)) d := by
  unfold IsDigit
  decide

theorem digitTail_digits {ds : List ℕ} (h : ∀ d ∈ ds, d < 10) :
    DigitTail 10 (ds.map fun d => UInt8.ofNat (48 + d)) ds := by
  induction ds with
  | nil => exact .nil
  | cons d ds ih =>
    have hd : d < 10 := h d List.mem_cons_self
    exact .digit (digit_isDigit d hd) (ih fun e he => h e (List.mem_cons_of_mem _ he))

/-- The text of a number is a literal: zero is an octal one without digits. -/
theorem decimal_denotes (n : ℕ) : Denotes 0 (decimal n) n := by
  have hvalue := numeral_decimalDigits n
  by_cases hn : n = 0
  · subst hn
    exact .literal (.octal .nil)
  · obtain ⟨d, ds, hds⟩ := List.exists_cons_of_ne_nil (decimalDigits_ne_nil n)
    have hlt : ∀ e ∈ d :: ds, e < 10 := by
      rw [← hds]
      exact fun e he => decimalDigits_lt he
    have hd : d ≠ 0 := by
      have hlast := Nat.getLast_digit_ne_zero 10 hn
      unfold decimalDigits at hds
      rw [if_neg hn] at hds
      have hrev : Nat.digits 10 n = ds.reverse ++ [d] := by
        rw [← List.reverse_reverse (Nat.digits 10 n), hds, List.reverse_cons]
      simpa [hrev] using hlast
    have hliteral : Literal (decimal n) 10 (decimalDigits n) := by
      unfold decimal
      rw [hds, List.map_cons]
      exact .decimal (digit_isDigit d (hlt d List.mem_cons_self)) hd
        (digitTail_digits fun e he => hlt e (List.mem_cons_of_mem _ he))
    have h := Denotes.literal hliteral
    rwa [hvalue] at h

theorem decimalInt_denotes (z : ℤ) : SignedDenotes 0 (decimalInt z) z := by
  unfold decimalInt
  split
  · have h := SignedDenotes.minus (decimal_denotes z.natAbs)
    rwa [show -(z.natAbs : ℤ) = z by omega] at h
  · have h := SignedDenotes.plain (decimal_denotes z.natAbs)
    rwa [show (z.natAbs : ℤ) = z by omega] at h

/-! ### Reading a value back -/

section ReadBack

variable (fl : Floats) {e : ElemType} {bits : ℕ} {verify : Option (e.Value → ℤ)} {w : e.Value}

theorem int_readBack {signed : Bool} (hk : e.intKind = some (signed, bits)) {s : Bytes} {v : ℤ}
    (hw : e.intValue w = some v) (hs : DenotesInt signed s v) (hr : InRange signed bits v)
    (ha : Accepts verify w) : e.setFlag fl verify s s.length = .ok (.ok w) := by
  obtain ⟨r, hrun, hexact⟩ := intFlag_exact fl hk verify s
  obtain ⟨w', rfl, hw'⟩ := (hexact v).mpr ⟨⟨hs, hr⟩, w, hw, ha⟩
  rw [hrun, intValue_inj e w' w v hw' hw]

theorem signed_readBack (hk : e.intKind = some (true, bits)) {z : ℤ} (hw : e.intValue w = some z)
    (hlo : -2 ^ (bits - 1) ≤ z) (hhi : z < 2 ^ (bits - 1)) (ha : Accepts verify w) :
    e.setFlag fl verify (decimalInt z) (decimalInt z).length = .ok (.ok w) := by
  have hr : InRange true bits z := by
    unfold InRange
    rw [if_pos rfl]
    exact ⟨hlo, by omega⟩
  exact int_readBack fl hk hw (decimalInt_denotes z) hr ha

theorem unsigned_readBack (hk : e.intKind = some (false, bits)) {n : ℕ}
    (hw : e.intValue w = some (n : ℤ)) (hlt : n < 2 ^ bits) (ha : Accepts verify w) :
    e.setFlag fl verify (decimal n) (decimal n).length = .ok (.ok w) := by
  have hr : InRange false bits n := by
    have hcast : ((2 ^ bits : ℕ) : ℤ) = 2 ^ bits := by push_cast; rfl
    unfold InRange
    rw [if_neg Bool.false_ne_true, ← hcast]
    omega
  exact int_readBack fl hk hw ⟨n, rfl, decimal_denotes n⟩ hr ha

theorem setFlagWith_accepted {α : Type} {parse : Checked (Except ℤ α)} {v : α}
    {verify : Option (α → ℤ)} (h : parse = .ok (.ok v)) (ha : Accepts verify v) :
    setFlagWith parse verify = .ok (.ok v) := by
  unfold setFlagWith
  rw [h]
  cases verify with
  | none => rfl
  | some f =>
    simp only [ok_bind]
    rw [if_neg (not_not.mpr (ha f rfl))]
    rfl

/-- The text of a value, given to the flag, is that value. -/
theorem format_readBack (g : UInt64 → Bytes) (hfloat : e ≠ .float32 ∧ e ≠ .float64)
    (w : e.Value) (ha : Accepts verify (e.meaning w)) :
    e.setFlag fl verify (e.format fl g w) (e.format fl g w).length =
      .ok (.ok (e.meaning w)) := by
  cases e with
  | bool =>
    refine setFlagWith_accepted ?_ ha
    show (do
      let b ← parseBool (boolText w) (boolText w).length
      if b = 0 then pure (.ok 0) else if b = 1 then pure (.ok 1) else pure (.error (-1))) =
        Except.ok (Except.ok (if w ≠ 0 then (1 : UInt8) else 0))
    by_cases hw : w = 0
    · rw [boolText, if_neg (not_not.mpr hw), if_neg (not_not.mpr hw)]
      rfl
    · rw [boolText, if_pos hw, if_pos hw]
      rfl
  | int8 => exact signed_readBack fl rfl rfl w.le_toInt w.toInt_lt ha
  | int16 => exact signed_readBack fl rfl rfl w.le_toInt w.toInt_lt ha
  | int32 => exact signed_readBack fl rfl rfl w.le_toInt w.toInt_lt ha
  | int64 => exact signed_readBack fl rfl rfl w.le_toInt w.toInt_lt ha
  | uint8 => exact unsigned_readBack fl rfl rfl w.toNat_lt ha
  | uint16 => exact unsigned_readBack fl rfl rfl w.toNat_lt ha
  | uint32 => exact unsigned_readBack fl rfl rfl w.toNat_lt ha
  | uint64 => exact unsigned_readBack fl rfl rfl w.toNat_lt ha
  | float32 => exact (hfloat.1 rfl).elim
  | float64 => exact (hfloat.2 rfl).elim
  | string => exact setFlagWith_accepted rfl ha

end ReadBack

/-! ### What is printed -/

/-- The values that a default has to show: none for zero, null and the empty text. -/
def ElemType.shown (fl : Floats) : (e : ElemType) → e.Default → List e.Value
  | .bool, v => if v ≠ 0 then [v] else []
  | .int8, v => if v ≠ 0 then [v] else []
  | .int16, v => if v ≠ 0 then [v] else []
  | .int32, v => if v ≠ 0 then [v] else []
  | .int64, v => if v ≠ 0 then [v] else []
  | .uint8, v => if v ≠ 0 then [v] else []
  | .uint16, v => if v ≠ 0 then [v] else []
  | .uint32, v => if v ≠ 0 then [v] else []
  | .uint64, v => if v ≠ 0 then [v] else []
  | .float32, v => if fl.ne (fl.widen v) 0 then [v] else []
  | .float64, v => if fl.ne v 0 then [v] else []
  | .string, s => if s.getD [] ≠ [] then [s.getD []] else []

def FlagType.shown (fl : Floats) : (t : FlagType) → t.Default → List t.elem.Value
  | ⟨e, false⟩, v => e.shown fl v
  | ⟨_, true⟩, a => (a.cells.take a.len.toNat).filterMap id

/-- The elements of an array have values. -/
def FlagType.Filled : (t : FlagType) → t.Default → Prop
  | ⟨_, false⟩, _ => True
  | ⟨e, true⟩, a => ∃ l : List e.Value, a.cells.take a.len.toNat = l.map some ∧
      l.length = a.len.toNat

/-- The texts of a default as they are printed. -/
def FlagType.render (t : FlagType) : List Bytes → Bytes
  | [] => []
  | [s] =>
    if t.array then text "<default: [" ++ s ++ text "]" else text "<default: " ++ s ++ text ">"
  | l => text "<default: [" ++ t.elem.separator.intercalate l ++ text "]>"

theorem at_some {a : ArrayCell α} {i : ℕ} {v : α} (h : a.cells[i]? = some (some v)) :
    a.at i = .ok v := by
  unfold ArrayCell.at
  rw [readAt_ok h]
  rfl

theorem printElements_rest (sep : Bytes) (format : α → Bytes) {a : ArrayCell α} (l : List α)
    {i : ℕ} (hi : i ≠ 0) (h : ∀ j v, l[j]? = some v → a.cells[i + j]? = some (some v)) :
    printElements sep format a l.length i = .ok (l.flatMap fun v => sep ++ format v) := by
  induction l generalizing i with
  | nil => rfl
  | cons v l ih =>
    have hv : a.at i = .ok v := at_some (h 0 v rfl)
    have htail : ∀ j w, l[j]? = some w → a.cells[i + 1 + j]? = some (some w) := by
      intro j w hw
      rw [Nat.add_assoc, Nat.add_comm 1 j]
      exact h (j + 1) w hw
    rw [List.length_cons]
    unfold printElements
    rw [hv, ok_bind, ih (by omega) htail, ok_bind, if_pos hi]
    rfl

theorem intercalate_cons (sep s : Bytes) (l : List Bytes) :
    sep.intercalate (s :: l) = s ++ l.flatMap fun t => sep ++ t := by
  induction l generalizing s with
  | nil => simp [List.intercalate]
  | cons t l ih =>
    have h := ih t
    simp only [List.intercalate, List.intersperse_cons_cons, List.flatten_cons] at h ⊢
    rw [h, List.flatMap_cons, List.append_assoc]

theorem printElements_intercalate (sep : Bytes) (format : α → Bytes) {a : ArrayCell α}
    (l : List α) (h : ∀ (j : ℕ) v, l[j]? = some v → a.cells[j]? = some (some v)) :
    printElements sep format a l.length 0 = .ok (sep.intercalate (l.map format)) := by
  cases l with
  | nil => rfl
  | cons v l =>
    have hv : a.at 0 = .ok v := at_some (h 0 v rfl)
    have htail : ∀ j w, l[j]? = some w → a.cells[1 + j]? = some (some w) := by
      intro j w hw
      rw [Nat.add_comm 1 j]
      exact h (j + 1) w hw
    rw [List.length_cons]
    unfold printElements
    rw [hv, ok_bind, printElements_rest sep format l (by decide) htail, ok_bind,
      if_neg (by decide), List.map_cons, intercalate_cons, List.flatMap_map]
    rfl

theorem printArrayDefault_filled {t : FlagType} (ht : t.array = true)
    (format : t.elem.Value → Bytes) {a : ArrayCell t.elem.Value} {l : List t.elem.Value}
    (hl : a.cells.take a.len.toNat = l.map some) (hlen : l.length = a.len.toNat) :
    printArrayDefaultFunc none t.elem.separator format a = .ok (t.render (l.map format)) := by
  have hcells : ∀ (j : ℕ) v, l[j]? = some v → a.cells[j]? = some (some v) := by
    intro j v hv
    have hj : j < a.len.toNat := by
      rw [← hlen]
      exact (List.getElem?_eq_some_iff.mp hv).1
    rw [← List.getElem?_take_of_lt hj, hl, List.getElem?_map, hv]
    rfl
  have hprint := printElements_intercalate t.elem.separator format l hcells
  unfold printArrayDefaultFunc
  rw [← hlen]
  match l with
  | [] => rfl
  | [v] =>
    have hv : a.at 0 = .ok v := at_some (hcells 0 v rfl)
    simp only [List.length_cons, List.length_nil, hv, ok_bind, FlagType.render, ht, if_true,
      List.map_cons, List.map_nil, pure_eq_ok]
  | v :: w :: l =>
    simp only [List.length_cons] at hprint ⊢
    rw [hprint]
    rfl

theorem printDefault_value {e : ElemType} {format : e.Value → Bytes} {v : e.Value} {val : Bool}
    {P : Prop} [Decidable P] {out : Bytes} (hval : val = true ↔ P) (hout : P → format v = out) :
    printDefaultFunc none val out =
      FlagType.render ⟨e, false⟩ ((if P then [v] else []).map format) := by
  unfold printDefaultFunc
  by_cases hP : P
  · rw [if_pos (hval.mpr hP), if_pos hP, ← hout hP]
    rfl
  · rw [if_neg (fun h => hP (hval.mp h)), if_neg hP]
    rfl

theorem printDefault_scalar (fl : Floats) (g : UInt64 → Bytes) (e : ElemType) (d : e.Default) :
    FlagType.printDefault fl g none ⟨e, false⟩ d =
      .ok (FlagType.render ⟨e, false⟩ ((e.shown fl d).map (e.format fl g))) := by
  cases e with
  | bool =>
    -- a `bool` that is printed is true
    have hout (h : d ≠ 0) : boolText d = text "true" := if_pos h
    exact congrArg Except.ok (printDefault_value (e := .bool) bne_iff_ne hout)
  | int8 => exact congrArg Except.ok (printDefault_value (e := .int8) bne_iff_ne fun _ => rfl)
  | int16 => exact congrArg Except.ok (printDefault_value (e := .int16) bne_iff_ne fun _ => rfl)
  | int32 => exact congrArg Except.ok (printDefault_value (e := .int32) bne_iff_ne fun _ => rfl)
  | int64 => exact congrArg Except.ok (printDefault_value (e := .int64) bne_iff_ne fun _ => rfl)
  | uint8 => exact congrArg Except.ok (printDefault_value (e := .uint8) bne_iff_ne fun _ => rfl)
  | uint16 => exact congrArg Except.ok (printDefault_value (e := .uint16) bne_iff_ne fun _ => rfl)
  | uint32 => exact congrArg Except.ok (printDefault_value (e := .uint32) bne_iff_ne fun _ => rfl)
  | uint64 => exact congrArg Except.ok (printDefault_value (e := .uint64) bne_iff_ne fun _ => rfl)
  | float32 => exact congrArg Except.ok (printDefault_value (e := .float32) Iff.rfl fun _ => rfl)
  | float64 => exact congrArg Except.ok (printDefault_value (e := .float64) Iff.rfl fun _ => rfl)
  | string => exact congrArg Except.ok (printDefault_value (e := .string) bne_iff_ne fun _ => rfl)

/-- Without a `print` callback, a default is printed as the texts of what it has to show. -/
theorem printDefault_filled (fl : Floats) (g : UInt64 → Bytes) {t : FlagType} {d : t.Default}
    (h : t.Filled d) :
    t.printDefault fl g none d = .ok (t.render ((t.shown fl d).map (t.elem.format fl g))) := by
  obtain ⟨e, array⟩ := t
  cases array with
  | true =>
    obtain ⟨l, hl, hlen⟩ := h
    have hshown : FlagType.shown fl ⟨e, true⟩ d = l := by
      unfold FlagType.shown
      dsimp only
      rw [hl, List.filterMap_map]
      exact List.filterMap_some
    rw [printDefault_array, hshown]
    exact printArrayDefault_filled (t := ⟨e, true⟩) rfl (e.format fl g) hl hlen
  | false => exact printDefault_scalar fl g e d

theorem printDefault_total (fl : Floats) (g : UInt64 → Bytes) (print : Option Bytes)
    {t : FlagType} {d : t.Default} (h : t.Filled d) :
    ∃ out, t.printDefault fl g print d = .ok out := by
  cases print with
  | none => exact ⟨_, printDefault_filled fl g h⟩
  | some s =>
    obtain ⟨e, array⟩ := t
    cases array with
    | false => cases e <;> exact ⟨_, rfl⟩
    | true =>
      rw [printDefault_array]
      unfold printArrayDefaultFunc
      split
      · exact ⟨_, rfl⟩
      · exact ⟨_, rfl⟩
      · rename_i hprint _
        cases hprint
      · rename_i hprint _ _
        cases hprint

end LibeventHttpServe.Flags
