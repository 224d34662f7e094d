import LibeventHttpServe.Flags.Handlers

/-!
# Array flags (flags.c:40-110, 644-1081)

`ppp_c_flags_gropw` and the `set_flag` of the array types. The lengths and the
sizes are of `size_t` and wrap. A cell of a buffer is `none` while its contents are
indeterminate; the elements that a copy takes from behind a buffer are such cells. To
copy anything from the null pointer is a fault, and so is to write there.
-/

namespace LibeventHttpServe.Flags

open LibeventHttpServe.Lib

/-- `ppp_c_flags_*_array_t` with the buffer it points to, and `_set_value` of the
flag. -/
structure ArrayCell (α : Type) where
  p : Option Ptr
  cells : List (Option α)
  cap : UInt64
  len : UInt64
  setValue : Bool

/-- The answer of the allocator to a request. No object is larger than `PTRDIFF_MAX`
bytes. -/
structure Malloc where
  answer : UInt64 → Option Ptr
  refuses : ∀ bytes, 2 ^ 63 ≤ bytes.toNat → answer bytes = none

/-- What a growth leaves: the array, the number of elements that were read from the
old buffer, and the buffer that was freed. -/
structure Growth (α : Type) where
  cell : ArrayCell α
  copied : ℕ
  freed : Option Ptr

variable {α : Type}

/-- `calculate capacity`, for a length and the missing room `n` (`flags.c:70-83`). -/
def wantedCap (a : ArrayCell α) (len n : UInt64) : UInt64 :=
  if a.cap = 0 ∧ n < 64 then 64
  else
    let cap := (if a.cap ≠ 0 then a.cap else 64) * 2
    let c := len + n
    if cap ≤ c then c else cap

/-- The bounds by the number of the arguments left and by the length
(`flags.c:84-95`). -/
def clampCap (cap len argc : UInt64) : UInt64 :=
  let argc := argc + 1 + len
  let cap := if argc < cap then argc else cap
  if cap < len + 1 then len + 1 else cap

/-- What `ppp_c_flags_gropw` leaves if its `memcpy` can read; `none` is the return
value -1. -/
def growBuffer (size : UInt64) (argc : UInt64) (malloc : Malloc) (a : ArrayCell α) :
    Option (Growth α) :=
  let len : UInt64 := if a.setValue then a.len else 0
  let available := if a.cap ≠ 0 then a.cap - len else 0
  let n := if a.cap ≠ 0 then 1 else 1 + len
  if available < n then
    let cap := clampCap (wantedCap a len (n - available)) len argc
    match malloc.answer (cap * size) with
    | none => none
    | some p =>
      let count := (cap * size).toNat / size.toNat
      let cells := a.cells.take count ++ List.replicate (count - a.cells.length) none
      some ⟨⟨p, cells, cap, len, true⟩, count, if a.cap ≠ 0 then a.p else none⟩
  else some ⟨{ a with len := len, setValue := true }, 0, none⟩

/-- `ppp_c_flags_gropw`: `memcpy(ptr, p->p, size * cap)` does not return from the null
pointer. -/
def gropw (size : UInt64) (argc : UInt64) (malloc : Malloc) (a : ArrayCell α) :
    Checked (Option (Growth α)) :=
  match growBuffer size argc malloc a with
  | none => pure none
  | some g => if a.p = none ∧ g.copied ≠ 0 then .error .read else pure (some g)

/-- `vals->p[vals->len++] = new_value`. -/
def ArrayCell.push (a : ArrayCell α) (v : α) : Checked (ArrayCell α) :=
  match a.p with
  | none => .error .write
  | some _ => do
    let cells ← writeAt a.cells a.len.toNat (some v)
    pure { a with cells := cells, len := a.len + 1 }

/-- The `set_flag` of an array type: the value is parsed and verified as by the
handler of its elements, and is put behind those of the array. -/
def arraySetFlag (size : UInt64) (value : Checked (Except ℤ α)) (n : UInt64) (malloc : Malloc)
    (a : ArrayCell α) : Checked (ℤ × ArrayCell α) := do
  match ← value with
  | .error err => pure (err, a)
  | .ok v =>
    match ← gropw size n malloc a with
    | none => pure (-1, a)
    | some g => do
      let b ← g.cell.push v
      pure (0, b)

/-- `sizeof` the elements of an array. -/
def ElemType.size : ElemType → UInt64
  | .bool => 1
  | .int8 => 1
  | .int16 => 2
  | .int32 => 4
  | .int64 => 8
  | .uint8 => 1
  | .uint16 => 2
  | .uint32 => 4
  | .uint64 => 8
  | .float32 => 4
  | .float64 => 8
  | .string => 8

section Handlers

variable (fl : Floats) (s : Bytes) (sLen : ℕ) (n : UInt64) (malloc : Malloc)

/-- `ppp_c_flags_handler_bool_array_set_flag`. -/
def handlerBoolArraySetFlag (verify : Option (UInt8 → ℤ)) :=
  arraySetFlag 1 (handlerBoolSetFlag verify s sLen) n malloc

/-- `ppp_c_flags_handler_int8_array_set_flag`. -/
def handlerInt8ArraySetFlag (verify : Option (Int8 → ℤ)) :=
  arraySetFlag 1 (handlerInt8SetFlag verify s sLen) n malloc

/-- `ppp_c_flags_handler_int16_array_set_flag`. -/
def handlerInt16ArraySetFlag (verify : Option (Int16 → ℤ)) :=
  arraySetFlag 2 (handlerInt16SetFlag verify s sLen) n malloc

/-- `ppp_c_flags_handler_int32_array_set_flag`. -/
def handlerInt32ArraySetFlag (verify : Option (Int32 → ℤ)) :=
  arraySetFlag 4 (handlerInt32SetFlag verify s sLen) n malloc

/-- `ppp_c_flags_handler_int64_array_set_flag`. -/
def handlerInt64ArraySetFlag (verify : Option (Int64 → ℤ)) :=
  arraySetFlag 8 (handlerInt64SetFlag verify s sLen) n malloc

/-- `ppp_c_flags_handler_uint8_array_set_flag`. -/
def handlerUint8ArraySetFlag (verify : Option (UInt8 → ℤ)) :=
  arraySetFlag 1 (handlerUint8SetFlag verify s sLen) n malloc

/-- `ppp_c_flags_handler_uint16_array_set_flag`. -/
def handlerUint16ArraySetFlag (verify : Option (UInt16 → ℤ)) :=
  arraySetFlag 2 (handlerUint16SetFlag verify s sLen) n malloc

/-- `ppp_c_flags_handler_uint32_array_set_flag`. -/
def handlerUint32ArraySetFlag (verify : Option (UInt32 → ℤ)) :=
  arraySetFlag 4 (handlerUint32SetFlag verify s sLen) n malloc

/-- `ppp_c_flags_handler_uint64_array_set_flag`. -/
def handlerUint64ArraySetFlag (verify : Option (UInt64 → ℤ)) :=
  arraySetFlag 8 (handlerUint64SetFlag verify s sLen) n malloc

/-- `ppp_c_flags_handler_float32_array_set_flag`. -/
def handlerFloat32ArraySetFlag (verify : Option (UInt32 → ℤ)) :=
  arraySetFlag 4 (handlerFloat32SetFlag fl verify s) n malloc

/-- `ppp_c_flags_handler_float64_array_set_flag`. -/
def handlerFloat64ArraySetFlag (verify : Option (UInt64 → ℤ)) :=
  arraySetFlag 8 (handlerFloat64SetFlag fl verify s) n malloc

/-- `ppp_c_flags_handler_string_array_set_flag`. -/
def handlerStringArraySetFlag (verify : Option (Bytes → ℤ)) :=
  arraySetFlag 8 (handlerStringSetFlag verify s) n malloc

end Handlers

/-- What `_value` of a flag points to, with the fields of the flag that its handler
writes. -/
abbrev FlagType.Cell : FlagType → Type
  | ⟨e, false⟩ => e.Value
  | ⟨e, true⟩ => ArrayCell e.Value

/-- `flag->_handler->set_flag(flag, s, s_len, n)` for the handler of a type. -/
def FlagType.setFlag (fl : Floats) : (t : FlagType) → Option (t.elem.Value → ℤ) → Bytes → ℕ →
    UInt64 → Malloc → t.Cell → Checked (ℤ × t.Cell)
  | ⟨e, false⟩, verify, s, sLen, _, _, old => do
    match ← e.setFlag fl verify s sLen with
    | .error err => pure (err, old)
    | .ok v => pure (0, v)
  | ⟨.bool, true⟩, verify, s, sLen, n, m, a => handlerBoolArraySetFlag s sLen n m verify a
  | ⟨.int8, true⟩, verify, s, sLen, n, m, a => handlerInt8ArraySetFlag s sLen n m verify a
  | ⟨.int16, true⟩, verify, s, sLen, n, m, a => handlerInt16ArraySetFlag s sLen n m verify a
  | ⟨.int32, true⟩, verify, s, sLen, n, m, a => handlerInt32ArraySetFlag s sLen n m verify a
  | ⟨.int64, true⟩, verify, s, sLen, n, m, a => handlerInt64ArraySetFlag s sLen n m verify a
  | ⟨.uint8, true⟩, verify, s, sLen, n, m, a => handlerUint8ArraySetFlag s sLen n m verify a
  | ⟨.uint16, true⟩, verify, s, sLen, n, m, a => handlerUint16ArraySetFlag s sLen n m verify a
  | ⟨.uint32, true⟩, verify, s, sLen, n, m, a => handlerUint32ArraySetFlag s sLen n m verify a
  | ⟨.uint64, true⟩, verify, s, sLen, n, m, a => handlerUint64ArraySetFlag s sLen n m verify a
  | ⟨.float32, true⟩, verify, s, _, n, m, a => handlerFloat32ArraySetFlag fl s n m verify a
  | ⟨.float64, true⟩, verify, s, _, n, m, a => handlerFloat64ArraySetFlag fl s n m verify a
  | ⟨.string, true⟩, verify, s, _, n, m, a => handlerStringArraySetFlag s n m verify a

theorem setFlag_array (fl : Floats) (e : ElemType) (verify : Option (e.Value → ℤ)) (s : Bytes)
    (sLen : ℕ) (n : UInt64) (malloc : Malloc) (a : ArrayCell e.Value) :
    FlagType.setFlag fl ⟨e, true⟩ verify s sLen n malloc a =
      arraySetFlag e.size (e.setFlag fl verify s sLen) n malloc a := by
  cases e <;> rfl

/-! ### Growth -/

/-- The buffer of an array on the heap: it has the room that `cap` names, and is an
object in memory. -/
structure Owned (size : UInt64) (a : ArrayCell α) : Prop where
  len_le : a.len ≤ a.cap
  room : a.cells.length = a.cap.toNat
  object : a.cap.toNat * size.toNat < 2 ^ 63

/-- An array flag as it is registered: its default belongs to the caller (`cap = 0`)
or is a heap array. -/
def Registered (size : UInt64) (a : ArrayCell α) : Prop :=
  a.setValue = false ∧ (a.cap = 0 ∨ Owned size a)

theorem clampCap_spec {len cap : UInt64} (argc : UInt64) (h : len < cap) :
    len < clampCap cap len argc ∧ clampCap cap len argc ≤ cap := by
  have hlt := UInt64.lt_iff_toNat_lt.mp h
  have hmax := cap.toNat_lt
  have hsucc : (len + 1).toNat = len.toNat + 1 := by
    rw [UInt64.toNat_add, UInt64.toNat_one]
    exact Nat.mod_eq_of_lt (by omega)
  unfold clampCap
  simp only [UInt64.lt_iff_toNat_lt, UInt64.le_iff_toNat_le]
  split_ifs <;> omega

/- The capacity wanted for a full array leaves room, and it is at most twice the old
one or 64. -/
theorem wantedCap_spec {a : ArrayCell α} {len : UInt64}
    (h : (a.cap = 0 ∧ len = 0) ∨ (a.cap ≠ 0 ∧ len = a.cap ∧ a.cap.toNat < 2 ^ 63)) :
    len < wantedCap a len 1 ∧ (wantedCap a len 1).toNat ≤ max 64 (2 * a.cap.toNat) := by
  unfold wantedCap
  rcases h with ⟨hcap, rfl⟩ | ⟨hcap, rfl, hmax⟩
  · rw [if_pos ⟨hcap, by decide⟩]
    exact ⟨by decide, Nat.le_max_left _ _⟩
  · have hpos : a.cap.toNat ≠ 0 := fun h0 => hcap (UInt64.toNat_inj.mp h0)
    have hdouble : (a.cap * 2).toNat = 2 * a.cap.toNat := by
      rw [UInt64.toNat_mul, show (2 : UInt64).toNat = 2 from rfl, Nat.mul_comm]
      exact Nat.mod_eq_of_lt (by omega)
    have hsucc : (a.cap + 1).toNat = a.cap.toNat + 1 := by
      rw [UInt64.toNat_add, UInt64.toNat_one]
      exact Nat.mod_eq_of_lt (by omega)
    rw [if_neg (fun hc => hcap hc.1), if_pos hcap, UInt64.lt_iff_toNat_lt]
    dsimp only
    split_ifs <;> omega

theorem size_bounds (e : ElemType) : 1 ≤ e.size.toNat ∧ e.size.toNat ≤ 8 := by
  cases e <;> decide

/-- The length that a growth starts from: it is reset on the first use. -/
def startLen (a : ArrayCell α) : UInt64 := if a.setValue then a.len else 0

/-- The array belongs to the caller and is not used yet, or it is on the heap. -/
def Usable (size : UInt64) (a : ArrayCell α) : Prop :=
  (a.cap = 0 ∧ a.setValue = false) ∨ (a.cap ≠ 0 ∧ Owned size a)

/-- A growth leaves a buffer with room for one more element behind those of the
array. -/
structure Grown (size : UInt64) (a : ArrayCell α) (b : ArrayCell α) : Prop where
  owned : Owned size b
  len_eq : b.len = startLen a
  lt_cap : b.len < b.cap
  setValue : b.setValue = true
  kept : b.cells.take b.len.toNat = a.cells.take b.len.toNat
  address : b.p = none → a.p = none

/- The copy into a new buffer of `cap` elements. -/
theorem grown_copy {size cap : UInt64} {malloc : Malloc} {a : ArrayCell α} {p : Ptr}
    (hsize : 1 ≤ size.toNat ∧ size.toNat ≤ 8) (hlen : (startLen a).toNat ≤ a.cells.length)
    (hlt : startLen a < cap) (hwrap : cap.toNat * size.toNat < 2 ^ 64)
    (hm : malloc.answer (cap * size) = some p) :
    let count := (cap * size).toNat / size.toNat
    Grown size a ⟨some p, a.cells.take count ++ List.replicate (count - a.cells.length) none, cap,
      startLen a, true⟩ := by
  intro count
  have hbytes : (cap * size).toNat = cap.toNat * size.toNat := by
    rw [UInt64.toNat_mul]
    exact Nat.mod_eq_of_lt hwrap
  have hcount : count = cap.toNat := by
    show (cap * size).toNat / size.toNat = cap.toNat
    rw [hbytes]
    exact Nat.mul_div_cancel _ hsize.1
  have hobject : (cap * size).toNat < 2 ^ 63 := by
    by_contra hbig
    rw [malloc.refuses _ (by omega)] at hm
    cases hm
  have hlt' := UInt64.lt_iff_toNat_lt.mp hlt
  refine ⟨⟨UInt64.le_of_lt hlt, ?_, ?_⟩, rfl, hlt, rfl, ?_, nofun⟩
  · show (a.cells.take count ++ List.replicate (count - a.cells.length) none).length = cap.toNat
    rw [List.length_append, List.length_take, List.length_replicate, ← hcount]
    omega
  · rw [hbytes] at hobject
    exact hobject
  · show (a.cells.take count ++ _).take (startLen a).toNat = a.cells.take (startLen a).toNat
    rw [List.take_append_of_le_length (by rw [List.length_take]; omega), List.take_take,
      Nat.min_eq_left (by omega)]

/-- The array in a new buffer of `cap` elements. -/
def copied (size cap : UInt64) (a : ArrayCell α) (p : Ptr) : Growth α :=
  let count := (cap * size).toNat / size.toNat
  ⟨⟨some p, a.cells.take count ++ List.replicate (count - a.cells.length) none, cap,
    startLen a, true⟩, count, if a.cap ≠ 0 then a.p else none⟩

theorem growBuffer_full {size argc : UInt64} {malloc : Malloc} {a : ArrayCell α}
    (h : (a.cap = 0 ∧ startLen a = 0) ∨ (a.cap ≠ 0 ∧ startLen a = a.cap)) :
    growBuffer size argc malloc a =
      let cap := clampCap (wantedCap a (startLen a) 1) (startLen a) argc
      (malloc.answer (cap * size)).map (copied size cap a) := by
  have hmap {β : Type} (o : Option Ptr) (f : Ptr → β) :
      (match o with | none => none | some p => some (f p)) = o.map f := by
    cases o <;> rfl
  have havail : (if a.cap ≠ 0 then a.cap - startLen a else 0) = 0 := by
    rcases h with ⟨hcap, -⟩ | ⟨hcap, hlen⟩
    · exact if_neg (not_not.mpr hcap)
    · rw [if_pos hcap, hlen, UInt64.sub_self]
  have hn : (if a.cap ≠ 0 then 1 else 1 + startLen a) = 1 := by
    rcases h with ⟨hcap, hlen⟩ | ⟨hcap, -⟩
    · rw [if_neg (not_not.mpr hcap), hlen]
      rfl
    · exact if_pos hcap
  have hlt : (0 : UInt64) < 1 := by decide
  have hsub : (1 : UInt64) - 0 = 1 := by decide
  unfold growBuffer copied
  rw [show (if a.setValue = true then a.len else 0) = startLen a from rfl]
  simp only [havail, hn, hlt, if_true, hsub]
  exact hmap _ _

theorem growBuffer_room {size argc : UInt64} {malloc : Malloc} {a : ArrayCell α} (hcap : a.cap ≠ 0)
    (hlt : startLen a < a.cap) :
    growBuffer size argc malloc a =
      some ⟨{ a with len := startLen a, setValue := true }, 0, none⟩ := by
  have havail : ¬ a.cap - startLen a < 1 := by
    have hlt' := UInt64.lt_iff_toNat_lt.mp hlt
    rw [UInt64.lt_iff_toNat_lt, UInt64.toNat_sub_of_le _ _ (UInt64.le_of_lt hlt), UInt64.toNat_one]
    omega
  unfold growBuffer
  rw [show (if a.setValue = true then a.len else 0) = startLen a from rfl]
  simp only [ne_eq, hcap, not_false_eq_true, if_true, havail, if_false]

theorem startLen_le {size : UInt64} {a : ArrayCell α} (ho : Owned size a) :
    startLen a ≤ a.cap := by
  unfold startLen
  split_ifs
  · exact ho.len_le
  · exact UInt64.le_iff_toNat_le.mpr (Nat.zero_le _)

theorem growBuffer_spec {size argc : UInt64} {malloc : Malloc} {a : ArrayCell α} {g : Growth α}
    (hsize : 1 ≤ size.toNat ∧ size.toNat ≤ 8) (ha : Usable size a)
    (h : growBuffer size argc malloc a = some g) : Grown size a g.cell := by
  have hfull (hlen : (startLen a).toNat ≤ a.cells.length)
      (hobject : a.cap.toNat * size.toNat < 2 ^ 63)
      (hcase : (a.cap = 0 ∧ startLen a = 0) ∨ (a.cap ≠ 0 ∧ startLen a = a.cap)) :
      Grown size a g.cell := by
    have hmax : a.cap.toNat < 2 ^ 63 :=
      Nat.lt_of_le_of_lt (Nat.le_mul_of_pos_right _ hsize.1) hobject
    obtain ⟨hlt, hle⟩ := @wantedCap_spec _ a (startLen a)
      (hcase.imp_right fun hc => ⟨hc.1, hc.2, hmax⟩)
    obtain ⟨hlt', hle'⟩ := clampCap_spec argc hlt
    rw [growBuffer_full hcase] at h
    obtain ⟨p, hm, rfl⟩ := Option.map_eq_some_iff.mp h
    refine grown_copy hsize hlen hlt' ?_ hm
    -- the new capacity is at most twice the old one, which is that of an object
    have hcap := Nat.le_trans (UInt64.le_iff_toNat_le.mp hle') hle
    have hmul : _ * size.toNat ≤ max 64 (2 * a.cap.toNat) * size.toNat :=
      Nat.mul_le_mul_right _ hcap
    rcases Nat.le_total 64 (2 * a.cap.toNat) with hbig | hsmall
    · rw [Nat.max_eq_right hbig, Nat.mul_assoc] at hmul
      omega
    · rw [Nat.max_eq_left hsmall] at hmul
      omega
  rcases ha with ⟨hcap, hset⟩ | ⟨hcap, ho⟩
  · have hzero : startLen a = 0 := by
      unfold startLen
      rw [hset]
      rfl
    refine hfull ?_ ?_ (Or.inl ⟨hcap, hzero⟩)
    · rw [hzero]
      exact Nat.zero_le _
    · rw [hcap]
      simp
  · have hle := startLen_le ho
    by_cases heq : startLen a = a.cap
    · refine hfull ?_ ho.object (Or.inr ⟨hcap, heq⟩)
      rw [heq, ho.room]
    · have hlt : startLen a < a.cap := UInt64.lt_of_le_of_ne hle heq
      rw [growBuffer_room hcap hlt] at h
      cases h
      exact ⟨⟨hle, ho.room, ho.object⟩, rfl, hlt, rfl, rfl, id⟩

/-- The growth of `a` is one of the null pointer: the call that makes it copies from there,
or stores its value there. -/
def NullAccess (a : ArrayCell α) (growth : Option (Growth α)) : Prop :=
  a.p = none ∧ growth ≠ none

section Null

variable {size argc : UInt64} {malloc : Malloc} {a : ArrayCell α} {g : Growth α}

/- A growth copies into all of a new buffer, or keeps the old one. -/
theorem growBuffer_fills (h : growBuffer size argc malloc a = some g) :
    g.copied = g.cell.cells.length ∨ g.cell.p = a.p := by
  unfold growBuffer at h
  dsimp only at h
  generalize (if a.setValue = true then a.len else 0) = len at h
  generalize (if a.cap ≠ 0 then a.cap - len else 0) = available at h
  generalize (if a.cap ≠ 0 then 1 else 1 + len) = need at h
  split at h
  · generalize clampCap (wantedCap a len (need - available)) len argc = cap at h
    cases hm : malloc.answer (cap * size) with
    | none =>
      rw [hm] at h
      cases h
    | some q =>
      rw [hm] at h
      obtain rfl := Option.some.inj h
      left
      dsimp only
      rw [List.length_append, List.length_take, List.length_replicate]
      omega
  · obtain rfl := Option.some.inj h
    exact Or.inr rfl

theorem gropw_eq {growth : Option (Growth α)} (h : gropw size argc malloc a = .ok growth) :
    growBuffer size argc malloc a = growth := by
  unfold gropw at h
  cases hg : growBuffer size argc malloc a with
  | none =>
    rw [hg] at h
    exact Except.ok.inj h
  | some g =>
    rw [hg] at h
    dsimp only at h
    split at h
    · cases h
    · exact Except.ok.inj h

theorem gropw_ok (hp : a.p ≠ none) :
    gropw size argc malloc a = .ok (growBuffer size argc malloc a) := by
  unfold gropw
  cases growBuffer size argc malloc a with
  | none => rfl
  | some g => exact if_neg fun hnull => hp hnull.1

end Null

/-! ### One call -/

/-- `v` stands behind the elements of `a`. -/
structure ArrayAppended (size : UInt64) (a : ArrayCell α) (v : α) (b : ArrayCell α) : Prop where
  owned : Owned size b
  setValue : b.setValue = true
  len_eq : b.len.toNat = (startLen a).toNat + 1
  elements : b.cells.take b.len.toNat = a.cells.take (startLen a).toNat ++ [some v]
  address : b.p ≠ none

theorem push_null {b : ArrayCell α} (h : b.p = none) (v : α) : b.push v = .error .write := by
  unfold ArrayCell.push
  rw [h]

theorem push_eq {b c : ArrayCell α} {v : α} (h : b.push v = .ok c) :
    b.p ≠ none ∧ writeAt b.cells b.len.toNat (some v) = .ok c.cells ∧
      c = { b with cells := c.cells, len := b.len + 1 } := by
  unfold ArrayCell.push at h
  cases hp : b.p with
  | none =>
    rw [hp] at h
    cases h
  | some p =>
    rw [hp] at h
    cases hw : writeAt b.cells b.len.toNat (some v) with
    | error fault =>
      rw [hw] at h
      cases h
    | ok cells =>
      rw [hw] at h
      obtain rfl := Except.ok.inj h
      exact ⟨nofun, rfl, rfl⟩

theorem Grown.append {size : UInt64} {a b : ArrayCell α} (h : Grown size a b) (hp : b.p ≠ none)
    (v : α) : ∃ c, b.push v = .ok c ∧ ArrayAppended size a v c ∧ c.p = b.p := by
  have hlt := UInt64.lt_iff_toNat_lt.mp h.lt_cap
  have hmax := b.cap.toNat_lt
  have hroom := h.owned.room
  have hsucc : (b.len + 1).toNat = b.len.toNat + 1 := by
    rw [UInt64.toNat_add, UInt64.toNat_one]
    exact Nat.mod_eq_of_lt (by omega)
  have hpush : b.push v =
      .ok { b with cells := b.cells.set b.len.toNat (some v), len := b.len + 1 } := by
    obtain ⟨p, hp⟩ := Option.ne_none_iff_exists'.mp hp
    unfold ArrayCell.push
    rw [hp, writeAt_ok (by omega)]
    rfl
  refine ⟨_, hpush, ⟨⟨?_, ?_, h.owned.object⟩, h.setValue, ?_, ?_, hp⟩, rfl⟩
  · rw [UInt64.le_iff_toNat_le, hsucc]
    exact hlt
  · rw [List.length_set, hroom]
  · rw [hsucc, h.len_eq]
  · show (b.cells.set b.len.toNat (some v)).take (b.len + 1).toNat = _
    rw [hsucc, ← h.len_eq, ← h.kept, List.take_add_one, List.take_set_of_le (Nat.le_refl _),
      List.getElem?_set_self (by omega)]
    rfl

theorem arraySetFlag_null {size : UInt64} {value : Checked (Except ℤ α)} {a : ArrayCell α} {v : α}
    (hsize : 1 ≤ size.toNat ∧ size.toNat ≤ 8) (ha : Usable size a) (hv : value = .ok (.ok v))
    {n : UInt64} {malloc : Malloc} (h : NullAccess a (growBuffer size n malloc a)) :
    ∃ fault, arraySetFlag size value n malloc a = .error fault := by
  obtain ⟨hp, hgrowth⟩ := h
  obtain ⟨g, hg⟩ := Option.ne_none_iff_exists'.mp hgrowth
  unfold arraySetFlag
  rw [hv, ok_bind]
  dsimp only
  by_cases hcopied : g.copied = 0
  · -- there is room, and the value is written
    have hgropw : gropw size n malloc a = .ok (some g) := by
      unfold gropw
      rw [hg]
      exact if_neg fun hnull => hnull.2 hcopied
    have hnull : g.cell.p = none := by
      rcases growBuffer_fills hg with hlen | hsame
      · have hgrown := growBuffer_spec hsize ha hg
        have hlt := UInt64.lt_iff_toNat_lt.mp hgrown.lt_cap
        rw [hcopied, hgrown.owned.room] at hlen
        omega
      · exact hsame.trans hp
    rw [hgropw, ok_bind]
    dsimp only
    rw [push_null hnull]
    exact ⟨.write, rfl⟩
  · have hgropw : gropw size n malloc a = .error .read := by
      unfold gropw
      rw [hg]
      exact if_pos ⟨hp, hcopied⟩
    rw [hgropw]
    exact ⟨.read, rfl⟩

theorem arraySetFlag_refused {size : UInt64} {value : Checked (Except ℤ α)} {a : ArrayCell α}
    {v : α} (hv : value = .ok (.ok v)) {n : UInt64} {malloc : Malloc}
    (hg : growBuffer size n malloc a = none) :
    arraySetFlag size value n malloc a = .ok (-1, a) := by
  have hrefused : gropw size n malloc a = .ok none := by
    unfold gropw
    rw [hg]
    rfl
  unfold arraySetFlag
  rw [hv, ok_bind]
  dsimp only
  rw [hrefused]
  rfl

theorem arraySetFlag_grown {size : UInt64} {value : Checked (Except ℤ α)} {a : ArrayCell α} {v : α}
    (hsize : 1 ≤ size.toNat ∧ size.toNat ≤ 8) (ha : Usable size a) (hv : value = .ok (.ok v))
    {n : UInt64} {malloc : Malloc} {g : Growth α} (hg : growBuffer size n malloc a = some g)
    (hp : a.p ≠ none) :
    ∃ b, arraySetFlag size value n malloc a = .ok (0, b) ∧ ArrayAppended size a v b ∧
      b.p = g.cell.p := by
  have hgrown := growBuffer_spec hsize ha hg
  obtain ⟨b, hpush, happ, hbp⟩ := hgrown.append (fun hnone => hp (hgrown.address hnone)) v
  refine ⟨b, ?_, happ, hbp⟩
  unfold arraySetFlag
  rw [hv, ok_bind]
  dsimp only
  rw [gropw_ok hp, hg, ok_bind]
  dsimp only
  rw [hpush]
  rfl

/-- A call of `set_flag` that does not use the null pointer either fails and leaves the
array as it was, or appends the value that it parsed. -/
theorem arraySetFlag_spec {size : UInt64} {value : Checked (Except ℤ α)} {a : ArrayCell α}
    (hsize : 1 ≤ size.toNat ∧ size.toNat ≤ 8) (ha : Usable size a) (hv : Proper value)
    {n : UInt64} {malloc : Malloc}
    (hp : ∀ v, value = .ok (.ok v) → ¬ NullAccess a (growBuffer size n malloc a)) :
    ∃ r b, arraySetFlag size value n malloc a = .ok (r, b) ∧
      ((r ≠ 0 ∧ b = a) ∨ (r = 0 ∧ ∃ v, value = .ok (.ok v) ∧ ArrayAppended size a v b)) := by
  obtain ⟨res, rfl, herr⟩ := hv
  cases res with
  | error err => exact ⟨err, a, rfl, Or.inl ⟨herr err rfl, rfl⟩⟩
  | ok v =>
    cases hg : growBuffer size n malloc a with
    | none => exact ⟨-1, a, arraySetFlag_refused rfl hg, Or.inl ⟨by decide, rfl⟩⟩
    | some g =>
      have hnull : a.p ≠ none :=
        fun hnone => hp v rfl ⟨hnone, Option.ne_none_iff_exists'.mpr ⟨g, hg⟩⟩
      obtain ⟨b, hrun, happ, -⟩ := arraySetFlag_grown hsize ha rfl hg hnull
      exact ⟨0, b, hrun, Or.inr ⟨rfl, v, rfl, happ⟩⟩

/-! ### Any sequence of calls -/

/-- One call of `set_flag` with what the callback and the allocator answer to it. -/
structure ArrayCall (e : ElemType) where
  s : Bytes
  n : UInt64
  verify : Option (e.Value → ℤ)
  malloc : Malloc

def ArrayCall.value (fl : Floats) {e : ElemType} (c : ArrayCall e) : Checked (Except ℤ e.Value) :=
  e.setFlag fl c.verify c.s c.s.length

def ArrayCall.run (fl : Floats) {e : ElemType} (c : ArrayCall e) (a : ArrayCell e.Value) :
    Checked (ℤ × ArrayCell e.Value) :=
  FlagType.setFlag fl ⟨e, true⟩ c.verify c.s c.s.length c.n c.malloc a

/-- The value that a call parses, as a list. -/
def ArrayCall.parsed (fl : Floats) {e : ElemType} (c : ArrayCall e) : List e.Value :=
  match c.value fl with
  | .ok (.ok v) => [v]
  | _ => []

/-- The array of a flag with the values of the calls that returned 0, in their order. -/
structure ArrayRun (α : Type) where
  cell : ArrayCell α
  values : List α

/-- The growth that a call makes, when its value is taken. -/
def ArrayCall.growth (fl : Floats) {e : ElemType} (c : ArrayCall e) (a : ArrayCell e.Value) :
    Option (Growth e.Value) :=
  match c.value fl with
  | .ok (.ok _) => growBuffer e.size c.n c.malloc a
  | _ => none

/-- Calls of `set_flag` that return: none does that uses the null pointer. -/
def arraySystem (fl : Floats) (e : ElemType) (default : ArrayCell e.Value) :
    System (ArrayRun e.Value) (ArrayCall e) where
  init s := s = ⟨default, []⟩
  step s c :=
    match c.run fl s.cell with
    | .ok (r, a) => some ⟨a, if r = 0 then s.values ++ c.parsed fl else s.values⟩
    | .error _ => none

/-- Before the first success the array is the default, and behind it the array holds
the values given, in a buffer on the heap. -/
inductive Accumulated (size : UInt64) (default : ArrayCell α) (s : ArrayRun α) : Prop where
  | unused (hvalues : s.values = []) (hcell : s.cell = default)
  | used (hvalues : s.values ≠ []) (howned : Owned size s.cell) (hset : s.cell.setValue = true)
      (hlen : s.cell.len.toNat = s.values.length)
      (helements : s.cell.cells.take s.values.length = s.values.map some)

theorem Accumulated.usable {size : UInt64} {default : ArrayCell α} {s : ArrayRun α}
    (hd : Registered size default) (h : Accumulated size default s) : Usable size s.cell := by
  cases h with
  | unused _ hcell =>
    rw [hcell]
    obtain ⟨hset, hcap⟩ := hd
    by_cases h0 : default.cap = 0
    · exact Or.inl ⟨h0, hset⟩
    · exact Or.inr ⟨h0, hcap.resolve_left h0⟩
  | used hvalues howned _ hlen _ =>
    refine Or.inr ⟨?_, howned⟩
    intro h0
    have hle := UInt64.le_iff_toNat_le.mp howned.len_le
    have hpos := List.length_pos_iff.mpr hvalues
    rw [h0, hlen] at hle
    exact absurd hle (Nat.not_le.mpr hpos)

theorem Accumulated.append {size : UInt64} {default : ArrayCell α} {s : ArrayRun α}
    (hd : Registered size default) (h : Accumulated size default s) {v : α} {b : ArrayCell α}
    (hb : ArrayAppended size s.cell v b) : Accumulated size default ⟨b, s.values ++ [v]⟩ := by
  have hstart : (startLen s.cell).toNat = s.values.length ∧
      s.cell.cells.take s.values.length = s.values.map some := by
    cases h with
    | unused hvalues hcell =>
      have hzero : startLen default = 0 := by
        unfold startLen
        rw [hd.1]
        rfl
      rw [hvalues, hcell, hzero]
      exact ⟨rfl, rfl⟩
    | used _ _ hset hlen helements =>
      have hkept : startLen s.cell = s.cell.len := if_pos hset
      rw [hkept]
      exact ⟨hlen, helements⟩
  have hlen := hb.len_eq
  have helements := hb.elements
  rw [hstart.1] at hlen
  rw [hlen, hstart.1, hstart.2] at helements
  refine .used (by simp) hb.owned hb.setValue ?_ ?_
  · rw [hlen, List.length_append]
    rfl
  · rw [List.length_append, List.map_append]
    exact helements

section Calls

variable {fl : Floats} {e : ElemType} {c : ArrayCall e} {a : ArrayCell e.Value}

theorem ArrayCall.run_null (ha : Usable e.size a) (h : NullAccess a (c.growth fl a)) :
    ∃ fault, c.run fl a = .error fault := by
  unfold ArrayCall.run
  rw [setFlag_array]
  unfold ArrayCall.growth at h
  split at h
  · exact arraySetFlag_null (size_bounds e) ha ‹_› h
  · exact (h.2 rfl).elim

theorem ArrayCall.run_spec (ha : Usable e.size a) (h : ¬ NullAccess a (c.growth fl a)) :
    ∃ r b, c.run fl a = .ok (r, b) ∧
      ((r ≠ 0 ∧ b = a) ∨ (r = 0 ∧ ∃ v, c.value fl = .ok (.ok v) ∧ ArrayAppended e.size a v b)) := by
  unfold ArrayCall.run
  rw [setFlag_array]
  refine arraySetFlag_spec (size_bounds e) ha (e.setFlag_proper fl c.verify c.s) ?_
  intro v hv hnull
  apply h
  unfold ArrayCall.growth
  rw [show c.value fl = .ok (.ok v) from hv]
  exact hnull

end Calls

/-- What a step does: the call failed, or it appended the value that it parsed. -/
theorem arraySystem_step {fl : Floats} {e : ElemType} {default : ArrayCell e.Value}
    {s s' : ArrayRun e.Value} {c : ArrayCall e} (ha : Usable e.size s.cell)
    (h : (arraySystem fl e default).step s c = some s') :
    s' = s ∨ ∃ v, ArrayAppended e.size s.cell v s'.cell ∧ s'.values = s.values ++ [v] := by
  replace h : (match c.run fl s.cell with
    | .ok (r, a) => some (⟨a, if r = 0 then s.values ++ c.parsed fl else s.values⟩ :
        ArrayRun e.Value)
    | .error _ => none) = some s' := h
  by_cases hnull : NullAccess s.cell (c.growth fl s.cell)
  · obtain ⟨fault, hfault⟩ := ArrayCall.run_null ha hnull
    rw [hfault] at h
    cases h
  obtain ⟨r, b, hrun, hcase⟩ := ArrayCall.run_spec ha hnull
  rw [hrun] at h
  cases h
  rcases hcase with ⟨hr, rfl⟩ | ⟨hr, v, hv, happ⟩
  · rw [if_neg hr]
    exact Or.inl rfl
  · have hparsed : c.parsed fl = [v] := by rw [ArrayCall.parsed, hv]
    rw [if_pos hr, hparsed]
    exact Or.inr ⟨v, happ, rfl⟩

theorem accumulated_reachable (fl : Floats) (e : ElemType) {default : ArrayCell e.Value}
    (hd : Registered e.size default) {s : ArrayRun e.Value}
    (hs : (arraySystem fl e default).Reachable s) : Accumulated e.size default s := by
  refine hs.invariant (I := Accumulated e.size default) ?_ ?_
  · rintro s rfl
    exact .unused rfl rfl
  · intro s c s' _ hi h
    rcases arraySystem_step (hi.usable hd) h with rfl | ⟨v, happ, hvalues⟩
    · exact hi
    · obtain ⟨cell, values⟩ := s'
      obtain rfl : values = s.values ++ [v] := hvalues
      exact hi.append hd happ

/- An allocator that has memory for every object. -/
def Malloc.always : Malloc where
  answer bytes := if bytes.toNat < 2 ^ 63 then some 1 else none
  refuses bytes h := if_neg (by omega)

/- Three calls of which the second one fails. -/
def uint8ArrayRun : List (ArrayCall .uint8) :=
  [⟨text "1", 2, none, .always⟩, ⟨text "x", 1, none, .always⟩, ⟨text "0x20", 0, none, .always⟩]

/- No text is a floating-point number. -/
def Floats.none : Floats := ⟨fun _ => (0, 0, false), fun _ => 0, fun _ => 0, fun _ _ => false⟩

end LibeventHttpServe.Flags
