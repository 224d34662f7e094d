import LibeventHttpServe.Flags.Arrays
import LibeventHttpServe.Flags.Defaults

/-!
# The buffers of an array flag (flags.c:40-110, 540-1081, 2088-2130)

`_default` of an array flag is a copy of the struct of the variable, so that both point to
one buffer until the variable gets another one. This is the memory that both are in, and
what the usage shows of the default while values are given.
-/

namespace LibeventHttpServe.Flags

open LibeventHttpServe.Lib

variable {α : Type}

/-- A block; blocks are not told apart by their addresses alone, so that `malloc` returns
each of them once. -/
inductive Buffer (α : Type) where
  | unused
  | live (cells : List (Option α))
  | freed

def Buffer.cells : Buffer α → List (Option α)
  | .live cells => cells
  | .unused => []
  | .freed => []

def Buffer.isUnused : Buffer α → Bool
  | .unused => true
  | .live _ => false
  | .freed => false

/-- `ppp_c_flags_*_array_t`. -/
structure ArrayFields where
  p : Option Ptr
  cap : UInt64
  len : UInt64

/-- The variable of an array flag, the flag's `_default` and `_set_value`, and the memory
behind them. -/
structure ArrayMemory (α : Type) where
  value : ArrayFields
  default : ArrayFields
  setValue : Bool
  buffer : Ptr → Buffer α

/-- The flag is added for a variable `a`. -/
def ArrayMemory.register (a : ArrayFields) (buffer : Ptr → Buffer α) : ArrayMemory α :=
  ⟨a, a, false, buffer⟩

section Memory

variable (m : ArrayMemory α)

/-- A struct with the buffer that it points to. -/
def ArrayMemory.load (a : ArrayFields) (setValue : Bool) : ArrayCell α :=
  ⟨a.p, a.p.elim [] fun p => (m.buffer p).cells, a.cap, a.len, setValue⟩

def ArrayMemory.cell : ArrayCell α := m.load m.value m.setValue

/-- The answers that are unused blocks. -/
def ArrayMemory.alloc (malloc : Malloc) : Malloc where
  answer bytes := (malloc.answer bytes).filter fun p => (m.buffer p).isUnused
  refuses bytes h := by rw [malloc.refuses bytes h, Option.filter_none]

def ArrayMemory.free : Option Ptr → ArrayMemory α
  | none => m
  | some p => { m with buffer := Function.update m.buffer p .freed }

def ArrayMemory.store (a : ArrayCell α) : ArrayMemory α :=
  { m with
    value := ⟨a.p, a.cap, a.len⟩
    setValue := a.setValue
    buffer := a.p.elim m.buffer fun p => Function.update m.buffer p (.live a.cells) }

/-- `set_flag` of an array type, with the buffer that `ppp_c_flags_gropw` frees. -/
def ArrayMemory.setFlag (size : UInt64) (value : Checked (Except ℤ α)) (n : UInt64)
    (malloc : Malloc) : Checked (ℤ × ArrayMemory α) := do
  match ← value with
  | .error err => pure (err, m)
  | .ok v =>
    match ← gropw size n (m.alloc malloc) m.cell with
    | none => pure (-1, m)
    | some g => do
      let b ← g.cell.push v
      pure (0, (m.free g.freed).store b)

end Memory

/-- `print_default` of an array flag. -/
def ArrayMemory.printDefault (fl : Floats) (g : UInt64 → Bytes) (print : Option Bytes)
    {e : ElemType} (m : ArrayMemory e.Value) : Checked Bytes :=
  FlagType.printDefault fl g print ⟨e, true⟩ (m.load m.default false)

/-- The memory with the values of the calls that returned 0, in their order. -/
structure MemoryRun (α : Type) where
  memory : ArrayMemory α
  values : List α

/-- Any calls of `set_flag` after the flag was added. -/
def memorySystem (fl : Floats) (e : ElemType) (a : ArrayFields)
    (buffer : Ptr → Buffer e.Value) : System (MemoryRun e.Value) (ArrayCall e) where
  init s := s = ⟨.register a buffer, []⟩
  step s c :=
    match s.memory.setFlag e.size (c.value fl) c.n c.malloc with
    | .ok (r, m) => some ⟨m, if r = 0 then s.values ++ c.parsed fl else s.values⟩
    | .error _ => none

/-! ### The memory and the array -/

section Cell

variable {m m' : ArrayMemory α} {size n : UInt64} {value : Checked (Except ℤ α)}
  {malloc : Malloc} {r : ℤ}

theorem store_cell {a : ArrayCell α} (h : a.p ≠ none) : (m.store a).cell = a := by
  obtain ⟨p, cells, cap, len, setValue⟩ := a
  obtain ⟨q, rfl⟩ := Option.ne_none_iff_exists'.mp h
  simp [ArrayMemory.cell, ArrayMemory.load, ArrayMemory.store, Buffer.cells]

/-- On its memory a call does what it does on the array. -/
theorem setFlag_cell (h : m.setFlag size value n malloc = .ok (r, m')) :
    arraySetFlag size value n (m.alloc malloc) m.cell = .ok (r, m'.cell) := by
  unfold ArrayMemory.setFlag at h
  unfold arraySetFlag
  cases hv : value with
  | error fault =>
    rw [hv] at h
    cases h
  | ok res =>
    rw [hv] at h
    cases res with
    | error err =>
      cases h
      rfl
    | ok v =>
      simp only [ok_bind] at h ⊢
      cases hg : gropw size n (m.alloc malloc) m.cell with
      | error fault =>
        rw [hg] at h
        cases h
      | ok growth =>
        rw [hg] at h
        simp only [ok_bind] at h ⊢
        cases growth with
        | none =>
          cases h
          rfl
        | some g =>
          dsimp only at h ⊢
          cases hb : g.cell.push v with
          | error fault =>
            rw [hb] at h
            cases h
          | ok b =>
            rw [hb] at h
            cases h
            obtain ⟨hp, -, hbeq⟩ := push_eq hb
            rw [store_cell (by rw [hbeq]; exact hp)]
            rfl

end Cell

theorem memory_refines (fl : Floats) (e : ElemType) (a : ArrayFields)
    (buffer : Ptr → Buffer e.Value) :
    (memorySystem fl e a buffer).Refines
      (arraySystem fl e (ArrayMemory.register a buffer).cell)
      (fun s => ⟨s.memory.cell, s.values⟩) where
  init := by
    rintro s rfl
    rfl
  step := by
    intro s c s' _ h
    right
    refine ⟨{ c with malloc := s.memory.alloc c.malloc }, ?_⟩
    replace h : (match s.memory.setFlag e.size (c.value fl) c.n c.malloc with
      | .ok (r, m) => some (⟨m, if r = 0 then s.values ++ c.parsed fl else s.values⟩ :
          MemoryRun e.Value)
      | .error _ => none) = some s' := h
    cases hset : s.memory.setFlag e.size (c.value fl) c.n c.malloc with
    | error fault =>
      rw [hset] at h
      cases h
    | ok res =>
      obtain ⟨r, m⟩ := res
      rw [hset] at h
      cases h
      have hrun : ArrayCall.run fl { c with malloc := s.memory.alloc c.malloc } s.memory.cell =
          .ok (r, m.cell) := by
        rw [ArrayCall.run, setFlag_array]
        exact setFlag_cell hset
      simp only [arraySystem, hrun]
      rfl

/-! ### One call -/

/-- The memory after a call that stored `v`: in the buffer, or behind a copy of it in
another block, with the old one freed if it was on the heap. -/
inductive Wrote (m : ArrayMemory α) (v : α) : ArrayMemory α → Prop where
  | room {p : Ptr} (hp : m.value.p = some p) (hlt : startLen m.cell < m.value.cap) :
      Wrote m v (m.store ⟨some p, m.cell.cells.set (startLen m.cell).toNat (some v), m.value.cap,
        startLen m.cell + 1, true⟩)
  | moved {q : Ptr} {cap : UInt64} {cells : List (Option α)} (hq : m.buffer q = .unused)
      (hfull : m.value.cap = 0 ∨ startLen m.cell = m.value.cap) :
      Wrote m v ((m.free (if m.value.cap ≠ 0 then m.value.p else none)).store
        ⟨some q, cells, cap, startLen m.cell + 1, true⟩)

section Calls

variable {m m' : ArrayMemory α} {size n : UInt64} {value : Checked (Except ℤ α)}
  {malloc : Malloc} {r : ℤ} {v : α}

theorem growBuffer_cases {g : Growth α} (hu : Usable size m.cell)
    (h : growBuffer size n (m.alloc malloc) m.cell = some g) :
    (startLen m.cell < m.value.cap ∧
        g = ⟨{ m.cell with len := startLen m.cell, setValue := true }, 0, none⟩) ∨
      ∃ q cap, m.buffer q = .unused ∧ (m.value.cap = 0 ∨ startLen m.cell = m.value.cap) ∧
        g = copied size cap m.cell q := by
  have hmoved (hfull : (m.cell.cap = 0 ∧ startLen m.cell = 0) ∨
      (m.cell.cap ≠ 0 ∧ startLen m.cell = m.cell.cap)) :
      ∃ q cap, m.buffer q = .unused ∧ (m.value.cap = 0 ∨ startLen m.cell = m.value.cap) ∧
        g = copied size cap m.cell q := by
    rw [growBuffer_full hfull] at h
    obtain ⟨q, hq, rfl⟩ := Option.map_eq_some_iff.mp h
    obtain ⟨-, hunused⟩ := Option.filter_eq_some_iff.mp hq
    refine ⟨q, _, ?_, hfull.imp And.left And.right, rfl⟩
    cases hb : m.buffer q with
    | unused => rfl
    | live cells =>
      rw [hb] at hunused
      cases hunused
    | freed =>
      rw [hb] at hunused
      cases hunused
  rcases hu with ⟨hcap, hset⟩ | ⟨hcap, ho⟩
  · refine Or.inr (hmoved (Or.inl ⟨hcap, ?_⟩))
    unfold startLen
    rw [hset]
    rfl
  · rcases UInt64.lt_or_eq_of_le (startLen_le ho) with hlt | heq
    · rw [growBuffer_room hcap hlt, Option.some.injEq] at h
      exact Or.inl ⟨hlt, h.symm⟩
    · exact Or.inr (hmoved (Or.inr ⟨hcap, heq⟩))

/-- A call fails and changes nothing, or it stores the value that it parsed. -/
theorem setFlag_wrote (hu : Usable size m.cell) (hv : Proper value)
    (h : m.setFlag size value n malloc = .ok (r, m')) :
    (r ≠ 0 ∧ m' = m) ∨ (r = 0 ∧ ∃ v, value = .ok (.ok v) ∧ Wrote m v m') := by
  obtain ⟨res, rfl, herr⟩ := hv
  unfold ArrayMemory.setFlag at h
  cases res with
  | error err =>
    cases h
    exact Or.inl ⟨herr _ rfl, rfl⟩
  | ok v =>
    simp only [ok_bind] at h
    cases hg : gropw size n (m.alloc malloc) m.cell with
    | error fault =>
      rw [hg] at h
      cases h
    | ok growth =>
      rw [hg, ok_bind] at h
      cases growth with
      | none =>
        cases h
        exact Or.inl ⟨by decide, rfl⟩
      | some g =>
        dsimp only at h
        cases hb : g.cell.push v with
        | error fault =>
          rw [hb] at h
          cases h
        | ok b =>
          rw [hb] at h
          cases h
          obtain ⟨hp, hw, hbeq⟩ := push_eq hb
          refine Or.inr ⟨rfl, v, rfl, ?_⟩
          rw [hbeq]
          rcases growBuffer_cases hu (gropw_eq hg) with ⟨hlt, rfl⟩ | ⟨q, cap, hq, hfull, rfl⟩
          · obtain ⟨p, hp⟩ := Option.ne_none_iff_exists'.mp hp
            have hcells := writeAt_eq hw
            dsimp only at hp hcells ⊢
            rw [hcells, hp]
            exact .room hp hlt
          · exact .moved hq hfull

theorem free_buffer {o : Option Ptr} {d : Ptr} (h : o ≠ some d) :
    (m.free o).buffer d = m.buffer d := by
  cases o with
  | none => rfl
  | some p =>
    have hne : d ≠ p := fun hdp => h (hdp ▸ rfl)
    exact Function.update_of_ne hne ..

theorem free_default (o : Option Ptr) : (m.free o).default = m.default := by
  cases o <;> rfl

theorem Wrote.default (h : Wrote m v m') : m'.default = m.default := by
  cases h with
  | room hp hlt => rfl
  | moved hq hfull => exact free_default _

/-- A call leaves a block that is in use as it is, unless the array is in it and on the
heap. -/
theorem Wrote.away (h : Wrote m v m') {d : Ptr} (hd : m.buffer d ≠ .unused)
    (haway : m.value.cap = 0 ∨ m.value.p ≠ some d) :
    m'.buffer d = m.buffer d ∧ m'.value.p ≠ some d := by
  cases h with
  | @room p hp hlt =>
    have hne : d ≠ p := by
      rintro rfl
      rcases haway with hcap | hne
      · rw [hcap] at hlt
        exact absurd (UInt64.lt_iff_toNat_lt.mp hlt) (Nat.not_lt_zero _)
      · exact hne hp
    exact ⟨Function.update_of_ne hne .., fun h => hne (Option.some.inj h).symm⟩
  | @moved q cap cells hq hfull =>
    have hne : d ≠ q := by
      rintro rfl
      exact hd hq
    have hfree : (if m.value.cap ≠ 0 then m.value.p else none) ≠ some d := by
      split
      · rename_i hcap
        exact haway.resolve_left hcap
      · nofun
    refine ⟨?_, fun h => hne (Option.some.inj h).symm⟩
    exact (Function.update_of_ne hne ..).trans (free_buffer hfree)

/-- A call writes to the block that the array is in, or it frees it when that is full. -/
theorem Wrote.inside (h : Wrote m v m') {d : Ptr} {cells : List (Option α)}
    (hp : m.value.p = some d) (hcap : m.value.cap ≠ 0) (hd : m.buffer d = .live cells) :
    (startLen m.cell < m.value.cap ∧ m'.value.p = some d ∧ m'.value.cap = m.value.cap ∧
        m'.buffer d = .live (cells.set (startLen m.cell).toNat (some v))) ∨
      (startLen m.cell = m.value.cap ∧ m'.value.p ≠ some d ∧ m'.buffer d = .freed) := by
  have hcells : m.cell.cells = cells := by
    simp [ArrayMemory.cell, ArrayMemory.load, hp, hd, Buffer.cells]
  cases h with
  | @room p hp' hlt =>
    rw [hp] at hp'
    cases hp'
    rw [hcells]
    exact Or.inl ⟨hlt, rfl, rfl, Function.update_self ..⟩
  | @moved q cap new hq hfull =>
    have hne : d ≠ q := by
      rintro rfl
      rw [hd] at hq
      cases hq
    refine Or.inr ⟨hfull.resolve_left hcap, fun h => hne (Option.some.inj h).symm, ?_⟩
    rw [if_pos hcap, hp]
    exact (Function.update_of_ne hne ..).trans (Function.update_self ..)

end Calls

/-! ### Any sequence of calls -/

section Runs

variable {fl : Floats} {e : ElemType} {a : ArrayFields} {buffer : Ptr → Buffer e.Value}
  {s : MemoryRun e.Value}

theorem memory_accumulated (hd : Registered e.size (ArrayMemory.register a buffer).cell)
    (hs : (memorySystem fl e a buffer).Reachable s) :
    Accumulated e.size (ArrayMemory.register a buffer).cell ⟨s.memory.cell, s.values⟩ :=
  accumulated_reachable fl e hd ((memory_refines fl e a buffer).reachable hs)

theorem Accumulated.start {α : Type} {size : UInt64} {default : ArrayCell α} {s : ArrayRun α}
    (hd : Registered size default) (h : Accumulated size default s) :
    (startLen s.cell).toNat = s.values.length := by
  unfold startLen
  cases h with
  | unused hvalues hcell =>
    rw [hcell, hd.1, hvalues]
    rfl
  | used _ _ hset hlen _ =>
    rw [hset, if_pos rfl]
    exact hlen

/-- A step in what it does to the memory. -/
theorem memory_step (hd : Registered e.size (ArrayMemory.register a buffer).cell)
    (hs : (memorySystem fl e a buffer).Reachable s) {c : ArrayCall e} {s' : MemoryRun e.Value}
    (h : (memorySystem fl e a buffer).step s c = some s') :
    s' = s ∨ ∃ v, s'.values = s.values ++ [v] ∧ Wrote s.memory v s'.memory := by
  have hu : Usable e.size s.memory.cell := (memory_accumulated hd hs).usable hd
  replace h : (match s.memory.setFlag e.size (c.value fl) c.n c.malloc with
    | .ok (r, m) => some (⟨m, if r = 0 then s.values ++ c.parsed fl else s.values⟩ :
        MemoryRun e.Value)
    | .error _ => none) = some s' := h
  cases hset : s.memory.setFlag e.size (c.value fl) c.n c.malloc with
  | error fault =>
    rw [hset] at h
    cases h
  | ok res =>
    obtain ⟨r, m⟩ := res
    rw [hset] at h
    cases h
    rcases setFlag_wrote hu (e.setFlag_proper fl c.verify c.s) hset with
      ⟨hr, rfl⟩ | ⟨rfl, v, hv, hwrote⟩
    · rw [if_neg hr]
      exact Or.inl rfl
    · have hparsed : c.parsed fl = [v] := by
        rw [ArrayCall.parsed, ArrayCall.value, hv]
      rw [if_pos rfl, hparsed]
      exact Or.inr ⟨v, rfl, hwrote⟩

theorem memory_default (hd : Registered e.size (ArrayMemory.register a buffer).cell)
    (hs : (memorySystem fl e a buffer).Reachable s) : s.memory.default = a := by
  induction hs with
  | init hi =>
    obtain rfl := hi
    rfl
  | step hs h ih =>
    rcases memory_step hd hs h with rfl | ⟨v, -, hwrote⟩
    · exact ih
    · exact hwrote.default.trans ih

/-- The caller's array: its block is not touched. -/
theorem caller_kept (hd : Registered e.size (ArrayMemory.register a buffer).cell)
    (hcap : a.cap = 0) {d : Ptr} (hlive : buffer d ≠ .unused)
    (hs : (memorySystem fl e a buffer).Reachable s) :
    s.memory.buffer d = buffer d ∧ (s.memory.value.cap = 0 ∨ s.memory.value.p ≠ some d) := by
  induction hs with
  | init hi =>
    obtain rfl := hi
    exact ⟨rfl, Or.inl hcap⟩
  | step hs h ih =>
    obtain ⟨hbuffer, haway⟩ := ih
    rcases memory_step hd hs h with rfl | ⟨v, -, hwrote⟩
    · exact ⟨hbuffer, haway⟩
    · obtain ⟨hsame, hne⟩ := hwrote.away (by rwa [hbuffer]) haway
      exact ⟨hsame.trans hbuffer, Or.inr hne⟩

/-- The block of an array on the heap: the values are written over it until it is full,
and then it is freed. -/
structure Overwritten (a : ArrayFields) {α : Type} (d : Ptr) (cells : List (Option α))
    (s : MemoryRun α) : Prop where
  room : s.values.length ≤ a.cap.toNat → s.memory.value.p = some d ∧ s.memory.value.cap = a.cap ∧
    s.memory.buffer d = .live (s.values.map some ++ cells.drop s.values.length)
  full : a.cap.toNat < s.values.length →
    s.memory.value.p ≠ some d ∧ s.memory.buffer d = .freed

theorem set_behind {α : Type} (l r : List α) (x : α) (h : 0 < r.length) :
    (l ++ r).set l.length x = l ++ [x] ++ r.drop 1 := by
  obtain ⟨y, r, rfl⟩ := List.exists_cons_of_length_pos h
  simp [List.set_append_right]

theorem heap_overwritten (hd : Registered e.size (ArrayMemory.register a buffer).cell)
    (hcap : a.cap ≠ 0) {d : Ptr} (hp : a.p = some d) {cells : List (Option e.Value)}
    (hlive : buffer d = .live cells) (hlen : cells.length = a.cap.toNat)
    (hs : (memorySystem fl e a buffer).Reachable s) : Overwritten a d cells s := by
  induction hs with
  | init hi =>
    obtain rfl := hi
    exact ⟨fun _ => ⟨hp, rfl, hlive⟩, fun h => absurd h (Nat.not_lt_zero _)⟩
  | @step s s' c hs h ih =>
    have hstart : (startLen s.memory.cell).toNat = s.values.length :=
      (memory_accumulated hd hs).start hd
    rcases memory_step hd hs h with rfl | ⟨v, hvalues, hwrote⟩
    · exact ih
    have hcount : s'.values.length = s.values.length + 1 := by
      rw [hvalues, List.length_append]
      rfl
    by_cases hle : s.values.length ≤ a.cap.toNat
    · obtain ⟨hvp, hvcap, hbuffer⟩ := ih.room hle
      rcases hwrote.inside hvp (hvcap ▸ hcap) hbuffer with
        ⟨hlt, hp', hcap', hbuffer'⟩ | ⟨heq, hp', hfreed⟩
      · have hroom := UInt64.lt_iff_toNat_lt.mp hlt
        rw [hstart, hvcap] at hroom
        refine ⟨fun _ => ⟨hp', hcap'.trans hvcap, ?_⟩, fun hfull => by omega⟩
        have hset := set_behind (s.values.map some) (cells.drop s.values.length) (some v)
          (by rw [List.length_drop]; omega)
        rw [List.length_map] at hset
        rw [hbuffer', hstart, hset, hvalues, List.map_append, List.drop_drop, List.length_append]
        rfl
      · have hfull : s.values.length = a.cap.toNat := by
          rw [← hstart, ← hvcap]
          exact congrArg UInt64.toNat heq
        exact ⟨fun hle => by omega, fun _ => ⟨hp', hfreed⟩⟩
    · obtain ⟨hvp, hfreed⟩ := ih.full (by omega)
      have hused : s.memory.buffer d ≠ .unused := by
        rw [hfreed]
        nofun
      obtain ⟨hsame, hne⟩ := hwrote.away hused (Or.inr hvp)
      exact ⟨fun hle' => by omega, fun _ => ⟨hne, hsame.trans hfreed⟩⟩

/-! ### What the usage shows -/

variable {g : UInt64 → Bytes}

theorem shown_load {m : ArrayMemory e.Value} {d : Ptr} (hdefault : m.default = a)
    (hp : a.p = some d) :
    m.load m.default false = ⟨a.p, (m.buffer d).cells, a.cap, a.len, false⟩ := by
  simp [ArrayMemory.load, hdefault, hp]

/-- The first cells behind the values that are written over them. -/
theorem take_overwritten {α : Type} {vs l : List α} {cells : List (Option α)}
    (hl : cells.take l.length = l.map some) :
    (vs.map some ++ cells.drop vs.length).take l.length =
      ((vs ++ l.drop vs.length).take l.length).map some := by
  have hrest : (cells.drop vs.length).take (l.length - vs.length) =
      (l.drop vs.length).map some := by
    by_cases hle : vs.length ≤ l.length
    · rw [List.take_drop, Nat.add_sub_cancel' hle, hl, List.map_drop]
    · rw [Nat.sub_eq_zero_of_le (by omega), List.take_zero, List.drop_of_length_le (by omega)]
      rfl
  have hall : (l.drop vs.length).take (l.length - vs.length) = l.drop vs.length :=
    List.take_of_length_le (by rw [List.length_drop])
  rw [List.take_append, List.length_map, hrest, List.take_append, hall, List.map_append,
    List.map_take]

theorem printArray_freed {α : Type} {sep : Bytes} {format : α → Bytes} {a : ArrayCell α}
    (h : a.len.toNat ≠ 0) (hcells : a.cells = []) :
    printArrayDefaultFunc none sep format a = .error .read := by
  have hat : a.at 0 = .error .read := by
    unfold ArrayCell.at
    rw [hcells]
    rfl
  unfold printArrayDefaultFunc
  generalize a.len.toNat = n at h
  match n, h with
  | 1, _ =>
    rw [hat]
    rfl
  | n + 2, _ =>
    have hfirst : printElements sep format a (n + 2) 0 = .error .read := by
      unfold printElements
      rw [hat]
      rfl
    show (do
      let out ← printElements sep format a (n + 2) 0
      pure (text "<default: [" ++ out ++ text "]>")) = _
    rw [hfirst]
    rfl

theorem registered_room (hd : Registered e.size (ArrayMemory.register a buffer).cell)
    (hcap : a.cap ≠ 0) {d : Ptr} (hp : a.p = some d) {cells : List (Option e.Value)}
    (hlive : buffer d = .live cells) : cells.length = a.cap.toNat := by
  have hroom := (hd.2.resolve_left hcap).room
  have hcells : (ArrayMemory.register a buffer).cell.cells = cells := by
    simp [ArrayMemory.register, ArrayMemory.cell, ArrayMemory.load, hp, hlive, Buffer.cells]
  rw [hcells] at hroom
  exact hroom

/-- The default of the caller's array is shown as it was when the flag was added. A default
on the heap is shown with the values given so far over its first elements, and when more
values were given than it has room for, showing it reads memory that was freed. -/
theorem default_shown (hd : Registered e.size (ArrayMemory.register a buffer).cell) {d : Ptr}
    (hp : a.p = some d) {cells : List (Option e.Value)} (hlive : buffer d = .live cells)
    {l : List e.Value} (hl : cells.take a.len.toNat = l.map some) (hlen : l.length = a.len.toNat)
    (hs : (memorySystem fl e a buffer).Reachable s) :
    (a.cap = 0 → s.memory.printDefault fl g none =
      .ok (FlagType.render ⟨e, true⟩ (l.map (e.format fl g)))) ∧
    (a.cap ≠ 0 → s.values.length ≤ a.cap.toNat → s.memory.printDefault fl g none =
      .ok (FlagType.render ⟨e, true⟩
        (((s.values ++ l.drop s.values.length).take l.length).map (e.format fl g)))) ∧
    (a.cap ≠ 0 → a.cap.toNat < s.values.length → a.len ≠ 0 →
      s.memory.printDefault fl g none = .error .read) := by
  have hdefault := memory_default hd hs
  have hload := shown_load (m := s.memory) hdefault hp
  unfold ArrayMemory.printDefault
  rw [hload, printDefault_array]
  refine ⟨?_, ?_, ?_⟩
  · intro hcap
    obtain ⟨hbuffer, -⟩ := caller_kept hd hcap (by rw [hlive]; nofun) hs
    rw [hbuffer, hlive]
    exact printArrayDefault_filled (t := ⟨e, true⟩) rfl (e.format fl g) hl hlen
  · intro hcap hle
    have hroom := registered_room hd hcap hp hlive
    obtain ⟨-, -, hbuffer⟩ := (heap_overwritten hd hcap hp hlive hroom hs).room hle
    rw [hbuffer]
    refine printArrayDefault_filled (t := ⟨e, true⟩) rfl (e.format fl g)
      (l := (s.values ++ l.drop s.values.length).take l.length) ?_ ?_
    · rw [← hlen] at hl
      show (s.values.map some ++ cells.drop s.values.length).take a.len.toNat = _
      rw [← hlen]
      exact take_overwritten hl
    · rw [List.length_take, List.length_append, List.length_drop, ← hlen]
      omega
  · intro hcap hlt hne
    have hroom := registered_room hd hcap hp hlive
    obtain ⟨-, hfreed⟩ := (heap_overwritten hd hcap hp hlive hroom hs).full hlt
    rw [hfreed]
    have hpos : a.len.toNat ≠ 0 := fun h => hne (UInt64.toNat_inj.mp h)
    exact printArray_freed hpos rfl

end Runs

/- An array of two elements in block 7. -/
def heapDefault : ArrayFields := ⟨some 7, 2, 2⟩

def heapBlocks (p : Ptr) : Buffer UInt8 := if p = 7 then .live [some 7, some 8] else .unused

def threeCalls : List (ArrayCall .uint8) :=
  [⟨text "1", 2, none, .always⟩, ⟨text "2", 1, none, .always⟩, ⟨text "3", 0, none, .always⟩]

/- Two values fit in the buffer, the third one frees it. -/
theorem default_shown_freed :
    ∃ s, (memorySystem .none .uint8 heapDefault heapBlocks).exec threeCalls
        ⟨.register heapDefault heapBlocks, []⟩ = some s ∧ s.values = [1, 2, 3] ∧
      s.memory.printDefault .none (fun _ => []) none = .error .read := by
  have hobs : ((memorySystem .none .uint8 heapDefault heapBlocks).exec threeCalls
      ⟨.register heapDefault heapBlocks, []⟩).map MemoryRun.values = some [1, 2, 3] := by
    decide +kernel
  obtain ⟨s, hs, hvalues⟩ := Option.map_eq_some_iff.mp hobs
  have hd : Registered (ElemType.size .uint8) (ArrayMemory.register heapDefault heapBlocks).cell :=
    ⟨rfl, Or.inr ⟨by decide, rfl, by decide⟩⟩
  have hcells : ([some 7, some 8] : List (Option (ElemType.Value .uint8))).take
      heapDefault.len.toNat = ([7, 8] : List (ElemType.Value .uint8)).map some := rfl
  obtain ⟨-, -, hfreed⟩ := default_shown (g := fun _ => []) hd (d := 7) rfl rfl hcells rfl
    (System.reachable_exec (.init rfl) hs)
  exact ⟨s, hs, hvalues, hfreed (by decide) (by rw [hvalues]; decide) (by decide)⟩

end LibeventHttpServe.Flags
