import LibeventHttpServe.Flags.Growth
import LibeventHttpServe.Flags.Positions
import LibeventHttpServe.Flags.Refinement
import LibeventHttpServe.Flags.Selection

/-!
# The variables of flags (flags.c:40-1150, 2196-2774)

`ppp_c_flags_execute` with the callbacks of the handler table, over the memory that they
write. What a run leaves in the variables does not depend on the room that arrays are
given, as long as there is memory for them: the run computes the same values as one that
has no capacities and does not count its tokens.
-/

namespace LibeventHttpServe.Flags

open LibeventHttpServe.Lib (Checked System)

/-! ### Memory -/

/-- `C` has one entry for each address and type. -/
def setAt {C : ElemType → Type} (g : Ptr → (e : ElemType) → C e) (a : Ptr) (e : ElemType)
    (c : C e) : Ptr → (e : ElemType) → C e :=
  Function.update g a (Function.update (g a) e c)

section SetAt

variable {C : ElemType → Type} (g : Ptr → (e : ElemType) → C e) (a : Ptr) (e : ElemType) (c : C e)

@[simp] theorem setAt_self : setAt g a e c a e = c := by
  simp [setAt]

theorem setAt_other {b : Ptr} {d : ElemType} (h : ¬ (b = a ∧ d = e)) :
    setAt g a e c b d = g b d := by
  unfold setAt
  by_cases hb : b = a
  · subst hb
    rw [Function.update_self, Function.update_of_ne fun hd => h ⟨rfl, hd⟩]
  · rw [Function.update_of_ne hb]

@[simp] theorem setAt_same : setAt g a e (g a e) = g := by
  simp [setAt]

end SetAt

/-- The variables, by their address and the type of their values, with `_set_value` of
each flag. -/
structure FlagMemory where
  scalar : Ptr → (e : ElemType) → e.Value
  array : Ptr → (e : ElemType) → ArrayCell e.Value
  used : Ptr → Bool
  /- how often `set_flag` was called -/
  count : ℕ
  /- there was no memory for a value -/
  refused : Bool
  /- a value was copied from the null pointer, or written there -/
  nullAccess : Bool

/-- What a user sees of the memory: single values, and arrays as lists. -/
structure Values where
  scalar : Ptr → (e : ElemType) → e.Value
  array : Ptr → (e : ElemType) → List (Option e.Value)
  used : Ptr → Bool

def ArrayCell.elements {α : Type} (a : ArrayCell α) : List (Option α) := a.cells.take a.len.toNat

def FlagMemory.values (m : FlagMemory) : Values where
  scalar := m.scalar
  array a e := (m.array a e).elements
  used := m.used

/-- What `_value` of a flag of type `t` points to. -/
def FlagMemory.cell (m : FlagMemory) (f : Flag) : (t : FlagType) → t.Cell
  | ⟨e, false⟩ => m.scalar f.value e
  | ⟨e, true⟩ => { m.array f.value e with setValue := m.used f.ptr }

def FlagMemory.store (m : FlagMemory) (f : Flag) : (t : FlagType) → t.Cell → FlagMemory
  | ⟨e, false⟩, v => { m with scalar := setAt m.scalar f.value e v }
  | ⟨e, true⟩, a =>
    { m with array := setAt m.array f.value e a, used := Function.update m.used f.ptr a.setValue }

/-! ### Callbacks -/

/-- The callbacks of the user and the allocators. `verify` is a function of the values
that the variables have and of the new one; `malloc` answers the calls of `set_flag` in
turn. -/
structure Callbacks where
  fl : Floats
  verify : (f : Flag) → Option (Values → f.handler.elem.Value → ℤ)
  malloc : ℕ → Malloc
  argv : ℕ → ℕ → Bool
  handler : Fn → Ptr → ℕ → Option (List (Option Bytes)) → FlagMemory → ℤ

/-- The value that a text is parsed as, if `verify` lets it pass. -/
def parsedAs (fl : Floats) (t : FlagType) (verify : Option (t.elem.Value → ℤ)) (s : Bytes) :
    Option t.elem.Value :=
  match t.elem.setFlag fl verify s s.length with
  | .ok (.ok v) => some v
  | _ => none

/-- The memory behind a call of `set_flag` that returned `r` and left `c`. -/
def FlagMemory.returned (fl : Floats) (t : FlagType) (verify : Option (t.elem.Value → ℤ))
    (f : Flag) (s : Bytes) (m : FlagMemory) (r : ℤ) (c : t.Cell) : FlagMemory :=
  { m.store f t c with
    count := m.count + 1
    refused := m.refused || (decide (r ≠ 0) && (parsedAs fl t verify s).isSome) }

/-- The variable with something at the null pointer. -/
def FlagType.backed : (t : FlagType) → t.Cell → t.Cell
  | ⟨_, false⟩, v => v
  | ⟨_, true⟩, a => { a with p := some 0 }

/-- `set_flag` of the handler for the type `t`. An access at the null pointer only sets
`nullAccess`, so that a run goes on as if there were something to read. -/
def FlagMemory.setAs (fl : Floats) (t : FlagType) (verify : Option (t.elem.Value → ℤ))
    (malloc : Malloc) (f : Flag) (s : Bytes) (n : ℕ) (m : FlagMemory) : Bool × FlagMemory :=
  match FlagType.setFlag fl t verify s s.length (.ofNat n) malloc (m.cell f t) with
  | .ok (r, c) => (decide (r ≠ 0), m.returned fl t verify f s r c)
  | .error _ =>
    match FlagType.setFlag fl t verify s s.length (.ofNat n) malloc (t.backed (m.cell f t)) with
    | .ok (r, c) => (decide (r ≠ 0), { m.returned fl t verify f s r c with nullAccess := true })
    -- an access outside; no memory whose arrays are usable comes here
    | .error _ => (true, m)

def Callbacks.verifying (k : Callbacks) (f : Flag) (u : Values) :
    Option (f.handler.elem.Value → ℤ) :=
  (k.verify f).map fun verify => verify u

/-- The handler table over the memory. -/
def Callbacks.env (k : Callbacks) : Env FlagMemory where
  setFlag m f s n :=
    m.setAs k.fl f.handler (k.verifying f m.values) (k.malloc m.count) f s n
  malloc := k.argv
  handler := k.handler

/-! ### Values alone -/

def Values.put (u : Values) (f : Flag) : (t : FlagType) → t.elem.Value → Values
  | ⟨e, false⟩, v => { u with scalar := setAt u.scalar f.value e v }
  | ⟨e, true⟩, v =>
    { u with
      array := setAt u.array f.value e
        ((if u.used f.ptr then u.array f.value e else []) ++ [some v])
      used := Function.update u.used f.ptr true }

/-- The callbacks on values: a text is refused or stored, whatever the number of
arguments that are left. -/
def Callbacks.valueEnv (k : Callbacks) : Env Values where
  setFlag u f s _ :=
    match parsedAs k.fl f.handler (k.verifying f u) s with
    | none => (true, u)
    | some v => (false, u.put f f.handler v)
  malloc _ _ := true
  handler _ _ _ _ _ := 0

/-- The arrays of the flags are usable. -/
def Ready (v : Forest) (m : FlagMemory) : Prop :=
  ∀ p, ∀ f ∈ v.commands.flag p, ∀ e, f.handler = ⟨e, true⟩ → Usable e.size (m.cell f ⟨e, true⟩)

/-- The arrays of the flags are in buffers. -/
def Backed (v : Forest) (m : FlagMemory) : Prop :=
  ∀ p, ∀ f ∈ v.commands.flag p, ∀ e, f.handler = ⟨e, true⟩ → (m.array f.value e).p ≠ none

section Store

variable {m : FlagMemory} {f : Flag} {v : Forest}

theorem elements_setAt (g : Ptr → (e : ElemType) → ArrayCell e.Value) (a : Ptr) (e : ElemType)
    (c : ArrayCell e.Value) : (fun b d => (setAt g a e c b d).elements) =
      setAt (fun b d => (g b d).elements) a e c.elements := by
  funext b d
  by_cases h : b = a ∧ d = e
  · obtain ⟨rfl, rfl⟩ := h
    rw [setAt_self, setAt_self]
  · rw [setAt_other _ _ _ _ h, setAt_other (fun b d => (g b d).elements) _ _ _ h]

theorem store_same (t : FlagType) : (m.store f t (m.cell f t)).values = m.values := by
  obtain ⟨e, array⟩ := t
  cases array with
  | false => simp [FlagMemory.store, FlagMemory.cell, FlagMemory.values]
  | true =>
    have hsame : setAt (fun b d => (m.array b d).elements) f.value e
        (m.array f.value e).elements = fun b d => (m.array b d).elements :=
      setAt_same (fun b d => (m.array b d).elements) f.value e
    simp only [FlagMemory.store, FlagMemory.cell, FlagMemory.values, elements_setAt,
      Function.update_eq_self]
    exact congrArg (fun array => Values.mk m.scalar array m.used) hsame

/-- A value was appended to the array. -/
theorem store_appended {e : ElemType} {w : e.Value} {b : ArrayCell e.Value}
    (h : ArrayAppended e.size (m.cell f ⟨e, true⟩) w b) :
    (m.store f ⟨e, true⟩ b).values = m.values.put f ⟨e, true⟩ w := by
  have hb : b.elements =
      (if m.used f.ptr then (m.array f.value e).elements else []) ++ [some w] := by
    rw [ArrayCell.elements, h.elements, startLen]
    cases hused : m.used f.ptr with
    | false => simp [FlagMemory.cell, hused]
    | true => simp [FlagMemory.cell, hused, ArrayCell.elements]
  simp only [FlagMemory.store, FlagMemory.values, Values.put, elements_setAt, hb, h.setValue]
  rfl

/- A flag is listed with the data that is at its address. -/
theorem listed_flag {p : Ptr} (hf : f ∈ v.commands.flag p) :
    v.flag f.ptr = some f.toFlagData := by
  obtain ⟨q, -, hq⟩ := List.mem_filterMap.mp hf
  obtain ⟨d, hd, rfl⟩ := Option.map_eq_some_iff.mp hq
  exact hd

theorem listed_ptr {p q : Ptr} {g : Flag} (hf : f ∈ v.commands.flag p)
    (hg : g ∈ v.commands.flag q) (h : f.ptr = g.ptr) : f = g := by
  have hdata := listed_flag hf
  rw [h, listed_flag hg, Option.some.injEq] at hdata
  obtain ⟨fd, fp⟩ := f
  obtain ⟨gd, gp⟩ := g
  dsimp only at h hdata
  rw [h, hdata]

end Store

/-! ### One call of set_flag -/

/-- The variable `c` has the new value `w`. -/
def Stored (m : FlagMemory) (f : Flag) : (t : FlagType) → t.elem.Value → t.Cell → Prop
  | ⟨_, false⟩, w, c => c = w
  | ⟨e, true⟩, w, c => ArrayAppended e.size (m.cell f ⟨e, true⟩) w c

section SetFlag

variable {fl : Floats} {t : FlagType} {verify : Option (t.elem.Value → ℤ)} {malloc : Malloc}
  {s : Bytes} {n : ℕ} {m : FlagMemory} {f : Flag}

theorem growBuffer_backed {α : Type} (size n : UInt64) (malloc : Malloc) (a : ArrayCell α)
    (p : Option Ptr) :
    (growBuffer size n malloc { a with p := p }).isSome = (growBuffer size n malloc a).isSome := by
  unfold growBuffer
  dsimp only
  rw [show wantedCap { a with p := p } = wantedCap a from rfl]
  generalize (if a.setValue = true then a.len else 0) = len
  generalize (if a.cap ≠ 0 then a.cap - len else 0) = available
  generalize (if a.cap ≠ 0 then 1 else 1 + len) = need
  split
  · generalize malloc.answer _ = answer
    cases answer <;> rfl
  · rfl

/- The array of a flag, when there is something at its address. -/
theorem arraySetFlag_backed {α : Type} {size n : UInt64} (hsize : 1 ≤ size.toNat ∧ size.toNat ≤ 8)
    {a : ArrayCell α} (ha : Usable size a) {malloc : Malloc} {value : Checked (Except ℤ α)} {w : α}
    (hw : value = .ok (.ok w)) {g : Growth α} (hg : growBuffer size n malloc a = some g) :
    ∃ b, arraySetFlag size value n malloc { a with p := some 0 } = .ok (0, b) ∧
      ArrayAppended size a w b := by
  have hsome := growBuffer_backed size n malloc a (some 0)
  rw [hg] at hsome
  obtain ⟨g', hg'⟩ := Option.isSome_iff_exists.mp hsome
  have ha' : Usable size { a with p := some 0 } :=
    ha.imp id fun ho => ⟨ho.1, ho.2.len_le, ho.2.room, ho.2.object⟩
  obtain ⟨b, hrun, happ, -⟩ := arraySetFlag_grown hsize ha' hw hg' nofun
  exact ⟨b, hrun, happ.owned, happ.setValue, happ.len_eq, happ.elements, happ.address⟩

/-- A call fails and leaves the variable, or it gives it the value, by itself or behind an
access at the null pointer. -/
theorem handler_spec (hu : ∀ e, t = ⟨e, true⟩ → Usable e.size (m.cell f ⟨e, true⟩)) :
    (∃ r, r ≠ 0 ∧
      FlagType.setFlag fl t verify s s.length (.ofNat n) malloc (m.cell f t) =
        .ok (r, m.cell f t)) ∨
      ∃ w c, parsedAs fl t verify s = some w ∧ Stored m f t w c ∧
        (FlagType.setFlag fl t verify s s.length (.ofNat n) malloc (m.cell f t) = .ok (0, c) ∨
          ((∃ e, t = ⟨e, true⟩ ∧ (m.array f.value e).p = none) ∧
            (∃ fault, FlagType.setFlag fl t verify s s.length (.ofNat n) malloc (m.cell f t) =
              .error fault) ∧
            FlagType.setFlag fl t verify s s.length (.ofNat n) malloc (t.backed (m.cell f t)) =
              .ok (0, c))) := by
  obtain ⟨e, array⟩ := t
  have hproper := e.setFlag_proper fl verify s
  cases array with
  | true =>
    rw [setFlag_array]
    by_cases hnull : ∃ w, e.setFlag fl verify s s.length = .ok (.ok w) ∧
        NullAccess (m.cell f ⟨e, true⟩)
          (growBuffer e.size (.ofNat n) malloc (m.cell f ⟨e, true⟩))
    · obtain ⟨w, hw, hnull⟩ := hnull
      obtain ⟨g, hg⟩ := Option.ne_none_iff_exists'.mp hnull.2
      obtain ⟨c, hrun, happ⟩ := arraySetFlag_backed (size_bounds e) (hu e rfl) hw hg
      refine Or.inr ⟨w, c, by simp only [parsedAs, hw], happ, Or.inr ⟨⟨e, rfl, hnull.1⟩,
        arraySetFlag_null (size_bounds e) (hu e rfl) hw hnull, ?_⟩⟩
      rw [setFlag_array]
      exact hrun
    · obtain ⟨r, c, hrun, ⟨hr, rfl⟩ | ⟨rfl, w, hw, happ⟩⟩ :=
        arraySetFlag_spec (size_bounds e) (hu e rfl) hproper
          (fun w hw haccess => hnull ⟨w, hw, haccess⟩)
      · exact Or.inl ⟨r, hr, hrun⟩
      · exact Or.inr ⟨w, c, by simp only [parsedAs, hw], happ, Or.inl hrun⟩
  | false =>
    obtain ⟨res, hres, herr⟩ := hproper
    cases res with
    | error err =>
      refine Or.inl ⟨err, herr err rfl, ?_⟩
      simp only [FlagType.setFlag, hres]
      rfl
    | ok w =>
      refine Or.inr ⟨w, w, by simp only [parsedAs, hres], rfl, Or.inl ?_⟩
      simp only [FlagType.setFlag, hres]
      rfl

/-- Either the variable is not changed, and there was no memory if the text was good, or
it gets the value. -/
theorem setAs_cases (hu : ∀ e, t = ⟨e, true⟩ → Usable e.size (m.cell f ⟨e, true⟩)) :
    m.setAs fl t verify malloc f s n = (true, { m.store f t (m.cell f t) with
        count := m.count + 1, refused := m.refused || (parsedAs fl t verify s).isSome }) ∨
      ∃ w c fault, parsedAs fl t verify s = some w ∧ Stored m f t w c ∧
        m.setAs fl t verify malloc f s n = (false, { m.store f t c with
          count := m.count + 1, refused := m.refused, nullAccess := fault }) := by
  rcases @handler_spec fl t verify malloc s n m f hu with
    ⟨r, hr, hrun⟩ | ⟨w, c, hw, hc, hrun | ⟨-, ⟨fault, hfault⟩, hrun⟩⟩
  · left
    simp [FlagMemory.setAs, FlagMemory.returned, hrun, hr]
  · refine Or.inr ⟨w, c, (m.store f t c).nullAccess, hw, hc, ?_⟩
    simp [FlagMemory.setAs, FlagMemory.returned, hrun]
  · refine Or.inr ⟨w, c, true, hw, hc, ?_⟩
    simp [FlagMemory.setAs, FlagMemory.returned, hfault, hrun]

/-- With its array in a buffer a flag has no access at the null pointer. -/
theorem setAs_backed (hu : ∀ e, t = ⟨e, true⟩ → Usable e.size (m.cell f ⟨e, true⟩))
    (hp : ∀ e, t = ⟨e, true⟩ → (m.array f.value e).p ≠ none) :
    (m.setAs fl t verify malloc f s n).2.nullAccess = m.nullAccess := by
  have hrun : ∃ r c, FlagType.setFlag fl t verify s s.length (.ofNat n) malloc (m.cell f t) =
      .ok (r, c) := by
    rcases @handler_spec fl t verify malloc s n m f hu with
      ⟨r, -, hrun⟩ | ⟨w, c, -, -, hrun | ⟨⟨e, ht, hnone⟩, -⟩⟩
    · exact ⟨r, _, hrun⟩
    · exact ⟨0, c, hrun⟩
    · exact (hp e ht hnone).elim
  obtain ⟨r, c, hrun⟩ := hrun
  have hstore : (m.store f t c).nullAccess = m.nullAccess := by
    obtain ⟨e, array⟩ := t
    cases array <;> rfl
  simp only [FlagMemory.setAs, hrun, FlagMemory.returned, hstore]

theorem setAs_refused (h : m.refused = true) :
    (m.setAs fl t verify malloc f s n).2.refused = true := by
  unfold FlagMemory.setAs FlagMemory.returned
  split
  · simp [h]
  · split
    · simp [h]
    · exact h

theorem stored_values {w : t.elem.Value} {c : t.Cell} (h : Stored m f t w c) :
    (m.store f t c).values = m.values.put f t w := by
  obtain ⟨e, array⟩ := t
  cases array with
  | true => exact store_appended h
  | false =>
    rw [show c = w from h]
    rfl

theorem cell_store_same (g : Flag) (d : ElemType) :
    (m.store f t (m.cell f t)).cell g ⟨d, true⟩ = m.cell g ⟨d, true⟩ := by
  obtain ⟨e, array⟩ := t
  cases array with
  | false => rfl
  | true =>
    simp only [FlagMemory.store, FlagMemory.cell, Function.update_eq_self]
    by_cases h : g.value = f.value ∧ d = e
    · obtain ⟨hvalue, rfl⟩ := h
      rw [hvalue, setAt_self]
    · rw [setAt_other _ _ _ _ h]

/- An array keeps its buffer, or gets a new one. -/
theorem array_stored {w : t.elem.Value} {c : t.Cell} (h : Stored m f t w c) {a : Ptr}
    {d : ElemType} (ha : (m.array a d).p ≠ none) : ((m.store f t c).array a d).p ≠ none := by
  obtain ⟨e, array⟩ := t
  cases array with
  | false => exact ha
  | true =>
    replace h : ArrayAppended e.size (m.cell f ⟨e, true⟩) w c := h
    simp only [FlagMemory.store]
    by_cases hsame : a = f.value ∧ d = e
    · obtain ⟨rfl, rfl⟩ := hsame
      rw [setAt_self]
      exact h.address
    · rw [setAt_other _ _ _ _ hsame]
      exact ha

/- An array with a new value is on the heap, for every flag that has it. -/
theorem cell_stored {w : t.elem.Value} {c : t.Cell} (h : Stored m f t w c) {g : Flag}
    {d : ElemType} (hself : g.ptr = f.ptr → g.value = f.value ∧ t = ⟨d, true⟩)
    (hg : Usable d.size (m.cell g ⟨d, true⟩)) :
    Usable d.size ((m.store f t c).cell g ⟨d, true⟩) := by
  obtain ⟨e, array⟩ := t
  cases array with
  | false => exact hg
  | true =>
    replace h : ArrayAppended e.size (m.cell f ⟨e, true⟩) w c := h
    simp only [FlagMemory.store, FlagMemory.cell] at hg ⊢
    by_cases hsame : g.value = f.value ∧ d = e
    · obtain ⟨hvalue, rfl⟩ := hsame
      rw [hvalue, setAt_self]
      exact Or.inr ⟨h.cap_ne, h.owned.len_le, h.owned.room, h.owned.object⟩
    · have hptr : g.ptr ≠ f.ptr := by
        intro hp
        obtain ⟨hvalue, htype⟩ := hself hp
        cases htype
        exact hsame ⟨hvalue, rfl⟩
      rw [setAt_other _ _ _ _ hsame, Function.update_of_ne hptr]
      exact hg

end SetFlag

section Refines

variable {k : Callbacks} {m : FlagMemory} {f : Flag} {v : Forest} {p : Ptr} {s : Bytes} {n : ℕ}

theorem ready_set (hr : Ready v m) (hf : f ∈ v.commands.flag p) :
    Ready v (k.env.setFlag m f s n).2 := by
  intro q g hg d hd
  rcases @setAs_cases k.fl f.handler (k.verifying f m.values) (k.malloc m.count) s n m f
    (hr p f hf) with h | ⟨w, c, fault, -, hc, h⟩
  · rw [show k.env.setFlag m f s n = _ from h]
    have hcell := cell_store_same (t := f.handler) (m := m) (f := f) g d
    exact hcell ▸ hr q g hg d hd
  · rw [show k.env.setFlag m f s n = _ from h]
    refine cell_stored hc ?_ (hr q g hg d hd)
    intro hptr
    rw [listed_ptr hg hf hptr] at hd ⊢
    exact ⟨rfl, hd⟩

theorem backed_set (hr : Ready v m) (hb : Backed v m) (hf : f ∈ v.commands.flag p) :
    Backed v (k.env.setFlag m f s n).2 ∧ (k.env.setFlag m f s n).2.nullAccess = m.nullAccess := by
  constructor
  · intro q g hg d hd
    rcases @setAs_cases k.fl f.handler (k.verifying f m.values) (k.malloc m.count) s n m f
      (hr p f hf) with h | ⟨w, c, fault, -, hc, h⟩
    · rw [show k.env.setFlag m f s n = _ from h]
      have hcell := cell_store_same (t := f.handler) (m := m) (f := f) g d
      exact fun hnone => hb q g hg d hd ((congrArg ArrayCell.p hcell).symm.trans hnone)
    · rw [show k.env.setFlag m f s n = _ from h]
      exact array_stored hc (hb q g hg d hd)
  · exact setAs_backed (hr p f hf) (hb p f hf)

/-- One call on the memory is one call on its values. -/
theorem env_refines (hr : Ready v m) (hf : f ∈ v.commands.flag p) (n' : ℕ) :
    (k.env.setFlag m f s n).2.refused = true ∨
      ((k.env.setFlag m f s n).1 = (k.valueEnv.setFlag m.values f s n').1 ∧
        (k.env.setFlag m f s n).2.values = (k.valueEnv.setFlag m.values f s n').2) := by
  have hset : k.valueEnv.setFlag m.values f s n' =
      match parsedAs k.fl f.handler (k.verifying f m.values) s with
      | none => (true, m.values)
      | some v => (false, m.values.put f f.handler v) := rfl
  rw [hset]
  rcases @setAs_cases k.fl f.handler (k.verifying f m.values) (k.malloc m.count) s n m f
    (hr p f hf) with h | ⟨w, c, fault, hw, hc, h⟩
  · rw [show k.env.setFlag m f s n = _ from h]
    cases hparsed : parsedAs k.fl f.handler (k.verifying f m.values) s with
    | none => exact Or.inr ⟨rfl, store_same f.handler⟩
    | some w => exact Or.inl (by simp)
  · rw [show k.env.setFlag m f s n = _ from h, hw]
    exact Or.inr ⟨rfl, stored_values hc⟩

end Refines

/-! ### A reading and its values -/

def pushText (_ : ℕ) (t : Bytes) (l : List Bytes) : Bool × List Bytes := (true, l ++ [t])

theorem sameWord_listed {F : Flag → Flag → Prop} {w : Word} (h : ∀ f, w.flag = some f → F f f) :
    SameWord F w w := by
  cases w with
  | assign f v => exact .assign (h f rfl) v
  | bare f => exact .bare (h f rfl)
  | member f => exact .member (h f rfl)
  | help => exact .same rfl
  | helpOff => exact .same rfl
  | helpBad v => exact .same rfl
  | unknown => exact .same rfl

theorem sameEvent_listed {F : Flag → Flag → Prop} (hF : ∀ f g, F f g → f = g)
    {es es' : List Event} (h : List.Forall₂ (SameEvent F) es es') : es = es' := by
  induction h with
  | nil => rfl
  | cons hev _ ih =>
    rw [ih]
    cases hev with
    | same ev => rfl
    | needsArgument hf short => rw [hF _ _ hf]
    | invalidArgument hf short s => rw [hF _ _ hf]

/-- The flag is listed. -/
def Listed (c : Commands) (f g : Flag) : Prop := f = g ∧ ∃ p, f ∈ c.flag p

/-- The world `u` has the values of `w`. -/
structure Shows {β : Type} (v : Forest) (R : β → List Bytes → Prop) (w : World β FlagMemory)
    (u : World (List Bytes) Values) : Prop where
  ready : Ready v w.mem
  values : w.mem.values = u.mem
  log : w.log = u.log
  args : R w.args u.args

section Tracks

variable {β : Type} {k : Callbacks} {v : Forest} {x y : Input}
  {push : ℕ → Bytes → β → Bool × β} {R : β → List Bytes → Prop}

theorem longWord_listed (hx : x.commands = y.commands) (c : Ptr) (s : Bytes) :
    SameWord (Listed x.commands) (longWord (x.commands.flag c) s)
      (longWord (y.commands.flag c) s) := by
  rw [← hx]
  exact sameWord_listed fun f h => ⟨rfl, c, longWord_flag h⟩

theorem shortWord_listed (hx : x.commands = y.commands) (c : Ptr) (s : Bytes) :
    SameWord (Listed x.commands) (shortWord (x.commands.flag c) s)
      (shortWord (y.commands.flag c) s) := by
  rw [← hx]
  exact sameWord_listed fun f h => ⟨rfl, c, shortWord_flag h⟩

/-- A reading with memory tracks the one with values until there is no memory. -/
theorem tracks_values (hx : x.commands = v.commands) (hy : x.commands = y.commands)
    (hallow : x.allowUnknow = y.allowUnknow)
    (hpush : ∀ i t b l, R b l → (push i t b).1 = true ∧ R (push i t b).2 (l ++ [t])) :
    Tracks x y k.env k.valueEnv push pushText (Listed x.commands) (fun _ _ => True)
      (fun w => w.mem.refused = true) (Shows v R) where
  next := fun _ _ _ => trivial
  lostPush := fun _ _ _ h => h
  allowUnknow := hallow
  child := by rw [hy]
  long := longWord_listed hy
  short := shortWord_listed hy
  type := fun f g h => by rw [h.1]
  setFlag := by
    rintro w u f _ s i j l hw ⟨rfl, p, hf⟩ -
    rw [hx] at hf
    have hset := env_refines (k := k) (s := s) (n := x.argc - i - l) hw.ready hf (y.argc - j - l)
    rw [hw.values] at hset
    rcases hset with hlost | ⟨hres, hvalues⟩
    · exact Or.inl hlost
    · refine Or.inr ⟨hres, ready_set hw.ready hf, hvalues, ?_, hw.args⟩
      show w.log ++ _ = u.log ++ _
      rw [hw.log]
  emit := by
    intro w u es es' hw hes
    refine ⟨hw.ready, hw.values, ?_, hw.args⟩
    show w.log ++ es = u.log ++ es'
    rw [hw.log, sameEvent_listed (fun f g h => h.1) hes]
  push := by
    intro i j t w u hw _
    obtain ⟨hok, hargs⟩ := hpush i t w.args u.args hw.args
    exact ⟨hok, hw.ready, hw.values, hw.log, hargs⟩
  lostSet := fun _ _ _ _ h => setAs_refused h
  lostEmit := fun _ _ h => h

/-- What is read with values does not depend on how the tokens are numbered. -/
theorem tracks_shift (hy : x.commands = y.commands) (hallow : x.allowUnknow = y.allowUnknow) :
    Tracks x y k.valueEnv k.valueEnv pushText pushText (Listed x.commands) (fun _ _ => True)
      (fun _ => False) Eq where
  next := fun _ _ _ => trivial
  lostPush := fun _ _ _ h => h
  allowUnknow := hallow
  child := by rw [hy]
  long := longWord_listed hy
  short := shortWord_listed hy
  type := fun f g h => by rw [h.1]
  setFlag := by
    rintro w _ f _ s i j l rfl ⟨rfl, -⟩ -
    exact Or.inr ⟨rfl, rfl⟩
  emit := by
    rintro w _ es es' rfl hes
    rw [sameEvent_listed (fun f g h => h.1) hes]
  push := by
    rintro i j t w _ rfl -
    exact ⟨rfl, rfl⟩
  lostSet := fun _ _ _ _ h => h
  lostEmit := fun _ _ h => h

theorem read_shift (hy : x.commands = y.commands) (hallow : x.allowUnknow = y.allowUnknow)
    (toks : List Bytes) (i j : ℕ) (c : Ptr) (input : Bool) (w : World (List Bytes) Values) :
    read x k.valueEnv pushText toks i c input w = read y k.valueEnv pushText toks j c input w := by
  have hrel := ((tracks_shift (k := k) hy hallow).reading toks (i := i) (j := j) trivial c input
    (rfl : w = w)).resolve_left id
  exact hrel.eq fun _ _ h => h

end Tracks

end LibeventHttpServe.Flags
