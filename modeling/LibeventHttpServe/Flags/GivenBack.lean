import LibeventHttpServe.Flags.Defaults
import LibeventHttpServe.Flags.Help
import LibeventHttpServe.Flags.Spelling

/-!
# Giving a default (flags.c:119-1089, 2040-2130)

The usage shows the values that the variables had when their flags were added. A run that
gives a flag what is shown for it leaves the variables as they were.
-/

namespace LibeventHttpServe.Flags

open LibeventHttpServe.Lib

/-! ### The default of a flag -/

/-- The copy of a value to `_default`. -/
def ElemType.copied : (e : ElemType) → e.Value → e.Default
  | .bool, v => v
  | .int8, v => v
  | .int16, v => v
  | .int32, v => v
  | .int64, v => v
  | .uint8, v => v
  | .uint16, v => v
  | .uint32, v => v
  | .uint64, v => v
  | .float32, v => v
  | .float64, v => v
  | .string, s => some s

/-- What `ppp_c_flags_add_flag_with_len` stores in `_default` for a variable at `value`. -/
def FlagMemory.default (m : FlagMemory) (value : Ptr) : (t : FlagType) → t.Default
  | ⟨e, false⟩ => e.copied (m.scalar value e)
  | ⟨e, true⟩ => m.array value e

/-- The values that are shown for a flag of type `t`. -/
def FlagMemory.shown (m : FlagMemory) (fl : Floats) (f : Flag) (t : FlagType) :
    List t.elem.Value := t.shown fl (m.default f.value t)

/-- The texts that are shown for a flag. -/
def FlagMemory.texts (m : FlagMemory) (fl : Floats) (g : UInt64 → Bytes) (f : Flag) :
    List Bytes := (m.shown fl f f.handler).map (f.handler.elem.format fl g)

/-- The tokens that give the flag these texts, `--name=text` each. -/
def Flag.give (f : Flag) (ss : List Bytes) : List Bytes :=
  ss.map fun s => text "--" ++ (f.name ++ ascii '=' :: s)

/-- What is shown for the flag can be given to it: it shows no floats, its elements have
values, a true `bool` is 1, `verify` accepts them and no value was given before. -/
structure GivesBack (k : Callbacks) (m : FlagMemory) (f : Flag) : Prop where
  float : f.handler.elem ≠ .float32 ∧ f.handler.elem ≠ .float64
  filled : f.handler.Filled (m.default f.value f.handler)
  meaning : ∀ w ∈ m.shown k.fl f f.handler, f.handler.elem.meaning w = w
  accepted : ∀ w ∈ m.shown k.fl f f.handler, ∀ u, Accepts (k.verifying f u) w
  unused : f.handler.array = true → m.used f.ptr = false

/-- The variables have the same values; which flags were used may differ. -/
def SameValues (u u' : Values) : Prop := u.scalar = u'.scalar ∧ u.array = u'.array

/-- The values are stored one after the other. -/
def Values.puts (u : Values) (f : Flag) (t : FlagType) (ws : List t.elem.Value) : Values :=
  ws.foldl (fun u w => u.put f t w) u

/-! ### Storing what is there -/

section Puts

variable {u : Values} {f : Flag} {e : ElemType} {m : FlagMemory}

theorem setAt_again {C : ElemType → Type} (g : Ptr → (e : ElemType) → C e) (a : Ptr)
    (c c' : C e) : setAt (setAt g a e c) a e c' = setAt g a e c' := by
  simp [setAt]

theorem shown_copied (fl : Floats) (e : ElemType) (w : e.Value) :
    e.shown fl (e.copied w) = [] ∨ e.shown fl (e.copied w) = [w] := by
  cases e <;> exact (ite_eq_or_eq ..).symm

theorem puts_cons {t : FlagType} (w : t.elem.Value) (ws : List t.elem.Value) :
    u.puts f t (w :: ws) = (u.put f t w).puts f t ws := rfl

/-- Values for an array that has one are appended. -/
theorem puts_used (ws : List e.Value) (hused : u.used f.ptr = true) :
    u.puts f ⟨e, true⟩ ws =
      { u with array := setAt u.array f.value e (u.array f.value e ++ ws.map some) } := by
  induction ws generalizing u with
  | nil => simp [Values.puts]
  | cons w ws ih =>
    have hput : u.put f ⟨e, true⟩ w =
        { u with array := setAt u.array f.value e (u.array f.value e ++ [some w]) } := by
      have hsame : Function.update u.used f.ptr true = u.used := by
        rw [← hused, Function.update_eq_self]
      simp only [Values.put, hused, hsame, if_true]
    have hrest := @ih
      { u with array := setAt u.array f.value e (u.array f.value e ++ [some w]) } hused
    rw [puts_cons, hput, hrest]
    simp only [setAt_self, setAt_again, List.map_cons, List.append_assoc, List.singleton_append]

/-- The shown values of an array replace what it has. -/
theorem puts_unused {ws : List e.Value} (hws : ws ≠ []) (hused : u.used f.ptr = false) :
    u.puts f ⟨e, true⟩ ws =
      { u with
        array := setAt u.array f.value e (ws.map some)
        used := Function.update u.used f.ptr true } := by
  obtain ⟨w, ws, rfl⟩ := List.exists_cons_of_ne_nil hws
  have hput : u.put f ⟨e, true⟩ w =
      { u with
        array := setAt u.array f.value e [some w]
        used := Function.update u.used f.ptr true } := by
    simp only [Values.put, hused, Bool.false_eq_true, if_false, List.nil_append]
  rw [puts_cons, hput, puts_used ws (Function.update_self ..)]
  simp only [setAt_self, setAt_again, List.map_cons, List.singleton_append]

/-- Storing what is shown changes no variable, and no other flag becomes used. -/
theorem puts_back {t : FlagType} (fl : Floats) (hfilled : t.Filled (m.default f.value t))
    (hunused : t.array = true → u.used f.ptr = false) (hu : SameValues u m.values) :
    SameValues (u.puts f t (m.shown fl f t)) m.values ∧
      ∀ q, q ≠ f.ptr → (u.puts f t (m.shown fl f t)).used q = u.used q := by
  obtain ⟨e, array⟩ := t
  obtain ⟨hscalar, harray⟩ := hu
  cases array with
  | false =>
    rcases shown_copied fl e (m.scalar f.value e) with h | h
    · rw [show m.shown fl f ⟨e, false⟩ = [] from h]
      exact ⟨⟨hscalar, harray⟩, fun _ _ => rfl⟩
    · rw [show m.shown fl f ⟨e, false⟩ = [m.scalar f.value e] from h]
      refine ⟨⟨?_, harray⟩, fun _ _ => rfl⟩
      show setAt u.scalar f.value e (m.scalar f.value e) = m.scalar
      rw [show u.scalar = m.scalar from hscalar, setAt_same]
  | true =>
    obtain ⟨l, hl, -⟩ := hfilled
    have hshown : m.shown fl f ⟨e, true⟩ = l := by
      unfold FlagMemory.shown FlagType.shown
      dsimp only
      rw [hl, List.filterMap_map]
      exact List.filterMap_some
    rw [hshown]
    by_cases hnil : l = []
    · subst hnil
      exact ⟨⟨hscalar, harray⟩, fun _ _ => rfl⟩
    · rw [puts_unused hnil (hunused rfl)]
      refine ⟨⟨hscalar, ?_⟩, fun q hq => Function.update_of_ne hq ..⟩
      have helements : l.map some = u.array f.value e := by
        rw [harray, ← hl]
        rfl
      show setAt u.array f.value e (l.map some) = m.values.array
      rw [helements, setAt_same, harray]

end Puts

/-! ### Runs that give defaults -/

section Given

variable {k : Callbacks} {c : Commands} {allowUnknow : Bool} {p : Ptr} {input : Bool}
  {w : World (List Bytes) Values} {f : Flag} {m : FlagMemory}

theorem GivesBack.parsed (h : GivesBack k m f) (g : UInt64 → Bytes) {z : f.handler.elem.Value}
    (hz : z ∈ m.shown k.fl f f.handler) (u : Values) :
    parsedAs k.fl f.handler (k.verifying f u) (f.handler.elem.format k.fl g z) = some z := by
  have haccept := h.accepted z hz u
  rw [← h.meaning z hz] at haccept
  have hread := format_readBack k.fl g h.float z haccept
  rw [h.meaning z hz] at hread
  simp only [parsedAs, hread]

/-- The tokens for a flag store their values. -/
theorem reading_give (hown : OwnNames (c.flag p) f) (hno : ∀ g ∈ c.flag p, ascii '=' ∉ g.name)
    (format : f.handler.elem.Value → Bytes) {zs : List f.handler.elem.Value}
    (hzs : ∀ z ∈ zs, ∀ u, parsedAs k.fl f.handler (k.verifying f u) (format z) = some z)
    (rest : List Bytes) :
    ∃ b u, k.reading c allowUnknow (f.give (zs.map format) ++ rest) p input w =
        k.reading c allowUnknow rest p b u ∧
      u.mem = w.mem.puts f f.handler zs ∧ u.args = w.args ∧ helps u.log = helps w.log := by
  induction zs generalizing input w with
  | nil => exact ⟨input, w, rfl, rfl, rfl, rfl⟩
  | cons z zs ih =>
    obtain ⟨-, hassign⟩ := longWord_own hown hno (format z)
    have hne : f.name ++ ascii '=' :: format z ≠ [] := by simp
    have htoken (value : Option Bytes) : readToken ⟨c, [], allowUnknow⟩ k.valueEnv pushText p 0
        input (text "--" ++ (f.name ++ ascii '=' :: format z)) value w =
        .one p true ⟨w.mem.put f f.handler z, w.args, w.log ++ [.setFlag f.ptr (format z)]⟩ := by
      have hparsed := hzs z List.mem_cons_self w.mem
      simp only [readToken, tokenOf_long hne, readLong, hassign, readAssign, World.setFlag,
        Callbacks.valueEnv, hparsed]
    obtain ⟨b, u, hrest, hmem, hargs, hlog⟩ := @ih true
      ⟨w.mem.put f f.handler z, w.args, w.log ++ [.setFlag f.ptr (format z)]⟩
      fun y hy => hzs y (List.mem_cons_of_mem _ hy)
    refine ⟨b, u, ?_, hmem, hargs, ?_⟩
    · show k.reading c allowUnknow ((text "--" ++ (f.name ++ ascii '=' :: format z)) ::
        (f.give (zs.map format) ++ rest)) p input w = _
      rw [reading_cons, htoken]
      exact hrest
    · rw [hlog, helps_append]
      exact List.append_nil _

end Given

section Back

variable {k : Callbacks} {v : Forest} {m : FlagMemory} {allowUnknow : Bool} {p : Ptr}

/-- The tokens of several flags leave the variables as they are. -/
theorem reading_back (hv : WellFormed v) (hno : ∀ g ∈ v.commands.flag p, ascii '=' ∉ g.name)
    (g : UInt64 → Bytes) {fs : List Flag} (hfs : ∀ f ∈ fs, f ∈ v.commands.flag p)
    (hback : ∀ f ∈ fs, GivesBack k m f) (honce : fs.Nodup) {input : Bool}
    {w : World (List Bytes) Values} (hw : SameValues w.mem m.values)
    (hunused : ∀ f ∈ fs, f.handler.array = true → w.mem.used f.ptr = false) :
    ∃ u, k.reading v.commands allowUnknow (fs.flatMap fun f => f.give (m.texts k.fl g f)) p input
        w = ⟨none, p, u⟩ ∧ SameValues u.mem m.values ∧ u.args = w.args ∧
      helps u.log = helps w.log := by
  induction fs generalizing input w with
  | nil => exact ⟨w, rfl, hw, rfl, rfl⟩
  | cons f fs ih =>
    have hf := hfs f List.mem_cons_self
    have hgive := hback f List.mem_cons_self
    obtain ⟨hnew, honce⟩ := List.nodup_cons.mp honce
    obtain ⟨b, u, hread, hmem, hargs, hlog⟩ := @reading_give k v.commands allowUnknow p input w f
      (listed_names hv hf) hno (f.handler.elem.format k.fl g) (m.shown k.fl f f.handler)
      (fun z hz => hgive.parsed g hz) (fs.flatMap fun f => f.give (m.texts k.fl g f))
    obtain ⟨hsame, hused⟩ := puts_back k.fl hgive.filled (hunused f List.mem_cons_self) hw
    rw [← hmem] at hsame hused
    -- the flags behind have other addresses
    have hrest : ∀ h ∈ fs, h.handler.array = true → u.mem.used h.ptr = false := by
      intro h hh harray
      have hlisted := hfs h (List.mem_cons_of_mem _ hh)
      rw [hused h.ptr ?_]
      · exact hunused h (List.mem_cons_of_mem _ hh) harray
      · intro hptr
        rw [listed_ptr hlisted hf hptr] at hh
        exact hnew hh
    obtain ⟨u', hread', hsame', hargs', hlog'⟩ := @ih
      (fun h hh => hfs h (List.mem_cons_of_mem _ hh))
      (fun h hh => hback h (List.mem_cons_of_mem _ hh)) honce b u hsame hrest
    refine ⟨u', ?_, hsame', hargs'.trans hargs, hlog'.trans hlog⟩
    rw [List.flatMap_cons]
    exact hread.trans hread'

/-- The usage shows the defaults of the flags, and giving them back changes nothing: for
any flags of a command, behind the names that lead to it, a run with memory for everything
that gives each flag the texts that are shown for it calls the handler of the command, and
the variables have the values that they had. No access is at the null pointer when the arrays
of all flags are in buffers. -/
theorem defaults_givenBack {s : Registry} (hs : registrySystem.Reachable s) (hst : Stores s v)
    {root c : Ptr} {ts : List Bytes} (hpath : Path v root ts c)
    (hno : ∀ g ∈ v.commands.flag c, ascii '=' ∉ g.name) (g : UInt64 → Bytes) {fs : List Flag}
    (hfs : ∀ f ∈ fs, f ∈ v.commands.flag c) (honce : fs.Nodup)
    (hback : ∀ f ∈ fs, GivesBack k m f) (hready : Ready v m)
    (hargv : ∀ n size, k.argv n size = true) (allowUnknow : Bool) :
    (∀ f ∈ fs, f.handler.printDefault k.fl g none (m.default f.value f.handler) =
      .ok (f.handler.render (m.texts k.fl g f))) ∧
    ∃ n r, execute ⟨v.commands, ts ++ fs.flatMap fun f => f.give (m.texts k.fl g f), allowUnknow⟩
        k.env root m n = some r ∧ (Backed v m → r.world.mem.nullAccess = m.nullAccess) ∧
      (r.world.mem.refused = false →
        r.err = 0 ∧ r.world.mem.values.scalar = m.values.scalar ∧
        r.world.mem.values.array = m.values.array ∧
        r.world.log.filterMap Event.called =
          (v.commands.handler c).toList.map fun h => (c, h, 0)) := by
  obtain ⟨w, hw, hv⟩ := forest_reachable hs
  obtain rfl := hst.unique hw
  refine ⟨fun f hf => printDefault_filled k.fl g (hback f hf).filled, ?_⟩
  obtain ⟨n, hn⟩ := execute_read
    ⟨v.commands, ts ++ fs.flatMap fun f => f.give (m.texts k.fl g f), allowUnknow⟩ k.env root m
  generalize finish _ k.env _ = r at hn
  refine ⟨n, r, hn, fun hback => execute_backed rfl hready hback hn, ?_⟩
  intro hok
  have hobs := execute_observed rfl hready hargv hn hok
  obtain ⟨u, hread, hsame, hargs, -⟩ := @reading_back k v m allowUnknow c hv hno g fs hfs hback
    honce false ⟨m.values, [], []⟩ ⟨rfl, rfl⟩ fun f hf harray => (hback f hf).unused harray
  have hpathread : read ⟨v.commands, [], allowUnknow⟩ k.valueEnv pushText
      (ts ++ fs.flatMap fun f => f.give (m.texts k.fl g f)) 0 root false ⟨m.values, [], []⟩ =
      read ⟨v.commands, [], allowUnknow⟩ k.valueEnv pushText
        (fs.flatMap fun f => f.give (m.texts k.fl g f)) (0 + ts.length) c false
        ⟨m.values, [], []⟩ :=
    read_path hv rfl hpath _ 0 _
  have hshift := read_shift (x := ⟨v.commands, [], allowUnknow⟩)
    (y := ⟨v.commands, [], allowUnknow⟩) (k := k) rfl rfl
    (fs.flatMap fun f => f.give (m.texts k.fl g f)) (0 + ts.length) 0 c false ⟨m.values, [], []⟩
  have hall : k.reading v.commands allowUnknow
      (ts ++ fs.flatMap fun f => f.give (m.texts k.fl g f)) root false ⟨m.values, [], []⟩ =
      ⟨none, c, u⟩ := (hpathread.trans hshift).trans hread
  dsimp only at hobs
  rw [hall] at hobs
  have hvalues : r.world.mem.values = u.mem := congrArg Observed.values hobs
  have hcalled := congrArg Observed.called hobs
  simp only [Reading.observed, if_true, hargs, List.length_nil] at hcalled
  refine ⟨congrArg Observed.err hobs, ?_, ?_, hcalled⟩
  · rw [hvalues]
    exact hsame.1
  · rw [hvalues]
    exact hsame.2

end Back

/- The variable of `worker` is 7. -/
def sevenWorkers : FlagMemory :=
  { emptyMemory with scalar := setAt emptyMemory.scalar 8 .uint8 7 }

def workerFlag : Flag :=
  ⟨⟨8, false, ⟨.uint8, false⟩, text "worker", ascii 'w', none, ⟨.uint8, false⟩, none⟩, 2⟩

theorem givesBack_worker : GivesBack plainCallbacks sevenWorkers workerFlag where
  float := ⟨nofun, nofun⟩
  filled := trivial
  meaning _ _ := rfl
  accepted _ _ _ := nofun
  unused := nofun

theorem defaults_givenBack_worker :
    ∃ s v, registrySystem.exec (oneFlag "worker" 'w' 6) ⟨∅, ∅⟩ = some s ∧ Stores s v ∧
      (∀ f ∈ [workerFlag],
        f.handler.printDefault Floats.none (fun _ => []) none
            (sevenWorkers.default f.value f.handler) =
          .ok (f.handler.render (sevenWorkers.texts .none (fun _ => []) f))) ∧
      ∃ n r, execute ⟨v.commands, [] ++ [workerFlag].flatMap fun f =>
          f.give (sevenWorkers.texts .none (fun _ => []) f), false⟩ plainCallbacks.env 1
          sevenWorkers n = some r ∧
        (Backed v sevenWorkers → r.world.mem.nullAccess = sevenWorkers.nullAccess) ∧
        (r.world.mem.refused = false →
          r.err = 0 ∧ r.world.mem.values.scalar = sevenWorkers.values.scalar ∧
          r.world.mem.values.array = sevenWorkers.values.array ∧
          r.world.log.filterMap Event.called =
            (v.commands.handler 1).toList.map fun h => (1, h, 0)) := by
  obtain ⟨s, v, hs, hreach, hst, hflags⟩ := oneFlag_listed "worker" 'w' 6
    (d := workerFlag.toFlagData) (by decide)
  have hlisted : ∀ f ∈ [workerFlag], f ∈ v.commands.flag 1 := by
    rw [hflags]
    exact fun f hf => hf
  have hno : ∀ f ∈ v.commands.flag 1, ascii '=' ∉ f.name := by
    rw [hflags]
    decide
  have hback : ∀ f ∈ [workerFlag], GivesBack plainCallbacks sevenWorkers f := by
    intro f hf
    rw [List.mem_singleton.mp hf]
    exact givesBack_worker
  have hready : Ready v sevenWorkers := fun _ _ _ _ _ => Or.inl ⟨rfl, rfl⟩
  exact ⟨s, v, hs, hst, defaults_givenBack hreach hst (.nil 1) hno (fun _ => []) hlisted
    (List.nodup_singleton _) hback hready (fun _ _ => rfl) false⟩

end LibeventHttpServe.Flags
