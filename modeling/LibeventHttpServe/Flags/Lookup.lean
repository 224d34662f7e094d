import LibeventHttpServe.Flags.Positionals

/-!
# Readings that find the same flags

Two lists of flags in which every text finds flags with the same data give the
same readings, wherever the flags are stored. The first match in a list is the
same in every order when all matches agree.
-/

namespace LibeventHttpServe.Flags

open LibeventHttpServe.Lib

/-! ### The first match -/

section First

variable {α β : Type} {φ : α → Option β} {l m : List α}

/-- All that match in the list give the same. -/
def Agree (φ : α → Option β) (l : List α) : Prop :=
  ∀ a ∈ l, ∀ b ∈ l, ∀ x y, φ a = some x → φ b = some y → x = y

theorem findSome_agree (h : Agree φ l) {a : α} {x : β} (ha : a ∈ l) (hx : φ a = some x) :
    l.findSome? φ = some x := by
  cases hf : l.findSome? φ with
  | none =>
    rw [List.findSome?_eq_none_iff.mp hf a ha] at hx
    cases hx
  | some y =>
    obtain ⟨b, hb, hy⟩ := List.exists_of_findSome?_eq_some hf
    rw [h a ha b hb x y hx hy]

theorem findSome_perm (h : Agree φ l) (hp : l.Perm m) : l.findSome? φ = m.findSome? φ := by
  have hm : Agree φ m := fun a ha b hb => h a (hp.mem_iff.mpr ha) b (hp.mem_iff.mpr hb)
  cases hf : l.findSome? φ with
  | none =>
    symm
    apply List.findSome?_eq_none_iff.mpr
    intro a ha
    exact List.findSome?_eq_none_iff.mp hf a (hp.mem_iff.mpr ha)
  | some x =>
    obtain ⟨a, ha, hx⟩ := List.exists_of_findSome?_eq_some hf
    exact (findSome_agree hm (hp.mem_iff.mp ha) hx).symm

end First

/-! ### The first flag -/

/-- The text against one flag: the name alone (`false`) or with a `'='` behind. -/
def matchName (s : Bytes) (d : FlagData) : Option (FlagData × Bool) :=
  if s = d.name then some (d, false)
  else if d.name.length < s.length ∧ s[d.name.length]? = some (ascii '=') ∧
      s.take d.name.length = d.name then some (d, true)
  else none

def matchShort (s : Bytes) (d : FlagData) : Option FlagData :=
  if d.shortName ≠ 0 ∧ s[0]? = some d.shortName then some d else none

theorem findFlag_first (s : Bytes) (fs : List Flag) :
    (findFlag s fs).map (fun r => (r.1.toFlagData, r.2)) =
      (fs.map Flag.toFlagData).findSome? (matchName s) := by
  induction fs with
  | nil => rfl
  | cons f fs ih =>
    rw [List.map_cons, List.findSome?_cons, findFlag, matchName]
    split
    · rfl
    split
    · rfl
    · exact ih

theorem findShort_first (s : Bytes) (fs : List Flag) :
    (findShort s fs).map Flag.toFlagData =
      (fs.map Flag.toFlagData).findSome? (matchShort s) := by
  induction fs with
  | nil => rfl
  | cons f fs ih =>
    rw [List.map_cons, List.findSome?_cons, findShort, matchShort]
    split
    · rfl
    · exact ih

theorem assigned_iff {s n : Bytes} :
    (n.length < s.length ∧ s[n.length]? = some (ascii '=') ∧ s.take n.length = n) ↔
      ∃ r, s = n ++ ascii '=' :: r := by
  constructor
  · intro h
    obtain ⟨hlt, hget, htake⟩ := h
    rw [List.getElem?_eq_getElem hlt, Option.some.injEq] at hget
    refine ⟨s.drop (n.length + 1), ?_⟩
    calc s = s.take n.length ++ s.drop n.length := (List.take_append_drop _ _).symm
      _ = n ++ s[n.length] :: s.drop (n.length + 1) := by
          rw [htake, List.drop_eq_getElem_cons hlt]
      _ = n ++ ascii '=' :: s.drop (n.length + 1) := by rw [hget]
  · intro h
    obtain ⟨r, rfl⟩ := h
    refine ⟨?_, ?_, List.take_left⟩
    · rw [List.length_append, List.length_cons]
      omega
    · rw [List.getElem?_append_right (Nat.le_refl _), Nat.sub_self]
      rfl

/-! ### Two readings side by side -/

section Twin

variable {β σ : Type}

/-- The flags have the same data, and both callbacks do the same. -/
def SameFlag (e d : Env σ) (f g : Flag) : Prop :=
  f.toFlagData = g.toFlagData ∧ ∀ m s n, e.setFlag m f s n = d.setFlag m g s n

/-- Two inputs that differ in the lists of flags at most, with the same flag for
every word. -/
structure Twin (x y : Input) (e d : Env σ) : Prop where
  argv : x.argv = y.argv
  allowUnknow : x.allowUnknow = y.allowUnknow
  child : x.commands.child = y.commands.child
  handler : x.commands.handler = y.commands.handler
  long : ∀ c s, s ≠ text "help" → ¬ (4 < s.length ∧ s.take 5 = text "help=") →
    ((x.commands.flag c).map Flag.toFlagData).findSome? (matchName s) =
      ((y.commands.flag c).map Flag.toFlagData).findSome? (matchName s)
  short : ∀ c s, ((x.commands.flag c).map Flag.toFlagData).findSome? (matchShort s) =
    ((y.commands.flag c).map Flag.toFlagData).findSome? (matchShort s)
  setFlag : ∀ c f g, f ∈ x.commands.flag c → g ∈ y.commands.flag c →
    f.toFlagData = g.toFlagData → ∀ m s n, e.setFlag m f s n = d.setFlag m g s n
  malloc : e.malloc = d.malloc
  call : e.handler = d.handler

/-- The same memory, the same arguments and the same calls of handlers. -/
structure World.Like (w w' : World β σ) : Prop where
  mem : w.mem = w'.mem
  args : w.args = w'.args
  calls : calls w.log = calls w'.log

theorem calls_same {F : Flag → Flag → Prop} {es es' : List Event}
    (h : List.Forall₂ (SameEvent F) es es') : calls es = calls es' := by
  unfold calls
  induction h with
  | nil => rfl
  | cons hev _ ih =>
    cases hev with
    | same ev => rw [List.filter_cons, List.filter_cons, ih]
    | needsArgument hf short => exact ih
    | invalidArgument hf short s => exact ih

variable {x y : Input} {e d : Env σ}

variable (ht : Twin x y e d)

include ht in
theorem longWord_same (c : Ptr) (s : Bytes) :
    SameWord (SameFlag e d) (longWord (x.commands.flag c) s) (longWord (y.commands.flag c) s) := by
  unfold longWord
  by_cases hh : s = text "help"
  · rw [if_pos hh, if_pos hh]
    exact .same rfl
  rw [if_neg hh, if_neg hh]
  by_cases hv : 4 < s.length ∧ s.take 5 = text "help="
  · rw [if_pos hv, if_pos hv]
    exact .same (helpWord_flag _)
  rw [if_neg hv, if_neg hv]
  have hfound := ht.long c s hh hv
  rw [← findFlag_first, ← findFlag_first] at hfound
  cases hf : findFlag s (x.commands.flag c) with
  | none =>
    rw [hf, Option.map_none] at hfound
    rw [Option.map_eq_none_iff.mp hfound.symm]
    exact .same rfl
  | some r =>
    rw [hf, Option.map_some] at hfound
    obtain ⟨r', hg, hr⟩ := Option.map_eq_some_iff.mp hfound.symm
    obtain ⟨f, b⟩ := r
    obtain ⟨g, b'⟩ := r'
    obtain ⟨hdata, hb⟩ := Prod.mk.inj hr
    dsimp only at hdata hb
    subst hb
    have hsame : SameFlag e d f g :=
      ⟨hdata.symm, ht.setFlag c f g (findFlag_mem hf) (findFlag_mem hg) hdata.symm⟩
    rw [hg]
    cases b' with
    | false => exact .bare hsame
    | true =>
      have hname : f.name = g.name := congrArg FlagData.name hdata.symm
      dsimp only
      rw [hname]
      exact .assign hsame _

include ht in
theorem shortWord_same (c : Ptr) (s : Bytes) :
    SameWord (SameFlag e d) (shortWord (x.commands.flag c) s) (shortWord (y.commands.flag c) s) := by
  unfold shortWord
  split
  · exact .same rfl
  split
  · exact .same (helpWord_flag _)
  have hfound := ht.short c s
  rw [← findShort_first, ← findShort_first] at hfound
  cases hf : findShort s (x.commands.flag c) with
  | none =>
    rw [hf, Option.map_none] at hfound
    rw [Option.map_eq_none_iff.mp hfound.symm]
    exact .same rfl
  | some f =>
    rw [hf, Option.map_some] at hfound
    obtain ⟨g, hg, hdata⟩ := Option.map_eq_some_iff.mp hfound.symm
    have hsame : SameFlag e d f g :=
      ⟨hdata.symm, ht.setFlag c f g (findShort_mem hf) (findShort_mem hg) hdata.symm⟩
    have htype : f.type = g.type := congrArg FlagData.type hdata.symm
    rw [hg]
    dsimp only
    rw [htype]
    split
    · exact .bare hsame
    split
    · exact .assign hsame _
    split
    · exact .member hsame
    · exact .assign hsame _

include ht in
theorem alongside_twin (push : ℕ → Bytes → β → Bool × β) :
    Alongside x y e d push push (SameFlag e d) World.Like where
  argc := congrArg List.length ht.argv
  allowUnknow := ht.allowUnknow
  child := ht.child
  long := longWord_same ht
  short := shortWord_same ht
  type := fun f g hf => congrArg FlagData.type hf.1
  setFlag := by
    intro w w' f g s n hw hf
    obtain ⟨hmem, hargs, hcalls⟩ := hw
    have hset : e.setFlag w.mem f s n = d.setFlag w'.mem g s n := by
      rw [hmem]
      exact hf.2 w'.mem s n
    unfold World.setFlag
    rw [hset]
    refine ⟨rfl, rfl, hargs, ?_⟩
    show calls (w.log ++ [.setFlag f.ptr s]) = calls (w'.log ++ [.setFlag g.ptr s])
    rw [calls_append, calls_append, hcalls]
    rfl
  emit := by
    intro w w' es es' hw hes
    obtain ⟨hmem, hargs, hcalls⟩ := hw
    have hsame := calls_same hes
    refine ⟨hmem, hargs, ?_⟩
    rw [World.emit, World.emit, calls_append, calls_append, hcalls, hsame]
  push := by
    intro i t w w' hw
    obtain ⟨hmem, hargs, hcalls⟩ := hw
    rw [hargs]
    exact ⟨rfl, hmem, rfl, hcalls⟩

end Twin

/-! ### Two runs side by side -/

section Runs

variable {σ : Type} {x y : Input} {e d : Env σ}

/-- The same error code, values of the flags and call of a handler with its
result. -/
structure Result.Like (r r' : Result σ) : Prop where
  err : r.err = r'.err
  mem : r.world.mem = r'.world.mem
  handlerResult : r.handlerResult = r'.handlerResult
  calls : calls r.world.log = calls r'.world.log

theorem like_call (ht : Twin x y e d) (c : Ptr) {w w' : World HandlerArgs σ} (hw : w.Like w') :
    (call x e c w).Like (call y d c w') := by
  obtain ⟨mem, args, log⟩ := w
  obtain ⟨mem', args', log'⟩ := w'
  obtain ⟨hmem, hargs, hcalls⟩ := hw
  dsimp only at hmem hargs hcalls
  subst hmem hargs
  unfold call
  rw [ht.handler, ht.call]
  cases y.commands.handler c with
  | none => exact ⟨rfl, rfl, rfl, hcalls⟩
  | some h =>
    have hlog : ∀ argv, calls (log ++ [.call c h args.argc argv]) =
        calls (log' ++ [.call c h args.argc argv]) := by
      intro argv
      rw [calls_append, calls_append, hcalls]
    dsimp only [World.emit]
    cases args.argv with
    | none => exact ⟨rfl, rfl, rfl, hlog none⟩
    | some b => exact ⟨rfl, rfl, rfl, hlog (some b.cells)⟩

theorem like_execute (ht : Twin x y e d) {root : Ptr} {mem : σ} {n m : ℕ} {r r' : Result σ}
    (hr : execute x e root mem n = some r) (hr' : execute y d root mem m = some r') :
    r.Like r' := by
  have hargc : x.argc = y.argc := congrArg List.length ht.argv
  have hpush : pushAt x e = pushAt y d := by
    funext i t b
    unfold pushAt
    rw [hargc, ht.malloc]
  have hstart : World.Like ⟨mem, HandlerArgs.start, []⟩ ⟨mem, .start, []⟩ := ⟨rfl, rfl, rfl⟩
  have hread := (alongside_twin ht (pushAt y d)).reading y.argv 0 root false hstart
  rw [execute_unique hr, execute_unique hr', hpush, ht.argv]
  obtain ⟨hstop, hcommand, hworld⟩ := hread
  unfold finish
  rw [hstop, hcommand]
  split
  · exact like_call ht _ hworld
  · exact ⟨rfl, hworld.mem, rfl, hworld.calls⟩

end Runs

end LibeventHttpServe.Flags
