import LibeventHttpServe.Flags.Observed
import LibeventHttpServe.Flags.Order
import LibeventHttpServe.Flags.Words

/-!
# The spellings of a value (flags.c:2520-2732)

A value is given to a flag behind its long or its short name, in one token or in two. A
run does not show which spelling was used.
-/

namespace LibeventHttpServe.Flags

open LibeventHttpServe.Lib (System)

/-- The tokens that give the flag `f` the value `s`. -/
inductive Spelling (f : Flag) (s : Bytes) : List Bytes → Prop where
  /- `--f=s` -/
  | long : Spelling f s [text "--" ++ (f.name ++ ascii '=' :: s)]
  /- `--f` `s` -/
  | longTwo : Spelling f s [text "--" ++ f.name, s]
  /- `-c=s` -/
  | short : Spelling f s [ascii '-' :: f.shortName :: ascii '=' :: s]
  /- `-c` `s` -/
  | shortTwo : Spelling f s [[ascii '-', f.shortName], s]
  /- `-cs` -/
  | joined (hne : s ≠ []) (heq : s.head? ≠ some (ascii '=')) :
      Spelling f s [ascii '-' :: f.shortName :: s]

section Given

variable {k : Callbacks} {c : Commands} {allowUnknow : Bool} {p : Ptr} {input : Bool}
  {w : World (List Bytes) Values} {f : Flag} {s : Bytes}

/-- What is shown when `f` is given the value `s` before `post`. -/
def Callbacks.given (k : Callbacks) (c : Commands) (allowUnknow : Bool) (post : List Bytes)
    (p : Ptr) (f : Flag) (s : Bytes) (w : World (List Bytes) Values) : Observed :=
  match w.setFlag k.valueEnv f s 0 with
  | (true, w) => ⟨errorInvalidArgument, w.mem, w.args, [], helps w.log⟩
  | (false, w) => (k.reading c allowUnknow post p true w).observed c

theorem given_rejected {w' : World (List Bytes) Values} {msg : Message} :
    (Reading.mk (some errorInvalidArgument) p (w'.emit [.message msg, .usage p])).observed c =
      ⟨errorInvalidArgument, w'.mem, w'.args, [], helps w'.log⟩ := by
  simp [Reading.observed, World.emit, helps, Event.isHelp]

theorem given_assign (short : Bool) (t : Bytes) (post : List Bytes)
    (h : readToken ⟨c, [], allowUnknow⟩ k.valueEnv pushText p 0 input t post.head? w =
      readAssign ⟨c, [], allowUnknow⟩ k.valueEnv p 0 f s short w) :
    (k.reading c allowUnknow (t :: post) p input w).observed c =
      k.given c allowUnknow post p f s w := by
  have hcount (n : ℕ) : w.setFlag k.valueEnv f s n = w.setFlag k.valueEnv f s 0 := rfl
  rw [reading_cons, h]
  unfold readAssign Callbacks.given
  rw [hcount]
  rcases w.setFlag k.valueEnv f s 0 with ⟨bad, w'⟩
  cases bad with
  | true => exact given_rejected
  | false => rfl

theorem given_bare (hbool : f.type.elem ≠ .bool) (short : Bool) (t : Bytes) (post : List Bytes)
    (h : readToken ⟨c, [], allowUnknow⟩ k.valueEnv pushText p 0 input t (some s) w =
      readBare ⟨c, [], allowUnknow⟩ k.valueEnv p 0 f short (some s) w) :
    (k.reading c allowUnknow (t :: s :: post) p input w).observed c =
      k.given c allowUnknow post p f s w := by
  have hcount (n : ℕ) : w.setFlag k.valueEnv f s n = w.setFlag k.valueEnv f s 0 := rfl
  rw [reading_cons, List.head?_cons, h]
  unfold readBare Callbacks.given
  rw [if_neg hbool]
  dsimp only
  rw [hcount]
  rcases w.setFlag k.valueEnv f s 0 with ⟨bad, w'⟩
  cases bad with
  | true => exact given_rejected
  | false => rfl

/-- Every spelling gives the value. -/
theorem spelling_given {o : List Bytes} (ho : Spelling f s o) (h : OwnNames (c.flag p) f)
    (hno : ∀ g ∈ c.flag p, ascii '=' ∉ g.name) (hbool : f.type.elem ≠ .bool)
    (hshort : f.shortName ≠ 0 ∧ f.shortName ≠ ascii '-') (post : List Bytes) :
    (k.reading c allowUnknow (o ++ post) p input w).observed c =
      k.given c allowUnknow post p f s w := by
  obtain ⟨hbare, hassign⟩ := longWord_own h hno s
  have hword := shortWord_own h hshort.1
  cases ho with
  | long =>
    refine given_assign false _ post ?_
    have hne : f.name ++ ascii '=' :: s ≠ [] := by simp
    simp only [readToken, tokenOf_long hne, readLong, hassign]
  | longTwo =>
    refine given_bare hbool false _ post ?_
    simp only [readToken, tokenOf_long h.nonempty, readLong, hbare]
  | short =>
    refine given_assign true _ post ?_
    simp only [readToken, tokenOf_short hshort.2, readShort, hword]
    simp
  | shortTwo =>
    refine given_bare hbool true _ post ?_
    simp only [readToken, tokenOf_short hshort.2, readShort, hword]
    simp
  | joined hne heq =>
    refine given_assign true _ post ?_
    simp only [readToken, tokenOf_short hshort.2, readShort, hword, if_neg hne, if_neg heq,
      if_neg hbool]

end Given

/-- Over a reachable registry, a command whose flags have no `'='` in their names: the
spelling of a value for one of its flags, in token position, makes no difference to what a
run shows. -/
theorem spellings_agree {t : Registry} (ht : registrySystem.Reachable t) {v : Forest}
    (hst : Stores t v) {c : Ptr} (hno : ∀ g ∈ v.commands.flag c, ascii '=' ∉ g.name) {f : Flag}
    (hf : f ∈ v.commands.flag c) (hbool : f.type.elem ≠ .bool)
    (hshort : f.shortName ≠ 0 ∧ f.shortName ≠ ascii '-') {s : Bytes} {o o' : List Bytes}
    (ho : Spelling f s o) (ho' : Spelling f s o') (k : Callbacks)
    (hargv : ∀ n size, k.argv n size = true) {m : FlagMemory} (hready : Ready v m) {root : Ptr}
    {allowUnknow : Bool} {pre post : List Bytes} {a : Args FlagMemory}
    (hpos : Reaches ⟨v.commands, pre ++ (o ++ post), allowUnknow⟩ k.env root m pre.length a)
    (hc : a.command = c) :
    SameRuns k ⟨v.commands, pre ++ (o ++ post), allowUnknow⟩
      ⟨v.commands, pre ++ (o' ++ post), allowUnknow⟩ root m := by
  obtain ⟨w, hw, hv⟩ := forest_reachable ht
  obtain rfl := hst.unique hw
  subst hc
  have hown := listed_names hv hf
  refine sameRuns_of_reading hready hargv hpos fun u => ?_
  rw [spelling_given ho hown hno hbool hshort, spelling_given ho' hown hno hbool hshort]

/-! ### A command with one flag -/

def oneFlag (name : String) (short : Char) (tag : ℤ) : List (Call × Option Ptr) :=
  [(.commandCreate (text "app") none none 0, some 1),
    (.addFlag 1 (some (text name)) (ascii short) none 8 tag, some 2)]

/- Its list, read off the heaps. -/
theorem oneFlag_listed (name : String) (short : Char) (tag : ℤ) {d : FlagData}
    (h : (registrySystem.exec (oneFlag name short tag) ⟨∅, ∅⟩).map (fun s =>
      ((s.commands.lookup 1).map CommandNode.flag, s.flags.lookup 2)) =
        some (some (some 2), some ⟨d, none⟩)) :
    ∃ s v, registrySystem.exec (oneFlag name short tag) ⟨∅, ∅⟩ = some s ∧
      registrySystem.Reachable s ∧ Stores s v ∧ v.commands.flag 1 = [⟨d, 2⟩] := by
  obtain ⟨s, hs, hobs⟩ := Option.map_eq_some_iff.mp h
  obtain ⟨hcommand, hnode⟩ := Prod.mk.injEq .. ▸ hobs
  obtain ⟨n, hn, hflag⟩ := Option.map_eq_some_iff.mp hcommand
  have hreach := System.reachable_exec (.init rfl) hs
  obtain ⟨v, hst, -⟩ := forest_reachable hreach
  obtain ⟨x, hx, -⟩ := hst.view hn
  have hvisit : Lib.Chain.Visits FlagNode.next s.flags n.flag [2] none := by
    rw [hflag]
    exact ⟨[(2, ⟨d, none⟩)], ⟨rfl, hnode, rfl⟩, rfl⟩
  have hflags := Lib.Chain.visits_unique (hst.flags 1 n x hn hx) hvisit
  have hdata : v.flag 2 = some d := by
    rw [← hst.flag 2, hnode]
    rfl
  refine ⟨s, v, hs, hreach, hst, ?_⟩
  simp only [Forest.commands, hx, Option.elim_some, hflags, List.filterMap_cons, hdata,
    Option.map_some, List.filterMap_nil]

/- Callbacks that verify nothing, and memory for all. -/
def plainCallbacks : Callbacks where
  fl := .none
  verify _ := none
  malloc _ := .always
  argv _ _ := true
  handler _ _ _ _ _ := 0

/- No variable has a value. -/
def emptyMemory : FlagMemory where
  scalar _
    | .bool => 0
    | .int8 => 0
    | .int16 => 0
    | .int32 => 0
    | .int64 => 0
    | .uint8 => 0
    | .uint16 => 0
    | .uint32 => 0
    | .uint64 => 0
    | .float32 => 0
    | .float64 => 0
    | .string => []
  array _ _ := ⟨none, [], 0, 0, false⟩
  used _ := false
  count := 0
  refused := false
  nullAccess := false

theorem ready_empty (v : Forest) : Ready v emptyMemory :=
  fun _ _ _ _ _ => Or.inl ⟨rfl, rfl⟩

theorem spellings_agree_worker :
    ∃ s v, registrySystem.exec (oneFlag "worker" 'w' 6) ⟨∅, ∅⟩ = some s ∧ Stores s v ∧
      SameRuns plainCallbacks ⟨v.commands, [] ++ ([text "--worker", text "7"] ++ []), false⟩
        ⟨v.commands, [] ++ ([text "-w7"] ++ []), false⟩ 1 emptyMemory := by
  obtain ⟨s, v, hs, hreach, hst, hflags⟩ := oneFlag_listed "worker" 'w' 6 (d := ⟨8, false,
    ⟨.uint8, false⟩, text "worker", ascii 'w', none, ⟨.uint8, false⟩, none⟩) (by decide)
  refine ⟨s, v, hs, hst, ?_⟩
  refine spellings_agree hreach hst (c := 1) ?_
    (f := ⟨⟨8, false, ⟨.uint8, false⟩, text "worker", ascii 'w', none, ⟨.uint8, false⟩, none⟩, 2⟩)
    ?_ (by decide) (by decide) (s := text "7") .longTwo (.joined (by decide) (by decide))
    plainCallbacks (fun _ _ => rfl) (ready_empty v) (a := .start 1 emptyMemory)
    ⟨.refl _, rfl, rfl⟩ rfl
  · rw [hflags]
    decide
  · rw [hflags]
    exact List.mem_cons_self

end LibeventHttpServe.Flags
