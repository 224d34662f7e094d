import LibeventHttpServe.Flags.Groups
import LibeventHttpServe.Flags.TreeInvariant

/-!
# A bool flag without a value (flags.c:644-669, 2520-2530, 2698-2718)

A bare bool flag is set to 1, but what `set_flag` returns is not looked at. It means the
same as the value 1 where `set_flag` takes that value.
-/

namespace LibeventHttpServe.Flags

open LibeventHttpServe.Lib

/-! ### Taking the value 1 -/

def trueValue : (e : ElemType) → Option e.Value
  | .bool => some 1
  | _ => none

/-- The array has room for one more element, or the allocator grants a growth. -/
def HasRoom {α : Type} (malloc : Malloc) (n size : UInt64) (a : ArrayCell α) : Prop :=
  (a.cap ≠ 0 ∧ startLen a < a.cap) ∨
    (malloc.answer (UInt64.ofNat (grownCap a n) * size)).isSome = true

/-- `verify` lets the value 1 pass, and an array has room for it; `n` arguments are
left. -/
structure TakesOne (k : Callbacks) (f : Flag) (m : FlagMemory) (n : ℕ) : Prop where
  verify : ∀ one verify, trueValue f.handler.elem = some one → k.verify f = some verify →
    verify m.values one = 0
  room : f.handler.array = true →
    HasRoom (k.malloc m.count) (.ofNat n) ElemType.bool.size (m.cell f ⟨.bool, true⟩)

theorem growBuffer_isSome {α : Type} {size : UInt64} {a : ArrayCell α} (malloc : Malloc)
    (n : UInt64) (hsize : 1 ≤ size.toNat ∧ size.toNat ≤ 8) (ha : Usable size a) :
    (growBuffer size n malloc a).isSome = true ↔ HasRoom malloc n size a := by
  by_cases hroom : a.cap ≠ 0 ∧ startLen a < a.cap
  · rw [growBuffer_room hroom.1 hroom.2]
    exact iff_of_true rfl (Or.inl hroom)
  · obtain ⟨hfull, -⟩ := full_of_no_room hsize ha hroom
    rw [growBuffer_request hfull, Option.isSome_map, HasRoom]
    exact ⟨Or.inr, fun h => h.resolve_left hroom⟩

/- A good value is stored when there is room. -/
theorem setAs_room (fl : Floats) {e : ElemType} (verify : Option (e.Value → ℤ)) (malloc : Malloc)
    {f : Flag} {s : Bytes} (n : ℕ) {m : FlagMemory} {w : e.Value}
    (hw : e.setFlag fl verify s s.length = .ok (.ok w))
    (hu : Usable e.size (m.cell f ⟨e, true⟩)) :
    (m.setAs fl ⟨e, true⟩ verify malloc f s n).1 = false ↔
      HasRoom malloc (.ofNat n) e.size (m.cell f ⟨e, true⟩) := by
  rw [← growBuffer_isSome malloc (.ofNat n) (size_bounds e) hu]
  cases hg : growBuffer e.size (.ofNat n) malloc (m.cell f ⟨e, true⟩) with
  | none =>
    have hset := (setFlag_array fl e verify s s.length (.ofNat n) malloc (m.cell f ⟨e, true⟩)).trans
      (arraySetFlag_refused hw hg)
    simp only [FlagMemory.setAs, hset]
    simp
  | some g =>
    refine iff_of_true ?_ rfl
    by_cases hp : (m.cell f ⟨e, true⟩).p = none
    · have hnull : NullAccess (m.cell f ⟨e, true⟩)
          (growBuffer e.size (.ofNat n) malloc (m.cell f ⟨e, true⟩)) :=
        ⟨hp, Option.ne_none_iff_exists'.mpr ⟨g, hg⟩⟩
      obtain ⟨fault, hfault⟩ := arraySetFlag_null (size_bounds e) hu hw hnull
      have hset := (setFlag_array fl e verify s s.length (.ofNat n) malloc
        (m.cell f ⟨e, true⟩)).trans hfault
      obtain ⟨b, hrun, -⟩ := arraySetFlag_backed (size_bounds e) hu hw hg
      have hbacked := (setFlag_array fl e verify s s.length (.ofNat n) malloc
        (FlagType.backed ⟨e, true⟩ (m.cell f ⟨e, true⟩))).trans hrun
      simp only [FlagMemory.setAs, hset, hbacked]
      rfl
    · obtain ⟨b, hrun, -⟩ := arraySetFlag_grown (size_bounds e) hu hw hg hp
      have hset := (setFlag_array fl e verify s s.length (.ofNat n) malloc
        (m.cell f ⟨e, true⟩)).trans hrun
      simp only [FlagMemory.setAs, hset]
      rfl

/- What the bool handlers make of the text `1`. -/
theorem parse_one (fl : Floats) (verify : Option (UInt8 → ℤ)) :
    ((∀ g, verify = some g → g 1 = 0) ∧
        ElemType.setFlag fl .bool verify (text "1") (text "1").length = .ok (.ok (1 : UInt8))) ∨
      ((¬ ∀ g, verify = some g → g 1 = 0) ∧ ∃ err, err ≠ 0 ∧
        ElemType.setFlag fl .bool verify (text "1") (text "1").length = .ok (.error err)) := by
  cases verify with
  | none => exact Or.inl ⟨nofun, rfl⟩
  | some g =>
    have hvalue : ElemType.setFlag fl .bool (some g) (text "1") (text "1").length =
        if g 1 ≠ 0 then .ok (.error (g 1)) else .ok (.ok (1 : UInt8)) := rfl
    by_cases h : g 1 = 0
    · rw [hvalue, if_neg (not_not.mpr h)]
      refine Or.inl ⟨?_, rfl⟩
      rintro g' ⟨⟩
      exact h
    · rw [hvalue, if_pos h]
      exact Or.inr ⟨fun hall => h (hall g rfl), g 1, h, rfl⟩

theorem setAs_one (fl : Floats) {t : FlagType} (ht : t.elem = .bool)
    (verify : Option (t.elem.Value → ℤ)) (malloc : Malloc) {f : Flag} (n : ℕ) {m : FlagMemory}
    (hu : ∀ e, t = ⟨e, true⟩ → Usable e.size (m.cell f ⟨e, true⟩)) :
    (m.setAs fl t verify malloc f (text "1") n).1 = false ↔
      (∀ one g, trueValue t.elem = some one → verify = some g → g one = 0) ∧
        (t.array = true →
          HasRoom malloc (.ofNat n) ElemType.bool.size (m.cell f ⟨.bool, true⟩)) := by
  obtain ⟨e, array⟩ := t
  cases ht
  have hpass : (∀ one g, trueValue .bool = some one → verify = some g → g one = 0) ↔
      ∀ g, verify = some g → g 1 = 0 := by
    constructor
    · exact fun h g hg => h 1 g rfl hg
    · rintro h one g ⟨⟩ hg
      exact h g hg
  rw [hpass]
  cases array with
  | false =>
    rcases parse_one fl verify with ⟨hall, hvalue⟩ | ⟨hno, err, herr, hvalue⟩
    · have hset : FlagType.setFlag fl ⟨.bool, false⟩ verify (text "1") (text "1").length (.ofNat n)
          malloc (m.cell f ⟨.bool, false⟩) = .ok (0, (1 : UInt8)) := by
        simp only [FlagType.setFlag, hvalue]
        rfl
      simp only [FlagMemory.setAs, hset]
      simpa using hall
    · have hset : FlagType.setFlag fl ⟨.bool, false⟩ verify (text "1") (text "1").length (.ofNat n)
          malloc (m.cell f ⟨.bool, false⟩) = .ok (err, m.cell f ⟨.bool, false⟩) := by
        simp only [FlagType.setFlag, hvalue]
        rfl
      simp only [FlagMemory.setAs, hset]
      simp [herr, hno]
  | true =>
    rcases parse_one fl verify with ⟨hall, hvalue⟩ | ⟨hno, err, herr, hvalue⟩
    · rw [setAs_room fl verify malloc n hvalue (hu .bool rfl)]
      exact ⟨fun hroom => ⟨hall, fun _ => hroom⟩, fun h => h.2 rfl⟩
    · have hset : FlagType.setFlag fl ⟨.bool, true⟩ verify (text "1") (text "1").length (.ofNat n)
          malloc (m.cell f ⟨.bool, true⟩) = .ok (err, m.cell f ⟨.bool, true⟩) := by
        rw [setFlag_array, hvalue]
        rfl
      simp only [FlagMemory.setAs, hset]
      simp [herr, hno]

theorem takesOne_iff {k : Callbacks} {v : Forest} {m : FlagMemory} {f : Flag} {p : Ptr} {n : ℕ}
    (hr : Ready v m) (hf : f ∈ v.commands.flag p) (hbool : f.handler.elem = .bool) :
    (k.env.setFlag m f (text "1") n).1 = false ↔ TakesOne k f m n := by
  have hset := setAs_one k.fl hbool (k.verifying f m.values) (k.malloc m.count) n (hr p f hf)
  refine Iff.trans hset ?_
  constructor
  · rintro ⟨hverify, hroom⟩
    refine ⟨?_, hroom⟩
    intro one verify hone hg
    exact hverify one (verify m.values) hone (Option.map_eq_some_iff.mpr ⟨verify, hg, rfl⟩)
  · intro h
    refine ⟨?_, h.room⟩
    intro one g hone hg
    obtain ⟨verify, hverify, rfl⟩ := Option.map_eq_some_iff.mp hg
    exact h.verify one verify hone hverify

/-! ### The two tokens -/

/-- The bool flags `gs` of a group are set to 1, with `n` arguments left. -/
def World.setMembers {β σ : Type} (e : Env σ) (gs : List Flag) (n : ℕ) (w : World β σ) : World β σ :=
  gs.foldl (fun w g => (w.setFlag e g (text "1") n).2) w

/-- `bare` gives the bool flag `f` without a value and `valued` with the value 1; the bool
flags `gs` stand before it in the same token. -/
inductive BareForm (fs : List Flag) (f : Flag) : List Flag → Bytes → Bytes → Prop where
  /- `--f` and `--f=1`, when they are not the names of other flags -/
  | long (hbare : longWord fs f.name = .bare f)
      (hvalue : longWord fs (f.name ++ text "=1") = .assign f (text "1")) :
      BareForm fs f [] (text "--" ++ f.name) (text "--" ++ (f.name ++ text "=1"))
  /- `-g...c` and `-g...c=1` -/
  | short {gs : List Flag} (hgs : ∀ g ∈ gs, g ∈ fs ∧ g.type.elem = .bool ∧ g.shortName ≠ 0)
      (hne : f.shortName ≠ 0) (hfirst : ∀ g ∈ (gs ++ [f]).head?, g.shortName ≠ ascii '-')
      (hlater : ∀ g ∈ (gs ++ [f]).tail, g.shortName ≠ ascii '=') :
      BareForm fs f gs (groupToken gs [f.shortName]) (groupToken gs (f.shortName :: text "=1"))

section Token

variable {β σ : Type} {x : Input} {e : Env σ} (push : ℕ → Bytes → β → Bool × β) {c : Ptr} {f : Flag}

theorem readBare_bool (hbool : f.type.elem = .bool) (i : ℕ) (short : Bool) (value : Option Bytes)
    (w : World β σ) : readBare x e c i f short value w =
      .one c true (w.setFlag e f (text "1") (x.argc - i - 1)).2 := by
  unfold readBare
  rw [if_pos hbool, Nat.sub_sub]

theorem readAssign_stored {s : Bytes} {i n : ℕ} (hn : x.argc - i - 1 = n) {w : World β σ}
    (h : (w.setFlag e f s n).1 = false) (short : Bool) :
    readAssign x e c i f s short w = .one c true (w.setFlag e f s n).2 := by
  unfold readAssign
  rw [hn]
  generalize w.setFlag e f s n = r at h ⊢
  obtain ⟨bad, u⟩ := r
  cases h
  rfl

theorem readAssign_rejected {s : Bytes} {i n : ℕ} (hn : x.argc - i - 1 = n) {w : World β σ}
    (h : (w.setFlag e f s n).1 = true) (short : Bool) :
    ∃ u, readAssign x e c i f s short w = .stop errorInvalidArgument u := by
  unfold readAssign
  rw [hn]
  generalize w.setFlag e f s n = r at h ⊢
  obtain ⟨bad, u⟩ := r
  cases h
  exact ⟨_, rfl⟩

/- The names of a group begin with that of its first flag. -/
theorem names_head (gs : List Flag) (f : Flag) (r : Bytes) : ∃ d ∈ (gs ++ [f]).head?, ∃ r',
    gs.map (fun g => g.shortName) ++ f.shortName :: r = d.shortName :: r' := by
  cases gs with
  | nil => exact ⟨f, rfl, r, rfl⟩
  | cons g gs => exact ⟨g, rfl, _, rfl⟩

-- by induction on the flags of the group
theorem readShort_members {gs : List Flag}
    (hgs : ∀ g ∈ gs, OwnNames (x.commands.flag c) g ∧ g.type.elem = .bool ∧ g.shortName ≠ 0)
    (hlater : ∀ g ∈ (gs ++ [f]).tail, g.shortName ≠ ascii '=') (i : ℕ) (t : Bytes)
    (value : Option Bytes) (r : Bytes) (first : Bool) (w : World β σ) :
    ∃ first', readShort x e push c i t value first
        (gs.map (fun g => g.shortName) ++ f.shortName :: r) w =
      readShort x e push c i t value first' (f.shortName :: r)
        (w.setMembers e gs (x.argc - i)) := by
  induction gs generalizing first w with
  | nil => exact ⟨first, rfl⟩
  | cons g gs ih =>
    obtain ⟨hown, hbool, hshort⟩ := hgs g List.mem_cons_self
    obtain ⟨d, hd, r', hrest⟩ := names_head gs f r
    have hb := hlater d (List.mem_of_mem_head? hd)
    have hword : shortWord (x.commands.flag c) (g.shortName :: d.shortName :: r') = .member g := by
      simp [shortWord_own hown hshort, hb, hbool]
    obtain ⟨first', ih⟩ := ih (fun d hd => hgs d (List.mem_cons_of_mem g hd))
      (fun d hd => hlater d (List.mem_of_mem_tail hd)) false
      (w.setFlag e g (text "1") (x.argc - i)).2
    refine ⟨first', ?_⟩
    rw [List.map_cons, List.cons_append, hrest, readShort, hword]
    rw [hrest] at ih
    exact ih

theorem readToken_group {gs : List Flag}
    (hgs : ∀ g ∈ gs, OwnNames (x.commands.flag c) g ∧ g.type.elem = .bool ∧ g.shortName ≠ 0)
    (hfirst : ∀ g ∈ (gs ++ [f]).head?, g.shortName ≠ ascii '-')
    (hlater : ∀ g ∈ (gs ++ [f]).tail, g.shortName ≠ ascii '=') (i : ℕ) (input : Bool)
    (value : Option Bytes) (r : Bytes) (w : World β σ) :
    ∃ first', readToken x e push c i input (groupToken gs (f.shortName :: r)) value w =
      readShort x e push c i (groupToken gs (f.shortName :: r)) value first' (f.shortName :: r)
        (w.setMembers e gs (x.argc - i)) := by
  obtain ⟨d, hd, r', hrest⟩ := names_head gs f r
  have htoken : tokenOf (groupToken gs (f.shortName :: r)) =
      .short (gs.map (fun g => g.shortName) ++ f.shortName :: r) := by
    rw [groupToken, hrest]
    exact tokenOf_short (hfirst d hd) r'
  unfold readToken
  rw [htoken]
  exact readShort_members push hgs hlater i _ value r true w

theorem bareForm_members {fs gs : List Flag} {bare valued : Bytes}
    (ho : BareForm fs f gs bare valued) : ∀ g ∈ gs, g ∈ fs := by
  cases ho with
  | long hbare hvalue =>
    intro g hg
    cases hg
  | short hgs hne hfirst hlater => exact fun g hg => (hgs g hg).1

/-- How the two tokens are read: the first sets the flag to 1 whatever comes of it. -/
theorem bareForm_read {v : Forest} (hv : WellFormed v) (hx : x.commands = v.commands)
    (hf : f ∈ v.commands.flag c) (hbool : f.type.elem = .bool) {gs : List Flag}
    {bare valued : Bytes} (ho : BareForm (v.commands.flag c) f gs bare valued) (i : ℕ)
    (input : Bool) (value : Option Bytes) (w : World β σ) :
    readToken x e push c i input bare value w = .one c true
        ((w.setMembers e gs (x.argc - i)).setFlag e f (text "1") (x.argc - i - 1)).2 ∧
      ∃ short, readToken x e push c i input valued value w =
        readAssign x e c i f (text "1") short (w.setMembers e gs (x.argc - i)) := by
  have hown := listed_names hv hf
  rw [← hx] at hown ho
  cases ho with
  | long hbare hvalue =>
    have hne : f.name ++ text "=1" ≠ [] := by simp [hown.nonempty]
    constructor
    · simp only [readToken, tokenOf_long hown.nonempty, readLong, hbare]
      exact readBare_bool hbool i false value w
    · refine ⟨false, ?_⟩
      simp only [readToken, tokenOf_long hne, readLong, hvalue]
      rfl
  | short hgs hne hfirst hlater =>
    have hgs' : ∀ g ∈ gs, OwnNames (x.commands.flag c) g ∧ g.type.elem = .bool ∧
        g.shortName ≠ 0 := by
      intro g hg
      obtain ⟨hlisted, hrest⟩ := hgs g hg
      rw [hx] at hlisted ⊢
      exact ⟨listed_names hv hlisted, hrest⟩
    have hword := shortWord_own hown hne
    constructor
    · obtain ⟨first, hread⟩ := readToken_group (e := e) push hgs' hfirst hlater i input value
        [] w
      rw [hread, readShort, hword, if_pos rfl]
      exact readBare_bool hbool i true value _
    · obtain ⟨first, hread⟩ := readToken_group (e := e) push hgs' hfirst hlater i input value
        (text "=1") w
      refine ⟨true, ?_⟩
      rw [hread, readShort, hword]
      rfl

end Token

/-! ### Argument lists of one length -/

section Same

variable {k : Callbacks} {v : Forest} {x y : Input}

/-- Two readings of lists of one length are the same reading. -/
theorem tracks_same (hx : x.commands = v.commands) (hy : x.commands = y.commands)
    (hallow : x.allowUnknow = y.allowUnknow) (hargc : x.argc = y.argc) :
    Tracks x y k.env k.env (pushAt x k.env) (pushAt y k.env) (Listed x.commands) Eq
      (fun _ => False) (fun w w' => w = w' ∧ Ready v w.mem) where
  next := fun i j h => congrArg (· + 1) h
  lostPush := fun _ _ _ h => h
  allowUnknow := hallow
  child := by rw [hy]
  long := longWord_listed hy
  short := shortWord_listed hy
  type := fun f g h => by rw [h.1]
  setFlag := by
    rintro w _ f _ s i _ l ⟨rfl, hready⟩ ⟨rfl, p, hf⟩ rfl
    rw [hx] at hf
    rw [hargc]
    exact Or.inr ⟨rfl, rfl, ready_set hready hf⟩
  emit := by
    rintro w _ es es' ⟨rfl, hready⟩ hes
    rw [sameEvent_listed (fun f g h => h.1) hes]
    exact ⟨rfl, hready⟩
  push := by
    rintro i _ t w _ ⟨rfl, hready⟩ rfl
    unfold pushAt
    rw [hargc]
    exact ⟨rfl, rfl, hready⟩
  lostSet := fun _ _ _ _ h => h
  lostEmit := fun _ _ h => h

theorem read_same (hx : x.commands = v.commands) (hy : x.commands = y.commands)
    (hallow : x.allowUnknow = y.allowUnknow) (hargc : x.argc = y.argc) (toks : List Bytes) (i : ℕ)
    (c : Ptr) (input : Bool) {w : World HandlerArgs FlagMemory} (hready : Ready v w.mem) :
    read x k.env (pushAt x k.env) toks i c input w =
      read y k.env (pushAt y k.env) toks i c input w := by
  have hrel := ((tracks_same (k := k) hx hy hallow hargc).reading toks (i := i) rfl c input
    ⟨rfl, hready⟩).resolve_left id
  exact hrel.eq fun _ _ h => h.1

/-- The tokens that lead to a token position lead to it whatever stands there. -/
theorem position_same (hx : x.commands = v.commands) (hy : x.commands = y.commands)
    (hallow : x.allowUnknow = y.allowUnknow) (hargc : x.argc = y.argc) {root : Ptr}
    {m : FlagMemory} (hready : Ready v m) {pre rest : List Bytes} {a : Args FlagMemory}
    (hpos : Reaches x k.env root m pre.length a) (htoks : x.argv = pre ++ rest) :
    Passes y k.env (pushAt y k.env) pre 0 root false ⟨m, .start, []⟩ a.command a.input a.world ∧
      Ready v a.world.mem := by
  obtain ⟨u, hu, rfl, hend⟩ := ((tracks_same (k := k) hx hy hallow hargc).passes
    (hpos.passes htoks) ⟨rfl, hready⟩ rfl).resolve_left id
  exact ⟨hu, hend⟩

/-- A run from a token position on. -/
theorem run_from (hx : x.commands = v.commands) (hy : x.commands = y.commands)
    (hallow : x.allowUnknow = y.allowUnknow) (hargc : x.argc = y.argc) {root : Ptr}
    {m : FlagMemory} (hready : Ready v m) {pre rest post : List Bytes} {t : Bytes}
    {a : Args FlagMemory} (hpos : Reaches x k.env root m pre.length a)
    (htoks : x.argv = pre ++ rest) (hargv : y.argv = pre ++ t :: post) :
    ∃ n, execute y k.env root m n = some (finish y k.env
      (resume y k.env (pushAt y k.env) a.command pre.length post
        (readToken y k.env (pushAt y k.env) a.command pre.length a.input t post.head?
          a.world))) := by
  obtain ⟨n, hn⟩ := execute_read y k.env root m
  have hp := (position_same hx hy hallow hargc hready hpos htoks).1
  rw [hargv, read_passes hp, Nat.zero_add, read_cons] at hn
  exact ⟨n, hn⟩

theorem ready_members {c : Ptr} {gs : List Flag} (hgs : ∀ g ∈ gs, g ∈ v.commands.flag c) (n : ℕ)
    {w : World HandlerArgs FlagMemory} (hready : Ready v w.mem) :
    Ready v (w.setMembers k.env gs n).mem := by
  induction gs generalizing w with
  | nil => exact hready
  | cons g gs ih =>
    have hset : Ready v (w.setFlag k.env g (text "1") n).2.mem :=
      ready_set hready (hgs g List.mem_cons_self)
    exact ih (fun d hd => hgs d (List.mem_cons_of_mem g hd)) hset

end Same

/-! ### Two runs -/

/-- Both runs end, with the same error code, flag contents and handler call. -/
def SameOutcome (k : Callbacks) (x y : Input) (root : Ptr) (m : FlagMemory) : Prop :=
  ∃ r r', (∃ n, execute x k.env root m n = some r) ∧ (∃ n, execute y k.env root m n = some r') ∧
    r.err = r'.err ∧ r.world.mem.values = r'.world.mem.values ∧
    calls r.world.log = calls r'.world.log

theorem SameOutcome.err {k : Callbacks} {x y : Input} {root : Ptr} {m : FlagMemory}
    (h : SameOutcome k x y root m) {r r' : Result FlagMemory}
    (hr : ∃ n, execute x k.env root m n = some r)
    (hr' : ∃ n, execute y k.env root m n = some r') : r.err = r'.err := by
  obtain ⟨q, q', ⟨i, hq⟩, ⟨j, hq'⟩, herr, -⟩ := h
  obtain ⟨n, hn⟩ := hr
  obtain ⟨n', hn'⟩ := hr'
  rw [execute_unique hn, execute_unique hn', ← execute_unique hq, ← execute_unique hq']
  exact herr

/- Empty tokens are positional arguments. -/
theorem read_empty {σ : Type} {x : Input} {e : Env σ} (n i : ℕ) (c : Ptr)
    (w : World HandlerArgs σ) :
    (finish x e (read x e (pushAt x e) (List.replicate n []) i c true w)).err ≠
      errorInvalidArgument := by
  induction n generalizing i w with
  | zero =>
    show (call x e c w).err ≠ errorInvalidArgument
    rw [call_err]
    decide
  | succ n ih =>
    rw [List.replicate_succ, read_cons]
    have htoken (value : Option Bytes) : readToken x e (pushAt x e) c i true [] value w =
        readPositional (pushAt x e) c i [] w := rfl
    rw [htoken]
    unfold readPositional
    rcases pushAt x e i [] w.args with ⟨ok, b⟩
    cases ok with
    | true => exact ih (i + 1) _
    | false =>
      show errorMallocArgv ≠ errorInvalidArgument
      decide

section Runs

variable {k : Callbacks} {v : Forest} {c root : Ptr} {m : FlagMemory} {f : Flag}
  {gs : List Flag} {bare valued : Bytes} {allowUnknow : Bool} {pre post : List Bytes}
  {a : Args FlagMemory}

/-- The two runs, by whether `set_flag` takes the value 1. -/
theorem bare_runs (hv : WellFormed v) (hf : f ∈ v.commands.flag c) (hbool : f.type.elem = .bool)
    (ho : BareForm (v.commands.flag c) f gs bare valued) (hready : Ready v m)
    (hpos : Reaches ⟨v.commands, pre ++ bare :: post, allowUnknow⟩ k.env root m pre.length a)
    (hc : a.command = c) {post' : List Bytes} (hlen : post'.length = post.length) :
    let u := (a.world.setMembers k.env gs (post.length + 1)).setFlag k.env f (text "1") post.length
    ∃ r r', (∃ n, execute ⟨v.commands, pre ++ bare :: post', allowUnknow⟩ k.env root m n = some r) ∧
      (∃ n, execute ⟨v.commands, pre ++ valued :: post', allowUnknow⟩ k.env root m n = some r') ∧
      (u.1 = false → r = r') ∧
      (u.1 = true → r'.err = errorInvalidArgument ∧
        (post' = List.replicate post.length [] → r.err ≠ errorInvalidArgument)) := by
  intro u
  let z : Input := ⟨v.commands, pre ++ bare :: post, allowUnknow⟩
  let x (t : Bytes) : Input := ⟨v.commands, pre ++ t :: post', allowUnknow⟩
  have hargc (t : Bytes) : z.argc = (x t).argc := by
    simp [z, x, Input.argc, hlen]
  have hleft (t : Bytes) : (x t).argc - pre.length = post.length + 1 := by
    simp [x, Input.argc, hlen]
  have hlast : (x valued).argc - pre.length - 1 = post.length := by
    rw [hleft, Nat.add_sub_cancel]
  obtain ⟨n, hn⟩ := run_from (v := v) (x := z) (y := x bare) rfl rfl rfl (hargc bare) hready hpos rfl
    rfl
  obtain ⟨n', hn'⟩ := run_from (v := v) (x := z) (y := x valued) rfl rfl rfl (hargc valued) hready
    hpos rfl rfl
  have hend := (position_same (v := v) (x := z) (y := x bare) rfl rfl rfl (hargc bare) hready hpos
    rfl).2
  have hready' : Ready v u.2.mem := ready_set (ready_members (bareForm_members ho) _ hend) hf
  have hsame := read_same (k := k) (v := v) (x := x bare) (y := x valued) rfl rfl rfl
    ((hargc bare).symm.trans (hargc valued)) post' (pre.length + 1) c true hready'
  have hbare := (bareForm_read (x := x bare) (e := k.env) (pushAt (x bare) k.env) hv rfl hf hbool ho
    pre.length a.input post'.head? a.world).1
  obtain ⟨short, hvalued⟩ := (bareForm_read (x := x valued) (e := k.env) (pushAt (x valued) k.env) hv
    rfl hf hbool ho pre.length a.input post'.head? a.world).2
  rw [hleft, Nat.add_sub_cancel] at hbare
  rw [hleft] at hvalued
  rw [hc, hbare] at hn
  rw [hc, hvalued] at hn'
  refine ⟨_, _, ⟨n, hn⟩, ⟨n', hn'⟩, ?_, ?_⟩
  · intro hok
    rw [readAssign_stored hlast hok]
    exact congrArg (finish (x valued) k.env) hsame
  · intro hbad
    obtain ⟨w, hw⟩ := readAssign_rejected (c := c) hlast hbad short
    rw [hw]
    refine ⟨rfl, ?_⟩
    rintro rfl
    exact read_empty post.length (pre.length + 1) c u.2

end Runs

/-- Over a reachable registry, at a token position with the command `c`: a bool flag of `c`
without a value and with the value 1 have the same outcome before any tokens if and only if
`set_flag` can take the value 1. -/
theorem bareBool_iff {t : Registry} (ht : registrySystem.Reachable t) {v : Forest}
    (hst : Stores t v) {c : Ptr} {f : Flag} (hf : f ∈ v.commands.flag c)
    (hbool : f.type.elem = .bool) {gs : List Flag} {bare valued : Bytes}
    (ho : BareForm (v.commands.flag c) f gs bare valued) (k : Callbacks) {m : FlagMemory}
    (hready : Ready v m) {root : Ptr} {allowUnknow : Bool} {pre post : List Bytes}
    {a : Args FlagMemory}
    (hpos : Reaches ⟨v.commands, pre ++ bare :: post, allowUnknow⟩ k.env root m pre.length a)
    (hc : a.command = c) :
    (∀ post', post'.length = post.length →
      SameOutcome k ⟨v.commands, pre ++ bare :: post', allowUnknow⟩
        ⟨v.commands, pre ++ valued :: post', allowUnknow⟩ root m) ↔
      TakesOne k f (a.world.setMembers k.env gs (post.length + 1)).mem post.length := by
  obtain ⟨w, hw, hv⟩ := forest_reachable ht
  obtain rfl := hst.unique hw
  have hend := (position_same (v := v) rfl rfl rfl rfl hready hpos rfl).2
  have hmembers := ready_members (k := k) (bareForm_members ho) (post.length + 1) hend
  have helem : f.handler.elem = .bool := by
    rw [handler_reachable ht hst _ _ (listed_flag hf)]
    exact hbool
  rw [← takesOne_iff hmembers hf helem]
  constructor
  · intro hsame
    by_contra hbad
    obtain ⟨r, r', hr, hr', -, hrejected⟩ := bare_runs hv hf hbool ho hready hpos hc
      (List.length_replicate (n := post.length) (a := []))
    obtain ⟨herr', herr⟩ := hrejected (Bool.eq_true_of_not_eq_false hbad)
    have hcode := (hsame (List.replicate post.length []) List.length_replicate).err hr hr'
    exact herr rfl (hcode.trans herr')
  · intro hok post' hlen
    obtain ⟨r, r', hr, hr', hsame, -⟩ := bare_runs hv hf hbool ho hready hpos hc hlen
    obtain rfl := hsame hok
    exact ⟨r, r, hr, hr', rfl, rfl, rfl⟩

theorem verbose_bare {v : Forest} (h : v.commands.flag 1 = [verbose]) :
    BareForm (v.commands.flag 1) verbose [] (text "--verbose") (text "--verbose=1") := by
  rw [h]
  exact .long (by decide) (by decide)

theorem bareBool_iff_verbose :
    ∃ s v, registrySystem.exec (oneFlag "verbose" 'v' 1) ⟨∅, ∅⟩ = some s ∧ Stores s v ∧
      SameOutcome plainCallbacks ⟨v.commands, [text "--verbose", text "-"], false⟩
        ⟨v.commands, [text "--verbose=1", text "-"], false⟩ 1 emptyMemory := by
  obtain ⟨s, v, hs, hreach, hst, hflags⟩ := verbose_listed
  refine ⟨s, v, hs, hst, ?_⟩
  have hf : verbose ∈ v.commands.flag 1 := by simp [hflags]
  have ho := verbose_bare hflags
  have htakes : TakesOne plainCallbacks verbose emptyMemory 1 := ⟨nofun, nofun⟩
  have hpos : Reaches ⟨v.commands, [] ++ text "--verbose" :: [text "-"], false⟩ plainCallbacks.env 1
      emptyMemory 0 (.start 1 emptyMemory) := ⟨.refl _, rfl, rfl⟩
  exact (bareBool_iff hreach hst hf rfl ho plainCallbacks (ready_empty v) hpos rfl).mpr htakes
    [text "-"] rfl

/- `verify` lets nothing pass. -/
def rejectingCallbacks : Callbacks := { plainCallbacks with verify _ := some fun _ _ => 1 }

/-- Without a value the run goes on as if nothing had been given; with the value 1 it is an
error. -/
theorem bareBool_rejected :
    ∃ s v, registrySystem.exec (oneFlag "verbose" 'v' 1) ⟨∅, ∅⟩ = some s ∧ Stores s v ∧
      ¬ SameOutcome rejectingCallbacks ⟨v.commands, [text "--verbose"], false⟩
        ⟨v.commands, [text "--verbose=1"], false⟩ 1 emptyMemory := by
  obtain ⟨s, v, hs, hreach, hst, hflags⟩ := verbose_listed
  refine ⟨s, v, hs, hst, ?_⟩
  obtain ⟨w, hw, hv⟩ := forest_reachable hreach
  obtain rfl := hst.unique hw
  have hf : verbose ∈ v.commands.flag 1 := by simp [hflags]
  have hpos : Reaches ⟨v.commands, [] ++ text "--verbose" :: [], false⟩ rejectingCallbacks.env 1
      emptyMemory 0 (.start 1 emptyMemory) := ⟨.refl _, rfl, rfl⟩
  obtain ⟨r, r', hr, hr', -, hrejected⟩ := bare_runs hv hf rfl (verbose_bare hflags) (ready_empty v)
    hpos rfl (rfl : ([] : List Bytes).length = 0)
  obtain ⟨herr', herr⟩ := hrejected (by decide)
  intro hsame
  exact herr rfl ((hsame.err hr hr').trans herr')

end LibeventHttpServe.Flags
