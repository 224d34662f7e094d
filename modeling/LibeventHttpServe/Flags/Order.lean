import LibeventHttpServe.Flags.Lookup
import LibeventHttpServe.Flags.Refinement

/-!
# The order in which flags are registered

The flags of a command are registered one after the other, each with the address
`malloc` returns for it, and looked up by the first match. The order does not
matter when no name is that of another flag with a `'='` behind.
-/

namespace LibeventHttpServe.Flags

open LibeventHttpServe.Lib

/-- The arguments of `ppp_c_flags_add_flag` that describe the flag. -/
structure FlagArgs where
  name : Bytes
  shortName : UInt8
  describe : Option Bytes
  value : Ptr
  valueType : ℤ
  deriving DecidableEq, Repr

/-- The flag that is made of the arguments when they pass the checks that do not
look at the other flags. -/
def FlagArgs.data (a : FlagArgs) : Option FlagData :=
  match checkFlag (some (cString a.name)), FlagType.ofTag a.valueType with
  | some name, some type =>
    if name = text "help" ∨ a.shortName = ascii 'h' then none
    else some ⟨a.value, false, type, name, a.shortName, a.describe, type, none⟩
  | _, _ => none

/-- `ppp_c_flags_add_flag` for one flag after the other, each with the address that
`malloc` returns; `none` when one of them is not accepted. -/
def registerFlags (c : Ptr) : List (FlagArgs × Ptr) → Registry → Option Registry
  | [], s => some s
  | p :: l, s =>
    match addFlag c (some p.1.name) p.1.shortName p.1.describe p.1.value p.1.valueType
        (some p.2) s with
    | some (⟨some _, _⟩, s) => registerFlags c l s
    | _ => none

/-! ### What is accepted -/

variable {s t : Registry} {v w : Forest} {c : Ptr} {x : CommandView} {a : FlagArgs} {f : Ptr}
  {d : FlagData}

theorem data_some (h : a.data = some d) :
    checkFlag (some (cString a.name)) = some d.name ∧ d.name = cString a.name ∧
      d.name ≠ text "help" ∧ d.shortName ≠ ascii 'h' ∧
      ∃ type, FlagType.ofTag a.valueType = some type ∧
        d = ⟨a.value, false, type, cString a.name, a.shortName, a.describe, type, none⟩ := by
  unfold FlagArgs.data at h
  cases hn : checkFlag (some (cString a.name)) with
  | none => simp [hn] at h
  | some name =>
    have hname : cString a.name = name := Option.some.inj (checkFlag_some hn).1
    cases htag : FlagType.ofTag a.valueType with
    | none => simp [hn, htag] at h
    | some type =>
      simp only [hn, htag, Option.ite_none_left_eq_some, Option.some.injEq, not_or] at h
      obtain ⟨⟨hhelp, hh⟩, rfl⟩ := h
      subst hname
      exact ⟨rfl, rfl, hhelp, hh, type, rfl, rfl⟩

/-- A call that returns a flag has made it of its arguments, with names of its own. -/
theorem addFlag_some (hs : Stores s v) (hv : WellFormed v) {g : Ptr} {err : ℕ}
    (h : addFlag c (some a.name) a.shortName a.describe a.value a.valueType (some f) s =
      some (⟨some g, err⟩, t)) :
    ∃ x d, v.command c = some x ∧ a.data = some d ∧ Unused v x d.name d.shortName ∧
      f ∉ s.flags ∧ Stores t (v.addFlag c x f d) := by
  simp only [addFlag] at h
  split at h
  · cases h
  rcases addFlagWithLen_cases hs hv h with
    ⟨hnone, -⟩ | ⟨name, type, x, f', hn, hhelp, hh, htag, hx, hunused, hm, hf, -, hst⟩
  · cases hnone
  · cases hm
    refine ⟨x, _, hx, ?_, hunused, hf, hst⟩
    simp only [FlagArgs.data, hn, htag]
    exact if_neg (not_or.mpr ⟨hhelp, hh⟩)

theorem addFlag_accepts (hs : Stores s v) (hx : v.command c = some x) (hd : a.data = some d)
    (hunused : Unused v x d.name d.shortName) (hf : f ∉ s.flags) :
    ∃ t, addFlag c (some a.name) a.shortName a.describe a.value a.valueType (some f) s =
      some (⟨some f, 0⟩, t) := by
  obtain ⟨hn, hname, hhelp, hh, type, htag, rfl⟩ := data_some hd
  have hne := (checkFlag_some hn).2
  simp only [addFlag, if_neg hne]
  exact addFlagWithLen_accepts hs hx hn hhelp hh htag hunused hf

/-! ### The lists after a registration -/

theorem addFlag_child (hx : v.command c = some x) :
    (v.addFlag c x f d).commands.child = v.commands.child := by
  have hname : ∀ q, ((v.addFlag c x f d).command q).map (fun y => (q, y.name)) =
      (v.command q).map fun y => (q, y.name) := by
    intro q
    by_cases hq : q = c
    · subst hq
      rw [hx]
      simp only [Forest.addFlag, Function.update_self, Option.map_some]
    · simp only [Forest.addFlag, Function.update_of_ne hq]
  funext q
  simp only [Forest.commands, hname]
  by_cases hq : q = c
  · subst hq
    rw [hx]
    simp only [Forest.addFlag, Function.update_self, Option.elim_some]
  · simp only [Forest.addFlag, Function.update_of_ne hq]

theorem addFlag_handler (hx : v.command c = some x) :
    (v.addFlag c x f d).commands.handler = v.commands.handler := by
  funext q
  simp only [Forest.commands]
  by_cases hq : q = c
  · subst hq
    rw [hx]
    simp only [Forest.addFlag, Function.update_self, Option.bind_some]
  · simp only [Forest.addFlag, Function.update_of_ne hq]

theorem addFlag_list (hv : WellFormed v) (hx : v.command c = some x) (hf : v.flag f = none)
    (q : Ptr) :
    (v.addFlag c x f d).commands.flag q =
      v.commands.flag q ++ if q = c then [⟨d, f⟩] else [] := by
  -- the flags that were there are not the new one
  have hold : ∀ y, v.command q = some y →
      y.flags.filterMap (fun e => ((v.addFlag c x f d).flag e).map fun g => (⟨g, e⟩ : Flag)) =
        y.flags.filterMap fun e => (v.flag e).map fun g => (⟨g, e⟩ : Flag) := by
    intro y hy
    apply List.filterMap_congr
    intro e he
    simp only [Forest.addFlag, Function.update_of_ne (flag_ne hv hf hy he)]
  by_cases hq : q = c
  · subst hq
    have hnew : (v.addFlag q x f d).flag f = some d := Function.update_self ..
    have hcommand : (v.addFlag q x f d).command q = some { x with flags := x.flags ++ [f] } :=
      Function.update_self ..
    rw [if_pos rfl]
    simp only [Forest.commands, hcommand, hx, Option.elim_some, List.filterMap_append, hold x hx]
    rw [List.filterMap_cons, hnew]
    rfl
  · have hcommand : (v.addFlag c x f d).command q = v.command q :=
      Function.update_of_ne hq ..
    rw [if_neg hq, List.append_nil]
    simp only [Forest.commands, hcommand]
    cases hy : v.command q with
    | none => rfl
    | some y => exact hold y hy

/-! ### Registering a list of flags -/

/-- What two flags of a command differ in. -/
def Distinct (d g : FlagData) : Prop :=
  d.name ≠ g.name ∧ ¬ (d.shortName ≠ 0 ∧ d.shortName = g.shortName)

theorem Distinct.symm {d g : FlagData} (h : Distinct d g) : Distinct g d := by
  obtain ⟨hname, hshort⟩ := h
  refine ⟨hname.symm, ?_⟩
  intro hg
  exact hshort ⟨hg.2 ▸ hg.1, hg.2.symm⟩

theorem mem_list {g : Flag} (hx : v.command c = some x) :
    g ∈ v.commands.flag c ↔ g.ptr ∈ x.flags ∧ v.flag g.ptr = some g.toFlagData := by
  simp only [Forest.commands, hx, Option.elim_some, List.mem_filterMap, Option.map_eq_some_iff]
  constructor
  · intro h
    obtain ⟨e, he, a, ha, rfl⟩ := h
    exact ⟨he, ha⟩
  · intro h
    exact ⟨g.ptr, h.1, g.toFlagData, h.2, rfl⟩

theorem unused_list (hx : v.command c = some x) :
    Unused v x d.name d.shortName ↔
      ∀ g ∈ (v.commands.flag c).map Flag.toFlagData, Distinct d g := by
  constructor
  · intro h g hg
    obtain ⟨k, hk, rfl⟩ := List.mem_map.mp hg
    obtain ⟨he, hflag⟩ := (mem_list hx).mp hk
    exact h k.ptr he k.toFlagData hflag
  · intro h e he g hg
    exact h g (List.mem_map.mpr ⟨⟨g, e⟩, (mem_list hx).mpr ⟨he, hg⟩, rfl⟩)

/-- The flag with its address. -/
def flagOf (p : FlagArgs × Ptr) : Option Flag := p.1.data.map fun d => ⟨d, p.2⟩

/-- The data of all flags. -/
def allData (l : List FlagArgs) : List FlagData := l.filterMap FlagArgs.data

theorem flagOf_data (l : List (FlagArgs × Ptr)) :
    (l.filterMap flagOf).map Flag.toFlagData = allData (l.map Prod.fst) := by
  rw [List.map_filterMap, allData, List.filterMap_map]
  apply List.filterMap_congr
  intro p _
  simp only [flagOf, Option.map_map, Function.comp_apply]
  exact Option.map_id'

/-- The forest `w` is `v` with the flags of the list at the end of those of `c`. -/
structure FlagsAdded (c : Ptr) (l : List (FlagArgs × Ptr)) (v w : Forest) : Prop where
  child : w.commands.child = v.commands.child
  handler : w.commands.handler = v.commands.handler
  flag : ∀ q, w.commands.flag q =
    v.commands.flag q ++ if q = c then l.filterMap flagOf else []

/-- The addresses of the list are free and differ, and all flags pass their
checks. -/
structure Registrable (l : List (FlagArgs × Ptr)) (v : Forest) : Prop where
  data : ∀ p ∈ l, ∃ d, p.1.data = some d
  free : ∀ p ∈ l, v.flag p.2 = none
  nodup : (l.map Prod.snd).Nodup

theorem wellFormed_registered (hv : WellFormed v) (hx : v.command c = some x)
    (hf : v.flag f = none) (hd : a.data = some d) (hunused : Unused v x d.name d.shortName) :
    WellFormed (v.addFlag c x f d) := by
  obtain ⟨hn, -, hhelp, hh, -⟩ := data_some hd
  exact hv.addFlag hx hf ⟨(checkFlag_some hn).2, hhelp, hh⟩ hunused

theorem registrable_cons {p : FlagArgs × Ptr} {l : List (FlagArgs × Ptr)} (hd : p.1.data = some d) :
    Registrable (p :: l) v ↔
      v.flag p.2 = none ∧ Registrable l (v.addFlag c x p.2 d) := by
  constructor
  · intro h
    obtain ⟨hdata, hfree, hnodup⟩ := h
    obtain ⟨hp, hnodup⟩ := List.nodup_cons.mp hnodup
    refine ⟨hfree p List.mem_cons_self, fun q hq => hdata q (List.mem_cons_of_mem _ hq), ?_, hnodup⟩
    intro q hq
    have hqp : q.2 ≠ p.2 := by
      intro heq
      exact hp (heq ▸ List.mem_map_of_mem hq)
    simp only [Forest.addFlag, Function.update_of_ne hqp]
    exact hfree q (List.mem_cons_of_mem _ hq)
  · intro h
    obtain ⟨hp, hdata, hfree, hnodup⟩ := h
    have hother : ∀ q ∈ l, q.2 ≠ p.2 ∧ v.flag q.2 = none := by
      intro q hq
      have hfq := hfree q hq
      by_cases hqp : q.2 = p.2
      · simp only [Forest.addFlag, hqp, Function.update_self] at hfq
        cases hfq
      · simp only [Forest.addFlag, Function.update_of_ne hqp] at hfq
        exact ⟨hqp, hfq⟩
    refine ⟨List.forall_mem_cons.mpr ⟨⟨d, hd⟩, hdata⟩,
      List.forall_mem_cons.mpr ⟨hp, fun q hq => (hother q hq).2⟩, ?_⟩
    apply List.nodup_cons.mpr
    refine ⟨?_, hnodup⟩
    intro hm
    obtain ⟨q, hq, hqp⟩ := List.mem_map.mp hm
    exact (hother q hq).1 hqp

theorem register_some {l : List (FlagArgs × Ptr)} (hs : Stores s v) (hv : WellFormed v)
    (hx : v.command c = some x) (h : registerFlags c l s = some t) :
    Registrable l v ∧ ∃ w, Stores t w ∧ WellFormed w ∧ FlagsAdded c l v w := by
  induction l generalizing s v x with
  | nil =>
    cases h
    refine ⟨⟨nofun, nofun, List.nodup_nil⟩, v, hs, hv, rfl, rfl, ?_⟩
    intro q
    rw [List.filterMap_nil, ite_self, List.append_nil]
  | cons p l ih =>
    rw [registerFlags] at h
    split at h
    · rename_i g err s₁ hadd
      obtain ⟨y, d, hy, hd, hunused, hf, hs₁⟩ := addFlag_some hs hv hadd
      cases hx.symm.trans hy
      have hfree := hs.notMem.mp hf
      have hv₁ := wellFormed_registered hv hx hfree hd hunused
      obtain ⟨hregistrable, w, hw, hwf, hchild, hhandler, hflag⟩ :=
        ih hs₁ hv₁ (Function.update_self ..) h
      refine ⟨(registrable_cons hd).mpr ⟨hfree, hregistrable⟩, w, hw, hwf, ?_, ?_, ?_⟩
      · rw [hchild, addFlag_child hx]
      · rw [hhandler, addFlag_handler hx]
      · intro q
        have hof : flagOf p = some ⟨d, p.2⟩ := by rw [flagOf, hd, Option.map_some]
        rw [hflag q, addFlag_list hv hx hfree, List.append_assoc, List.filterMap_cons, hof]
        by_cases hq : q = c
        · rw [if_pos hq, if_pos hq, if_pos hq]
          rfl
        · rw [if_neg hq, if_neg hq, if_neg hq]
          rfl
    · cases h

theorem register_accepts {l : List (FlagArgs × Ptr)} (hs : Stores s v) (hv : WellFormed v)
    (hx : v.command c = some x) (hl : Registrable l v)
    (hpair : ((v.commands.flag c).map Flag.toFlagData ++ allData (l.map Prod.fst)).Pairwise
      Distinct) : ∃ t, registerFlags c l s = some t := by
  induction l generalizing s v x with
  | nil => exact ⟨s, rfl⟩
  | cons p l ih =>
    obtain ⟨d, hd⟩ := hl.data p List.mem_cons_self
    obtain ⟨hfree, hrest⟩ := (registrable_cons (c := c) (x := x) hd).mp hl
    have hcons : allData ((p :: l).map Prod.fst) = d :: allData (l.map Prod.fst) := by
      rw [allData, List.map_cons, List.filterMap_cons, hd]
      rfl
    rw [hcons] at hpair
    have hunused : Unused v x d.name d.shortName := by
      apply (unused_list hx).mpr
      intro g hg
      exact Distinct.symm ((List.pairwise_append.mp hpair).2.2 g hg d List.mem_cons_self)
    obtain ⟨s₁, hadd⟩ := addFlag_accepts hs hx hd hunused (hs.notMem.mpr hfree)
    obtain ⟨y, d', hy, hd', -, -, hs₁⟩ := addFlag_some hs hv hadd
    cases hx.symm.trans hy
    cases hd.symm.trans hd'
    have hv₁ := wellFormed_registered hv hx hfree hd hunused
    rw [registerFlags, hadd]
    apply ih hs₁ hv₁ (Function.update_self ..) hrest
    rw [addFlag_list hv hx hfree, if_pos rfl, List.map_append, List.append_assoc]
    exact hpair

/-! ### Names that collide -/

/-- No name is that of another flag with a `'='` behind, but where the text before
the `'='` is taken for the help. -/
def Separated (args : List FlagArgs) : Prop :=
  ∀ a ∈ args, ∀ b ∈ args, ∀ r, cString b.name = cString a.name ++ ascii '=' :: r →
    (cString b.name).take 5 = text "help="

/-- The option token is about the flag. -/
def Picks (d : FlagData) : Token → Prop
  | .long s => s ≠ text "help" ∧ s.take 5 ≠ text "help=" ∧ (matchName s d).isSome
  | .short s => (matchShort s d).isSome
  | .plain => False

/-- Every option token is about one flag at most. -/
def OneFlag (args : List FlagArgs) : Prop :=
  ∀ t, ∀ d ∈ allData args, ∀ g ∈ allData args, Picks d t → Picks g t → d = g

theorem mem_allData {args : List FlagArgs} :
    d ∈ allData args ↔ ∃ a ∈ args, a.data = some d := List.mem_filterMap

theorem allData_perm {args args' : List FlagArgs} (h : args.Perm args') :
    (allData args).Perm (allData args') := h.filterMap _

theorem matchName_whole (d : FlagData) : matchName d.name d = some (d, false) := if_pos rfl

theorem matchName_assigned {s : Bytes} (h : ∃ r, s = d.name ++ ascii '=' :: r) :
    matchName s d = some (d, true) := by
  have hne : s ≠ d.name := by
    intro heq
    have hlt := (assigned_iff.mpr h).1
    rw [heq] at hlt
    omega
  unfold matchName
  rw [if_neg hne, if_pos (assigned_iff.mpr h)]

theorem matchName_some {s : Bytes} {y : FlagData × Bool} (h : matchName s d = some y) :
    (y = (d, false) ∧ s = d.name) ∨ (y = (d, true) ∧ ∃ r, s = d.name ++ ascii '=' :: r) := by
  unfold matchName at h
  split at h
  · rename_i hs
    exact Or.inl ⟨(Option.some.inj h).symm, hs⟩
  split at h
  · rename_i hs
    exact Or.inr ⟨(Option.some.inj h).symm, assigned_iff.mp hs⟩
  · cases h

theorem matchShort_some {s : Bytes} {y : FlagData} (h : matchShort s d = some y) :
    y = d ∧ d.shortName ≠ 0 ∧ s[0]? = some d.shortName := by
  unfold matchShort at h
  split at h
  · rename_i hs
    exact ⟨(Option.some.inj h).symm, hs⟩
  · cases h

section Names

variable {args : List FlagArgs} (hd : (allData args).Pairwise Distinct)

theorem distinct_eq {L : List FlagData} (hL : L.Pairwise Distinct) {d g : FlagData} (hd : d ∈ L)
    (hg : g ∈ L) (h : d.name = g.name ∨ (d.shortName ≠ 0 ∧ d.shortName = g.shortName)) :
    d = g := by
  have : Std.Symm Distinct := ⟨fun _ _ h => h.symm⟩
  by_contra hne
  obtain ⟨hname, hshort⟩ := hL.forall hd hg hne
  exact h.elim hname hshort

theorem help_append {n : Bytes} (h : n.take 5 = text "help=") (m : Bytes) :
    (n ++ m).take 5 = text "help=" := by
  have hlen := congrArg List.length h
  rw [List.length_take] at hlen
  have hfive : (text "help=").length = 5 := rfl
  rw [List.take_append_of_le_length (by omega), h]

theorem separated_data (hsep : Separated args) {d g : FlagData} (hdm : d ∈ allData args)
    (hgm : g ∈ allData args) {r : Bytes} (h : g.name = d.name ++ ascii '=' :: r) :
    g.name.take 5 = text "help=" := by
  obtain ⟨a, ha, had⟩ := mem_allData.mp hdm
  obtain ⟨b, hb, hbg⟩ := mem_allData.mp hgm
  rw [(data_some hbg).2.1, (data_some had).2.1] at h
  rw [(data_some hbg).2.1]
  exact hsep a ha b hb r h

include hd in
/- Two names with a `'='` behind them in one text are the same, or the longer one
has the other with a `'='` in it. -/
theorem assigned_unique (hsep : Separated args) {s : Bytes} (hs : s.take 5 ≠ text "help=")
    {d g : FlagData} (hdm : d ∈ allData args) (hgm : g ∈ allData args) {r r' : Bytes}
    (h : s = d.name ++ ascii '=' :: r) (h' : s = g.name ++ ascii '=' :: r')
    (hle : d.name.length ≤ g.name.length) : d = g := by
  rcases List.append_eq_append_iff.mp (h.symm.trans h') with ⟨m, hm, hrest⟩ | ⟨m, hm, -⟩
  · cases m with
    | nil =>
      rw [List.append_nil] at hm
      exact distinct_eq hd hdm hgm (Or.inl hm.symm)
    | cons k m =>
      have hk : ascii '=' = k := (List.cons.inj hrest).1
      rw [← hk] at hm
      have hhelp := separated_data hsep hdm hgm hm
      exact (hs (h' ▸ help_append hhelp _)).elim
  · have hlen := congrArg List.length hm
    rw [List.length_append] at hlen
    have hnil : m = [] := List.length_eq_zero_iff.mp (by omega)
    rw [hnil, List.append_nil] at hm
    exact distinct_eq hd hdm hgm (Or.inl hm)

include hd in
theorem separated_agree (hsep : Separated args) {s : Bytes} (hs : s.take 5 ≠ text "help=") :
    Agree (matchName s) (allData args) := by
  intro d hdm g hgm y z hy hz
  rcases matchName_some hy with ⟨rfl, hsd⟩ | ⟨rfl, r, hsd⟩ <;>
    rcases matchName_some hz with ⟨rfl, hsg⟩ | ⟨rfl, r', hsg⟩
  · rw [distinct_eq hd hdm hgm (Or.inl (hsd.symm.trans hsg))]
  · have hhelp := separated_data hsep hgm hdm (hsd.symm.trans hsg)
    exact (hs (hsd ▸ hhelp)).elim
  · have hhelp := separated_data hsep hdm hgm (hsg.symm.trans hsd)
    exact (hs (hsg ▸ hhelp)).elim
  · rcases Nat.le_total d.name.length g.name.length with hle | hle
    · rw [assigned_unique hd hsep hs hdm hgm hsd hsg hle]
    · rw [assigned_unique hd hsep hs hgm hdm hsg hsd hle]

include hd in
theorem short_agree (s : Bytes) : Agree (matchShort s) (allData args) := by
  intro d hdm g hgm y z hy hz
  obtain ⟨rfl, hne, hget⟩ := matchShort_some hy
  obtain ⟨rfl, -, hget'⟩ := matchShort_some hz
  rw [hget, Option.some.injEq] at hget'
  exact distinct_eq hd hdm hgm (Or.inr ⟨hne, hget'⟩)

theorem oneFlag_iff (hd : (allData args).Pairwise Distinct)
    (hall : ∀ a ∈ args, ∃ d, a.data = some d) : OneFlag args ↔ Separated args := by
  constructor
  · intro h a ha b hb r hr
    obtain ⟨d, had⟩ := hall a ha
    obtain ⟨g, hbg⟩ := hall b hb
    obtain ⟨-, hdn, -⟩ := data_some had
    obtain ⟨-, hgn, hhelp, -⟩ := data_some hbg
    rw [← hgn, ← hdn] at hr
    rw [← hgn]
    by_contra hne
    have hpd : Picks d (.long g.name) :=
      ⟨hhelp, hne, by rw [matchName_assigned ⟨r, hr⟩]; rfl⟩
    have hpg : Picks g (.long g.name) := ⟨hhelp, hne, by rw [matchName_whole]; rfl⟩
    have hdg := h (.long g.name) d (mem_allData.mpr ⟨a, ha, had⟩) g
      (mem_allData.mpr ⟨b, hb, hbg⟩) hpd hpg
    have hlen := congrArg List.length hr
    rw [hdg, List.length_append, List.length_cons] at hlen
    omega
  · intro h t d hdm g hgm hpd hpg
    cases t with
    | long s =>
      obtain ⟨-, hne, hmd⟩ := hpd
      obtain ⟨y, hy⟩ := Option.isSome_iff_exists.mp hmd
      obtain ⟨z, hz⟩ := Option.isSome_iff_exists.mp hpg.2.2
      have hyz := separated_agree hd h hne d hdm g hgm y z hy hz
      have hyd : y.1 = d := by
        rcases matchName_some hy with ⟨rfl, -⟩ | ⟨rfl, -⟩ <;> rfl
      have hzg : z.1 = g := by
        rcases matchName_some hz with ⟨rfl, -⟩ | ⟨rfl, -⟩ <;> rfl
      rw [← hyd, ← hzg, hyz]
    | short s =>
      obtain ⟨y, hy⟩ := Option.isSome_iff_exists.mp hpd
      obtain ⟨z, hz⟩ := Option.isSome_iff_exists.mp hpg
      have hyz := short_agree hd s d hdm g hgm y z hy hz
      rw [← (matchShort_some hy).1, ← (matchShort_some hz).1, hyz]
    | plain => exact hpd.elim

end Names

/-! ### Two orders -/

/-- The callbacks do the same for the same flag, at whichever address it is. -/
structure SameCallbacks {σ : Type} (v w : Forest) (e d : Env σ) : Prop where
  setFlag : ∀ c f g, f ∈ v.commands.flag c → g ∈ w.commands.flag c →
    f.toFlagData = g.toFlagData → ∀ m s n, e.setFlag m f s n = d.setFlag m g s n
  malloc : e.malloc = d.malloc
  handler : e.handler = d.handler

/-- FlagsAdded in any two orders, at any addresses, the flags make every argument
list run the same. -/
def OrderFree (s : Registry) (c : Ptr) (args : List FlagArgs) : Prop :=
  ∀ l m : List (FlagArgs × Ptr), (l.map Prod.fst).Perm args → (m.map Prod.fst).Perm args →
    ∀ t u, registerFlags c l s = some t → registerFlags c m s = some u →
    ∀ v w, Stores t v → Stores u w → ∀ (σ : Type) (e d : Env σ), SameCallbacks v w e d →
    ∀ argv allowUnknow root mem n k r r',
      execute ⟨v.commands, argv, allowUnknow⟩ e root mem n = some r →
      execute ⟨w.commands, argv, allowUnknow⟩ d root mem k = some r' → r.Like r'

theorem list_distinct (hv : WellFormed v) (c : Ptr) :
    ((v.commands.flag c).map Flag.toFlagData).Pairwise Distinct := by
  cases hx : v.command c with
  | none =>
    simp only [Forest.commands, hx, Option.elim_none, List.filterMap_nil, List.map_nil]
    exact List.Pairwise.nil
  | some x =>
    have hnodup := (hv.once c x hx).2
    simp only [Forest.commands, hx, Option.elim_some]
    rw [List.pairwise_map, List.pairwise_filterMap]
    apply List.Pairwise.imp_of_mem _ hnodup
    intro e f he hf hne a ha b hb
    obtain ⟨g, hg, rfl⟩ := Option.map_eq_some_iff.mp ha
    obtain ⟨g', hg', rfl⟩ := Option.map_eq_some_iff.mp hb
    constructor
    · intro hname
      exact hne (hv.flagNames c x e f g g' hx he hf hg hg' (Or.inl hname))
    · intro hshort
      exact hne (hv.flagNames c x e f g g' hx he hf hg hg' (Or.inr hshort))

section Orders

variable {args : List FlagArgs} {l m : List (FlagArgs × Ptr)} (hs : Stores s v)
  (hv : WellFormed v) (hx : v.command c = some x) (hnone : v.commands.flag c = [])

include hnone in
theorem added_data (h : FlagsAdded c l v w) :
    (w.commands.flag c).map Flag.toFlagData = allData (l.map Prod.fst) := by
  rw [h.flag c, hnone, if_pos rfl, List.nil_append, flagOf_data]

include hs hv hx hnone in
/-- The flags of an accepted list are distinct and pass their checks. -/
theorem accepted_args (h : registerFlags c l s = some t) (hp : (l.map Prod.fst).Perm args) :
    (allData args).Pairwise Distinct ∧ ∀ a ∈ args, ∃ d, a.data = some d := by
  obtain ⟨hreg, w, -, hwf, hadded⟩ := register_some hs hv hx h
  constructor
  · have hdistinct := list_distinct hwf c
    rw [added_data hnone hadded] at hdistinct
    exact (allData_perm hp).pairwise hdistinct Distinct.symm
  · intro a ha
    obtain ⟨p, hpl, rfl⟩ := List.mem_map.mp (hp.mem_iff.mpr ha)
    exact hreg.data p hpl

include hs hv hx hnone in
/-- Every order is accepted, wherever the flags are put. -/
theorem register_order (hd : (allData args).Pairwise Distinct)
    (hall : ∀ a ∈ args, ∃ d, a.data = some d) (hp : (l.map Prod.fst).Perm args)
    (hnodup : (l.map Prod.snd).Nodup) (hfree : ∀ p ∈ l, p.2 ∉ s.flags) :
    ∃ t, registerFlags c l s = some t := by
  apply register_accepts hs hv hx
  · refine ⟨?_, fun p hpl => hs.notMem.mp (hfree p hpl), hnodup⟩
    intro p hpl
    exact hall p.1 (hp.mem_iff.mp (List.mem_map_of_mem hpl))
  · rw [hnone, List.map_nil, List.nil_append]
    exact (allData_perm hp).symm.pairwise hd Distinct.symm

include hnone in
/- The lookups in two orders of the flags. -/
theorem added_first {v₁ v₂ : Forest} (h₁ : FlagsAdded c l v v₁) (h₂ : FlagsAdded c m v v₂)
    (hl : (l.map Prod.fst).Perm args) (hm : (m.map Prod.fst).Perm args) {β : Type}
    {φ : FlagData → Option β} (hφ : Agree φ (allData args)) (q : Ptr) :
    ((v₁.commands.flag q).map Flag.toFlagData).findSome? φ =
      ((v₂.commands.flag q).map Flag.toFlagData).findSome? φ := by
  by_cases hq : q = c
  · subst hq
    rw [added_data hnone h₁, added_data hnone h₂, ← findSome_perm hφ (allData_perm hl).symm,
      ← findSome_perm hφ (allData_perm hm).symm]
  · rw [h₁.flag q, h₂.flag q, if_neg hq, if_neg hq]

include hs hv hx hnone in
theorem orderFree_of_separated (hd : (allData args).Pairwise Distinct) (hsep : Separated args) :
    OrderFree s c args := by
  intro l m hl hm t u ht hu v' w' hv' hw' σ e d hcall argv allowUnknow root mem n k r r' hr hr'
  obtain ⟨-, v₁, hv₁, -, hadded₁⟩ := register_some hs hv hx ht
  obtain ⟨-, v₂, hv₂, -, hadded₂⟩ := register_some hs hv hx hu
  cases hv'.unique hv₁
  cases hw'.unique hv₂
  have htwin : Twin ⟨v'.commands, argv, allowUnknow⟩ ⟨w'.commands, argv, allowUnknow⟩ e d := by
    refine ⟨rfl, rfl, hadded₁.child.trans hadded₂.child.symm,
      hadded₁.handler.trans hadded₂.handler.symm, ?_, ?_, hcall.setFlag, hcall.malloc,
      hcall.handler⟩
    · intro q s _ hs
      apply added_first hnone hadded₁ hadded₂ hl hm
      apply separated_agree hd hsep
      intro htake
      have hlen := congrArg List.length htake
      rw [List.length_take] at hlen
      have hfive : (text "help=").length = 5 := rfl
      exact hs ⟨by omega, htake⟩
    · intro q s
      exact added_first hnone hadded₁ hadded₂ hl hm (short_agree hd s) q
  exact like_execute htwin hr hr'

end Orders

/-! ### A run that tells two flags apart -/

/-- Callbacks that record each flag with its value. -/
def recording : Env (List (FlagData × Bytes)) where
  setFlag := fun m f s _ => (false, m ++ [(f.toFlagData, s)])
  malloc := fun _ _ => true
  handler := fun _ _ _ _ _ => 0

/- The one token `--s` sets the flag that it finds, or lacks its value. -/
theorem recording_token {x : Input} {f : Flag} {b : Bool} {s : Bytes}
    (push : ℕ → Bytes → HandlerArgs → Bool × HandlerArgs) (hne : s ≠ [])
    (hhelp : s ≠ text "help") (hs : s.take 5 ≠ text "help=")
    (hf : findFlag s (x.commands.flag c) = some (f, b)) :
    (b = false ∧ (read x recording push [ascii '-' :: ascii '-' :: s] 0 c false
        ⟨[], .start, []⟩).world.mem = []) ∨
      ∃ value, (read x recording push [ascii '-' :: ascii '-' :: s] 0 c false
        ⟨[], .start, []⟩).world.mem = [(f.toFlagData, value)] := by
  have htok : tokenOf (ascii '-' :: ascii '-' :: s) = .long s := by
    simp only [tokenOf, if_true, if_neg hne]
  have hno : ¬ (4 < s.length ∧ s.take 5 = text "help=") := fun h => hs h.2
  cases b with
  | true =>
    have hword : longWord (x.commands.flag c) s = .assign f (s.drop (f.name.length + 1)) := by
      unfold longWord
      rw [if_neg hhelp, if_neg hno, hf]
    rw [read, readToken, htok]
    dsimp only
    rw [readLong, hword]
    exact Or.inr ⟨_, rfl⟩
  | false =>
    have hword : longWord (x.commands.flag c) s = .bare f := by
      unfold longWord
      rw [if_neg hhelp, if_neg hno, hf]
    rw [read, readToken, htok]
    dsimp only
    rw [readLong, hword]
    dsimp only
    rw [readBare]
    by_cases hbool : f.type.elem = .bool
    · rw [if_pos hbool]
      exact Or.inr ⟨_, rfl⟩
    · rw [if_neg hbool]
      exact Or.inl ⟨rfl, rfl⟩

theorem findFlag_head {n : Bytes} {f : Flag} {fs : List Flag} {b : Bool}
    (h : matchName n f.toFlagData = some (f.toFlagData, b)) :
    findFlag n (f :: fs) = some (f, b) := by
  unfold matchName at h
  unfold findFlag
  split at h
  · rename_i hn
    cases h
    exact if_pos hn
  split at h
  · rename_i hn hassign
    cases h
    rw [if_neg hn]
    exact if_pos hassign
  · cases h

section Converse

variable {l : List (FlagArgs × Ptr)} (hs : Stores s v) (hv : WellFormed v)
  (hx : v.command c = some x) (hnone : v.commands.flag c = [])
  (h : registerFlags c l s = some t)

include hs hv hx hnone h in
/- The order with `p` first is accepted, and a token that the flag of `p` matches is
about this flag there. -/
theorem recording_first {p : FlagArgs × Ptr} (hpl : p ∈ l) (hpd : p.1.data = some d)
    {n : Bytes} (hne : n ≠ []) (hhelp : n ≠ text "help") (hn : n.take 5 ≠ text "help=")
    {b : Bool} (hmatch : matchName n d = some (d, b)) :
    ∃ m t w k r, (m.map Prod.fst).Perm (l.map Prod.fst) ∧ registerFlags c m s = some t ∧
      Stores t w ∧
      execute ⟨w.commands, [ascii '-' :: ascii '-' :: n], false⟩ recording c [] k = some r ∧
      ((b = false ∧ r.world.mem = []) ∨ ∃ value, r.world.mem = [(d, value)]) := by
  have hperm : (p :: l.erase p).Perm l := (List.perm_cons_erase hpl).symm
  have hmap := hperm.map Prod.fst
  obtain ⟨hd, hall⟩ := accepted_args hs hv hx hnone h (List.Perm.refl _)
  obtain ⟨hreg, -⟩ := register_some hs hv hx h
  obtain ⟨t', ht'⟩ := register_order hs hv hx hnone hd hall hmap
    ((hperm.map Prod.snd).nodup_iff.mpr hreg.nodup)
    (fun q hq => hs.notMem.mpr (hreg.free q (hperm.mem_iff.mp hq)))
  obtain ⟨-, w, hw, -, hadded⟩ := register_some hs hv hx ht'
  have hof : flagOf p = some ⟨d, p.2⟩ := by rw [flagOf, hpd, Option.map_some]
  have hlist : w.commands.flag c = ⟨d, p.2⟩ :: (l.erase p).filterMap flagOf := by
    rw [hadded.flag c, hnone, if_pos rfl, List.nil_append, List.filterMap_cons, hof]
  have hfind : findFlag n (w.commands.flag c) = some (⟨d, p.2⟩, b) := by
    rw [hlist]
    exact findFlag_head hmatch
  obtain ⟨k, hk⟩ := execute_read
    ⟨w.commands, [ascii '-' :: ascii '-' :: n], false⟩ recording c []
  refine ⟨p :: l.erase p, t', w, k, _, hmap, ht', hw, hk, ?_⟩
  rw [finish_world_mem]
  exact recording_token (x := ⟨w.commands, [ascii '-' :: ascii '-' :: n], false⟩) _ hne hhelp hn
    hfind

include hs hv hx hnone h in
theorem separated_of_orderFree (hfree : OrderFree s c (l.map Prod.fst)) :
    Separated (l.map Prod.fst) := by
  intro a ha b hb r hr
  by_contra hn
  obtain ⟨-, hall⟩ := accepted_args hs hv hx hnone h (List.Perm.refl _)
  obtain ⟨d, had⟩ := hall a ha
  obtain ⟨g, hbg⟩ := hall b hb
  obtain ⟨p, hpl, rfl⟩ := List.mem_map.mp ha
  obtain ⟨q, hql, rfl⟩ := List.mem_map.mp hb
  obtain ⟨-, hdn, -⟩ := data_some had
  obtain ⟨hcheck, hgn, hhelp, -⟩ := data_some hbg
  rw [← hgn] at hn
  rw [← hgn, ← hdn] at hr
  have hne := (checkFlag_some hcheck).2
  obtain ⟨m, t₁, w₁, k, r₁, hm, ht₁, hw₁, hr₁, hmem₁⟩ := recording_first hs hv hx hnone h hpl had
    hne hhelp hn (matchName_assigned ⟨r, hr⟩)
  obtain ⟨m', t₂, w₂, k', r₂, hm', ht₂, hw₂, hr₂, hmem₂⟩ := recording_first hs hv hx hnone h hql
    hbg hne hhelp hn (matchName_whole g)
  have hcall : SameCallbacks w₁ w₂ recording recording := by
    refine ⟨?_, rfl, rfl⟩
    intro c f f' _ _ hdata m s n
    simp only [recording, hdata]
  have hlike := hfree m m' hm hm' t₁ t₂ ht₁ ht₂ w₁ w₂ hw₁ hw₂ _ recording recording hcall
    _ _ _ _ k k' r₁ r₂ hr₁ hr₂
  have hdg : d ≠ g := by
    intro heq
    have hlen := congrArg List.length hr
    rw [heq, List.length_append, List.length_cons] at hlen
    omega
  obtain ⟨hfalse, -⟩ | ⟨value, hvalue⟩ := hmem₁
  · cases hfalse
  have hmem := hlike.mem
  rw [hvalue] at hmem
  obtain ⟨-, hnil⟩ | ⟨value', hvalue'⟩ := hmem₂
  · rw [hnil] at hmem
    cases hmem
  · rw [hvalue'] at hmem
    exact hdg (Prod.mk.inj (List.cons.inj hmem).1).1

end Converse

theorem reachable_no_flags {n : CommandNode} (hs : registrySystem.Reachable s)
    (hc : s.commands.lookup c = some n) (hn : n.flag = none) :
    ∃ v x, Stores s v ∧ WellFormed v ∧ v.command c = some x ∧ v.commands.flag c = [] := by
  obtain ⟨v, hst, hv⟩ := forest_reachable hs
  obtain ⟨x, hx, -⟩ := hst.view hc
  have hflags := hst.flags c n x hc hx
  rw [hn] at hflags
  have hnil := Chain.visits_unique hflags (Chain.visits_nil none)
  refine ⟨v, x, hst, hv, hx, ?_⟩
  simp only [Forest.commands, hx, Option.elim_some, hnil, List.filterMap_nil]

/-- The flags that are accepted in one order are accepted in every order. They run
the same in every order, and every token is about one of them at most, just when no
name is that of another one with a `'='` behind. -/
theorem orderFree_iff {n : CommandNode} {l : List (FlagArgs × Ptr)}
    (hs : registrySystem.Reachable s) (hc : s.commands.lookup c = some n)
    (hn : n.flag = none) (h : registerFlags c l s = some t) :
    (∀ m : List (FlagArgs × Ptr), (m.map Prod.fst).Perm (l.map Prod.fst) →
      (m.map Prod.snd).Nodup → (∀ p ∈ m, p.2 ∉ s.flags) → ∃ u, registerFlags c m s = some u) ∧
    (OrderFree s c (l.map Prod.fst) ↔ Separated (l.map Prod.fst)) ∧
    (OneFlag (l.map Prod.fst) ↔ Separated (l.map Prod.fst)) := by
  obtain ⟨v, x, hst, hv, hx, hnone⟩ := reachable_no_flags hs hc hn
  obtain ⟨hd, hall⟩ := accepted_args hst hv hx hnone h (List.Perm.refl _)
  refine ⟨fun m hm => register_order hst hv hx hnone hd hall hm, ?_, oneFlag_iff hd hall⟩
  constructor
  · exact separated_of_orderFree hst hv hx hnone h
  · exact orderFree_of_separated hst hv hx hnone hd

/-- One command without flags. -/
def oneCommand : List (Call × Option Ptr) := [(.commandCreate (text "app") none none 0, some 1)]

theorem oneCommand_registers {l : List (FlagArgs × Ptr)}
    (h : ((registrySystem.exec oneCommand ⟨∅, ∅⟩).bind (registerFlags 1 l)).isSome = true) :
    ∃ s t n, registrySystem.exec oneCommand ⟨∅, ∅⟩ = some s ∧ registrySystem.Reachable s ∧
      s.commands.lookup 1 = some n ∧ n.flag = none ∧ registerFlags 1 l s = some t := by
  obtain ⟨t, ht⟩ := Option.isSome_iff_exists.mp h
  obtain ⟨s, hs, ht⟩ := Option.bind_eq_some_iff.mp ht
  have hobs : (registrySystem.exec oneCommand ⟨∅, ∅⟩).map
      (fun s => (s.commands.lookup 1).map CommandNode.flag) = some (some none) := by
    decide
  rw [hs, Option.map_some, Option.some.injEq] at hobs
  obtain ⟨n, hn, hflag⟩ := Option.map_eq_some_iff.mp hobs
  exact ⟨s, t, n, hs, System.reachable_exec (.init rfl) hs, hn, hflag, ht⟩

def twoFlags : List (FlagArgs × Ptr) :=
  [(⟨text "worker", ascii 'w', none, 8, 6⟩, 1), (⟨text "url", ascii 'u', none, 16, 12⟩, 2)]

theorem orderFree_iff_two :
    ∃ s, registrySystem.exec oneCommand ⟨∅, ∅⟩ = some s ∧
      OrderFree s 1 (twoFlags.map Prod.fst) ∧ OneFlag (twoFlags.map Prod.fst) := by
  obtain ⟨s, t, n, hs, hreach, hn, hflag, ht⟩ := oneCommand_registers (l := twoFlags) (by decide)
  have hno : ∀ b ∈ twoFlags.map Prod.fst, ascii '=' ∉ cString b.name := by decide
  have hsep : Separated (twoFlags.map Prod.fst) := by
    intro a _ b hb r hr
    apply (hno b hb _).elim
    rw [hr]
    exact List.mem_append_right _ List.mem_cons_self
  obtain ⟨-, hfree, hone⟩ := orderFree_iff hreach hn hflag ht
  exact ⟨s, hs, hfree.mpr hsep, hone.mpr hsep⟩

def collidingFlags : List (FlagArgs × Ptr) :=
  [(⟨text "a", 0, none, 8, 12⟩, 1), (⟨text "a=b", 0, none, 16, 12⟩, 2)]

/-- Both flags are accepted, and `--a=b` is about the one that is registered
first. -/
theorem orderFree_collision :
    ∃ s t, registrySystem.exec oneCommand ⟨∅, ∅⟩ = some s ∧
      registerFlags 1 collidingFlags s = some t ∧
      ¬ OrderFree s 1 (collidingFlags.map Prod.fst) ∧
      ¬ OneFlag (collidingFlags.map Prod.fst) := by
  obtain ⟨s, t, n, hs, hreach, hn, hflag, ht⟩ :=
    oneCommand_registers (l := collidingFlags) (by decide)
  refine ⟨s, t, hs, ht, ?_, ?_⟩
  · intro hfree
    obtain ⟨v, x, hst, hv, hx, hnone⟩ := reachable_no_flags hreach hn hflag
    have hsep := separated_of_orderFree hst hv hx hnone ht hfree
    have hhelp := hsep ⟨text "a", 0, none, 8, 12⟩ (by decide) ⟨text "a=b", 0, none, 16, 12⟩
      (by decide) (text "b") (by decide)
    revert hhelp
    decide
  · intro h
    have heq := h (.long (text "a=b"))
      ⟨8, false, ⟨.string, false⟩, text "a", 0, none, ⟨.string, false⟩, none⟩ (by decide)
      ⟨16, false, ⟨.string, false⟩, text "a=b", 0, none, ⟨.string, false⟩, none⟩ (by decide)
      ⟨by decide, by decide, by decide⟩ ⟨by decide, by decide, by decide⟩
    revert heq
    decide

end LibeventHttpServe.Flags
