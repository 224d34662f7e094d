import LibeventHttpServe.Flags.Registry

/-!
# The forest of commands that a registry stores

A forest gives every command its parent, its children and its flags in list
order. The calls of `Registry` append one node to one list of the forest and
keep it well formed.
-/

namespace LibeventHttpServe.Flags

open LibeventHttpServe.Lib (System Heap)
open LibeventHttpServe.Lib.Chain (Visits)

structure CommandView extends CommandData where
  parent : Option Ptr
  children : List Ptr
  flags : List Ptr

structure Forest where
  command : Ptr → Option CommandView
  flag : Ptr → Option FlagData

/-- The heaps of `s` store the forest `v`. -/
structure Stores (s : Registry) (v : Forest) : Prop where
  command : ∀ p, (s.commands.lookup p).map (fun n => (n.toCommandData, n.parent)) =
    (v.command p).map fun x => (x.toCommandData, x.parent)
  children : ∀ p n x, s.commands.lookup p = some n → v.command p = some x →
    Visits CommandNode.next s.commands n.child x.children none
  flags : ∀ p n x, s.commands.lookup p = some n → v.command p = some x →
    Visits FlagNode.next s.flags n.flag x.flags none
  flag : ∀ f, (s.flags.lookup f).map FlagNode.toFlagData = v.flag f

/-- Parents and child lists agree and have no cycle; the names tell the children
of a command, and its flags, apart. -/
structure WellFormed (v : Forest) : Prop where
  parentOf : ∀ p x c, v.command p = some x → c ∈ x.children →
    ∃ y, v.command c = some y ∧ y.parent = some p
  listed : ∀ c y p, v.command c = some y → y.parent = some p →
    ∃ x, v.command p = some x ∧ c ∈ x.children
  once : ∀ p x, v.command p = some x → x.children.Nodup ∧ x.flags.Nodup
  acyclic : ∃ depth : Ptr → ℕ, ∀ c y p, v.command c = some y → y.parent = some p →
    depth c = depth p + 1
  finite : ∃ ps : List Ptr, ∀ p x, v.command p = some x → p ∈ ps
  commandName : ∀ p x, v.command p = some x → x.name ≠ [] ∧ x.name.head? ≠ some (ascii '-')
  siblings : ∀ p x c d y z, v.command p = some x → c ∈ x.children → d ∈ x.children →
    v.command c = some y → v.command d = some z → y.name = z.name → c = d
  owned : ∀ p x f, v.command p = some x → f ∈ x.flags → ∃ g, v.flag f = some g
  owner : ∀ p x q y f, v.command p = some x → v.command q = some y → f ∈ x.flags →
    f ∈ y.flags → p = q
  flagName : ∀ f g, v.flag f = some g → g.name ≠ [] ∧ g.name ≠ text "help" ∧
    g.shortName ≠ ascii 'h'
  flagNames : ∀ p x e f a b, v.command p = some x → e ∈ x.flags → f ∈ x.flags →
    v.flag e = some a → v.flag f = some b →
    a.name = b.name ∨ (a.shortName ≠ 0 ∧ a.shortName = b.shortName) → e = f

/-! ### What a call adds -/

variable {v : Forest} {s : Registry}

def Forest.create (v : Forest) (c : Ptr) (d : CommandData) : Forest :=
  { v with command := Function.update v.command c (some ⟨d, none, [], []⟩) }

def Forest.addCommand (v : Forest) (p : Ptr) (x : CommandView) (c : Ptr) (d : CommandData) :
    Forest where
  command :=
    Function.update (Function.update v.command p (some { x with children := x.children ++ [c] }))
      c (some ⟨d, some p, [], []⟩)
  flag := v.flag

def Forest.addFlag (v : Forest) (p : Ptr) (x : CommandView) (f : Ptr) (d : FlagData) : Forest where
  command := Function.update v.command p (some { x with flags := x.flags ++ [f] })
  flag := Function.update v.flag f (some d)

/-- `w` is `v` with one node more, at the end of one list. -/
inductive Appended (v : Forest) : Forest → Prop where
  | create {c : Ptr} {d : CommandData} (fresh : v.command c = none)
      (name : d.name ≠ [] ∧ d.name.head? ≠ some (ascii '-')) : Appended v (v.create c d)
  | addCommand {p c : Ptr} {x : CommandView} {d : CommandData} (parent : v.command p = some x)
      (fresh : v.command c = none) (name : d.name ≠ [] ∧ d.name.head? ≠ some (ascii '-'))
      (other : ∀ e ∈ x.children, ∀ y, v.command e = some y → d.name ≠ y.name) :
      Appended v (v.addCommand p x c d)
  | addFlag {p f : Ptr} {x : CommandView} {d : FlagData} (command : v.command p = some x)
      (fresh : v.flag f = none) (name : d.name ≠ [] ∧ d.name ≠ text "help" ∧
        d.shortName ≠ ascii 'h')
      (other : ∀ e ∈ x.flags, ∀ g, v.flag e = some g →
        d.name ≠ g.name ∧ ¬ (d.shortName ≠ 0 ∧ d.shortName = g.shortName)) :
      Appended v (v.addFlag p x f d)

/-! ### The forest after a call -/

/- Names stay distinct when one more node has a name of its own. -/
theorem distinct_append {R : Ptr → Ptr → Prop} {l : List Ptr} {c : Ptr}
    (hl : ∀ a ∈ l, ∀ b ∈ l, R a b → a = b) (hleft : ∀ a ∈ l, ¬ R a c)
    (hright : ∀ b ∈ l, ¬ R c b) : ∀ a ∈ l ++ [c], ∀ b ∈ l ++ [c], R a b → a = b := by
  intro a ha b hb h
  rcases List.mem_append.mp ha with ha | ha <;> rcases List.mem_append.mp hb with hb | hb
  · exact hl a ha b hb h
  · rw [List.mem_singleton.mp hb] at h
    exact (hleft a ha h).elim
  · rw [List.mem_singleton.mp ha] at h
    exact (hright b hb h).elim
  · rw [List.mem_singleton.mp ha, List.mem_singleton.mp hb]

theorem mem_append_old {P : Prop} [Decidable P] {l : List Ptr} {c e : Ptr}
    (h : e ∈ l ++ if P then [c] else []) (hne : e ≠ c) : e ∈ l := by
  rcases List.mem_append.mp h with h | h
  · exact h
  split at h
  · exact (hne (List.mem_singleton.mp h)).elim
  · cases h

section Command

variable {p c : Ptr} {x : CommandView} {d : CommandData}

/- The commands of the forest with the new child: the new one, and the old ones
with their data, parent and flags. -/
theorem addCommand_cases (hp : v.command p = some x) {q : Ptr} {z : CommandView}
    (hz : (v.addCommand p x c d).command q = some z) :
    (q = c ∧ z = ⟨d, some p, [], []⟩) ∨
      (q ≠ c ∧ ∃ y, v.command q = some y ∧ z.toCommandData = y.toCommandData ∧
        z.parent = y.parent ∧ z.flags = y.flags ∧
        z.children = y.children ++ if q = p then [c] else []) := by
  simp only [Forest.addCommand, Function.update_apply] at hz
  by_cases hc : q = c
  · rw [if_pos hc, Option.some.injEq] at hz
    exact Or.inl ⟨hc, hz.symm⟩
  rw [if_neg hc] at hz
  refine Or.inr ⟨hc, ?_⟩
  by_cases hq : q = p
  · rw [if_pos hq, Option.some.injEq] at hz
    subst hz
    exact ⟨x, by rw [hq, hp], rfl, rfl, rfl, by rw [if_pos hq]⟩
  · rw [if_neg hq] at hz
    exact ⟨z, hz, rfl, rfl, rfl, by rw [if_neg hq, List.append_nil]⟩

theorem addCommand_old (hp : v.command p = some x) (hc : v.command c = none) {q : Ptr}
    {y : CommandView} (hy : v.command q = some y) :
    ∃ z, (v.addCommand p x c d).command q = some z ∧ z.toCommandData = y.toCommandData ∧
      z.parent = y.parent ∧ z.children = y.children ++ if q = p then [c] else [] := by
  have hqc : q ≠ c := by
    intro h
    rw [h, hc] at hy
    cases hy
  simp only [Forest.addCommand, Function.update_apply, if_neg hqc]
  by_cases hq : q = p
  · rw [hq, hp, Option.some.injEq] at hy
    subst hy
    exact ⟨{ x with children := x.children ++ [c] }, by rw [if_pos hq], rfl, rfl,
      by rw [if_pos hq]⟩
  · exact ⟨y, by rw [if_neg hq, hy], rfl, rfl, by rw [if_neg hq, List.append_nil]⟩

theorem addCommand_new : (v.addCommand p x c d).command c = some ⟨d, some p, [], []⟩ :=
  Function.update_self ..

theorem addCommand_siblings (hv : WellFormed v) (hp : v.command p = some x)
    (hc : v.command c = none)
    (hother : ∀ e ∈ x.children, ∀ y, v.command e = some y → d.name ≠ y.name) {q : Ptr}
    {z : CommandView} (hz : (v.addCommand p x c d).command q = some z) :
    ∀ e ∈ z.children, ∀ f ∈ z.children,
      (∃ w u, (v.addCommand p x c d).command e = some w ∧
        (v.addCommand p x c d).command f = some u ∧ w.name = u.name) → e = f := by
  rcases addCommand_cases hp hz with ⟨-, rfl⟩ | ⟨-, y, hy, -, -, -, hch⟩
  · exact fun e he => (List.not_mem_nil he).elim
  -- the children that were there keep their names
  have hold : ∀ e ∈ y.children, ∀ w, (v.addCommand p x c d).command e = some w →
      ∃ w0, v.command e = some w0 ∧ w.name = w0.name := by
    intro e he w hw
    rcases addCommand_cases hp hw with ⟨rfl, -⟩ | ⟨-, w0, hw0, hdata, -⟩
    · obtain ⟨w', hw', -⟩ := hv.parentOf q y e hy he
      rw [hc] at hw'
      cases hw'
    · exact ⟨w0, hw0, by rw [hdata]⟩
  have hl : ∀ e ∈ y.children, ∀ f ∈ y.children,
      (∃ w u, (v.addCommand p x c d).command e = some w ∧
        (v.addCommand p x c d).command f = some u ∧ w.name = u.name) → e = f := by
    intro e he f hf h
    obtain ⟨w, u, hw, hu, hnames⟩ := h
    obtain ⟨w0, hw0, hw⟩ := hold e he w hw
    obtain ⟨u0, hu0, hu⟩ := hold f hf u hu
    exact hv.siblings q y e f w0 u0 hy he hf hw0 hu0 (by rw [← hw, hnames, hu])
  rw [hch]
  by_cases hq : q = p
  · rw [hq, hp, Option.some.injEq] at hy
    subst hy
    rw [if_pos hq]
    have hno : ∀ e ∈ x.children, ∀ w u, (v.addCommand p x c d).command e = some w →
        (v.addCommand p x c d).command c = some u → u.name ≠ w.name := by
      intro e he w u hw hu
      obtain ⟨w0, hw0, hw⟩ := hold e he w hw
      rw [addCommand_new, Option.some.injEq] at hu
      rw [← hu, hw]
      exact hother e he w0 hw0
    apply distinct_append hl
    · intro e he h
      obtain ⟨w, u, hw, hu, hnames⟩ := h
      exact hno e he w u hw hu hnames.symm
    · intro e he h
      obtain ⟨u, w, hu, hw, hnames⟩ := h
      exact hno e he w u hw hu hnames
  · rw [if_neg hq, List.append_nil]
    exact hl

theorem WellFormed.addCommand (hv : WellFormed v) (hp : v.command p = some x)
    (hc : v.command c = none) (hname : d.name ≠ [] ∧ d.name.head? ≠ some (ascii '-'))
    (hother : ∀ e ∈ x.children, ∀ y, v.command e = some y → d.name ≠ y.name) :
    WellFormed (v.addCommand p x c d) where
  parentOf := by
    intro q z e hz he
    rcases addCommand_cases hp hz with ⟨-, rfl⟩ | ⟨-, y, hy, -, -, -, hch⟩
    · cases he
    rw [hch] at he
    rcases List.mem_append.mp he with he | he
    · obtain ⟨w, hw, hpar⟩ := hv.parentOf q y e hy he
      obtain ⟨w', hw', -, hpar', -⟩ := addCommand_old (d := d) hp hc hw
      exact ⟨w', hw', by rw [hpar', hpar]⟩
    · by_cases hq : q = p
      · rw [if_pos hq] at he
        rw [List.mem_singleton.mp he, hq]
        exact ⟨_, addCommand_new, rfl⟩
      · rw [if_neg hq] at he
        cases he
  listed := by
    intro e w q hw hpar
    rcases addCommand_cases hp hw with ⟨rfl, rfl⟩ | ⟨-, y, hy, -, hpy, -, -⟩
    · cases hpar
      obtain ⟨z, hz, -, -, hch⟩ := addCommand_old (d := d) hp hc hp
      exact ⟨z, hz, by rw [hch, if_pos rfl]; simp⟩
    · rw [hpy] at hpar
      obtain ⟨u, hu, hmem⟩ := hv.listed e y q hy hpar
      obtain ⟨z, hz, -, -, hch⟩ := addCommand_old (d := d) hp hc hu
      exact ⟨z, hz, by rw [hch]; exact List.mem_append_left _ hmem⟩
  once := by
    intro q z hz
    rcases addCommand_cases hp hz with ⟨-, rfl⟩ | ⟨-, y, hy, -, -, hfl, hch⟩
    · exact ⟨List.nodup_nil, List.nodup_nil⟩
    obtain ⟨h1, h2⟩ := hv.once q y hy
    refine ⟨?_, by rw [hfl]; exact h2⟩
    rw [hch]
    by_cases hq : q = p
    · rw [if_pos hq]
      apply List.Nodup.append h1 (List.nodup_singleton c)
      apply List.disjoint_singleton.mpr
      intro hm
      obtain ⟨w, hw, -⟩ := hv.parentOf q y c hy hm
      rw [hc] at hw
      cases hw
    · rw [if_neg hq, List.append_nil]
      exact h1
  acyclic := by
    obtain ⟨depth, hd⟩ := hv.acyclic
    refine ⟨Function.update depth c (depth p + 1), ?_⟩
    intro e w q hw hpar
    have hne : ∀ q, v.command q ≠ none → q ≠ c := by
      intro q hq he
      exact hq (he ▸ hc)
    rcases addCommand_cases hp hw with ⟨rfl, rfl⟩ | ⟨hec, y, hy, -, hpy, -, -⟩
    · cases hpar
      rw [Function.update_self, Function.update_of_ne (hne p (by rw [hp]; simp))]
    · rw [hpy] at hpar
      obtain ⟨u, hu, -⟩ := hv.listed e y q hy hpar
      rw [Function.update_of_ne hec, Function.update_of_ne (hne q (by rw [hu]; simp))]
      exact hd e y q hy hpar
  finite := by
    obtain ⟨ps, hps⟩ := hv.finite
    refine ⟨c :: ps, ?_⟩
    intro q z hz
    rcases addCommand_cases hp hz with ⟨rfl, -⟩ | ⟨-, y, hy, -⟩
    · exact List.mem_cons_self
    · exact List.mem_cons_of_mem _ (hps q y hy)
  commandName := by
    intro q z hz
    rcases addCommand_cases hp hz with ⟨-, rfl⟩ | ⟨-, y, hy, hdata, -⟩
    · exact hname
    · rw [hdata]
      exact hv.commandName q y hy
  siblings := by
    intro q z e f w u hz he hf hw hu hnames
    exact addCommand_siblings hv hp hc hother hz e he f hf ⟨w, u, hw, hu, hnames⟩
  owned := by
    intro q z f hz hf
    rcases addCommand_cases hp hz with ⟨-, rfl⟩ | ⟨-, y, hy, -, -, hfl, -⟩
    · cases hf
    · rw [hfl] at hf
      exact hv.owned q y f hy hf
  owner := by
    intro q z r w f hz hw hfz hfw
    rcases addCommand_cases hp hz with ⟨-, rfl⟩ | ⟨-, y, hy, -, -, hfl, -⟩
    · cases hfz
    rcases addCommand_cases hp hw with ⟨-, rfl⟩ | ⟨-, u, hu, -, -, hfl', -⟩
    · cases hfw
    rw [hfl] at hfz
    rw [hfl'] at hfw
    exact hv.owner q y r u f hy hu hfz hfw
  flagName := hv.flagName
  flagNames := by
    intro q z e f a b hz he hf ha hb h
    rcases addCommand_cases hp hz with ⟨-, rfl⟩ | ⟨-, y, hy, -, -, hfl, -⟩
    · cases he
    · rw [hfl] at he hf
      exact hv.flagNames q y e f a b hy he hf ha hb h

theorem create_cases {q : Ptr} {z : CommandView} (hz : (v.create c d).command q = some z) :
    (q = c ∧ z = ⟨d, none, [], []⟩) ∨ (q ≠ c ∧ v.command q = some z) := by
  by_cases hc : q = c
  · subst hc
    simp only [Forest.create, Function.update_self, Option.some.injEq] at hz
    exact Or.inl ⟨rfl, hz.symm⟩
  · simp only [Forest.create, Function.update_of_ne hc] at hz
    exact Or.inr ⟨hc, hz⟩

theorem create_old (hc : v.command c = none) {q : Ptr} {y : CommandView}
    (hy : v.command q = some y) : (v.create c d).command q = some y := by
  have hqc : q ≠ c := by
    intro h
    rw [h, hc] at hy
    cases hy
  simp only [Forest.create, Function.update_of_ne hqc, hy]

theorem WellFormed.create (hv : WellFormed v) (hc : v.command c = none)
    (hname : d.name ≠ [] ∧ d.name.head? ≠ some (ascii '-')) : WellFormed (v.create c d) where
  parentOf := by
    intro q z e hz he
    rcases create_cases hz with ⟨-, rfl⟩ | ⟨-, hz⟩
    · cases he
    · obtain ⟨w, hw, hpar⟩ := hv.parentOf q z e hz he
      exact ⟨w, create_old hc hw, hpar⟩
  listed := by
    intro e w q hw hpar
    rcases create_cases hw with ⟨-, rfl⟩ | ⟨-, hw⟩
    · cases hpar
    · obtain ⟨u, hu, hmem⟩ := hv.listed e w q hw hpar
      exact ⟨u, create_old hc hu, hmem⟩
  once := by
    intro q z hz
    rcases create_cases hz with ⟨-, rfl⟩ | ⟨-, hz⟩
    · exact ⟨List.nodup_nil, List.nodup_nil⟩
    · exact hv.once q z hz
  acyclic := by
    obtain ⟨depth, hd⟩ := hv.acyclic
    refine ⟨depth, ?_⟩
    intro e w q hw hpar
    rcases create_cases hw with ⟨-, rfl⟩ | ⟨-, hw⟩
    · cases hpar
    · exact hd e w q hw hpar
  finite := by
    obtain ⟨ps, hps⟩ := hv.finite
    refine ⟨c :: ps, ?_⟩
    intro q z hz
    rcases create_cases hz with ⟨rfl, -⟩ | ⟨-, hz⟩
    · exact List.mem_cons_self
    · exact List.mem_cons_of_mem _ (hps q z hz)
  commandName := by
    intro q z hz
    rcases create_cases hz with ⟨-, rfl⟩ | ⟨-, hz⟩
    · exact hname
    · exact hv.commandName q z hz
  siblings := by
    intro q z e f w u hz he hf hw hu hnames
    rcases create_cases hz with ⟨-, rfl⟩ | ⟨-, hz⟩
    · cases he
    -- the children of an old command are old
    have hold : ∀ e ∈ z.children, ∀ w, (v.create c d).command e = some w →
        v.command e = some w := by
      intro e he w hw
      obtain ⟨w', hw', -⟩ := hv.parentOf q z e hz he
      rw [create_old hc hw', Option.some.injEq] at hw
      rw [← hw, hw']
    exact hv.siblings q z e f w u hz he hf (hold e he w hw) (hold f hf u hu) hnames
  owned := by
    intro q z f hz hf
    rcases create_cases hz with ⟨-, rfl⟩ | ⟨-, hz⟩
    · cases hf
    · exact hv.owned q z f hz hf
  owner := by
    intro q z r w f hz hw hfz hfw
    rcases create_cases hz with ⟨-, rfl⟩ | ⟨-, hz⟩
    · cases hfz
    rcases create_cases hw with ⟨-, rfl⟩ | ⟨-, hw⟩
    · cases hfw
    exact hv.owner q z r w f hz hw hfz hfw
  flagName := hv.flagName
  flagNames := by
    intro q z e f a b hz he hf ha hb h
    rcases create_cases hz with ⟨-, rfl⟩ | ⟨-, hz⟩
    · cases he
    · exact hv.flagNames q z e f a b hz he hf ha hb h

end Command

section Flag

variable {p f : Ptr} {x : CommandView} {d : FlagData}

theorem addFlag_cases (hp : v.command p = some x) {q : Ptr} {z : CommandView}
    (hz : (v.addFlag p x f d).command q = some z) :
    ∃ y, v.command q = some y ∧ z.toCommandData = y.toCommandData ∧ z.parent = y.parent ∧
      z.children = y.children ∧ z.flags = y.flags ++ if q = p then [f] else [] := by
  by_cases hq : q = p
  · subst hq
    simp only [Forest.addFlag, Function.update_self, Option.some.injEq] at hz
    subst hz
    exact ⟨x, hp, rfl, rfl, rfl, by rw [if_pos rfl]⟩
  · simp only [Forest.addFlag, Function.update_of_ne hq] at hz
    exact ⟨z, hz, rfl, rfl, rfl, by rw [if_neg hq, List.append_nil]⟩

theorem addFlag_old (hp : v.command p = some x) {q : Ptr} {y : CommandView}
    (hy : v.command q = some y) :
    ∃ z, (v.addFlag p x f d).command q = some z ∧ z.toCommandData = y.toCommandData ∧
      z.parent = y.parent ∧ z.children = y.children := by
  by_cases hq : q = p
  · subst hq
    rw [hp, Option.some.injEq] at hy
    subst hy
    exact ⟨_, Function.update_self .., rfl, rfl, rfl⟩
  · exact ⟨y, by simp only [Forest.addFlag, Function.update_of_ne hq, hy], rfl, rfl, rfl⟩

theorem addFlag_flag {e : Ptr} {g : FlagData} (hg : (v.addFlag p x f d).flag e = some g) :
    (e = f ∧ g = d) ∨ (e ≠ f ∧ v.flag e = some g) := by
  by_cases he : e = f
  · subst he
    simp only [Forest.addFlag, Function.update_self, Option.some.injEq] at hg
    exact Or.inl ⟨rfl, hg.symm⟩
  · simp only [Forest.addFlag, Function.update_of_ne he] at hg
    exact Or.inr ⟨he, hg⟩

/- The flags that were there are not the new one. -/
theorem flag_ne (hv : WellFormed v) (hf : v.flag f = none) {q e : Ptr} {y : CommandView}
    (hy : v.command q = some y) (he : e ∈ y.flags) : e ≠ f := by
  intro hef
  obtain ⟨g, hg⟩ := hv.owned q y e hy he
  rw [hef, hf] at hg
  cases hg

theorem addFlag_owner (hv : WellFormed v) (hp : v.command p = some x) (hf : v.flag f = none)
    {q r e : Ptr} {z w : CommandView} (hz : (v.addFlag p x f d).command q = some z)
    (hw : (v.addFlag p x f d).command r = some w) (hez : e ∈ z.flags) (hew : e ∈ w.flags) :
    q = r := by
  obtain ⟨y, hy, -, -, -, hfl⟩ := addFlag_cases hp hz
  obtain ⟨u, hu, -, -, -, hfl'⟩ := addFlag_cases hp hw
  rw [hfl] at hez
  rw [hfl'] at hew
  by_cases hef : e = f
  · have hnew : ∀ q y, v.command q = some y → e ∈ (y.flags ++ if q = p then [f] else []) →
        q = p := by
      intro q y hy he
      by_contra hq
      rw [if_neg hq, List.append_nil] at he
      exact flag_ne hv hf hy he hef
    rw [hnew q y hy hez, hnew r u hu hew]
  · exact hv.owner q y r u e hy hu (mem_append_old hez hef) (mem_append_old hew hef)

theorem addFlag_flagNames (hv : WellFormed v) (hp : v.command p = some x)
    (hf : v.flag f = none)
    (hother : ∀ e ∈ x.flags, ∀ g, v.flag e = some g →
      d.name ≠ g.name ∧ ¬ (d.shortName ≠ 0 ∧ d.shortName = g.shortName))
    {q : Ptr} {z : CommandView} (hz : (v.addFlag p x f d).command q = some z) :
    ∀ e ∈ z.flags, ∀ g ∈ z.flags,
      (∃ a b, (v.addFlag p x f d).flag e = some a ∧ (v.addFlag p x f d).flag g = some b ∧
        (a.name = b.name ∨ (a.shortName ≠ 0 ∧ a.shortName = b.shortName))) → e = g := by
  obtain ⟨y, hy, -, -, -, hfl⟩ := addFlag_cases hp hz
  -- the flags that were there are what they were
  have hold : ∀ e ∈ y.flags, ∀ a, (v.addFlag p x f d).flag e = some a → v.flag e = some a := by
    intro e he a ha
    rcases addFlag_flag ha with ⟨hef, -⟩ | ⟨-, ha⟩
    · exact (flag_ne hv hf hy he hef).elim
    · exact ha
  have hl : ∀ e ∈ y.flags, ∀ g ∈ y.flags,
      (∃ a b, (v.addFlag p x f d).flag e = some a ∧ (v.addFlag p x f d).flag g = some b ∧
        (a.name = b.name ∨ (a.shortName ≠ 0 ∧ a.shortName = b.shortName))) → e = g := by
    intro e he g hg h
    obtain ⟨a, b, ha, hb, h⟩ := h
    exact hv.flagNames q y e g a b hy he hg (hold e he a ha) (hold g hg b hb) h
  rw [hfl]
  by_cases hq : q = p
  · rw [hq, hp, Option.some.injEq] at hy
    subst hy
    rw [if_pos hq]
    have hnew : ∀ b, (v.addFlag p x f d).flag f = some b → b = d := by
      intro b hb
      rcases addFlag_flag hb with ⟨-, hb⟩ | ⟨hff, -⟩
      · exact hb
      · exact (hff rfl).elim
    apply distinct_append hl
    · intro e he h
      obtain ⟨a, b, ha, hb, h⟩ := h
      rw [hnew b hb] at h
      obtain ⟨hname, hshort⟩ := hother e he a (hold e he a ha)
      rcases h with h | ⟨hne, h⟩
      · exact hname h.symm
      · exact hshort ⟨by rw [← h]; exact hne, h.symm⟩
    · intro e he h
      obtain ⟨a, b, ha, hb, h⟩ := h
      rw [hnew a ha] at h
      obtain ⟨hname, hshort⟩ := hother e he b (hold e he b hb)
      exact h.elim hname hshort
  · rw [if_neg hq, List.append_nil]
    exact hl

theorem WellFormed.addFlag (hv : WellFormed v) (hp : v.command p = some x)
    (hf : v.flag f = none)
    (hname : d.name ≠ [] ∧ d.name ≠ text "help" ∧ d.shortName ≠ ascii 'h')
    (hother : ∀ e ∈ x.flags, ∀ g, v.flag e = some g →
      d.name ≠ g.name ∧ ¬ (d.shortName ≠ 0 ∧ d.shortName = g.shortName)) :
    WellFormed (v.addFlag p x f d) where
  parentOf := by
    intro q z e hz he
    obtain ⟨y, hy, -, -, hch, -⟩ := addFlag_cases hp hz
    rw [hch] at he
    obtain ⟨w, hw, hpar⟩ := hv.parentOf q y e hy he
    obtain ⟨w', hw', -, hpar', -⟩ := addFlag_old (f := f) (d := d) hp hw
    exact ⟨w', hw', by rw [hpar', hpar]⟩
  listed := by
    intro e w q hw hpar
    obtain ⟨y, hy, -, hpy, -, -⟩ := addFlag_cases hp hw
    rw [hpy] at hpar
    obtain ⟨u, hu, hm⟩ := hv.listed e y q hy hpar
    obtain ⟨z, hz, -, -, hch⟩ := addFlag_old (f := f) (d := d) hp hu
    exact ⟨z, hz, by rw [hch]; exact hm⟩
  once := by
    intro q z hz
    obtain ⟨y, hy, -, -, hch, hfl⟩ := addFlag_cases hp hz
    obtain ⟨h1, h2⟩ := hv.once q y hy
    refine ⟨by rw [hch]; exact h1, ?_⟩
    rw [hfl]
    by_cases hq : q = p
    · rw [if_pos hq]
      apply List.Nodup.append h2 (List.nodup_singleton f)
      exact List.disjoint_singleton.mpr (fun hm => flag_ne hv hf hy hm rfl)
    · rw [if_neg hq, List.append_nil]
      exact h2
  acyclic := by
    obtain ⟨depth, hd⟩ := hv.acyclic
    refine ⟨depth, ?_⟩
    intro e w q hw hpar
    obtain ⟨y, hy, -, hpy, -, -⟩ := addFlag_cases hp hw
    rw [hpy] at hpar
    exact hd e y q hy hpar
  finite := by
    obtain ⟨ps, hps⟩ := hv.finite
    refine ⟨ps, ?_⟩
    intro q z hz
    obtain ⟨y, hy, -⟩ := addFlag_cases hp hz
    exact hps q y hy
  commandName := by
    intro q z hz
    obtain ⟨y, hy, hdata, -⟩ := addFlag_cases hp hz
    rw [hdata]
    exact hv.commandName q y hy
  siblings := by
    intro q z e g w u hz he hg hw hu hnames
    obtain ⟨y, hy, -, -, hch, -⟩ := addFlag_cases hp hz
    obtain ⟨w0, hw0, hwd, -⟩ := addFlag_cases hp hw
    obtain ⟨u0, hu0, hud, -⟩ := addFlag_cases hp hu
    rw [hch] at he hg
    rw [hwd, hud] at hnames
    exact hv.siblings q y e g w0 u0 hy he hg hw0 hu0 hnames
  owned := by
    intro q z e hz he
    obtain ⟨y, hy, -, -, -, hfl⟩ := addFlag_cases hp hz
    rw [hfl] at he
    by_cases hef : e = f
    · exact ⟨d, by rw [hef]; exact Function.update_self ..⟩
    simp only [Forest.addFlag, Function.update_of_ne hef]
    exact hv.owned q y e hy (mem_append_old he hef)
  owner := by
    intro q z r w e hz hw hez hew
    exact addFlag_owner hv hp hf hz hw hez hew
  flagName := by
    intro e g hg
    rcases addFlag_flag hg with ⟨-, rfl⟩ | ⟨-, hg⟩
    · exact hname
    · exact hv.flagName e g hg
  flagNames := by
    intro q z e g a b hz he hg ha hb h
    exact addFlag_flagNames hv hp hf hother hz e he g hg ⟨a, b, ha, hb, h⟩

end Flag

theorem WellFormed.appended {w : Forest} (hv : WellFormed v) (h : Appended v w) :
    WellFormed w := by
  cases h with
  | create hfresh hname => exact hv.create hfresh hname
  | addCommand hp hfresh hname hother => exact hv.addCommand hp hfresh hname hother
  | addFlag hp hfresh hname hother => exact hv.addFlag hp hfresh hname hother

end LibeventHttpServe.Flags
