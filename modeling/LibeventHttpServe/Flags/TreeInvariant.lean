import LibeventHttpServe.Flags.Tree

/-!
# What every tree keeps

The registry of a tree stores a well-formed forest in which no root has a sibling and
every flag has the type of its variable; the buffers stay apart.
-/

namespace LibeventHttpServe.Flags

open LibeventHttpServe.Lib

/-! ### Roots have no siblings -/

def RootNext (h : Heap Ptr CommandNode) : Prop :=
  ∀ c n, h.lookup c = some n → n.parent = none → n.next = none

theorem RootNext.insert {h : Heap Ptr CommandNode} (hr : RootNext h) (c : Ptr) {n : CommandNode}
    (hn : n.parent = none → n.next = none) : RootNext (h.insert c n) := by
  intro d m hm hp
  by_cases hd : d = c
  · subst hd
    rw [AList.lookup_insert, Option.some.injEq] at hm
    subst hm
    exact hn hp
  · rw [AList.lookup_insert_ne hd] at hm
    exact hr d m hm hp

section Calls

variable {s s' : Registry} {v : Forest} {m : Option Ptr} {out : Outcome}

theorem commandCreateWithLen_rootNext {n d : Option Bytes} {h : Option Fn} {u : Ptr}
    (hr : RootNext s.commands) (hrun : commandCreateWithLen n d h u m s = some (out, s')) :
    RootNext s'.commands := by
  unfold commandCreateWithLen at hrun
  split at hrun
  · cases hrun
    exact hr
  split at hrun
  · cases hrun
    exact hr
  split_ifs at hrun
  cases hrun
  exact hr.insert _ fun _ => rfl

/- The last child, behind which the new one is linked, has a parent. -/
theorem addCommandWithLen_rootNext {p : Ptr} {n d : Option Bytes} {h : Option Fn} {u : Ptr}
    (hs : Stores s v) (hv : WellFormed v) (hr : RootNext s.commands)
    (hrun : addCommandWithLen p n d h u m s = some (out, s')) : RootNext s'.commands := by
  unfold addCommandWithLen at hrun
  split at hrun
  · cases hrun
    exact hr
  split at hrun
  · cases hrun
  rename_i b hp
  split at hrun
  · cases hrun
  · cases hrun
    exact hr
  rename_i back hback
  split at hrun
  · cases hrun
    exact hr
  split_ifs at hrun
  dsimp only at hrun
  split at hrun
  · cases hrun
    exact (hr.insert _ fun _ => rfl).insert p (hr p b hp)
  rename_i t
  split at hrun
  · cases hrun
  rename_i k hk
  cases hrun
  refine (hr.insert _ fun _ => rfl).insert t fun hnone => ?_
  obtain ⟨x, hx, -, -⟩ := hs.view hp
  have hlast := (Chain.back_ok (hs.children p b x hp hx) hback).1
  obtain ⟨y, hy, hparent⟩ := hv.parentOf p x t hx (List.mem_of_getLast? hlast)
  obtain ⟨k', hk', -, hparent'⟩ := hs.live hy
  rw [hk, Option.some.injEq] at hk'
  subst hk'
  rw [hparent] at hparent'
  rw [show k.parent = none from hnone] at hparent'
  cases hparent'

theorem addFlagWithLen_rootNext {p : Ptr} {n d : Option Bytes} {k : UInt8} {a : Ptr} {tag : ℤ}
    (hr : RootNext s.commands) (hrun : addFlagWithLen p n k d a tag m s = some (out, s')) :
    RootNext s'.commands := by
  unfold addFlagWithLen at hrun
  split at hrun
  · cases hrun
    exact hr
  split_ifs at hrun
  · cases hrun
    exact hr
  · cases hrun
    exact hr
  split at hrun
  · cases hrun
    exact hr
  split at hrun
  · cases hrun
  rename_i b hp
  split at hrun
  · cases hrun
  · cases hrun
    exact hr
  split at hrun
  · cases hrun
    exact hr
  split_ifs at hrun
  dsimp only at hrun
  split at hrun
  · cases hrun
    exact hr.insert p (hr p b hp)
  split at hrun
  · cases hrun
  · cases hrun
    exact hr

theorem call_rootNext (hs : Stores s v) (hv : WellFormed v) (hr : RootNext s.commands)
    (call : Call) (hrun : call.run m s = some (out, s')) : RootNext s'.commands := by
  cases call with
  | commandCreateWithLen n d h u => exact commandCreateWithLen_rootNext hr hrun
  | commandCreate n d h u => exact commandCreateWithLen_rootNext hr hrun
  | addCommandWithLen p n d h u => exact addCommandWithLen_rootNext hs hv hr hrun
  | addCommand p n d h u =>
    simp only [Call.run, addCommand] at hrun
    split at hrun
    · cases hrun
      exact hr
    split_ifs at hrun
    · cases hrun
      exact hr
    · exact addCommandWithLen_rootNext hs hv hr hrun
  | addFlagWithLen p n k d a tag => exact addFlagWithLen_rootNext hr hrun
  | addFlag p n k d a tag =>
    simp only [Call.run, addFlag] at hrun
    split at hrun
    · cases hrun
      exact hr
    split_ifs at hrun
    · cases hrun
      exact hr
    · exact addFlagWithLen_rootNext hr hrun

end Calls

/-! ### One value -/

section Growth

variable {α : Type} {size n : UInt64} {malloc : Malloc} {a : ArrayCell α} {g : Growth α}

/-- A growth keeps the buffer that it found, or leaves one that the allocator gave and
frees the one that it found, if that is on the heap. -/
theorem growBuffer_buffers (hsize : 1 ≤ size.toNat ∧ size.toNat ≤ 8) (ha : Usable size a)
    (h : growBuffer size n malloc a = some g) :
    (a.cap ≠ 0 ∧ g.obtained a = none ∧ g.cell.p = a.p) ∨
      ∃ p, g.obtained a = some p ∧ g.cell.p = some p ∧
        g.freed = if a.cap ≠ 0 then a.p else none := by
  by_cases hroom : a.cap ≠ 0 ∧ startLen a < a.cap
  · rw [growBuffer_room hroom.1 hroom.2] at h
    cases h
    exact Or.inl ⟨hroom.1, if_pos rfl, rfl⟩
  · obtain ⟨hfull, -⟩ := full_of_no_room hsize ha hroom
    obtain ⟨-, hnat, hgrows, -⟩ := grownCap_spec hfull n
    rw [growBuffer_request hfull] at h
    obtain ⟨p, -, rfl⟩ := Option.map_eq_some_iff.mp h
    refine Or.inr ⟨p, if_neg ?_, rfl, rfl⟩
    intro heq
    have hcap : UInt64.ofNat (grownCap a n) = a.cap := heq
    rw [hcap] at hnat
    by_cases h0 : a.cap = 0
    · rw [grownCap, if_pos h0, h0] at hnat
      have hzero : (0 : UInt64).toNat = 0 := rfl
      omega
    · have hlt := hgrows h0
      omega

end Growth

/- A call that grows the array succeeds with the array of the growth and one element
more, if this is not at the null pointer; the others leave it. -/
theorem ArrayCall.run_growth (fl : Floats) {e : ElemType} (c : ArrayCall e)
    {a : ArrayCell e.Value} (ha : Usable e.size a) (hp : ¬ NullAccess a (c.growth fl a)) :
    (c.growth fl a = none ∧ ∃ r, c.run fl a = .ok (r, a)) ∨
      ∃ g b, c.growth fl a = some g ∧ c.run fl a = .ok (0, b) ∧ Owned e.size b ∧ b.cap ≠ 0 ∧
        b.p = g.cell.p ∧ b.setValue = true ∧ growBuffer e.size c.n c.malloc a = some g := by
  obtain ⟨res, hvalue, -⟩ := e.setFlag_proper fl c.verify c.s
  have hrun : c.run fl a = arraySetFlag e.size (c.value fl) c.n c.malloc a := setFlag_array ..
  replace hvalue : c.value fl = .ok res := hvalue
  unfold ArrayCall.growth at hp ⊢
  rw [hrun]
  rw [hvalue] at hp ⊢
  cases res with
  | error err => exact Or.inl ⟨rfl, err, rfl⟩
  | ok v =>
    dsimp only at hp ⊢
    cases hg : growBuffer e.size c.n c.malloc a with
    | none => exact Or.inl ⟨rfl, -1, arraySetFlag_refused rfl hg⟩
    | some g =>
      have hnull : a.p ≠ none := fun hnone => hp ⟨hnone, Option.ne_none_iff_exists'.mpr ⟨g, hg⟩⟩
      obtain ⟨b, hb, happ, hbp⟩ := arraySetFlag_grown (size_bounds e) ha rfl hg hnull
      exact Or.inr ⟨g, b, rfl, hb, happ.owned, happ.cap_ne, hbp, happ.setValue, rfl⟩

/-! ### The invariant -/

/-- What holds of a tree whose registry stores `v`. -/
structure TreeInv (kind : Ptr → FlagType) (t : Tree) (v : Forest) : Prop where
  stores : Stores t.registry v
  wellFormed : WellFormed v
  rootNext : RootNext t.registry.commands
  typed : ∀ f g, v.flag f = some g → g.handler = g.type ∧ g.type = kind g.value
  buffers : OwnBuffers kind t
  unset : ∀ f g e, v.flag f = some g → kind g.value = ⟨e, true⟩ →
    (t.array g.value e).cap = 0 → t.used f = false
  unused : ∀ f, v.flag f = none → t.used f = false
  freed : t.freed = []

section Invariant

variable {fl : Floats} {kind : Ptr → FlagType} {t t' : Tree} {v : Forest}

theorem appended_keeps {w : Forest} (happ : Appended v w) {f : Ptr} {g : FlagData}
    (hg : v.flag f = some g) : w.flag f = some g := by
  cases happ with
  | create _ _ => exact hg
  | addCommand _ _ _ _ => exact hg
  | @addFlag p e x d _ fresh _ _ =>
    have hne : f ≠ e := by
      rintro rfl
      rw [fresh] at hg
      cases hg
    show Function.update v.flag e (some d) f = some g
    rw [Function.update_of_ne hne]
    exact hg

/- The flags of the forest behind a call: the old ones, and one that was not there. -/
theorem adds_flag {w : Forest} {call : Call} {c : Ptr} (hadds : call.adds v c w) {f : Ptr}
    {g : FlagData} (hg : w.flag f = some g) :
    v.flag f = some g ∨ (v.flag f = none ∧ g.handler = g.type ∧
      ∃ tag, call.declares = some (g.value, tag) ∧ FlagType.ofTag tag = some g.type) := by
  have hnew {p a : Ptr} {x : CommandView} {d : FlagData} {tag : ℤ} (hfresh : v.flag c = none)
      (hw : w = v.addFlag p x c d) (hd : d.handler = d.type)
      (hdeclares : call.declares = some (d.value, tag)) (htag : FlagType.ofTag tag = some d.type) :
      v.flag f = some g ∨ (v.flag f = none ∧ g.handler = g.type ∧
        ∃ tag, call.declares = some (g.value, tag) ∧ FlagType.ofTag tag = some g.type) := by
    rw [hw] at hg
    replace hg : Function.update v.flag c (some d) f = some g := hg
    by_cases hf : f = c
    · subst hf
      rw [Function.update_self, Option.some.injEq] at hg
      subst hg
      exact Or.inr ⟨hfresh, hd, tag, hdeclares, htag⟩
    · rw [Function.update_of_ne hf] at hg
      exact Or.inl hg
  cases call with
  | commandCreateWithLen n d h u =>
    obtain ⟨-, name, -, rfl⟩ := hadds
    exact Or.inl hg
  | commandCreate n d h u =>
    obtain ⟨-, rfl⟩ := hadds
    exact Or.inl hg
  | addCommandWithLen p n d h u =>
    obtain ⟨-, name, x, -, -, rfl⟩ := hadds
    exact Or.inl hg
  | addCommand p n d h u =>
    obtain ⟨-, name, x, -, -, rfl⟩ := hadds
    exact Or.inl hg
  | addFlagWithLen p n k d a tag =>
    obtain ⟨hfresh, name, x, type, -, -, htag, hw⟩ := hadds
    exact hnew (a := a) hfresh hw rfl rfl htag
  | addFlag p n k d a tag =>
    obtain ⟨hfresh, name, x, type, -, -, htag, hw⟩ := hadds
    exact hnew (a := a) hfresh hw rfl rfl htag

theorem typed_flag {call : Call} (h : call.typed kind = true) {a : Ptr} {tag : ℤ}
    {type : FlagType} (hdeclares : call.declares = some (a, tag))
    (htag : FlagType.ofTag tag = some type) : type = kind a := by
  simpa [Call.typed, hdeclares, htag] using h

/-- Every flag has the handler of its type. -/
theorem handler_reachable {s : Registry} (hs : registrySystem.Reachable s) (hst : Stores s v) :
    ∀ f g, v.flag f = some g → g.handler = g.type := by
  have hinv : ∃ v, Stores s v ∧ WellFormed v ∧ ∀ f g, v.flag f = some g → g.handler = g.type := by
    refine hs.invariant (I := fun s => ∃ v, Stores s v ∧ WellFormed v ∧
      ∀ f g, v.flag f = some g → g.handler = g.type) ?_ ?_
    · rintro s rfl
      refine ⟨emptyForest, stores_empty, wellFormed_empty, ?_⟩
      intro f g h
      cases h
    · intro s a s' _ hi h
      obtain ⟨v, hst, hv, hall⟩ := hi
      obtain ⟨⟨out, s''⟩, hrun, he⟩ := Option.map_eq_some_iff.mp h
      cases he
      rcases call_result hst hv _ hrun with ⟨-, rfl⟩ | ⟨c, w, -, hadds, happ, hw⟩
      · exact ⟨v, hst, hv, hall⟩
      · refine ⟨w, hw, hv.appended happ, fun f g hg => ?_⟩
        rcases adds_flag hadds hg with hold | ⟨-, hhandler, -⟩
        · exact hall f g hold
        · exact hhandler
  obtain ⟨w, hw, -, hall⟩ := hinv
  rw [hst.unique hw]
  exact hall

theorem treeInv_call {c : Call} {malloc : Option Ptr} (hi : TreeInv kind t v)
    (h : treeStep fl kind t (.call c malloc) = some t') : ∃ w, TreeInv kind t' w := by
  simp only [treeStep, Option.ite_none_right_eq_some] at h
  obtain ⟨htyped, h⟩ := h
  obtain ⟨⟨out, s'⟩, hrun, rfl⟩ := Option.map_eq_some_iff.mp h
  have hroot := call_rootNext hi.stores hi.wellFormed hi.rootNext c hrun
  rcases call_result hi.stores hi.wellFormed c hrun with ⟨-, rfl⟩ | ⟨p, w, -, hadds, happ, hw⟩
  · exact ⟨v, hi⟩
  · have hflag {f : Ptr} {g : FlagData} := adds_flag (f := f) (g := g) hadds
    refine ⟨w, hw, hi.wellFormed.appended happ, hroot, ?_, ⟨hi.buffers.owned, hi.buffers.live,
      hi.buffers.apart⟩, ?_, ?_, hi.freed⟩
    · intro f g hg
      rcases hflag hg with hold | ⟨-, hhandler, tag, hdeclares, htag⟩
      · exact hi.typed f g hold
      · exact ⟨hhandler, typed_flag htyped hdeclares htag⟩
    · intro f g e hg hkind hcap
      rcases hflag hg with hold | ⟨hnone, -⟩
      · exact hi.unset f g e hold hkind hcap
      · exact hi.unused f hnone
    · intro f hf
      apply hi.unused
      cases hv : v.flag f with
      | none => rfl
      | some g =>
        rw [appended_keeps happ hv] at hf
        cases hf

/-- The array of another variable is not changed. -/
theorem setArray_other {a b : Ptr} (h : b ≠ a) (e d : ElemType) (c : ArrayCell e.Value) :
    (t.setArray a e c).array b d = t.array b d := by
  show Function.update t.array a _ b d = _
  rw [Function.update_of_ne h]

theorem setArray_self (a : Ptr) (e : ElemType) (c : ArrayCell e.Value) :
    (t.setArray a e c).array a e = c := by
  show Function.update t.array a _ a e = _
  rw [Function.update_self, Function.update_self]

/-- The buffers stay apart when one array gets a buffer that no other one has. -/
theorem OwnBuffers.setArray (hb : OwnBuffers kind t) {a : Ptr} {e : ElemType}
    (hkind : kind a = ⟨e, true⟩) {c : ArrayCell e.Value} {p : Ptr} {live : List Ptr}
    (ho : Owned e.size c) (hp : c.p = some p) (hlive : p ∈ live)
    (hrest : ∀ b d q, b ≠ a → kind b = ⟨d, true⟩ → (t.array b d).cap ≠ 0 →
      (t.array b d).p = some q → q ∈ t.buffers → q ∈ live ∧ q ≠ p)
    {used : Ptr → Bool} :
    OwnBuffers kind { t.setArray a e c with used := used, buffers := live } := by
  have hself {d : ElemType} (hd : kind a = ⟨d, true⟩) : d = e := by
    rw [hkind] at hd
    cases hd
    rfl
  have hother {b : Ptr} (hne : b ≠ a) (d : ElemType) :
      (t.setArray a e c).array b d = t.array b d := setArray_other hne e d c
  -- no other array has the new buffer
  have hown {b : Ptr} (hne : b ≠ a) {d : ElemType} (hd : kind b = ⟨d, true⟩)
      (hcap : (t.array b d).cap ≠ 0) : (t.array b d).p ≠ some p := by
    intro hbp
    obtain ⟨q, hq, hbq⟩ := hb.live b d hd hcap
    have hpq : p = q := Option.some.inj (hbp.symm.trans hbq)
    exact (hrest b d q hne hd hcap hbq hq).2 hpq.symm
  refine ⟨?_, ?_, ?_⟩
  · intro b d hd
    by_cases hne : b = a
    · subst hne
      obtain rfl := hself hd
      exact Or.inr (by simpa only [setArray_self] using ho)
    · simp only [hother hne]
      exact hb.owned b d hd
  · intro b d hd hcap
    by_cases hne : b = a
    · subst hne
      obtain rfl := hself hd
      exact ⟨p, hlive, by simpa only [setArray_self] using hp⟩
    · simp only [hother hne] at hcap ⊢
      obtain ⟨q, hq, hbq⟩ := hb.live b d hd hcap
      exact ⟨q, (hrest b d q hne hd hcap hbq hq).1, hbq⟩
  · intro b d b' d' q hd hd' hcap hcap' hq hq'
    by_cases hne : b = a
    · by_cases hne' : b' = a
      · rw [hne, hne']
      · subst hne
        obtain rfl := hself hd
        simp only [setArray_self, hother hne'] at hq hq' hcap'
        rw [hp] at hq
        cases hq
        exact (hown hne' hd' hcap' hq').elim
    · by_cases hne' : b' = a
      · subst hne'
        obtain rfl := hself hd'
        simp only [setArray_self, hother hne] at hq hq' hcap
        rw [hp] at hq'
        cases hq'
        exact (hown hne hd hcap hq).elim
      · simp only [hother hne, hother hne'] at hcap hcap' hq hq'
        exact hb.apart b d b' d' q hd hd' hcap hcap' hq hq'

theorem TreeInv.usable (hi : TreeInv kind t v) {f : Ptr} {g : FlagData} {e : ElemType}
    (hg : v.flag f = some g) (hkind : kind g.value = ⟨e, true⟩) :
    Usable e.size (t.view f g.value e) := by
  by_cases hcap : (t.array g.value e).cap = 0
  · exact Or.inl ⟨hcap, hi.unset f g e hg hkind hcap⟩
  · obtain ⟨h1, h2, h3⟩ := (hi.buffers.owned g.value e hkind).resolve_left hcap
    exact Or.inr ⟨hcap, h1, h2, h3⟩

/- One value: the array is as it was, or it has the buffer of the growth. -/
theorem treeInv_grown (hi : TreeInv kind t v) {f : Ptr} {g : FlagData} {e : ElemType}
    (hg : v.flag f = some g) (hkind : kind g.value = ⟨e, true⟩) {b : ArrayCell e.Value}
    (ho : Owned e.size b) (hcap : b.cap ≠ 0) {p : Ptr} (hp : b.p = some p) {live : List Ptr}
    (hlive : p ∈ live)
    (hrest : ∀ a d q, a ≠ g.value → kind a = ⟨d, true⟩ → (t.array a d).cap ≠ 0 →
      (t.array a d).p = some q → q ∈ t.buffers → q ∈ live ∧ q ≠ p) :
    TreeInv kind { t.setArray g.value e b with
      used := Function.update t.used f b.setValue, buffers := live } v := by
  refine ⟨hi.stores, hi.wellFormed, hi.rootNext, hi.typed,
    hi.buffers.setArray hkind ho hp hlive hrest, ?_, ?_, hi.freed⟩
  · intro f' g' d hg' hkind' hcap'
    by_cases hvalue : g'.value = g.value
    · rw [hvalue, hkind] at hkind'
      cases hkind'
      rw [hvalue] at hcap'
      simp only [setArray_self] at hcap'
      exact (hcap hcap').elim
    · simp only [setArray_other hvalue] at hcap'
      have hne : f' ≠ f := by
        rintro rfl
        rw [hg, Option.some.injEq] at hg'
        exact hvalue (congrArg FlagData.value hg'.symm)
      show Function.update t.used f b.setValue f' = false
      rw [Function.update_of_ne hne]
      exact hi.unset f' g' d hg' hkind' hcap'
  · intro f' hf'
    have hne : f' ≠ f := by
      rintro rfl
      rw [hg] at hf'
      cases hf'
    show Function.update t.used f b.setValue f' = false
    rw [Function.update_of_ne hne]
    exact hi.unused f' hf'

theorem treeInv_set {f : Ptr} {e : ElemType} {c : ArrayCall e} (hi : TreeInv kind t v)
    (h : treeStep fl kind t (.set f e c) = some t') : TreeInv kind t' v := by
  simp only [treeStep] at h
  split at h
  · cases h
  rename_i n hn
  simp only [Option.ite_none_right_eq_some] at h
  obtain ⟨htype, h⟩ := h
  have hg : v.flag f = some n.toFlagData := by
    rw [← hi.stores.flag f, hn]
    rfl
  have hkind : kind n.value = ⟨e, true⟩ := by
    obtain ⟨h1, h2⟩ := hi.typed f _ hg
    rw [← h2, ← h1]
    exact htype
  have husable := hi.usable hg hkind
  have hreturns : ¬ NullAccess (t.view f n.value e) (c.growth fl (t.view f n.value e)) := by
    intro hnull
    obtain ⟨fault, hfault⟩ := ArrayCall.run_null husable hnull
    simp only [Tree.set, hfault] at h
    cases h
  rcases c.run_growth fl husable hreturns with ⟨hgrowth, r, hrun⟩ |
    ⟨g, b, hgrowth, hrun, ho, hcap, hp, hset, hgropw⟩
  · simp only [Tree.set, hrun, hgrowth, Option.some.injEq] at h
    rw [← h]
    exact hi
  simp only [Tree.set, hrun, hgrowth] at h
  rcases growBuffer_buffers (size_bounds e) husable hgropw with ⟨hheap, hnone, hsame⟩ |
    ⟨p, hsome, hgp, hfreed⟩
  · -- there was room
    rw [hnone] at h
    cases h
    obtain ⟨p, hlive, hap⟩ := hi.buffers.live n.value e hkind hheap
    have hbp : b.p = some p := hp.trans (hsame.trans hap)
    refine treeInv_grown hi hg hkind ho hcap hbp hlive ?_
    intro a d q hne hd hcap' hq hmem
    refine ⟨hmem, ?_⟩
    rintro rfl
    exact hne (hi.buffers.apart a d n.value e q hd hkind hcap' hheap hq hap)
  · rw [hsome] at h
    simp only [Option.ite_none_left_eq_some, Option.some.injEq] at h
    obtain ⟨hfresh, rfl⟩ := h
    refine treeInv_grown hi hg hkind ho hcap (hp.trans hgp) List.mem_cons_self ?_
    intro a d q hne hd hcap' hq hmem
    have hkept : some q ≠ g.freed := by
      rw [hfreed]
      split_ifs with hheap
      · intro he
        exact hne (hi.buffers.apart a d n.value e q hd hkind hcap' hheap hq he.symm)
      · nofun
    refine ⟨List.mem_cons_of_mem _ (List.mem_filter.mpr ⟨hmem, by simpa using hkept⟩), ?_⟩
    rintro rfl
    exact hfresh hmem

theorem tree_reachable (ht : (treeSystem fl kind).Reachable t) : ∃ v, TreeInv kind t v := by
  refine ht.invariant (I := fun t => ∃ v, TreeInv kind t v) ?_ ?_
  · rintro t ⟨hreg, hused, hfreed, hbuffers⟩
    refine ⟨emptyForest, by rw [hreg]; exact stores_empty, wellFormed_empty, ?_, ?_, hbuffers, ?_,
      fun f _ => hused f, hfreed⟩
    · rw [hreg]
      intro c n hn
      cases hn
    · intro f g hg
      cases hg
    · intro f g e hg
      cases hg
  · rintro t a t' - ⟨v, hi⟩ h
    replace h : treeStep fl kind t a = some t' := h
    cases a with
    | call c malloc => exact treeInv_call hi h
    | set f e c => exact ⟨v, treeInv_set hi h⟩

end Invariant

end LibeventHttpServe.Flags
