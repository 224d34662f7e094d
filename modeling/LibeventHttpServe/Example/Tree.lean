import LibeventHttpServe.Example.Main
import LibeventHttpServe.Flags.TreeInvariant

/-!
# The tree that main builds (example.c:98-152)

One command with `root_handler` and without children. Its flags are those that `main`
adds, each with its `verify`; only `malloc` can stop that.
-/

namespace LibeventHttpServe.Example

open LibeventHttpServe.Lib LibeventHttpServe.Flags

/-! ### One command -/

section Root

variable {v : Forest} {c : Ptr} {l : List Flag}

/-- The command `c` has no children, the handler `root_handler`, and the flags `l`. -/
structure Root (v : Forest) (c : Ptr) (l : List Flag) : Prop where
  command : ∃ x, v.command c = some x ∧ x.children = [] ∧ x.handler = some rootHandler ∧
    x.flags = l.map Flag.ptr
  flag : ∀ g ∈ l, v.flag g.ptr = some g.toFlagData

theorem Root.child (h : Root v c l) : v.commands.child c = [] := by
  obtain ⟨x, hx, hch, -⟩ := h.command
  show ((v.command c).elim [] CommandView.children).filterMap _ = []
  rw [hx]
  show x.children.filterMap _ = []
  rw [hch]
  rfl

theorem Root.handler (h : Root v c l) : v.commands.handler c = some rootHandler := by
  obtain ⟨x, hx, -, hh, -⟩ := h.command
  show (v.command c).bind _ = _
  rw [hx]
  exact hh

theorem Root.flags (h : Root v c l) : v.commands.flag c = l := by
  obtain ⟨x, hx, -, -, hfl⟩ := h.command
  show ((v.command c).elim [] CommandView.flags).filterMap _ = l
  rw [hx]
  show x.flags.filterMap _ = l
  rw [hfl, List.filterMap_map]
  have hget : ∀ g ∈ l, ((fun f => (v.flag f).map fun g => (⟨g, f⟩ : Flag)) ∘ Flag.ptr) g =
      some g := by
    intro g hg
    show (v.flag g.ptr).map _ = some g
    rw [h.flag g hg]
    rfl
  rw [List.filterMap_congr hget]
  exact List.filterMap_some

end Root

/-! ### A verify function for a flag -/

section Verify

variable {v : Forest} {s : Registry} {f : Ptr}

def forestVerify (f : Ptr) (fn : Fn) (v : Forest) : Forest :=
  { v with flag := Function.update v.flag f ((v.flag f).map fun d => { d with verify := some fn }) }

theorem stores_setVerify (hs : Stores s v) (f : Ptr) (fn : Fn) :
    Stores (setVerify f fn s) (forestVerify f fn v) := by
  unfold setVerify
  cases hf : s.flags.lookup f with
  | none =>
    have hv : v.flag f = none := by
      rw [← hs.flag f, hf]
      rfl
    have heq : forestVerify f fn v = v := by
      unfold forestVerify
      rw [hv]
      show { v with flag := Function.update v.flag f none } = v
      rw [← hv, Function.update_eq_self]
    rw [heq]
    exact hs
  | some n =>
    constructor
    · exact hs.command
    · exact hs.children
    · intro p m x hm hx
      apply Chain.visits_congr (hs.flags p m x hm hx)
      intro k _
      by_cases hk : k = f
      · subst hk
        rw [AList.lookup_insert, hf]
        rfl
      · rw [AList.lookup_insert_ne hk]
    · intro g
      show ((s.flags.insert f _).lookup g).map FlagNode.toFlagData =
        Function.update v.flag f _ g
      by_cases hg : g = f
      · subst hg
        rw [AList.lookup_insert, Function.update_self, ← hs.flag g, hf]
        rfl
      · rw [AList.lookup_insert_ne hg, Function.update_of_ne hg]
        exact hs.flag g

theorem forestVerify_flag {fn : Fn} {e : Ptr} {g : FlagData}
    (h : (forestVerify f fn v).flag e = some g) :
    ∃ g₀, v.flag e = some g₀ ∧ g.name = g₀.name ∧ g.shortName = g₀.shortName := by
  have hup : Function.update v.flag f _ e = some g := h
  by_cases he : e = f
  · subst he
    rw [Function.update_self] at hup
    obtain ⟨g₀, hg₀, rfl⟩ := Option.map_eq_some_iff.mp hup
    exact ⟨g₀, hg₀, rfl, rfl⟩
  · rw [Function.update_of_ne he] at hup
    exact ⟨g, hup, rfl, rfl⟩

theorem wellFormed_setVerify (hv : WellFormed v) (f : Ptr) (fn : Fn) :
    WellFormed (forestVerify f fn v) where
  parentOf := hv.parentOf
  listed := hv.listed
  once := hv.once
  acyclic := hv.acyclic
  finite := hv.finite
  commandName := hv.commandName
  siblings := hv.siblings
  owned := by
    intro p x e hx he
    obtain ⟨g, hg⟩ := hv.owned p x e hx he
    show ∃ g, Function.update v.flag f _ e = some g
    by_cases hef : e = f
    · subst hef
      rw [Function.update_self, hg]
      exact ⟨_, rfl⟩
    · rw [Function.update_of_ne hef]
      exact ⟨g, hg⟩
  owner := hv.owner
  flagName := by
    intro e g hg
    obtain ⟨g₀, hg₀, hname, hshort⟩ := forestVerify_flag hg
    rw [hname, hshort]
    exact hv.flagName e g₀ hg₀
  flagNames := by
    intro p x e k a b hx he hk ha hb h
    obtain ⟨a₀, ha₀, hna, hsa⟩ := forestVerify_flag ha
    obtain ⟨b₀, hb₀, hnb, hsb⟩ := forestVerify_flag hb
    rw [hna, hnb, hsa, hsb] at h
    exact hv.flagNames p x e k a₀ b₀ hx he hk ha₀ hb₀ h

end Verify

/-! ### The flags one after the other -/

/-- What `addFlags` makes of one entry. -/
def flagData (u : FlagArgs × Option Fn) : Option FlagData :=
  u.1.data.map fun d => { d with verify := u.2 }

/-- The command `cmd` of `main` with the flags `l` is all there is. -/
structure Made (cmd : Ptr) (name : Bytes) (l : List Flag) (s : Registry) (v : Forest) : Prop where
  stores : Stores s v
  wellFormed : WellFormed v
  rootNext : RootNext s.commands
  command : v.command = Function.update (fun _ => none) cmd
    (some ⟨⟨name, some (text "libevent_http_serve example"), some rootHandler, flagsAt⟩, none, [],
      l.map Flag.ptr⟩)
  flag : ∀ g : Flag, v.flag g.ptr = some g.toFlagData ↔ g ∈ l

section Made

variable {cmd f : Ptr} {name : Bytes} {l : List Flag} {s : Registry} {v : Forest}
  {a : FlagArgs} {d : FlagData}

theorem Made.root (h : Made cmd name l s v) :
    v.command cmd = some ⟨⟨name, some (text "libevent_http_serve example"), some rootHandler,
      flagsAt⟩, none, [], l.map Flag.ptr⟩ := by
  rw [h.command]
  exact Function.update_self ..

theorem Made.only (h : Made cmd name l s v) {c : Ptr} {x : CommandView}
    (hx : v.command c = some x) : c = cmd := by
  by_contra hne
  rw [h.command, Function.update_of_ne hne] at hx
  cases hx

theorem Made.toRoot (h : Made cmd name l s v) : Root v cmd l where
  command := ⟨_, h.root, rfl, rfl, rfl⟩
  flag g hg := (h.flag g).mpr hg

theorem made_empty {r : Outcome} {m : Option Ptr} {argv0 : Bytes}
    (hrun : commandCreate argv0 (some (text "libevent_http_serve example")) (some rootHandler)
      flagsAt m ⟨∅, ∅⟩ = some (r, s)) :
    (r.result = none ∧ (r.err = errorInvalidCommand ∨ r.err = errorMallocCommand)) ∨
      ∃ cmd v, r.result = some cmd ∧ Made cmd (cString argv0) [] s v := by
  have hempty : RootNext (∅ : Heap Ptr CommandNode) := by
    intro c n hn
    rw [AList.lookup_empty] at hn
    cases hn
  have hnext : RootNext s.commands := commandCreateWithLen_rootNext hempty hrun
  rcases call_result stores_empty wellFormed_empty (.commandCreate argv0 _ _ _) hrun with
    ⟨hnone, -⟩ | ⟨c, v, hc, ⟨-, rfl⟩, happ, hst⟩
  · left
    refine ⟨hnone, ?_⟩
    unfold commandCreate commandCreateWithLen at hrun
    split at hrun
    · cases hrun
      exact Or.inl rfl
    split at hrun
    · cases hrun
      exact Or.inr rfl
    split_ifs at hrun
    cases hrun
    cases hnone
  · exact Or.inr ⟨c, _, hc, hst, wellFormed_empty.appended happ, hnext, rfl,
      fun g => ⟨nofun, nofun⟩⟩

theorem Made.free (h : Made cmd name l s v) : f ∉ s.flags ↔ f ∉ l.map Flag.ptr := by
  rw [h.stores.notMem, List.mem_map]
  constructor
  · intro hf hmem
    obtain ⟨g, hg, rfl⟩ := hmem
    rw [(h.flag g).mpr hg] at hf
    cases hf
  · intro hf
    cases hg : v.flag f with
    | none => rfl
    | some g => exact (hf ⟨⟨g, f⟩, (h.flag ⟨g, f⟩).mp hg, rfl⟩).elim

theorem Made.unused (h : Made cmd name l s v) (hnew : ∀ g ∈ l, Distinct d g.toFlagData) :
    Unused v ⟨⟨name, some (text "libevent_http_serve example"), some rootHandler, flagsAt⟩, none,
      [], l.map Flag.ptr⟩ d.name d.shortName := by
  intro e he g hg
  exact hnew ⟨g, e⟩ ((h.flag ⟨g, e⟩).mp hg)

theorem Made.append (h : Made cmd name l s v) (hd : a.data = some d)
    (hnew : ∀ g ∈ l, Distinct d g.toFlagData) (hf : f ∉ l.map Flag.ptr) :
    ∃ t w, addFlag cmd (some a.name) a.shortName a.describe a.value a.valueType (some f) s =
      some (⟨some f, 0⟩, t) ∧ Made cmd name (l ++ [⟨d, f⟩]) t w := by
  have hfree := h.free.mpr hf
  obtain ⟨t, ht⟩ := addFlag_accepts h.stores h.root hd (h.unused hnew) hfree
  obtain ⟨x, d', hx, hd', -, -, hst⟩ := addFlag_some h.stores h.wellFormed ht
  cases h.root.symm.trans hx
  cases hd.symm.trans hd'
  refine ⟨t, _, ht, hst, ?_, ?_, ?_, ?_⟩
  · exact wellFormed_registered h.wellFormed hx (h.stores.notMem.mp hfree) hd (h.unused hnew)
  · exact call_rootNext h.stores h.wellFormed h.rootNext
      (.addFlag cmd (some a.name) a.shortName a.describe a.value a.valueType) ht
  · show Function.update v.command cmd _ = _
    rw [h.command, Function.update_idem, List.map_append]
    rfl
  · intro g
    show Function.update v.flag f (some d) g.ptr = _ ↔ _
    rw [List.mem_append, List.mem_singleton]
    by_cases hg : g.ptr = f
    · have hno : g ∉ l := fun hl => hf (hg ▸ List.mem_map_of_mem hl)
      obtain ⟨g, p⟩ := g
      dsimp only at hg
      subst hg
      simp [hno, eq_comm]
    · rw [Function.update_of_ne hg, h.flag g]
      have hne : g ≠ ⟨d, f⟩ := fun he => hg (congrArg Flag.ptr he)
      simp [hne]

theorem Made.setVerify (h : Made cmd name (l ++ [⟨d, f⟩]) s v) (hf : f ∉ l.map Flag.ptr)
    (fn : Fn) :
    Made cmd name (l ++ [⟨{ d with verify := some fn }, f⟩]) (setVerify f fn s)
      (forestVerify f fn v) where
  stores := stores_setVerify h.stores f fn
  wellFormed := wellFormed_setVerify h.wellFormed f fn
  rootNext := by
    unfold Example.setVerify
    split <;> exact h.rootNext
  command := by
    show v.command = _
    rw [h.command, List.map_append, List.map_append]
    rfl
  flag := by
    intro g
    have hold : v.flag f = some d := (h.flag ⟨d, f⟩).mpr (by simp)
    have hflag := h.flag g
    rw [List.mem_append, List.mem_singleton] at hflag ⊢
    show Function.update v.flag f _ g.ptr = _ ↔ _
    by_cases hg : g.ptr = f
    · have hno : g ∉ l := fun hl => hf (hg ▸ List.mem_map_of_mem hl)
      obtain ⟨g, p⟩ := g
      dsimp only at hg
      subst hg
      simp [hno, hold, eq_comm]
    · rw [Function.update_of_ne hg, hflag]
      have hne (d : FlagData) : g ≠ ⟨d, f⟩ := fun he => hg (congrArg Flag.ptr he)
      simp [hne]

theorem Made.verified (h : Made cmd name (l ++ [⟨d, f⟩]) s v) (hd : a.data = some d)
    (hf : f ∉ l.map Flag.ptr) (verify : Option Fn) :
    ∃ w, Made cmd name (l ++ [⟨{ d with verify := verify }, f⟩])
      (verify.elim s fun fn => Example.setVerify f fn s) w := by
  cases verify with
  | none =>
    obtain ⟨-, -, -, -, type, -, rfl⟩ := data_some hd
    exact ⟨v, h⟩
  | some fn => exact ⟨_, h.setVerify hf fn⟩

theorem Made.refuse (h : Made cmd name l s v) (hd : a.data = some d)
    (hnew : ∀ g ∈ l, Distinct d g.toFlagData) :
    addFlag cmd (some a.name) a.shortName a.describe a.value a.valueType none s =
      some (⟨none, errorMallocFlag⟩, s) := by
  obtain ⟨hn, -, hhelp, hh, type, htag, rfl⟩ := data_some hd
  obtain ⟨b, hb, -⟩ := h.stores.live h.root
  obtain ⟨back, hback⟩ := (unused_iff h.stores hb h.root _ _).mpr (h.unused hnew)
  have hne := (checkFlag_some hn).2
  simp only [addFlag, if_neg hne, addFlagWithLen, hn, if_neg hhelp, if_neg hh, htag, hb, hback]

theorem Made.taken (h : Made cmd name l s v) (hd : a.data = some d)
    (hnew : ∀ g ∈ l, Distinct d g.toFlagData) (hf : f ∈ s.flags) :
    addFlag cmd (some a.name) a.shortName a.describe a.value a.valueType (some f) s = none := by
  obtain ⟨hn, -, hhelp, hh, type, htag, rfl⟩ := data_some hd
  obtain ⟨b, hb, -⟩ := h.stores.live h.root
  obtain ⟨back, hback⟩ := (unused_iff h.stores hb h.root _ _).mpr (h.unused hnew)
  have hne := (checkFlag_some hn).2
  simp only [addFlag, if_neg hne, addFlagWithLen, hn, if_neg hhelp, if_neg hh, htag, hb, hback,
    if_pos hf]

/- The list with the data of one more flag is that with its entry in front. -/
theorem filterMap_entry {verify : Option Fn} (hd : a.data = some d)
    (us : List (FlagArgs × Option Fn)) :
    ((a, verify) :: us).filterMap flagData =
      { d with verify := verify } :: us.filterMap flagData := by
  rw [List.filterMap_cons, flagData, hd]
  rfl

theorem distinct_entry {verify : Option Fn} {us : List FlagData}
    (hpair : (l.map Flag.toFlagData ++ { d with verify := verify } :: us).Pairwise Distinct) :
    ∀ g ∈ l, Distinct d g.toFlagData := by
  intro g hg
  exact ((List.pairwise_append.mp hpair).2.2 _ (List.mem_map_of_mem hg) _
    List.mem_cons_self).symm

/-- Only `malloc` can refuse a flag that differs from those before. -/
theorem addFlags_made {malloc : ℕ → Option Ptr} {i : ℕ} {us : List (FlagArgs × Option Fn)}
    {r : Start} (h : Made cmd name l s v) (hdata : ∀ u ∈ us, ∃ d, u.1.data = some d)
    (hpair : (l.map Flag.toFlagData ++ us.filterMap flagData).Pairwise Distinct)
    (hrun : addFlags cmd malloc i us s = some r) :
    ∃ l' t w, Made cmd name l' t w ∧
      ((∃ u ∈ us, r = .fail cmd errorMallocFlag (addFails u.1 errorMallocFlag) t ∧
          l'.map Flag.toFlagData <+: l.map Flag.toFlagData ++ us.filterMap flagData) ∨
        (r = .parse cmd t ∧
          l'.map Flag.toFlagData = l.map Flag.toFlagData ++ us.filterMap flagData)) := by
  induction us generalizing i l s v with
  | nil =>
    cases hrun
    exact ⟨l, s, v, h, Or.inr ⟨rfl, (List.append_nil _).symm⟩⟩
  | cons u us ih =>
    obtain ⟨a, verify⟩ := u
    obtain ⟨d, hd⟩ := hdata (a, verify) List.mem_cons_self
    rw [filterMap_entry hd] at hpair ⊢
    have hnew := distinct_entry hpair
    unfold addFlags at hrun
    cases hm : malloc i with
    | none =>
      rw [hm, h.refuse hd hnew] at hrun
      cases hrun
      exact ⟨l, s, v, h, Or.inl ⟨_, List.mem_cons_self, rfl, List.prefix_append _ _⟩⟩
    | some f =>
      rw [hm] at hrun
      by_cases hin : f ∈ s.flags
      · rw [h.taken hd hnew hin] at hrun
        cases hrun
      have hf := h.free.mp hin
      obtain ⟨t, w, hadd, hmade⟩ := h.append hd hnew hf
      rw [hadd] at hrun
      obtain ⟨w', hmade'⟩ := hmade.verified hd hf verify
      have hrest := ih hmade' (fun u hu => hdata u (List.mem_cons_of_mem _ hu))
        (by rw [List.map_append, List.append_assoc]; exact hpair) hrun
      rw [List.map_append, List.append_assoc] at hrest
      obtain ⟨l', t', w'', hmade'', hcases⟩ := hrest
      refine ⟨l', t', w'', hmade'', ?_⟩
      rcases hcases with ⟨u, hu, hr, hpre⟩ | ⟨hr, heq⟩
      · exact Or.inl ⟨u, List.mem_cons_of_mem _ hu, hr, hpre⟩
      · exact Or.inr ⟨hr, heq⟩

/- `malloc` returns no block twice, so that each node is a new one. -/
theorem addFlags_returns {malloc : ℕ → Option Ptr}
    (hinj : ∀ i j p, malloc i = some p → malloc j = some p → i = j) {i : ℕ}
    {us : List (FlagArgs × Option Fn)} (h : Made cmd name l s v)
    (hdata : ∀ u ∈ us, ∃ d, u.1.data = some d)
    (hpair : (l.map Flag.toFlagData ++ us.filterMap flagData).Pairwise Distinct)
    (hold : ∀ g ∈ l, ∃ j < i, malloc j = some g.ptr) :
    ∃ r, addFlags cmd malloc i us s = some r := by
  induction us generalizing i l s v with
  | nil => exact ⟨_, rfl⟩
  | cons u us ih =>
    obtain ⟨a, verify⟩ := u
    obtain ⟨d, hd⟩ := hdata (a, verify) List.mem_cons_self
    rw [filterMap_entry hd] at hpair
    have hnew := distinct_entry hpair
    unfold addFlags
    cases hm : malloc i with
    | none =>
      rw [h.refuse hd hnew]
      exact ⟨_, rfl⟩
    | some f =>
      have hf : f ∉ l.map Flag.ptr := by
        intro hmem
        obtain ⟨g, hg, rfl⟩ := List.mem_map.mp hmem
        obtain ⟨j, hj, hgj⟩ := hold g hg
        exact absurd (hinj j i g.ptr hgj hm) (by omega)
      obtain ⟨t, w, hadd, hmade⟩ := h.append hd hnew hf
      rw [hadd]
      obtain ⟨w', hmade'⟩ := hmade.verified hd hf verify
      refine ih hmade' (fun u hu => hdata u (List.mem_cons_of_mem _ hu))
        (by rw [List.map_append, List.append_assoc]; exact hpair) ?_
      intro g hg
      rcases List.mem_append.mp hg with hg | hg
      · obtain ⟨j, hj, hgj⟩ := hold g hg
        exact ⟨j, by omega, hgj⟩
      · rw [List.mem_singleton.mp hg]
        exact ⟨i, by omega, hm⟩

end Made

/-! ### The flags of main -/

/-- The data of the flags of `main`. -/
def mainData : List FlagData := mainFlags.filterMap flagData

theorem mainData_data : ∀ u ∈ mainFlags, ∃ d, u.1.data = some d := by
  have hall : ∀ u ∈ mainFlags, u.1.data.isSome = true := by decide
  intro u hu
  exact Option.isSome_iff_exists.mp (hall u hu)

theorem mainData_distinct : mainData.Pairwise Distinct := by
  unfold Distinct
  decide

/-- What a flag of `main` writes to, and what checks it. -/
def Guarded (g : Flag) : Prop :=
  (g.handler = ⟨.bool, false⟩ ∧ g.value = syncAt) ∨
    (g.handler = ⟨.string, false⟩ ∧ g.value = addrAt ∧ g.verify = some verifyAddrFn) ∨
    (g.handler = ⟨.uint8, false⟩ ∧ g.value = balanceAt ∧ g.verify = some verifyBalanceFn) ∨
    (g.handler = ⟨.uint8, false⟩ ∧ g.value = workerAt ∧ g.verify = some verifyWorkerFn)

theorem mainData_guarded {g : Flag} (hg : g.toFlagData ∈ mainData) : Guarded g := by
  have hall : ∀ d ∈ mainData, Guarded ⟨d, 0⟩ := by
    unfold Guarded
    decide
  exact hall g.toFlagData hg

section Start

variable {argv0 : Bytes} {malloc : ℕ → Option Ptr} {cmd : Ptr} {s : Registry}

/-- The setup of `main` stops at the command, at a flag, or gets to the arguments. -/
theorem start_made {r : Start} (hrun : start argv0 malloc = some r) :
    (∃ err, r = .noCommand err ∧ (err = errorInvalidCommand ∨ err = errorMallocCommand)) ∨
    ∃ cmd l s v, Made cmd (cString argv0) l s v ∧
      ((∃ u ∈ mainFlags, r = .fail cmd errorMallocFlag (addFails u.1 errorMallocFlag) s ∧
          l.map Flag.toFlagData <+: mainData) ∨
        (r = .parse cmd s ∧ l.map Flag.toFlagData = mainData)) := by
  simp only [start, Option.bind_eq_bind, Option.bind_eq_some_iff, Prod.exists] at hrun
  obtain ⟨o, s, hcreate, hrest⟩ := hrun
  rcases made_empty hcreate with ⟨hnone, herr⟩ | ⟨cmd, v, hsome, hmade⟩
  · rw [hnone] at hrest
    cases hrest
    exact Or.inl ⟨o.err, rfl, herr⟩
  · rw [hsome] at hrest
    obtain ⟨l, t, w, hmade', hcases⟩ :=
      addFlags_made hmade mainData_data mainData_distinct hrest
    exact Or.inr ⟨cmd, l, t, w, hmade', hcases⟩

theorem start_returns (hinj : ∀ i j p, malloc i = some p → malloc j = some p → i = j)
    (argv0 : Bytes) : ∃ r, start argv0 malloc = some r := by
  have hfresh : ∀ c, malloc 0 = some c → c ∉ (∅ : Heap Ptr CommandNode) := by
    intro c _
    exact AList.notMem_empty c
  obtain ⟨⟨o, s⟩, hrun⟩ := commandCreateWithLen_returns (s := ⟨∅, ∅⟩) (n := some (cString argv0))
    (d := some (text "libevent_http_serve example")) (h := some rootHandler) (u := flagsAt) hfresh
  have hcreate : commandCreate argv0 (some (text "libevent_http_serve example"))
      (some rootHandler) flagsAt (malloc 0) ⟨∅, ∅⟩ = some (o, s) := hrun
  unfold start
  rw [hcreate]
  simp only [Option.bind_eq_bind, Option.bind_some]
  rcases made_empty hcreate with ⟨hnone, -⟩ | ⟨cmd, v, hsome, hmade⟩
  · rw [hnone]
    exact ⟨_, rfl⟩
  · rw [hsome]
    exact addFlags_returns hinj hmade mainData_data mainData_distinct
      fun g hg => (List.not_mem_nil hg).elim

/-- The command that the arguments are read at. -/
theorem mainTree_made (h : mainTree argv0 malloc = some (cmd, s)) :
    ∃ l v, Made cmd (cString argv0) l s v ∧ l.map Flag.toFlagData = mainData := by
  unfold mainTree at h
  split at h
  · rename_i hstart
    cases h
    rcases start_made hstart with ⟨err, hr, -⟩ | ⟨c, l, t, v, hmade, ⟨u, -, hr, -⟩ | ⟨hr, hl⟩⟩
    · cases hr
    · cases hr
    · cases hr
      exact ⟨l, v, hmade, hl⟩
  · cases h

theorem mainTree_root (h : mainTree argv0 malloc = some (cmd, s)) :
    ∃ v l, Stores s v ∧ WellFormed v ∧ Root v cmd l ∧ ∀ g ∈ l, Guarded g := by
  obtain ⟨l, v, hmade, hl⟩ := mainTree_made h
  refine ⟨v, l, hmade.stores, hmade.wellFormed, hmade.toRoot, fun g hg => mainData_guarded ?_⟩
  rw [← hl]
  exact List.mem_map_of_mem hg

end Start

end LibeventHttpServe.Example
