import LibeventHttpServe.Flags.Stores

/-!
# The calls of the registry keep a well-formed forest

Each call either returns NULL and leaves the registry as it was, or appends the
node it returns to one list of the stored forest.
-/

namespace LibeventHttpServe.Flags

open LibeventHttpServe.Lib

variable {s : Registry} {v : Forest}

theorem checkCommand_some {n : Option Bytes} {name : Bytes} (h : checkCommand n = some name) :
    n = some name ∧ name ≠ [] ∧ name.head? ≠ some (ascii '-') := by
  cases n with
  | none => cases h
  | some t =>
    simp only [checkCommand, Option.ite_none_left_eq_some, Option.some.injEq] at h
    obtain ⟨h1, h2, -, rfl⟩ := h
    exact ⟨rfl, h1, h2⟩

theorem checkFlag_some {n : Option Bytes} {name : Bytes} (h : checkFlag n = some name) :
    n = some name ∧ name ≠ [] := by
  cases n with
  | none => cases h
  | some t =>
    simp only [checkFlag, Option.ite_none_left_eq_some, Option.some.injEq] at h
    obtain ⟨h1, -, rfl⟩ := h
    exact ⟨rfl, h1⟩

/-- What a call that returns `c`, a node that was not there, makes of the forest. -/
def Call.adds (v : Forest) (c : Ptr) (w : Forest) : Call → Prop
  | .commandCreateWithLen n d h u => v.command c = none ∧ ∃ name, n = some name ∧
      w = v.create c ⟨name, d, h, u⟩
  | .commandCreate n d h u => v.command c = none ∧ w = v.create c ⟨cString n, d, h, u⟩
  | .addCommandWithLen p n d h u => v.command c = none ∧ ∃ name x, n = some name ∧
      v.command p = some x ∧ w = v.addCommand p x c ⟨name, d, h, u⟩
  | .addCommand p n d h u => v.command c = none ∧ ∃ name x, n = some name ∧
      v.command p = some x ∧ w = v.addCommand p x c ⟨cString name, d, h, u⟩
  | .addFlagWithLen p n k d a tag => v.flag c = none ∧ ∃ name x type, n = some name ∧
      v.command p = some x ∧ FlagType.ofTag tag = some type ∧
      w = v.addFlag p x c ⟨a, false, type, name, k, d, type, none⟩
  | .addFlag p n k d a tag => v.flag c = none ∧ ∃ name x type, n = some name ∧
      v.command p = some x ∧ FlagType.ofTag tag = some type ∧
      w = v.addFlag p x c ⟨a, false, type, cString name, k, d, type, none⟩

/-- The call returned NULL and changed nothing, or it returned the one node it
added. -/
def CallResult (call : Call) (s : Registry) (v : Forest) (out : Outcome) (s' : Registry) : Prop :=
  (out.result = none ∧ s' = s) ∨
    ∃ c w, out.result = some c ∧ call.adds v c w ∧ Appended v w ∧ Stores s' w

theorem CallResult.null {call : Call} {e : ℕ} {out : Outcome} {s' : Registry}
    (h : some (Outcome.mk none e, s) = some (out, s')) : CallResult call s v out s' := by
  simp only [Option.some.injEq, Prod.mk.injEq] at h
  obtain ⟨rfl, rfl⟩ := h
  exact Or.inl ⟨rfl, rfl⟩

theorem commandCreateWithLen_result {n d : Option Bytes} {h : Option Fn} {u : Ptr}
    {m : Option Ptr} {out : Outcome} {s' : Registry} (hs : Stores s v)
    (hrun : commandCreateWithLen n d h u m s = some (out, s')) :
    CallResult (.commandCreateWithLen n d h u) s v out s' := by
  unfold commandCreateWithLen at hrun
  cases hn : checkCommand n with
  | none => exact .null (by simpa only [hn] using hrun)
  | some name =>
    obtain ⟨hname, hok⟩ := checkCommand_some hn
    simp only [hn] at hrun
    cases m with
    | none => exact .null hrun
    | some c =>
      simp only [Option.ite_none_left_eq_some, Option.some.injEq, Prod.mk.injEq] at hrun
      obtain ⟨hc, rfl, rfl⟩ := hrun
      have hfresh := (hs.fresh hc).1
      exact Or.inr ⟨c, _, rfl, ⟨hfresh, name, hname, rfl⟩, .create hfresh hok, hs.create hc _⟩

theorem addCommandWithLen_result {p : Ptr} {n d : Option Bytes} {h : Option Fn} {u : Ptr}
    {m : Option Ptr} {out : Outcome} {s' : Registry} (hs : Stores s v) (hv : WellFormed v)
    (hrun : addCommandWithLen p n d h u m s = some (out, s')) :
    CallResult (.addCommandWithLen p n d h u) s v out s' := by
  unfold addCommandWithLen at hrun
  cases hn : checkCommand n with
  | none => exact .null (by simpa only [hn] using hrun)
  | some name =>
    obtain ⟨hname, hok⟩ := checkCommand_some hn
    cases hp : s.commands.lookup p with
    | none => simp [hn, hp] at hrun
    | some b =>
      obtain ⟨x, hx, -, -⟩ := hs.view hp
      have hvis := hs.children p b x hp hx
      cases hback : Chain.back CommandNode.next (sameCommand name) s.commands b.child with
      | none => simp [hn, hp, hback] at hrun
      | some r =>
        simp only [hn, hp, hback] at hrun
        cases r with
        | error e => exact .null hrun
        | ok back =>
          cases m with
          | none => exact .null hrun
          | some c =>
            simp only [Option.ite_none_left_eq_some] at hrun
            obtain ⟨hc, hrun⟩ := hrun
            obtain ⟨hlast, htest⟩ := Chain.back_ok hvis hback
            -- the walk compared the new name with every child's
            have hother : ∀ e ∈ x.children, ∀ y, v.command e = some y → name ≠ y.name := by
              intro e he y hy heq
              obtain ⟨k, hk, hdata, -⟩ := hs.live hy
              have ht := htest e he k hk
              simp only [sameCommand, ite_eq_right_iff] at ht
              rw [← hdata] at heq
              cases ht heq
            have hfresh := (hs.fresh hc).1
            have happ : Appended v (v.addCommand p x c ⟨name, d, h, u⟩) :=
              .addCommand hx hfresh hok hother
            cases back with
            | none =>
              simp only [Option.some.injEq, Prod.mk.injEq] at hrun
              obtain ⟨rfl, rfl⟩ := hrun
              have hnil : x.children = [] := List.getLast?_eq_none_iff.mp hlast
              exact Or.inr ⟨c, _, rfl, ⟨hfresh, name, x, hname, hx, rfl⟩, happ,
                hs.addFirst hc hx hp hnil⟩
            | some t =>
              cases ht : s.commands.lookup t with
              | none => simp [ht] at hrun
              | some bt =>
                simp only [ht, Option.some.injEq, Prod.mk.injEq] at hrun
                obtain ⟨rfl, rfl⟩ := hrun
                exact Or.inr ⟨c, _, rfl, ⟨hfresh, name, x, hname, hx, rfl⟩, happ,
                  hs.addLast hv hc hx ht hlast⟩

/-- The name and the letter are those of no flag of the command. -/
def Unused (v : Forest) (x : CommandView) (name : Bytes) (k : UInt8) : Prop :=
  ∀ e ∈ x.flags, ∀ g, v.flag e = some g → name ≠ g.name ∧ ¬ (k ≠ 0 ∧ k = g.shortName)

/- The walk compared both names with every flag's. -/
theorem unused_iff {p : Ptr} {b : CommandNode} {x : CommandView} (hs : Stores s v)
    (hp : s.commands.lookup p = some b) (hx : v.command p = some x) (name : Bytes) (k : UInt8) :
    (∃ back, Chain.back FlagNode.next (sameFlag name k) s.flags b.flag = some (.ok back)) ↔
      Unused v x name k := by
  have hvis := hs.flags p b x hp hx
  have htest : ∀ w : FlagNode, sameFlag name k w = none ↔
      name ≠ w.name ∧ ¬ (k ≠ 0 ∧ k = w.shortName) := by
    intro w
    simp only [sameFlag, ite_eq_iff, reduceCtorEq, and_false, false_or, and_true, ne_eq]
  constructor
  · intro h e he g hg
    obtain ⟨back, hback⟩ := h
    rw [← hs.flag e] at hg
    obtain ⟨w, hw, rfl⟩ := Option.map_eq_some_iff.mp hg
    exact (htest w).mp ((Chain.back_ok hvis hback).2 e he w hw)
  · intro h
    refine ⟨_, Chain.back_passes hvis ?_⟩
    intro e he w hw
    exact (htest w).mpr (h e he w.toFlagData (by rw [← hs.flag e, hw]; rfl))

/-- The call returned NULL and changed nothing, or it passed all checks and
returned the one flag it added. -/
theorem addFlagWithLen_cases {p : Ptr} {n d : Option Bytes} {k : UInt8} {a : Ptr} {tag : ℤ}
    {m : Option Ptr} {out : Outcome} {s' : Registry} (hs : Stores s v) (hv : WellFormed v)
    (hrun : addFlagWithLen p n k d a tag m s = some (out, s')) :
    (out.result = none ∧ s' = s) ∨ ∃ name type x f, checkFlag n = some name ∧
      name ≠ text "help" ∧ k ≠ ascii 'h' ∧ FlagType.ofTag tag = some type ∧
      v.command p = some x ∧ Unused v x name k ∧ m = some f ∧ f ∉ s.flags ∧
      out.result = some f ∧
      Stores s' (v.addFlag p x f ⟨a, false, type, name, k, d, type, none⟩) := by
  have hnull : ∀ {e}, some (Outcome.mk none e, s) = some (out, s') →
      out.result = none ∧ s' = s := by
    intro e h
    simp only [Option.some.injEq, Prod.mk.injEq] at h
    obtain ⟨rfl, rfl⟩ := h
    exact ⟨rfl, rfl⟩
  unfold addFlagWithLen at hrun
  cases hn : checkFlag n with
  | none => exact Or.inl (hnull (by simpa only [hn] using hrun))
  | some name =>
    simp only [hn] at hrun
    by_cases hhelp : name = text "help"
    · exact Or.inl (hnull (by simpa only [hhelp, if_true] using hrun))
    by_cases hh : k = ascii 'h'
    · exact Or.inl (hnull (by simpa only [hhelp, hh, if_true, if_false] using hrun))
    simp only [hhelp, hh, if_false] at hrun
    cases htag : FlagType.ofTag tag with
    | none => exact Or.inl (hnull (by simpa only [htag] using hrun))
    | some type =>
      cases hp : s.commands.lookup p with
      | none => simp [htag, hp] at hrun
      | some b =>
        obtain ⟨x, hx, -, -⟩ := hs.view hp
        have hvis := hs.flags p b x hp hx
        cases hback : Chain.back FlagNode.next (sameFlag name k) s.flags b.flag with
        | none => simp [htag, hp, hback] at hrun
        | some r =>
          simp only [htag, hp, hback] at hrun
          cases r with
          | error e => exact Or.inl (hnull hrun)
          | ok back =>
            cases m with
            | none => exact Or.inl (hnull hrun)
            | some f =>
              simp only [Option.ite_none_left_eq_some] at hrun
              obtain ⟨hf, hrun⟩ := hrun
              have hlast := (Chain.back_ok hvis hback).1
              have hunused := (unused_iff hs hp hx name k).mp ⟨back, hback⟩
              cases back with
              | none =>
                simp only [Option.some.injEq, Prod.mk.injEq] at hrun
                obtain ⟨rfl, rfl⟩ := hrun
                have hnil : x.flags = [] := List.getLast?_eq_none_iff.mp hlast
                exact Or.inr ⟨name, type, x, f, rfl, hhelp, hh, rfl, hx, hunused, rfl, hf, rfl,
                  hs.addFirstFlag hf hx hp hnil⟩
              | some t =>
                cases ht : s.flags.lookup t with
                | none => simp [ht] at hrun
                | some g =>
                  simp only [ht, Option.some.injEq, Prod.mk.injEq] at hrun
                  obtain ⟨rfl, rfl⟩ := hrun
                  exact Or.inr ⟨name, type, x, f, rfl, hhelp, hh, rfl, hx, hunused, rfl, hf, rfl,
                    hs.addLastFlag hv hf hx ht hlast⟩

theorem addFlagWithLen_result {p : Ptr} {n d : Option Bytes} {k : UInt8} {a : Ptr} {tag : ℤ}
    {m : Option Ptr} {out : Outcome} {s' : Registry} (hs : Stores s v) (hv : WellFormed v)
    (hrun : addFlagWithLen p n k d a tag m s = some (out, s')) :
    CallResult (.addFlagWithLen p n k d a tag) s v out s' := by
  rcases addFlagWithLen_cases hs hv hrun with
    h | ⟨name, type, x, f, hn, hhelp, hh, htag, hx, hunused, -, hf, hres, hst⟩
  · exact Or.inl h
  · obtain ⟨hname, hne⟩ := checkFlag_some hn
    have hfresh := (hs.freshFlag hf).1
    exact Or.inr ⟨f, _, hres, ⟨hfresh, name, x, type, hname, hx, htag, rfl⟩,
      .addFlag hx hfresh ⟨hne, hhelp, hh⟩ hunused, hst⟩

/-- A flag that passes all checks is added. -/
theorem addFlagWithLen_accepts {p : Ptr} {n d : Option Bytes} {k : UInt8} {a : Ptr} {tag : ℤ}
    {name : Bytes} {type : FlagType} {x : CommandView} {f : Ptr} (hs : Stores s v)
    (hx : v.command p = some x) (hn : checkFlag n = some name) (hhelp : name ≠ text "help")
    (hh : k ≠ ascii 'h') (htag : FlagType.ofTag tag = some type) (hunused : Unused v x name k)
    (hf : f ∉ s.flags) :
    ∃ s', addFlagWithLen p n k d a tag (some f) s = some (⟨some f, 0⟩, s') := by
  obtain ⟨b, hb, -, -⟩ := hs.live hx
  obtain ⟨back, hback⟩ := (unused_iff hs hb hx name k).mpr hunused
  unfold addFlagWithLen
  simp only [hn, if_neg hhelp, if_neg hh, htag, hb, hback, if_neg hf]
  cases back with
  | none => exact ⟨_, rfl⟩
  | some t =>
    have hvis := hs.flags p b x hb hx
    have hlast := (Chain.back_ok hvis hback).1
    obtain ⟨g, hg⟩ := Chain.visits_live hvis (List.mem_of_getLast? hlast)
    simp only [hg]
    exact ⟨_, rfl⟩

theorem call_result (hs : Stores s v) (hv : WellFormed v) (call : Call) {m : Option Ptr}
    {out : Outcome} {s' : Registry} (hrun : call.run m s = some (out, s')) :
    CallResult call s v out s' := by
  cases call with
  | commandCreateWithLen n d h u => exact commandCreateWithLen_result hs hrun
  | commandCreate n d h u =>
    rcases commandCreateWithLen_result hs hrun with
      hn | ⟨c, w, hc, ⟨hfresh, name, hname, hw⟩, happ, hst⟩
    · exact Or.inl hn
    · cases hname
      exact Or.inr ⟨c, w, hc, ⟨hfresh, hw⟩, happ, hst⟩
  | addCommandWithLen p n d h u => exact addCommandWithLen_result hs hv hrun
  | addCommand p n d h u =>
    cases n with
    | none => exact .null hrun
    | some name =>
      simp only [Call.run, addCommand] at hrun
      by_cases hz : cString name = []
      · exact .null (by simpa only [hz, if_true] using hrun)
      rw [if_neg hz] at hrun
      rcases addCommandWithLen_result hs hv hrun with
        hn | ⟨c, w, hc, ⟨hfresh, name', x, hname, hx, hw⟩, happ, hst⟩
      · exact Or.inl hn
      · cases hname
        exact Or.inr ⟨c, w, hc, ⟨hfresh, name, x, rfl, hx, hw⟩, happ, hst⟩
  | addFlagWithLen p n k d a tag => exact addFlagWithLen_result hs hv hrun
  | addFlag p n k d a tag =>
    cases n with
    | none => exact .null hrun
    | some name =>
      simp only [Call.run, addFlag] at hrun
      by_cases hz : cString name = []
      · exact .null (by simpa only [hz, if_true] using hrun)
      rw [if_neg hz] at hrun
      rcases addFlagWithLen_result hs hv hrun with
        hn | ⟨c, w, hc, ⟨hfresh, name', x, type, hname, hx, htag, hw⟩, happ, hst⟩
      · exact Or.inl hn
      · cases hname
        exact Or.inr ⟨c, w, hc, ⟨hfresh, name, x, type, rfl, hx, htag, hw⟩, happ, hst⟩

/-! ### The calls return -/

/-- The command that a call is about. -/
def Call.about : Call → Option Ptr
  | .commandCreateWithLen .. => none
  | .commandCreate .. => none
  | .addCommandWithLen p .. => some p
  | .addCommand p .. => some p
  | .addFlagWithLen p .. => some p
  | .addFlag p .. => some p

/-- The call is about a command of the registry, and `malloc` does not return
memory that is in use. -/
structure Call.Enabled (call : Call) (malloc : Option Ptr) (s : Registry) : Prop where
  about : ∀ p, call.about = some p → p ∈ s.commands
  fresh : ∀ c, malloc = some c → c ∉ s.commands ∧ c ∉ s.flags

theorem commandCreateWithLen_returns {n d : Option Bytes} {h : Option Fn} {u : Ptr}
    {m : Option Ptr} (hm : ∀ c, m = some c → c ∉ s.commands) :
    ∃ r, commandCreateWithLen n d h u m s = some r := by
  unfold commandCreateWithLen
  cases checkCommand n with
  | none => exact ⟨_, rfl⟩
  | some name =>
    cases m with
    | none => exact ⟨_, rfl⟩
    | some c => exact ⟨_, if_neg (hm c rfl)⟩

theorem addCommandWithLen_returns (hs : Stores s v) {p : Ptr} {n d : Option Bytes}
    {h : Option Fn} {u : Ptr} {m : Option Ptr} (hp : p ∈ s.commands)
    (hm : ∀ c, m = some c → c ∉ s.commands) :
    ∃ r, addCommandWithLen p n d h u m s = some r := by
  unfold addCommandWithLen
  cases checkCommand n with
  | none => exact ⟨_, rfl⟩
  | some name =>
    obtain ⟨b, hb⟩ := Option.isSome_iff_exists.mp (AList.lookup_isSome.mpr hp)
    obtain ⟨x, hx, -⟩ := hs.view hb
    have hvis := hs.children p b x hb hx
    obtain ⟨r, hr⟩ := Chain.back_total (sameCommand name) hvis
    simp only [hb, hr]
    cases r with
    | error e => exact ⟨_, rfl⟩
    | ok back =>
      cases m with
      | none => exact ⟨_, rfl⟩
      | some c =>
        simp only [if_neg (hm c rfl)]
        cases back with
        | none => exact ⟨_, rfl⟩
        | some t =>
          obtain ⟨hlast, -⟩ := Chain.back_ok hvis hr
          obtain ⟨bt, ht⟩ := Chain.visits_live hvis (List.mem_of_getLast? hlast)
          simp only [ht]
          exact ⟨_, rfl⟩

theorem addFlagWithLen_returns (hs : Stores s v) {p : Ptr} {n d : Option Bytes} {k : UInt8}
    {a : Ptr} {tag : ℤ} {m : Option Ptr} (hp : p ∈ s.commands)
    (hm : ∀ f, m = some f → f ∉ s.flags) :
    ∃ r, addFlagWithLen p n k d a tag m s = some r := by
  unfold addFlagWithLen
  cases checkFlag n with
  | none => exact ⟨_, rfl⟩
  | some name =>
    by_cases hhelp : name = text "help"
    · exact ⟨_, if_pos hhelp⟩
    by_cases hh : k = ascii 'h'
    · simp only [if_neg hhelp, if_pos hh]
      exact ⟨_, rfl⟩
    simp only [if_neg hhelp, if_neg hh]
    cases FlagType.ofTag tag with
    | none => exact ⟨_, rfl⟩
    | some type =>
      obtain ⟨b, hb⟩ := Option.isSome_iff_exists.mp (AList.lookup_isSome.mpr hp)
      obtain ⟨x, hx, -⟩ := hs.view hb
      have hvis := hs.flags p b x hb hx
      obtain ⟨r, hr⟩ := Chain.back_total (sameFlag name k) hvis
      simp only [hb, hr]
      cases r with
      | error e => exact ⟨_, rfl⟩
      | ok back =>
        cases m with
        | none => exact ⟨_, rfl⟩
        | some f =>
          simp only [if_neg (hm f rfl)]
          cases back with
          | none => exact ⟨_, rfl⟩
          | some t =>
            obtain ⟨hlast, -⟩ := Chain.back_ok hvis hr
            obtain ⟨g, hg⟩ := Chain.visits_live hvis (List.mem_of_getLast? hlast)
            simp only [hg]
            exact ⟨_, rfl⟩

theorem call_returns (hs : Stores s v) {call : Call} {m : Option Ptr} (h : call.Enabled m s) :
    ∃ r, call.run m s = some r := by
  obtain ⟨habout, hfresh⟩ := h
  have hcommands : ∀ c, m = some c → c ∉ s.commands := fun c hc => (hfresh c hc).1
  have hflags : ∀ f, m = some f → f ∉ s.flags := fun f hf => (hfresh f hf).2
  cases call with
  | commandCreateWithLen n d h u => exact commandCreateWithLen_returns hcommands
  | commandCreate n d h u => exact commandCreateWithLen_returns hcommands
  | addCommandWithLen p n d h u => exact addCommandWithLen_returns hs (habout p rfl) hcommands
  | addCommand p n d h u =>
    simp only [Call.run, addCommand]
    cases n with
    | none => exact ⟨_, rfl⟩
    | some name =>
      by_cases hz : cString name = []
      · exact ⟨_, if_pos hz⟩
      simp only [if_neg hz]
      exact addCommandWithLen_returns hs (habout p rfl) hcommands
  | addFlagWithLen p n k d a tag => exact addFlagWithLen_returns hs (habout p rfl) hflags
  | addFlag p n k d a tag =>
    simp only [Call.run, addFlag]
    cases n with
    | none => exact ⟨_, rfl⟩
    | some name =>
      by_cases hz : cString name = []
      · exact ⟨_, if_pos hz⟩
      simp only [if_neg hz]
      exact addFlagWithLen_returns hs (habout p rfl) hflags

/-! ### Every reachable registry -/

def emptyForest : Forest := ⟨fun _ => none, fun _ => none⟩

theorem emptyForest_command {p : Ptr} {x : CommandView} (h : emptyForest.command p = some x) :
    False := by
  cases h

theorem stores_empty : Stores ⟨∅, ∅⟩ emptyForest where
  command := fun _ => rfl
  children := fun _ _ _ _ h => (emptyForest_command h).elim
  flags := fun _ _ _ _ h => (emptyForest_command h).elim
  flag := fun _ => rfl

theorem wellFormed_empty : WellFormed emptyForest where
  parentOf := fun _ _ _ h => (emptyForest_command h).elim
  listed := fun _ _ _ h => (emptyForest_command h).elim
  once := fun _ _ h => (emptyForest_command h).elim
  acyclic := ⟨fun _ => 0, fun _ _ _ h => (emptyForest_command h).elim⟩
  finite := ⟨[], fun _ _ h => (emptyForest_command h).elim⟩
  commandName := fun _ _ h => (emptyForest_command h).elim
  siblings := fun _ _ _ _ _ _ h => (emptyForest_command h).elim
  owned := fun _ _ _ h => (emptyForest_command h).elim
  owner := fun _ _ _ _ _ h => (emptyForest_command h).elim
  flagName := by
    intro f g h
    cases h
  flagNames := fun _ _ _ _ _ _ h => (emptyForest_command h).elim

theorem forest_reachable (hs : registrySystem.Reachable s) : ∃ v, Stores s v ∧ WellFormed v := by
  refine hs.invariant (I := fun s => ∃ v, Stores s v ∧ WellFormed v) ?_ ?_
  · intro s h
    cases h
    exact ⟨_, stores_empty, wellFormed_empty⟩
  · intro s a s' _ hi h
    obtain ⟨v, hst, hv⟩ := hi
    obtain ⟨⟨out, s''⟩, hrun, he⟩ := Option.map_eq_some_iff.mp h
    cases he
    rcases call_result hst hv _ hrun with ⟨-, rfl⟩ | ⟨c, w, -, -, happ, hw⟩
    · exact ⟨v, hst, hv⟩
    · exact ⟨w, hw, hv.appended happ⟩

/-- A reachable registry stores a well-formed forest, and every call on it returns;
one that returns NULL leaves the registry as it was, and one that returns a node
appends that node, which was not there, at the end of one list and changes nothing
else. -/
theorem registry_reachable (hs : registrySystem.Reachable s) :
    ∃ v, Stores s v ∧ WellFormed v ∧
      (∀ (call : Call) malloc, call.Enabled malloc s → ∃ r, call.run malloc s = some r) ∧
      ∀ (call : Call) malloc out s', call.run malloc s = some (out, s') →
      (out.result = none → s' = s) ∧
        ∀ c, out.result = some c → ∃ w, call.adds v c w ∧ Stores s' w ∧ WellFormed w := by
  obtain ⟨v, hst, hv⟩ := forest_reachable hs
  refine ⟨v, hst, hv, fun call m h => call_returns hst h, ?_⟩
  intro call m out s' hrun
  rcases call_result hst hv _ hrun with ⟨hn, rfl⟩ | ⟨c, w, hc, hadds, happ, hw⟩
  · refine ⟨fun _ => rfl, ?_⟩
    intro c hc
    rw [hn] at hc
    cases hc
  · constructor
    · intro hn
      rw [hc] at hn
      cases hn
    intro c' hc'
    rw [hc, Option.some.injEq] at hc'
    subst hc'
    exact ⟨w, hadds, hw, hv.appended happ⟩

/- A root, two children, a name that is taken, a flag, and no memory. -/
def twoCommands : List (Call × Option Ptr) :=
  [(.commandCreate (text "app") none none 0, some 1),
    (.addCommand 1 (some (text "get")) none none 0, some 2),
    (.addCommand 1 (some (text "put")) none none 0, some 3),
    (.addCommand 1 (some (text "get")) none none 0, some 4),
    (.addFlag 1 (some (text "worker")) (ascii 'w') none 9 6, some 1)]

/- A third child for the root. -/
def thirdChild : Call := .addCommand 1 (some (text "del")) none none 0

theorem registry_reachable_run :
    ∃ s, registrySystem.exec twoCommands ⟨∅, ∅⟩ = some s ∧
      (s.commands.lookup 1).map (fun n => (n.child, n.flag)) = some (some 2, some 1) ∧
      ∃ v, Stores s v ∧ WellFormed v ∧ ∃ s' w, thirdChild.run (some 5) s = some (⟨some 5, 0⟩, s') ∧
        thirdChild.adds v 5 w ∧ Stores s' w ∧ WellFormed w := by
  have hobs : (registrySystem.exec twoCommands ⟨∅, ∅⟩).map
      (fun s => ((s.commands.lookup 1).map fun n => (n.child, n.flag),
        (thirdChild.run (some 5) s).map fun r => (r.1.result, r.1.err))) =
        some (some (some 2, some 1), some (some 5, 0)) := by
    decide
  obtain ⟨s, hs, he⟩ := Option.map_eq_some_iff.mp hobs
  obtain ⟨hlists, hrun⟩ := Prod.mk.inj he
  obtain ⟨⟨⟨res, err⟩, s'⟩, hcall, hout⟩ := Option.map_eq_some_iff.mp hrun
  obtain ⟨rfl, rfl⟩ := Prod.mk.inj hout
  obtain ⟨v, hst, hv, -, hcalls⟩ := registry_reachable (System.reachable_exec (.init rfl) hs)
  obtain ⟨w, hadds, hst', hv'⟩ := (hcalls thirdChild (some 5) _ s' hcall).2 5 rfl
  exact ⟨s, hs, hlists, v, hst, hv, s', w, hcall, hadds, hst', hv'⟩

end LibeventHttpServe.Flags
