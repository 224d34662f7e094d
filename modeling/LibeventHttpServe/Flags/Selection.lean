import LibeventHttpServe.Flags.Phases
import LibeventHttpServe.Flags.Refinement
import LibeventHttpServe.Flags.Simulation

/-!
# The command an argument list selects

The loop descends along the longest initial run of names of children; the command
it reaches is the one whose flags are set and whose handler is called.
-/

namespace LibeventHttpServe.Flags

open LibeventHttpServe.Lib (System)

/-- `c` is a child of `p` with the name `t`. -/
def ChildNamed (v : Forest) (p : Ptr) (t : Bytes) (c : Ptr) : Prop :=
  ∃ x y, v.command p = some x ∧ c ∈ x.children ∧ v.command c = some y ∧ y.name = t

/-- The names `ts` lead from `p` down to `d`. -/
inductive Path (v : Forest) : Ptr → List Bytes → Ptr → Prop where
  | nil (p : Ptr) : Path v p [] p
  | cons {p c d : Ptr} {t : Bytes} {ts : List Bytes} (h : ChildNamed v p t c)
      (hs : Path v c ts d) : Path v p (t :: ts) d

/-- The first `n` tokens lead down to `C`, and no longer run of tokens leads
anywhere. -/
structure LongestRun (v : Forest) (root : Ptr) (argv : List Bytes) (n : ℕ) (C : Ptr) :
    Prop where
  le : n ≤ argv.length
  path : Path v root (argv.take n) C
  longest : ∀ m D, m ≤ argv.length → Path v root (argv.take m) D → m ≤ n

section

variable {v : Forest} {p c d root : Ptr} {argv : List Bytes} {n k : ℕ} {C : Ptr} {t : Bytes}

/-! ### Paths -/

theorem ChildNamed.unique (hv : WellFormed v) (hc : ChildNamed v p t c)
    (hd : ChildNamed v p t d) : c = d := by
  obtain ⟨x, y, hx, hmem, hy, hname⟩ := hc
  obtain ⟨x', z, hx', hmem', hz, hname'⟩ := hd
  rw [hx, Option.some.injEq] at hx'
  subst hx'
  exact hv.siblings p x c d y z hx hmem hmem' hy hz (hname.trans hname'.symm)

theorem ChildNamed.plain (hv : WellFormed v) (hc : ChildNamed v p t c) :
    t.head? ≠ some (ascii '-') := by
  obtain ⟨x, y, -, -, hy, rfl⟩ := hc
  exact (hv.commandName c y hy).2

theorem tokenOf_head (h : t.head? ≠ some (ascii '-')) : tokenOf t = .plain := by
  unfold tokenOf
  split
  · rfl
  · rfl
  · rename_i a b body
    have ha : a ≠ ascii '-' := by
      intro ha
      apply h
      rw [ha]
      rfl
    rw [if_neg ha]

theorem Path.append {ts us : List Bytes} (h : Path v p ts c) (hs : Path v c us d) :
    Path v p (ts ++ us) d := by
  induction h with
  | nil p => exact hs
  | cons hc _ ih => exact .cons hc (ih hs)

theorem Path.split {ts us : List Bytes} (h : Path v p (ts ++ us) d) :
    ∃ c, Path v p ts c ∧ Path v c us d := by
  induction ts generalizing p with
  | nil => exact ⟨p, .nil p, h⟩
  | cons t ts ih =>
    cases h with
    | cons hc hs =>
      obtain ⟨c, h1, h2⟩ := ih hs
      exact ⟨c, .cons hc h1, h2⟩

theorem Path.unique (hv : WellFormed v) {ts : List Bytes} (h : Path v p ts c)
    (h' : Path v p ts d) : c = d := by
  induction h with
  | nil p =>
    cases h'
    rfl
  | cons hc _ ih =>
    cases h' with
    | cons hc' hs' =>
      have he := hc'.unique hv hc
      subst he
      exact ih hs'

theorem take_next (ht : argv[k]? = some t) : argv.take (k + 1) = argv.take k ++ [t] := by
  rw [List.take_add_one, ht]
  rfl

theorem LongestRun.stop (hv : WellFormed v) (h : LongestRun v root argv n C)
    (hk : k ≤ argv.length) (hp : Path v root (argv.take k) c)
    (hno : ∀ t, argv[k]? = some t → ∀ d, ¬ ChildNamed v c t d) : k = n ∧ c = C := by
  have hle := h.longest k c hk hp
  have hkn : k = n := by
    by_contra hne
    have hlt : k < argv.length := by
      have := h.le
      omega
    have ht := List.getElem?_eq_getElem hlt
    -- the path to `C` goes on where the run stops
    have hpath := h.path
    rw [← List.take_append_drop (k + 1) (argv.take n), List.take_take,
      Nat.min_eq_left (by omega), take_next ht] at hpath
    obtain ⟨q, hq, -⟩ := hpath.split
    obtain ⟨r, hr, hlast⟩ := hq.split
    cases hlast with
    | cons hchild _ =>
      have hrc := hr.unique hv hp
      subst hrc
      exact hno _ ht _ hchild
  subst hkn
  exact ⟨rfl, hp.unique hv h.path⟩

open Classical in
theorem longestRun_exists (v : Forest) (root : Ptr) (argv : List Bytes) :
    ∃ n C, LongestRun v root argv n C := by
  have hzero : ∃ D, Path v root (argv.take 0) D := ⟨root, .nil root⟩
  obtain ⟨C, hC⟩ := Nat.findGreatest_spec (P := fun n => ∃ D, Path v root (argv.take n) D)
    (Nat.zero_le argv.length) hzero
  exact ⟨_, C, Nat.findGreatest_le _, hC, fun m D hm hD => Nat.le_findGreatest hm ⟨D, hD⟩⟩

/-! ### The lists that the loop walks -/

theorem mem_child {q : Ptr × Bytes} (h : q ∈ v.commands.child p) : ChildNamed v p q.2 q.1 := by
  obtain ⟨c, hc, hq⟩ := List.mem_filterMap.mp h
  obtain ⟨y, hy, rfl⟩ := Option.map_eq_some_iff.mp hq
  cases hx : v.command p with
  | none =>
    rw [hx] at hc
    cases hc
  | some x =>
    rw [hx] at hc
    exact ⟨x, y, hx, hc, hy, rfl⟩

theorem child_mem (h : ChildNamed v p t c) : (c, t) ∈ v.commands.child p := by
  obtain ⟨x, y, hx, hc, hy, rfl⟩ := h
  apply List.mem_filterMap.mpr
  refine ⟨c, ?_, ?_⟩
  · rw [hx]
    exact hc
  · rw [hy]
    rfl

theorem find_some {q : Ptr × Bytes}
    (h : (v.commands.child p).find? (fun c => decide (c.2 = t)) = some q) :
    ChildNamed v p t q.1 := by
  have hname := List.find?_some h
  rw [← of_decide_eq_true hname]
  exact mem_child (List.mem_of_find?_eq_some h)

theorem find_none (h : (v.commands.child p).find? (fun c => decide (c.2 = t)) = none) :
    ¬ ChildNamed v p t c := by
  intro hc
  have hne := List.find?_eq_none.mp h _ (child_mem hc)
  exact hne (decide_eq_true rfl)

theorem mem_flag {g : Flag} (h : g ∈ v.commands.flag p) :
    ∃ x, v.command p = some x ∧ g.ptr ∈ x.flags := by
  obtain ⟨f, hf, hg⟩ := List.mem_filterMap.mp h
  obtain ⟨y, -, rfl⟩ := Option.map_eq_some_iff.mp hg
  cases hx : v.command p with
  | none =>
    rw [hx] at hf
    cases hf
  | some x =>
    rw [hx] at hf
    exact ⟨x, rfl, hf⟩

/-! ### The states of the loop -/

variable {σ : Type} {x : Input} {e : Env σ}

/-- Before the end of the run the loop is at the command the tokens lead to, and
from there on at `C`. -/
def Selecting (v : Forest) (root : Ptr) (argv : List Bytes) (n : ℕ) (C : Ptr) (a : Args σ) :
    Prop :=
  (a.input = false ∧ a.i ≤ n ∧ Path v root (argv.take a.i) a.command) ∨
    (a.input = true ∧ n ≤ a.i ∧ a.command = C)

theorem selecting_round (hv : WellFormed v) (hx : x.commands = v.commands)
    (h : LongestRun v root x.argv n C) {a b : Args σ} (hstate : a.state ≠ .none → a.input = true)
    (ha : Selecting v root x.argv n C a) (hb : round x e a = .loop b) :
    (b.state ≠ .none → b.input = true) ∧ Selecting v root x.argv n C b := by
  have hle := h.le
  -- a token that is no subcommand ends the run
  have hstop : (∀ t, x.argv[a.i]? = some t → ∀ d, ¬ ChildNamed v a.command t d) →
      n ≤ a.i ∧ a.command = C := by
    intro hno
    rcases ha with ⟨-, hi, hpath⟩ | ⟨-, hi, hC⟩
    · obtain ⟨hin, hC⟩ := h.stop hv (by omega) hpath hno
      exact ⟨by omega, hC⟩
    · exact ⟨hi, hC⟩
  have htrue : a.input = true → n ≤ a.i ∧ a.command = C := by
    intro hin
    rcases ha with ⟨hf, -⟩ | ha
    · rw [hin] at hf
      cases hf
    · exact ha.2
  cases round_moves hb with
  | descend t q _ hinput ht hfind hcommand hi hinput' hstate' =>
    refine ⟨fun hne => (hne hstate').elim, Or.inl ⟨hinput', ?_⟩⟩
    rcases ha with ⟨-, hin, hpath⟩ | ⟨ht, -⟩
    · rw [hx] at hfind
      have hlt : a.i < x.argv.length := (List.getElem?_eq_some_iff.mp ht).1
      have hnext : Path v root (x.argv.take (a.i + 1)) q.1 := by
        rw [take_next ht]
        exact hpath.append (.cons (find_some hfind) (.nil _))
      rw [hi, hcommand]
      exact ⟨h.longest _ _ (by omega) hnext, hnext⟩
    · rw [hinput] at ht
      cases ht
  | enter t _ ht hdash _ _ hcommand hi hinput' _ =>
    refine ⟨fun _ => hinput', Or.inr ⟨hinput', ?_⟩⟩
    rw [hi, hcommand]
    apply hstop
    intro t' ht' d hd
    rw [ht, Option.some.injEq] at ht'
    subst ht'
    exact hd.plain hv hdash
  | positional t _ ht hfind hcommand hi hinput' _ =>
    refine ⟨fun _ => hinput', Or.inr ⟨hinput', ?_⟩⟩
    have hC : n ≤ a.i ∧ a.command = C := by
      rcases hfind with hin | hfind
      · exact htrue hin
      · apply hstop
        intro t' ht' d hd
        rw [ht, Option.some.injEq] at ht'
        subst ht'
        rw [hx] at hfind
        exact find_none hfind hd
    rw [hi, hcommand]
    exact ⟨by omega, hC.2⟩
  | member hs _ _ hcommand hi hinput' _ =>
    have hin := hstate (by rw [hs]; decide)
    rw [hin] at hinput'
    refine ⟨fun _ => hinput', Or.inr ⟨hinput', ?_⟩⟩
    rw [hi, hcommand]
    exact htrue hin
  | leave hs hcommand hi hinput' hstate' =>
    have hin := hstate hs
    obtain ⟨hn, hC⟩ := htrue hin
    refine ⟨fun _ => hinput' hin, Or.inr ⟨hinput' hin, ?_⟩⟩
    rw [hcommand]
    exact ⟨by omega, hC⟩

theorem selecting_rounds (hv : WellFormed v) (hx : x.commands = v.commands)
    (h : LongestRun v root x.argv n C) {a b : Args σ} (hab : Rounds x e a b)
    (hstate : a.state ≠ .none → a.input = true) (ha : Selecting v root x.argv n C a) :
    Selecting v root x.argv n C b := by
  induction hab with
  | refl => exact ha
  | head hr _ ih =>
    obtain ⟨hstate', ha'⟩ := selecting_round hv hx h hstate ha hr
    exact ih hstate' ha'

/-! ### The log -/

/-- The command a run ends at, and the flags it sets. -/
structure Scoped (v : Forest) (C : Ptr) (log : List Event) : Prop where
  call : ∀ c h argc argv, Event.call c h argc argv ∈ log →
    c = C ∧ (v.command C).bind (fun x => x.handler) = some h
  flag : ∀ f s, Event.setFlag f s ∈ log → ∃ x, v.command C = some x ∧ f ∈ x.flags
  other : ∀ f s, Event.setFlag f s ∈ log → ∀ D y, v.command D = some y → f ∈ y.flags → D = C

def InScope (x : Input) (C c : Ptr) (w : World HandlerArgs σ) : Prop :=
  c = C ∧ calls w.log = [] ∧ ∀ f s, Event.setFlag f s ∈ w.log → ∃ g ∈ x.commands.flag C, g.ptr = f

theorem read_scope (hv : WellFormed v) (hx : x.commands = v.commands)
    (h : LongestRun v root x.argv n C) (mem : σ) :
    ∃ w, InScope x C (read x e (pushAt x e) x.argv 0 root false ⟨mem, .start, []⟩).command w ∧
      (read x e (pushAt x e) x.argv 0 root false ⟨mem, .start, []⟩).Ends w := by
  have hleave : ∀ k c (w : World HandlerArgs σ), k ≤ x.argv.length →
      Path v root (x.argv.take k) c → w.log = [] →
      (∀ t, x.argv[k]? = some t → ∀ d, ¬ ChildNamed v c t d) → InScope x C c w := by
    intro k c w hk hp hw hno
    obtain ⟨-, hC⟩ := h.stop hv hk hp hno
    refine ⟨hC, ?_, ?_⟩
    · rw [hw]
      rfl
    · rw [hw]
      nofun
  have hphases := read_phases x e (pushAt x e)
    (F := fun k c w => k ≤ x.argv.length ∧ Path v root (x.argv.take k) c ∧ w.log = [])
    (G := fun _ => InScope x C) ?_ ?_ ?_ ?_ ?_ ?_ x.argv 0 root false ⟨mem, .start, []⟩ rfl
    ⟨Nat.zero_le _, .nil root, rfl⟩
  · obtain ⟨-, w, hw, hends⟩ := hphases
    exact ⟨w, hw, hends⟩
  · intro k t c w d hF ht _ hfind
    obtain ⟨-, hp, hw⟩ := hF
    have hlt : k < x.argv.length := (List.getElem?_eq_some_iff.mp ht).1
    rw [hx] at hfind
    refine ⟨hlt, ?_, hw⟩
    rw [take_next ht]
    exact hp.append (.cons (find_some hfind) (.nil _))
  · intro k t c w hF ht hno
    obtain ⟨hk, hp, hw⟩ := hF
    apply hleave k c w hk hp hw
    intro t' ht' d hd
    rw [ht, Option.some.injEq] at ht'
    subst ht'
    rcases hno with hno | hno
    · exact hno (tokenOf_head (hd.plain hv))
    · rw [hx] at hno
      exact find_none hno hd
  · intro k c w hF hend
    obtain ⟨hk, hp, hw⟩ := hF
    apply hleave k c w hk hp hw
    intro t ht
    rw [List.getElem?_eq_none hend] at ht
    cases ht
  · exact fun _ _ _ hG => hG
  · intro _ c w f s m hG hf
    obtain ⟨hC, hcalls, hset⟩ := hG
    refine ⟨hC, ?_, ?_⟩
    · show calls (w.log ++ [Event.setFlag f.ptr s]) = []
      rw [calls_append, hcalls]
      rfl
    · intro g s' hm
      rcases List.mem_append.mp hm with hm | hm
      · exact hset g s' hm
      · cases List.mem_singleton.mp hm
        rw [← hC]
        exact ⟨f, hf, rfl⟩
  · exact fun _ _ _ _ _ hG => hG

/-- Over a reachable registry, the command at the end of the longest initial run
of names of children is the only one whose flags are set and whose handler is
called, and once the run is over no state of the loop is at another command. -/
theorem execute_scope {s : Registry} (hs : registrySystem.Reachable s) (root : Ptr)
    (argv : List Bytes) (allowUnknow : Bool) (e : Env σ) (mem : σ) :
    ∃ v, Stores s v ∧ WellFormed v ∧ (∃ n C, LongestRun v root argv n C) ∧
      ∀ n C, LongestRun v root argv n C →
        (∀ fuel r, execute ⟨v.commands, argv, allowUnknow⟩ e root mem fuel = some r →
          r.command = C ∧ Scoped v C r.world.log) ∧
        ∀ a, Rounds ⟨v.commands, argv, allowUnknow⟩ e (.start root mem) a →
          Selecting v root argv n C a := by
  obtain ⟨v, hst, hv⟩ := forest_reachable hs
  refine ⟨v, hst, hv, longestRun_exists v root argv, ?_⟩
  intro n C h
  constructor
  · intro fuel r hr
    obtain ⟨w, ⟨hC, hcalls, hset⟩, hends⟩ := read_scope (x := ⟨v.commands, argv, allowUnknow⟩)
      (e := e) hv rfl h mem
    rw [execute_unique hr]
    have hflag : ∀ f s, Event.setFlag f s ∈ (finish ⟨v.commands, argv, allowUnknow⟩ e
        (read ⟨v.commands, argv, allowUnknow⟩ e (pushAt ⟨v.commands, argv, allowUnknow⟩ e) argv 0
          root false ⟨mem, .start, []⟩)).world.log → ∃ x, v.command C = some x ∧ f ∈ x.flags := by
      intro f s hm
      obtain ⟨g, hg, rfl⟩ := hset f s ((finish_flags hends f s).mp hm)
      exact mem_flag hg
    refine ⟨?_, ?_, hflag, ?_⟩
    · rw [finish_command]
      exact hC
    · intro c g argc argv' hm
      obtain ⟨-, hc, hg, -⟩ := (finish_calls hcalls hends c g argc argv').mp hm
      rw [hC] at hc hg
      exact ⟨hc, hg⟩
    · intro f s hm D y hD hf
      obtain ⟨z, hz, hfz⟩ := hflag f s hm
      exact hv.owner D y C z f hD hz hf hfz
  · intro a ha
    apply selecting_rounds hv rfl h ha
    · intro hne
      exact (hne rfl).elim
    · exact Or.inl ⟨rfl, Nat.zero_le n, .nil root⟩

end

theorem execute_scope_run :
    ∃ s, registrySystem.exec twoCommands ⟨∅, ∅⟩ = some s ∧
      ∃ v, Stores s v ∧ WellFormed v ∧ ∃ n C, LongestRun v 1 [text "get", text "put"] n C ∧
        ∀ fuel r, execute ⟨v.commands, [text "get", text "put"], false⟩ acceptAll 1 () fuel =
          some r → r.command = C ∧ Scoped v C r.world.log := by
  have hsome : (registrySystem.exec twoCommands ⟨∅, ∅⟩).isSome = true := by decide
  obtain ⟨s, hs⟩ := Option.isSome_iff_exists.mp hsome
  obtain ⟨v, hst, hv, ⟨n, C, h⟩, hall⟩ := execute_scope (System.reachable_exec (.init rfl) hs) 1
    [text "get", text "put"] false acceptAll ()
  exact ⟨s, hs, v, hst, hv, n, C, h, (hall n C h).1⟩

end LibeventHttpServe.Flags
