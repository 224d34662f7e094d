import LibeventHttpServe.Flags.Phases
import LibeventHttpServe.Flags.Simulation

/-!
# The loop of execute ends, in one of three ways

The measure of a state counts the tokens that are left, with two for the states a
token goes through and one for each of its characters.
-/

namespace LibeventHttpServe.Flags

open LibeventHttpServe.Lib

section

variable {σ : Type} {x : Input} {e : Env σ}

/-! ### The measure -/

/-- The measure of the tokens from number `i` on. -/
def left (x : Input) (i : ℕ) : ℕ := ((x.argv.drop i).map fun t => t.length + 2).sum

theorem left_of_some {i : ℕ} {t : Bytes} (h : x.argv[i]? = some t) :
    left x i = t.length + 2 + left x (i + 1) := by
  obtain ⟨hi, rfl⟩ := List.getElem?_eq_some_iff.mp h
  unfold left
  rw [List.drop_eq_getElem_cons hi, List.map_cons, List.sum_cons]

theorem left_succ_le (i : ℕ) : left x (i + 1) ≤ left x i := by
  cases h : x.argv[i]? with
  | none =>
    have hi : x.argv.length ≤ i := List.getElem?_eq_none_iff.mp h
    unfold left
    rw [List.drop_of_length_le (by omega), List.drop_of_length_le hi]
  | some t =>
    have hl := left_of_some h
    omega

def size (x : Input) (a : Args σ) : ℕ :=
  match a.state with
  | .none => left x a.i
  | .flags => left x (a.i + 1) + 1
  | .flagsShort => left x (a.i + 1) + a.s.text.length

/-- In the states of an option there is a name left to read. -/
def Valid (a : Args σ) : Prop := a.state ≠ .none → a.s.text ≠ []

theorem round_smaller {a b : Args σ} (ha : Valid a) (h : round x e a = .loop b) :
    Valid b ∧ size x b < size x a := by
  have hleave : b.state = .none → Valid b ∧ size x b = left x b.i := by
    intro hstate
    constructor
    · exact fun hne => (hne hstate).elim
    · simp only [size, hstate]
  have hnone : a.state = .none → size x a = left x a.i := by
    intro hstate
    simp only [size, hstate]
  have hoption : a.state ≠ .none → left x (a.i + 1) < size x a := by
    intro hstate
    have hpos := List.length_pos_iff.mpr (ha hstate)
    unfold size
    cases hs : a.state with
    | none => exact (hstate hs).elim
    | flags =>
      dsimp only
      omega
    | flagsShort =>
      dsimp only
      omega
  cases round_moves h with
  | descend t d hstate _ ht _ _ hi _ hstate' =>
    obtain ⟨hv, hb⟩ := hleave hstate'
    have ha' := hnone hstate
    have hleft := left_of_some ht
    rw [hi] at hb
    exact ⟨hv, by omega⟩
  | enter t hstate ht _ htext hless _ hi _ hstate' =>
    have ha' := hnone hstate
    have hleft := left_of_some ht
    have hb : size x b ≤ left x (a.i + 1) + t.length := by
      unfold size
      cases hs : b.state with
      | none => exact (hstate' hs).elim
      | flags =>
        dsimp only
        rw [hi]
        omega
      | flagsShort =>
        dsimp only
        rw [hi]
        omega
    exact ⟨fun _ => htext, by omega⟩
  | positional t hstate ht _ _ hi _ hstate' =>
    obtain ⟨hv, hb⟩ := hleave hstate'
    have ha' := hnone hstate
    have hleft := left_of_some ht
    rw [hi] at hb
    exact ⟨hv, by omega⟩
  | member hstate hmore htext _ hi _ hstate' =>
    have hpos := List.length_pos_iff.mpr (ha (by rw [hstate]; decide))
    have hlen : b.s.text.length = a.s.text.length - 1 := by
      rw [htext, List.length_drop]
    have ha' : size x a = left x (a.i + 1) + a.s.text.length := by
      simp only [size, hstate]
    have hb : size x b = left x (a.i + 1) + b.s.text.length := by
      simp only [size, hstate', hi]
    refine ⟨fun _ => ?_, by omega⟩
    apply List.ne_nil_of_length_pos
    omega
  | leave hstate _ hi _ hstate' =>
    obtain ⟨hv, hb⟩ := hleave hstate'
    have ha' := hoption hstate
    have hle : left x (a.i + 2) ≤ left x (a.i + 1) := left_succ_le (a.i + 1)
    refine ⟨hv, ?_⟩
    rcases hi with hi | hi
    · rw [hi] at hb
      omega
    · rw [hi] at hb
      omega

theorem rounds_return {a : Args σ} {n : ℕ} (ha : Valid a) (hn : size x a < n) :
    ∃ r, rounds x e n a = some r := by
  induction n generalizing a with
  | zero => omega
  | succ n ih =>
    unfold rounds
    cases hr : round x e a with
    | ret r => exact ⟨r, rfl⟩
    | loop b =>
      obtain ⟨hv, hlt⟩ := round_smaller ha hr
      exact ih hv (by omega)

theorem Rounds.valid {a b : Args σ} (hab : Rounds x e a b) (ha : Valid a) : Valid b := by
  induction hab with
  | refl => exact ha
  | head h _ ih => exact ih (round_smaller ha h).1

/-! ### The three ways to end -/

/-- The handler of the selected command was called once, if there is one, and
what it returned was stored. -/
structure Handled (x : Input) (e : Env σ) (r : Result σ) : Prop where
  err : r.err = 0
  helps : helps r.world.log = []
  calls : match x.commands.handler r.command with
    | none => calls r.world.log = []
    | some h => ∃ argc argv, calls r.world.log = [.call r.command h argc argv] ∧
        r.handlerResult = e.handler h r.command argc argv r.world.mem

/-- The help was printed and no handler called. -/
structure Helped (r : Result σ) : Prop where
  err : r.err = 0
  helps : helps r.world.log = [.help r.command]
  calls : calls r.world.log = []

/-- An error is returned and no handler was called. -/
structure Failed (r : Result σ) : Prop where
  err : r.err ≠ 0
  calls : calls r.world.log = []

def OneOutcome (x : Input) (e : Env σ) (r : Result σ) : Prop :=
  (Handled x e r ∧ ¬ Helped r ∧ ¬ Failed r) ∨ (¬ Handled x e r ∧ Helped r ∧ ¬ Failed r) ∨
    (¬ Handled x e r ∧ ¬ Helped r ∧ Failed r)

theorem read_silent (x : Input) (e : Env σ) (root : Ptr) (mem : σ) :
    ∃ w', Silent w'.log ∧ (read x e (pushAt x e) x.argv 0 root false ⟨mem, .start, []⟩).Ends w' := by
  obtain ⟨_, w', hw', hends⟩ := read_phases x e (pushAt x e)
    (F := fun _ _ w => Silent w.log) (G := fun _ _ w => Silent w.log)
    (fun _ _ _ _ _ h _ _ _ => h) (fun _ _ _ _ h _ _ => h) (fun _ _ _ h _ => h)
    (fun _ _ _ h => h) (fun _ _ _ _ _ _ h _ => silent_append.mpr ⟨h, rfl, rfl⟩)
    (fun _ _ _ _ _ h => h) x.argv 0 root false ⟨mem, .start, []⟩ rfl ⟨rfl, rfl⟩
  exact ⟨w', hw', hends⟩

theorem handled_call {w : World HandlerArgs σ} (hw : Silent w.log) (c : Ptr) :
    Handled x e (call x e c w) := by
  obtain ⟨hcalls, hhelps⟩ := hw
  have hcommand := call_command (x := x) (e := e) c w
  have hlog := call_log (x := x) (e := e) c w
  cases hh : x.commands.handler c with
  | none =>
    rw [hh] at hlog
    refine ⟨call_err c w, ?_, ?_⟩
    · rw [hlog]
      exact hhelps
    · rw [hcommand, hh]
      show calls (call x e c w).world.log = []
      rw [hlog]
      exact hcalls
  | some h =>
    rw [hh] at hlog
    obtain ⟨hlog, hret⟩ := hlog
    refine ⟨call_err c w, ?_, ?_⟩
    · rw [hlog]
      rw [helps_append, hhelps]
      rfl
    · rw [hcommand, hh]
      refine ⟨w.args.argc, w.args.argv.map Block.cells, ?_, ?_⟩
      · rw [hlog]
        rw [calls_append, hcalls]
        rfl
      · rw [(call_keeps c w).1]
        exact hret

/- A handler was called or not, and the help printed or not: only one of the
three can be. -/
theorem oneOutcome_of {r : Result σ} (h : Handled x e r ∨ Helped r ∨ Failed r) :
    OneOutcome x e r := by
  have hhelped : Helped r → ¬ Handled x e r := by
    intro hp hd
    have hne := hp.helps
    rw [hd.helps] at hne
    cases hne
  rcases h with h | h | h
  · exact Or.inl ⟨h, fun hp => hhelped hp h, fun hf => hf.err h.err⟩
  · exact Or.inr (Or.inl ⟨hhelped h, h, fun hf => hf.err h.err⟩)
  · exact Or.inr (Or.inr ⟨fun hd => h.err hd.err, fun hp => h.err hp.err, h⟩)

theorem oneOutcome_stop {w w' : World HandlerArgs σ} {c : Ptr} {err : ℕ} (hw : Silent w'.log)
    (h : Stopping c err w' w) : OneOutcome x e ⟨err, c, 0, w⟩ := by
  apply oneOutcome_of
  right
  rcases h with ⟨rfl, rfl⟩ | ⟨herr, es, hes, rfl⟩
  · left
    obtain ⟨hcalls, hhelps⟩ := hw
    refine ⟨rfl, ?_, ?_⟩
    · show helps (w'.log ++ [Event.help c]) = [.help c]
      rw [helps_append, hhelps]
      rfl
    · show calls (w'.log ++ [Event.help c]) = []
      rw [calls_append, hcalls]
      rfl
  · right
    exact ⟨herr, (silent_append.mpr ⟨hw, quiet_silent hes⟩).1⟩

/-- The loop ends within a bound given by the arguments, since each round makes
the measure smaller, and it ends in exactly one of the three ways. -/
theorem execute_ends (x : Input) (e : Env σ) (root : Ptr) (mem : σ) :
    (∀ a b, Rounds x e (.start root mem) a → round x e a = .loop b → size x b < size x a) ∧
      ∃ r, (∀ n, left x 0 < n → execute x e root mem n = some r) ∧ OneOutcome x e r := by
  have hvalid : Valid (Args.start root mem) := fun hne => (hne rfl).elim
  constructor
  · intro a b hab hb
    exact (round_smaller (hab.valid hvalid) hb).2
  · obtain ⟨r, hr⟩ := rounds_return (e := e) (n := left x 0 + 1) hvalid (Nat.lt_succ_self _)
    refine ⟨r, fun n hn => rounds_mono hr hn, ?_⟩
    obtain ⟨w', hw', hends⟩ := read_silent x e root mem
    rw [execute_unique hr]
    unfold finish
    unfold Reading.Ends at hends
    split
    · rename_i hstop
      rw [hstop] at hends
      rw [hends]
      exact oneOutcome_of (Or.inl (handled_call hw' _))
    · rename_i err hstop
      rw [hstop] at hends
      exact oneOutcome_stop hw' hends

end

end LibeventHttpServe.Flags
