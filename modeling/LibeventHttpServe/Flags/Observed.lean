import LibeventHttpServe.Flags.Memory
import LibeventHttpServe.Flags.Positionals
import LibeventHttpServe.Flags.Termination

/-!
# What a run shows (flags.c:2733-2774)

The error code, the values of the flags, the positional arguments, the handler that is
called and the help. A run in which there is memory for everything shows what the reading
of its arguments with values alone shows.
-/

namespace LibeventHttpServe.Flags

open LibeventHttpServe.Lib (System)

structure Observed where
  err : ℕ
  values : Values
  /- what `ppp_c_flags_push_args` was called with -/
  positionals : List Bytes
  /- the handler, its command and `argc` -/
  called : List (Ptr × Fn × ℕ)
  help : List Event

def Event.called : Event → Option (Ptr × Fn × ℕ)
  | .call c h argc _ => some (c, h, argc)
  | _ => none

def observed (x : Input) (e : Env FlagMemory) (root : Ptr) (m : FlagMemory)
    (r : Result FlagMemory) : Observed where
  err := r.err
  values := r.world.mem.values
  positionals := (readList x e root m).world.args.map Prod.snd
  called := r.world.log.filterMap Event.called
  help := helps r.world.log

/-! ### Readings with values -/

/-- The tokens are read from the command `p` on. -/
def Callbacks.reading (k : Callbacks) (c : Commands) (allowUnknow : Bool) (toks : List Bytes)
    (p : Ptr) (input : Bool) (w : World (List Bytes) Values) : Reading (List Bytes) Values :=
  read ⟨c, [], allowUnknow⟩ k.valueEnv pushText toks 0 p input w

/-- What a run that ends as `q` shows. -/
def Reading.observed (q : Reading (List Bytes) Values) (c : Commands) : Observed where
  err := q.stop.getD 0
  values := q.world.mem
  positionals := q.world.args
  called := if q.stop = none then
      (c.handler q.command).toList.map fun h => (q.command, h, q.world.args.length)
    else []
  help := helps q.world.log

section Reading

variable {k : Callbacks} {c : Commands} {allowUnknow : Bool} {p : Ptr} {input : Bool}
  {w : World (List Bytes) Values}

theorem reading_cons (t : Bytes) (rest : List Bytes) :
    k.reading c allowUnknow (t :: rest) p input w =
      match readToken ⟨c, [], allowUnknow⟩ k.valueEnv pushText p 0 input t rest.head? w with
      | .stop err w => ⟨some err, p, w⟩
      | .one p input w => k.reading c allowUnknow rest p input w
      | .two w => k.reading c allowUnknow rest.tail p true w := by
  unfold Callbacks.reading
  rw [read_cons]
  cases readToken ⟨c, [], allowUnknow⟩ k.valueEnv pushText p 0 input t rest.head? w with
  | stop err w => rfl
  | one p input w => exact read_shift rfl rfl rest 1 0 p input w
  | two w => exact read_shift rfl rfl rest.tail 2 0 p true w

theorem reading_passes {pre : List Bytes} {b : Ptr} {last : Bool}
    {u : World (List Bytes) Values}
    (h : Passes ⟨c, [], allowUnknow⟩ k.valueEnv pushText pre 0 p input w b last u)
    (rest : List Bytes) :
    k.reading c allowUnknow (pre ++ rest) p input w = k.reading c allowUnknow rest b last u := by
  unfold Callbacks.reading
  rw [read_passes h rest]
  exact read_shift rfl rfl rest _ 0 b last u

end Reading

/-! ### Runs -/

section Runs

variable {σ : Type} {x : Input} {e : Env σ} {k : Callbacks} {v : Forest} {root : Ptr}
  {m : FlagMemory}

theorem called_nil {log : List Event} (h : calls log = []) : log.filterMap Event.called = [] := by
  rw [List.filterMap_eq_nil_iff]
  intro ev hev
  cases ev with
  | call c g argc argv => exact (call_notMem h c g argc argv hev).elim
  | setFlag f s => rfl
  | help c => rfl
  | usage c => rfl
  | message m => rfl

theorem ends_calls {β : Type} {r : Reading β σ} {w : World β σ} (hw : calls w.log = [])
    (h : r.Ends w) : calls r.world.log = [] := by
  unfold Reading.Ends at h
  cases hstop : r.stop with
  | none =>
    rw [hstop] at h
    rw [h]
    exact hw
  | some err =>
    rw [hstop] at h
    rcases h with ⟨-, hr⟩ | ⟨-, es, hes, hr⟩
    · rw [hr]
      show calls (w.log ++ _) = []
      rw [calls_append, hw]
      rfl
    · rw [hr]
      show calls (w.log ++ _) = []
      rw [calls_append, hw, (quiet_silent hes).1]
      rfl

/-- How the loop ends, in what it shows. -/
theorem finish_observed {q : Reading (List Bytes) Values} {r : Reading HandlerArgs FlagMemory}
    {e : Env FlagMemory} (hcalls : calls r.world.log = []) (hstop : r.stop = q.stop)
    (hcommand : r.command = q.command) (hvalues : r.world.mem.values = q.world.mem)
    (hargc : r.world.args.argc = q.world.args.length) (hlog : r.world.log = q.world.log) :
    (finish x e r).err = q.stop.getD 0 ∧ (finish x e r).world.mem.values = q.world.mem ∧
      (finish x e r).world.log.filterMap Event.called =
        (if q.stop = none then
          (x.commands.handler q.command).toList.map fun h => (q.command, h, q.world.args.length)
        else []) ∧
      helps (finish x e r).world.log = helps q.world.log := by
  have hnil := called_nil hcalls
  unfold finish
  rw [hstop]
  cases hq : q.stop with
  | some err => exact ⟨rfl, hvalues, hnil, by rw [hlog]⟩
  | none =>
    have hcall := call_log (x := x) (e := e) r.command r.world
    refine ⟨call_err _ _, ?_, ?_⟩
    · rw [← hvalues]
      exact congrArg FlagMemory.values (call_keeps _ _).1
    · rw [hcommand] at hcall ⊢
      dsimp only
      cases hh : x.commands.handler q.command with
      | none =>
        rw [hh] at hcall
        rw [show (call x e q.command r.world).world.log = r.world.log from hcall, hnil, hlog]
        exact ⟨rfl, rfl⟩
      | some h =>
        rw [hh] at hcall
        rw [hcall.1, List.filterMap_append, hnil, helps_append, hargc, hlog]
        exact ⟨rfl, List.append_nil _⟩

/-- A run with memory for everything shows what its values show. -/
theorem execute_observed (hx : x.commands = v.commands) (hready : Ready v m)
    (hargv : ∀ n size, k.argv n size = true) {n : ℕ} {r : Result FlagMemory}
    (h : execute x k.env root m n = some r) (hok : r.world.mem.refused = false) :
    observed x k.env root m r =
      (k.reading x.commands x.allowUnknow x.argv root false ⟨m.values, [], []⟩).observed
        x.commands := by
  have hread := read_buffer (x := x) (e := k.env) hargv root m
  obtain ⟨w, hw, hends⟩ := read_silent x k.env root m
  have hcalls := ends_calls hw.1 hends
  have hr := execute_unique h
  rw [hread] at hcalls hr hends
  have htracks := @tracks_values _ k v x ⟨x.commands, [], x.allowUnknow⟩ pushList
    (fun l ts => l.map Prod.snd = ts) hx rfl rfl (by
      rintro i t l _ rfl
      exact ⟨rfl, by simp [pushList]⟩)
  have hstart : Shows v (fun l ts => l.map Prod.snd = ts)
      (⟨m, [], []⟩ : World (List (ℕ × Bytes)) FlagMemory) ⟨m.values, [], []⟩ :=
    ⟨hready, rfl, rfl, rfl⟩
  have htracks := htracks.reading x.argv (i := 0) (j := 0) trivial root false hstart
  -- no value was refused
  have hlost : ¬ (read x k.env pushList x.argv 0 root false ⟨m, [], []⟩).world.mem.refused =
      true := by
    have hmem : r.world.mem = (readList x k.env root m).world.mem := by
      rw [hr, finish_world_mem]
      rfl
    rw [hmem] at hok
    exact Bool.eq_false_iff.mp hok
  obtain ⟨hstop, hcommand, hshows⟩ := htracks.resolve_left hlost
  obtain ⟨herr, hvalues, hcalled, hhelp⟩ := finish_observed (x := x) (e := k.env) hcalls hstop
    hcommand hshows.values
    ((buffer_argc hargv _).trans (by rw [← hshows.args, List.length_map]; rfl)) hshows.log
  rw [← hr] at herr hvalues hcalled hhelp
  simp only [observed, Reading.observed, herr, hvalues, hcalled, hhelp]
  exact congrArg (fun l => Observed.mk _ _ l _ _) hshows.args

/-- When the arrays of all flags are in buffers, no run has an access at the null pointer. -/
theorem execute_backed (hx : x.commands = v.commands) (hready : Ready v m) (hback : Backed v m)
    {n : ℕ} {r : Result FlagMemory} (h : execute x k.env root m n = some r) :
    r.world.mem.nullAccess = m.nullAccess := by
  obtain ⟨j, w, ⟨-, -, hw⟩, hends⟩ := read_phases x k.env (pushAt x k.env)
    (F := fun _ _ w => Ready v w.mem ∧ Backed v w.mem ∧ w.mem.nullAccess = m.nullAccess)
    (G := fun _ _ w => Ready v w.mem ∧ Backed v w.mem ∧ w.mem.nullAccess = m.nullAccess)
    (fun _ _ _ _ _ h _ _ _ => h) (fun _ _ _ _ h _ _ => h) (fun _ _ _ h _ => h)
    (fun _ _ _ h => h)
    (by
      rintro i c w f s l ⟨hr, hb, hnull⟩ hf
      rw [hx] at hf
      obtain ⟨hb', hnull'⟩ := backed_set (k := k) (s := s) (n := l) hr hb hf
      exact ⟨ready_set hr hf, hb', hnull'.trans hnull⟩)
    (fun _ _ _ _ _ h => h) x.argv 0 root false ⟨m, .start, []⟩ rfl ⟨hready, hback, rfl⟩
  rw [execute_unique h, finish_mem hends]
  exact hw

/-- In a run with memory for everything, the tokens that lead to a token position lead to
it with values alone. -/
theorem position_values (hx : x.commands = v.commands) (hready : Ready v m)
    (hargv : ∀ n size, k.argv n size = true) {pre rest : List Bytes} {a : Args FlagMemory}
    (hpos : Reaches x k.env root m pre.length a) (htoks : x.argv = pre ++ rest) {n : ℕ}
    {r : Result FlagMemory} (h : execute x k.env root m n = some r)
    (hok : r.world.mem.refused = false) :
    ∃ u, Passes ⟨x.commands, [], x.allowUnknow⟩ k.valueEnv pushText pre 0 root false
      ⟨m.values, [], []⟩ a.command a.input u := by
  have hp := hpos.passes htoks
  have htracks := @tracks_values _ k v x ⟨x.commands, [], x.allowUnknow⟩ (pushAt x k.env)
    (fun _ _ => True) hx rfl rfl fun i t b l _ => ⟨pushArg_fst hargv, trivial⟩
  have hstart : Shows v (fun _ _ => True) ⟨m, HandlerArgs.start, []⟩ ⟨m.values, [], []⟩ :=
    ⟨hready, rfl, rfl, trivial⟩
  rcases htracks.passes hp (j := 0) hstart trivial with hlost | ⟨u, hu, -⟩
  · have hread := htracks.lost_reading rest (0 + pre.length) a.command a.input hlost
    rw [← read_passes hp rest, ← htoks] at hread
    rw [execute_unique h, finish_world_mem] at hok
    rw [hread] at hok
    cases hok
  · exact ⟨u, hu⟩

end Runs

/-! ### Replacing the end of an argument list -/

/-- Both runs end, and when there was memory for every value they show the same. A run is
followed behind an access outside `handler_argv` (`oob`, only with more than 32 positional
arguments) and behind one at the null pointer (`nullAccess`, only with an array that has no
buffer) as if they had not happened. -/
def SameRuns (k : Callbacks) (x y : Input) (root : Ptr) (m : FlagMemory) : Prop :=
  ∃ r r', (∃ n, execute x k.env root m n = some r) ∧ (∃ n, execute y k.env root m n = some r') ∧
    (r.world.mem.refused = false → r'.world.mem.refused = false →
      observed x k.env root m r = observed y k.env root m r')

/-- From a token position on, tokens that show the same with values make the same runs. -/
theorem sameRuns_of_reading {v : Forest} {k : Callbacks} {m : FlagMemory} {root : Ptr}
    {allowUnknow : Bool} {pre rest rest' : List Bytes} {a : Args FlagMemory} (hready : Ready v m)
    (hargv : ∀ n size, k.argv n size = true)
    (hpos : Reaches ⟨v.commands, pre ++ rest, allowUnknow⟩ k.env root m pre.length a)
    (hsame : ∀ u, (k.reading v.commands allowUnknow rest a.command a.input u).observed v.commands =
      (k.reading v.commands allowUnknow rest' a.command a.input u).observed v.commands) :
    SameRuns k ⟨v.commands, pre ++ rest, allowUnknow⟩ ⟨v.commands, pre ++ rest', allowUnknow⟩
      root m := by
  obtain ⟨n, hn⟩ := execute_read ⟨v.commands, pre ++ rest, allowUnknow⟩ k.env root m
  obtain ⟨n', hn'⟩ := execute_read ⟨v.commands, pre ++ rest', allowUnknow⟩ k.env root m
  refine ⟨_, _, ⟨n, hn⟩, ⟨n', hn'⟩, ?_⟩
  intro hok hok'
  obtain ⟨u, hu⟩ := position_values rfl hready hargv hpos rfl hn hok
  rw [execute_observed rfl hready hargv hn hok, execute_observed rfl hready hargv hn' hok',
    reading_passes hu rest, reading_passes hu rest']
  exact hsame u

end LibeventHttpServe.Flags
