import LibeventHttpServe.Flags.Page
import LibeventHttpServe.Flags.Release

/-!
# What a run prints (flags.c:2230-2277, 2520-2774)

The texts of the log of `ppp_c_flags_execute`. A `set_flag` prints nothing, and what a
handler prints is its own. A run is followed behind a write outside `handler_argv` as if it
had not happened.
-/

namespace LibeventHttpServe.Flags

open LibeventHttpServe.Lib

/-- A flag as an error names it. -/
def PrintData.option (d : PrintData) (f : Flag) (short : Bool) : Bytes :=
  if short then text "-" ++ [f.shortName] else text "--" ++ d.flagText f.ptr f.toFlagData

def Message.output (d : PrintData) : Message → Bytes
  | .needsArgument f short =>
    text "Error: flag needs an argument: " ++ d.option f short ++ text "\n"
  | .invalidArgument f short s =>
    text "Error: invalid argument for " ++ d.option f short ++ text ": " ++ s ++ text "\n"
  | .invalidHelp short s =>
    text "Error: invalid argument for " ++ (if short then text "-h" else text "--help") ++
      text ": " ++ s ++ text "\n"
  | .unknownFlag s => text "Error: unknown flag: --" ++ s ++ text "\n"
  | .unknownShortFlag c => text "Error: unknown short flag: -" ++ [c.getD 0] ++ text "\n"
  | .mallocArgv s => text "malloc argv fail: " ++ s ++ text "\n"

def Event.output (d : PrintData) (s : Registry) : Event → Checked Bytes
  | .setFlag .. => pure []
  | .call .. => pure []
  | .help c => print d s c
  | .usage c => printUsage d s c
  | .message m => pure (m.output d)

/-- The text that a run with this log prints. -/
def output (d : PrintData) (s : Registry) : List Event → Checked Bytes
  | [] => pure []
  | ev :: log => do
    let out ← ev.output d s
    let rest ← output d s log
    pure (out ++ rest)

/-! ### Reports -/

/-- The message is about the argument of an option. -/
def Message.AboutArgument : Message → Prop
  | .needsArgument .. => True
  | .invalidArgument .. => True
  | .invalidHelp .. => True
  | .unknownFlag _ => False
  | .unknownShortFlag _ => False
  | .mallocArgv _ => False

/-- What the log gets when the loop stops at the command `c` with a code; an unknown long
option is none with `allow_unknow`. -/
inductive Report (allow : Bool) (c : Ptr) : ℕ → List Event → Prop where
  | help : Report allow c 0 [.help c]
  | argument {m : Message} (h : m.AboutArgument) :
      Report allow c errorInvalidArgument [.message m, .usage c]
  | unknown (h : allow = false) (s : Bytes) :
      Report allow c errorUnknowFlag [.message (.unknownFlag s), .usage c]
  | unknownShort (k : Option UInt8) :
      Report allow c errorUnknowShortFlag [.message (.unknownShortFlag k), .usage c]
  | malloc (s : Bytes) : Report allow c errorMallocArgv [.message (.mallocArgv s)]

/-- Nothing but values was given. -/
def OnlySets (log : List Event) : Prop := ∀ ev ∈ log, ∃ f s, ev = .setFlag f s

theorem OnlySets.append {l m : List Event} (hl : OnlySets l) (hm : OnlySets m) :
    OnlySets (l ++ m) := by
  intro ev hev
  rcases List.mem_append.mp hev with hev | hev
  · exact hl ev hev
  · exact hm ev hev

theorem onlySets_nil : OnlySets [] := by
  intro ev hev
  cases hev

section Reports

variable {β σ : Type} {x : Input} {e : Env σ} {push : ℕ → Bytes → β → Bool × β} {c : Ptr}
  {i : ℕ} {w : World β σ}

theorem OnlySets.setFlag (h : OnlySets w.log) (f : Flag) (s : Bytes) (n : ℕ) :
    OnlySets (w.setFlag e f s n).2.log := by
  refine h.append ?_
  intro ev hev
  exact ⟨f.ptr, s, List.mem_singleton.mp hev⟩

/-- The world is the one in which the loop stops with the code. -/
def Reported (allow : Bool) (c : Ptr) (err : ℕ) (w : World β σ) : Prop :=
  ∃ l es, OnlySets l ∧ Report allow c err es ∧ w.log = l ++ es

/-- A step gives values, or it stops with a report. -/
def Step.Reports (allow : Bool) (c : Ptr) : Step β σ → Prop
  | .one _ _ w => OnlySets w.log
  | .two w => OnlySets w.log
  | .stop err w => Reported allow c err w

theorem reports_stop {allow : Bool} {err : ℕ} {es : List Event} (hw : OnlySets w.log)
    (h : Report allow c err es) : (Step.stop err (w.emit es)).Reports allow c :=
  ⟨w.log, es, hw, h, rfl⟩

theorem reports_assign (hw : OnlySets w.log) (f : Flag) (s : Bytes) (short : Bool) :
    (readAssign x e c i f s short w).Reports x.allowUnknow c := by
  have hset := hw.setFlag (e := e) f s (x.argc - i - 1)
  unfold readAssign
  generalize w.setFlag e f s (x.argc - i - 1) = r at hset ⊢
  obtain ⟨bad, u⟩ := r
  cases bad with
  | true => exact reports_stop hset (.argument trivial)
  | false => exact hset

theorem reports_bare (hw : OnlySets w.log) (f : Flag) (short : Bool) (value : Option Bytes) :
    (readBare x e c i f short value w).Reports x.allowUnknow c := by
  unfold readBare
  split
  · exact hw.setFlag f (text "1") (x.argc - (i + 1))
  cases value with
  | none => exact reports_stop hw (.argument trivial)
  | some s =>
    have hset := hw.setFlag (e := e) f s (x.argc - i - 1)
    dsimp only
    generalize w.setFlag e f s (x.argc - i - 1) = r at hset ⊢
    obtain ⟨bad, u⟩ := r
    cases bad with
    | true => exact reports_stop hset (.argument trivial)
    | false => exact hset

theorem reports_positional (hw : OnlySets w.log) (t : Bytes) :
    (readPositional push c i t w).Reports x.allowUnknow c := by
  unfold readPositional
  generalize push i t w.args = r
  obtain ⟨ok, b⟩ := r
  cases ok with
  | true => exact hw
  | false => exact reports_stop (w := { w with args := b }) hw (.malloc t)

theorem reports_long (hw : OnlySets w.log) (t body : Bytes) (value : Option Bytes) :
    (readLong x e push c i t body value w).Reports x.allowUnknow c := by
  unfold readLong
  cases longWord (x.commands.flag c) body with
  | help => exact reports_stop hw .help
  | helpOff => exact hw
  | helpBad v => exact reports_stop hw (.argument trivial)
  | assign f v => exact reports_assign hw f v false
  | bare f => exact reports_bare hw f false value
  | member f =>
    dsimp only
    split
    · exact reports_positional hw t
    · rename_i hallow
      exact reports_stop hw (.unknown (Bool.eq_false_of_not_eq_true hallow) body)
  | unknown =>
    dsimp only
    split
    · exact reports_positional hw t
    · rename_i hallow
      exact reports_stop hw (.unknown (Bool.eq_false_of_not_eq_true hallow) body)

theorem reports_short (t : Bytes) (value : Option Bytes) (body : Bytes) (first : Bool)
    (hw : OnlySets w.log) :
    (readShort x e push c i t value first body w).Reports x.allowUnknow c := by
  induction body generalizing first w with
  | nil => exact reports_stop hw (.unknownShort none)
  | cons k body ih =>
    unfold readShort
    cases shortWord (x.commands.flag c) (k :: body) with
    | help => exact reports_stop hw .help
    | helpOff => exact hw
    | helpBad v => exact reports_stop hw (.argument trivial)
    | assign f v => exact reports_assign hw f v true
    | bare f => exact reports_bare hw f true value
    | member f => exact ih false (hw.setFlag f (text "1") (x.argc - i))
    | unknown =>
      dsimp only
      split
      · exact reports_positional hw t
      · exact reports_stop hw (.unknownShort (some k))

theorem reports_token (hw : OnlySets w.log) (input : Bool) (t : Bytes) (value : Option Bytes) :
    (readToken x e push c i input t value w).Reports x.allowUnknow c := by
  unfold readToken
  cases tokenOf t with
  | long body => exact reports_long hw t body value
  | short body => exact reports_short t value body true hw
  | plain =>
    dsimp only
    split
    · exact hw
    · exact reports_positional hw t

/-- A reading gives values until it is over, or it stops with a report about the command
it is at. -/
def Reading.Reports (allow : Bool) (q : Reading β σ) : Prop :=
  match q.stop with
  | none => OnlySets q.world.log
  | some err => Reported allow q.command err q.world

theorem reports_read (toks : List Bytes) (c : Ptr) (input : Bool) (hw : OnlySets w.log) :
    (read x e push toks i c input w).Reports x.allowUnknow := by
  induction toks using tokens_induction generalizing i c input w with
  | nil => exact hw
  | cons t rest ih ih' =>
    have hstep : (readToken x e push c i input t rest.head? w).Reports x.allowUnknow c :=
      reports_token hw input t rest.head?
    rw [read_cons]
    generalize readToken x e push c i input t rest.head? w = s at hstep ⊢
    cases s with
    | stop err u => exact hstep
    | one c' input' u => exact ih c' input' hstep
    | two u => exact ih' c true hstep

end Reports

/-! ### The output of a run -/

section Output

variable {σ : Type} {d : PrintData} {s : Registry} {v : Forest} {c : Ptr}

theorem output_append {l m : List Event} {a b : Bytes} (hl : output d s l = .ok a)
    (hm : output d s m = .ok b) : output d s (l ++ m) = .ok (a ++ b) := by
  induction l generalizing a with
  | nil =>
    cases hl
    exact hm
  | cons ev l ih =>
    unfold output at hl
    cases hev : ev.output d s with
    | error err =>
      rw [hev] at hl
      cases hl
    | ok out =>
      cases hrest : output d s l with
      | error err =>
        rw [hev, hrest] at hl
        cases hl
      | ok rest =>
        rw [hev, hrest] at hl
        cases hl
        rw [List.cons_append]
        unfold output
        rw [hev, ok_bind, ih hrest, ok_bind, List.append_assoc]
        rfl

theorem output_sets {l : List Event} (h : OnlySets l) : output d s l = .ok [] := by
  induction l with
  | nil => rfl
  | cons ev l ih =>
    obtain ⟨f, t, rfl⟩ := h ev List.mem_cons_self
    unfold output
    rw [ih fun ev hev => h ev (List.mem_cons_of_mem _ hev)]
    rfl

/-- The texts for the codes, about a command with this usage and this help. -/
inductive Prints (d : PrintData) (allow : Bool) (usage help : Bytes) : ℕ → Bytes → Prop where
  | nothing : Prints d allow usage help 0 []
  | help : Prints d allow usage help 0 help
  | argument {m : Message} (h : m.AboutArgument) :
      Prints d allow usage help errorInvalidArgument (m.output d ++ usage)
  | unknown (h : allow = false) (s : Bytes) :
      Prints d allow usage help errorUnknowFlag ((Message.unknownFlag s).output d ++ usage)
  | unknownShort (k : Option UInt8) :
      Prints d allow usage help errorUnknowShortFlag
        ((Message.unknownShortFlag k).output d ++ usage)
  | malloc (s : Bytes) :
      Prints d allow usage help errorMallocArgv ((Message.mallocArgv s).output d)

theorem report_output {allow : Bool} {usage help : Bytes} (husage : printUsage d s c = .ok usage)
    (hhelp : print d s c = .ok help) {err : ℕ} {es : List Event} (h : Report allow c err es) :
    ∃ out, output d s es = .ok out ∧ Prints d allow usage help err out := by
  have hmessage (m : Message) : output d s [.message m, .usage c] = .ok (m.output d ++ usage) := by
    simp only [output, Event.output, husage, pure_eq_ok, ok_bind, List.append_nil]
  cases h with
  | help =>
    refine ⟨help, ?_, .help⟩
    simp only [output, Event.output, hhelp, pure_eq_ok, ok_bind, List.append_nil]
  | argument h => exact ⟨_, hmessage _, .argument h⟩
  | unknown h t => exact ⟨_, hmessage _, .unknown h t⟩
  | unknownShort k => exact ⟨_, hmessage _, .unknownShort k⟩
  | malloc t =>
    refine ⟨(Message.mallocArgv t).output d, ?_, .malloc t⟩
    simp only [output, Event.output, pure_eq_ok, ok_bind, List.append_nil]

theorem calls_sets {l : List Event} (h : OnlySets l) : calls l = [] := by
  refine List.filter_eq_nil_iff.mpr ?_
  intro ev hev
  obtain ⟨f, t, rfl⟩ := h ev hev
  exact Bool.false_ne_true

theorem calls_report {allow : Bool} {err : ℕ} {es : List Event} (h : Report allow c err es) :
    calls es = [] := by
  cases h <;> rfl

/-- What the loop prints after the last token. -/
theorem finish_output {x : Input} {e : Env σ} {r : Reading HandlerArgs σ} {usage help : Bytes}
    (husage : printUsage d s r.command = .ok usage) (hhelp : print d s r.command = .ok help)
    (hr : r.Reports x.allowUnknow) :
    ∃ out, output d s (finish x e r).world.log = .ok out ∧
      Prints d x.allowUnknow usage help (finish x e r).err out ∧
      (calls (finish x e r).world.log ≠ [] → out = []) := by
  unfold Reading.Reports at hr
  unfold finish
  cases hstop : r.stop with
  | none =>
    rw [hstop] at hr
    have hsets := output_sets (d := d) (s := s) hr
    have hlog := call_log (x := x) (e := e) r.command r.world
    refine ⟨[], ?_, ?_, fun _ => rfl⟩
    · dsimp only
      cases hh : x.commands.handler r.command with
      | none =>
        rw [hh] at hlog
        rw [hlog]
        exact hsets
      | some h =>
        rw [hh] at hlog
        rw [hlog.1]
        exact output_append hsets rfl
    · dsimp only
      rw [call_err]
      exact .nothing
  | some err =>
    rw [hstop] at hr
    obtain ⟨l, es, hl, hes, hlog⟩ := hr
    obtain ⟨out, hout, hprints⟩ := report_output husage hhelp hes
    refine ⟨out, ?_, hprints, ?_⟩
    · dsimp only
      rw [hlog]
      exact output_append (output_sets hl) hout
    · intro hne
      dsimp only at hne
      rw [hlog, calls_append, calls_sets hl, calls_report hes] at hne
      exact (hne rfl).elim

theorem path_live {p : Ptr} {ts : List Bytes} (h : Path v p ts c) {y : CommandView}
    (hy : v.command p = some y) : ∃ z, v.command c = some z := by
  induction h generalizing y with
  | nil p => exact ⟨y, hy⟩
  | cons hchild _ ih =>
    obtain ⟨x, z, -, -, hz, -⟩ := hchild
    exact ih hz

/-- What `ppp_c_flags_print` writes for a command. -/
def Forest.help (v : Forest) (d : PrintData) (path : List Bytes) (c : Ptr) : Bytes :=
  (((v.command c).bind fun y => y.describe).elim [] fun t => t ++ text "\n" ++ text "\n") ++
    (v.page d path c).render

theorem print_help {path : List Bytes} (hst : Stores s v) {y : CommandView}
    (hy : v.command c = some y) (h : printUsage d s c = .ok (v.page d path c).render) :
    print d s c = .ok (v.help d path c) := by
  obtain ⟨n, hn, hdata, -⟩ := hst.live hy
  have hdescribe : n.describe = y.describe := by rw [hdata]
  unfold print Forest.help
  rw [hn, h, hy]
  simp only [loaded, ok_bind, hdescribe, Option.bind_some]
  cases y.describe <;> rfl

/-- What is printed when the reading is over at a live command. -/
theorem reading_output (hs : textSystem.Reachable s) (hst : Stores s v) (hv : WellFormed v)
    (hd : Terminated d v) (x : Input) (e : Env σ) {q : Reading HandlerArgs σ} {z : CommandView}
    (hz : v.command q.command = some z) (hq : q.Reports x.allowUnknow) :
    ∃ p y ts out, v.command p = some y ∧ y.parent = none ∧ Path v p ts q.command ∧
      output d s (finish x e q).world.log = .ok out ∧
      Prints d x.allowUnknow (v.page d (y.name :: ts) q.command).render
        (v.help d (y.name :: ts) q.command) (finish x e q).err out ∧
      (calls (finish x e q).world.log ≠ [] → out = []) := by
  obtain ⟨p, y, ts, hy, hroot, hpath⟩ := path_exists hv hz
  have husage := printUsage_page hst hv (printable_of_text hs hst hd) hy hroot hpath hz
  have hhelp := print_help hst hz husage
  obtain ⟨out, hout, hprints, hcalls⟩ := finish_output (x := x) (e := e) husage hhelp hq
  exact ⟨p, y, ts, out, hy, hroot, hpath, hout, hprints, hcalls⟩

/-- Whatever the arguments are, a run selects the command that the longest run of names
leads to, and it prints nothing, the help of that command, or one line that goes with the
code it returns, with the usage of that command behind unless there was no memory; it
prints nothing when a handler was called, and with `allow_unknow` no long option is an
error. With at most 32 positional arguments nothing goes outside `handler_argv`. -/
theorem console (hs : textSystem.Reachable s) (hst : Stores s v) (hd : Terminated d v)
    {x : Input} (hx : x.commands = v.commands) (e : Env σ) (mem : σ) {root : Ptr}
    {y : CommandView} (hy : v.command root = some y) :
    ∃ n r k p z ts out, execute x e root mem n = some r ∧ LongestRun v root x.argv k r.command ∧
      v.command p = some z ∧ z.parent = none ∧ Path v p ts r.command ∧
      output d s r.world.log = .ok out ∧
      Prints d x.allowUnknow (v.page d (z.name :: ts) r.command).render
        (v.help d (z.name :: ts) r.command) r.err out ∧
      (calls r.world.log ≠ [] → out = []) ∧
      ((readList x e root mem).world.args.length ≤ 32 → r.world.args.oob = false) := by
  obtain ⟨w, hw, hv⟩ := forest_reachable (System.reachable_of_restrict hs)
  obtain rfl := hst.unique hw
  obtain ⟨n, hn⟩ := execute_read x e root mem
  have hstart : OnlySets (World.log (⟨mem, .start, []⟩ : World HandlerArgs σ)) := onlySets_nil
  have hreports : (read x e (pushAt x e) x.argv 0 root false ⟨mem, .start, []⟩).Reports
      x.allowUnknow := reports_read x.argv root false hstart
  -- the command that is selected is live
  obtain ⟨k, c, hrun⟩ := longestRun_exists v root x.argv
  obtain ⟨u, ⟨hc, -⟩, -⟩ := read_scope hv hx hrun mem
  obtain ⟨z, hz⟩ := path_live hrun.path hy
  rw [← hc] at hz hrun
  obtain ⟨p, z, ts, out, hp, hroot, hpath, hout, hprints, hcalls⟩ :=
    reading_output hs hst hv hd x e hz hreports
  refine ⟨n, _, k, p, z, ts, out, hn, ?_⟩
  rw [finish_command]
  exact ⟨hrun, hp, hroot, hpath, hout, hprints, hcalls, fun hl => execute_inside hl hn⟩

end Output

theorem console_get : ∃ s v, textSystem.exec twoCommands ⟨∅, ∅⟩ = some s ∧ Stores s v ∧
    ∃ n r k p z ts out,
      execute ⟨v.commands, [text "get", text "--x"], false⟩ acceptAll 1 () n = some r ∧
      LongestRun v 1 [text "get", text "--x"] k r.command ∧
      v.command p = some z ∧ z.parent = none ∧ Path v p ts r.command ∧
      output noDefaults s r.world.log = .ok out ∧
      Prints noDefaults false (v.page noDefaults (z.name :: ts) r.command).render
        (v.help noDefaults (z.name :: ts) r.command) r.err out := by
  have hobs : (textSystem.exec twoCommands ⟨∅, ∅⟩).map
      (fun s => (s.commands.lookup 1).isSome) = some true := by
    decide
  obtain ⟨s, hs, hlive⟩ := Option.map_eq_some_iff.mp hobs
  have hreach : textSystem.Reachable s := System.reachable_exec (.init rfl) hs
  obtain ⟨v, hst, -⟩ := forest_reachable (System.reachable_of_restrict hreach)
  obtain ⟨n, hn⟩ := Option.isSome_iff_exists.mp hlive
  obtain ⟨y, hy, -⟩ := hst.view hn
  obtain ⟨n, r, k, p, z, ts, out, hr, hrun, hp, hroot, hpath, hout, hprints, -⟩ :=
    console hreach hst (noDefaults_terminated v)
      (x := ⟨v.commands, [text "get", text "--x"], false⟩) rfl acceptAll () hy
  exact ⟨s, v, hs, hst, n, r, k, p, z, ts, out, hr, hrun, hp, hroot, hpath, hout, hprints⟩

end LibeventHttpServe.Flags
