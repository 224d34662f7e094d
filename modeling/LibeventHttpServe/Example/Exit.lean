import LibeventHttpServe.Example.Configuration
import LibeventHttpServe.Flags.BaseName
import LibeventHttpServe.Flags.Console
import LibeventHttpServe.Flags.Destroy
import LibeventHttpServe.Flags.Observed
import LibeventHttpServe.Flags.Release

/-!
# All of main (example.c:98-170)

`main` from the name of the program to its exit code, with the two ways to give up while
the command is built and the tear-down behind the label `FAIL`. `root_handler` may never
return, and need not be called: `main` is cut at the call. A write outside `handler_argv`
is undefined behaviour, and no run is followed behind it.
-/

namespace LibeventHttpServe.Example

open LibeventHttpServe.Lib LibeventHttpServe.Flags LibeventHttpServe.Shared

/-! ### The functions of the source -/

/-- The commands as `ppp_c_flags_execute` walks them. -/
def lists (s : Registry) : Commands where
  child c := ((s.commands.lookup c).bind fun n =>
    Chain.cells CommandNode.next s.commands s.commands.keys.length n.child).elim [] fun l =>
      l.map fun e => (e.1, e.2.name)
  flag c := ((s.commands.lookup c).bind fun n =>
    Chain.cells FlagNode.next s.flags s.flags.keys.length n.flag).elim [] fun l =>
      l.map fun e => ⟨e.2.toFlagData, e.1⟩
  handler c := (s.commands.lookup c).bind fun n => n.handler

/-- What `main` runs on. -/
structure Host where
  inetPton : InetPton
  /- the answers of `malloc` to the calls that build the command -/
  nodes : ℕ → Option Ptr
  /- and to those of `ppp_c_flags_push_args` -/
  argv : ℕ → ℕ → Bool

/-- The result of `root_handler` is not known when it is called: 0 stands for it. -/
def Host.env (h : Host) : Env RootFlags :=
  mainEnv h.inetPton h.argv fun _ _ _ _ _ => 0

/-- What is left when `main` returns. -/
structure Exit where
  code : ℤ
  /- what `main` and `ppp_c_flags_execute` print -/
  output : Checked Bytes
  log : List Event
  flags : RootFlags
  /- the nodes that were built, and what was freed of them -/
  registry : Registry
  freed : List Freed

/-- How far `main` gets without the body of `root_handler`. -/
inductive Reached where
  /- a write or a copy went outside `handler_argv` -/
  | overrun
  | exits (e : Exit)
  /- `root_handler` is called on the values `m`; `rest` is the exit behind its result -/
  | calls (cmd : Ptr) (argc : ℕ) (argv : Option (List (Option Bytes))) (m : RootFlags)
    (rest : ℤ → Exit)

/-- `main` behind `ppp_c_flags_execute`. -/
def exitOf (d : PrintData) (s : Registry) (freed : List Freed) (r : Result RootFlags) : Exit where
  code := if r.handlerResult ≠ 0 ∧ r.err = 0 then r.handlerResult else r.err
  output := output d s r.world.log
  log := r.world.log
  flags := r.world.mem
  registry := s
  freed := freed

/-- The run of the arguments, cut at the call of `root_handler`. -/
def reached (d : PrintData) (s : Registry) (freed : List Freed) (r : Result RootFlags) :
    Reached :=
  if r.world.args.oob then .overrun
  else
    match r.world.log.find? Event.isCall with
    | some (.call cmd _ argc argv) =>
      .calls cmd argc argv r.world.mem fun ret => exitOf d s freed { r with handlerResult := ret }
    | _ => .exits (exitOf d s freed r)

/-- `main`, with a bound for the rounds of `ppp_c_flags_execute`. -/
def main (h : Host) (d : PrintData) (argv0 : Bytes) (args : List Bytes) (fuel : ℕ) :
    Option Reached := do
  match ← start (baseName argv0).text h.nodes with
  | .noCommand err => some (.exits ⟨-1, .ok (createFails err), [], rootFlags, ⟨∅, ∅⟩, []⟩)
  | .fail cmd err line s =>
    let t ← commandDestroy cmd { noArrays with registry := s }
    some (.exits ⟨err, .ok line, [], rootFlags, s, t.freed⟩)
  | .parse cmd s =>
    let r ← execute ⟨lists s, args, true⟩ h.env cmd rootFlags fuel
    let t ← commandDestroy cmd { noArrays with registry := s }
    some (reached d s t.freed r)

/-- `main` can return `e`: before `root_handler`, or behind it with some result. -/
def Reached.Returns (e : Exit) : Reached → Prop
  | .overrun => False
  | .exits e' => e = e'
  | .calls _ _ _ _ rest => ∃ ret, e = rest ret

/-- More than 32 of the arguments are positional. -/
def Crowded (h : Host) (argv0 : Bytes) (args : List Bytes) : Prop :=
  ∃ cmd s, start (baseName argv0).text h.nodes = some (.parse cmd s) ∧
    32 < (readList ⟨lists s, args, true⟩ h.env cmd rootFlags).world.args.length

/-! ### The tree that is built -/

section Lists

variable {s : Registry} {v : Forest}

theorem lists_child (hs : Stores s v) (c : Ptr) : (lists s).child c = v.commands.child c := by
  unfold lists Forest.commands
  dsimp only
  cases hn : s.commands.lookup c with
  | none =>
    rw [(hs.fresh (AList.lookup_eq_none.mp hn)).1]
    rfl
  | some n =>
    obtain ⟨x, hx, -⟩ := hs.view hn
    obtain ⟨l, hseg, hkeys⟩ := hs.children c n x hn hx
    rw [hx, Option.bind_some, Chain.cells_of_segment _ hseg (Chain.segment_length_le hseg),
      Option.elim_some, Option.elim_some, ← hkeys]
    symm
    apply filterMap_cells
    intro e he
    obtain ⟨z, hz, hdata, -⟩ := hs.view (Chain.segment_lookup hseg e he)
    rw [hz, hdata]
    rfl

theorem lists_flag (hs : Stores s v) (c : Ptr) : (lists s).flag c = v.commands.flag c := by
  unfold lists
  dsimp only
  cases hn : s.commands.lookup c with
  | none =>
    unfold Forest.commands
    dsimp only
    rw [(hs.fresh (AList.lookup_eq_none.mp hn)).1]
    rfl
  | some n =>
    obtain ⟨x, hx, -⟩ := hs.view hn
    obtain ⟨l, hcells, -, hflags⟩ := flags_cells hs hn hx
    rw [Option.bind_some, hcells, Option.elim_some]
    exact hflags

theorem lists_handler (hs : Stores s v) (c : Ptr) :
    (lists s).handler c = v.commands.handler c := by
  unfold lists Forest.commands
  dsimp only
  cases hn : s.commands.lookup c with
  | none =>
    rw [(hs.fresh (AList.lookup_eq_none.mp hn)).1]
    rfl
  | some n =>
    obtain ⟨x, hx, hdata, -⟩ := hs.view hn
    rw [hx, Option.bind_some, Option.bind_some, hdata]

/-- The lists that are walked are those of the forest. -/
theorem lists_stores (hs : Stores s v) : lists s = v.commands := by
  calc lists s = ⟨(lists s).child, (lists s).flag, (lists s).handler⟩ := rfl
    _ = v.commands := by
      rw [funext (lists_child hs), funext (lists_flag hs), funext (lists_handler hs)]

end Lists

/-! ### The tear-down -/

/-- The types of the fields of `root_flags_t`. -/
def fieldType (a : Ptr) : FlagType :=
  if a = syncAt then ⟨.bool, false⟩ else if a = addrAt then ⟨.string, false⟩ else ⟨.uint8, false⟩

theorem fieldType_scalar (a : Ptr) (e : ElemType) : fieldType a ≠ ⟨e, true⟩ := by
  unfold fieldType
  split
  · nofun
  split <;> nofun

section Destroy

variable {cmd : Ptr} {name : Bytes} {l : List Flag} {s : Registry} {v : Forest}

theorem mainData_typed :
    ∀ g ∈ mainData, g.handler = g.type ∧ g.type = fieldType g.value := by
  decide

theorem Made.treeInv (h : Made cmd name l s v) (hl : ∀ g ∈ l, g.toFlagData ∈ mainData) :
    TreeInv fieldType { noArrays with registry := s } v where
  stores := h.stores
  wellFormed := h.wellFormed
  rootNext := h.rootNext
  typed f g hg := mainData_typed g (hl ⟨g, f⟩ ((h.flag ⟨g, f⟩).mp hg))
  buffers := by
    refine ⟨?_, ?_, ?_⟩
    · exact fun a e he => (fieldType_scalar a e he).elim
    · exact fun a e he => (fieldType_scalar a e he).elim
    · exact fun a e b d p he => (fieldType_scalar a e he).elim
  unset _ _ _ _ _ _ := rfl
  unused _ _ := rfl
  freed := rfl

/- The tree of the command is all there is. -/
theorem Made.inTree (h : Made cmd name l s v) {x : Node} : InTree s cmd x ↔ LiveNode s x := by
  obtain ⟨n, hn, -⟩ := h.stores.live h.root
  have hcmd : cmd ∈ s.commands := AList.lookup_isSome.mp (by rw [hn]; rfl)
  constructor
  · exact fun hx => hx.live hcmd
  · intro hx
    cases x with
    | command c =>
      obtain ⟨m, hm⟩ := Option.isSome_iff_exists.mp (AList.lookup_isSome.mpr hx)
      obtain ⟨y, hy, -⟩ := h.stores.view hm
      rw [h.only hy]
      exact Relation.ReflTransGen.refl
    | flag f =>
      have hf : f ∈ l.map Flag.ptr := by
        by_contra hno
        exact h.free.mpr hno hx
      exact ⟨cmd, n, _, .refl, hn, h.stores.flags cmd n _ hn h.root, hf⟩

/-- Each node of the registry is freed once, and nothing else. -/
structure TornDown (s : Registry) (freed : List Freed) : Prop where
  once : freed.Nodup
  nodes : ∀ x, .node x ∈ freed ↔ LiveNode s x
  buffers : ∀ p, .buffer p ∉ freed

theorem Made.destroy (h : Made cmd name l s v) (hl : ∀ g ∈ l, g.toFlagData ∈ mainData) :
    ∃ t, commandDestroy cmd { noArrays with registry := s } = some t ∧ TornDown s t.freed := by
  obtain ⟨n, hn, -, hparent⟩ := h.stores.live h.root
  obtain ⟨t, xs, log, hrun, hfrees, hmem⟩ := commandDestroy_spec (h.treeInv hl) hn hparent
  have hfreed : t.freed = log := by
    rw [hfrees.freed]
    exact List.nil_append _
  refine ⟨t, hrun, ?_, fun x => ?_, fun p => ?_⟩
  · rw [hfreed]
    exact hfrees.nodup
  · rw [hfreed, hfrees.node, hmem]
    exact h.inTree
  · rw [hfreed, hfrees.buffer]
    intro hbuffer
    obtain ⟨a, e, -, hcap, -⟩ := hbuffer
    exact hcap rfl

end Destroy

/-! ### The page of the command -/

def mainPage (d : PrintData) (name : Bytes) (l : List Flag) : UsagePage where
  path := [name]
  own := name
  commands := []
  flags := l.map fun g => flagRow (d.defaultText g) g.toFlagData

def mainHelp (d : PrintData) (name : Bytes) (l : List Flag) : Bytes :=
  text "libevent_http_serve example" ++ text "\n" ++ text "\n" ++ (mainPage d name l).render

section Page

variable {cmd : Ptr} {name : Bytes} {l : List Flag} {s : Registry} {v : Forest} {d : PrintData}

theorem mainData_text : ∀ g ∈ mainData, 0 ∉ g.name ∧ g.name.length < 2147483000 := by
  decide

theorem mainData_scalar : ∀ g ∈ mainData, g.handler.array = false := by
  decide

theorem Made.printable (h : Made cmd name l s v) (hl : ∀ g ∈ l, g.toFlagData ∈ mainData)
    (hname : TextName name) (hcommand : ∀ c, (d.behindCommand c).head? = some 0)
    (hflag : ∀ f, (d.behindFlag f).head? = some 0) : Printable d v where
  command := by
    intro c y hy
    obtain rfl := h.only hy
    rw [h.root, Option.some.injEq] at hy
    subst hy
    exact ⟨hname.1, hcommand c, hname.2⟩
  flag := by
    intro f g hg
    obtain ⟨hzero, hlen⟩ := mainData_text g (hl ⟨g, f⟩ ((h.flag ⟨g, f⟩).mp hg))
    exact ⟨hzero, hflag f, hlen⟩
  default := by
    intro f g hg
    have harray := mainData_scalar g (hl ⟨g, f⟩ ((h.flag ⟨g, f⟩).mp hg))
    generalize g.handler = t at harray ⊢
    obtain ⟨e, array⟩ := t
    dsimp only at harray
    subst harray
    trivial

theorem Made.page (h : Made cmd name l s v) : v.page d [name] cmd = mainPage d name l := by
  unfold Forest.page mainPage
  rw [h.toRoot.flags, h.root]
  rfl

/-- What the usage and the help of `main` are. -/
theorem Made.prints (h : Made cmd name l s v) (hl : ∀ g ∈ l, g.toFlagData ∈ mainData)
    (hname : TextName name) (hcommand : ∀ c, (d.behindCommand c).head? = some 0)
    (hflag : ∀ f, (d.behindFlag f).head? = some 0) :
    printUsage d s cmd = .ok (mainPage d name l).render ∧
      print d s cmd = .ok (mainHelp d name l) := by
  have husage := printUsage_page h.stores h.wellFormed (h.printable hl hname hcommand hflag)
    h.root rfl (.nil cmd) h.root
  have hhelp := print_help h.stores h.root husage
  rw [h.page] at husage
  refine ⟨husage, hhelp.trans ?_⟩
  rw [Forest.help, h.page, h.root]
  rfl

end Page

/-! ### The ends of main -/

section Ends

variable {h : Host} {argv0 : Bytes}

/-- `main` gives up at the command, at a flag, or it runs the arguments. -/
theorem main_cases (hinj : ∀ i j p, h.nodes i = some p → h.nodes j = some p → i = j)
    (d : PrintData) (argv0 : Bytes) (args : List Bytes) :
    (∃ err, (err = errorInvalidCommand ∨ err = errorMallocCommand) ∧
      ∀ n, main h d argv0 args n =
        some (.exits ⟨-1, .ok (createFails err), [], rootFlags, ⟨∅, ∅⟩, []⟩)) ∨
    ∃ cmd l s v freed, Made cmd (cString (baseName argv0).text) l s v ∧ TornDown s freed ∧
      ((∃ u ∈ mainFlags, ∀ n, main h d argv0 args n = some (.exits
          ⟨errorMallocFlag, .ok (addFails u.1 errorMallocFlag), [], rootFlags, s, freed⟩)) ∨
        (l.map Flag.toFlagData = mainData ∧
          start (baseName argv0).text h.nodes = some (.parse cmd s) ∧
          ∀ n, main h d argv0 args n =
            (execute ⟨v.commands, args, true⟩ h.env cmd rootFlags n).map (reached d s freed))) := by
  obtain ⟨r, hstart⟩ := start_returns hinj (baseName argv0).text
  rcases start_made hstart with ⟨err, rfl, herr⟩ |
    ⟨cmd, l, s, v, hmade, ⟨u, hu, rfl, hpre⟩ | ⟨rfl, hl⟩⟩
  · left
    refine ⟨err, herr, fun n => ?_⟩
    unfold main
    rw [hstart]
    rfl
  · right
    have hdata : ∀ g ∈ l, g.toFlagData ∈ mainData :=
      fun g hg => hpre.subset (List.mem_map_of_mem hg)
    obtain ⟨t, hrun, htorn⟩ := hmade.destroy hdata
    refine ⟨cmd, l, s, v, t.freed, hmade, htorn, Or.inl ⟨u, hu, fun n => ?_⟩⟩
    unfold main
    rw [hstart]
    simp only [Option.bind_eq_bind, Option.bind_some, hrun]
  · right
    have hdata : ∀ g ∈ l, g.toFlagData ∈ mainData :=
      fun g hg => hl ▸ List.mem_map_of_mem hg
    obtain ⟨t, hrun, htorn⟩ := hmade.destroy hdata
    refine ⟨cmd, l, s, v, t.freed, hmade, htorn, Or.inr ⟨hl, hstart, fun n => ?_⟩⟩
    unfold main
    rw [hstart]
    simp only [Option.bind_eq_bind, Option.bind_some, hrun, lists_stores hmade.stores]
    exact Option.map_eq_bind.symm

/-- The placeholder is not looked at: a run in which `root_handler` returns `ret` differs in
`*handler_result` alone, and only if there is a call. -/
theorem execute_result {h : Host} {x : Input} {cmd : Ptr} {m : RootFlags} {n : ℕ}
    {r : Result RootFlags} (hr : execute x h.env cmd m n = some r) (ret : ℤ) :
    ∃ k, execute x (mainEnv h.inetPton h.argv fun _ _ _ _ _ => ret) cmd m k =
      some (if calls r.world.log = [] then r else { r with handlerResult := ret }) := by
  have hunique := execute_unique hr
  obtain ⟨w, hw, hends⟩ := read_silent x h.env cmd m
  obtain ⟨k, hk⟩ := execute_read x (mainEnv h.inetPton h.argv fun _ _ _ _ _ => ret) cmd m
  refine ⟨k, hk.trans (congrArg some ?_)⟩
  rw [read_handler (d := mainEnv h.inetPton h.argv fun _ _ _ _ _ => ret) (e := h.env) rfl]
  have hpush : pushAt x (mainEnv h.inetPton h.argv fun _ _ _ _ _ => ret) = pushAt x h.env := rfl
  rw [hpush]
  generalize read x h.env (pushAt x h.env) x.argv 0 cmd false ⟨m, .start, []⟩ = q
    at hunique hends ⊢
  have hcalls := ends_calls hw.1 hends
  subst hunique
  obtain ⟨stop, c, mem, ⟨argc, argv, cap, requests, oob, heap⟩, log⟩ := q
  cases stop with
  | some err => exact (if_pos hcalls).symm
  | none =>
    rcases Option.eq_none_or_eq_some (x.commands.handler c) with hh | ⟨g, hh⟩
    · simp only [finish, call, hh]
      exact (if_pos hcalls).symm
    · have hne : calls (log ++ [.call c g argc (argv.map Block.cells)]) ≠ [] := by
        rw [calls_append, hcalls]
        nofun
      cases argv with
      | none =>
        simp only [finish, call, hh]
        exact (if_neg hne).symm
      | some b =>
        simp only [finish, call, hh]
        exact (if_neg hne).symm

/-! What is left of a run at the exits. -/

section Reached

variable {d : PrintData} {s : Registry} {freed : List Freed} {r : Result RootFlags}

theorem reached_inside (hoob : r.world.args.oob = false) : reached d s freed r ≠ .overrun := by
  unfold reached
  rw [hoob]
  simp only [Bool.false_eq_true, if_false]
  split <;> nofun

theorem reached_returns {e : Exit} (he : (reached d s freed r).Returns e) :
    e.registry = s ∧ e.freed = freed := by
  unfold reached at he
  split at he
  · exact he.elim
  split at he
  · obtain ⟨ret, rfl⟩ := he
    exact ⟨rfl, rfl⟩
  · cases he
    exact ⟨rfl, rfl⟩

theorem reached_quiet (hoob : r.world.args.oob = false) (hcalls : calls r.world.log = []) :
    reached d s freed r = .exits (exitOf d s freed r) := by
  have hnone : r.world.log.find? Event.isCall = none := by
    rw [← List.head?_filter]
    exact congrArg List.head? hcalls
  unfold reached
  rw [hoob, hnone]
  rfl

theorem reached_call (hoob : r.world.args.oob = false) {cmd : Ptr} {f : Fn} {argc : ℕ}
    {argv : Option (List (Option Bytes))}
    (hcalls : calls r.world.log = [.call cmd f argc argv]) :
    reached d s freed r = .calls cmd argc argv r.world.mem
      fun ret => exitOf d s freed { r with handlerResult := ret } := by
  have hsome : r.world.log.find? Event.isCall = some (.call cmd f argc argv) := by
    rw [← List.head?_filter]
    exact congrArg List.head? hcalls
  unfold reached
  rw [hoob, hsome]
  rfl

end Reached

/-- Behind the call `main` does what it does with a `root_handler` that returns `ret`. -/
theorem main_rest {d : PrintData} {args : List Bytes} {n : ℕ} {cmd : Ptr} {argc : ℕ}
    {argv : Option (List (Option Bytes))} {m : RootFlags} {rest : ℤ → Exit}
    (hr : main h d argv0 args n = some (.calls cmd argc argv m rest)) (ret : ℤ) :
    ∃ root s freed k r, start (baseName argv0).text h.nodes = some (.parse root s) ∧
      execute ⟨lists s, args, true⟩ (mainEnv h.inetPton h.argv fun _ _ _ _ _ => ret) root
        rootFlags k = some r ∧
      rest ret = exitOf d s freed r := by
  unfold main at hr
  obtain ⟨o, ho, hr⟩ := Option.bind_eq_some_iff.mp hr
  cases o with
  | noCommand err => cases hr
  | fail c err line s =>
    obtain ⟨t, -, hr⟩ := Option.bind_eq_some_iff.mp hr
    cases hr
  | parse root s =>
    obtain ⟨q, hq, hr⟩ := Option.bind_eq_some_iff.mp hr
    obtain ⟨t, -, hr⟩ := Option.bind_eq_some_iff.mp hr
    replace hr := Option.some.inj hr
    obtain ⟨k, hk⟩ := execute_result hq ret
    refine ⟨root, s, t.freed, k, _, ho, hk, ?_⟩
    unfold reached at hr
    split at hr
    · cases hr
    split at hr
    · rename_i hfind
      have hcalls : calls q.world.log ≠ [] := by
        intro hnil
        rw [← List.head?_filter] at hfind
        have hnone : (calls q.world.log).head? = none := congrArg List.head? hnil
        cases hnone.symm.trans hfind
      rw [if_neg hcalls]
      cases hr
      rfl
    · cases hr

/-- With at most 32 positional arguments nothing is overrun. -/
theorem crowded_overrun {cmd : Ptr} {l : List Flag} {name : Bytes} {s : Registry} {v : Forest}
    (hmade : Made cmd name l s v)
    (hstart : start (baseName argv0).text h.nodes = some (.parse cmd s)) {args : List Bytes}
    {n : ℕ} {r : Result RootFlags}
    (hr : execute ⟨v.commands, args, true⟩ h.env cmd rootFlags n = some r)
    (hoob : r.world.args.oob = true) : Crowded h argv0 args := by
  refine ⟨cmd, s, hstart, ?_⟩
  rw [lists_stores hmade.stores]
  by_contra hle
  rw [execute_inside (not_lt.mp hle) hr] at hoob
  cases hoob

/-- `main` comes to its call of `root_handler`, to a return, or to an overrun of the list of
the positional arguments, which are more than 32 then. By each return, whatever
`root_handler` has returned, each node that was allocated is freed, once. -/
theorem main_frees (hinj : ∀ i j p, h.nodes i = some p → h.nodes j = some p → i = j)
    (d : PrintData) (argv0 : Bytes) (args : List Bytes) :
    (∃ n r, main h d argv0 args n = some r) ∧
      ∀ n r, main h d argv0 args n = some r →
        (r = .overrun → Crowded h argv0 args) ∧
          ∀ e, r.Returns e → TornDown e.registry e.freed := by
  rcases main_cases hinj d argv0 args with ⟨err, -, hrun⟩ |
    ⟨cmd, l, s, v, freed, hmade, htorn, ⟨u, -, hrun⟩ | ⟨-, hstart, hrun⟩⟩
  · refine ⟨⟨0, _, hrun 0⟩, fun n r hr => ?_⟩
    rw [hrun, Option.some.injEq] at hr
    subst hr
    refine ⟨nofun, ?_⟩
    rintro e rfl
    refine ⟨List.nodup_nil, fun x => ?_, fun p => nofun⟩
    cases x with
    | command c => exact iff_of_false nofun (AList.notMem_empty c)
    | flag f => exact iff_of_false nofun (AList.notMem_empty f)
  · refine ⟨⟨0, _, hrun 0⟩, fun n r hr => ?_⟩
    rw [hrun, Option.some.injEq] at hr
    subst hr
    refine ⟨nofun, ?_⟩
    rintro e rfl
    exact htorn
  · obtain ⟨n, hn⟩ := execute_read ⟨v.commands, args, true⟩ h.env cmd rootFlags
    refine ⟨⟨n, _, by rw [hrun, hn]; rfl⟩, fun n r hr => ?_⟩
    rw [hrun] at hr
    obtain ⟨q, hq, rfl⟩ := Option.map_eq_some_iff.mp hr
    constructor
    · intro hover
      refine crowded_overrun hmade hstart hq ?_
      by_contra hoob
      exact reached_inside (Bool.eq_false_of_not_eq_true hoob) hover
    · intro e he
      obtain ⟨hs, hf⟩ := reached_returns he
      rw [hs, hf]
      exact htorn

/-- What `main` comes to for a command of this name. -/
inductive Ends (h : Host) (d : PrintData) (argv0 : Bytes) (args : List Bytes) :
    Reached → Prop where
  | noCommand {e : Exit} {err : ℕ} (herr : err = errorInvalidCommand ∨ err = errorMallocCommand)
      (code : e.code = -1) (output : e.output = .ok (createFails err)) (log : e.log = []) :
      Ends h d argv0 args (.exits e)
  | noFlag {e : Exit} {u : FlagArgs × Option Fn} (hu : u ∈ mainFlags)
      (code : e.code = errorMallocFlag)
      (output : e.output = .ok (addFails u.1 errorMallocFlag)) (log : e.log = []) :
      Ends h d argv0 args (.exits e)
  | overrun (crowded : Crowded h argv0 args) : Ends h d argv0 args .overrun
  /- `root_handler` is called once, on valid values, with nothing printed by then, and its
  result is the code -/
  | called {cmd : Ptr} {argc : ℕ} {argv : Option (List (Option Bytes))} {m : RootFlags}
      {rest : ℤ → Exit} (valid : Valid h.inetPton m)
      (behind : ∀ ret, calls (rest ret).log = [.call cmd rootHandler argc argv] ∧
        (rest ret).code = ret ∧ (rest ret).output = .ok [] ∧ (rest ret).flags = m) :
      Ends h d argv0 args (.calls cmd argc argv m rest)
  | helped {e : Exit} {l : List Flag} (hl : l.map Flag.toFlagData = mainData)
      (calls : calls e.log = []) (code : e.code = 0)
      (output : e.output = .ok (mainHelp d (cString (baseName argv0).text) l)) :
      Ends h d argv0 args (.exits e)
  | failed {e : Exit} {l : List Flag} {err : ℕ} {out : Bytes}
      (hl : l.map Flag.toFlagData = mainData) (calls : calls e.log = []) (herr : err ≠ 0)
      (code : e.code = err) (output : e.output = .ok out)
      (prints : Prints d true (mainPage d (cString (baseName argv0).text) l).render
        (mainHelp d (cString (baseName argv0).text) l) err out) :
      Ends h d argv0 args (.exits e)

section Finish

variable {d : PrintData} {name : Bytes} {cmd : Ptr} {l : List Flag} {s : Registry} {v : Forest}
  {freed : List Freed} {x : Input} {q : Reading HandlerArgs RootFlags}

/-- The loop went through all arguments: `root_handler` is called. -/
theorem reached_handled (freed : List Freed) (hroot : Root v cmd l) (hx : x.commands = v.commands)
    (hq : q.command = cmd) (hstop : q.stop = none) (hsets : OnlySets q.world.log)
    (hsilent : Silent q.world.log) (hoob : q.world.args.oob = false) :
    ∃ argc argv rest,
      reached d s freed (finish x h.env q) = .calls cmd argc argv q.world.mem rest ∧
      ∀ ret, calls (rest ret).log = [.call cmd rootHandler argc argv] ∧
        (rest ret).code = ret ∧ (rest ret).output = .ok [] ∧ (rest ret).flags = q.world.mem := by
  subst hq
  have hfinish : finish x h.env q = call x h.env q.command q.world := by
    unfold finish
    rw [hstop]
  have hhandler : x.commands.handler q.command = some rootHandler := by
    rw [hx]
    exact hroot.handler
  have hlog := call_log (x := x) (e := h.env) q.command q.world
  rw [hhandler] at hlog
  obtain ⟨hlog, -⟩ := hlog
  have herr := call_err (x := x) (e := h.env) q.command q.world
  obtain ⟨hmem, hkeep⟩ := call_keeps (x := x) (e := h.env) q.command q.world
  have hcalls : calls (call x h.env q.command q.world).world.log =
      [.call q.command rootHandler q.world.args.argc (q.world.args.argv.map Block.cells)] := by
    rw [hlog, calls_append, hsilent.1]
    rfl
  rw [hfinish, reached_call (hkeep.trans hoob) hcalls, hmem]
  refine ⟨_, _, _, rfl, fun ret => ⟨hcalls, ?_, ?_, hmem⟩⟩
  · show (if ret ≠ 0 ∧ (call x h.env q.command q.world).err = 0 then ret
      else ((call x h.env q.command q.world).err : ℤ)) = ret
    rw [herr]
    split
    · rfl
    · rename_i hzero
      have hret : ret = 0 := by
        by_contra hne
        exact hzero ⟨hne, rfl⟩
      exact hret.symm
  · show output d s (call x h.env q.command q.world).world.log = _
    rw [hlog]
    exact output_append (output_sets hsets) rfl

/-- The loop stopped. -/
theorem reached_stopped {err : ℕ} (hstop : q.stop = some err) (hcalls : calls q.world.log = [])
    (hoob : q.world.args.oob = false) :
    reached d s freed (finish x h.env q) =
      .exits ⟨err, output d s q.world.log, q.world.log, q.world.mem, s, freed⟩ := by
  have hfinish : finish x h.env q = ⟨err, q.command, 0, q.world⟩ := by
    unfold finish
    rw [hstop]
  rw [hfinish, reached_quiet hoob hcalls]
  rfl

theorem reported_calls {err : ℕ} {w : World HandlerArgs RootFlags}
    (hr : Reported true cmd err w) : calls w.log = [] := by
  obtain ⟨sets, es, hsets, hes, hlog⟩ := hr
  rw [hlog, calls_append, calls_sets hsets, calls_report hes]
  rfl

/-- The loop stopped with the help or with an error. -/
theorem ends_stopped {args : List Bytes}
    (husage : printUsage d s cmd =
      .ok (mainPage d (cString (baseName argv0).text) l).render)
    (hhelp : print d s cmd = .ok (mainHelp d (cString (baseName argv0).text) l))
    (hl : l.map Flag.toFlagData = mainData) {err : ℕ} {w : World HandlerArgs RootFlags}
    (hr : Reported true cmd err w) :
    Ends h d argv0 args (.exits ⟨err, output d s w.log, w.log, w.mem, s, freed⟩) := by
  have hcalls := reported_calls hr
  obtain ⟨sets, es, hsets, hes, hlog⟩ := hr
  obtain ⟨out, hout, hprints⟩ := report_output husage hhelp hes
  have houtput : output d s w.log = .ok out := by
    rw [hlog]
    exact output_append (output_sets hsets) hout
  have hfailed (herr : err ≠ 0) :
      Ends h d argv0 args (.exits ⟨err, output d s w.log, w.log, w.mem, s, freed⟩) :=
    .failed hl hcalls herr rfl houtput hprints
  cases hes with
  | help =>
    have hhelped : output d s [.help cmd] =
        .ok (mainHelp d (cString (baseName argv0).text) l) := by
      simp only [output, Event.output, hhelp, pure_eq_ok, ok_bind, List.append_nil]
    rw [hout] at hhelped
    exact .helped hl hcalls rfl (houtput.trans hhelped)
  | argument _ => exact hfailed (by decide)
  | unknown _ _ => exact hfailed (by decide)
  | unknownShort _ => exact hfailed (by decide)
  | malloc _ => exact hfailed (by decide)

/-- The run of the arguments is a reading at the command of `main`. -/
theorem Made.reading (hmade : Made cmd name l s v) (hl : l.map Flag.toFlagData = mainData)
    {args : List Bytes} {n : ℕ} {r : Result RootFlags}
    (hr : execute ⟨v.commands, args, true⟩ h.env cmd rootFlags n = some r) :
    ∃ q : Reading HandlerArgs RootFlags, r = finish ⟨v.commands, args, true⟩ h.env q ∧
      q.command = cmd ∧ r.world.args.oob = q.world.args.oob ∧
      ((q.stop = none ∧ OnlySets q.world.log ∧ Silent q.world.log ∧
          Valid h.inetPton q.world.mem) ∨
        ∃ err, q.stop = some err ∧ Reported true cmd err q.world) := by
  have hguard : ∀ g ∈ l, Guarded g :=
    fun g hg => mainData_guarded (hl ▸ List.mem_map_of_mem hg)
  obtain ⟨w, ⟨hq, hvalid, hsilent⟩, hends⟩ := read_ready h.inetPton hmade.toRoot hguard
    (x := ⟨v.commands, args, true⟩) rfl (e := h.env) rfl (w := ⟨rootFlags, .start, []⟩)
    ⟨rfl, valid_rootFlags _, rfl, rfl⟩
  have hreports : (read ⟨v.commands, args, true⟩ h.env
      (pushAt ⟨v.commands, args, true⟩ h.env) args 0 cmd false ⟨rootFlags, .start, []⟩).Reports
        true := reports_read args cmd false onlySets_nil
  have hunique := execute_unique hr
  dsimp only at hq hends hunique ⊢
  generalize read ⟨v.commands, args, true⟩ h.env (pushAt ⟨v.commands, args, true⟩ h.env) args 0
    cmd false ⟨rootFlags, .start, []⟩ = q at hq hends hreports hunique
  refine ⟨q, hunique, hq, by rw [hunique, finish_oob], ?_⟩
  unfold Reading.Ends at hends
  unfold Reading.Reports at hreports
  cases hstop : q.stop with
  | none =>
    rw [hstop] at hends hreports
    subst hends
    exact Or.inl ⟨rfl, hreports, hsilent, hvalid⟩
  | some err =>
    rw [hstop, hq] at hreports
    exact Or.inr ⟨err, rfl, hreports⟩

/-- What is made of the run of the arguments. -/
theorem Made.run (hmade : Made cmd name l s v) (hl : l.map Flag.toFlagData = mainData)
    (hstart : start (baseName argv0).text h.nodes = some (.parse cmd s)) (d : PrintData)
    (freed : List Freed) {args : List Bytes} {n : ℕ} {r : Result RootFlags}
    (hr : execute ⟨v.commands, args, true⟩ h.env cmd rootFlags n = some r) :
    (reached d s freed r = .overrun ∧ Crowded h argv0 args) ∨
      (∃ argc argv m rest, reached d s freed r = .calls cmd argc argv m rest ∧
        Valid h.inetPton m ∧
        ∀ ret, calls (rest ret).log = [.call cmd rootHandler argc argv] ∧
          (rest ret).code = ret ∧ (rest ret).output = .ok [] ∧ (rest ret).flags = m) ∨
      ∃ (err : ℕ) (w : World HandlerArgs RootFlags),
        reached d s freed r = .exits ⟨err, output d s w.log, w.log, w.mem, s, freed⟩ ∧
        Reported true cmd err w := by
  obtain ⟨q, hq, hcmd, hkeep, hread⟩ := hmade.reading hl hr
  cases hoob : q.world.args.oob with
  | true => exact Or.inl ⟨if_pos (hkeep.trans hoob), crowded_overrun hmade hstart hr
      (hkeep.trans hoob)⟩
  | false =>
    right
    rw [hq]
    rcases hread with ⟨hstop, hsets, hsilent, hvalid⟩ | ⟨err, hstop, hreported⟩
    · obtain ⟨argc, argv, rest, hreached, hrest⟩ := reached_handled (h := h) (d := d) (s := s)
        freed hmade.toRoot (x := ⟨v.commands, args, true⟩) rfl hcmd hstop hsets
        hsilent hoob
      exact Or.inl ⟨argc, argv, q.world.mem, rest, hreached, hvalid, hrest⟩
    · exact Or.inr ⟨err, q.world, reached_stopped hstop (reported_calls hreported) hoob,
        hreported⟩

end Finish

/-- What `main` comes to, and all that it prints by then: the command or a flag cannot be
made, the list of the positional arguments is overrun, `root_handler` is called on valid
values with nothing printed before and its result will be the code, the help is printed, or
an error that is the code with the usage behind its message. -/
theorem main_ends (hinj : ∀ i j p, h.nodes i = some p → h.nodes j = some p → i = j)
    {d : PrintData} (hcommand : ∀ c, (d.behindCommand c).head? = some 0)
    (hflag : ∀ f, (d.behindFlag f).head? = some 0)
    (hname : shortText (baseName argv0).text = true) (args : List Bytes) :
    ∃ n r, main h d argv0 args n = some r ∧ Ends h d argv0 args r ∧
      ∀ m r', main h d argv0 args m = some r' → r' = r := by
  rcases main_cases hinj d argv0 args with ⟨err, herr, hrun⟩ |
    ⟨cmd, l, s, v, freed, hmade, -, ⟨u, hu, hrun⟩ | ⟨hl, hstart, hrun⟩⟩
  · refine ⟨0, _, hrun 0, .noCommand herr rfl rfl rfl, fun m r' hr' => ?_⟩
    rw [hrun, Option.some.injEq] at hr'
    exact hr'.symm
  · refine ⟨0, _, hrun 0, .noFlag hu rfl rfl rfl, fun m r' hr' => ?_⟩
    rw [hrun, Option.some.injEq] at hr'
    exact hr'.symm
  · obtain ⟨n, hn⟩ := execute_read ⟨v.commands, args, true⟩ h.env cmd rootFlags
    refine ⟨n, reached d s freed _, by rw [hrun, hn]; rfl, ?_, fun m r' hr' => ?_⟩
    · have hdata : ∀ g ∈ l, g.toFlagData ∈ mainData :=
        fun g hg => hl ▸ List.mem_map_of_mem hg
      obtain ⟨husage, hhelp⟩ := hmade.prints hdata (textName_cString hname) hcommand hflag
      rcases hmade.run hl hstart d freed hn with ⟨hreached, hcrowded⟩ |
        ⟨argc, argv, m, rest, hreached, hvalid, hrest⟩ | ⟨err, w, hreached, hreported⟩
      · rw [hreached]
        exact .overrun hcrowded
      · rw [hreached]
        exact .called hvalid hrest
      · rw [hreached]
        exact ends_stopped husage hhelp hl hreported
    · rw [hrun] at hr'
      obtain ⟨r, hr, rfl⟩ := Option.map_eq_some_iff.mp hr'
      rw [execute_unique hr]

end Ends

/- Memory for everything. -/
def plainHost : Host := ⟨fun _ _ => none, some, fun _ _ => true⟩

theorem plainHost_nodes (i j p : Ptr) (hi : plainHost.nodes i = some p)
    (hj : plainHost.nodes j = some p) : i = j :=
  (Option.some.inj hi).trans (Option.some.inj hj).symm

/-- What `main` returns before `root_handler`, and what it calls it on. -/
def Reached.seen : Reached → Option (ℤ ⊕ ℕ × RootFlags)
  | .overrun => none
  | .exits e => some (.inl e.code)
  | .calls _ argc _ m _ => some (.inr (argc, m))

example : (main plainHost noDefaults (text "server") (List.replicate 33 (text "a")) 40).map
    Reached.seen = some none := by
  decide

theorem main_frees_worker :
    ∃ n e, main plainHost noDefaults (text "server") [text "--worker=1"] n = some (.exits e) ∧
      e.code = errorInvalidArgument ∧ TornDown e.registry e.freed := by
  have hobs : (main plainHost noDefaults (text "server") [text "--worker=1"] 9).map
      Reached.seen = some (some (.inl errorInvalidArgument)) := by
    decide
  obtain ⟨r, hr, hseen⟩ := Option.map_eq_some_iff.mp hobs
  have hfreed := ((main_frees plainHost_nodes noDefaults (text "server")
    [text "--worker=1"]).2 9 r hr).2
  cases r with
  | overrun => cases hseen
  | calls cmd argc argv m rest => cases hseen
  | exits e =>
    refine ⟨9, e, hr, ?_, hfreed e rfl⟩
    simpa [Reached.seen] using hseen

theorem main_ends_worker :
    ∃ n cmd argc argv m rest, main plainHost noDefaults (text "server") [text "--worker=2"] n =
        some (.calls cmd argc argv m rest) ∧ argc = 0 ∧ m = { rootFlags with worker := 2 } ∧
      Ends plainHost noDefaults (text "server") [text "--worker=2"]
        (.calls cmd argc argv m rest) := by
  have hobs : (main plainHost noDefaults (text "server") [text "--worker=2"] 9).map
      Reached.seen = some (some (.inr (0, { rootFlags with worker := 2 }))) := by
    decide
  obtain ⟨r, hr, hseen⟩ := Option.map_eq_some_iff.mp hobs
  obtain ⟨n, r', -, hends, hunique⟩ := main_ends plainHost_nodes (d := noDefaults)
    (fun _ => rfl) (fun _ => rfl) (show shortText (baseName (text "server")).text = true by decide)
    [text "--worker=2"]
  obtain rfl := hunique 9 r hr
  cases r with
  | overrun => cases hseen
  | exits e => cases hseen
  | calls cmd argc argv m rest =>
    simp only [Reached.seen, Option.some.injEq, Sum.inr.injEq, Prod.mk.injEq] at hseen
    exact ⟨9, cmd, argc, argv, m, rest, hr, hseen.1, hseen.2, hends⟩

end LibeventHttpServe.Example
