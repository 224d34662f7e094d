import LibeventHttpServe.Flags.Usage
import LibeventHttpServe.Flags.Words
import Mathlib.Data.List.TakeWhile

/-!
# The page of a command (flags.c:2287-2466)

What `ppp_c_flags_print_usage` writes is the page of the command in the forest that the
registry stores.
-/

namespace LibeventHttpServe.Flags

open LibeventHttpServe.Lib

variable (d : PrintData)

/-! ### The path of a command -/

section Paths

variable {d} {s : Registry} {v : Forest}

theorem intercalate_snoc (sep : Bytes) {l : List Bytes} (h : l ≠ []) (t : Bytes) :
    sep.intercalate (l ++ [t]) = sep.intercalate l ++ sep ++ t := by
  obtain ⟨a, l, rfl⟩ := List.exists_cons_of_ne_nil h
  rw [List.cons_append, intercalate_cons, intercalate_cons, List.flatMap_append]
  simp

/-- The parents of a command, from the command up. -/
theorem printName_chain {l : List (Ptr × CommandNode)} {c : Ptr}
    (hs : Chain.Segment CommandNode.parent s.commands (some c) l none) {fuel : ℕ}
    (hf : l.length ≤ fuel)
    (hnames : ∀ e ∈ l, PlainName e.2.name (d.behindCommand e.1)) :
    printName d s fuel c =
      .ok ((text " ").intercalate (l.reverse.map fun e => e.2.name)) := by
  induction l generalizing c fuel with
  | nil => cases hs
  | cons e l ih =>
    obtain ⟨k, n⟩ := e
    obtain ⟨hk, hn, htail⟩ := Chain.segment_cons.mp hs
    cases hk
    cases fuel with
    | zero => simp at hf
    | succ fuel =>
      have hname : d.commandText c n.toCommandData = n.name :=
        (hnames (c, n) List.mem_cons_self).text
      unfold printName
      simp only [hn, loaded, ok_bind, hname]
      cases hp : n.parent with
      | none =>
        rw [hp] at htail
        obtain ⟨rfl, -⟩ := Chain.segment_null htail
        simp [List.intercalate]
      | some p =>
        rw [hp] at htail
        have hne : l ≠ [] := by
          rintro rfl
          cases htail
        have hrec := ih htail (by simpa using hf) fun e he => hnames e (List.mem_cons_of_mem _ he)
        simp only [hrec, ok_bind, pure_eq_ok, List.reverse_cons, List.map_append, List.map_cons,
          List.map_nil]
        rw [intercalate_snoc _ (by simpa using hne)]

/-- The names that lead from a root to a command are those of its parents. -/
theorem path_chain (hs : Stores s v) (hv : WellFormed v) {r c : Ptr} {x : CommandView}
    {ts : List Bytes} (hx : v.command r = some x) (hroot : x.parent = none)
    (hpath : Path v r ts c) :
    ∃ l, Chain.Segment CommandNode.parent s.commands (some c) l none ∧
      l.reverse.map (fun e => e.2.name) = x.name :: ts := by
  induction ts using List.reverseRecOn generalizing c with
  | nil =>
    cases hpath
    obtain ⟨n, hn, hdata, hparent⟩ := hs.live hx
    refine ⟨[(r, n)], Chain.segment_cons.mpr ⟨rfl, hn, ?_⟩, ?_⟩
    · rw [hparent, hroot]
      exact Chain.segment_nil.mpr rfl
    · simp [hdata]
  | append_singleton ts t ih =>
    obtain ⟨p, hp, hlast⟩ := hpath.split
    cases hlast with
    | cons hchild hnil =>
      cases hnil
      obtain ⟨l, hl, hnames⟩ := ih hp
      obtain ⟨z, y, hz, hmem, hy, rfl⟩ := hchild
      obtain ⟨y', hy', hparent⟩ := hv.parentOf p z c hz hmem
      rw [hy, Option.some.injEq] at hy'
      subst hy'
      obtain ⟨n, hn, hdata, hpn⟩ := hs.live hy
      refine ⟨(c, n) :: l, Chain.segment_cons.mpr ⟨rfl, hn, ?_⟩, ?_⟩
      · rw [hpn, hparent]
        exact hl
      · rw [List.reverse_cons, List.map_append, hnames]
        simp [hdata]

/-- Every command is below a root. -/
theorem path_exists (hv : WellFormed v) {c : Ptr} {y : CommandView} (hy : v.command c = some y) :
    ∃ r x ts, v.command r = some x ∧ x.parent = none ∧ Path v r ts c := by
  obtain ⟨depth, hdepth⟩ := hv.acyclic
  induction hn : depth c using Nat.strong_induction_on generalizing c y with
  | _ n ih =>
    cases hp : y.parent with
    | none => exact ⟨c, y, [], hy, hp, .nil c⟩
    | some p =>
      obtain ⟨z, hz, hmem⟩ := hv.listed c y p hy hp
      have hlt : depth p < n := by
        have h := hdepth c y p hy hp
        omega
      obtain ⟨r, x, ts, hx, hroot, hpath⟩ := ih (depth p) hlt hz rfl
      exact ⟨r, x, ts ++ [y.name], hx, hroot,
        hpath.append (.cons ⟨z, y, hz, hmem, hy, rfl⟩ (.nil c))⟩

end Paths

/-! ### The page of a command -/

/-- The text of the default of a flag. -/
def PrintData.defaultText (f : Flag) : Bytes :=
  match f.handler.printDefault d.fl d.g (d.print f.ptr) (d.default f.ptr f.handler) with
  | .ok out => out
  | .error _ => []

/-- The page of the command `c`, to which the names `path` lead. -/
def Forest.page (v : Forest) (path : List Bytes) (c : Ptr) : UsagePage where
  path := path
  own := ((v.command c).map fun y => y.name).getD []
  commands := ((v.command c).elim [] CommandView.children).filterMap fun e =>
    (v.command e).map fun y => commandRow y.toCommandData
  flags := (v.commands.flag c).map fun f => flagRow (d.defaultText f) f.toFlagData

/-- The names are texts of their own, and the defaults that are arrays have their
elements. -/
structure Printable (v : Forest) : Prop where
  command : ∀ c y, v.command c = some y → PlainName y.name (d.behindCommand c)
  flag : ∀ f g, v.flag f = some g → PlainName g.name (d.behindFlag f)
  default : ∀ f g, v.flag f = some g → g.handler.Filled (d.default f g.handler)

section Page

variable {d} {s : Registry} {v : Forest} {c : Ptr}

theorem defaultText_printed {f : Flag} (h : f.handler.Filled (d.default f.ptr f.handler)) :
    f.handler.printDefault d.fl d.g (d.print f.ptr) (d.default f.ptr f.handler) =
      .ok (d.defaultText f) := by
  obtain ⟨out, hout⟩ := printDefault_total d.fl d.g (d.print f.ptr) h
  unfold PrintData.defaultText
  rw [hout]

/- The cells of a list, each with what it is in the forest. -/
theorem filterMap_cells {κ α β : Type} {cs : List (κ × α)} {f : κ → Option β} {g : κ × α → β}
    (h : ∀ e ∈ cs, f e.1 = some (g e)) : (cs.map Prod.fst).filterMap f = cs.map g := by
  induction cs with
  | nil => rfl
  | cons e cs ih =>
    have he := h e List.mem_cons_self
    rw [List.map_cons, List.filterMap_cons, he, List.map_cons,
      ih fun e he => h e (List.mem_cons_of_mem _ he)]

theorem children_cells (hs : Stores s v) {n : CommandNode} {y : CommandView}
    (hn : s.commands.lookup c = some n) (hy : v.command c = some y) :
    ∃ cs, Chain.cells CommandNode.next s.commands s.commands.keys.length n.child = some cs ∧
      (∀ e ∈ cs, ∃ z, v.command e.1 = some z ∧ e.2.toCommandData = z.toCommandData) ∧
      cs.map (fun e => commandRow e.2.toCommandData) =
        y.children.filterMap fun e => (v.command e).map fun z => commandRow z.toCommandData := by
  obtain ⟨cs, hseg, hkeys⟩ := hs.children c n y hn hy
  have hview : ∀ e ∈ cs, ∃ z, v.command e.1 = some z ∧ e.2.toCommandData = z.toCommandData := by
    intro e he
    obtain ⟨z, hz, hdata, -⟩ := hs.view (Chain.segment_lookup hseg e he)
    exact ⟨z, hz, hdata⟩
  refine ⟨cs, Chain.cells_of_segment _ hseg (Chain.segment_length_le hseg), hview, ?_⟩
  rw [← hkeys]
  symm
  apply filterMap_cells
  intro e he
  obtain ⟨z, hz, hdata⟩ := hview e he
  rw [hz, hdata]
  rfl

theorem flags_cells (hs : Stores s v) {n : CommandNode} {y : CommandView}
    (hn : s.commands.lookup c = some n) (hy : v.command c = some y) :
    ∃ fs, Chain.cells FlagNode.next s.flags s.flags.keys.length n.flag = some fs ∧
      (∀ e ∈ fs, v.flag e.1 = some e.2.toFlagData) ∧
      fs.map (fun e => (⟨e.2.toFlagData, e.1⟩ : Flag)) = v.commands.flag c := by
  obtain ⟨fs, hseg, hkeys⟩ := hs.flags c n y hn hy
  have hview : ∀ e ∈ fs, v.flag e.1 = some e.2.toFlagData := by
    intro e he
    rw [← hs.flag e.1, Chain.segment_lookup hseg e he]
    rfl
  refine ⟨fs, Chain.cells_of_segment _ hseg (Chain.segment_length_le hseg), hview, ?_⟩
  simp only [Forest.commands, hy, Option.elim_some, ← hkeys]
  symm
  apply filterMap_cells
  intro e he
  rw [hview e he]
  rfl

theorem handlerName_length (t : FlagType) : t.handlerName.1.length ≤ 9 := by
  obtain ⟨e, array⟩ := t
  cases e <;> cases array <;> decide

/-- The rows of the flags, in the column of the page. -/
theorem page_flags (hs : Stores s v) (hp : Printable d v) {n : CommandNode} {y : CommandView}
    (hn : s.commands.lookup c = some n) (hy : v.command c = some y) (path : List Bytes)
    {buf : Bytes} (hb : FormatBuf buf) :
    ∃ fs buf' buf'', Chain.cells FlagNode.next s.flags s.flags.keys.length n.flag = some fs ∧
      flagWidth fs = (v.page d path c).flagColumn ∧
      printFlags d (flagWidth fs) buf fs = .ok ((v.page d path c).flags.flatMap
        (FlagRow.render (v.page d path c).flagColumn), buf') ∧
      printFlag d buf' (flagWidth fs) none =
        .ok (padRight (v.page d path c).flagColumn (text "help bool"), buf'') := by
  obtain ⟨fs, hcells, hview, hflags⟩ := flags_cells hs hn hy
  have hrows : (v.page d path c).flags =
      fs.map fun e => flagRow (d.defaultText ⟨e.2.toFlagData, e.1⟩) e.2.toFlagData := by
    simp only [Forest.page, ← hflags, List.map_map]
    rfl
  have hwidth : flagWidth fs = (v.page d path c).flagColumn := by
    rw [flagWidth_eq, UsagePage.flagColumn, hrows, List.map_map]
    congr 1
    apply List.map_congr_left
    intro e _
    simp only [Function.comp, FlagRow.field, flagRow, List.length_append]
    rfl
  have hmax : flagWidth fs ≤ 2147483647 := by
    rw [flagWidth_eq, foldl_max_le]
    refine ⟨by decide, ?_⟩
    intro k hk
    obtain ⟨e, he, rfl⟩ := List.mem_map.mp hk
    have hname := (hp.flag e.1 _ (hview e he)).2.2
    have htype := handlerName_length e.2.handler
    omega
  have hcolumn : 11 ≤ flagWidth fs ∧ ∀ e ∈ fs,
      e.2.name.length + 1 + e.2.handler.handlerName.1.length ≤ flagWidth fs := by
    obtain ⟨hlo, hall⟩ := foldl_max_le.mp (flagWidth_eq fs).ge
    exact ⟨hlo, fun e he => hall _ (List.mem_map_of_mem he)⟩
  have hprints : ∀ e ∈ fs, PrintsFlag d e.1 e.2.toFlagData
      (d.defaultText ⟨e.2.toFlagData, e.1⟩) ∧
      e.2.name.length + 1 + e.2.handler.handlerName.1.length ≤ flagWidth fs := by
    intro e he
    have hflag := hview e he
    exact ⟨⟨hp.flag e.1 _ hflag,
      defaultText_printed (f := ⟨e.2.toFlagData, e.1⟩) (hp.default e.1 _ hflag)⟩, hcolumn.2 e he⟩
  obtain ⟨buf', hprint, hb'⟩ := printFlags_rows hmax _ hprints hb
  obtain ⟨buf'', hhelp⟩ := printFlag_help (d := d) hb' hcolumn.1 hmax
  refine ⟨fs, buf', buf'', hcells, hwidth, ?_, ?_⟩
  · rw [hprint, hrows, hwidth]
  · rw [hhelp, hwidth]

/-- The part about the commands below, in the column of the page. -/
theorem page_commands (hs : Stores s v) (hp : Printable d v) {n : CommandNode} {y : CommandView}
    (hn : s.commands.lookup c = some n) (hy : v.command c = some y) (name : Bytes)
    (path : List Bytes) :
    ∃ buf, printCommands d s name n.child =
        .ok (if (v.page d path c).commands = [] then text " [flags]\n\n"
          else text " [flags]\n  " ++ name ++ text " [command]\n\nAvailable Commands:\n" ++
            (v.page d path c).commands.flatMap (renderCommand (v.page d path c).commandColumn) ++
            text "\n", buf) ∧
      FormatBuf buf ∧ ((v.page d path c).commands = [] ↔ n.child = none) := by
  obtain ⟨cs, hcells, hview, hrows⟩ := children_cells hs hn hy
  have hcommands : (v.page d path c).commands =
      cs.map fun e => commandRow e.2.toCommandData := by
    rw [hrows]
    simp only [Forest.page, hy, Option.elim_some]
  have hnames : ∀ e ∈ cs, PlainName e.2.name (d.behindCommand e.1) := by
    intro e he
    obtain ⟨z, hz, hdata⟩ := hview e he
    rw [hdata]
    exact hp.command e.1 z hz
  have hwidth : childWidth cs = (v.page d path c).commandColumn := by
    rw [childWidth_eq, UsagePage.commandColumn, hcommands, List.map_map]
    rfl
  have hmax : childWidth cs ≤ 2147483647 := by
    rw [childWidth_eq, foldl_max_le]
    refine ⟨by decide, ?_⟩
    intro k hk
    obtain ⟨e, he, rfl⟩ := List.mem_map.mp hk
    have hname := (hnames e he).2.2
    omega
  cases hchild : n.child with
  | none =>
    rw [hchild, Chain.cells_null, Option.some.injEq] at hcells
    subst hcells
    rw [List.map_nil] at hcommands
    refine ⟨formatBuf, ?_, formatBuf_start, by simp [hcommands]⟩
    rw [if_pos hcommands]
    rfl
  | some p =>
    rw [hchild] at hcells
    obtain ⟨buf, hsprintf, hb, rest, hbuf⟩ := sprintfWidth_fits formatBuf_start (childWidth cs)
    have hprint := printChildren_rows hmax hbuf hnames
    have hne : (v.page d path c).commands ≠ [] := by
      rw [hcommands]
      simpa using Chain.cells_ne_nil hcells
    refine ⟨buf, ?_, hb, by simp [hne]⟩
    rw [if_neg hne, ← hwidth, hcommands]
    unfold printCommands
    dsimp only
    rw [hcells]
    simp only [loaded, hsprintf, hprint, ok_bind, pure_eq_ok]

theorem printUsage_page (hs : Stores s v) (hv : WellFormed v) (hp : Printable d v)
    {r : Ptr} {x y : CommandView} {ts : List Bytes} (hx : v.command r = some x)
    (hroot : x.parent = none) (hpath : Path v r ts c) (hy : v.command c = some y) :
    printUsage d s c = .ok (v.page d (x.name :: ts) c).render := by
  obtain ⟨n, hn, hdata, -⟩ := hs.live hy
  obtain ⟨l, hchain, hnames⟩ := path_chain hs hv hx hroot hpath
  have hplain : ∀ e ∈ l, PlainName e.2.name (d.behindCommand e.1) := by
    intro e he
    obtain ⟨z, hz, hzdata, -⟩ := hs.view (Chain.segment_lookup hchain e he)
    rw [hzdata]
    exact hp.command e.1 z hz
  have hname := printName_chain hchain (Chain.segment_length_le hchain) hplain
  obtain ⟨buf, hcommands, hb, hnone⟩ := page_commands hs hp hn hy
    ((text " ").intercalate (x.name :: ts)) (x.name :: ts)
  obtain ⟨fs, buf', buf'', hcells, hwidth, hflags, hhelp⟩ :=
    page_flags hs hp hn hy (x.name :: ts) hb
  have hown : d.commandText c n.toCommandData = (v.page d (x.name :: ts) c).own := by
    have hplain := hp.command c y hy
    rw [PrintData.commandText, hdata, hplain.text]
    simp [Forest.page, hy]
  unfold printUsage
  rw [hname, hnames, hn]
  simp only [loaded, ok_bind, hcommands, hcells, hflags, hhelp, hown]
  have hsome : n.child.isSome = true ↔ (v.page d (x.name :: ts) c).commands ≠ [] := by
    rw [ne_eq, hnone, Option.isSome_iff_ne_none]
  unfold UsagePage.render
  simp only [hsome, ite_not, pure_eq_ok, List.append_assoc]
  rfl

end Page

/-! ### Names that are texts -/

def shortText (name : Bytes) : Bool := decide ((cString name).length < 2147483000)

/-- The call takes the length of the name from `strlen`. -/
def Call.measured : Call → Bool
  | .commandCreate n .. => shortText n
  | .addCommand _ n .. => n.all shortText
  | .addFlag _ n .. => n.all shortText
  | .commandCreateWithLen .. => false
  | .addCommandWithLen .. => false
  | .addFlagWithLen .. => false

/-- The registries that are built without lengths for the names. -/
def textSystem : System Registry (Call × Option Ptr) :=
  registrySystem.restrict fun _ a => a.1.measured = true

def TextName (name : Bytes) : Prop := 0 ∉ name ∧ name.length < 2147483000

structure TextNames (v : Forest) : Prop where
  command : ∀ c y, v.command c = some y → TextName y.name
  flag : ∀ f g, v.flag f = some g → TextName g.name

theorem textName_cString {name : Bytes} (h : shortText name = true) : TextName (cString name) := by
  refine ⟨?_, of_decide_eq_true h⟩
  intro hzero
  have hne := List.mem_takeWhile_imp hzero
  simp at hne

section Texts

variable {d} {s : Registry} {v w : Forest}

theorem textNames_empty : TextNames emptyForest where
  command := fun _ _ h => (emptyForest_command h).elim
  flag := by
    intro f g h
    cases h

theorem TextNames.create (hv : TextNames v) {c : Ptr} {n : CommandData} (hn : TextName n.name) :
    TextNames (v.create c n) where
  command := by
    intro e y hy
    rcases create_cases hy with ⟨-, rfl⟩ | ⟨-, hy⟩
    · exact hn
    · exact hv.command e y hy
  flag := hv.flag

theorem TextNames.addCommand (hv : TextNames v) {p c : Ptr} {x : CommandView}
    (hx : v.command p = some x) {n : CommandData} (hn : TextName n.name) :
    TextNames (v.addCommand p x c n) where
  command := by
    intro e y hy
    rcases addCommand_cases hx hy with ⟨-, rfl⟩ | ⟨-, z, hz, hdata, -⟩
    · exact hn
    · rw [hdata]
      exact hv.command e z hz
  flag := hv.flag

theorem TextNames.addFlag (hv : TextNames v) {p f : Ptr} {x : CommandView}
    (hx : v.command p = some x) {n : FlagData} (hn : TextName n.name) :
    TextNames (v.addFlag p x f n) where
  command := by
    intro e y hy
    obtain ⟨z, hz, hdata, -⟩ := addFlag_cases hx hy
    rw [hdata]
    exact hv.command e z hz
  flag := by
    intro e g hg
    rcases addFlag_flag hg with ⟨-, rfl⟩ | ⟨-, hg⟩
    · exact hn
    · exact hv.flag e g hg

theorem textNames_adds (hv : TextNames v) {call : Call} (hm : call.measured = true) {c : Ptr}
    (h : call.adds v c w) : TextNames w := by
  cases call with
  | commandCreate n d f u =>
    obtain ⟨-, rfl⟩ := h
    exact hv.create (textName_cString hm)
  | addCommand p n d f u =>
    obtain ⟨-, name, x, rfl, hx, rfl⟩ := h
    exact hv.addCommand hx (textName_cString hm)
  | addFlag p n k d a tag =>
    obtain ⟨-, name, x, type, rfl, hx, -, rfl⟩ := h
    exact hv.addFlag hx (textName_cString hm)
  | commandCreateWithLen n d f u => cases hm
  | addCommandWithLen p n d f u => cases hm
  | addFlagWithLen p n k d a tag => cases hm

theorem textNames_reachable (hs : textSystem.Reachable s) (hst : Stores s v) : TextNames v := by
  have hinv : ∃ v, Stores s v ∧ WellFormed v ∧ TextNames v := by
    refine hs.invariant (I := fun s => ∃ v, Stores s v ∧ WellFormed v ∧ TextNames v) ?_ ?_
    · intro s h
      cases h
      exact ⟨_, stores_empty, wellFormed_empty, textNames_empty⟩
    · intro s a s' _ hi h
      obtain ⟨v, hst, hv, htext⟩ := hi
      obtain ⟨hm, hrun⟩ := System.restrict_step.mp h
      obtain ⟨⟨out, s''⟩, hcall, he⟩ := Option.map_eq_some_iff.mp hrun
      cases he
      rcases call_result hst hv _ hcall with ⟨-, rfl⟩ | ⟨c, w, -, hadds, happ, hw⟩
      · exact ⟨v, hst, hv, htext⟩
      · exact ⟨w, hw, hv.appended happ, textNames_adds htext hm hadds⟩
  obtain ⟨w, hw, -, htext⟩ := hinv
  rwa [hst.unique hw]

/-- The bytes behind the names are their NULs, and default arrays have their elements. -/
structure Terminated (d : PrintData) (v : Forest) : Prop where
  command : ∀ c, (d.behindCommand c).head? = some 0
  flag : ∀ f, (d.behindFlag f).head? = some 0
  default : ∀ f g, v.flag f = some g → g.handler.Filled (d.default f g.handler)

theorem printable_of_text (hs : textSystem.Reachable s) (hst : Stores s v)
    (hd : Terminated d v) : Printable d v := by
  have htext := textNames_reachable hs hst
  refine ⟨?_, ?_, hd.default⟩
  · intro c y hy
    obtain ⟨hzero, hlen⟩ := htext.command c y hy
    exact ⟨hzero, hd.command c, hlen⟩
  · intro f g hg
    obtain ⟨hzero, hlen⟩ := htext.flag f g hg
    exact ⟨hzero, hd.flag f, hlen⟩

end Texts

/-! ### Columns and names -/

/-- The fields of each column are equally long, and no two rows have one name; the row of
the help is the last of the flags. -/
structure UsagePage.Aligned (p : UsagePage) : Prop where
  commands : ∀ e ∈ p.commands, (padRight p.commandColumn e.1).length = p.commandColumn
  flags : ∀ r ∈ p.flags, (padRight p.flagColumn r.field).length = p.flagColumn
  help : (padRight p.flagColumn (text "help bool")).length = p.flagColumn
  commandNames : (p.commands.map Prod.fst).Nodup
  flagNames : (p.flags.map FlagRow.name ++ [text "help"]).Nodup

section Aligned

variable {d} {s : Registry} {v : Forest} {c : Ptr}

theorem nodup_filterMap {α β : Type} {l : List α} {f : α → Option β} (hl : l.Nodup)
    (h : ∀ a ∈ l, ∀ b ∈ l, ∀ n, f a = some n → f b = some n → a = b) : (l.filterMap f).Nodup := by
  induction l with
  | nil => exact List.nodup_nil
  | cons a l ih =>
    obtain ⟨ha, hl⟩ := List.nodup_cons.mp hl
    have hrest := ih hl fun x hx y hy =>
      h x (List.mem_cons_of_mem _ hx) y (List.mem_cons_of_mem _ hy)
    cases hf : f a with
    | none => rwa [List.filterMap_cons_none hf]
    | some n =>
      rw [List.filterMap_cons_some hf]
      refine List.nodup_cons.mpr ⟨?_, hrest⟩
      intro hn
      obtain ⟨b, hb, hfb⟩ := List.mem_filterMap.mp hn
      rw [h a List.mem_cons_self b (List.mem_cons_of_mem _ hb) n hf hfb] at ha
      exact ha hb

theorem commands_flag_nodup (hv : WellFormed v) (c : Ptr) : (v.commands.flag c).Nodup := by
  cases hy : v.command c with
  | none => simp [Forest.commands, hy]
  | some y =>
    simp only [Forest.commands, hy, Option.elim_some]
    refine nodup_filterMap (hv.once c y hy).2 ?_
    intro a _ b _ f hfa hfb
    obtain ⟨g, -, rfl⟩ := Option.map_eq_some_iff.mp hfa
    obtain ⟨h, -, heq⟩ := Option.map_eq_some_iff.mp hfb
    exact (congrArg Flag.ptr heq).symm

theorem page_aligned (hv : WellFormed v) (path : List Bytes) : (v.page d path c).Aligned where
  commands := by
    intro e he
    have hmax := (foldl_max_le.mp (le_refl (v.page d path c).commandColumn)).2 e.1.length
      (List.mem_map_of_mem he)
    rw [padRight_length]
    omega
  flags := by
    intro r hr
    have hmax := (foldl_max_le.mp (le_refl (v.page d path c).flagColumn)).2 r.field.length
      (List.mem_map_of_mem hr)
    rw [padRight_length]
    omega
  help := by
    have hmin := (foldl_max_le.mp (le_refl (v.page d path c).flagColumn)).1
    have hlen : (text "help bool").length = 9 := rfl
    rw [padRight_length]
    omega
  commandNames := by
    have hnames : (v.page d path c).commands.map Prod.fst =
        ((v.command c).elim [] CommandView.children).filterMap fun e =>
          (v.command e).map fun y => y.name := by
      simp only [Forest.page, List.map_filterMap, Option.map_map]
      rfl
    rw [hnames]
    cases hy : v.command c with
    | none => exact List.nodup_nil
    | some y =>
      refine nodup_filterMap (hv.once c y hy).1 ?_
      intro a ha b hb n hna hnb
      obtain ⟨za, hza, rfl⟩ := Option.map_eq_some_iff.mp hna
      obtain ⟨zb, hzb, hn⟩ := Option.map_eq_some_iff.mp hnb
      exact hv.siblings c y a b za zb hy ha hb hza hzb hn.symm
  flagNames := by
    have hnames : (v.page d path c).flags.map FlagRow.name =
        (v.commands.flag c).map fun f => f.name := by
      simp only [Forest.page, List.map_map]
      rfl
    rw [hnames]
    have hdistinct : ((v.commands.flag c).map fun f => f.name).Nodup := by
      refine List.Nodup.map_on ?_ (commands_flag_nodup hv c)
      intro f hf g hg h
      exact (listed_names hv hg).name f hf h
    have hhelp : ∀ n ∈ (v.commands.flag c).map fun f => f.name, n ≠ text "help" := by
      intro n hn
      obtain ⟨f, hf, rfl⟩ := List.mem_map.mp hn
      exact (hv.flagName _ _ (listed_flag hf)).2.1
    refine List.nodup_append.mpr ⟨hdistinct, List.nodup_singleton _, ?_⟩
    intro n hn m hm
    rw [List.mem_singleton.mp hm]
    exact hhelp n hn

/-- For a registry that is built with names that are texts, the usage of any command is
printed without a fault: it is the page of the command, whose first line leads to it from
its root, with the commands below and the flags in the order in which they were added,
each in a column of one width. -/
theorem usage_page (hs : textSystem.Reachable s) (hst : Stores s v) (hd : Terminated d v)
    {y : CommandView} (hy : v.command c = some y) :
    ∃ r x ts, v.command r = some x ∧ x.parent = none ∧ Path v r ts c ∧
      printUsage d s c = .ok (v.page d (x.name :: ts) c).render ∧
      (v.page d (x.name :: ts) c).Aligned := by
  obtain ⟨w, hw, hv⟩ := forest_reachable (System.reachable_of_restrict hs)
  obtain rfl := hst.unique hw
  obtain ⟨r, x, ts, hx, hroot, hpath⟩ := path_exists hv hy
  exact ⟨r, x, ts, hx, hroot, hpath,
    printUsage_page hst hv (printable_of_text hs hst hd) hx hroot hpath hy, page_aligned hv _⟩

end Aligned

/- No flag has a default to show. -/
def noDefaults : PrintData where
  behindCommand _ := [0]
  behindFlag _ := [0]
  default _
    | ⟨.bool, false⟩ => (0 : UInt8)
    | ⟨.int8, false⟩ => (0 : Int8)
    | ⟨.int16, false⟩ => (0 : Int16)
    | ⟨.int32, false⟩ => (0 : Int32)
    | ⟨.int64, false⟩ => (0 : Int64)
    | ⟨.uint8, false⟩ => (0 : UInt8)
    | ⟨.uint16, false⟩ => (0 : UInt16)
    | ⟨.uint32, false⟩ => (0 : UInt32)
    | ⟨.uint64, false⟩ => (0 : UInt64)
    | ⟨.float32, false⟩ => (0 : UInt32)
    | ⟨.float64, false⟩ => (0 : UInt64)
    | ⟨.string, false⟩ => none
    | ⟨_, true⟩ => ⟨none, [], 0, 0, false⟩
  print _ := none
  fl := .none
  g _ := []

theorem noDefaults_terminated (v : Forest) : Terminated noDefaults v where
  command _ := rfl
  flag _ := rfl
  default f g _ := by
    obtain ⟨e, array⟩ := g.handler
    cases array with
    | false => trivial
    | true => cases e <;> exact ⟨[], rfl, rfl⟩

theorem usage_page_get : ∃ s v y, textSystem.exec twoCommands ⟨∅, ∅⟩ = some s ∧ Stores s v ∧
    v.command 2 = some y ∧ ∃ r x ts, v.command r = some x ∧ x.parent = none ∧ Path v r ts 2 ∧
      printUsage noDefaults s 2 = .ok (v.page noDefaults (x.name :: ts) 2).render ∧
      (v.page noDefaults (x.name :: ts) 2).Aligned := by
  have hobs : (textSystem.exec twoCommands ⟨∅, ∅⟩).map
      (fun s => (s.commands.lookup 2).isSome) = some true := by
    decide
  obtain ⟨s, hs, hlive⟩ := Option.map_eq_some_iff.mp hobs
  have hreach : textSystem.Reachable s := System.reachable_exec (.init rfl) hs
  obtain ⟨v, hst, -⟩ := forest_reachable (System.reachable_of_restrict hreach)
  obtain ⟨n, hn⟩ := Option.isSome_iff_exists.mp hlive
  obtain ⟨y, hy, -⟩ := hst.view hn
  exact ⟨s, v, y, hs, hst, hy, usage_page hreach hst (noDefaults_terminated v) hy⟩

example : (textSystem.exec twoCommands ⟨∅, ∅⟩).map (fun s => printUsage noDefaults s 2) =
    some (.ok (text "Usage:\n  app get [flags]\n\nFlags:\n" ++
      text "  -h, --help bool     Help for get\n")) := by
  decide

end LibeventHttpServe.Flags
