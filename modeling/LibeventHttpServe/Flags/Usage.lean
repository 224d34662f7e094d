import LibeventHttpServe.Flags.Defaults
import LibeventHttpServe.Flags.Execute

/-!
# The usage of a command (flags.c:2287-2466)

`ppp_c_flags_print_usage` and `ppp_c_flags_print` as the text that they write. A read of
an address that is not live is a fault.
-/

namespace LibeventHttpServe.Flags

open LibeventHttpServe.Lib

/-- What is printed besides the data of the registry. -/
structure PrintData where
  /- the bytes behind the `_name_len` bytes of the name of a command, and of a flag -/
  behindCommand : Ptr → Bytes
  behindFlag : Ptr → Bytes
  default : Ptr → (t : FlagType) → t.Default
  /- what the `print` callback of a flag writes for its default -/
  print : Ptr → Option Bytes
  fl : Floats
  /- the text of `%g` -/
  g : UInt64 → Bytes

variable (d : PrintData)

/-- `%s` of `command->_name`. -/
def PrintData.commandText (c : Ptr) (n : CommandData) : Bytes :=
  cString (n.name ++ d.behindCommand c)

/-- `%s` of `flag->_name`. -/
def PrintData.flagText (f : Ptr) (n : FlagData) : Bytes := cString (n.name ++ d.behindFlag f)

/-- `name` and `name_len` of the handlers. -/
def FlagType.handlerName : FlagType → Bytes × ℕ
  | ⟨.bool, false⟩ => (text "bool", 4)
  | ⟨.int8, false⟩ => (text "int8", 4)
  | ⟨.int16, false⟩ => (text "int16", 5)
  | ⟨.int32, false⟩ => (text "int32", 5)
  | ⟨.int64, false⟩ => (text "int64", 5)
  | ⟨.uint8, false⟩ => (text "uint8", 5)
  | ⟨.uint16, false⟩ => (text "uint16", 6)
  | ⟨.uint32, false⟩ => (text "uint32", 6)
  | ⟨.uint64, false⟩ => (text "uint64", 6)
  | ⟨.float32, false⟩ => (text "float32", 7)
  | ⟨.float64, false⟩ => (text "float64", 7)
  | ⟨.string, false⟩ => (text "string", 6)
  | ⟨.bool, true⟩ => (text "[]bool", 6)
  | ⟨.int8, true⟩ => (text "[]int8", 6)
  | ⟨.int16, true⟩ => (text "[]int16", 7)
  | ⟨.int32, true⟩ => (text "[]int32", 7)
  | ⟨.int64, true⟩ => (text "[]int64", 7)
  | ⟨.uint8, true⟩ => (text "[]uint8", 7)
  | ⟨.uint16, true⟩ => (text "[]uint16", 8)
  | ⟨.uint32, true⟩ => (text "[]uint32", 8)
  | ⟨.uint64, true⟩ => (text "[]uint64", 8)
  | ⟨.float32, true⟩ => (text "[]float32", 9)
  | ⟨.float64, true⟩ => (text "[]float64", 9)
  | ⟨.string, true⟩ => (text "[]string", 8)

/-! ### The functions of the source -/

/-- A cell that is read has to be live. -/
def loaded {α : Type} : Option α → Checked α
  | some x => .ok x
  | none => .error .read

/-- `ppp_c_flags_print_name`; the fuel bounds the depth of the recursion. -/
def printName (s : Registry) : ℕ → Ptr → Checked Bytes
  | 0, _ => .error .read
  | fuel + 1, c => do
    let n ← loaded (s.commands.lookup c)
    match n.parent with
    | some p => do
      let out ← printName s fuel p
      pure (out ++ text " " ++ d.commandText c n.toCommandData)
    | none => pure (d.commandText c n.toCommandData)

/-- `ppp_c_flags_is_delimiter`. -/
def isDelimiter (c : UInt8) : Bool := c = 0 || c = 10 || c = 13

/-- The loop over `_describe`, which is not a null pointer. -/
def firstLine (describe : Bytes) : Bytes := describe.takeWhile fun c => !isDelimiter c

/-- `describe && !ppp_c_flags_is_delimiter(describe[0])`. -/
def hasLine : Option Bytes → Bool
  | none => false
  | some s => !isDelimiter (s.headD 0)

/-- `ppp_c_flags_print_flag`, with the format that it leaves in `buf`; without a flag it
is the one for the help. -/
def printFlag (buf : Bytes) (len : ℕ) (flag : Option (Ptr × FlagNode)) :
    Checked (Bytes × Bytes) :=
  match flag with
  | some (f, n) => do
    let len ← subLen len n.name.length
    let len ← subLen len 1
    let buf ← sprintfWidth buf len
    let field ← printfField buf n.handler.handlerName.1
    pure (d.flagText f n.toFlagData ++ text " " ++ field, buf)
  | none => do
    let len ← subLen len 4
    let len ← subLen len 1
    let buf ← sprintfWidth buf len
    let field ← printfField buf (text "bool")
    pure (text "help " ++ field, buf)

/-- The largest of the lengths of the names, and at least 5. -/
def childWidth (cs : List (Ptr × CommandNode)) : ℕ :=
  let min := cs.foldl (fun min c => if min < c.2.name.length then c.2.name.length else min) 0
  if min < 5 then 5 else min

/-- The rows of the commands. -/
def printChildren (buf : Bytes) : List (Ptr × CommandNode) → Checked Bytes
  | [] => pure []
  | (c, n) :: cs => do
    let field ← printfField buf (n.name ++ d.behindCommand c)
    let line := if hasLine n.describe then text "   " ++ firstLine (n.describe.getD []) else []
    let rows ← printChildren buf cs
    pure (text "  " ++ field ++ line ++ text "\n" ++ rows)

/-- The width of the flags' names with their types. -/
def flagWidth (fs : List (Ptr × FlagNode)) : ℕ :=
  let min := fs.foldl (fun min f =>
    let i := f.2.name.length + 1 + f.2.handler.handlerName.2
    if min < i then i else min) (4 + 1 + 5)
  if min < 11 then 11 else min

/-- The rows of the flags, with the format that is left in `buf`. -/
def printFlags (min : ℕ) : Bytes → List (Ptr × FlagNode) → Checked (Bytes × Bytes)
  | buf, [] => pure ([], buf)
  | buf, (f, n) :: fs => do
    let start := if n.shortName ≠ 0 then text "  -" ++ [n.shortName] ++ text ", --"
      else text "      --"
    let (name, buf) ← printFlag d buf min (some (f, n))
    let line := if hasLine n.describe then
        text "   " ++ firstLine (n.describe.getD []) ++ text " "
      else text "   "
    let default ← n.handler.printDefault d.fl d.g (d.print f) (d.default f n.handler)
    let (rows, buf) ← printFlags min buf fs
    pure (start ++ name ++ line ++ default ++ text "\n" ++ rows, buf)

/-- The part of the usage about the commands below, with the format in `buf`. -/
def printCommands (s : Registry) (name : Bytes) : Option Ptr → Checked (Bytes × Bytes)
  | some child => do
    let cs ← loaded (Chain.cells CommandNode.next s.commands s.commands.keys.length (some child))
    let buf ← sprintfWidth formatBuf (childWidth cs)
    let rows ← printChildren d buf cs
    pure (text " [flags]\n  " ++ name ++ text " [command]\n\nAvailable Commands:\n" ++ rows ++
      text "\n", buf)
  | none => pure (text " [flags]\n\n", formatBuf)

/-- `ppp_c_flags_print_usage`. -/
def printUsage (s : Registry) (c : Ptr) : Checked Bytes := do
  let name ← printName d s s.commands.keys.length c
  let n ← loaded (s.commands.lookup c)
  let (commands, buf) ← printCommands d s name n.child
  let fs ← loaded (Chain.cells FlagNode.next s.flags s.flags.keys.length n.flag)
  let (rows, buf) ← printFlags d (flagWidth fs) buf fs
  let (help, _) ← printFlag d buf (flagWidth fs) none
  let own := d.commandText c n.toCommandData
  let more := if n.child.isSome then
      text "\nUse \"" ++ own ++ text " [command] --help\" for more information about a command.\n"
    else []
  pure (text "Usage:\n  " ++ name ++ commands ++ text "Flags:\n" ++ rows ++ text "  -h, --" ++
    help ++ text "   Help for " ++ own ++ text "\n" ++ more)

/-- `ppp_c_flags_print`. -/
def print (s : Registry) (c : Ptr) : Checked Bytes := do
  let n ← loaded (s.commands.lookup c)
  let usage ← printUsage d s c
  match n.describe with
  | some describe => pure (describe ++ text "\n" ++ text "\n" ++ usage)
  | none => pure usage

/-! ### The page -/

structure FlagRow where
  short : UInt8
  name : Bytes
  type : Bytes
  /- the first line of the description -/
  line : Bytes
  default : Bytes

/-- A usage as its reader sees it. -/
structure UsagePage where
  /- the names from the root to the command -/
  path : List Bytes
  own : Bytes
  /- the names below with the first lines of their descriptions -/
  commands : List (Bytes × Bytes)
  flags : List FlagRow

def FlagRow.field (r : FlagRow) : Bytes := r.name ++ text " " ++ r.type

def FlagRow.render (w : ℕ) (r : FlagRow) : Bytes :=
  (if r.short ≠ 0 then text "  -" ++ [r.short] ++ text ", --" else text "      --") ++
    padRight w r.field ++
    (if r.line ≠ [] then text "   " ++ r.line ++ text " " else text "   ") ++
    r.default ++ text "\n"

def renderCommand (w : ℕ) (c : Bytes × Bytes) : Bytes :=
  text "  " ++ padRight w c.1 ++ (if c.2 ≠ [] then text "   " ++ c.2 else []) ++ text "\n"

/-- The width of the column of the commands. -/
def UsagePage.commandColumn (p : UsagePage) : ℕ := (p.commands.map fun c => c.1.length).foldl max 5

/-- The width of the column of the flags. -/
def UsagePage.flagColumn (p : UsagePage) : ℕ := (p.flags.map fun r => r.field.length).foldl max 11

def UsagePage.render (p : UsagePage) : Bytes :=
  text "Usage:\n  " ++ (text " ").intercalate p.path ++
    (if p.commands = [] then text " [flags]\n\n"
      else text " [flags]\n  " ++ (text " ").intercalate p.path ++
        text " [command]\n\nAvailable Commands:\n" ++
        p.commands.flatMap (renderCommand p.commandColumn) ++ text "\n") ++
    text "Flags:\n" ++ p.flags.flatMap (FlagRow.render p.flagColumn) ++
    text "  -h, --" ++ padRight p.flagColumn (text "help bool") ++
    text "   Help for " ++ p.own ++ text "\n" ++
    (if p.commands = [] then []
      else text "\nUse \"" ++ p.own ++
        text " [command] --help\" for more information about a command.\n")

/-- The row of a flag with the default that is shown for it. -/
def flagRow (default : Bytes) (n : FlagData) : FlagRow where
  short := n.shortName
  name := n.name
  type := n.handler.handlerName.1
  line := firstLine (n.describe.getD [])
  default := default

def commandRow (n : CommandData) : Bytes × Bytes := (n.name, firstLine (n.describe.getD []))

/-! ### Rows -/

section Rows

variable {d}

theorem handlerName_spec (t : FlagType) :
    t.handlerName.2 = t.handlerName.1.length ∧ cString t.handlerName.1 = t.handlerName.1 := by
  obtain ⟨e, array⟩ := t
  cases e <;> cases array <;> exact ⟨rfl, rfl⟩

theorem firstLine_ne (describe : Option Bytes) :
    hasLine describe = decide (firstLine (describe.getD []) ≠ []) := by
  cases describe with
  | none => rfl
  | some s =>
    cases s with
    | nil => rfl
    | cons c s =>
      cases h : isDelimiter c with
      | true => simp [hasLine, firstLine, h]
      | false => simp [hasLine, firstLine, h]

/-- A name is a text of its own, and short enough for a field. -/
def PlainName (name behind : Bytes) : Prop :=
  0 ∉ name ∧ behind.head? = some 0 ∧ name.length < 2147483000

theorem PlainName.text {name behind : Bytes} (h : PlainName name behind) :
    cString (name ++ behind) = name := by
  obtain ⟨hname, hbehind, -⟩ := h
  obtain ⟨rest, rfl⟩ := List.head?_eq_some_iff.mp hbehind
  unfold cString
  rw [List.takeWhile_append_of_pos, List.takeWhile_cons_of_neg (by decide), List.append_nil]
  intro c hc
  have hne : c ≠ 0 := by
    intro h0
    exact hname (h0 ▸ hc)
  simpa using hne

theorem printFlag_row {buf : Bytes} {len : ℕ} {f : Ptr} {n : FlagNode} (hb : FormatBuf buf)
    (hname : PlainName n.name (d.behindFlag f))
    (hlen : n.name.length + 1 + n.handler.handlerName.1.length ≤ len) (hmax : len ≤ 2147483647) :
    ∃ buf', printFlag d buf len (some (f, n)) =
        .ok (padRight len (n.name ++ text " " ++ n.handler.handlerName.1), buf') ∧
      FormatBuf buf' := by
  obtain ⟨buf', hsprintf, hb', rest, hbuf'⟩ := sprintfWidth_fits hb (len - n.name.length - 1)
  have hfield := printfField_width (by omega) hbuf' n.handler.handlerName.1
  have hpad : padRight len (n.name ++ text " " ++ n.handler.handlerName.1) =
      n.name ++ text " " ++ padRight (len - n.name.length - 1) n.handler.handlerName.1 := by
    rw [padRight_append, List.length_append, Nat.sub_add_eq]
    rfl
  refine ⟨buf', ?_, hb'⟩
  unfold printFlag
  dsimp only
  rw [subLen_ok (by omega), ok_bind, subLen_ok (by omega), ok_bind, hsprintf, ok_bind, hfield,
    ok_bind, (handlerName_spec _).2, PrintData.flagText, hname.text, hpad]
  rfl

theorem printFlag_help {buf : Bytes} {len : ℕ} (hb : FormatBuf buf) (hlen : 11 ≤ len)
    (hmax : len ≤ 2147483647) :
    ∃ buf', printFlag d buf len none = .ok (padRight len (text "help bool"), buf') := by
  obtain ⟨buf', hsprintf, -, rest, hbuf'⟩ := sprintfWidth_fits hb (len - 4 - 1)
  have hfield := printfField_width (by omega) hbuf' (text "bool")
  have hpad : padRight len (text "help bool") =
      text "help " ++ padRight (len - 4 - 1) (text "bool") := by
    rw [show text "help bool" = text "help " ++ text "bool" from rfl, padRight_append]
    rfl
  refine ⟨buf', ?_⟩
  unfold printFlag
  dsimp only
  rw [subLen_ok (by omega), ok_bind, subLen_ok (by omega), ok_bind, hsprintf, ok_bind, hfield,
    ok_bind, hpad]
  rfl

/-- What has to hold of a flag for its row. -/
structure PrintsFlag (d : PrintData) (f : Ptr) (n : FlagData) (default : Bytes) : Prop where
  name : PlainName n.name (d.behindFlag f)
  default : n.handler.printDefault d.fl d.g (d.print f) (d.default f n.handler) = .ok default

theorem printFlags_rows {min : ℕ} (hmax : min ≤ 2147483647) (default : Ptr × FlagNode → Bytes)
    {fs : List (Ptr × FlagNode)}
    (hfs : ∀ f ∈ fs, PrintsFlag d f.1 f.2.toFlagData (default f) ∧
      f.2.name.length + 1 + f.2.handler.handlerName.1.length ≤ min) {buf : Bytes}
    (hb : FormatBuf buf) :
    ∃ buf', printFlags d min buf fs =
        .ok ((fs.map fun f => flagRow (default f) f.2.toFlagData).flatMap (FlagRow.render min),
          buf') ∧ FormatBuf buf' := by
  induction fs generalizing buf with
  | nil => exact ⟨buf, rfl, hb⟩
  | cons f fs ih =>
    obtain ⟨f, n⟩ := f
    obtain ⟨hf, hlen⟩ := hfs (f, n) List.mem_cons_self
    obtain ⟨buf1, hname, hb1⟩ := printFlag_row hb hf.name hlen hmax
    obtain ⟨buf2, hrows, hb2⟩ := ih (fun g hg => hfs g (List.mem_cons_of_mem _ hg)) hb1
    refine ⟨buf2, ?_, hb2⟩
    unfold printFlags
    rw [hname, ok_bind]
    dsimp only
    rw [hf.default, ok_bind, hrows, ok_bind, firstLine_ne]
    simp only [List.map_cons, List.flatMap_cons, FlagRow.render, flagRow, FlagRow.field,
      decide_eq_true_eq, List.append_assoc, pure_eq_ok]

theorem printChildren_rows {buf rest : Bytes} {w : ℕ} (hw : w ≤ 2147483647)
    (hbuf : buf = text "%-" ++ sizeText w ++ text "s" ++ 0 :: rest)
    {cs : List (Ptr × CommandNode)} (hcs : ∀ c ∈ cs, PlainName c.2.name (d.behindCommand c.1)) :
    printChildren d buf cs =
      .ok ((cs.map fun c => commandRow c.2.toCommandData).flatMap (renderCommand w)) := by
  induction cs with
  | nil => rfl
  | cons c cs ih =>
    obtain ⟨c, n⟩ := c
    have hname := hcs (c, n) List.mem_cons_self
    have hrows := ih fun e he => hcs e (List.mem_cons_of_mem _ he)
    unfold printChildren
    rw [printfField_width hw hbuf, ok_bind, hname.text, hrows, firstLine_ne]
    simp only [List.map_cons, List.flatMap_cons, renderCommand, commandRow, decide_eq_true_eq,
      List.append_assoc, pure_eq_ok, ok_bind]

end Rows

/-! ### Columns -/

theorem foldl_largest {α : Type} (f : α → ℕ) (l : List α) (a : ℕ) :
    l.foldl (fun m x => if m < f x then f x else m) a = (l.map f).foldl max a := by
  induction l generalizing a with
  | nil => rfl
  | cons x l ih =>
    have hstep : (if a < f x then f x else a) = max a (f x) := by
      split <;> omega
    rw [List.foldl_cons, List.map_cons, List.foldl_cons, hstep, ih]

theorem foldl_max_start (l : List ℕ) {a b : ℕ} (h : a ≤ b) :
    (if l.foldl max a < b then b else l.foldl max a) = l.foldl max b := by
  have hb : l.foldl max b = max b (l.foldl max a) := by
    rw [← @List.foldl_assoc ℕ max _ l b a, Nat.max_eq_left h]
  rw [hb]
  split <;> omega

theorem foldl_max_le {l : List ℕ} {a n : ℕ} : l.foldl max a ≤ n ↔ a ≤ n ∧ ∀ x ∈ l, x ≤ n := by
  induction l generalizing a with
  | nil => simp
  | cons x l ih =>
    rw [List.foldl_cons, ih]
    simp only [List.mem_cons, forall_eq_or_imp, Nat.max_le, and_assoc]

theorem childWidth_eq (cs : List (Ptr × CommandNode)) :
    childWidth cs = (cs.map fun c => c.2.name.length).foldl max 5 := by
  unfold childWidth
  rw [foldl_largest (fun c : Ptr × CommandNode => c.2.name.length)]
  exact foldl_max_start _ (by decide)

theorem flagWidth_eq (fs : List (Ptr × FlagNode)) :
    flagWidth fs =
      (fs.map fun f => f.2.name.length + 1 + f.2.handler.handlerName.1.length).foldl max 11 := by
  have hlen : ∀ f : Ptr × FlagNode, f.2.name.length + 1 + f.2.handler.handlerName.2 =
      f.2.name.length + 1 + f.2.handler.handlerName.1.length := by
    intro f
    rw [(handlerName_spec _).1]
  unfold flagWidth
  simp only [hlen]
  rw [foldl_largest
    (fun f : Ptr × FlagNode => f.2.name.length + 1 + f.2.handler.handlerName.1.length)]
  exact foldl_max_start _ (by decide)

end LibeventHttpServe.Flags
