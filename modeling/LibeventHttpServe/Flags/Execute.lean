import LibeventHttpServe.Flags.Forest

/-!
# Executing an argument list (flags.c:2196-2774)

The loop of `ppp_c_flags_execute` with its three states. What it does not
control is in `Env`: the `set_flag` callbacks, `malloc` and the command handlers.
An argument is the text before its NUL. A write outside `handler_argv` only sets
`oob`, so that a run goes on as if it had not happened. What is printed to the
console is in the log.
-/

namespace LibeventHttpServe.Flags

open LibeventHttpServe.Lib

/-- A flag as a command lists it. -/
structure Flag extends FlagData where
  ptr : Ptr
  deriving DecidableEq, Repr

/-- The lists that `execute` walks: the children of a command with their names,
and its flags. -/
structure Commands where
  child : Ptr → List (Ptr × Bytes)
  flag : Ptr → List Flag
  handler : Ptr → Option Fn

/-- The commands of a forest. -/
def Forest.commands (v : Forest) : Commands where
  child p := ((v.command p).elim [] CommandView.children).filterMap fun c =>
    (v.command c).map fun y => (c, y.name)
  flag p := ((v.command p).elim [] CommandView.flags).filterMap fun f =>
    (v.flag f).map fun g => ⟨g, f⟩
  handler p := (v.command p).bind fun x => x.handler

/-- A `char *` into a text. -/
structure Str where
  base : Bytes
  off : ℕ
  deriving DecidableEq, Repr

/-- The text behind the pointer; `s_len` is its length. -/
def Str.text (s : Str) : Bytes := s.base.drop s.off

def Str.add (s : Str) (n : ℕ) : Str := ⟨s.base, s.off + n⟩
def Str.sub (s : Str) (n : ℕ) : Str := ⟨s.base, s.off - n⟩

inductive Message where
  | needsArgument (flag : Flag) (short : Bool)
  | invalidArgument (flag : Flag) (short : Bool) (s : Bytes)
  | invalidHelp (short : Bool) (s : Bytes)
  | unknownFlag (s : Bytes)
  | unknownShortFlag (c : Option UInt8)
  | mallocArgv (s : Bytes)
  deriving DecidableEq, Repr

inductive Event where
  | setFlag (flag : Ptr) (s : Bytes)
  | call (command : Ptr) (handler : Fn) (argc : ℕ) (argv : Option (List (Option Bytes)))
  /- `ppp_c_flags_print` -/
  | help (command : Ptr)
  /- `ppp_c_flags_print_usage` -/
  | usage (command : Ptr)
  | message (m : Message)
  deriving DecidableEq, Repr

/-- A block of `char *` cells; a cell is `none` while its contents are
indeterminate. -/
structure Block where
  id : ℕ
  cells : List (Option Bytes)
  deriving DecidableEq, Repr

inductive HeapEvent where
  | malloc (block : ℕ)
  | free (block : ℕ)
  /- `free` of the C library instead of `ppp_c_flags_free` -/
  | libcFree (block : ℕ)
  deriving DecidableEq, Repr

/-- The fields `handler_argc`, `handler_argv` and `handler_cap` with what happened
to the blocks: the number of requests, and whether a write or a copy went
outside. -/
structure HandlerArgs where
  argc : ℕ
  argv : Option Block
  cap : ℕ
  requests : ℕ
  oob : Bool
  heap : List HeapEvent
  deriving DecidableEq, Repr

/-- The memory behind the callbacks, the collected arguments and the log. -/
structure World (β σ : Type) where
  mem : σ
  args : β
  log : List Event

/-- What is outside the loop. `setFlag` is true when the callback returns
non-zero, its last argument is the number of arguments left; `malloc` answers the
requests in turn. -/
structure Env (σ : Type) where
  setFlag : σ → Flag → Bytes → ℕ → Bool × σ
  malloc : ℕ → ℕ → Bool
  handler : Fn → Ptr → ℕ → Option (List (Option Bytes)) → σ → ℤ

structure Input where
  commands : Commands
  argv : List Bytes
  allowUnknow : Bool

def Input.argc (x : Input) : ℕ := x.argv.length

inductive ExecState where
  | none
  | flags
  | flagsShort
  deriving DecidableEq, Repr

/-- `ppp_c_flags_execute_args_t`. -/
structure Args (σ : Type) where
  command : Ptr
  i : ℕ
  s : Str
  state : ExecState
  input : Bool
  shortInput : Bool
  world : World HandlerArgs σ

/-- What `ppp_c_flags_execute` returns and leaves, with the command it was at. -/
structure Result (σ : Type) where
  err : ℕ
  command : Ptr
  handlerResult : ℤ
  world : World HandlerArgs σ

/-- `return 0` keeps the loop going, `return 1` ends it. -/
inductive Next (σ : Type) where
  | loop (a : Args σ)
  | ret (r : Result σ)

def errorMallocArgv : ℕ := 12
def errorInvalidArgument : ℕ := 13
def errorUnknowFlag : ℕ := 14
def errorUnknowShortFlag : ℕ := 15

section World

variable {β σ : Type}

def World.emit (w : World β σ) (es : List Event) : World β σ := { w with log := w.log ++ es }

/-- A call of `set_flag` through the handler of the flag. -/
def World.setFlag (e : Env σ) (f : Flag) (s : Bytes) (n : ℕ) (w : World β σ) :
    Bool × World β σ :=
  let r := e.setFlag w.mem f s n
  (r.1, { w with mem := r.2, log := w.log ++ [.setFlag f.ptr s] })

end World

/-! ### The arguments for the handler -/

/-- `memcpy` of `n` bytes of old cells, 8 bytes each, into a new block: a cell
that is not copied as a whole stays indeterminate. -/
def copyCells (old : List (Option Bytes)) (n cap : ℕ) : List (Option Bytes) :=
  (old.take (n / 8) ++ List.replicate cap none).take cap

/-- The first half of `ppp_c_flags_push_args`: room for one more argument when
`max` are left. False when there is no memory. -/
def growArgv (malloc : ℕ → ℕ → Bool) (max : ℕ) (b : HandlerArgs) : Bool × HandlerArgs :=
  if b.cap < b.argc + 1 then
    let cap := if b.argc = 0 then 32 else b.argc * 2
    let cap := if cap < 32 then 32 else cap
    let cap := if max < cap then max else cap
    let ok := malloc b.requests (8 * cap)
    let new := b.requests
    let b := { b with requests := b.requests + 1 }
    match b.argv with
    | some old =>
      if ok then
        -- `handler_argc` bytes are copied, and `handler_cap` is not updated
        let cells := if b.argc = 0 then List.replicate cap none
          else copyCells old.cells b.argc cap
        let outside := decide (8 * cap < b.argc ∨ 8 * old.cells.length < b.argc)
        (true, { b with
          argv := some ⟨new, cells⟩
          oob := b.oob || outside
          heap := b.heap ++ [.malloc new, .libcFree old.id] })
      else (false, { b with heap := b.heap ++ [.free old.id] })
    | none =>
      if ok then
        (true, { b with
          argv := some ⟨new, List.replicate cap none⟩
          cap := cap
          heap := b.heap ++ [.malloc new] })
      else (false, b)
  else (true, b)

/-- `args->handler_argv[args->handler_argc++] = s`. -/
def storeArg (s : Bytes) (b : HandlerArgs) : HandlerArgs :=
  match b.argv with
  | some block =>
    { b with
      argc := b.argc + 1
      argv := some { block with cells := block.cells.set b.argc (some s) }
      oob := b.oob || decide (block.cells.length ≤ b.argc) }
  | none => { b with argc := b.argc + 1, oob := true }

def pushArg (malloc : ℕ → ℕ → Bool) (max : ℕ) (s : Bytes) (b : HandlerArgs) :
    Bool × HandlerArgs :=
  match growArgv malloc max b with
  | (true, b) => (true, storeArg s b)
  | (false, b) => (false, b)

/-! ### The loop -/

variable {σ : Type}

/-- `ppp_c_flags_call`. -/
def call (x : Input) (e : Env σ) (command : Ptr) (w : World HandlerArgs σ) : Result σ :=
  match x.commands.handler command with
  | none => ⟨0, command, 0, w⟩
  | some h =>
    let argv := w.args.argv.map Block.cells
    let ret := e.handler h command w.args.argc argv w.mem
    let w := w.emit [.call command h w.args.argc argv]
    match w.args.argv with
    | none => ⟨0, command, ret, w⟩
    | some b =>
      ⟨0, command, ret, { w with args := { w.args with heap := w.args.heap ++ [.free b.id] } }⟩

/-- The loop ends with an error or the help, and `*handler_result` is still 0. -/
def Args.stop (a : Args σ) (err : ℕ) (w : World HandlerArgs σ) (es : List Event) : Next σ :=
  .ret ⟨err, a.command, 0, w.emit es⟩

/-- `ppp_c_flags_push_args`. -/
def pushArgs (x : Input) (e : Env σ) (a : Args σ) (s : Str) : Next σ :=
  match pushArg e.malloc (x.argc - a.i) s.text a.world.args with
  | (true, b) =>
    .loop { a with
      i := a.i + 1, input := true, state := .none, world := { a.world with args := b } }
  | (false, b) =>
    a.stop errorMallocArgv { a.world with args := b } [.message (.mallocArgv s.text)]

/-- `ppp_c_flags_next_none`. -/
def nextNone (x : Input) (e : Env σ) (a : Args σ) : Next σ :=
  match x.argv[a.i]? with
  | none => .ret (call x e a.command a.world)
  | some t =>
    let s : Str := ⟨t, 0⟩
    if 1 < t.length ∧ t[0]? = some (ascii '-') ∧ t[1]? = some (ascii '-') ∧ 2 < t.length then
      .loop { a with s := s.add 2, input := true, state := .flags }
    else if 1 < t.length ∧ t[0]? = some (ascii '-') ∧ t[1]? ≠ some (ascii '-') then
      .loop { a with s := s.add 1, input := true, shortInput := false, state := .flagsShort }
    else if a.input then pushArgs x e { a with s := s } s
    else
      match (x.commands.child a.command).find? fun c => decide (c.2 = t) with
      | some c => .loop { a with s := s, command := c.1, i := a.i + 1 }
      | none => pushArgs x e { a with s := s } s

/-- `ppp_c_flags_next_flags_set_value`. -/
def nextFlagsSetValue (x : Input) (e : Env σ) (a : Args σ) (f : Flag) (isshort : Bool) :
    Next σ :=
  if f.type.elem = .bool then
    -- the result of `set_flag` is not used
    let i := a.i + 1
    let r := a.world.setFlag e f (text "1") (x.argc - i)
    .loop { a with i := i, state := .none, world := r.2 }
  else
    match x.argv[a.i + 1]? with
    | none => a.stop errorInvalidArgument a.world
        [.message (.needsArgument f isshort), .usage a.command]
    | some t =>
      match a.world.setFlag e f t (x.argc - a.i - 1) with
      | (true, w) => a.stop errorInvalidArgument w
          [.message (.invalidArgument f isshort t), .usage a.command]
      | (false, w) => .loop { a with s := ⟨t, 0⟩, i := a.i + 2, state := .none, world := w }

/-- `ppp_c_flags_next_flags_set`; `skip` is what is left out of the text to get
the value: the name and `'='`, `c=` or `c`. -/
def nextFlagsSet (x : Input) (e : Env σ) (a : Args σ) (f : Flag) (skip : ℕ) (isshort : Bool) :
    Next σ :=
  let s := a.s.add skip
  match a.world.setFlag e f s.text (x.argc - a.i - 1) with
  | (true, w) => a.stop errorInvalidArgument w
      [.message (.invalidArgument f isshort s.text), .usage a.command]
  | (false, w) => .loop { a with s := s, i := a.i + 1, state := .none, world := w }

/-- The value of `--help=v` and `-h=v`. -/
def nextHelp (a : Args σ) (skip : ℕ) (isshort : Bool) : Next σ :=
  let s := a.s.add skip
  match parseBool s.text s.text.length with
  | .ok 0 => .loop { a with s := s, i := a.i + 1, state := .none }
  | .ok 1 => a.stop 0 a.world [.help a.command]
  | _ => a.stop errorInvalidArgument a.world
      [.message (.invalidHelp isshort s.text), .usage a.command]

/-- The loop over the flags in `ppp_c_flags_next_flags`: the first flag whose
name is the text, or the text up to a `'='` (`true`). -/
def findFlag (s : Bytes) : List Flag → Option (Flag × Bool)
  | [] => none
  | f :: fs =>
    if s = f.name then some (f, false)
    else if f.name.length < s.length ∧ s[f.name.length]? = some (ascii '=') ∧
        s.take f.name.length = f.name then some (f, true)
    else findFlag s fs

/-- `ppp_c_flags_next_flags`. -/
def nextFlags (x : Input) (e : Env σ) (a : Args σ) : Next σ :=
  let s := a.s.text
  if s = text "help" then a.stop 0 a.world [.help a.command]
  else if 4 < s.length ∧ s.take 5 = text "help=" then nextHelp a 5 false
  else
    match findFlag s (x.commands.flag a.command) with
    | some (f, false) => nextFlagsSetValue x e a f false
    | some (f, true) => nextFlagsSet x e a f (f.name.length + 1) false
    | none =>
      if x.allowUnknow then pushArgs x e a (a.s.sub 2)
      else a.stop errorUnknowFlag a.world [.message (.unknownFlag s), .usage a.command]

/-- The loop over the flags in `ppp_c_flags_next_short`: the first flag whose
short name is the first byte of the text. -/
def findShort (s : Bytes) : List Flag → Option Flag
  | [] => none
  | f :: fs =>
    if f.shortName ≠ 0 ∧ s[0]? = some f.shortName then some f else findShort s fs

/-- `ppp_c_flags_next_short`. -/
def nextShort (x : Input) (e : Env σ) (a : Args σ) : Next σ :=
  let s := a.s.text
  if s = text "h" then a.stop 0 a.world [.help a.command]
  else if 1 < s.length ∧ s.take 2 = text "h=" then nextHelp a 2 true
  else
    match findShort s (x.commands.flag a.command) with
    | some f =>
      if s.length = 1 then nextFlagsSetValue x e a f true
      else if s[1]? = some (ascii '=') then nextFlagsSet x e a f 2 true
      else if f.type.elem = .bool then
        let r := a.world.setFlag e f (text "1") (x.argc - a.i)
        .loop { a with s := a.s.add 1, shortInput := true, world := r.2 }
      else nextFlagsSet x e a f 1 true
    | none =>
      if a.shortInput = false ∧ x.allowUnknow = true then pushArgs x e a (a.s.sub 1)
      else a.stop errorUnknowShortFlag a.world
        [.message (.unknownShortFlag s[0]?), .usage a.command]

/-- One round of the loop of `ppp_c_flags_execute`. -/
def round (x : Input) (e : Env σ) (a : Args σ) : Next σ :=
  match a.state with
  | .none => nextNone x e a
  | .flags => nextFlags x e a
  | .flagsShort => nextShort x e a

/-- At most `fuel` rounds of the loop. -/
def rounds (x : Input) (e : Env σ) : ℕ → Args σ → Option (Result σ)
  | 0, _ => none
  | fuel + 1, a =>
    match round x e a with
    | .loop a => rounds x e fuel a
    | .ret r => some r

def HandlerArgs.start : HandlerArgs := ⟨0, none, 0, 0, false, []⟩

def Args.start (root : Ptr) (mem : σ) : Args σ :=
  ⟨root, 0, ⟨[], 0⟩, .none, false, false, ⟨mem, .start, []⟩⟩

/-- `ppp_c_flags_execute` with a bound on the rounds of its loop. -/
def execute (x : Input) (e : Env σ) (root : Ptr) (mem : σ) (fuel : ℕ) : Option (Result σ) :=
  rounds x e fuel (.start root mem)

/- Callbacks that accept everything, and memory for all. -/
def acceptAll : Env Unit where
  setFlag := fun _ _ _ _ => (false, ())
  malloc := fun _ _ => true
  handler := fun _ _ _ _ _ => 0

end LibeventHttpServe.Flags
