import LibeventHttpServe.Flags.Execute

/-!
# Reading an argument list token by token

The language of argument lists, without the character pointers and the states of
the loop: a token in token position is a subcommand, an option or a positional
argument, and an option may take the token behind it as its value. The collected
positional arguments may be kept in any way, given by `push`.
-/

namespace LibeventHttpServe.Flags

open LibeventHttpServe.Lib

inductive Token where
  /- `--body` -/
  | long (body : Bytes)
  /- `-body` -/
  | short (body : Bytes)
  | plain
  deriving DecidableEq, Repr

def tokenOf : Bytes → Token
  | [] => .plain
  | [_] => .plain
  | c :: d :: body =>
    if c = ascii '-' then
      if d = ascii '-' then if body = [] then .plain else .long body
      else .short (d :: body)
    else .plain

inductive Word where
  | help
  | helpOff
  | helpBad (v : Bytes)
  /- a flag with its value in the same token -/
  | assign (f : Flag) (v : Bytes)
  /- a flag alone -/
  | bare (f : Flag)
  /- a bool flag before other short names -/
  | member (f : Flag)
  | unknown
  deriving DecidableEq, Repr

def helpWord (v : Bytes) : Word :=
  match parseBool v v.length with
  | .ok 0 => .helpOff
  | .ok 1 => .help
  | _ => .helpBad v

def longWord (flags : List Flag) (body : Bytes) : Word :=
  if body = text "help" then .help
  else if 4 < body.length ∧ body.take 5 = text "help=" then helpWord (body.drop 5)
  else
    match findFlag body flags with
    | some (f, false) => .bare f
    | some (f, true) => .assign f (body.drop (f.name.length + 1))
    | none => .unknown

def shortWord (flags : List Flag) (body : Bytes) : Word :=
  if body = text "h" then .help
  else if 1 < body.length ∧ body.take 2 = text "h=" then helpWord (body.drop 2)
  else
    match findShort body flags with
    | some f =>
      if body.length = 1 then .bare f
      else if body[1]? = some (ascii '=') then .assign f (body.drop 2)
      else if f.type.elem = .bool then .member f
      else .assign f (body.drop 1)
    | none => .unknown

inductive Step (β σ : Type) where
  | one (command : Ptr) (input : Bool) (w : World β σ)
  | two (w : World β σ)
  | stop (err : ℕ) (w : World β σ)

section

variable {β σ : Type} (x : Input) (e : Env σ) (push : ℕ → Bytes → β → Bool × β)

/-- The flag `f` with the value `v` in the token number `i`. -/
def readAssign (c : Ptr) (i : ℕ) (f : Flag) (v : Bytes) (short : Bool) (w : World β σ) :
    Step β σ :=
  match w.setFlag e f v (x.argc - i - 1) with
  | (true, w) => .stop errorInvalidArgument
      (w.emit [.message (.invalidArgument f short v), .usage c])
  | (false, w) => .one c true w

/-- The flag `f` alone in the token number `i`; `value` is the token behind. -/
def readBare (c : Ptr) (i : ℕ) (f : Flag) (short : Bool) (value : Option Bytes)
    (w : World β σ) : Step β σ :=
  if f.type.elem = .bool then .one c true (w.setFlag e f (text "1") (x.argc - (i + 1))).2
  else
    match value with
    | none => .stop errorInvalidArgument
        (w.emit [.message (.needsArgument f short), .usage c])
    | some v =>
      match w.setFlag e f v (x.argc - i - 1) with
      | (true, w) => .stop errorInvalidArgument
          (w.emit [.message (.invalidArgument f short v), .usage c])
      | (false, w) => .two w

/-- The token number `i` as a positional argument. -/
def readPositional (c : Ptr) (i : ℕ) (t : Bytes) (w : World β σ) : Step β σ :=
  match push i t w.args with
  | (true, b) => .one c true { w with args := b }
  | (false, b) => .stop errorMallocArgv
      (({ w with args := b } : World β σ).emit [.message (.mallocArgv t)])

/-- The token `t` is `--body`. -/
def readLong (c : Ptr) (i : ℕ) (t body : Bytes) (value : Option Bytes) (w : World β σ) :
    Step β σ :=
  match longWord (x.commands.flag c) body with
  | .help => .stop 0 (w.emit [.help c])
  | .helpOff => .one c true w
  | .helpBad v => .stop errorInvalidArgument (w.emit [.message (.invalidHelp false v), .usage c])
  | .assign f v => readAssign x e c i f v false w
  | .bare f => readBare x e c i f false value w
  | .member _ | .unknown =>
    if x.allowUnknow then readPositional push c i t w
    else .stop errorUnknowFlag (w.emit [.message (.unknownFlag body), .usage c])

/-- The token `t` is `-...body`; `first` says that nothing of it was read. -/
def readShort (c : Ptr) (i : ℕ) (t : Bytes) (value : Option Bytes) (first : Bool) :
    Bytes → World β σ → Step β σ
  | [], w => .stop errorUnknowShortFlag (w.emit [.message (.unknownShortFlag none), .usage c])
  | k :: body, w =>
    match shortWord (x.commands.flag c) (k :: body) with
    | .help => .stop 0 (w.emit [.help c])
    | .helpOff => .one c true w
    | .helpBad v => .stop errorInvalidArgument (w.emit [.message (.invalidHelp true v), .usage c])
    | .assign f v => readAssign x e c i f v true w
    | .bare f => readBare x e c i f true value w
    | .member f =>
      readShort c i t value false body (w.setFlag e f (text "1") (x.argc - i)).2
    | .unknown =>
      if first = true ∧ x.allowUnknow = true then readPositional push c i t w
      else .stop errorUnknowShortFlag
        (w.emit [.message (.unknownShortFlag (some k)), .usage c])

/-- The token `t`, number `i`, in token position. -/
def readToken (c : Ptr) (i : ℕ) (input : Bool) (t : Bytes) (value : Option Bytes)
    (w : World β σ) : Step β σ :=
  match tokenOf t with
  | .long body => readLong x e push c i t body value w
  | .short body => readShort x e push c i t value true body w
  | .plain =>
    match if input then none else (x.commands.child c).find? fun d => decide (d.2 = t) with
    | some d => .one d.1 false w
    | none => readPositional push c i t w

/-- How reading ends: at the end of the list (`stop` is `none`) or with the code
that is returned. -/
structure Reading (β σ : Type) where
  stop : Option ℕ
  command : Ptr
  world : World β σ

/-- The tokens from number `i` on. -/
def read : List Bytes → ℕ → Ptr → Bool → World β σ → Reading β σ
  | [], _, c, _, w => ⟨none, c, w⟩
  | [t], i, c, input, w =>
    match readToken x e push c i input t none w with
    | .stop err w => ⟨some err, c, w⟩
    | .one c _ w => ⟨none, c, w⟩
    | .two w => ⟨none, c, w⟩
  | t :: v :: rest, i, c, input, w =>
    match readToken x e push c i input t (some v) w with
    | .stop err w => ⟨some err, c, w⟩
    | .one c input w => read (v :: rest) (i + 1) c input w
    | .two w => read rest (i + 2) c true w

/-- What is read behind a token. -/
def resume (c : Ptr) (i : ℕ) (rest : List Bytes) : Step β σ → Reading β σ
  | .stop err w => ⟨some err, c, w⟩
  | .one c input w => read x e push rest (i + 1) c input w
  | .two w => read x e push rest.tail (i + 2) c true w

theorem read_cons (t : Bytes) (rest : List Bytes) (i : ℕ) (c : Ptr) (input : Bool)
    (w : World β σ) : read x e push (t :: rest) i c input w =
      resume x e push c i rest (readToken x e push c i input t rest.head? w) := by
  cases rest with
  | nil =>
    rw [read, List.head?_nil]
    cases readToken x e push c i input t none w <;> rfl
  | cons v rest =>
    rw [read, List.head?_cons]
    cases readToken x e push c i input t (some v) w <;> rfl

end

/-- A step reads one token or two. -/
@[elab_as_elim]
theorem tokens_induction {P : List Bytes → Prop} (nil : P [])
    (cons : ∀ t rest, P rest → P rest.tail → P (t :: rest)) (toks : List Bytes) : P toks := by
  have hboth : P toks ∧ P toks.tail := by
    induction toks with
    | nil => exact ⟨nil, nil⟩
    | cons t rest ih => exact ⟨cons t rest ih.1 ih.2, ih.1⟩
  exact hboth.1

end LibeventHttpServe.Flags
