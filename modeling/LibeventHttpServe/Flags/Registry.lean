import LibeventHttpServe.Flags.Parse
import LibeventHttpServe.Lib.Chain
import LibeventHttpServe.Lib.Reach

/-!
# Commands and flags (flags.h:47-175, flags.c:1671-2196)

The heap of commands and the heap of flags with the functions that add to them.
A call takes the address `malloc` would return. A call on an address that is not
live, or with a `malloc` result that is live already, is no call (`none`).
-/

namespace LibeventHttpServe.Flags

open LibeventHttpServe.Lib

abbrev Ptr := ℕ

/-- The address of a callback. -/
abbrev Fn := ℕ

inductive ElemType where
  | bool
  | int8
  | int16
  | int32
  | int64
  | uint8
  | uint16
  | uint32
  | uint64
  | float32
  | float64
  | string
  deriving DecidableEq, Repr

/-- The values of the `PPP_C_FLAGS_TYPE_` constants that are no arrays. -/
def ElemType.ofTag : ℤ → Option ElemType
  | 1 => some .bool
  | 2 => some .int8
  | 3 => some .int16
  | 4 => some .int32
  | 5 => some .int64
  | 6 => some .uint8
  | 7 => some .uint16
  | 8 => some .uint32
  | 9 => some .uint64
  | 10 => some .float32
  | 11 => some .float64
  | 12 => some .string
  | _ => none

structure FlagType where
  elem : ElemType
  array : Bool
  deriving DecidableEq, Repr

/-- The constants for the arrays are 30 above those of their elements. -/
def FlagType.ofTag (tag : ℤ) : Option FlagType :=
  match ElemType.ofTag tag with
  | some e => some ⟨e, false⟩
  | none => (ElemType.ofTag (tag - 30)).map (⟨·, true⟩)

structure CommandData where
  name : Bytes
  describe : Option Bytes
  handler : Option Fn
  userdata : Ptr
  deriving DecidableEq, Repr

/-- `ppp_c_flags_command_t`. -/
structure CommandNode extends CommandData where
  parent : Option Ptr
  next : Option Ptr
  child : Option Ptr
  flag : Option Ptr
  deriving DecidableEq, Repr

structure FlagData where
  value : Ptr
  setValue : Bool
  type : FlagType
  name : Bytes
  shortName : UInt8
  describe : Option Bytes
  /- the type whose table of handlers `_handler` points to -/
  handler : FlagType
  verify : Option Fn
  deriving DecidableEq, Repr

/-- `ppp_c_flags_flag_t`, without `_default` and `print`, which only the printing
of the usage reads. -/
structure FlagNode extends FlagData where
  next : Option Ptr
  deriving DecidableEq, Repr

structure Registry where
  commands : Heap Ptr CommandNode
  flags : Heap Ptr FlagNode

/-- The pointer a call returns and what it stores in `*err`. -/
structure Outcome where
  result : Option Ptr
  err : ℕ
  deriving DecidableEq, Repr

def errorDuplicateFlag : ℕ := 1
def errorDuplicateFlagShort : ℕ := 2
def errorDuplicateCommand : ℕ := 3
def errorInvalidFlag : ℕ := 4
def errorInvalidFlagHelp : ℕ := 6
def errorInvalidFlagShortHelp : ℕ := 7
def errorInvalidFlagType : ℕ := 8
def errorInvalidCommand : ℕ := 9
def errorMallocFlag : ℕ := 10
def errorMallocCommand : ℕ := 11

-- double quote, single quote, CR, LF
def badBytes : Bytes := [34, 39, 13, 10]

/-- `ppp_c_flags_check_flag`; a name is the `name_len` bytes behind the pointer. -/
def checkFlag (name : Option Bytes) : Option Bytes :=
  match name with
  | none => none
  | some s => if s = [] then none else if s.any badBytes.contains then none else some s

/-- `ppp_c_flags_check_command`. -/
def checkCommand (name : Option Bytes) : Option Bytes :=
  match name with
  | none => none
  | some s =>
    if s = [] then none
    else if s.head? = some (ascii '-') then none
    else if s.any badBytes.contains then none
    else some s

/-- `ppp_c_flags_command_create_with_len`. -/
def commandCreateWithLen (name : Option Bytes) (describe : Option Bytes) (handler : Option Fn)
    (userdata : Ptr) (malloc : Option Ptr) (s : Registry) : Option (Outcome × Registry) :=
  match checkCommand name with
  | none => some (⟨none, errorInvalidCommand⟩, s)
  | some name =>
    match malloc with
    | none => some (⟨none, errorMallocCommand⟩, s)
    | some c =>
      if c ∈ s.commands then none
      else
        let node := ⟨⟨name, describe, handler, userdata⟩, none, none, none, none⟩
        some (⟨some c, 0⟩, { s with commands := s.commands.insert c node })

/-- `ppp_c_flags_command_create`; `strlen(name)` needs a name. -/
def commandCreate (name : Bytes) (describe : Option Bytes) (handler : Option Fn)
    (userdata : Ptr) (malloc : Option Ptr) (s : Registry) : Option (Outcome × Registry) :=
  commandCreateWithLen (some (cString name)) describe handler userdata malloc s

def sameCommand (name : Bytes) (n : CommandNode) : Option ℕ :=
  if name = n.name then some errorDuplicateCommand else none

/-- `ppp_c_flags_add_command_with_len`. -/
def addCommandWithLen (parent : Ptr) (name : Option Bytes) (describe : Option Bytes)
    (handler : Option Fn) (userdata : Ptr) (malloc : Option Ptr) (s : Registry) :
    Option (Outcome × Registry) :=
  match checkCommand name with
  | none => some (⟨none, errorInvalidCommand⟩, s)
  | some name =>
    match s.commands.lookup parent with
    | none => none
    | some n =>
      match Chain.back CommandNode.next (sameCommand name) s.commands n.child with
      | none => none
      | some (.error e) => some (⟨none, e⟩, s)
      | some (.ok back) =>
        match malloc with
        | none => some (⟨none, errorMallocCommand⟩, s)
        | some c =>
          if c ∈ s.commands then none
          else
            let node := ⟨⟨name, describe, handler, userdata⟩, some parent, none, none, none⟩
            let commands := s.commands.insert c node
            match back with
            | none => some (⟨some c, 0⟩,
                { s with commands := commands.insert parent { n with child := some c } })
            | some t =>
              match s.commands.lookup t with
              | none => none
              | some b => some (⟨some c, 0⟩,
                  { s with commands := commands.insert t { b with next := some c } })

/-- `ppp_c_flags_add_command`. -/
def addCommand (parent : Ptr) (name : Option Bytes) (describe : Option Bytes)
    (handler : Option Fn) (userdata : Ptr) (malloc : Option Ptr) (s : Registry) :
    Option (Outcome × Registry) :=
  match name with
  | none => some (⟨none, errorInvalidCommand⟩, s)
  | some name =>
    if cString name = [] then some (⟨none, errorInvalidCommand⟩, s)
    else addCommandWithLen parent (some (cString name)) describe handler userdata malloc s

def sameFlag (name : Bytes) (shortName : UInt8) (f : FlagNode) : Option ℕ :=
  if name = f.name then some errorDuplicateFlag
  else if shortName ≠ 0 ∧ shortName = f.shortName then some errorDuplicateFlagShort
  else none

/-- `ppp_c_flags_add_flag_with_len`. -/
def addFlagWithLen (command : Ptr) (name : Option Bytes) (shortName : UInt8)
    (describe : Option Bytes) (value : Ptr) (valueType : ℤ) (malloc : Option Ptr)
    (s : Registry) : Option (Outcome × Registry) :=
  match checkFlag name with
  | none => some (⟨none, errorInvalidFlag⟩, s)
  | some name =>
    if name = text "help" then some (⟨none, errorInvalidFlagHelp⟩, s)
    else if shortName = ascii 'h' then some (⟨none, errorInvalidFlagShortHelp⟩, s)
    else
      match FlagType.ofTag valueType with
      | none => some (⟨none, errorInvalidFlagType⟩, s)
      | some type =>
        match s.commands.lookup command with
        | none => none
        | some n =>
          match Chain.back FlagNode.next (sameFlag name shortName) s.flags n.flag with
          | none => none
          | some (.error e) => some (⟨none, e⟩, s)
          | some (.ok back) =>
            match malloc with
            | none => some (⟨none, errorMallocFlag⟩, s)
            | some f =>
              if f ∈ s.flags then none
              else
                let node := ⟨⟨value, false, type, name, shortName, describe, type, none⟩, none⟩
                let flags := s.flags.insert f node
                match back with
                | none => some (⟨some f, 0⟩,
                    ⟨s.commands.insert command { n with flag := some f }, flags⟩)
                | some t =>
                  match s.flags.lookup t with
                  | none => none
                  | some b => some (⟨some f, 0⟩,
                      { s with flags := flags.insert t { b with next := some f } })

/-- `ppp_c_flags_add_flag`. -/
def addFlag (command : Ptr) (name : Option Bytes) (shortName : UInt8)
    (describe : Option Bytes) (value : Ptr) (valueType : ℤ) (malloc : Option Ptr)
    (s : Registry) : Option (Outcome × Registry) :=
  match name with
  | none => some (⟨none, errorInvalidFlag⟩, s)
  | some name =>
    if cString name = [] then some (⟨none, errorInvalidFlag⟩, s)
    else addFlagWithLen command (some (cString name)) shortName describe value valueType malloc s

inductive Call where
  | commandCreateWithLen (name describe : Option Bytes) (handler : Option Fn) (userdata : Ptr)
  | commandCreate (name : Bytes) (describe : Option Bytes) (handler : Option Fn) (userdata : Ptr)
  | addCommandWithLen (parent : Ptr) (name describe : Option Bytes) (handler : Option Fn)
      (userdata : Ptr)
  | addCommand (parent : Ptr) (name describe : Option Bytes) (handler : Option Fn)
      (userdata : Ptr)
  | addFlagWithLen (command : Ptr) (name : Option Bytes) (shortName : UInt8)
      (describe : Option Bytes) (value : Ptr) (valueType : ℤ)
  | addFlag (command : Ptr) (name : Option Bytes) (shortName : UInt8)
      (describe : Option Bytes) (value : Ptr) (valueType : ℤ)

def Call.run : Call → Option Ptr → Registry → Option (Outcome × Registry)
  | .commandCreateWithLen n d h u => Flags.commandCreateWithLen n d h u
  | .commandCreate n d h u => Flags.commandCreate n d h u
  | .addCommandWithLen p n d h u => Flags.addCommandWithLen p n d h u
  | .addCommand p n d h u => Flags.addCommand p n d h u
  | .addFlagWithLen c n k d v t => Flags.addFlagWithLen c n k d v t
  | .addFlag c n k d v t => Flags.addFlag c n k d v t

/-- The registries that calls build, each with what `malloc` returns to it. -/
def registrySystem : System Registry (Call × Option Ptr) where
  init := fun s => s = ⟨∅, ∅⟩
  step := fun s a => (a.1.run a.2 s).map Prod.snd

end LibeventHttpServe.Flags
