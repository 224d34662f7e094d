import LibeventHttpServe.Balancer.Model
import LibeventHttpServe.Flags.Handlers
import LibeventHttpServe.Flags.Order
import LibeventHttpServe.Flags.Simulation
import LibeventHttpServe.Shared.Address

/-!
# The example program (example.c)

The command and the flags that `main` makes, with their `verify` functions, and the
run of the arguments over the variable `flags` of `main`.
-/

namespace LibeventHttpServe.Example

open LibeventHttpServe.Lib LibeventHttpServe.Flags LibeventHttpServe.Shared
open LibeventHttpServe.Balancer (LOAD_BALANCE_ROUND LOAD_BALANCE_RANDOM)

/-- `root_flags_t`. -/
structure RootFlags where
  sync : UInt8
  addr : Bytes
  balance : UInt8
  worker : UInt8
  deriving DecidableEq, Repr

/-- `flags` in `main`, before the arguments are parsed. -/
def rootFlags : RootFlags := ⟨0, text ":9000", LOAD_BALANCE_ROUND, 8⟩

def verifyAddr (inetPton : InetPton) (s : Bytes) : ℤ :=
  match parseSharedAddress inetPton s s.length none with
  | .ok (err, _) => err
  | .error _ => -1

def verifyBalance (v : UInt8) : ℤ :=
  if v = LOAD_BALANCE_ROUND ∨ v = LOAD_BALANCE_RANDOM then 0 else -1

def verifyWorker (v : UInt8) : ℤ := if v < 2 then -1 else 0

/-! ### The addresses -/

-- the offsets of `root_flags_t` and its fields
def flagsAt : Ptr := 0
def syncAt : Ptr := 0
def addrAt : Ptr := 8
def balanceAt : Ptr := 16
def workerAt : Ptr := 17

def rootHandler : Fn := 1
def verifyAddrFn : Fn := 2
def verifyBalanceFn : Fn := 3
def verifyWorkerFn : Fn := 4

def RootFlags.storeUint8 (m : RootFlags) (p : Ptr) (v : UInt8) : RootFlags :=
  if p = syncAt then { m with sync := v }
  else if p = balanceAt then { m with balance := v }
  else if p = workerAt then { m with worker := v }
  else m

def RootFlags.storeString (m : RootFlags) (p : Ptr) (s : Bytes) : RootFlags :=
  if p = addrAt then { m with addr := s } else m

def verifyUint8 (f : Fn) : Option (UInt8 → ℤ) :=
  if f = verifyBalanceFn then some verifyBalance
  else if f = verifyWorkerFn then some verifyWorker
  else none

def verifyString (inetPton : InetPton) (f : Fn) : Option (Bytes → ℤ) :=
  if f = verifyAddrFn then some (verifyAddr inetPton) else none

/-- The store at the end of `set_flag`, or the error before it. -/
def stored {α : Type} (m : RootFlags) (store : α → RootFlags) :
    Checked (Except ℤ α) → Bool × RootFlags
  | .ok (.ok v) => (false, store v)
  | _ => (true, m)

/-- `flag->_handler->set_flag` for the types that `main` uses. -/
def setFlag (inetPton : InetPton) (m : RootFlags) (f : Flag) (s : Bytes) (_n : ℕ) :
    Bool × RootFlags :=
  match f.handler with
  | ⟨.bool, false⟩ => stored m (m.storeUint8 f.value)
      (handlerBoolSetFlag (f.verify.bind verifyUint8) s s.length)
  | ⟨.uint8, false⟩ => stored m (m.storeUint8 f.value)
      (handlerUint8SetFlag (f.verify.bind verifyUint8) s s.length)
  | ⟨.string, false⟩ => stored m (m.storeString f.value)
      (handlerStringSetFlag (f.verify.bind (verifyString inetPton)) s)
  | _ => (true, m)

/-! ### main -/

/-- `flag->verify = fn`. -/
def setVerify (f : Ptr) (fn : Fn) (s : Registry) : Registry :=
  match s.flags.lookup f with
  | none => s
  | some n => { s with flags := s.flags.insert f { n with verify := some fn } }

-- a code of flags.h that nothing returns
def errorInvalidFlagShort : ℕ := 5

/-- `ppp_c_flags_error`. -/
def flagsError (err : ℕ) : Bytes :=
  if err = errorDuplicateFlag then text "duplicate flag name"
  else if err = errorDuplicateFlagShort then text "duplicate flag short name"
  else if err = errorDuplicateCommand then text "duplicate subcommand name"
  else if err = errorInvalidFlag then text "invalid flag name"
  else if err = errorInvalidFlagShort then text "invalid flag short name"
  else if err = errorInvalidFlagHelp then text "unable to use reserved flag --help"
  else if err = errorInvalidFlagShortHelp then text "unable to use reserved short flag -h"
  else if err = errorInvalidFlagType then text "invalid flag type"
  else if err = errorInvalidCommand then text "invalid command name"
  else if err = errorMallocFlag then text "malloc flag fial"
  else if err = errorMallocCommand then text "malloc command fial"
  else if err = errorMallocArgv then text "malloc argv fail"
  else if err = errorInvalidArgument then text "invalid argument"
  else if err = errorUnknowFlag then text "unknow flag"
  else if err = errorUnknowShortFlag then text "unknow short flag"
  else text "unknow error"

/-- The flags that `main` adds, each with the `verify` that it sets behind. -/
def mainFlags : List (FlagArgs × Option Fn) :=
  [(⟨text "sync", ascii 's', some (text "Use synchronized listener in separate thread"),
      syncAt, 1⟩, none),
    (⟨text "addr", ascii 'a',
      some (text "HTTP listen address, [host]:port, exmaple [::]:80 127.0.0.1:80."),
      addrAt, 12⟩, some verifyAddrFn),
    (⟨text "balance", ascii 'b', some (text "Load balancing algorithm. 1(ROUND) 2(RANDOM)"),
      balanceAt, 6⟩, some verifyBalanceFn),
    (⟨text "worker", ascii 'w', some (text "Number of worker threads"), workerAt, 6⟩,
      some verifyWorkerFn)]

/-- Where `main` is when the command is built or given up. -/
inductive Start where
  | noCommand (err : ℕ)
  /- `goto FAIL` behind the line that is printed -/
  | fail (cmd : Ptr) (err : ℕ) (line : Bytes) (s : Registry)
  | parse (cmd : Ptr) (s : Registry)

def createFails (err : ℕ) : Bytes := text "Create command fail: " ++ flagsError err ++ text "\n"

/-- What `PPP_C_FLAGS_ADD_FLAG` prints before it jumps. -/
def addFails (a : FlagArgs) (err : ℕ) : Bytes :=
  text "Add flags fail: --" ++ a.name ++ text " " ++ flagsError err ++ text "\n"

/-- The flags of `main`, from the request `i` of `malloc` on. -/
def addFlags (cmd : Ptr) (malloc : ℕ → Option Ptr) :
    ℕ → List (FlagArgs × Option Fn) → Registry → Option Start
  | _, [], s => some (.parse cmd s)
  | i, (a, verify) :: l, s => do
    let (r, s) ← addFlag cmd (some a.name) a.shortName a.describe a.value a.valueType (malloc i) s
    match r.result with
    | none => some (.fail cmd r.err (addFails a r.err) s)
    | some flag => addFlags cmd malloc (i + 1) l (verify.elim s fun fn => setVerify flag fn s)

def start (name : Bytes) (malloc : ℕ → Option Ptr) : Option Start := do
  let (r, s) ← commandCreate name (some (text "libevent_http_serve example"))
    (some rootHandler) flagsAt (malloc 0) ⟨∅, ∅⟩
  match r.result with
  | none => some (.noCommand r.err)
  | some cmd => addFlags cmd malloc 1 mainFlags s

/-- The setup of `main` when it gets to `ppp_c_flags_execute`. -/
def mainTree (name : Bytes) (malloc : ℕ → Option Ptr) : Option (Ptr × Registry) :=
  match start name malloc with
  | some (.parse cmd s) => some (cmd, s)
  | _ => none

/-- What `ppp_c_flags_execute` runs in. -/
def mainEnv (inetPton : InetPton) (malloc : ℕ → ℕ → Bool)
    (handler : Fn → Ptr → ℕ → Option (List (Option Bytes)) → RootFlags → ℤ) :
    Env RootFlags where
  setFlag := setFlag inetPton
  malloc := malloc
  handler := handler

end LibeventHttpServe.Example
