import LibeventHttpServe.Example.Exit
import LibeventHttpServe.Server.Shutdown

/-!
# The status of the process

The whole process is `main` up to its call of `root_handler`, the server on the values of
that call, which may never return, and `main` behind it. What the exit code says about the
server that was started.
-/

namespace LibeventHttpServe.Server
open Lib Shared Example

/-! ### The process -/

inductive Program where
  | starting
  /- undefined behaviour, which is not followed -/
  | overrun
  /- in `root_handler`, with `rest` to be done behind it -/
  | handling (s : Process) (rest : ℤ → Exit)
  | exited (e : Exit)

inductive ProgramAction where
  /- `main` up to `root_handler`, in at most `fuel` rounds of `ppp_c_flags_execute`;
  `garbage` is what the variable `addr` of `root_handler` holds -/
  | parse (fuel : ℕ) (garbage : SharedAddress)
  | server (a : ServerAction)
  /- `root_handler` has returned, and `main` returns -/
  | exit

/-- Where `main` goes from what it has reached. -/
def enter (inetPton : InetPton) (garbage : SharedAddress) : Reached → Program
  | .overrun => .overrun
  | .exits e => .exited e
  | .calls _ _ _ m rest => .handling (Process.initial inetPton m garbage) rest

def Program.step (h : Host) (d : Flags.PrintData) (argv0 : Flags.Bytes) (args : List Flags.Bytes)
    (p : Program) (a : ProgramAction) : Option Program :=
  match p, a with
  | .starting, .parse fuel garbage =>
    (main h d argv0 args fuel).map (enter h.inetPton garbage)
  | .handling s rest, .server a => (s.step a).map fun s => .handling s rest
  | .handling s rest, .exit =>
    match s.pc with
    | .returned err => some (.exited (rest err))
    | _ => none
  | _, _ => none

section
variable {h : Host} {d : Flags.PrintData} {argv0 : Flags.Bytes} {args : List Flags.Bytes}

end

/-! ### The codes -/

section
variable {h : Host} (hinj : ∀ i j p, h.nodes i = some p → h.nodes j = some p → i = j)
  {d : Flags.PrintData} {argv0 : Flags.Bytes} {args : List Flags.Bytes}

include hinj

end

end LibeventHttpServe.Server
