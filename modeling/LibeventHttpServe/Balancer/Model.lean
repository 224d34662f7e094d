import Mathlib.Logic.Function.Basic
import LibeventHttpServe.Lib.Chain
import LibeventHttpServe.Lib.Reach

/-!
# The load balancer and its worker queues (load_balancer.c)

One dispatcher thread calls `load_balancer_serve` (`load_balancer.c:174-218`)
while every worker thread runs `worker_on_ev` (`load_balancer.c:14-39`) from
its event loop. The queue of a worker is the singly linked chain of
`struct http_connection` records that starts at `worker->next`. A critical
section under `worker->mutex` is one step, and so is each stretch of code
between two of them.

The environment's choices are carried by the actions: the accepted socket, the
value of `rand()`, the address returned by `malloc` or its failure, and the
interleaving of the threads.
-/

namespace LibeventHttpServe.Balancer
open Lib

abbrev Ptr := ℕ

/-- A connection as it is accepted. The serial number counts the earlier calls
of `load_balancer_serve`; it is a ghost and is read by no code. -/
structure Conn where
  serial : ℕ
  fd : ℤ
  addrLen : UInt32
  addr : List UInt8
  deriving DecidableEq, Repr

/-- `struct http_connection` with the `addr_len` address bytes stored behind it
(`load_balancer.h:17-22`). -/
structure HttpConnection where
  next : Option Ptr
  fd : ℤ
  addrLen : UInt32
  addr : List UInt8
  serial : ℕ
  deriving DecidableEq, Repr

def HttpConnection.conn (r : HttpConnection) : Conn := ⟨r.serial, r.fd, r.addrLen, r.addr⟩

abbrev Records := Heap Ptr HttpConnection

inductive WorkerPc where
  /- in `event_base_dispatch`, no callback running -/
  | loop
  /- in `worker_on_ev`, about to lock and test `worker->next` -/
  | test
  /- a record is popped and the mutex released; `evhttp_serve` not yet called -/
  | holding (conn : Ptr)
  /- `evhttp_serve` returned, the record not yet freed -/
  | served (conn : Ptr)
  /- the queue was found empty and the mutex released -/
  | leaving
  deriving DecidableEq, Repr

/-- The record a worker owns between its pop and its `free`. -/
def WorkerPc.record : WorkerPc → Option Ptr
  | .holding p => some p
  | .served p => some p
  | _ => none

/-- The part of `worker_t` the hand-over uses, with the active mark of
`worker->ev` and the calls of `evhttp_serve` made so far. -/
structure Worker where
  next : Option Ptr
  pc : WorkerPc
  active : Bool
  served : List Conn

inductive DispatcherPc where
  | idle
  /- the record is filled in, the mutex not yet taken -/
  | filled (worker : ℕ) (conn : Ptr)
  /- the record is pushed, `event_active` not yet called -/
  | pushed (worker : ℕ)
  /- `load_balancer_destroy` returned -/
  | destroyed
  deriving DecidableEq, Repr

/-- The whole process. `crashed` is set by an access through a null or dangling
record pointer; `accepted` and `log` are the histories of the `serve` calls and
of the pushes. -/
structure State where
  balance : UInt8
  worker : UInt8
  i : UInt8
  workers : ℕ → Worker
  heap : Records
  dispatcher : DispatcherPc
  crashed : Bool
  accepted : List Conn
  log : List (ℕ × Conn)

def LOAD_BALANCE_ROUND : UInt8 := 1
def LOAD_BALANCE_RANDOM : UInt8 := 2

def State.setWorker (s : State) (w : ℕ) (x : Worker) : State :=
  { s with workers := Function.update s.workers w x }

/-! ### The dispatcher -/

/-- The worker chosen for the next connection and the new `_i`
(`load_balancer.c:177-190`). Both increments are on `uint8_t`. -/
def select (s : State) (rand : ℕ) : ℕ × UInt8 :=
  if s.balance = LOAD_BALANCE_ROUND then
    (s.i.toNat, if s.i + 1 = s.worker then 0 else s.i + 1)
  else (rand % s.worker.toNat, s.i)

/-- The connection of the call `load_balancer_serve(s, addr, addr_len)`. -/
def newConn (s : State) (fd : ℤ) (addr : List UInt8) (addrLen : UInt32) : Conn :=
  ⟨s.accepted.length, fd, addrLen, addr.take addrLen.toNat⟩

def Conn.record (c : Conn) : HttpConnection := ⟨none, c.fd, c.addrLen, c.addr, c.serial⟩

/-- `load_balancer_serve` up to the lock (`load_balancer.c:174-198`). The
result of `malloc` is used unchecked: a failure is written through at once. -/
def serve (s : State) (fd : ℤ) (addr : List UInt8) (addrLen : UInt32) (rand : ℕ)
    (malloc : Option Ptr) : Option State :=
  let (w, i) := select s rand
  let c := newConn s fd addr addrLen
  match malloc with
  | none => some { s with i := i, accepted := s.accepted ++ [c], crashed := true }
  | some p =>
    if s.heap.lookup p = none then
      some { s with
        i := i
        accepted := s.accepted ++ [c]
        heap := s.heap.insert p c.record
        dispatcher := .filled w p }
    else none

/-- Push to the back under the lock (`load_balancer.c:200-215`): walk to the
record without successor and link the new one behind it. -/
def push (s : State) (w : ℕ) (p : Ptr) : State :=
  let done (next : Option Ptr) (heap : Records) : State :=
    { s.setWorker w { s.workers w with next := next } with
      heap := heap
      dispatcher := .pushed w
      log := s.log ++ ((heap.lookup p).map fun r => (w, r.conn)).toList }
  match (s.workers w).next with
  | none => done (some p) s.heap
  | some q =>
    match Chain.scanTail HttpConnection.next (fun _ => (none : Option Empty)) s.heap
        s.heap.keys.length q with
    | some (.ok t) =>
      match s.heap.lookup t with
      | some r => done (some q) (s.heap.insert t { r with next := some p })
      | none => { s with crashed := true }
    | _ => { s with crashed := true }

/-- `event_active(worker->ev, 0, 0)` (`load_balancer.c:217`). -/
def activate (s : State) (w : ℕ) : State :=
  { s.setWorker w { s.workers w with active := true } with dispatcher := .idle }

/-! ### The workers -/

/-- The event loop takes the active mark away and calls `worker_on_ev`. -/
def wake (s : State) (w : ℕ) : State :=
  s.setWorker w { s.workers w with active := false, pc := .test }

/-- The critical section of `worker_on_ev` (`load_balancer.c:20-28`). -/
def testNext (s : State) (w : ℕ) : State :=
  match (s.workers w).next with
  | none => s.setWorker w { s.workers w with pc := .leaving }
  | some p =>
    match s.heap.lookup p with
    | none => { s with crashed := true }
    | some r => s.setWorker w { s.workers w with next := r.next, pc := .holding p }

/-- `evhttp_serve` on the popped record (`load_balancer.c:30-35`). -/
def evhttpServe (s : State) (w : ℕ) (p : Ptr) : State :=
  match s.heap.lookup p with
  | none => { s with crashed := true }
  | some r => s.setWorker w
      { s.workers w with pc := .served p, served := (s.workers w).served ++ [r.conn] }

/-- `free(next)` (`load_balancer.c:37`). -/
def freeNext (s : State) (w : ℕ) (p : Ptr) : State :=
  match s.heap.lookup p with
  | none => { s with crashed := true }
  | some _ => { s.setWorker w { s.workers w with pc := .test } with heap := s.heap.erase p }

/-! ### Steps -/

inductive Action where
  | serve (fd : ℤ) (addr : List UInt8) (addrLen : UInt32) (rand : ℕ) (malloc : Option Ptr)
  | push
  | activate
  | destroy
  /- the one-year timeout of `worker->ev` fires (`load_balancer.c:73-78`) -/
  | timeout (w : ℕ)
  | wake (w : ℕ)
  /- the next stretch of `worker_on_ev` -/
  | advance (w : ℕ)

def dispatcherStep (s : State) : Action → Option State
  | .serve fd addr addrLen rand malloc =>
    if s.dispatcher = .idle then serve s fd addr addrLen rand malloc else none
  | .push =>
    match s.dispatcher with
    | .filled w p => some (push s w p)
    | _ => none
  | .activate =>
    match s.dispatcher with
    | .pushed w => some (activate s w)
    | _ => none
  | .destroy => if s.dispatcher = .idle then some { s with dispatcher := .destroyed } else none
  | _ => none

def workerStep (s : State) (w : ℕ) : Action → Option State
  | .timeout _ =>
    if (s.workers w).pc = .loop then
      some (s.setWorker w { s.workers w with active := true })
    else none
  | .wake _ =>
    if (s.workers w).pc = .loop ∧ (s.workers w).active then some (wake s w) else none
  | .advance _ =>
    match (s.workers w).pc with
    | .loop => none
    | .test => some (testNext s w)
    | .holding p => some (evhttpServe s w p)
    | .served p => some (freeNext s w p)
    | .leaving => some (s.setWorker w { s.workers w with pc := .loop })
  | _ => none

/-- No thread steps after a crash, nor after `load_balancer_destroy` has taken
the workers away. -/
def step (s : State) (a : Action) : Option State :=
  if s.crashed ∨ s.dispatcher = .destroyed then none
  else match a with
    | .timeout w | .wake w | .advance w =>
      if w < s.worker.toNat then workerStep s w a else none
    | _ => dispatcherStep s a

/-- After a successful `load_balancer_init`. -/
def initial (balance worker : UInt8) : State where
  balance := balance
  worker := worker
  i := 0
  workers _ := ⟨none, .loop, false, []⟩
  heap := ∅
  dispatcher := .idle
  crashed := false
  accepted := []
  log := []

def system (balance worker : UInt8) : System State Action where
  init s := s = initial balance worker
  step := step

/-! ### What is observed of a state -/

/-- The queue of a worker from head to tail; `none` if `worker->next` does not
start a proper chain of live records. -/
def queue (s : State) (w : ℕ) : Option (List Conn) :=
  (Chain.cells HttpConnection.next s.heap s.heap.keys.length (s.workers w).next).map
    (List.map fun c => c.2.conn)

/-- The connection a worker has popped and not yet passed to `evhttp_serve`. -/
def inHand (s : State) (w : ℕ) : List Conn :=
  match (s.workers w).pc with
  | .holding p => ((s.heap.lookup p).map HttpConnection.conn).toList
  | _ => []

def pushed (s : State) (w : ℕ) : List Conn :=
  (s.log.filter fun e => e.1 = w).map Prod.snd

/-- The connection of a `serve` call that has not pushed it yet. -/
def pending (s : State) : List Conn :=
  match s.dispatcher with
  | .filled _ p => ((s.heap.lookup p).map HttpConnection.conn).toList
  | _ => []

end LibeventHttpServe.Balancer
