import LibeventHttpServe.Balancer.Delivery
import LibeventHttpServe.Balancer.Lifetime
import LibeventHttpServe.Example.Configuration
import LibeventHttpServe.Flags.Printf
import LibeventHttpServe.Server.Listener

/-!
# The server from `root_handler` on (example.c:40-97, listener.c)

The main thread runs `root_handler`: it sets the load balancer up, then the
listener, and then hands every accepted socket to `load_balancer_serve`. The
worker threads run from the moment they are created. The state puts together the
threads and objects of `Life` and the queues of the balancer; the rest is what
the main thread holds on its stack.

A step of a worker after its objects were freed is undefined behaviour and is
not followed; that it cannot come to that is a matter of `DispatchSafe`.
-/

namespace LibeventHttpServe.Server
open Lib Shared Example
open Balancer (Ptr Life State Op ThreadPc)

inductive MainPc where
  /- before `evthread_use_pthreads` -/
  | start
  /- before `load_balancer_init` -/
  | balancer
  /- inside `load_balancer_init`, which will return 0 if `ok` -/
  | initBalancer (ok : Bool)
  /- before the initialisation of the listener -/
  | listener
  /- in `sync_listener_serve` or `async_listener_serve` -/
  | serving
  /- at the label `END`, inside `load_balancer_destroy` -/
  | ending (err : ℤ)
  | returned (err : ℤ)
  deriving DecidableEq, Repr

/-- The process. `ops` are the operations of the balancer's set-up and tear-down
performed so far, `calls` those of the listener. `ids` are the fields `id` of the
workers, and `unnamed` is a worker whose initialisation has returned and whose
`id` is not yet assigned (`load_balancer.c:158`). -/
structure Process where
  flags : RootFlags
  addr : SharedAddress
  pc : MainPc
  life : Life
  ops : List Op
  ids : ℕ → ℕ
  unnamed : Option ℕ
  sync : SyncListener
  async : AsyncListener
  calls : List NetCall
  balancer : State

/-- The local variable `addr` after `parse_shared_address`, whose result is not
looked at; `garbage` is what it holds before. -/
def listenAddress (inetPton : InetPton) (m : RootFlags) (garbage : SharedAddress) :
    SharedAddress :=
  match parseSharedAddress inetPton m.addr m.addr.length (some garbage) with
  | .ok (_, some addr) => addr
  | _ => garbage

/-- `root_handler` is called with the values `m`. -/
def Process.initial (inetPton : InetPton) (m : RootFlags) (garbage : SharedAddress) : Process where
  flags := m
  addr := listenAddress inetPton m garbage
  pc := .start
  life := Balancer.lifeInitial m.worker.toNat
  ops := []
  ids := fun _ => 0
  unnamed := none
  sync := ⟨0, false, false⟩
  async := ⟨false, false⟩
  calls := []
  balancer := Balancer.initial m.balance m.worker

inductive ServerAction where
  /- `evthread_use_pthreads` returns 0 if `ok` -/
  | evthread (ok : Bool)
  | initBalancer (ok : Balancer.Call → Bool)
  /- the main thread's next operation inside `load_balancer_init` or
  `load_balancer_destroy`, or the return from it -/
  | main
  | initListener (net : Network)
  /- `accept` returns `fd`, or the listener's callback is called with it -/
  | accept (fd : ℤ) (addr : List UInt8) (addrLen : UInt32) (rand : ℕ) (malloc : Option Ptr)
  | push
  | activate
  /- `sync_listener_serve` or `event_base_dispatch` returns -/
  | listenerReturns
  | enter (w : ℕ)
  | timeout (w : ℕ)
  | wake (w : ℕ)
  | advance (w : ℕ)

/-- A step of the load balancer's queues. -/
def Process.queueStep (s : Process) (a : Balancer.Action) : Option Process :=
  (Balancer.step s.balancer a).map fun b => { s with balancer := b }

/-- The `goto END`, or the arrival there: `load_balancer_destroy` is called. -/
def Process.toEnd (s : Process) (err : ℤ) : Option Process := do
  let life ← Balancer.lifeStep s.life .destroy
  let balancer ← Balancer.step s.balancer .destroy
  pure { s with pc := .ending err, life := life, balancer := balancer }

/-- The next operation of a balancer call. After `createThread` the initialisation
of that worker is over. -/
def Process.perform (s : Process) (op : Op) (rest : List Op) : Process :=
  { s with
    life := s.life.perform op rest
    ops := s.ops ++ [op]
    unnamed := match op with
      | .createThread w => some w
      | _ => none }

def Process.mainStep (s : Process) : Option Process :=
  match s.pc, s.unnamed, s.life.todo with
  | .initBalancer _, some w, _ =>
    some { s with ids := Function.update s.ids w w, unnamed := none }
  | .initBalancer _, none, op :: rest => some (s.perform op rest)
  | .initBalancer ok, none, [] => some { s with pc := if ok then .listener else .returned (-1) }
  | .ending _, _, op :: rest => some (s.perform op rest)
  | .ending err, _, [] => some { s with pc := .returned err }
  | _, _, _ => none

/-- The part of `root_handler` that depends on `flags->sync`, up to its `serve`. -/
def Process.initListenerStep (s : Process) (net : Network) : Option Process :=
  if s.flags.sync ≠ 0 then
    match syncListenerInit net s.sync s.addr with
    | (calls, l, err) =>
      let s := { s with calls := s.calls ++ calls, sync := l }
      if err ≠ 0 then s.toEnd err else some { s with pc := .serving }
  else
    match asyncListenerInit net s.async s.addr with
    | (calls, l, err) =>
      let s := { s with calls := s.calls ++ calls, async := l }
      if err ≠ 0 then s.toEnd err
      else some { s with pc := .serving, calls := s.calls ++ [.evconnlistenerEnable] }

/-- A failed `accept` is printed and tried again; libevent does not call
`evconnlistener_tcp_cb` for it. -/
def Process.acceptStep (s : Process) (fd : ℤ) (addr : List UInt8) (addrLen : UInt32) (rand : ℕ)
    (malloc : Option Ptr) : Option Process :=
  if fd = -1 then
    if s.flags.sync ≠ 0 ∧ s.sync.ok ∧ s.balancer.dispatcher = .idle then some s else none
  else if s.flags.sync ≠ 0 ∧ !s.sync.ok then none
  else s.queueStep (.serve fd addr addrLen rand malloc)

/-- The loop `while (l->ok)` ends only when `ok` is 0; when `event_base_dispatch`
returns is up to libevent. -/
def Process.listenerReturns (s : Process) : Option Process :=
  if s.flags.sync ≠ 0 ∧ s.sync.ok then none else s.toEnd 0

/-- A worker's event loop runs once its thread has entered it. -/
def Process.workerStep (s : Process) (w : ℕ) (a : Balancer.Action) : Option Process :=
  if s.life.thread w = .dispatching then s.queueStep a else none

def Process.step (s : Process) : ServerAction → Option Process
  | .evthread ok =>
    if s.pc = .start then some { s with pc := if ok then .balancer else .returned (-1) } else none
  | .initBalancer ok =>
    if s.pc = .balancer then
      (Balancer.lifeStep s.life (.init ok)).map fun life =>
        { s with
          life := life
          pc := .initBalancer
            (Balancer.loadBalancerInit ok { s.life.setup with ops := [] }).2 }
    else none
  | .main => s.mainStep
  | .initListener net => if s.pc = .listener then s.initListenerStep net else none
  | .accept fd addr addrLen rand malloc =>
    if s.pc = .serving then s.acceptStep fd addr addrLen rand malloc else none
  | .push => if s.pc = .serving then s.queueStep .push else none
  | .activate => if s.pc = .serving then s.queueStep .activate else none
  | .listenerReturns => if s.pc = .serving then s.listenerReturns else none
  | .enter w => (Balancer.lifeStep s.life (.enter w)).map fun life => { s with life := life }
  | .timeout w => s.workerStep w (.timeout w)
  | .wake w => s.workerStep w (.wake w)
  | .advance w => s.workerStep w (.advance w)

/-- The runs of `root_handler` on the values `m`. -/
def serverSystem (inetPton : InetPton) (m : RootFlags) : System Process ServerAction where
  init s := ∃ garbage, s = Process.initial inetPton m garbage
  step := Process.step

/-- `http_handler` of the worker with the field `id`: status, reason and body of the
reply. -/
def httpHandler (id : ℕ) : ℕ × Flags.Bytes × Flags.Bytes :=
  (200, Flags.text "Ok",
    Flags.text "serve by worker " ++ Flags.decimal id ++ Flags.text "\n")

end LibeventHttpServe.Server
