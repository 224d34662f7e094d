import Mathlib.Logic.Function.Basic
import Mathlib.Data.List.Basic

/-!
# Set-up and tear-down of the workers (load_balancer.c:46-173)

`load_balancer_init` and `load_balancer_destroy` as the list of operations the
main thread performs. An oracle says which of the calls that can fail succeed;
each of them is made at most once by one `load_balancer_init`.
-/

namespace LibeventHttpServe.Balancer

inductive Resource where
  /- the array `load_balancer->_workers` -/
  | workers
  /- `load_balancer->_mutex` -/
  | mutex
  | workerMutex (w : ℕ)
  | base (w : ℕ)
  | http (w : ℕ)
  | ev (w : ℕ)
  deriving DecidableEq, Repr

inductive Op where
  | acquire (r : Resource)
  | release (r : Resource)
  | addEvent (w : ℕ)
  | createThread (w : ℕ)
  deriving DecidableEq, Repr

inductive Call where
  | malloc
  | mutexInit
  | workerMutexInit (w : ℕ)
  | eventBaseNew (w : ℕ)
  | evhttpNew (w : ℕ)
  | eventNew (w : ℕ)
  | eventAdd (w : ℕ)
  | pthreadCreate (w : ℕ)
  deriving DecidableEq, Repr

/-- Which pointers of a `worker_t` are not null. -/
structure WorkerPtrs where
  base : Bool
  http : Bool
  ev : Bool
  deriving DecidableEq, Repr

/-- The main thread's view of a `load_balancer_t`, with the operations performed
so far. `allocated` says that `_workers` is not null. -/
structure Setup where
  worker : ℕ
  allocated : Bool
  ptrs : ℕ → WorkerPtrs
  ops : List Op

def Setup.emit (s : Setup) (op : Op) : Setup := { s with ops := s.ops ++ [op] }

def Setup.setPtrs (s : Setup) (w : ℕ) (x : WorkerPtrs) : Setup :=
  { s with ptrs := Function.update s.ptrs w x }

/-- The label `FAIL` of `libevent_http_serve_worker_init`
(`load_balancer.c:91-108`). -/
def workerInitFail (s : Setup) (w : ℕ) : Setup :=
  let s := s.emit (.release (.workerMutex w))
  let s := if (s.ptrs w).ev then
      (s.emit (.release (.ev w))).setPtrs w { s.ptrs w with ev := false } else s
  let s := if (s.ptrs w).http then
      (s.emit (.release (.http w))).setPtrs w { s.ptrs w with http := false } else s
  if (s.ptrs w).base then
    (s.emit (.release (.base w))).setPtrs w { s.ptrs w with base := false } else s

/-- `libevent_http_serve_worker_init` (`load_balancer.c:46-90`); `true` is the
return value 0. -/
def workerInit (ok : Call → Bool) (s : Setup) (w : ℕ) : Setup × Bool :=
  if !ok (.workerMutexInit w) then (s, false)
  else
    let s := s.emit (.acquire (.workerMutex w))
    if !ok (.eventBaseNew w) then (workerInitFail s w, false)
    else
      let s := (s.emit (.acquire (.base w))).setPtrs w { s.ptrs w with base := true }
      if !ok (.evhttpNew w) then (workerInitFail s w, false)
      else
        let s := (s.emit (.acquire (.http w))).setPtrs w { s.ptrs w with http := true }
        if !ok (.eventNew w) then (workerInitFail s w, false)
        else
          let s := (s.emit (.acquire (.ev w))).setPtrs w { s.ptrs w with ev := true }
          if !ok (.eventAdd w) then (workerInitFail s w, false)
          else
            let s := s.emit (.addEvent w)
            if !ok (.pthreadCreate w) then (workerInitFail s w, false)
            else (s.emit (.createThread w), true)

/-- `libevent_http_serve_worker_destroy` (`load_balancer.c:110-124`). It neither
stops the worker's thread nor waits for it. -/
def workerDestroy (s : Setup) (w : ℕ) : Setup :=
  if (s.ptrs w).base then
    let s := s.emit (.release (.workerMutex w))
    let s := (s.emit (.release (.ev w))).setPtrs w { s.ptrs w with ev := false }
    let s := (s.emit (.release (.http w))).setPtrs w { s.ptrs w with http := false }
    (s.emit (.release (.base w))).setPtrs w { s.ptrs w with base := false }
  else s

/-- The loop `for (j = 0; j < n; j++) libevent_http_serve_worker_destroy(...)`;
the first argument counts the rounds left. -/
def destroyWorkers : ℕ → ℕ → Setup → Setup
  | 0, _, s => s
  | rest + 1, j, s => destroyWorkers rest (j + 1) (workerDestroy s j)

/-- The loop of `load_balancer_init` over the workers
(`load_balancer.c:145-159`). -/
def initWorkers (ok : Call → Bool) : ℕ → ℕ → Setup → Setup × Bool
  | 0, _, s => (s, true)
  | rest + 1, i, s =>
    match workerInit ok s i with
    | (s, true) => initWorkers ok rest (i + 1) s
    | (s, false) =>
      let s := destroyWorkers i 0 s
      let s := { s.emit (.release .workers) with allocated := false }
      (s.emit (.release .mutex), false)

/-- `load_balancer_init` (`load_balancer.c:125-161`). -/
def loadBalancerInit (ok : Call → Bool) (s : Setup) : Setup × Bool :=
  if !ok .malloc then ({ s with allocated := false }, false)
  else
    let s := { s.emit (.acquire .workers) with allocated := true }
    if !ok .mutexInit then ({ s.emit (.release .workers) with allocated := false }, false)
    else
      let s := s.emit (.acquire .mutex)
      -- the memset of the workers' memory
      initWorkers ok s.worker 0 { s with ptrs := fun _ => ⟨false, false, false⟩ }

/-- `load_balancer_destroy` (`load_balancer.c:162-173`). -/
def loadBalancerDestroy (s : Setup) : Setup :=
  if s.allocated then
    { (destroyWorkers s.worker 0 s).emit (.release .workers) with allocated := false }
  else s

/-! ### What the operations are -/

def workerOk (ok : Call → Bool) (w : ℕ) : Bool :=
  ok (.workerMutexInit w) && ok (.eventBaseNew w) && ok (.evhttpNew w) && ok (.eventNew w) &&
    ok (.eventAdd w) && ok (.pthreadCreate w)

/-- The operations of a successful `libevent_http_serve_worker_init`. -/
def workerInitOps (w : ℕ) : List Op :=
  [.acquire (.workerMutex w), .acquire (.base w), .acquire (.http w), .acquire (.ev w),
    .addEvent w, .createThread w]

theorem workerInit_ok {ok : Call → Bool} {w : ℕ} (h : workerOk ok w = true) (s : Setup) :
    ∃ p, workerInit ok s w =
      ({ s with ptrs := p, ops := s.ops ++ workerInitOps w }, true) := by
  simp only [workerOk, Bool.and_eq_true] at h
  obtain ⟨⟨⟨⟨⟨h1, h2⟩, h3⟩, h4⟩, h5⟩, h6⟩ := h
  simp [workerInit, h1, h2, h3, h4, h5, h6, Setup.emit, Setup.setPtrs, workerInitOps]

def NoThread (ops : List Op) : Prop := ∀ w, Op.createThread w ∉ ops

theorem noThread_emit {s : Setup} (op : Op) (hs : NoThread s.ops)
    (hop : ∀ w, op ≠ .createThread w) : NoThread (s.emit op).ops := by
  intro w hm
  have hm' : Op.createThread w ∈ s.ops ++ [op] := hm
  rcases List.mem_append.mp hm' with h | h
  · exact hs w h
  · exact hop w (List.mem_singleton.mp h).symm

theorem workerInitFail_noThread {s : Setup} (w : ℕ) (hs : NoThread s.ops) :
    NoThread (workerInitFail s w).ops := by
  unfold workerInitFail
  have h1 : NoThread (s.emit (.release (.workerMutex w))).ops := noThread_emit _ hs (by simp)
  dsimp only
  split_ifs <;> simp_all [NoThread, Setup.emit, Setup.setPtrs]

theorem workerInit_fail {ok : Call → Bool} {w : ℕ} (h : workerOk ok w = false) {s : Setup}
    (hs : NoThread s.ops) :
    (workerInit ok s w).2 = false ∧ NoThread (workerInit ok s w).1.ops := by
  unfold workerInit
  have t1 := noThread_emit (.acquire (.workerMutex w)) hs (by simp)
  split
  · exact ⟨rfl, hs⟩
  split
  · exact ⟨rfl, workerInitFail_noThread w t1⟩
  have t2 := noThread_emit (.acquire (.base w)) t1 (by simp)
  split
  · exact ⟨rfl, workerInitFail_noThread w t2⟩
  have t3 := noThread_emit (.acquire (.http w)) t2 (by simp)
  split
  · exact ⟨rfl, workerInitFail_noThread w t3⟩
  have t4 := noThread_emit (.acquire (.ev w)) t3 (by simp)
  split
  · exact ⟨rfl, workerInitFail_noThread w t4⟩
  have t5 := noThread_emit (.addEvent w) t4 (by simp)
  split
  · exact ⟨rfl, workerInitFail_noThread w t5⟩
  · simp_all [workerOk]

end LibeventHttpServe.Balancer
