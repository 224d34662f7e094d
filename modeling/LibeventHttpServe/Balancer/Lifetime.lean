import LibeventHttpServe.Balancer.Lifecycle
import LibeventHttpServe.Lib.Reach

/-!
# Worker threads and the objects they run on (load_balancer.c:40-173)

The main thread performs the operations of `load_balancer_init` and of any later
`load_balancer_destroy` one by one; a created thread enters
`event_base_dispatch` at any moment. Its event is persistent and was added
before the thread was created, and no call of the repository stops the loop: a
thread that entered stays inside.
-/

namespace LibeventHttpServe.Balancer

open LibeventHttpServe.Lib (System)

inductive ThreadPc where
  | absent
  | created
  /- inside `event_base_dispatch(worker->base)` -/
  | dispatching
  deriving DecidableEq, Repr

structure Life where
  setup : Setup
  /- whether `load_balancer_init` has been called -/
  started : Bool
  /- operations of the current call that the main thread has not performed yet -/
  todo : List Op
  live : Resource → Bool
  thread : ℕ → ThreadPc

inductive LifeAction where
  | init (ok : Call → Bool)
  | destroy
  | main
  | enter (w : ℕ)

/-- The main thread begins a call that leaves `setup`. -/
def Life.call (s : Life) (setup : Setup) : Life :=
  { s with setup := setup, started := true, todo := setup.ops }

def Life.perform (s : Life) (op : Op) (rest : List Op) : Life :=
  match op with
  | .acquire r => { s with todo := rest, live := Function.update s.live r true }
  | .release r => { s with todo := rest, live := Function.update s.live r false }
  | .addEvent _ => { s with todo := rest }
  | .createThread w => { s with todo := rest, thread := Function.update s.thread w .created }

def lifeStep (s : Life) : LifeAction → Option Life
  | .init ok =>
    if s.started then none else some (s.call (loadBalancerInit ok { s.setup with ops := [] }).1)
  | .destroy =>
    if s.started = true ∧ s.todo = [] then
      some (s.call (loadBalancerDestroy { s.setup with ops := [] }))
    else none
  | .main =>
    match s.todo with
    | [] => none
    | op :: rest => some (s.perform op rest)
  | .enter w =>
    if s.thread w = .created then
      some { s with thread := Function.update s.thread w .dispatching }
    else none

def lifeInitial (worker : ℕ) : Life where
  setup := ⟨worker, false, fun _ => ⟨false, false, false⟩, []⟩
  started := false
  todo := []
  live := fun _ => false
  thread := fun _ => .absent

def lifeSystem (worker : ℕ) : System Life LifeAction where
  init := fun s => s = lifeInitial worker
  step := lifeStep

/-- The objects of worker `w` and the array they are in are not freed. -/
def Held (live : Resource → Bool) (w : ℕ) : Prop :=
  live (.ev w) = true ∧ live (.http w) = true ∧ live (.base w) = true ∧ live .workers = true

def DispatchSafe (s : Life) : Prop :=
  ∀ w, s.thread w = .dispatching → Held s.live w

/-- `load_balancer_init` fails at the first worker or before, or not at all, and
`load_balancer_destroy` finds no worker. -/
def Untouched (s : Life) : LifeAction → Prop
  | .init ok =>
    ok .malloc = true → ok .mutexInit = true → workerOk ok 0 = true →
      ∀ w < s.setup.worker, workerOk ok w = true
  | .destroy => s.setup.allocated = false ∨ s.setup.worker = 0
  | .main => True
  | .enter _ => True

instance (s : Life) (a : LifeAction) : Decidable (Untouched s a) := by
  cases a <;> unfold Untouched <;> infer_instance

/-! ### Operations that start threads only on live objects -/

/-- Nothing is released, and a thread is created only for a worker whose objects
are there. -/
def SafeOps (live : Resource → Bool) : List Op → Prop
  | [] => True
  | .acquire r :: ops => SafeOps (Function.update live r true) ops
  | .release _ :: _ => False
  | .addEvent _ :: ops => SafeOps live ops
  | .createThread w :: ops => Held live w ∧ SafeOps live ops

theorem update_true {live : Resource → Bool} {r r' : Resource} (h : live r' = true) :
    Function.update live r true r' = true := by
  by_cases he : r' = r
  · subst he
    exact Function.update_self ..
  · rw [Function.update_of_ne he]
    exact h

theorem held_acquire {live : Resource → Bool} {w : ℕ} (r : Resource) (h : Held live w) :
    Held (Function.update live r true) w :=
  ⟨update_true h.1, update_true h.2.1, update_true h.2.2.1, update_true h.2.2.2⟩

theorem safeOps_workers {live : Resource → Bool} (h : live .workers = true) (n i : ℕ) :
    SafeOps live ((List.range' i n).flatMap workerInitOps) := by
  induction n generalizing live i with
  | zero => exact trivial
  | succ n ih =>
    have hw : (List.range' i (n + 1)).flatMap workerInitOps =
        workerInitOps i ++ (List.range' (i + 1) n).flatMap workerInitOps := by
      rw [List.range'_succ, List.flatMap_cons]
    rw [hw]
    refine ⟨⟨?_, ?_, ?_, ?_⟩, ih ?_ (i + 1)⟩
    · exact Function.update_self ..
    · exact update_true (Function.update_self ..)
    · exact update_true (update_true (Function.update_self ..))
    · exact update_true (update_true (update_true (update_true h)))
    · exact update_true (update_true (update_true (update_true h)))

/-! ### The operations of one call -/

theorem initWorkers_ok {ok : Call → Bool} {n i : ℕ} (h : ∀ w, i ≤ w → w < i + n →
    workerOk ok w = true) (s : Setup) :
    ∃ p, initWorkers ok n i s =
      ({ s with ptrs := p, ops := s.ops ++ (List.range' i n).flatMap workerInitOps }, true) := by
  induction n generalizing i s with
  | zero =>
    refine ⟨s.ptrs, ?_⟩
    simp [initWorkers]
  | succ n ih =>
    obtain ⟨p, hp⟩ := workerInit_ok (h i (by omega) (by omega)) s
    obtain ⟨p', hp'⟩ := ih (i := i + 1) (fun w h1 h2 => h w (by omega) (by omega))
      { s with ptrs := p, ops := s.ops ++ workerInitOps i }
    refine ⟨p', ?_⟩
    simp only [initWorkers, hp, hp', List.range'_succ, List.flatMap_cons, List.append_assoc]

theorem initWorkers_first {ok : Call → Bool} {n : ℕ} (h : workerOk ok 0 = false) {s : Setup}
    (hs : NoThread s.ops) : NoThread (initWorkers ok (n + 1) 0 s).1.ops := by
  obtain ⟨hf, ht⟩ := workerInit_fail h hs
  have t1 := noThread_emit (.release .workers) ht (by simp)
  have t2 := noThread_emit (.release .mutex) t1 (by simp)
  have he : workerInit ok s 0 = ((workerInit ok s 0).1, false) := Prod.ext rfl hf
  unfold initWorkers
  rw [he]
  exact t2

/- What `load_balancer_init` leaves when only the first worker can fail: no
thread at all, or every worker set up and nothing released. -/
theorem loadBalancerInit_ops {ok : Call → Bool} {s : Setup} (hops : s.ops = [])
    (h : ok .malloc = true → ok .mutexInit = true → workerOk ok 0 = true →
      ∀ w < s.worker, workerOk ok w = true) :
    NoThread (loadBalancerInit ok s).1.ops ∨
      (0 < s.worker ∧ (loadBalancerInit ok s).1.worker = s.worker ∧
        (loadBalancerInit ok s).1.ops = [.acquire .workers, .acquire .mutex] ++
          (List.range' 0 s.worker).flatMap workerInitOps) := by
  unfold loadBalancerInit
  have t0 : NoThread s.ops := by
    intro w
    simp [hops]
  have t1 := noThread_emit (.acquire .workers) t0 (by simp)
  split
  · exact Or.inl t0
  split
  · exact Or.inl (noThread_emit (.release .workers) t1 (by simp))
  have t2 := noThread_emit (.acquire .mutex) t1 (by simp)
  have hm : ok .malloc = true := by simp_all
  have hx : ok .mutexInit = true := by simp_all
  dsimp only [Setup.emit]
  by_cases hz : s.worker = 0
  · rw [hz]
    exact Or.inl t2
  by_cases h0 : workerOk ok 0 = true
  · obtain ⟨p, hp⟩ := initWorkers_ok (i := 0) (n := s.worker)
      (fun w _ hw => h hm hx h0 w (by omega))
      { s with allocated := true, ptrs := fun _ => ⟨false, false, false⟩,
               ops := s.ops ++ [.acquire .workers] ++ [.acquire .mutex] }
    rw [hp]
    refine Or.inr ⟨by omega, rfl, ?_⟩
    simp [hops]
  · obtain ⟨n, hn⟩ := Nat.exists_eq_succ_of_ne_zero hz
    rw [hn]
    exact Or.inl (initWorkers_first (Bool.eq_false_iff.mpr h0) t2)

theorem loadBalancerDestroy_ops {s : Setup} (hops : s.ops = [])
    (h : s.allocated = false ∨ s.worker = 0) : NoThread (loadBalancerDestroy s).ops := by
  have t0 : NoThread s.ops := by
    intro w
    simp [hops]
  unfold loadBalancerDestroy
  split
  · have hz : s.worker = 0 := by simp_all
    rw [hz]
    exact noThread_emit (.release .workers) t0 (by simp)
  · exact t0

/-! ### The invariant of the guarded runs -/

/-- Either no thread was and will be created, or every thread's objects are
there and nothing that is still to be done releases one. -/
inductive LifeInv (s : Life) : Prop where
  | idle (ops : NoThread s.todo) (thread : ∀ w, s.thread w = .absent)
  | running (ops : SafeOps s.live s.todo) (held : ∀ w, s.thread w ≠ .absent → Held s.live w)
      (worker : 0 < s.setup.worker) (started : s.started = true)

theorem lifeInv_main {s s' : Life} (h : lifeStep s .main = some s') (hi : LifeInv s) :
    LifeInv s' := by
  obtain ⟨setup, started, todo, live, thread⟩ := s
  cases todo with
  | nil => cases h
  | cons op rest =>
    cases h
    cases hi with
    | idle hops ht =>
      have hrest : NoThread rest := fun w hm => hops w (List.mem_cons_of_mem op hm)
      cases op with
      | acquire r => exact .idle hrest ht
      | release r => exact .idle hrest ht
      | addEvent v => exact .idle hrest ht
      | createThread v => exact (hops v (List.mem_cons_self ..)).elim
    | running hops hheld hw hst =>
      cases op with
      | acquire r => exact .running hops (fun w hne => held_acquire r (hheld w hne)) hw hst
      | release r => exact hops.elim
      | addEvent v => exact .running hops hheld hw hst
      | createThread v =>
        refine .running hops.2 ?_ hw hst
        intro w hne
        by_cases hv : w = v
        · subst hv
          exact hops.1
        · exact hheld w (by simpa only [Life.perform, Function.update_of_ne hv] using hne)

theorem lifeInv_enter {s s' : Life} {w : ℕ} (h : lifeStep s (.enter w) = some s')
    (hi : LifeInv s) : LifeInv s' := by
  simp only [lifeStep, Option.ite_none_right_eq_some, Option.some.injEq] at h
  obtain ⟨hc, rfl⟩ := h
  cases hi with
  | idle hops ht =>
    rw [ht w] at hc
    cases hc
  | running hops hheld hw hst =>
    refine .running hops ?_ hw hst
    intro v hne
    by_cases hv : v = w
    · subst hv
      exact hheld v (by rw [hc]; decide)
    · exact hheld v (by simpa only [Function.update_of_ne hv] using hne)

theorem lifeInv_init {s s' : Life} {ok : Call → Bool} (hg : Untouched s (.init ok))
    (h : lifeStep s (.init ok) = some s') (hi : LifeInv s) : LifeInv s' := by
  simp only [lifeStep, Option.ite_none_left_eq_some, Option.some.injEq] at h
  obtain ⟨hns, rfl⟩ := h
  cases hi with
  | running _ _ _ hst => exact (hns hst).elim
  | idle _ ht =>
    rcases loadBalancerInit_ops (s := { s.setup with ops := [] }) rfl hg with hn | ⟨hw, he, ho⟩
    · exact .idle hn ht
    · refine .running ?_ (fun w hne => (hne (ht w)).elim) (by simpa only [Life.call, he]) rfl
      simp only [Life.call, ho, List.cons_append, List.nil_append, SafeOps]
      exact safeOps_workers (update_true (Function.update_self ..)) _ _

theorem lifeInv_destroy {s s' : Life} (hg : Untouched s .destroy)
    (h : lifeStep s .destroy = some s') (hi : LifeInv s) : LifeInv s' := by
  simp only [lifeStep, Option.ite_none_right_eq_some, Option.some.injEq] at h
  obtain ⟨-, rfl⟩ := h
  cases hi with
  | idle _ ht => exact .idle (loadBalancerDestroy_ops rfl hg) ht
  | running hops hheld hw hst =>
    rcases hg with hg | hg
    · have he : loadBalancerDestroy { s.setup with ops := [] } = { s.setup with ops := [] } := by
        simp only [loadBalancerDestroy, hg]
        rfl
      rw [he]
      exact .running trivial hheld hw rfl
    · omega

theorem lifeInv_reachable {n : ℕ} {s : Life}
    (hs : ((lifeSystem n).restrict Untouched).Reachable s) : LifeInv s := by
  refine hs.invariant ?_ ?_
  · intro s h
    cases h
    exact .idle (fun w hm => by cases hm) (fun _ => rfl)
  · intro s a s' _ hi h
    obtain ⟨hg, h⟩ := System.restrict_step.mp h
    cases a with
    | init ok => exact lifeInv_init hg h hi
    | destroy => exact lifeInv_destroy hg h hi
    | main => exact lifeInv_main h hi
    | enter w => exact lifeInv_enter h hi

/-- No thread's loop loses its objects while no tear-down path meets a worker
that was set up. -/
theorem dispatchSafe_untouched (n : ℕ) {s : Life}
    (hs : ((lifeSystem n).restrict Untouched).Reachable s) : DispatchSafe s := by
  intro w hw
  cases lifeInv_reachable hs with
  | idle _ ht =>
    rw [ht w] at hw
    cases hw
  | running _ hheld _ _ => exact hheld w (by rw [hw]; decide)

def startOneRun : List LifeAction :=
  .init (fun _ => true) :: List.replicate 8 .main ++ [.enter 0]

theorem dispatchSafe_untouched_run :
    ∃ s, ((lifeSystem 1).restrict Untouched).exec startOneRun (lifeInitial 1) = some s ∧
      s.thread 0 = .dispatching ∧ DispatchSafe s := by
  have hobs : (((lifeSystem 1).restrict Untouched).exec startOneRun (lifeInitial 1)).map
      (fun s => s.thread 0) = some .dispatching := by
    decide
  obtain ⟨s, hs, he⟩ := Option.map_eq_some_iff.mp hobs
  exact ⟨s, hs, he, dispatchSafe_untouched 1 (System.reachable_exec (.init rfl) hs)⟩

/- Two workers; the mutex of the second cannot be initialised after the first
thread has entered its loop. -/
def secondFailsRun : List LifeAction :=
  .init (fun c => c != .workerMutexInit 1) :: List.replicate 8 .main ++
    [.enter 0, .main, .main]

/- One worker; the balancer is destroyed while it serves. -/
def destroyServingRun : List LifeAction := startOneRun ++ [.destroy, .main, .main]

/-- Both tear-down paths free the event of a running loop. -/
theorem dispatchSafe_fails :
    (∃ s, (lifeSystem 2).exec secondFailsRun (lifeInitial 2) = some s ∧
      (lifeSystem 2).Reachable s ∧ s.thread 0 = .dispatching ∧ ¬ DispatchSafe s) ∧
    ∃ s, (lifeSystem 1).exec destroyServingRun (lifeInitial 1) = some s ∧
      (lifeSystem 1).Reachable s ∧ s.thread 0 = .dispatching ∧ ¬ DispatchSafe s := by
  constructor
  · have hobs : ((lifeSystem 2).exec secondFailsRun (lifeInitial 2)).map
        (fun s => (s.thread 0, s.live (.ev 0))) = some (.dispatching, false) := by
      decide
    obtain ⟨s, hs, he⟩ := Option.map_eq_some_iff.mp hobs
    simp only [Prod.mk.injEq] at he
    refine ⟨s, hs, System.reachable_exec (.init rfl) hs, he.1, ?_⟩
    intro hsafe
    have hev := (hsafe 0 he.1).1
    rw [he.2] at hev
    cases hev
  · have hobs : ((lifeSystem 1).exec destroyServingRun (lifeInitial 1)).map
        (fun s => (s.thread 0, s.live (.ev 0))) = some (.dispatching, false) := by
      decide
    obtain ⟨s, hs, he⟩ := Option.map_eq_some_iff.mp hobs
    simp only [Prod.mk.injEq] at he
    refine ⟨s, hs, System.reachable_exec (.init rfl) hs, he.1, ?_⟩
    intro hsafe
    have hev := (hsafe 0 he.1).1
    rw [he.2] at hev
    cases hev

end LibeventHttpServe.Balancer
