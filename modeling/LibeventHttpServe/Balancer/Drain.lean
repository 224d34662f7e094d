import LibeventHttpServe.Balancer.Wakeup
import LibeventHttpServe.Lib.Potential

/-!
# The work behind an accepted connection

`worker_on_ev` loops until its queue is empty, and it can run on an empty queue,
when the connection it was woken for was served by the callback before. The
potential counts what is left to do of every connection and of every mark, so
that each call of `load_balancer_serve` pays for a bounded number of steps.
-/

namespace LibeventHttpServe.Balancer
open Lib

/-- The stretches of `worker_on_ev` that are left when nothing is queued. -/
def WorkerPc.work : WorkerPc → ℕ
  | .loop => 0
  | .leaving => 1
  | .test => 2
  | .served _ => 3
  | .holding _ => 4

def DispatcherPc.work : DispatcherPc → ℕ
  | .idle | .destroyed => 0
  | .pushed _ => 4
  | .filled _ _ => 8

def workerWork (s : State) (w : ℕ) : ℕ :=
  3 * ((queue s w).getD []).length + (s.workers w).pc.work +
    (if (s.workers w).active then 3 else 0)

/-- A bound on the steps left to the workers `0 .. n - 1` and the dispatcher. -/
def work (n : ℕ) (s : State) : ℕ :=
  s.dispatcher.work + ∑ w ∈ Finset.range n, workerWork s w

/-- The steps that no new connection and no timeout is needed for: the rest of a
`load_balancer_serve` call, and the loops of the workers in `W`. -/
def Action.Own (W : ℕ → Prop) : Action → Prop
  | .push | .activate => True
  | .wake w | .advance w => W w
  | .serve .. | .destroy | .timeout _ => False

def Action.cost : Action → ℕ
  | .push | .activate | .wake _ | .advance _ => 1
  | .serve .. | .destroy | .timeout _ => 0

/- What a call of `load_balancer_serve`, or the timeout of an event, brings in. -/
def Action.credit : Action → ℕ
  | .serve .. => 8
  | .timeout _ => 3
  | .push | .activate | .wake _ | .advance _ | .destroy => 0

/-! ### The length of a queue -/

/-- Whether a popped record waits for its `evhttp_serve`. -/
def WorkerPc.held : WorkerPc → ℕ
  | .holding _ => 1
  | .loop | .test | .served _ | .leaving => 0

section
variable {s s' : State} {L : ℕ → List (Ptr × HttpConnection)} {owner : Ptr → Owner}

theorem inHand_length (hr : Rep s L owner) (w : ℕ) :
    (inHand s w).length = (s.workers w).pc.held := by
  unfold inHand
  cases hpc : (s.workers w).pc with
  | holding p =>
    obtain ⟨-, r, hlk⟩ := hr.held w p (by rw [hpc]; rfl)
    simp [hlk, WorkerPc.held]
  | loop => rfl
  | test => rfl
  | served p => rfl
  | leaving => rfl

theorem queue_length (hr : Rep s L owner) (w : ℕ) :
    ((queue s w).getD []).length + (s.workers w).served.length + (s.workers w).pc.held =
      (pushed s w).length := by
  rw [queue_eq hr w, ← hr.history w, ← inHand_length hr w]
  simp only [Option.getD_some, List.length_append]
  omega

/- A worker keeps its work while its own record and the pushes to it stay. -/
theorem workerWork_congr {owner' : Ptr → Owner} {L' : ℕ → List (Ptr × HttpConnection)}
    (hr : Rep s L owner) (hr' : Rep s' L' owner') {v : ℕ} (hw : s'.workers v = s.workers v)
    (hp : (pushed s' v).length = (pushed s v).length) : workerWork s' v = workerWork s v := by
  have hq := queue_length hr v
  have hq' := queue_length hr' v
  rw [hw, hp] at hq'
  unfold workerWork
  rw [hw]
  omega

/-! ### What a step costs -/

theorem workerEffect_other (hr : Rep s L owner) {w v : ℕ} (he : WorkerEffect s w s')
    (hv : v ≠ w) : s'.workers v = s.workers v := by
  cases he with
  | timeout hpc => exact setWorker_ne _ _ hv
  | wake hpc ha => exact setWorker_ne _ _ hv
  | testNext hpc =>
    rcases testNext_spec hr w with ⟨-, -, he⟩ | ⟨p, r, l, -, he⟩ <;> rw [he] <;>
      exact setWorker_ne _ _ hv
  | evhttpServe p hpc =>
    obtain ⟨r, -, he⟩ := evhttpServe_spec hr hpc
    rw [he]
    exact setWorker_ne _ _ hv
  | freeNext p hpc =>
    rw [freeNext_spec hr hpc]
    exact setWorker_ne _ _ hv
  | leave hpc => exact setWorker_ne _ _ hv

/- A stretch of a worker's loop pays for itself; a timeout brings a mark in. -/
theorem workerStep_work (hr : Rep s L owner) {w : ℕ} {a : Action}
    (h : workerStep s w a = some s') :
    workerWork s' w + a.cost ≤ workerWork s w + a.credit := by
  have he := workerStep_effect h
  obtain ⟨L', owner', hr'⟩ := hr.workerEffect he
  have hq := queue_length hr w
  have hq' := queue_length hr' w
  have hlog : pushed s' w = pushed s w := by
    unfold pushed
    rw [(he.dispatcherSame hr).log]
  rw [hlog] at hq'
  unfold workerWork
  cases a with
  | timeout v =>
    by_cases hpc : (s.workers w).pc = .loop
    · simp only [workerStep, if_pos hpc] at h
      cases h
      rw [setWorker_same] at hq' ⊢
      simp only [Action.cost, Action.credit, if_true] at hq' ⊢
      omega
    · simp [workerStep, hpc] at h
  | wake v =>
    by_cases hg : (s.workers w).pc = .loop ∧ (s.workers w).active
    · simp only [workerStep, if_pos hg] at h
      cases h
      rw [wake, setWorker_same] at hq' ⊢
      simp only [hg.1, hg.2, WorkerPc.held, WorkerPc.work, Action.cost, Action.credit, if_true,
        Bool.false_eq_true, if_false] at hq hq' ⊢
      omega
    · simp only [workerStep, if_neg hg] at h
      cases h
  | advance v =>
    simp only [workerStep] at h
    split at h
    · cases h
    · rename_i hpc
      cases h
      rcases testNext_spec hr w with ⟨-, -, he⟩ | ⟨p, r, l, -, he⟩ <;>
        rw [he, setWorker_same] at hq' ⊢ <;>
        simp only [hpc, WorkerPc.held, WorkerPc.work, Action.cost, Action.credit] at hq hq' ⊢ <;>
        omega
    · rename_i p hpc
      cases h
      obtain ⟨r, -, he⟩ := evhttpServe_spec hr hpc
      rw [he, setWorker_same] at hq' ⊢
      simp only [hpc, WorkerPc.held, WorkerPc.work, Action.cost, Action.credit,
        List.length_append, List.length_cons, List.length_nil] at hq hq' ⊢
      omega
    · rename_i p hpc
      cases h
      have hset : (freeNext s w p).workers w = { s.workers w with pc := .test } := by
        rw [freeNext_spec hr hpc]
        exact setWorker_same s w _
      rw [hset] at hq' ⊢
      simp only [hpc, WorkerPc.held, WorkerPc.work, Action.cost, Action.credit] at hq hq' ⊢
      omega
    · rename_i hpc
      cases h
      rw [setWorker_same] at hq' ⊢
      simp only [hpc, WorkerPc.held, WorkerPc.work, Action.cost, Action.credit] at hq hq' ⊢
      omega
  | serve fd addr addrLen rand malloc => cases h
  | push => cases h
  | activate => cases h
  | destroy => cases h

/- A step of the dispatcher that no worker sees. -/
theorem work_dispatcher {n : ℕ} {L' : ℕ → List (Ptr × HttpConnection)} {owner' : Ptr → Owner}
    (hr : Rep s L owner) (hr' : Rep s' L' owner') (hw : s'.workers = s.workers)
    (hlog : s'.log = s.log) :
    work n s' = s'.dispatcher.work + ∑ w ∈ Finset.range n, workerWork s w := by
  have hsame : ∀ w, workerWork s' w = workerWork s w := fun w =>
    workerWork_congr hr hr' (congrFun hw w) (by unfold pushed; rw [hlog])
  simp only [work, hsame]

theorem push_work {n w : ℕ} {p : Ptr} (hr : Rep s L owner) (hd : s.dispatcher = .filled w p)
    (hw : w < n) : work n (push s w p) + 1 ≤ work n s := by
  obtain ⟨L', owner', hr'⟩ := hr.push hd
  obtain ⟨x, h, r, -, he⟩ := push_afterPush hr hd
  rw [he] at hr' ⊢
  have hself : workerWork (afterPush s w x h r.conn) w + 0 ≤ workerWork s w + 3 := by
    have hq := queue_length hr w
    have hq' := queue_length hr' w
    unfold workerWork
    rw [pushed_afterPush, afterPush_workers, if_pos rfl] at hq'
    rw [afterPush_workers, if_pos rfl]
    simp only [if_true, List.length_append, List.length_cons, List.length_nil] at hq' ⊢
    omega
  have hrest : ∀ v, v ≠ w → workerWork (afterPush s w x h r.conn) v = workerWork s v := by
    intro v hv
    refine workerWork_congr hr hr' (by rw [afterPush_workers, if_neg hv]) ?_
    rw [pushed_afterPush, if_neg hv, List.append_nil]
  have hsum := sum_range_le hw hself hrest
  simp only [work, hd, DispatcherPc.work, afterPush] at hsum ⊢
  omega

theorem activate_work {n w : ℕ} (hr : Rep s L owner) (hd : s.dispatcher = .pushed w)
    (hw : w < n) : work n (activate s w) + 1 ≤ work n s := by
  obtain ⟨L', owner', hr'⟩ := hr.effect (.activate w hd)
  have hset : (activate s w).workers w = { s.workers w with active := true } :=
    setWorker_same s w _
  have hself : workerWork (activate s w) w + 0 ≤ workerWork s w + 3 := by
    have hq := queue_length hr w
    have hq' := queue_length hr' w
    have hlog : pushed (activate s w) w = pushed s w := rfl
    rw [hset, hlog] at hq'
    unfold workerWork
    rw [hset]
    simp only [if_true] at hq' ⊢
    omega
  have hrest : ∀ v, v ≠ w → workerWork (activate s w) v = workerWork s v := fun v hv =>
    workerWork_congr hr hr' (setWorker_ne s _ hv) rfl
  have hsum := sum_range_le hw hself hrest
  have hidle : (activate s w).dispatcher = .idle := rfl
  simp only [work, hd, hidle, DispatcherPc.work]
  omega

theorem dispatcherStep_work {balance worker : UInt8} {a : Action} (hr : Rep s L owner)
    (hb : Bounds balance worker s) (h : dispatcherStep s a = some s') :
    work worker.toNat s' + a.cost ≤ work worker.toNat s + a.credit := by
  obtain ⟨L', owner', hr'⟩ := hr.effect (dispatcherStep_effect h)
  cases a with
  | serve fd addr addrLen rand malloc =>
    by_cases hd : s.dispatcher = .idle
    · simp only [dispatcherStep, if_pos hd, serve] at h
      cases malloc with
      | none =>
        cases h
        rw [work_dispatcher hr hr' rfl rfl]
        simp only [work, Action.cost]
        omega
      | some p =>
        by_cases hp : s.heap.lookup p = none
        · simp only [if_pos hp] at h
          cases h
          rw [work_dispatcher hr hr' rfl rfl]
          simp only [work, hd, DispatcherPc.work, Action.cost, Action.credit]
          omega
        · simp [hp] at h
    · simp [dispatcherStep, hd] at h
  | push =>
    simp only [dispatcherStep] at h
    split at h
    · rename_i w p hd
      cases h
      exact push_work hr hd (hb.filled w p hd)
    · cases h
  | activate =>
    simp only [dispatcherStep] at h
    split at h
    · rename_i w hd
      cases h
      exact activate_work hr hd (hb.pushed w hd)
    · cases h
  | destroy =>
    by_cases hd : s.dispatcher = .idle
    · simp only [dispatcherStep, if_pos hd] at h
      cases h
      rw [work_dispatcher hr hr' rfl rfl]
      simp only [work, DispatcherPc.work, Action.cost]
      omega
    · simp [dispatcherStep, hd] at h
  | timeout w => cases h
  | wake w => cases h
  | advance w => cases h

end

theorem step_work {balance worker : UInt8} {s s' : State} {a : Action}
    (hi : Inv balance worker s) (h : step s a = some s') :
    work worker.toNat s' + a.cost ≤ work worker.toNat s + a.credit := by
  obtain ⟨L, owner, hr⟩ := hi.rep
  have hworker : ∀ w, (if w < s.worker.toNat then workerStep s w a else none) = some s' →
      work worker.toNat s' + a.cost ≤ work worker.toNat s + a.credit := by
    intro w hstep
    rw [Option.ite_none_right_eq_some, hi.bounds.worker_eq] at hstep
    obtain ⟨hw, hstep⟩ := hstep
    have he := workerStep_effect hstep
    have hsame := he.dispatcherSame hr
    obtain ⟨L', owner', hr'⟩ := hr.workerEffect he
    have hrest : ∀ v, v ≠ w → workerWork s' v = workerWork s v := fun v hv =>
      workerWork_congr hr hr' (workerEffect_other hr he hv) (by unfold pushed; rw [hsame.log])
    have hsum := sum_range_le hw (workerStep_work hr hstep) hrest
    simp only [work, hsame.dispatcher]
    omega
  by_cases hg : s.crashed ∨ s.dispatcher = .destroyed
  · simp only [step, if_pos hg] at h
    cases h
  · simp only [step, if_neg hg] at h
    cases a with
    | serve fd addr addrLen rand malloc => exact dispatcherStep_work hr hi.bounds h
    | push => exact dispatcherStep_work hr hi.bounds h
    | activate => exact dispatcherStep_work hr hi.bounds h
    | destroy => exact dispatcherStep_work hr hi.bounds h
    | timeout w => exact hworker w h
    | wake w => exact hworker w h
    | advance w => exact hworker w h

theorem paid_system (balance : UInt8) {worker : UInt8} (hw : worker ≠ 0) :
    (system balance worker).Paid (work worker.toNat) Action.cost Action.credit :=
  fun _ _ _ hs h => step_work (inv_reachable hw hs) h

/-- Worker threads do not spin: in every run the stretches of the workers and the
steps of the dispatcher behind `malloc` are at most eight for each call of
`load_balancer_serve` and three for each timeout, those still to come included. -/
theorem steps_bounded (balance worker : UInt8) (hw : worker ≠ 0) {as : List Action} {s : State}
    (h : (system balance worker).exec as (initial balance worker) = some s) :
    work worker.toNat s + (as.map Action.cost).sum ≤ (as.map Action.credit).sum := by
  have hpaid := (paid_system balance hw).exec (.init rfl) h
  have hzero : work worker.toNat (initial balance worker) = 0 :=
    Nat.add_eq_zero_iff.mpr ⟨rfl, Finset.sum_eq_zero fun w _ => rfl⟩
  omega

theorem steps_bounded_run :
    ∃ s, (system 1 2).exec handOverRun (initial 1 2) = some s ∧
      work 2 s + (handOverRun.map Action.cost).sum ≤ (handOverRun.map Action.credit).sum := by
  have hsome : ((system 1 2).exec handOverRun (initial 1 2)).isSome := by decide
  obtain ⟨s, hs⟩ := Option.isSome_iff_exists.mp hsome
  exact ⟨s, hs, steps_bounded 1 2 (by decide) hs⟩

/-! ### Running until nothing is left -/

/-- The dispatcher has nothing in hand, and the workers in `W` are asleep and have served
all that was pushed to them. -/
structure Drained (W : ℕ → Prop) (n : ℕ) (s s' : State) : Prop where
  noNull : s'.crashed = false
  idle : s'.dispatcher = .idle
  accepted : s'.accepted = s.accepted
  pushed : s'.log.map Prod.snd = s.accepted
  asleep : ∀ w < n, W w → (s'.workers w).pc = .loop ∧ (s'.workers w).active = false
  empty : ∀ w < n, W w → queue s' w = some []
  served : ∀ w < n, W w → (s'.workers w).served = Balancer.pushed s' w

/-- What the steps of `Action.Own` keep. -/
structure OwnKept (s s' : State) : Prop where
  noNull : s'.crashed = false
  running : s'.dispatcher ≠ .destroyed
  accepted : s'.accepted = s.accepted

theorem own_step {balance worker : UInt8} {W : ℕ → Prop} {s s' : State} {a : Action}
    (hi : Inv balance worker s) (ha : a.Own W) (h : step s a = some s') : OwnKept s s' := by
  obtain ⟨L, owner, hr⟩ := hi.rep
  obtain ⟨hcr, hd, he⟩ := step_effect h
  cases he with
  | mallocFail fd addr addrLen rand _ => exact ha.elim
  | fill fd addr addrLen rand p _ _ => exact ha.elim
  | push w p hf =>
    obtain ⟨x, h, r, -, he⟩ := push_afterPush hr hf
    rw [he]
    exact ⟨hcr, nofun, rfl⟩
  | activate w _ => exact ⟨hcr, nofun, rfl⟩
  | destroy _ => exact ha.elim
  | worker w a s' hw =>
    have hsame := hw.dispatcherSame hr
    exact ⟨hsame.crashed.trans hcr, hsame.dispatcher ▸ hd, hsame.accepted⟩

theorem own_run {balance worker : UInt8} (hw : worker ≠ 0) {W : ℕ → Prop} {as : List Action}
    {s s' : State} (hs : (system balance worker).Reachable s) (hcr : s.crashed = false)
    (hd : s.dispatcher ≠ .destroyed) (has : ∀ a ∈ as, a.Own W)
    (hrun : (system balance worker).exec as s = some s') : OwnKept s s' := by
  induction as generalizing s with
  | nil =>
    cases hrun
    exact ⟨hcr, hd, rfl⟩
  | cons a as ih =>
    obtain ⟨t, ht, hrest⟩ := Option.bind_eq_some_iff.mp hrun
    have hstep := own_step (inv_reachable hw hs) (has a (List.mem_cons_self ..)) ht
    have htail := ih (.step hs ht) hstep.noNull hstep.running
      (fun b hb => has b (List.mem_cons_of_mem a hb)) hrest
    exact ⟨htail.noNull, htail.running, htail.accepted.trans hstep.accepted⟩

/- A sleeping worker has nothing left, when no `event_active` is due. -/
theorem asleep_served {balance worker : UInt8} {s : State} {w : ℕ}
    (hs : (system balance worker).Reachable s) (hw : worker ≠ 0) (hd : s.dispatcher = .idle)
    (hpc : (s.workers w).pc = .loop) (ha : (s.workers w).active = false) :
    queue s w = some [] ∧ (s.workers w).served = pushed s w := by
  obtain ⟨L, owner, hr⟩ := (inv_reachable hw hs).rep
  have hnext : (s.workers w).next = none := by
    by_contra hn
    have hawake := wakeful_reachable hw hs w hn
    simp [Awake, ha, hpc, hd, WorkerPc.willTest] at hawake
  have hch := hr.chain w
  rw [hnext] at hch
  have hL := (Chain.segment_null hch).1
  have hh := hr.history w
  rw [hL, inHand_of_record (by rw [hpc]; rfl)] at hh
  refine ⟨by rw [queue_eq hr w, hL]; rfl, ?_⟩
  simpa using hh

section
variable {s : State} (hcr : s.crashed = false) (hd : s.dispatcher ≠ .destroyed)

include hcr hd

theorem step_dispatcher {a : Action} (ha : a = .push ∨ a = .activate) :
    step s a = dispatcherStep s a := by
  rcases ha with rfl | rfl <;> simp [step, hcr, hd]

theorem step_worker {w : ℕ} (hw : w < s.worker.toNat) {a : Action}
    (ha : a = .wake w ∨ a = .advance w) : step s a = workerStep s w a := by
  rcases ha with rfl | rfl <;> simp [step, hcr, hd, hw]

/- The dispatcher is between two calls when none of its own steps is enabled. -/
theorem idle_of_stuck (hpush : step s .push = none) (hact : step s .activate = none) :
    s.dispatcher = .idle := by
  rw [step_dispatcher hcr hd (Or.inl rfl)] at hpush
  rw [step_dispatcher hcr hd (Or.inr rfl)] at hact
  cases hdp : s.dispatcher with
  | idle => rfl
  | filled w p => simp [dispatcherStep, hdp] at hpush
  | pushed w => simp [dispatcherStep, hdp] at hact
  | destroyed => exact (hd hdp).elim

theorem asleep_of_stuck {w : ℕ} (hw : w < s.worker.toNat) (hwake : step s (.wake w) = none)
    (hadv : step s (.advance w) = none) :
    (s.workers w).pc = .loop ∧ (s.workers w).active = false := by
  rw [step_worker hcr hd hw (Or.inl rfl)] at hwake
  rw [step_worker hcr hd hw (Or.inr rfl)] at hadv
  have hpc : (s.workers w).pc = .loop := by
    cases hpc : (s.workers w).pc with
    | loop => rfl
    | test => simp [workerStep, hpc] at hadv
    | holding p => simp [workerStep, hpc] at hadv
    | served p => simp [workerStep, hpc] at hadv
    | leaving => simp [workerStep, hpc] at hadv
  refine ⟨hpc, ?_⟩
  simpa [workerStep, hpc] using hwake

end

theorem drained_of_stuck {balance worker : UInt8} (hw : worker ≠ 0) {W : ℕ → Prop}
    {s s' : State} (hs' : (system balance worker).Reachable s') (hk : OwnKept s s')
    (hstuck : (system balance worker).Stuck (Action.Own W) s') :
    Drained W worker.toNat s s' := by
  have hi := inv_reachable hw hs'
  have hidle := idle_of_stuck hk.noNull hk.running (hstuck .push trivial)
    (hstuck .activate trivial)
  have hasleep : ∀ w < worker.toNat, W w →
      (s'.workers w).pc = .loop ∧ (s'.workers w).active = false := by
    intro w hlt hW
    refine asleep_of_stuck hk.noNull hk.running ?_ (hstuck (.wake w) hW) (hstuck (.advance w) hW)
    rw [hi.bounds.worker_eq]
    exact hlt
  have hserved : ∀ w < worker.toNat, W w →
      queue s' w = some [] ∧ (s'.workers w).served = pushed s' w := fun w hlt hW =>
    asleep_served hs' hw hidle (hasleep w hlt hW).1 (hasleep w hlt hW).2
  have hexact := hi.ledger.exact hk.noNull
  rw [pending_idle hidle, List.append_nil] at hexact
  exact ⟨hk.noNull, hidle, hk.accepted, hexact.trans hk.accepted, hasleep,
    fun w hlt hW => (hserved w hlt hW).1, fun w hlt hW => (hserved w hlt hW).2⟩

/-- No deadlock and no starvation: from every reachable state, however the workers in
`W` are scheduled and while the others may stand still, they run out of steps after at
most `work` of them, and only when they have served every connection pushed to them. -/
theorem drains (balance worker : UInt8) (hw : worker ≠ 0) (W : ℕ → Prop) {s : State}
    (hs : (system balance worker).Reachable s) (hcr : s.crashed = false)
    (hd : s.dispatcher ≠ .destroyed) :
    (∀ as s', (∀ a ∈ as, Action.Own W a) → (system balance worker).exec as s = some s' →
      as.length ≤ work worker.toNat s ∧
        ((system balance worker).Stuck (Action.Own W) s' → Drained W worker.toNat s s')) ∧
    ∃ as s', (∀ a ∈ as, Action.Own W a) ∧ (system balance worker).exec as s = some s' ∧
      Drained W worker.toNat s s' := by
  have hpaid := paid_system balance hw
  have hcost : ∀ a, Action.Own W a → 0 < a.cost := by
    intro a ha
    cases a <;> first | exact Nat.one_pos | exact ha.elim
  have hcredit : ∀ a, Action.Own W a → a.credit = 0 := by
    intro a ha
    cases a <;> first | rfl | exact ha.elim
  constructor
  · intro as s' has hrun
    refine ⟨hpaid.length_le hcost hcredit hs has hrun, fun hstuck => ?_⟩
    exact drained_of_stuck hw (System.reachable_exec hs hrun) (own_run hw hs hcr hd has hrun)
      hstuck
  · obtain ⟨as, s', has, hrun, hstuck⟩ := hpaid.settles hcost hcredit hs
    exact ⟨as, s', has, hrun, drained_of_stuck hw (System.reachable_exec hs hrun)
      (own_run hw hs hcr hd has hrun) hstuck⟩

/- A record is pushed for the first of two workers, which has not been woken. -/
def queuedRun : List Action := [.serve 7 [2, 0] 2 0 (some 10), .push]

theorem drains_run :
    ∃ s, (system 1 2).exec queuedRun (initial 1 2) = some s ∧ s.dispatcher = .pushed 0 ∧
      ∃ as s', (∀ a ∈ as, Action.Own (· = 0) a) ∧ (system 1 2).exec as s = some s' ∧
        Drained (· = 0) 2 s s' := by
  have hobs : ((system 1 2).exec queuedRun (initial 1 2)).map
      (fun s => (s.crashed, s.dispatcher)) = some (false, .pushed 0) := by
    decide
  obtain ⟨s, hs, he⟩ := Option.map_eq_some_iff.mp hobs
  simp only [Prod.mk.injEq] at he
  refine ⟨s, hs, he.2, ?_⟩
  exact (drains 1 2 (by decide) (· = 0) (System.reachable_exec (.init rfl) hs) he.1
    (by rw [he.2]; nofun)).2

end LibeventHttpServe.Balancer
