import LibeventHttpServe.Balancer.Drain
import LibeventHttpServe.Server.Service

/-!
# Every accepted connection is answered

The potential of the load balancer, with the threads that have not entered their
loops yet. What was accepted is served by steps of the workers and of the call of
`load_balancer_serve` that is under way, in every order in which they are taken.
-/

namespace LibeventHttpServe.Server
open Lib Shared Example
open Balancer (Drained OwnKept work)

/-- The steps that no new connection and no timeout is needed for. -/
def ServerAction.Own (n : ℕ) : ServerAction → Prop
  | .push | .activate => True
  | .enter w | .wake w | .advance w => w < n
  | .evthread _ | .initBalancer _ | .main | .initListener _ | .accept .. | .listenerReturns
  | .timeout _ => False

def ServerAction.cost (n : ℕ) : ServerAction → ℕ
  | .push | .activate | .wake _ | .advance _ => 1
  | .enter w => if w < n then 1 else 0
  | .evthread _ | .initBalancer _ | .main | .initListener _ | .accept .. | .listenerReturns
  | .timeout _ => 0

def ServerAction.credit : ServerAction → ℕ
  | .accept .. => 8
  | .timeout _ => 3
  | .main => 1
  | .evthread _ | .initBalancer _ | .initListener _ | .listenerReturns | .push | .activate
  | .enter _ | .wake _ | .advance _ => 0

/-- Whether a thread was created and has not entered its loop. -/
def toEnter : Balancer.ThreadPc → ℕ
  | .created => 1
  | .absent | .dispatching => 0

def entering (n : ℕ) (s : Process) : ℕ := ∑ w ∈ Finset.range n, toEnter (s.life.thread w)

/-- A bound on the steps left to the threads of the process. -/
def backlogOf (n : ℕ) (s : Process) : ℕ := work n s.balancer + entering n s

section
variable {inetPton : InetPton} {m : RootFlags} {s s' : Process}

theorem entering_congr {n : ℕ} (h : s'.life.thread = s.life.thread) :
    entering n s' = entering n s := by
  unfold entering
  rw [h]

theorem entering_perform {n : ℕ} {op : Balancer.Op} {rest : List Balancer.Op} :
    entering n (s.perform op rest) ≤ entering n s + 1 := by
  cases op with
  | acquire r => exact Nat.le_succ_of_le (entering_congr rfl).le
  | release r => exact Nat.le_succ_of_le (entering_congr rfl).le
  | addEvent w => exact Nat.le_succ_of_le (entering_congr rfl).le
  | createThread w =>
    have hother : ∀ v, v ≠ w →
        (s.perform (.createThread w) rest).life.thread v = s.life.thread v := by
      intro v hv
      rw [perform_thread, if_neg]
      simpa using Ne.symm hv
    by_cases hw : w < n
    · refine sum_range_le (b := 0) hw ?_ (fun v hv => by rw [hother v hv])
      rw [perform_thread, if_pos rfl]
      simp only [toEnter]
      omega
    · refine Nat.le_succ_of_le (Finset.sum_le_sum fun v hv => ?_)
      have hne : v ≠ w := by
        have hlt := Finset.mem_range.mp hv
        omega
      rw [hother v hne]

theorem entering_enter {n w : ℕ} {life : Balancer.Life}
    (h : Balancer.lifeStep s.life (.enter w) = some life) :
    entering n { s with life := life } + (if w < n then 1 else 0) ≤ entering n s := by
  obtain ⟨hc, rfl⟩ := enter_eq h
  have hother : ∀ v, v ≠ w →
      Function.update s.life.thread w .dispatching v = s.life.thread v :=
    fun v hv => Function.update_of_ne hv _ _
  split
  · rename_i hw
    refine sum_range_le (c := 0) hw ?_ (fun v hv => congrArg toEnter (hother v hv))
    simp [hc, toEnter]
  · rename_i hw
    rw [Nat.add_zero]
    refine Finset.sum_le_sum fun v hv => ?_
    have hne : v ≠ w := by
      have hlt := Finset.mem_range.mp hv
      omega
    exact (congrArg toEnter (hother v hne)).le

theorem destroy_thread {life life' : Balancer.Life}
    (h : Balancer.lifeStep life .destroy = some life') : life'.thread = life.thread := by
  simp only [Balancer.lifeStep, Option.ite_none_right_eq_some, Option.some.injEq] at h
  rw [← h.2]
  rfl

theorem paid_server (inetPton : InetPton) (hw : m.worker ≠ 0) :
    (serverSystem inetPton m).Paid (backlogOf m.worker.toNat)
      (ServerAction.cost m.worker.toNat) ServerAction.credit := by
  intro s a s' hs h
  have hq := Balancer.inv_reachable hw (queues_reachable hs)
  have hqueue : ∀ {x : Balancer.Action} {b}, Balancer.step s.balancer x = some b →
      work m.worker.toNat b + x.cost ≤ work m.worker.toNat s.balancer + x.credit :=
    fun hb => Balancer.step_work hq hb
  have hparts : (s'.life = s.life ∧ s'.balancer = s.balancer) ∨
      (Balancer.lifeStep s.life .destroy = some s'.life ∧
        Balancer.step s.balancer .destroy = some s'.balancer) →
      backlogOf m.worker.toNat s' ≤ backlogOf m.worker.toNat s := by
    rintro (⟨hl, hb⟩ | ⟨hl, hb⟩)
    · unfold backlogOf
      rw [hb, entering_congr (s := s) (by rw [hl])]
    · have hle := hqueue hb
      unfold backlogOf
      rw [entering_congr (destroy_thread hl)]
      simp only [Balancer.Action.cost, Balancer.Action.credit] at hle
      omega
  unfold backlogOf at hparts ⊢
  cases step_effect h with
  | evthread ok hpc => exact le_rfl
  | initBalancer ok hpc hl => exact le_rfl
  | name b w hpc hu => exact Nat.le_succ _
  | perform op rest hpc hl =>
    have hle : entering m.worker.toNat (s.perform op rest) ≤ entering m.worker.toNat s + 1 :=
      entering_perform
    have hsame : (s.perform op rest).balancer = s.balancer := rfl
    rw [hsame]
    simp only [ServerAction.cost, ServerAction.credit]
    omega
  | initialised b hpc hu hl => exact Nat.le_succ _
  | exit err hpc hl => exact Nat.le_succ _
  | listener net s' hpc h => exact hparts (initListenerStep_parts h)
  | retry fd addr addrLen rand malloc hpc => exact Nat.le_add_right _ _
  | dispatch a q b hpc ha hb =>
    have hle := hqueue hb
    have hsame : entering m.worker.toNat { s with balancer := b } = entering m.worker.toNat s :=
      entering_congr rfl
    rw [hsame]
    cases a <;> cases ha <;>
      simp only [ServerAction.cost, ServerAction.credit, Balancer.Action.cost,
        Balancer.Action.credit] at hle ⊢ <;> omega
  | listenerReturns s' hpc hok h => exact hparts (Or.inr (toEnd_parts h))
  | enter w life hl =>
    have hle := entering_enter (n := m.worker.toNat) hl
    simp only [ServerAction.cost, ServerAction.credit]
    omega
  | worker a w q b ha ht hb =>
    have hle := hqueue hb
    have hsame : entering m.worker.toNat { s with balancer := b } = entering m.worker.toNat s :=
      entering_congr rfl
    rw [hsame]
    cases a <;> cases ha <;>
      simp only [ServerAction.cost, ServerAction.credit, Balancer.Action.cost,
        Balancer.Action.credit] at hle ⊢ <;> omega

/-! ### Running until everything is answered -/

/-- The server is serving, and every connection that had been accepted in `s` was
passed to `evhttp_serve` by one worker, which has its `id`. -/
structure Answered (n : ℕ) (s s' : Process) : Prop where
  serving : s'.pc = .serving
  drained : Drained (· < n) n s.balancer s'.balancer
  answered : ∀ c ∈ s.balancer.accepted, ∃ w < n,
    c ∈ (s'.balancer.workers w).served ∧ s'.ids w = w

/-- What the steps of `ServerAction.Own` keep. -/
structure Kept (s s' : Process) : Prop where
  serving : s'.pc = .serving
  queues : OwnKept s.balancer s'.balancer

theorem kept_step {n : ℕ} {a : ServerAction} {balance worker : UInt8}
    (hq : Balancer.Inv balance worker s.balancer) (hk : Kept s s) (ha : a.Own n)
    (h : s.step a = some s') : Kept s s' := by
  obtain ⟨hpc, hsame⟩ := hk
  cases step_effect h with
  | evthread ok _ => exact ha.elim
  | initBalancer ok _ hl => exact ha.elim
  | name b w _ hu => exact ha.elim
  | perform op rest _ hl => exact ha.elim
  | initialised b _ hu hl => exact ha.elim
  | exit err _ hl => exact ha.elim
  | listener net s' _ h => exact ha.elim
  | retry fd addr addrLen rand malloc _ => exact ha.elim
  | dispatch a q b _ hq' hb =>
    refine ⟨hpc, Balancer.own_step (W := (· < n)) hq ?_ hb⟩
    cases a <;> cases hq' <;> exact ha
  | listenerReturns s' _ hok h => exact ha.elim
  | enter w life hl => exact ⟨hpc, hsame⟩
  | worker a w q b hq' ht hb =>
    refine ⟨hpc, Balancer.own_step (W := (· < n)) hq ?_ hb⟩
    cases a <;> cases hq' <;> exact ha

theorem kept_run (hw : m.worker ≠ 0) {n : ℕ} {as : List ServerAction}
    (hs : (serverSystem inetPton m).Reachable s) (hk : Kept s s) (has : ∀ a ∈ as, a.Own n)
    (hrun : (serverSystem inetPton m).exec as s = some s') : Kept s s' := by
  induction as generalizing s with
  | nil =>
    cases hrun
    exact hk
  | cons a as ih =>
    obtain ⟨t, ht, hrest⟩ := Option.bind_eq_some_iff.mp hrun
    have hq := Balancer.inv_reachable hw (queues_reachable hs)
    have hstep := kept_step hq hk (has a (List.mem_cons_self ..)) ht
    have htail := ih (.step hs ht) ⟨hstep.serving, hstep.queues.noNull, hstep.queues.running, rfl⟩
      (fun b hb => has b (List.mem_cons_of_mem a hb)) hrest
    exact ⟨htail.serving, htail.queues.noNull, htail.queues.running,
      htail.queues.accepted.trans hstep.queues.accepted⟩

theorem queueStep_none {a : Balancer.Action} (h : s.queueStep a = none) :
    Balancer.step s.balancer a = none := Option.map_eq_none_iff.mp h

/- A worker that cannot step has entered its loop. -/
theorem worker_stuck {n w : ℕ} (hthread : s.life.thread w ≠ .absent) (hlt : w < n)
    (hstuck : (serverSystem inetPton m).Stuck (ServerAction.Own n) s) :
    Balancer.step s.balancer (.wake w) = none ∧
      Balancer.step s.balancer (.advance w) = none := by
  have hdisp : s.life.thread w = .dispatching := by
    have henter : s.step (.enter w) = none := hstuck (.enter w) hlt
    cases ht : s.life.thread w with
    | absent => exact (hthread ht).elim
    | created => simp [Process.step, Balancer.lifeStep, ht] at henter
    | dispatching => rfl
  have hwake : s.workerStep w (.wake w) = none := hstuck (.wake w) hlt
  have hadv : s.workerStep w (.advance w) = none := hstuck (.advance w) hlt
  unfold Process.workerStep at hwake hadv
  rw [if_pos hdisp] at hwake hadv
  exact ⟨queueStep_none hwake, queueStep_none hadv⟩

theorem answered_of_stuck (hw : m.worker ≠ 0)
    (hs' : (serverSystem inetPton m).Reachable s') (hk : Kept s s')
    (hstuck : (serverSystem inetPton m).Stuck (ServerAction.Own m.worker.toNat) s') :
    Answered m.worker.toNat s s' := by
  obtain ⟨ok, hready, -⟩ := ready_of_serving hw hs' hk.serving
  have hqueues := queues_reachable hs'
  have hi := Balancer.inv_reachable hw hqueues
  have hpush : s'.step .push = none := hstuck .push trivial
  have hact : s'.step .activate = none := hstuck .activate trivial
  simp only [Process.step, if_pos hk.serving] at hpush hact
  have hbstuck : (Balancer.system m.balance m.worker).Stuck
      (Balancer.Action.Own (· < m.worker.toNat)) s'.balancer := by
    intro a ha
    cases a with
    | push => exact queueStep_none hpush
    | activate => exact queueStep_none hact
    | wake w => exact (worker_stuck (hready.thread ha) ha hstuck).1
    | advance w => exact (worker_stuck (hready.thread ha) ha hstuck).2
    | serve fd addr addrLen rand malloc => exact ha.elim
    | destroy => exact ha.elim
    | timeout w => exact ha.elim
  have hdrained := Balancer.drained_of_stuck hw hqueues hk.queues hbstuck
  refine ⟨hk.serving, hdrained, ?_⟩
  intro c hc
  rw [← hdrained.pushed] at hc
  obtain ⟨e, he, rfl⟩ := List.mem_map.mp hc
  have hlt := hi.bounds.log e he
  refine ⟨e.1, hlt, ?_, hready.id hlt⟩
  rw [hdrained.served e.1 hlt hlt]
  exact Balancer.mem_pushed.mpr he

/-- While the server serves, its own steps are bounded by the backlog in whatever order
they are taken; when none is left, every accepted connection was answered. -/
theorem accepted_answered (inetPton : InetPton) (m : RootFlags) (hw : m.worker ≠ 0)
    {s : Process} (hs : (serverSystem inetPton m).Reachable s) (hpc : s.pc = .serving)
    (hcr : s.balancer.crashed = false) :
    (∀ as s', (∀ a ∈ as, ServerAction.Own m.worker.toNat a) →
      (serverSystem inetPton m).exec as s = some s' →
      as.length ≤ backlogOf m.worker.toNat s ∧
        ((serverSystem inetPton m).Stuck (ServerAction.Own m.worker.toNat) s' →
          Answered m.worker.toNat s s')) ∧
    ∃ as s', (∀ a ∈ as, ServerAction.Own m.worker.toNat a) ∧
      (serverSystem inetPton m).exec as s = some s' ∧ Answered m.worker.toNat s s' := by
  have hat := (inv_reachable hw hs).atPc
  rw [hpc] at hat
  obtain ⟨-, -, hrunning, -⟩ := hat
  have hkept : Kept s s := ⟨hpc, hcr, hrunning, rfl⟩
  have hpaid := paid_server inetPton hw
  have hcost : ∀ a, ServerAction.Own m.worker.toNat a → 0 < a.cost m.worker.toNat := by
    intro a ha
    cases a with
    | enter w =>
      have hlt : w < m.worker.toNat := ha
      simp [ServerAction.cost, hlt]
    | push | activate | wake w | advance w => exact Nat.one_pos
    | evthread ok | initBalancer ok | main | initListener net | listenerReturns | timeout w =>
      exact ha.elim
    | accept fd addr addrLen rand malloc => exact ha.elim
  have hcredit : ∀ a, ServerAction.Own m.worker.toNat a → a.credit = 0 := by
    intro a ha
    cases a <;> first | rfl | exact ha.elim
  constructor
  · intro as s' has hrun
    refine ⟨hpaid.length_le hcost hcredit hs has hrun, fun hstuck => ?_⟩
    exact answered_of_stuck hw (System.reachable_exec hs hrun) (kept_run hw hs hkept has hrun)
      hstuck
  · obtain ⟨as, s', has, hrun, hstuck⟩ := hpaid.settles hcost hcredit hs
    exact ⟨as, s', has, hrun, answered_of_stuck hw (System.reachable_exec hs hrun)
      (kept_run hw hs hkept has hrun) hstuck⟩

/- A connection is queued before any thread of a worker has entered its loop. -/
def acceptEarlyRun : List ServerAction :=
  .evthread true :: .initBalancer (fun _ => true) :: List.replicate 17 .main ++
    [.initListener ⟨3, 0, 0, true, true⟩, .accept 7 [2, 0] 2 0 (some 10), .push]

theorem accepted_answered_run :
    ∃ s, (serverSystem (fun _ _ => none) syncFlags).exec acceptEarlyRun syncStart = some s ∧
      s.balancer.accepted = [⟨0, 7, 2, [2, 0]⟩] ∧ ∃ as s', (∀ a ∈ as, ServerAction.Own 2 a) ∧
        (serverSystem (fun _ _ => none) syncFlags).exec as s = some s' ∧ Answered 2 s s' := by
  have hobs : ((serverSystem (fun _ _ => none) syncFlags).exec acceptEarlyRun syncStart).map
      (fun s => (s.pc, s.balancer.crashed, s.balancer.accepted)) =
        some (.serving, false, [⟨0, 7, 2, [2, 0]⟩]) := by
    decide
  obtain ⟨s, hs, he⟩ := Option.map_eq_some_iff.mp hobs
  simp only [Prod.mk.injEq] at he
  exact ⟨s, hs, he.2.2, (accepted_answered (fun _ _ => none) syncFlags (by decide)
    (System.reachable_exec (.init ⟨_, rfl⟩) hs) he.1 he.2.1).2⟩

end
end LibeventHttpServe.Server
