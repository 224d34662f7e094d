import LibeventHttpServe.Balancer.Sockets
import LibeventHttpServe.Balancer.Teardown
import LibeventHttpServe.Server.Program

/-!
# From `root_handler` to the first connection

`Effect` says once what a step of the process can do. Seen through its two parts
the process is a run of the balancer's queues and a run of its threads; what the
main thread has done by the time it is at a point is `AtPc`.
-/

namespace LibeventHttpServe.Server
open Lib Shared Example
open Balancer (Setup Life State Op loadBalancerInit loadBalancerDestroy lifeInitial LifeInv)

/-- The step of the load balancer that the dispatcher takes by an action. -/
def ServerAction.dispatches : ServerAction → Option Balancer.Action
  | .accept fd addr addrLen rand malloc => some (.serve fd addr addrLen rand malloc)
  | .push => some .push
  | .activate => some .activate
  | .evthread _ | .initBalancer _ | .main | .initListener _ | .listenerReturns | .enter _
  | .timeout _ | .wake _ | .advance _ => none

/-- The worker whose event loop takes a step by an action, and that step. -/
def ServerAction.works : ServerAction → Option (ℕ × Balancer.Action)
  | .timeout w => some (w, .timeout w)
  | .wake w => some (w, .wake w)
  | .advance w => some (w, .advance w)
  | .evthread _ | .initBalancer _ | .main | .initListener _ | .accept .. | .push | .activate
  | .listenerReturns | .enter _ => none

/- What a step does, guards included. The two parts change by steps of their own. -/
inductive Effect (s : Process) : ServerAction → Process → Prop where
  | evthread (ok : Bool) (hpc : s.pc = .start) :
      Effect s (.evthread ok) { s with pc := if ok then .balancer else .returned (-1) }
  | initBalancer (ok : Balancer.Call → Bool) (hpc : s.pc = .balancer)
      (hl : Balancer.lifeStep s.life (.init ok) =
        some (s.life.call (loadBalancerInit ok { s.life.setup with ops := [] }).1)) :
      Effect s (.initBalancer ok) { s with
        life := s.life.call (loadBalancerInit ok { s.life.setup with ops := [] }).1
        pc := .initBalancer (loadBalancerInit ok { s.life.setup with ops := [] }).2 }
  | name (b : Bool) (w : ℕ) (hpc : s.pc = .initBalancer b) (hu : s.unnamed = some w) :
      Effect s .main { s with ids := Function.update s.ids w w, unnamed := none }
  | perform (op : Op) (rest : List Op)
      (hpc : (∃ b, s.pc = .initBalancer b ∧ s.unnamed = none) ∨ ∃ err, s.pc = .ending err)
      (hl : s.life.todo = op :: rest) : Effect s .main (s.perform op rest)
  | initialised (b : Bool) (hpc : s.pc = .initBalancer b) (hu : s.unnamed = none)
      (hl : s.life.todo = []) :
      Effect s .main { s with pc := if b then .listener else .returned (-1) }
  | exit (err : ℤ) (hpc : s.pc = .ending err) (hl : s.life.todo = []) :
      Effect s .main { s with pc := .returned err }
  | listener (net : Network) (s' : Process) (hpc : s.pc = .listener)
      (h : s.initListenerStep net = some s') : Effect s (.initListener net) s'
  | retry (fd : ℤ) (addr : List UInt8) (addrLen : UInt32) (rand : ℕ)
      (malloc : Option Balancer.Ptr) (hpc : s.pc = .serving) :
      Effect s (.accept fd addr addrLen rand malloc) s
  | dispatch (a : ServerAction) (q : Balancer.Action) (b : State) (hpc : s.pc = .serving)
      (ha : a.dispatches = some q) (hb : Balancer.step s.balancer q = some b) :
      Effect s a { s with balancer := b }
  | listenerReturns (s' : Process) (hpc : s.pc = .serving)
      (hok : ¬ (s.flags.sync ≠ 0 ∧ s.sync.ok = true)) (h : s.toEnd 0 = some s') :
      Effect s .listenerReturns s'
  | enter (w : ℕ) (life : Life) (hl : Balancer.lifeStep s.life (.enter w) = some life) :
      Effect s (.enter w) { s with life := life }
  | worker (a : ServerAction) (w : ℕ) (q : Balancer.Action) (b : State)
      (ha : a.works = some (w, q)) (ht : s.life.thread w = .dispatching)
      (hb : Balancer.step s.balancer q = some b) : Effect s a { s with balancer := b }

theorem mainStep_effect {s s' : Process} (h : s.mainStep = some s') : Effect s .main s' := by
  unfold Process.mainStep at h
  split at h
  · rename_i _ b w hpc hu
    cases h
    exact .name b w hpc hu
  · rename_i b op rest hpc hu hl
    cases h
    exact .perform op rest (Or.inl ⟨b, hpc, hu⟩) hl
  · rename_i b hpc hu hl
    cases h
    exact .initialised b hpc hu hl
  · rename_i _ err op rest hpc hl
    cases h
    exact .perform op rest (Or.inr ⟨err, hpc⟩) hl
  · rename_i _ err hpc hl
    cases h
    exact .exit err hpc hl
  · cases h

theorem queueStep_eq {s s' : Process} {a : Balancer.Action} (h : s.queueStep a = some s') :
    ∃ b, Balancer.step s.balancer a = some b ∧ s' = { s with balancer := b } := by
  obtain ⟨b, hb, rfl⟩ := Option.map_eq_some_iff.mp h
  exact ⟨b, hb, rfl⟩

theorem workerStep_effect {s s' : Process} {a : ServerAction} {w : ℕ} {q : Balancer.Action}
    (ha : a.works = some (w, q)) (h : s.workerStep w q = some s') : Effect s a s' := by
  unfold Process.workerStep at h
  rw [Option.ite_none_right_eq_some] at h
  obtain ⟨b, hb, rfl⟩ := queueStep_eq h.2
  exact .worker a w q b ha h.1 hb

theorem dispatch_effect {s s' : Process} {a : ServerAction} {q : Balancer.Action}
    (hpc : s.pc = .serving) (ha : a.dispatches = some q) (h : s.queueStep q = some s') :
    Effect s a s' := by
  obtain ⟨b, hb, rfl⟩ := queueStep_eq h
  exact .dispatch a q b hpc ha hb

theorem step_effect {s s' : Process} {a : ServerAction} (h : s.step a = some s') :
    Effect s a s' := by
  cases a with
  | evthread ok =>
    obtain ⟨hpc, he⟩ := Option.ite_none_right_eq_some.mp h
    cases he
    exact .evthread ok hpc
  | initBalancer ok =>
    obtain ⟨hpc, he⟩ := Option.ite_none_right_eq_some.mp h
    obtain ⟨life, hl, rfl⟩ := Option.map_eq_some_iff.mp he
    have hcall := hl
    simp only [Balancer.lifeStep, Option.ite_none_left_eq_some, Option.some.injEq] at hcall
    obtain ⟨-, rfl⟩ := hcall
    exact .initBalancer ok hpc hl
  | main => exact mainStep_effect h
  | initListener net =>
    obtain ⟨hpc, he⟩ := Option.ite_none_right_eq_some.mp h
    exact .listener net s' hpc he
  | accept fd addr addrLen rand malloc =>
    obtain ⟨hpc, he⟩ := Option.ite_none_right_eq_some.mp h
    unfold Process.acceptStep at he
    split_ifs at he
    · cases he
      exact .retry fd addr addrLen rand malloc hpc
    · exact dispatch_effect hpc rfl he
  | push =>
    obtain ⟨hpc, he⟩ := Option.ite_none_right_eq_some.mp h
    exact dispatch_effect hpc rfl he
  | activate =>
    obtain ⟨hpc, he⟩ := Option.ite_none_right_eq_some.mp h
    exact dispatch_effect hpc rfl he
  | listenerReturns =>
    obtain ⟨hpc, he⟩ := Option.ite_none_right_eq_some.mp h
    unfold Process.listenerReturns at he
    split at he
    · cases he
    · rename_i hok
      exact .listenerReturns s' hpc hok he
  | enter w =>
    obtain ⟨life, hl, rfl⟩ := Option.map_eq_some_iff.mp h
    exact .enter w life hl
  | timeout w => exact workerStep_effect rfl h
  | wake w => exact workerStep_effect rfl h
  | advance w => exact workerStep_effect rfl h

theorem toEnd_eq {s s' : Process} {err : ℤ} (h : s.toEnd err = some s') :
    ∃ life b, Balancer.lifeStep s.life .destroy = some life ∧
      Balancer.step s.balancer .destroy = some b ∧
      s' = { s with pc := .ending err, life := life, balancer := b } := by
  unfold Process.toEnd at h
  simp only [Option.bind_eq_bind, Option.bind_eq_some_iff, Option.pure_def,
    Option.some.injEq] at h
  obtain ⟨life, hl, b, hb, rfl⟩ := h
  exact ⟨life, b, hl, hb, rfl⟩

theorem toEnd_parts {s s' : Process} {err : ℤ} (h : s.toEnd err = some s') :
    Balancer.lifeStep s.life .destroy = some s'.life ∧
      Balancer.step s.balancer .destroy = some s'.balancer := by
  obtain ⟨life, b, hl, hb, rfl⟩ := toEnd_eq h
  exact ⟨hl, hb⟩

/-- The listener is open, as its initialisation and `serve` have left it. -/
def Listening (net : Network) (s : Process) : Prop :=
  if s.flags.sync ≠ 0 then
    (net.socket ≠ -1 ∧ 0 ≤ net.bind ∧ 0 ≤ net.listen) ∧
      s.sync = ⟨net.socket, useV6 s.addr, true⟩ ∧ s.calls = syncCalls net s.addr
  else
    net.eventBaseNew = true ∧ net.evconnlistenerNewBind = true ∧
      s.calls = asyncCalls net s.addr ++ [.evconnlistenerEnable]

/- The initialisation of the listener succeeds, or the balancer is taken down. -/
theorem initListenerStep_cases {s s' : Process} {net : Network} (hc : s.calls = [])
    (h : s.initListenerStep net = some s') :
    (∃ calls sync async, s' = { s with
        pc := .serving, calls := calls, sync := sync, async := async } ∧ Listening net s') ∨
      ∃ calls, { s with calls := calls }.toEnd (-1) = some s' ∧
        ∀ r, Settled (entries calls) r := by
  unfold Process.initListenerStep at h
  split at h
  · rename_i hsync
    rcases syncListenerInit_cases net s.sync s.addr with ⟨he, hs⟩ | ⟨calls, he, hset⟩ <;>
      rw [he] at h <;> simp only [hc, List.nil_append] at h
    · cases h
      exact Or.inl ⟨_, _, _, rfl, by simp [Listening, hsync, hs]⟩
    · exact Or.inr ⟨calls, h, hset⟩
  · rename_i hsync
    rcases asyncListenerInit_cases net s.async s.addr with ⟨he, hb, hl⟩ | ⟨calls, he, hset⟩ <;>
      rw [he] at h <;> simp only [hc, List.nil_append] at h
    · cases h
      exact Or.inl ⟨_, _, _, rfl, by simpa [Listening, hsync] using ⟨hb, hl⟩⟩
    · exact Or.inr ⟨calls, h, hset⟩

theorem initListenerStep_uses {s s' : Process} {net : Network}
    (h : s.initListenerStep net = some s') :
    s'.addr = s.addr ∧ ∀ c ∈ s'.calls, c ∈ s.calls ∨ c.Uses s.addr := by
  have hinit : ∀ {t : Process} {err : ℤ}, t.toEnd err = some s' →
      s'.addr = t.addr ∧ s'.calls = t.calls := by
    intro t err ht
    obtain ⟨life, b, -, -, rfl⟩ := toEnd_eq ht
    exact ⟨rfl, rfl⟩
  have hsync := syncListenerInit_uses net s.sync s.addr
  have hasync := asyncListenerInit_uses net s.async s.addr
  unfold Process.initListenerStep at h
  split at h
  · dsimp only at h
    split at h
    · obtain ⟨ha, hc⟩ := hinit h
      refine ⟨ha, fun c hm => ?_⟩
      rw [hc] at hm
      exact (List.mem_append.mp hm).imp_right (hsync c)
    · cases h
      exact ⟨rfl, fun c hm => (List.mem_append.mp hm).imp_right (hsync c)⟩
  · dsimp only at h
    split at h
    · obtain ⟨ha, hc⟩ := hinit h
      refine ⟨ha, fun c hm => ?_⟩
      rw [hc] at hm
      exact (List.mem_append.mp hm).imp_right (hasync c)
    · cases h
      refine ⟨rfl, fun c hm => ?_⟩
      rcases List.mem_append.mp hm with hm | hm
      · exact (List.mem_append.mp hm).imp_right (hasync c)
      · rw [List.mem_singleton.mp hm]
        exact Or.inr trivial

/-! ### The two parts -/

theorem initListenerStep_parts {s s' : Process} {net : Network}
    (h : s.initListenerStep net = some s') :
    (s'.life = s.life ∧ s'.balancer = s.balancer) ∨
      (Balancer.lifeStep s.life .destroy = some s'.life ∧
        Balancer.step s.balancer .destroy = some s'.balancer) := by
  unfold Process.initListenerStep at h
  split at h
  · dsimp only at h
    split at h
    · have hparts := toEnd_parts h
      exact Or.inr hparts
    · cases h
      exact Or.inl ⟨rfl, rfl⟩
  · dsimp only at h
    split at h
    · have hparts := toEnd_parts h
      exact Or.inr hparts
    · cases h
      exact Or.inl ⟨rfl, rfl⟩

/-- The queues of the process are a run of the load balancer alone. -/
theorem refines_queues (inetPton : InetPton) (m : RootFlags) :
    (serverSystem inetPton m).Refines (Balancer.system m.balance m.worker)
      Process.balancer where
  init := by
    rintro s ⟨garbage, rfl⟩
    rfl
  step := by
    intro s a s' _ h
    cases step_effect h with
    | evthread ok hpc => exact Or.inl rfl
    | initBalancer ok hpc hl => exact Or.inl rfl
    | name b w hpc hu => exact Or.inl rfl
    | perform op rest hpc hl => exact Or.inl rfl
    | initialised b hpc hu hl => exact Or.inl rfl
    | exit err hpc hl => exact Or.inl rfl
    | listener net s' hpc h =>
      rcases initListenerStep_parts h with ⟨-, he⟩ | ⟨-, he⟩
      · exact Or.inl he
      · exact Or.inr ⟨.destroy, he⟩
    | retry fd addr addrLen rand malloc hpc => exact Or.inl rfl
    | dispatch a q b hpc ha hb => exact Or.inr ⟨q, hb⟩
    | listenerReturns s' hpc hok h =>
      obtain ⟨life, b, -, hb, rfl⟩ := toEnd_eq h
      exact Or.inr ⟨.destroy, hb⟩
    | enter w life hl => exact Or.inl rfl
    | worker a w q b ha ht hb => exact Or.inr ⟨q, hb⟩

/-! ### What has happened by the time the main thread is at a point -/

/-- `load_balancer_init` on the values of the flag `worker`. -/
def initOf (ok : Balancer.Call → Bool) (n : ℕ) : Setup × Bool :=
  loadBalancerInit ok (lifeInitial n).setup

/-- The operations of the `load_balancer_destroy` behind it. -/
def destroyOps (ok : Balancer.Call → Bool) (n : ℕ) : List Op :=
  (loadBalancerDestroy { (initOf ok n).1 with ops := [] }).ops

/-- What is acquired and not released by a list of operations. -/
def liveAfter (ops : List Op) : Balancer.Resource → Bool :=
  ops.foldl (fun live op => match op with
    | .acquire r => Function.update live r true
    | .release r => Function.update live r false
    | .addEvent _ | .createThread _ => live) fun _ => false

/-- Nothing was accepted, and `load_balancer_destroy` was not called. -/
def Fresh (s : Process) : Prop :=
  s.balancer.accepted = [] ∧ s.balancer.dispatcher = .idle

/-- Inside `load_balancer_init`: a part of its operations is performed, and the
workers whose threads were created have their `id`, or are just being given it. -/
structure SetUp (n : ℕ) (ok : Balancer.Call → Bool) (s : Process) : Prop where
  started : s.life.started = true
  setup : s.life.setup = (initOf ok n).1
  ops : s.ops ++ s.life.todo = (initOf ok n).1.ops
  thread : ∀ w, s.life.thread w = .absent ↔ Op.createThread w ∉ s.ops
  ids : ∀ w, Op.createThread w ∈ s.ops → s.unnamed = some w ∨ s.ids w = w
  safe : (initOf ok n).2 = true → LifeInv s.life

/-- `load_balancer_init` has returned 0. -/
structure Ready (n : ℕ) (ok : Balancer.Call → Bool) (s : Process) : Prop where
  setUp : SetUp n ok s
  result : (initOf ok n).2 = true
  todo : s.life.todo = []
  unnamed : s.unnamed = none

/-- At the label `END`: the operations are those of a successful set-up and a part
of the tear-down. -/
structure Down (n : ℕ) (ok : Balancer.Call → Bool) (s : Process) : Prop where
  result : (initOf ok n).2 = true
  ops : s.ops ++ s.life.todo = (initOf ok n).1.ops ++ destroyOps ok n
  thread : ∀ w < n, s.life.thread w ≠ .absent
  ids : ∀ w < n, s.ids w = w
  destroyed : s.balancer.dispatcher = .destroyed

/-- How `END` was reached: the listener could not be made, or the event loop of the
asynchronous one has returned. -/
def Closed (err : ℤ) (s : Process) : Prop :=
  (err = -1 ∧ s.balancer.accepted = [] ∧ ∀ r, Settled (entries s.calls) r) ∨
    (err = 0 ∧ s.flags.sync = 0 ∧ ∃ net, Listening net s)

def AtPc (n : ℕ) (s : Process) : MainPc → Prop
  | .start | .balancer =>
    s.life = lifeInitial n ∧ s.ops = [] ∧ s.unnamed = none ∧ s.calls = [] ∧ Fresh s
  | .initBalancer b => ∃ ok, (initOf ok n).2 = b ∧ SetUp n ok s ∧ s.calls = [] ∧ Fresh s
  | .listener => ∃ ok, Ready n ok s ∧ s.calls = [] ∧ Fresh s
  | .serving => ∃ ok, Ready n ok s ∧ s.balancer.dispatcher ≠ .destroyed ∧ ∃ net, Listening net s
  | .ending err => ∃ ok, Down n ok s ∧ Closed err s
  | .returned err =>
    (err = -1 ∧ s.ops = [] ∧ s.calls = [] ∧ Fresh s) ∨
      (∃ ok, (initOf ok n).2 = false ∧ s.ops = (initOf ok n).1.ops ∧ err = -1 ∧ s.calls = [] ∧
        Fresh s) ∨
      ∃ ok, Down n ok s ∧ s.life.todo = [] ∧ Closed err s

structure Inv (inetPton : InetPton) (m : RootFlags) (s : Process) : Prop where
  flags : s.flags = m
  addr : ∃ garbage, s.addr = listenAddress inetPton m garbage
  uses : ∀ c ∈ s.calls, c.Uses s.addr
  live : s.life.live = liveAfter s.ops
  atPc : AtPc m.worker.toNat s s.pc

theorem inv_initial (inetPton : InetPton) (m : RootFlags) (garbage : SharedAddress) :
    Inv inetPton m (Process.initial inetPton m garbage) :=
  ⟨rfl, ⟨garbage, rfl⟩, nofun, rfl, rfl, rfl, rfl, rfl, rfl, rfl⟩

section
variable {n : ℕ} {ok : Balancer.Call → Bool} {s t : Process}

theorem SetUp.congr (h : SetUp n ok s) (hl : t.life = s.life) (ho : t.ops = s.ops)
    (hi : t.ids = s.ids) (hu : t.unnamed = s.unnamed) : SetUp n ok t := by
  refine ⟨by rw [hl, h.started], by rw [hl, h.setup], by rw [hl, ho, h.ops], ?_, ?_, ?_⟩
  · rw [hl, ho]
    exact h.thread
  · rw [ho, hi, hu]
    exact h.ids
  · rw [hl]
    exact h.safe

theorem Ready.congr (h : Ready n ok s) (hl : t.life = s.life) (ho : t.ops = s.ops)
    (hi : t.ids = s.ids) (hu : t.unnamed = s.unnamed) : Ready n ok t :=
  ⟨h.setUp.congr hl ho hi hu, h.result, by rw [hl, h.todo], hu.trans h.unnamed⟩

end

/-! ### Steps of the threads -/

section Threads
variable {n : ℕ} {ok : Balancer.Call → Bool} {s : Process} {w : ℕ} {life : Life}

theorem enter_eq (h : Balancer.lifeStep s.life (.enter w) = some life) :
    s.life.thread w = .created ∧
      life = { s.life with thread := Function.update s.life.thread w .dispatching } := by
  simp only [Balancer.lifeStep, Option.ite_none_right_eq_some, Option.some.injEq] at h
  exact ⟨h.1, h.2.symm⟩

theorem enter_absent (h : Balancer.lifeStep s.life (.enter w) = some life) (v : ℕ) :
    life.thread v = .absent ↔ s.life.thread v = .absent := by
  obtain ⟨hc, rfl⟩ := enter_eq h
  by_cases hv : v = w
  · subst hv
    simp [hc]
  · simp [Function.update_of_ne hv]

theorem SetUp.enter (hs : SetUp n ok s)
    (h : Balancer.lifeStep s.life (.enter w) = some life) :
    SetUp n ok { s with life := life } := by
  have habsent := enter_absent h
  have hsafe := fun hr => Balancer.lifeInv_enter h (hs.safe hr)
  obtain ⟨-, rfl⟩ := enter_eq h
  exact ⟨hs.started, hs.setup, hs.ops, fun v => (habsent v).trans (hs.thread v), hs.ids, hsafe⟩

theorem Ready.enter (hs : Ready n ok s)
    (h : Balancer.lifeStep s.life (.enter w) = some life) :
    Ready n ok { s with life := life } := by
  have hset := hs.setUp.enter h
  obtain ⟨-, rfl⟩ := enter_eq h
  exact ⟨hset, hs.result, hs.todo, hs.unnamed⟩

theorem Down.enter (hs : Down n ok s)
    (h : Balancer.lifeStep s.life (.enter w) = some life) :
    Down n ok { s with life := life } := by
  have habsent := enter_absent h
  obtain ⟨-, rfl⟩ := enter_eq h
  exact ⟨hs.result, hs.ops, fun v hv => mt (habsent v).mp (hs.thread v hv), hs.ids, hs.destroyed⟩

theorem atPc_enter {pc : MainPc} (hs : AtPc n s pc)
    (h : Balancer.lifeStep s.life (.enter w) = some life) : AtPc n { s with life := life } pc := by
  have hearly : s.life = lifeInitial n → False := by
    intro he
    have hc := (enter_eq h).1
    rw [he] at hc
    cases hc
  cases pc with
  | start => exact (hearly hs.1).elim
  | balancer => exact (hearly hs.1).elim
  | initBalancer b =>
    obtain ⟨ok, hb, hset, hrest⟩ := hs
    exact ⟨ok, hb, hset.enter h, hrest⟩
  | listener =>
    obtain ⟨ok, hr, hrest⟩ := hs
    exact ⟨ok, hr.enter h, hrest⟩
  | serving =>
    obtain ⟨ok, hr, hrest⟩ := hs
    exact ⟨ok, hr.enter h, hrest⟩
  | ending err =>
    obtain ⟨ok, hd, hrest⟩ := hs
    exact ⟨ok, hd.enter h, hrest⟩
  | returned err =>
    rcases hs with hs | hs | ⟨ok, hd, ht, hrest⟩
    · exact Or.inl hs
    · exact Or.inr (Or.inl hs)
    · have hdown := hd.enter h
      obtain ⟨-, rfl⟩ := enter_eq h
      exact Or.inr (Or.inr ⟨ok, hdown, ht, hrest⟩)

/- A step of a worker's event loop. -/
theorem atPc_queues {pc : MainPc} {b : State} (hs : AtPc n s pc)
    (ha : b.accepted = s.balancer.accepted) (hd : b.dispatcher = s.balancer.dispatcher) :
    AtPc n { s with balancer := b } pc := by
  have hfresh : Fresh s → Fresh { s with balancer := b } := fun hf =>
    ⟨ha.trans hf.1, hd.trans hf.2⟩
  have hdown : ∀ {ok}, Down n ok s → Down n ok { s with balancer := b } := fun h =>
    ⟨h.result, h.ops, h.thread, h.ids, hd.trans h.destroyed⟩
  have hclosed : ∀ {err}, Closed err s → Closed err { s with balancer := b } := by
    rintro err (⟨he, hacc, hnet⟩ | hc)
    · exact Or.inl ⟨he, ha.trans hacc, hnet⟩
    · exact Or.inr hc
  cases pc with
  | start => exact ⟨hs.1, hs.2.1, hs.2.2.1, hs.2.2.2.1, hfresh hs.2.2.2.2⟩
  | balancer => exact ⟨hs.1, hs.2.1, hs.2.2.1, hs.2.2.2.1, hfresh hs.2.2.2.2⟩
  | initBalancer c =>
    obtain ⟨ok, hc, hs, hcalls, hf⟩ := hs
    exact ⟨ok, hc, hs.congr rfl rfl rfl rfl, hcalls, hfresh hf⟩
  | listener =>
    obtain ⟨ok, hr, hcalls, hf⟩ := hs
    exact ⟨ok, hr.congr rfl rfl rfl rfl, hcalls, hfresh hf⟩
  | serving =>
    obtain ⟨ok, hr, hne, hnet⟩ := hs
    exact ⟨ok, hr.congr rfl rfl rfl rfl, by rwa [hd], hnet⟩
  | ending err =>
    obtain ⟨ok, hd, hc⟩ := hs
    exact ⟨ok, hdown hd, hclosed hc⟩
  | returned err =>
    rcases hs with ⟨he, ho, hc, hf⟩ | ⟨ok, hr, ho, he, hc, hf⟩ | ⟨ok, hd, ht, hc⟩
    · exact Or.inl ⟨he, ho, hc, hfresh hf⟩
    · exact Or.inr (Or.inl ⟨ok, hr, ho, he, hc, hfresh hf⟩)
    · exact Or.inr (Or.inr ⟨ok, hdown hd, ht, hclosed hc⟩)

end Threads

/-! ### A successful `load_balancer_init` -/

theorem workerOk_of_init {ok : Balancer.Call → Bool} {s : Setup} {w : ℕ}
    (h : (Balancer.workerInit ok s w).2 = true) : Balancer.workerOk ok w = true := by
  unfold Balancer.workerInit at h
  split_ifs at h
  simp_all [Balancer.workerOk]

theorem workersOk_of_init {ok : Balancer.Call → Bool} {n i : ℕ} {s : Setup}
    (h : (Balancer.initWorkers ok n i s).2 = true) :
    ∀ w, i ≤ w → w < i + n → Balancer.workerOk ok w = true := by
  induction n generalizing i s with
  | zero =>
    intro w h1 h2
    omega
  | succ n ih =>
    cases hw : Balancer.workerInit ok s i with
    | mk t b =>
      rw [Balancer.initWorkers, hw] at h
      cases b with
      | false => cases h
      | true =>
        intro w h1 h2
        by_cases he : w = i
        · subst he
          exact workerOk_of_init (s := s) (by rw [hw])
        · exact ih h w (by omega) (by omega)

theorem initOf_workersOk {ok : Balancer.Call → Bool} {n : ℕ} (h : (initOf ok n).2 = true) :
    ∀ w < n, Balancer.workerOk ok w = true := by
  unfold initOf loadBalancerInit at h
  split_ifs at h
  intro w hw
  have hlt : w < 0 + n := by omega
  exact workersOk_of_init h w (Nat.zero_le w) hlt

theorem initOf_ops {ok : Balancer.Call → Bool} {n : ℕ} (h : (initOf ok n).2 = true) :
    (initOf ok n).1.ops = [.acquire .workers, .acquire .mutex] ++
      (List.range' 0 n).flatMap Balancer.workerInitOps := by
  have hall := initOf_workersOk h
  unfold initOf loadBalancerInit at h ⊢
  split_ifs at h ⊢
  obtain ⟨p, hp⟩ := Balancer.initWorkers_ok (i := 0) (n := n) (fun w _ hw => hall w (by omega))
    { (lifeInitial n).setup with
      allocated := true, ptrs := fun _ => ⟨false, false, false⟩
      ops := [.acquire .workers, .acquire .mutex] }
  have he := congrArg (fun r => r.1.ops) hp
  exact he

theorem createThread_mem {ok : Balancer.Call → Bool} {n w : ℕ} (h : (initOf ok n).2 = true)
    (hw : w < n) : Op.createThread w ∈ (initOf ok n).1.ops := by
  rw [initOf_ops h]
  refine List.mem_append_right _ (List.mem_flatMap.mpr ⟨w, ?_, ?_⟩)
  · exact List.mem_range'_1.mpr ⟨Nat.zero_le w, by omega⟩
  · simp [Balancer.workerInitOps]

/-! ### Steps of the main thread -/

section Main
variable {n : ℕ} {ok : Balancer.Call → Bool} {s : Process}

theorem liveAfter_append (ops : List Op) (op : Op) :
    liveAfter (ops ++ [op]) = match op with
      | .acquire r => Function.update (liveAfter ops) r true
      | .release r => Function.update (liveAfter ops) r false
      | .addEvent _ | .createThread _ => liveAfter ops := by
  unfold liveAfter
  rw [List.foldl_append]
  cases op <;> rfl

theorem perform_live {op : Op} {rest : List Op} (h : s.life.live = liveAfter s.ops) :
    (s.perform op rest).life.live = liveAfter (s.perform op rest).ops := by
  show (s.life.perform op rest).live = liveAfter (s.ops ++ [op])
  rw [liveAfter_append, ← h]
  cases op <;> rfl

theorem perform_thread {op : Op} {rest : List Op} (w : ℕ) :
    (s.perform op rest).life.thread w =
      if op = .createThread w then .created else s.life.thread w := by
  show (s.life.perform op rest).thread w = _
  cases op with
  | acquire r => rfl
  | release r => rfl
  | addEvent v => rfl
  | createThread v =>
    by_cases hv : w = v
    · subst hv
      simp [Life.perform]
    · have hne : ¬ v = w := fun h => hv h.symm
      simp [Life.perform, Function.update_of_ne hv, hne]

theorem perform_setup (s : Process) (op : Op) (rest : List Op) :
    (s.perform op rest).life.setup = s.life.setup ∧
      (s.perform op rest).life.started = s.life.started ∧
      (s.perform op rest).life.todo = rest := by
  cases op <;> exact ⟨rfl, rfl, rfl⟩

theorem SetUp.start {ok : Balancer.Call → Bool} (h : s.life = lifeInitial n)
    (hops : s.ops = []) {pc : MainPc} :
    SetUp n ok { s with life := s.life.call (initOf ok n).1, pc := pc } where
  started := rfl
  setup := rfl
  ops := by
    rw [hops]
    rfl
  thread := by
    intro w
    rw [h, hops]
    simp [Life.call, lifeInitial]
  ids := by
    intro w hw
    rw [hops] at hw
    cases hw
  safe := by
    intro hr
    have hall := initOf_workersOk hr
    have hstep : Balancer.lifeStep s.life (.init ok) = some (s.life.call (initOf ok n).1) := by
      rw [h]
      rfl
    refine Balancer.lifeInv_init ?_ hstep ?_
    · rw [h]
      exact fun _ _ _ => hall
    · rw [h]
      exact .idle (fun w hw => by cases hw) fun _ => rfl

theorem SetUp.name (h : SetUp n ok s) {w : ℕ} (hu : s.unnamed = some w) :
    SetUp n ok { s with ids := Function.update s.ids w w, unnamed := none } := by
  refine ⟨h.started, h.setup, h.ops, h.thread, ?_, h.safe⟩
  intro v hv
  right
  by_cases hvw : v = w
  · subst hvw
    exact Function.update_self ..
  · have hold := h.ids v hv
    rw [hu, Option.some.injEq] at hold
    exact (Function.update_of_ne hvw ..).trans (hold.resolve_left (fun he => hvw he.symm))

theorem SetUp.perform (h : SetUp n ok s) (hu : s.unnamed = none) {op : Op} {rest : List Op}
    (ht : s.life.todo = op :: rest) : SetUp n ok (s.perform op rest) := by
  obtain ⟨hsetup, hstarted, htodo⟩ := perform_setup s op rest
  have hops : (s.perform op rest).ops = s.ops ++ [op] := rfl
  refine ⟨hstarted.trans h.started, hsetup.trans h.setup, ?_, ?_, ?_, ?_⟩
  · rw [hops, htodo, List.append_assoc, List.singleton_append, ← ht]
    exact h.ops
  · intro w
    rw [perform_thread, hops, List.mem_append, List.mem_singleton, not_or, ← h.thread w]
    by_cases he : op = .createThread w
    · simp [he]
    · simp [he, Ne.symm he]
  · intro w hw
    rw [hops, List.mem_append, List.mem_singleton] at hw
    rcases hw with hw | rfl
    · have hold := h.ids w hw
      rw [hu] at hold
      exact Or.inr (hold.resolve_left nofun)
    · exact Or.inl rfl
  · intro hr
    refine Balancer.lifeInv_main (s := s.life) ?_ (h.safe hr)
    simp only [Balancer.lifeStep, ht]
    rfl

theorem Down.perform (h : Down n ok s) {op : Op} {rest : List Op}
    (ht : s.life.todo = op :: rest) : Down n ok (s.perform op rest) := by
  have htodo := (perform_setup s op rest).2.2
  have hops : (s.perform op rest).ops = s.ops ++ [op] := rfl
  refine ⟨h.result, ?_, ?_, h.ids, h.destroyed⟩
  · rw [hops, htodo, List.append_assoc, List.singleton_append, ← ht]
    exact h.ops
  · intro w hw
    rw [perform_thread]
    split
    · nofun
    · exact h.thread w hw

theorem Ready.thread (h : Ready n ok s) {w : ℕ} (hw : w < n) : s.life.thread w ≠ .absent := by
  intro ha
  refine (h.setUp.thread w).mp ha ?_
  have hops := h.setUp.ops
  rw [h.todo, List.append_nil] at hops
  rw [hops]
  exact createThread_mem h.result hw

theorem Ready.id (h : Ready n ok s) {w : ℕ} (hw : w < n) : s.ids w = w := by
  have hops := h.setUp.ops
  rw [h.todo, List.append_nil] at hops
  have hold := h.setUp.ids w (by
    rw [hops]
    exact createThread_mem h.result hw)
  rw [h.unnamed] at hold
  exact hold.resolve_left nofun

/- `load_balancer_destroy` behind a successful set-up. -/
theorem toEnd_down (hr : Ready n ok s) {err : ℤ} {s' : Process} (h : s.toEnd err = some s') :
    Down n ok s' ∧ s.balancer.dispatcher = .idle ∧
      s' = { s with
        pc := .ending err
        life := s'.life
        balancer := { s.balancer with dispatcher := .destroyed } } ∧
      s'.life.live = s.life.live := by
  obtain ⟨life, b, hl, hb, rfl⟩ := toEnd_eq h
  have hlife : life = s.life.call (loadBalancerDestroy { s.life.setup with ops := [] }) := by
    simp only [Balancer.lifeStep, Option.ite_none_right_eq_some, Option.some.injEq] at hl
    exact hl.2.symm
  have hbal : s.balancer.dispatcher = .idle ∧ b = { s.balancer with dispatcher := .destroyed } := by
    unfold Balancer.step at hb
    split at hb
    · cases hb
    · simp only [Balancer.dispatcherStep, Option.ite_none_right_eq_some,
        Option.some.injEq] at hb
      exact ⟨hb.1, hb.2.symm⟩
  obtain ⟨hidle, rfl⟩ := hbal
  subst hlife
  refine ⟨⟨hr.result, ?_, fun w hw => hr.thread hw, fun w hw => hr.id hw, rfl⟩, hidle, rfl, rfl⟩
  have hops := hr.setUp.ops
  rw [hr.todo, List.append_nil] at hops
  show s.ops ++ (loadBalancerDestroy { s.life.setup with ops := [] }).ops = _
  rw [hops, hr.setUp.setup]
  rfl

end Main

/-! ### Every reachable state -/

section Reach
variable {inetPton : InetPton} {m : RootFlags} {s s' : Process}

theorem inv_listener {net : Network} (hi : Inv inetPton m s) (hpc : s.pc = .listener)
    (h : s.initListenerStep net = some s') : Inv inetPton m s' := by
  obtain ⟨hflags, haddr, huses, hlive, hat⟩ := hi
  rw [hpc] at hat
  obtain ⟨ok, hr, hcalls, hf⟩ := hat
  obtain ⟨hsameAddr, hcases⟩ := initListenerStep_uses h
  have huses : ∀ c ∈ s'.calls, c.Uses s'.addr := by
    intro c hc
    rw [hsameAddr]
    exact (hcases c hc).elim (huses c) id
  rcases initListenerStep_cases hcalls h with ⟨calls, sync, async, rfl, hl⟩ | ⟨calls, he, hset⟩
  · refine ⟨hflags, haddr, huses, hlive, ok, hr.congr rfl rfl rfl rfl, ?_, net, hl⟩
    rw [hf.2]
    nofun
  · have hready : Ready m.worker.toNat ok { s with calls := calls } := hr.congr rfl rfl rfl rfl
    obtain ⟨hd, -, heq, hsame⟩ := toEnd_down hready he
    rw [heq] at hd huses ⊢
    exact ⟨hflags, haddr, huses, hsame.trans hlive, ok, hd, Or.inl ⟨rfl, hf.1, hset⟩⟩

theorem listening_sync {net : Network} (h : Listening net s) (hsync : s.flags.sync ≠ 0) :
    s.sync.ok = true := by
  unfold Listening at h
  rw [if_pos hsync] at h
  rw [h.2.1]

theorem inv_listenerReturns (hi : Inv inetPton m s) (hpc : s.pc = .serving)
    (hok : ¬ (s.flags.sync ≠ 0 ∧ s.sync.ok = true)) (h : s.toEnd 0 = some s') :
    Inv inetPton m s' := by
  obtain ⟨hflags, haddr, huses, hlive, hat⟩ := hi
  rw [hpc] at hat
  obtain ⟨ok, hr, -, net, hl⟩ := hat
  have hasync : s.flags.sync = 0 := by
    by_contra hsync
    exact hok ⟨hsync, listening_sync hl hsync⟩
  obtain ⟨hd, -, heq, hsame⟩ := toEnd_down hr h
  rw [heq] at hd ⊢
  exact ⟨hflags, haddr, huses, hsame.trans hlive, ok, hd, Or.inr ⟨rfl, hasync, net, hl⟩⟩

/- The dispatcher's steps leave the balancer in use. -/
theorem accept_running {balance worker : UInt8} {a : Balancer.Action} {q b : State}
    (hq : Balancer.Inv balance worker q) (ha : a ≠ .destroy)
    (h : Balancer.step q a = some b) : b.dispatcher ≠ .destroyed := by
  obtain ⟨L, owner, hr⟩ := hq.rep
  obtain ⟨-, hd, he⟩ := Balancer.step_effect h
  cases he with
  | mallocFail fd addr addrLen rand hi => exact hd
  | fill fd addr addrLen rand p hi hp => nofun
  | push w p hf =>
    obtain ⟨x, heap, r, -, he⟩ := Balancer.push_afterPush hr hf
    rw [he]
    nofun
  | activate w hp => nofun
  | destroy hi => exact (ha rfl).elim
  | worker w a s' hw =>
    rw [(hw.dispatcherSame hr).dispatcher]
    exact hd

theorem works_step {a : ServerAction} {w : ℕ} {q : Balancer.Action} {x b : State}
    (ha : a.works = some (w, q)) (hb : Balancer.step x q = some b) :
    w < x.worker.toNat ∧ Balancer.workerStep x w q = some b := by
  unfold Balancer.step at hb
  split at hb
  · cases hb
  · cases a <;> cases ha <;> exact Option.ite_none_right_eq_some.mp hb

theorem inv_effect {a : ServerAction} (hq : Balancer.Inv m.balance m.worker s.balancer)
    (hi : Inv inetPton m s) (he : Effect s a s') : Inv inetPton m s' := by
  cases he with
  | evthread ok hpc =>
    obtain ⟨hflags, haddr, huses, hlive, hat⟩ := hi
    rw [hpc] at hat
    obtain ⟨hl, hops, hu, hcalls, hf⟩ := hat
    refine ⟨hflags, haddr, huses, hlive, ?_⟩
    cases ok with
    | true => exact ⟨hl, hops, hu, hcalls, hf⟩
    | false => exact Or.inl ⟨rfl, hops, hcalls, hf⟩
  | initBalancer ok hpc _ =>
    obtain ⟨hflags, haddr, huses, hlive, hat⟩ := hi
    rw [hpc] at hat
    obtain ⟨hl, hops, hu, hcalls, hf⟩ := hat
    have hinit : loadBalancerInit ok { s.life.setup with ops := [] } =
        initOf ok m.worker.toNat := by
      rw [hl]
      rfl
    rw [hinit]
    exact ⟨hflags, haddr, huses, hlive, ok, rfl, SetUp.start hl hops, hcalls, hf⟩
  | name b w hpc hu =>
    obtain ⟨hflags, haddr, huses, hlive, hat⟩ := hi
    rw [hpc] at hat
    obtain ⟨ok, hb, hset, hcalls, hf⟩ := hat
    have hnamed : AtPc m.worker.toNat
        { s with ids := Function.update s.ids w w, unnamed := none } (.initBalancer b) :=
      ⟨ok, hb, hset.name hu, hcalls, hf⟩
    rw [← hpc] at hnamed
    exact ⟨hflags, haddr, huses, hlive, hnamed⟩
  | perform op rest hpc hl =>
    obtain ⟨hflags, haddr, huses, hlive, hat⟩ := hi
    have hkeep : (s.perform op rest).pc = s.pc := rfl
    refine ⟨hflags, haddr, huses, perform_live hlive, ?_⟩
    rw [hkeep]
    rcases hpc with ⟨b, hpc, hu⟩ | ⟨err, hpc⟩
    · rw [hpc] at hat ⊢
      obtain ⟨ok, hb, hset, hcalls, hf⟩ := hat
      exact ⟨ok, hb, hset.perform hu hl, hcalls, hf⟩
    · rw [hpc] at hat ⊢
      obtain ⟨ok, hd, hc⟩ := hat
      exact ⟨ok, hd.perform hl, hc⟩
  | initialised b hpc hu hl =>
    obtain ⟨hflags, haddr, huses, hlive, hat⟩ := hi
    rw [hpc] at hat
    obtain ⟨ok, hb, hset, hcalls, hf⟩ := hat
    refine ⟨hflags, haddr, huses, hlive, ?_⟩
    cases b with
    | true => exact ⟨ok, ⟨hset.congr rfl rfl rfl rfl, hb, hl, hu⟩, hcalls, hf⟩
    | false =>
      have hops := hset.ops
      rw [hl, List.append_nil] at hops
      exact Or.inr (Or.inl ⟨ok, hb, hops, rfl, hcalls, hf⟩)
  | exit err hpc hl =>
    obtain ⟨hflags, haddr, huses, hlive, hat⟩ := hi
    rw [hpc] at hat
    obtain ⟨ok, hd, hc⟩ := hat
    exact ⟨hflags, haddr, huses, hlive, Or.inr (Or.inr
      ⟨ok, ⟨hd.result, hd.ops, hd.thread, hd.ids, hd.destroyed⟩, hl, hc⟩)⟩
  | listener net s' hpc h => exact inv_listener hi hpc h
  | retry fd addr addrLen rand malloc hpc => exact hi
  | dispatch a q b hpc ha hb =>
    obtain ⟨hflags, haddr, huses, hlive, hat⟩ := hi
    refine ⟨hflags, haddr, huses, hlive, ?_⟩
    dsimp only
    rw [hpc] at hat ⊢
    obtain ⟨ok, hr, -, net, hl⟩ := hat
    refine ⟨ok, hr.congr rfl rfl rfl rfl, accept_running hq ?_ hb, net, hl⟩
    rintro rfl
    cases a <;> cases ha
  | listenerReturns s' hpc hok h => exact inv_listenerReturns hi hpc hok h
  | enter w life hl =>
    refine ⟨hi.flags, hi.addr, hi.uses, ?_, atPc_enter hi.atPc hl⟩
    obtain ⟨-, rfl⟩ := enter_eq hl
    exact hi.live
  | worker a w q b ha ht hb =>
    obtain ⟨L, owner, hr⟩ := hq.rep
    have hstep := (works_step ha hb).2
    have hsame := (Balancer.workerStep_effect hstep).dispatcherSame hr
    exact ⟨hi.flags, hi.addr, hi.uses, hi.live, atPc_queues hi.atPc hsame.accepted hsame.dispatcher⟩

theorem queues_reachable (hs : (serverSystem inetPton m).Reachable s) :
    (Balancer.system m.balance m.worker).Reachable s.balancer :=
  (refines_queues inetPton m).reachable hs

theorem inv_reachable (hw : m.worker ≠ 0) (hs : (serverSystem inetPton m).Reachable s) :
    Inv inetPton m s := by
  refine hs.invariant (I := Inv inetPton m) ?_ ?_
  · rintro s ⟨garbage, rfl⟩
    exact inv_initial inetPton m garbage
  · intro s a s' hs hi h
    exact inv_effect (Balancer.inv_reachable hw (queues_reachable hs)) hi (step_effect h)

end Reach

end LibeventHttpServe.Server
