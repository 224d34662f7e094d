import LibeventHttpServe.Server.Service

/-!
# The end of `root_handler` (example.c:92-96)

Every way out of `root_handler` releases what was acquired, apart from the mutex
of the load balancer and from the listener of a finished event loop. It does so
without waiting for the worker threads, which may still be in their loops.
-/

namespace LibeventHttpServe.Server
open Lib Shared Example
open Balancer (Op Resource)

/-! ### The operations of a whole run -/

theorem liveAfter_eq (ops : List Op) (r : Resource) :
    liveAfter ops r = decide ((history r (Balancer.entries ops)).getLast? = some (.acquire r)) := by
  induction ops using List.reverseRecOn with
  | nil => rfl
  | append_singleton ops op ih =>
    rw [liveAfter_append, Balancer.entries_append, history_append]
    cases op with
    | acquire q =>
      by_cases hq : q = r
      · subst hq
        simp [Balancer.entries, Balancer.Op.entry, history, Entry.resource]
      · have hqr : ¬ r = q := fun h => hq h.symm
        simpa [Balancer.entries, Balancer.Op.entry, history, Entry.resource, hq,
          Function.update_of_ne hqr] using ih
    | release q =>
      by_cases hq : q = r
      · subst hq
        simp [Balancer.entries, Balancer.Op.entry, history, Entry.resource]
      · have hqr : ¬ r = q := fun h => hq h.symm
        simpa [Balancer.entries, Balancer.Op.entry, history, Entry.resource, hq,
          Function.update_of_ne hqr] using ih
    | addEvent w =>
      simpa [Balancer.entries, List.filterMap_cons, Balancer.Op.entry, history] using ih
    | createThread w =>
      simpa [Balancer.entries, List.filterMap_cons, Balancer.Op.entry, history] using ih

theorem liveAfter_settled {ops : List Op} {r : Resource}
    (h : Settled (Balancer.entries ops) r) : liveAfter ops r = false := by
  rw [liveAfter_eq]
  rcases h with h | h <;> simp [h]

section
variable {n : ℕ} {ok : Balancer.Call → Bool}

/- A successful set-up and the tear-down behind it: the mutex `_mutex` stays. -/
theorem down_history (h : (initOf ok n).2 = true) :
    history .mutex (Balancer.entries ((initOf ok n).1.ops ++ destroyOps ok n)) =
        [.acquire .mutex] ∧
      ∀ r, r ≠ .mutex →
        Settled (Balancer.entries ((initOf ok n).1.ops ++ destroyOps ok n)) r := by
  obtain ⟨hops, hset, hworker, halloc⟩ := Balancer.loadBalancerInit_done rfl h
  have hn : (Balancer.lifeInitial n).setup.worker = n := rfl
  rw [hn] at hops hset hworker
  have hset' : Balancer.SetUpTo (initOf ok n).1.worker { (initOf ok n).1 with ops := [] } := by
    unfold initOf
    rw [hworker]
    exact hset
  have hdestroy : Balancer.entries (destroyOps ok n) =
      ((List.range' 0 n).flatMap Balancer.workerReleases ++ [Resource.workers]).map .release := by
    have hw : (initOf ok n).1.worker = n := hworker
    have hd : Balancer.entries (destroyOps ok n) = Balancer.entries [] ++
        ((List.range' 0 (initOf ok n).1.worker).flatMap Balancer.workerReleases ++
          [Resource.workers]).map .release :=
      (Balancer.loadBalancerDestroy_done hset' halloc).1
    rw [hd, hw]
    rfl
  have hflat := List.Perm.flatMap_left (List.range' 0 n) (fun w _ => Balancer.releases_perm w)
  have hperm : (.mutex :: ((List.range' 0 n).flatMap Balancer.workerReleases ++
      [Resource.workers])).Perm
      (.workers :: .mutex :: (List.range' 0 n).flatMap Balancer.workerAcquires) :=
    ((List.perm_append_comm.trans (hflat.cons _)).cons _).trans (.swap ..)
  rw [Balancer.entries_append, hdestroy]
  unfold initOf
  rw [hops]
  exact history_kept (Balancer.workers_nodup n) hperm

/- A set-up that fails. -/
theorem failed_settled (h : (initOf ok n).2 = false) (r : Resource) :
    Settled (Balancer.entries (initOf ok n).1.ops) r := by
  obtain ⟨⟨as, bs, hops, has, hperm, -⟩, -⟩ := Balancer.loadBalancerInit_failed rfl h
  unfold initOf
  rw [hops]
  exact settled_of_perm has hperm r

end

/-! ### The exits -/

section
variable {inetPton : InetPton} {m : RootFlags} {s : Process} {err : ℤ}

theorem Down.settled {n : ℕ} {ok : Balancer.Call → Bool} (h : Down n ok s)
    (ht : s.life.todo = []) :
    history .mutex (Balancer.entries s.ops) = [.acquire .mutex] ∧
      ∀ r, r ≠ .mutex → Settled (Balancer.entries s.ops) r := by
  have hops := h.ops
  rw [ht, List.append_nil] at hops
  rw [hops]
  exact down_history h.result

theorem listening_async {net : Network} (h : Listening net s) (hasync : s.flags.sync = 0) :
    entries s.calls = [.acquire .base, .acquire .listener] := by
  unfold Listening at h
  rw [if_neg (fun hne => hne hasync)] at h
  rw [h.2.2]
  simp [entries, asyncCalls, List.filterMap_cons, NetCall.entry, h.1, h.2.1]

theorem closed_accounts (h : Closed err s) :
    (err = -1 ∧ s.balancer.accepted = [] ∧ ∀ r, Settled (entries s.calls) r) ∨
      (err = 0 ∧ s.flags.sync = 0 ∧ entries s.calls = [.acquire .base, .acquire .listener]) := by
  rcases h with h | ⟨herr, hasync, net, hl⟩
  · exact Or.inl h
  · exact Or.inr ⟨herr, hasync, listening_async hl hasync⟩

/-- The accounts of `root_handler` at its return. With -1 nothing was accepted, and every
handle that the answered calls had opened for the listener is closed once; with 0 the loop
of the asynchronous listener has ended, and its base and its listener stay. Of the load
balancer's objects all are released once, but for the mutex, which stays exactly when
`load_balancer_init` had succeeded. -/
theorem returned_accounts (inetPton : InetPton) (m : RootFlags) (hw : m.worker ≠ 0)
    {s : Process} (hs : (serverSystem inetPton m).Reachable s) {err : ℤ}
    (hpc : s.pc = .returned err) :
    ((err = -1 ∧ s.balancer.accepted = [] ∧ ∀ r, Settled (entries s.calls) r) ∨
      (err = 0 ∧ m.sync = 0 ∧ entries s.calls = [.acquire .base, .acquire .listener])) ∧
    (∀ r, r ≠ .mutex → Settled (Balancer.entries s.ops) r) ∧
    (if s.balancer.dispatcher = .destroyed then
      history .mutex (Balancer.entries s.ops) = [.acquire .mutex]
    else Settled (Balancer.entries s.ops) .mutex) := by
  have hi := inv_reachable hw hs
  have hat := hi.atPc
  rw [hpc] at hat
  have hnone : ∀ {calls : List NetCall}, calls = [] → ∀ r, Settled (entries calls) r := by
    rintro calls rfl r
    exact Or.inl rfl
  rcases hat with ⟨herr, hops, hcalls, hf⟩ | ⟨ok, hres, hops, herr, hcalls, hf⟩ |
    ⟨ok, hd, ht, hc⟩
  · refine ⟨Or.inl ⟨herr, hf.1, hnone hcalls⟩, ?_, ?_⟩
    · intro r _
      rw [hops]
      exact Or.inl rfl
    · rw [if_neg (by rw [hf.2]; nofun), hops]
      exact Or.inl rfl
  · refine ⟨Or.inl ⟨herr, hf.1, hnone hcalls⟩, ?_, ?_⟩
    · intro r _
      rw [hops]
      exact failed_settled hres r
    · rw [if_neg (by rw [hf.2]; nofun), hops]
      exact failed_settled hres .mutex
  · obtain ⟨hmutex, hrest⟩ := hd.settled ht
    have hflags := closed_accounts hc
    rw [hi.flags] at hflags
    refine ⟨hflags, hrest, ?_⟩
    rw [if_pos hd.destroyed]
    exact hmutex

/- The port is taken: `bind` fails when the first worker is in its loop already. -/
def bindFailsRun : List ServerAction :=
  .evthread true :: .initBalancer (fun _ => true) :: List.replicate 17 .main ++
    .enter 0 :: .initListener ⟨3, -1, 0, true, true⟩ :: List.replicate 10 .main

theorem returned_accounts_run :
    ∃ s, (serverSystem (fun _ _ => none) syncFlags).exec bindFailsRun syncStart = some s ∧
      s.pc = .returned (-1) ∧
      s.calls = [.socket .inet 3, .bind 3 s.addr 16 (-1), .closesocket 3] ∧
      (∀ r, Settled (entries s.calls) r) ∧
      ∀ r, r ≠ .mutex → Settled (Balancer.entries s.ops) r := by
  have hobs : ((serverSystem (fun _ _ => none) syncFlags).exec bindFailsRun syncStart).map
      (fun s => (s.pc, decide (s.calls =
        [.socket .inet 3, .bind 3 s.addr 16 (-1), .closesocket 3]))) =
        some (.returned (-1), true) := by
    decide
  obtain ⟨s, hs, he⟩ := Option.map_eq_some_iff.mp hobs
  simp only [Prod.mk.injEq, decide_eq_true_eq] at he
  obtain ⟨hclosed, hreleased, -⟩ := returned_accounts (fun _ _ => none) syncFlags (by decide)
    (System.reachable_exec (.init ⟨_, rfl⟩) hs) he.1
  refine ⟨s, hs, he.1, he.2, ?_, hreleased⟩
  rcases hclosed with ⟨-, -, hsettled⟩ | ⟨hzero, -⟩
  · exact hsettled
  · exact absurd hzero (by decide)

/-! ### Threads that outlive their objects -/

/-- Whatever made `root_handler` return, the array of the workers is freed by then, so
that it was safe exactly if no thread had entered its loop. -/
theorem returned_dispatchSafe_iff (inetPton : InetPton) (m : RootFlags) (hw : m.worker ≠ 0)
    {s : Process} (hs : (serverSystem inetPton m).Reachable s) {err : ℤ}
    (hpc : s.pc = .returned err) :
    Balancer.DispatchSafe s.life ↔ ∀ w, s.life.thread w ≠ .dispatching := by
  have hi := inv_reachable hw hs
  have hat := hi.atPc
  rw [hpc] at hat
  have hsettled : Settled (Balancer.entries s.ops) .workers := by
    rcases hat with ⟨-, hops, -⟩ | ⟨ok, hres, hops, -⟩ | ⟨ok, hd, ht, -⟩
    · rw [hops]
      exact Or.inl rfl
    · rw [hops]
      exact failed_settled hres .workers
    · exact (hd.settled ht).2 .workers nofun
  have hfreed : s.life.live .workers = false := by
    rw [hi.live]
    exact liveAfter_settled hsettled
  constructor
  · intro hsafe w hdisp
    have hheld := (hsafe w hdisp).2.2.2
    rw [hfreed] at hheld
    cases hheld
  · intro hno w hdisp
    exact (hno w hdisp).elim

theorem returned_dispatchSafe_iff_run :
    ∃ s, (serverSystem (fun _ _ => none) syncFlags).exec bindFailsRun syncStart = some s ∧
      s.life.thread 0 = .dispatching ∧ ¬ Balancer.DispatchSafe s.life := by
  have hobs : ((serverSystem (fun _ _ => none) syncFlags).exec bindFailsRun syncStart).map
      (fun s => (s.pc, s.life.thread 0)) = some (.returned (-1), .dispatching) := by
    decide
  obtain ⟨s, hs, he⟩ := Option.map_eq_some_iff.mp hobs
  simp only [Prod.mk.injEq] at he
  refine ⟨s, hs, he.2, ?_⟩
  intro hsafe
  exact (returned_dispatchSafe_iff (fun _ _ => none) syncFlags (by decide)
    (System.reachable_exec (.init ⟨_, rfl⟩) hs) he.1).mp hsafe 0 he.2

/-- `load_balancer_init` fails at its first worker or before, or not at all, the
listener can be made, and libevent's loop for it does not end. -/
def StartsUp (s : Process) : ServerAction → Prop
  | .initBalancer ok => Balancer.Untouched s.life (.init ok)
  | .initListener net =>
    (if s.flags.sync ≠ 0 then (syncListenerInit net s.sync s.addr).2.2
      else (asyncListenerInit net s.async s.addr).2.2) = 0
  | .listenerReturns => False
  | _ => True

instance (s : Process) : ∀ a, Decidable (StartsUp s a)
  | .initBalancer ok => inferInstanceAs (Decidable (Balancer.Untouched s.life (.init ok)))
  | .initListener net => inferInstanceAs (Decidable ((if s.flags.sync ≠ 0 then
      (syncListenerInit net s.sync s.addr).2.2
        else (asyncListenerInit net s.async s.addr).2.2) = 0))
  | .listenerReturns => isFalse id
  | .evthread _ | .main | .accept .. | .push | .activate | .enter _ | .timeout _ | .wake _
  | .advance _ => isTrue trivial

theorem initListenerStep_opened {net : Network} {s' : Process}
    (hg : StartsUp s (.initListener net)) (h : s.initListenerStep net = some s') :
    s'.life = s.life := by
  have hopen : (if s.flags.sync ≠ 0 then (syncListenerInit net s.sync s.addr).2.2
      else (asyncListenerInit net s.async s.addr).2.2) = 0 := hg
  unfold Process.initListenerStep at h
  split at h
  · rename_i hsync
    rw [if_pos hsync] at hopen
    dsimp only at h
    rw [if_neg (fun hne => hne hopen)] at h
    cases h
    rfl
  · rename_i hsync
    rw [if_neg hsync] at hopen
    dsimp only at h
    rw [if_neg (fun hne => hne hopen)] at h
    cases h
    rfl

/-- The threads of a process that starts up are a run without a tear-down. -/
theorem refines_untouched (inetPton : InetPton) (m : RootFlags) :
    ((serverSystem inetPton m).restrict StartsUp).Refines
      ((Balancer.lifeSystem m.worker.toNat).restrict Balancer.Untouched) Process.life where
  init := by
    rintro s ⟨garbage, rfl⟩
    rfl
  step := by
    intro s a s' _ h
    obtain ⟨hg, h⟩ := System.restrict_step.mp h
    cases step_effect h with
    | evthread ok hpc => exact Or.inl rfl
    | initBalancer ok hpc hl => exact Or.inr ⟨.init ok, System.restrict_step.mpr ⟨hg, hl⟩⟩
    | name b w hpc hu => exact Or.inl rfl
    | perform op rest hpc hl =>
      refine Or.inr ⟨.main, System.restrict_step.mpr ⟨trivial, ?_⟩⟩
      show Balancer.lifeStep s.life .main = some (s.life.perform op rest)
      simp only [Balancer.lifeStep, hl]
    | initialised b hpc hu hl => exact Or.inl rfl
    | exit err hpc hl => exact Or.inl rfl
    | listener net s' hpc h => exact Or.inl (initListenerStep_opened hg h)
    | retry fd addr addrLen rand malloc hpc => exact Or.inl rfl
    | dispatch a q b hpc ha hb => exact Or.inl rfl
    | listenerReturns s' hpc hok h => exact hg.elim
    | enter w life hl => exact Or.inr ⟨.enter w, System.restrict_step.mpr ⟨trivial, hl⟩⟩
    | worker a w q b ha ht hb => exact Or.inl rfl

/-- In every run of a process that starts up, the objects of each worker thread are
there as long as the thread is in its loop. -/
theorem startsUp_dispatchSafe (inetPton : InetPton) (m : RootFlags) {s : Process}
    (hs : ((serverSystem inetPton m).restrict StartsUp).Reachable s) :
    Balancer.DispatchSafe s.life := by
  intro w hdisp
  cases Balancer.lifeInv_reachable ((refines_untouched inetPton m).reachable hs) with
  | idle _ habsent =>
    rw [habsent w] at hdisp
    cases hdisp
  | running _ hheld _ _ => exact hheld w (by rw [hdisp]; nofun)

theorem startsUp_dispatchSafe_run :
    ∃ s, ((serverSystem (fun _ _ => none) syncFlags).restrict StartsUp).exec serveOneRun
        syncStart = some s ∧
      s.life.thread 0 = .dispatching ∧ Balancer.DispatchSafe s.life := by
  have hobs : (((serverSystem (fun _ _ => none) syncFlags).restrict StartsUp).exec serveOneRun
      syncStart).map (fun s => s.life.thread 0) = some .dispatching := by
    decide
  obtain ⟨s, hs, hdisp⟩ := Option.map_eq_some_iff.mp hobs
  exact ⟨s, hs, hdisp, startsUp_dispatchSafe (fun _ _ => none) syncFlags
    (System.reachable_exec (.init ⟨_, rfl⟩) hs)⟩

end
end LibeventHttpServe.Server
