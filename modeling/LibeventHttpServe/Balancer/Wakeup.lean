import LibeventHttpServe.Balancer.Delivery

/-!
# No lost wake-up

`event_active` is called after the mutex is released, and a worker that found
its queue empty returns to its loop after releasing it. Between the two a push
can fall in; the invariant covers every position of both threads.
-/

namespace LibeventHttpServe.Balancer
open Lib

/-- The points of `worker_on_ev` from which `worker->next` is locked and tested
again before the callback returns. -/
def WorkerPc.willTest : WorkerPc → Bool
  | .test | .holding _ | .served _ => true
  | .loop | .leaving => false

/-- Something is under way that makes worker `w` look at its queue. -/
def Awake (s : State) (w : ℕ) : Prop :=
  (s.workers w).active = true ∨ (s.workers w).pc.willTest = true ∨ s.dispatcher = .pushed w

/-- No worker sleeps on a non-empty queue. -/
def Wakeful (s : State) : Prop := ∀ w, (s.workers w).next ≠ none → Awake s w

/-- The dispatcher is between two calls, no event is marked and no callback is
running. -/
def Quiescent (n : ℕ) (s : State) : Prop :=
  s.dispatcher = .idle ∧ ∀ w < n, (s.workers w).active = false ∧ (s.workers w).pc = .loop

/- A worker that will test does so after at most two more stretches of its own
code. -/
theorem willTest_advance {s : State} {L : ℕ → List (Ptr × HttpConnection)} {owner : Ptr → Owner}
    (hr : Rep s L owner) {w : ℕ} (hw : (s.workers w).pc.willTest = true) :
    (s.workers w).pc = .test ∨
      ∃ s', workerStep s w (.advance w) = some s' ∧
        ((s'.workers w).pc = .test ∨ ∃ p, (s'.workers w).pc = .served p) := by
  cases hpc : (s.workers w).pc with
  | loop => rw [hpc] at hw; cases hw
  | leaving => rw [hpc] at hw; cases hw
  | test => exact Or.inl rfl
  | holding p =>
    obtain ⟨r, -, he⟩ := evhttpServe_spec hr hpc
    refine Or.inr ⟨evhttpServe s w p, by simp only [workerStep, hpc], Or.inr ⟨p, ?_⟩⟩
    rw [he, setWorker_same]
  | served p =>
    refine Or.inr ⟨freeNext s w p, by simp only [workerStep, hpc], Or.inl ?_⟩
    rw [freeNext_spec hr hpc]
    dsimp only
    rw [setWorker_same]

section
variable {s : State} {L : ℕ → List (Ptr × HttpConnection)} {owner : Ptr → Owner}

/- A worker that a step does not change stays awake, when it did not rely on a
pending `event_active`. -/
theorem Wakeful.unchanged {s' : State} {v : ℕ} (hk : Wakeful s)
    (hsame : s'.workers v = s.workers v) (hd : s.dispatcher ≠ .pushed v)
    (hn : (s'.workers v).next ≠ none) : Awake s' v := by
  rw [hsame] at hn
  rcases hk v hn with ha | ht | hp
  · exact Or.inl (by rw [hsame]; exact ha)
  · exact Or.inr (Or.inl (by rw [hsame]; exact ht))
  · exact (hd hp).elim

/- Steps of the dispatcher that start from `idle`: no worker changes, and no
worker relied on a pending `event_active`. -/
theorem Wakeful.of_idle {s' : State} (hk : Wakeful s) (hd : s.dispatcher = .idle)
    (hw : s'.workers = s.workers) : Wakeful s' := by
  intro w hn
  refine hk.unchanged (by rw [hw]) ?_ hn
  rw [hd]
  nofun

theorem Wakeful.setWorker {w : ℕ} {x : Worker} (hk : Wakeful s)
    (hx : x.next ≠ none → Awake (s.setWorker w x) w) : Wakeful (s.setWorker w x) := by
  intro v hn
  by_cases hv : v = w
  · subst hv
    exact hx (by rwa [setWorker_same] at hn)
  · rw [setWorker_ne _ _ hv] at hn
    rcases hk v hn with ha | ht | hp
    · exact Or.inl (by rw [setWorker_ne _ _ hv]; exact ha)
    · exact Or.inr (Or.inl (by rw [setWorker_ne _ _ hv]; exact ht))
    · exact Or.inr (Or.inr hp)

theorem Wakeful.afterPush {w : ℕ} {p : Ptr} {n : Option Ptr} {h : Records} {c : Conn}
    (hk : Wakeful s) (hd : s.dispatcher = .filled w p) : Wakeful (afterPush s w n h c) := by
  intro v hn
  by_cases hv : v = w
  · subst hv
    exact Or.inr (Or.inr rfl)
  · have hsame : (Balancer.afterPush s w n h c).workers v = s.workers v := by
      rw [afterPush_workers, if_neg hv]
    refine hk.unchanged hsame ?_ hn
    rw [hd]
    nofun

theorem Wakeful.workerEffect (hr : Rep s L owner) (hk : Wakeful s) {w : ℕ} {s' : State}
    (he : WorkerEffect s w s') : Wakeful s' := by
  cases he with
  | timeout hpc =>
    refine hk.setWorker (fun _ => Or.inl ?_)
    rw [setWorker_same]
  | wake hpc ha =>
    refine hk.setWorker (fun _ => Or.inr (Or.inl ?_))
    rw [setWorker_same]
    rfl
  | testNext hpc =>
    rcases testNext_spec hr w with ⟨hq, -, he⟩ | ⟨p, r, l, -, he⟩
    · -- the only way to go to sleep: the queue was seen empty under the mutex
      rw [he]
      exact hk.setWorker (fun hn => absurd hq hn)
    · rw [he]
      refine hk.setWorker (fun _ => Or.inr (Or.inl ?_))
      rw [setWorker_same]
      rfl
  | evhttpServe p hpc =>
    obtain ⟨r, -, he⟩ := evhttpServe_spec hr hpc
    rw [he]
    refine hk.setWorker (fun _ => Or.inr (Or.inl ?_))
    rw [setWorker_same]
    rfl
  | freeNext p hpc =>
    have hset : Wakeful (s.setWorker w { s.workers w with pc := .test }) := by
      refine hk.setWorker (fun _ => Or.inr (Or.inl ?_))
      rw [setWorker_same]
      rfl
    rw [freeNext_spec hr hpc]
    exact hset
  | leave hpc =>
    -- a push since the last test has left its mark, or its `event_active` is due
    refine hk.setWorker (fun hn => ?_)
    rcases hk w hn with ha | ht | hp
    · exact Or.inl (by rw [setWorker_same]; exact ha)
    · rw [hpc] at ht
      cases ht
    · exact Or.inr (Or.inr hp)

theorem Wakeful.effect (hr : Rep s L owner) (hk : Wakeful s) {s' : State} {a : Action}
    (he : Effect s a s') : Wakeful s' := by
  cases he with
  | mallocFail fd addr addrLen rand hd => exact hk.of_idle hd rfl
  | fill fd addr addrLen rand p hd hp => exact hk.of_idle hd rfl
  | push w p hd =>
    obtain ⟨n, h, r, -, he⟩ := push_afterPush hr hd
    rw [he]
    exact hk.afterPush hd
  | activate w hd =>
    intro v hn
    by_cases hv : v = w
    · subst hv
      left
      simp only [activate, setWorker_same]
    · have hsame : (activate s w).workers v = s.workers v := by
        simp only [activate, setWorker_ne _ _ hv]
      refine hk.unchanged hsame ?_ hn
      rw [hd]
      intro he
      cases he
      exact hv rfl
  | destroy hd => exact hk.of_idle hd rfl
  | worker w a s' hw => exact hk.workerEffect hr hw

end

theorem wakeful_reachable {balance worker : UInt8} (hw : worker ≠ 0) {s : State}
    (hs : (system balance worker).Reachable s) : Wakeful s := by
  refine hs.invariant (I := Wakeful) ?_ ?_
  · intro s h w hn
    rw [h] at hn
    exact absurd rfl hn
  · intro s a s' hs hk h
    obtain ⟨L, owner, hr⟩ := (inv_reachable hw hs).rep
    exact hk.effect hr (step_effect h).2.2

/-- With every worker asleep and the dispatcher idle nothing is left to do. -/
theorem quiescent_served {balance worker : UInt8} {s : State} (hi : Inv balance worker s)
    (hk : Wakeful s) (hq : Quiescent worker.toNat s) :
    (∀ w < worker.toNat, queue s w = some [] ∧ (s.workers w).served = pushed s w) ∧
      ∀ e ∈ s.log, e.2 ∈ (s.workers e.1).served := by
  obtain ⟨L, owner, hr⟩ := hi.rep
  have hall : ∀ w < worker.toNat, queue s w = some [] ∧ (s.workers w).served = pushed s w := by
    intro w hw
    obtain ⟨hact, hpc⟩ := hq.2 w hw
    have hnext : (s.workers w).next = none := by
      by_contra hn
      rcases hk w hn with ha | ht | hp
      · rw [hact] at ha
        cases ha
      · rw [hpc] at ht
        cases ht
      · rw [hq.1] at hp
        cases hp
    have hL : L w = [] := by
      have hch := hr.chain w
      rw [hnext] at hch
      exact (Chain.segment_null hch).1
    have hh := hr.history w
    rw [hL, inHand_of_record (by rw [hpc]; rfl)] at hh
    refine ⟨by rw [queue_eq hr w, hL]; rfl, ?_⟩
    simpa using hh
  refine ⟨hall, ?_⟩
  intro e he
  rw [(hall e.1 (hi.bounds.log e he)).2]
  exact mem_pushed.mpr he

/-- No lost wake-up: in every reachable state a worker with a non-empty queue is
marked, will test again, or is about to be marked; hence a quiescent state has
empty queues and every dispatched connection served. -/
theorem noLostWakeup (balance worker : UInt8) (hw : worker ≠ 0) {s : State}
    (hs : (system balance worker).Reachable s) :
    (∀ w < worker.toNat, (s.workers w).next ≠ none → Awake s w) ∧
      (Quiescent worker.toNat s →
        (∀ w < worker.toNat, queue s w = some []) ∧
        (∀ e ∈ s.log, e.2 ∈ (s.workers e.1).served) ∧
        (s.crashed = false → ∀ c ∈ s.accepted, ∃ w < worker.toNat, c ∈ (s.workers w).served)) := by
  have hi := inv_reachable hw hs
  have hk := wakeful_reachable hw hs
  refine ⟨fun w _ hn => hk w hn, ?_⟩
  intro hq
  obtain ⟨hall, hlog⟩ := quiescent_served hi hk hq
  refine ⟨fun w hw' => (hall w hw').1, hlog, ?_⟩
  intro hcr c hc
  rw [← hi.ledger.exact hcr, pending_idle hq.1, List.append_nil] at hc
  obtain ⟨e, he, rfl⟩ := List.mem_map.mp hc
  exact ⟨e.1, hi.bounds.log e he, hlog e he⟩

/- A push falls between the worker's empty test and its return to the loop. -/
def pushWhileLeavingRun : List Action :=
  [.serve 7 [] 0 0 (some 10), .push, .activate, .wake 0, .advance 0, .advance 0, .advance 0,
    .advance 0, .serve 8 [] 0 0 (some 10), .push, .advance 0]

theorem noLostWakeup_run :
    ∃ s, (system 1 1).exec pushWhileLeavingRun (initial 1 1) = some s ∧
      (s.workers 0).next ≠ none ∧ (s.workers 0).pc = .loop ∧ (s.workers 0).active = false ∧
      Awake s 0 := by
  have hobs : ((system 1 1).exec pushWhileLeavingRun (initial 1 1)).map
      (fun s => ((s.workers 0).next, (s.workers 0).pc, (s.workers 0).active)) =
        some (some 10, .loop, false) := by
    decide
  obtain ⟨s, hs, he⟩ := Option.map_eq_some_iff.mp hobs
  simp only [Prod.mk.injEq] at he
  obtain ⟨hn, hpc, hact⟩ := he
  have hne : (s.workers 0).next ≠ none := by
    rw [hn]
    simp
  refine ⟨s, hs, hne, hpc, hact, ?_⟩
  exact (noLostWakeup 1 1 (by decide) (System.reachable_exec (.init rfl) hs)).1 0 (by decide) hne

end LibeventHttpServe.Balancer
