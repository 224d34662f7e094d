import LibeventHttpServe.Balancer.Delivery

/-!
# Where an accepted socket can be

While `malloc` succeeds, and while `load_balancer_destroy` is called on empty
queues only, every socket of a returned `load_balancer_serve` call is in exactly
one place. Neither condition is checked by the code: the record is filled in
through a null pointer when `malloc` fails (`load_balancer.c:193-194`), and
`libevent_http_serve_worker_destroy` (`load_balancer.c:110-124`) leaves
`worker->next` alone.
-/

namespace LibeventHttpServe.Balancer
open Lib

/-- The connections whose `serve` call has returned. -/
def returned (s : State) : List Conn :=
  match s.dispatcher with
  | .filled _ _ | .pushed _ => s.accepted.dropLast
  | .idle | .destroyed => s.accepted

inductive Place where
  | queue (w : ℕ)
  | hand (w : ℕ)
  | served (w : ℕ)
  | closed
  deriving DecidableEq

/-- No path of the code closes an accepted socket, so nothing is ever at the
last place. -/
def At (n : ℕ) (s : State) (c : Conn) : Place → Prop
  | .queue w => w < n ∧ ∃ q, queue s w = some q ∧ c ∈ q
  | .hand w => w < n ∧ c ∈ inHand s w
  | .served w => w < n ∧ c ∈ (s.workers w).served
  | .closed => False

/-- No null record is used, every returned socket is in exactly one place, and
`load_balancer_destroy` leaves no record behind in a queue. -/
structure SocketsKept (n : ℕ) (s : State) : Prop where
  noNull : s.crashed = false
  place : ∀ c ∈ returned s, ∃! p, At n s c p
  destroyed : s.dispatcher = .destroyed → ∀ w < n, queue s w = some []

/-- The steps on which the code relies: `malloc` succeeds, and the queues are
empty when they are taken down. -/
def Provided (s : State) : Action → Prop
  | .serve _ _ _ _ malloc => malloc ≠ none
  | .destroy => ∀ w < s.worker.toNat, (s.workers w).next = none
  | _ => True

instance (s : State) : ∀ a, Decidable (Provided s a)
  | .serve _ _ _ _ malloc => inferInstanceAs (Decidable (malloc ≠ none))
  | .destroy => inferInstanceAs (Decidable (∀ w < s.worker.toNat, (s.workers w).next = none))
  | .push => isTrue trivial
  | .activate => isTrue trivial
  | .timeout _ => isTrue trivial
  | .wake _ => isTrue trivial
  | .advance _ => isTrue trivial

structure Intact (s : State) : Prop where
  noNull : s.crashed = false
  destroyed : s.dispatcher = .destroyed → ∀ w < s.worker.toNat, (s.workers w).next = none

theorem Intact.effect {s s' : State} {a : Action} {L : ℕ → List (Ptr × HttpConnection)}
    {owner : Ptr → Owner} (hr : Rep s L owner) (hi : Intact s) (hd : s.dispatcher ≠ .destroyed)
    (hg : Provided s a) (he : Effect s a s') : Intact s' := by
  cases he with
  | mallocFail fd addr addrLen rand _ => exact absurd rfl hg
  | fill fd addr addrLen rand p _ hp => exact ⟨hi.noNull, fun h => (by cases h)⟩
  | push w p hf =>
    obtain ⟨n, h, r, -, he⟩ := push_afterPush hr hf
    rw [he]
    exact ⟨hi.noNull, fun h => (by cases h)⟩
  | activate w hp => exact ⟨hi.noNull, fun h => (by cases h)⟩
  | destroy _ => exact ⟨hi.noNull, fun _ => hg⟩
  | worker w a s' hw =>
    have hsame := hw.dispatcherSame hr
    refine ⟨hsame.crashed.trans hi.noNull, ?_⟩
    intro h
    exact absurd (hsame.dispatcher ▸ h) hd

theorem intact_reachable {balance worker : UInt8} (hw : worker ≠ 0) {s : State}
    (hs : ((system balance worker).restrict Provided).Reachable s) : Intact s := by
  refine hs.invariant (I := Intact) ?_ ?_
  · intro s h
    have h' : s = initial balance worker := h
    rw [h']
    exact ⟨rfl, fun h => (by cases h)⟩
  · intro s a s' hs hi h
    obtain ⟨hg, hstep⟩ := System.restrict_step.mp h
    obtain ⟨-, hd, he⟩ := step_effect hstep
    obtain ⟨L, owner, hr⟩ := (inv_reachable hw (System.reachable_of_restrict hs)).rep
    exact hi.effect hr hd hg he

theorem mem_of_mem_dropLast_append {l m : List Conn} {c : Conn} (hm : m.length ≤ 1)
    (hc : c ∈ (l ++ m).dropLast) : c ∈ l := by
  cases m with
  | nil =>
    rw [List.append_nil] at hc
    exact List.mem_of_mem_dropLast hc
  | cons x m =>
    rw [List.length_cons] at hm
    have hnil : m = [] := List.length_eq_zero_iff.mp (by omega)
    rw [hnil, List.dropLast_concat] at hc
    exact hc

theorem returned_logged {s : State} (hl : Ledger s) (hcr : s.crashed = false) {c : Conn}
    (hc : c ∈ returned s) : ∃ w, (w, c) ∈ s.log := by
  have hex := hl.exact hcr
  have hmem : c ∈ s.log.map Prod.snd := by
    cases hd : s.dispatcher with
    | idle =>
      rw [pending_idle hd, List.append_nil] at hex
      rw [hex]
      simpa only [returned, hd] using hc
    | destroyed =>
      have hp : pending s = [] := by simp only [pending, hd]
      rw [hp, List.append_nil] at hex
      rw [hex]
      simpa only [returned, hd] using hc
    | pushed w =>
      have hp : pending s = [] := by simp only [pending, hd]
      rw [hp, List.append_nil] at hex
      rw [hex]
      simp only [returned, hd] at hc
      exact List.mem_of_mem_dropLast hc
    | filled w p =>
      simp only [returned, hd, ← hex] at hc
      have hp : (pending s).length ≤ 1 := by
        simp only [pending, hd]
        cases (s.heap.lookup p).map HttpConnection.conn <;> simp
      exact mem_of_mem_dropLast_append hp hc
  obtain ⟨e, he, rfl⟩ := List.mem_map.mp hmem
  exact ⟨e.1, he⟩

theorem place_unique {balance worker : UInt8} {s : State} (hi : Inv balance worker s)
    {w : ℕ} {c : Conn} (hlog : (w, c) ∈ s.log) : ∃! p, At worker.toNat s c p := by
  obtain ⟨L, owner, hr⟩ := hi.rep
  have ho := hi.handOver
  let q := (L w).map fun d => d.2.conn
  have hq : queue s w = some q := queue_eq hr w
  have hw : w < worker.toNat := hi.bounds.log _ hlog
  have hmem : c ∈ (s.workers w).served ++ inHand s w ++ q := by
    rw [hr.history w]
    exact mem_pushed.mpr hlog
  have hnodup : ((s.workers w).served ++ inHand s w ++ q).Nodup := by
    rw [hr.history w]
    exact ho.once.sublist (List.filter_sublist.map Prod.snd)
  -- whatever place it is at, that place belongs to `w`
  have hsame : ∀ v, c ∈ (s.workers v).served ++ inHand s v ++ (L v).map (fun d => d.2.conn) →
      v = w := by
    intro v hv
    rw [hr.history v] at hv
    have he := List.inj_on_of_nodup_map ho.once (mem_pushed.mp hv) hlog rfl
    exact congrArg Prod.fst he
  have hsq := List.disjoint_of_nodup_append hnodup
  have hsh := List.disjoint_of_nodup_append (List.nodup_append.mp hnodup).1
  have hfrom : ∀ p, At worker.toNat s c p →
      p = .served w ∧ c ∈ (s.workers w).served ∨ p = .hand w ∧ c ∈ inHand s w ∨
        p = .queue w ∧ c ∈ q := by
    intro p hp
    cases p with
    | served v =>
      have hv := hsame v (List.mem_append_left _ (List.mem_append_left _ hp.2))
      subst hv
      exact Or.inl ⟨rfl, hp.2⟩
    | hand v =>
      have hv := hsame v (List.mem_append_left _ (List.mem_append_right _ hp.2))
      subst hv
      exact Or.inr (Or.inl ⟨rfl, hp.2⟩)
    | queue v =>
      obtain ⟨-, q', hq', hc⟩ := hp
      rw [queue_eq hr v, Option.some.injEq] at hq'
      subst hq'
      have hv := hsame v (List.mem_append_right _ hc)
      subst hv
      exact Or.inr (Or.inr ⟨rfl, hc⟩)
    | closed => exact hp.elim
  have hall : ∃ p, At worker.toNat s c p := by
    rcases List.mem_append.mp hmem with h | h
    · rcases List.mem_append.mp h with h | h
      · exact ⟨.served w, hw, h⟩
      · exact ⟨.hand w, hw, h⟩
    · exact ⟨.queue w, hw, q, hq, h⟩
  obtain ⟨p, hp⟩ := hall
  refine ⟨p, hp, ?_⟩
  intro p' hp'
  rcases hfrom p hp with ⟨rfl, h⟩ | ⟨rfl, h⟩ | ⟨rfl, h⟩ <;>
    rcases hfrom p' hp' with ⟨rfl, h'⟩ | ⟨rfl, h'⟩ | ⟨rfl, h'⟩
  · rfl
  · exact (hsh h h').elim
  · exact (hsq (List.mem_append_left _ h) h').elim
  · exact (hsh h' h).elim
  · rfl
  · exact (hsq (List.mem_append_right _ h) h').elim
  · exact (hsq (List.mem_append_left _ h') h).elim
  · exact (hsq (List.mem_append_right _ h') h).elim
  · rfl

/-- No socket is dropped in a run whose `malloc` calls succeed and which destroys
the balancer on empty queues. -/
theorem socketsKept_provided (balance worker : UInt8) (hw : worker ≠ 0) {s : State}
    (hs : ((system balance worker).restrict Provided).Reachable s) :
    SocketsKept worker.toNat s := by
  have hi := inv_reachable hw (System.reachable_of_restrict hs)
  have hk := intact_reachable hw hs
  obtain ⟨L, owner, hr⟩ := hi.rep
  refine ⟨hk.noNull, ?_, ?_⟩
  · intro c hc
    obtain ⟨w, hlog⟩ := returned_logged hi.ledger hk.noNull hc
    exact place_unique hi hlog
  · intro hd w hw'
    have hnext := hk.destroyed hd w (by rw [hi.bounds.worker_eq]; exact hw')
    have hch := hr.chain w
    rw [hnext] at hch
    rw [queue_eq hr w, (Chain.segment_null hch).1]
    rfl

def serveThenDestroyRun : List Action :=
  [.serve 7 [2, 0] 2 0 (some 10), .push, .activate, .wake 0, .advance 0, .advance 0, .destroy]

theorem socketsKept_provided_run :
    ∃ s, ((system 1 1).restrict Provided).exec serveThenDestroyRun (initial 1 1) = some s ∧
      s.dispatcher = .destroyed ∧ returned s = [⟨0, 7, 2, [2, 0]⟩] ∧ SocketsKept 1 s := by
  have hobs : (((system 1 1).restrict Provided).exec serveThenDestroyRun (initial 1 1)).map
      (fun s => (s.dispatcher, returned s)) = some (.destroyed, [⟨0, 7, 2, [2, 0]⟩]) := by
    decide
  obtain ⟨s, hs, he⟩ := Option.map_eq_some_iff.mp hobs
  exact ⟨s, hs, congrArg Prod.fst he, congrArg Prod.snd he,
    socketsKept_provided 1 1 (by decide) (System.reachable_exec (.init rfl) hs)⟩

/- One worker; the second call finds no memory. -/
def mallocFailRun : List Action :=
  [.serve 7 [2, 0] 2 0 (some 10), .push, .activate, .serve 8 [2, 1] 2 0 none]

/- One worker; the balancer is destroyed before the worker wakes up. -/
def destroyQueuedRun : List Action :=
  [.serve 7 [2, 0] 2 0 (some 10), .push, .activate, .destroy]

/-- Both conditions are needed: a failed `malloc` is written through, and a
queued record outlives `load_balancer_destroy`. -/
theorem socketsKept_fails :
    (∃ s, (system 1 1).exec mallocFailRun (initial 1 1) = some s ∧
      (system 1 1).Reachable s ∧ s.crashed = true ∧ ¬ SocketsKept 1 s) ∧
    ∃ s, (system 1 1).exec destroyQueuedRun (initial 1 1) = some s ∧
      (system 1 1).Reachable s ∧ queue s 0 = some [⟨0, 7, 2, [2, 0]⟩] ∧ ¬ SocketsKept 1 s := by
  constructor
  · have hobs : ((system 1 1).exec mallocFailRun (initial 1 1)).map State.crashed = some true := by
      decide
    obtain ⟨s, hs, he⟩ := Option.map_eq_some_iff.mp hobs
    refine ⟨s, hs, System.reachable_exec (.init rfl) hs, he, ?_⟩
    intro hk
    rw [hk.noNull] at he
    cases he
  · have hobs : ((system 1 1).exec destroyQueuedRun (initial 1 1)).map
        (fun s => (s.dispatcher, queue s 0)) =
          some (.destroyed, some [⟨0, 7, 2, [2, 0]⟩]) := by
      decide
    obtain ⟨s, hs, he⟩ := Option.map_eq_some_iff.mp hobs
    simp only [Prod.mk.injEq] at he
    refine ⟨s, hs, System.reachable_exec (.init rfl) hs, he.2, ?_⟩
    intro hk
    have hempty := hk.destroyed he.1 0 (by decide)
    rw [he.2] at hempty
    cases hempty

end LibeventHttpServe.Balancer
