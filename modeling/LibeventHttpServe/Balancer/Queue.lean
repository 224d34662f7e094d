import LibeventHttpServe.Balancer.Model

/-!
# Worker queues as chains of live records

`Effect` says once what a step can do. `Rep` ties a state to the lists its
queues stand for: every queue is a proper chain, no record is owned twice, and
what a worker was given is what it served, holds and has queued.
-/

namespace LibeventHttpServe.Balancer
open Lib

theorem setWorker_workers (s : State) (w v : ℕ) (x : Worker) :
    (s.setWorker w x).workers v = if v = w then x else s.workers v := by
  simp only [State.setWorker, Function.update_apply]

theorem setWorker_same (s : State) (w : ℕ) (x : Worker) : (s.setWorker w x).workers w = x := by
  rw [setWorker_workers, if_pos rfl]

theorem setWorker_ne (s : State) {w v : ℕ} (x : Worker) (h : v ≠ w) :
    (s.setWorker w x).workers v = s.workers v := by
  rw [setWorker_workers, if_neg h]

/- What a step of worker thread `w` does, guards included. -/
inductive WorkerEffect (s : State) (w : ℕ) : State → Prop where
  | timeout (hpc : (s.workers w).pc = .loop) :
      WorkerEffect s w (s.setWorker w { s.workers w with active := true })
  | wake (hpc : (s.workers w).pc = .loop) (ha : (s.workers w).active) :
      WorkerEffect s w (wake s w)
  | testNext (hpc : (s.workers w).pc = .test) : WorkerEffect s w (testNext s w)
  | evhttpServe (p : Ptr) (hpc : (s.workers w).pc = .holding p) :
      WorkerEffect s w (evhttpServe s w p)
  | freeNext (p : Ptr) (hpc : (s.workers w).pc = .served p) : WorkerEffect s w (freeNext s w p)
  | leave (hpc : (s.workers w).pc = .leaving) :
      WorkerEffect s w (s.setWorker w { s.workers w with pc := .loop })

/- What an action does; the dispatcher's five effects come first. -/
inductive Effect (s : State) : Action → State → Prop where
  | mallocFail (fd : ℤ) (addr : List UInt8) (addrLen : UInt32) (rand : ℕ)
      (hd : s.dispatcher = .idle) :
      Effect s (.serve fd addr addrLen rand none) { s with
        i := (select s rand).2
        accepted := s.accepted ++ [newConn s fd addr addrLen]
        crashed := true }
  | fill (fd : ℤ) (addr : List UInt8) (addrLen : UInt32) (rand : ℕ) (p : Ptr)
      (hd : s.dispatcher = .idle) (hp : s.heap.lookup p = none) :
      Effect s (.serve fd addr addrLen rand (some p)) { s with
        i := (select s rand).2
        accepted := s.accepted ++ [newConn s fd addr addrLen]
        heap := s.heap.insert p (newConn s fd addr addrLen).record
        dispatcher := .filled (select s rand).1 p }
  | push (w : ℕ) (p : Ptr) (hd : s.dispatcher = .filled w p) : Effect s .push (push s w p)
  | activate (w : ℕ) (hd : s.dispatcher = .pushed w) : Effect s .activate (activate s w)
  | destroy (hd : s.dispatcher = .idle) :
      Effect s .destroy { s with dispatcher := .destroyed }
  | worker (w : ℕ) (a : Action) (s' : State) (hw : WorkerEffect s w s') : Effect s a s'

theorem dispatcherStep_effect {s s' : State} {a : Action} (h : dispatcherStep s a = some s') :
    Effect s a s' := by
  cases a with
  | serve fd addr addrLen rand malloc =>
    by_cases hd : s.dispatcher = .idle
    · simp only [dispatcherStep, if_pos hd, serve] at h
      cases malloc with
      | none =>
        cases h
        exact .mallocFail fd addr addrLen rand hd
      | some p =>
        by_cases hp : s.heap.lookup p = none
        · simp only [if_pos hp] at h
          cases h
          exact .fill fd addr addrLen rand p hd hp
        · simp [hp] at h
    · simp [dispatcherStep, hd] at h
  | push =>
    simp only [dispatcherStep] at h
    split at h
    · rename_i w p hd
      cases h
      exact .push w p hd
    · cases h
  | activate =>
    simp only [dispatcherStep] at h
    split at h
    · rename_i w hd
      cases h
      exact .activate w hd
    · cases h
  | destroy =>
    by_cases hd : s.dispatcher = .idle
    · simp only [dispatcherStep, if_pos hd] at h
      cases h
      exact .destroy hd
    · simp [dispatcherStep, hd] at h
  | timeout w => cases h
  | wake w => cases h
  | advance w => cases h

theorem workerStep_effect {s s' : State} {w : ℕ} {a : Action} (h : workerStep s w a = some s') :
    WorkerEffect s w s' := by
  cases a with
  | timeout v =>
    by_cases hpc : (s.workers w).pc = .loop
    · simp only [workerStep, if_pos hpc] at h
      cases h
      exact .timeout hpc
    · simp [workerStep, hpc] at h
  | wake v =>
    by_cases hg : (s.workers w).pc = .loop ∧ (s.workers w).active
    · simp only [workerStep, if_pos hg] at h
      cases h
      exact .wake hg.1 hg.2
    · simp only [workerStep, if_neg hg] at h
      cases h
  | advance v =>
    simp only [workerStep] at h
    split at h
    · cases h
    · rename_i hpc
      cases h
      exact .testNext hpc
    · rename_i p hpc
      cases h
      exact .evhttpServe p hpc
    · rename_i p hpc
      cases h
      exact .freeNext p hpc
    · rename_i hpc
      cases h
      exact .leave hpc
  | serve fd addr addrLen rand malloc => cases h
  | push => cases h
  | activate => cases h
  | destroy => cases h

/-- Every step has one of the effects, and none is taken after a crash or after
`load_balancer_destroy`. -/
theorem step_effect {s s' : State} {a : Action} (h : step s a = some s') :
    s.crashed = false ∧ s.dispatcher ≠ .destroyed ∧ Effect s a s' := by
  by_cases hg : s.crashed ∨ s.dispatcher = .destroyed
  · simp only [step, if_pos hg] at h
    cases h
  · have hdead := not_or.mp hg
    refine ⟨by simpa using hdead.1, hdead.2, ?_⟩
    simp only [step, if_neg hg] at h
    cases a with
    | serve fd addr addrLen rand malloc => exact dispatcherStep_effect h
    | push => exact dispatcherStep_effect h
    | activate => exact dispatcherStep_effect h
    | destroy => exact dispatcherStep_effect h
    | timeout w | wake w | advance w =>
      by_cases hw : w < s.worker.toNat
      · simp only [if_pos hw] at h
        exact .worker w _ s' (workerStep_effect h)
      · simp only [if_neg hw] at h
        cases h

/-! ### Ownership of the records -/

inductive Owner where
  | nobody
  | dispatcher
  | queue (w : ℕ)
  | hand (w : ℕ)
  deriving DecidableEq

/-- `L w` are the cells of the queue of worker `w`. The owner of an address is
a function, so that no record is on two queues, or on a queue and in a hand. -/
structure Rep (s : State) (L : ℕ → List (Ptr × HttpConnection)) (owner : Ptr → Owner) :
    Prop where
  chain : ∀ w, Chain.Segment HttpConnection.next s.heap (s.workers w).next (L w) none
  queued : ∀ w, ∀ c ∈ L w, owner c.1 = .queue w
  held : ∀ w p, (s.workers w).pc.record = some p →
    owner p = .hand w ∧ ∃ r, s.heap.lookup p = some r
  filled : ∀ w p, s.dispatcher = .filled w p →
    owner p = .dispatcher ∧ ∃ r, s.heap.lookup p = some r ∧ r.next = none
  history : ∀ w, (s.workers w).served ++ inHand s w ++ (L w).map (fun c => c.2.conn) = pushed s w

section
variable {s : State} {L : ℕ → List (Ptr × HttpConnection)} {owner : Ptr → Owner}

theorem Rep.notMem (hr : Rep s L owner) {w : ℕ} {p : Ptr} (ho : owner p ≠ .queue w) :
    p ∉ (L w).map Prod.fst := by
  intro hm
  obtain ⟨c, hc, rfl⟩ := List.mem_map.mp hm
  exact ho (hr.queued w c hc)

theorem inHand_of_record {s : State} {w : ℕ} (h : (s.workers w).pc.record = none) :
    inHand s w = [] := by
  unfold inHand
  cases hpc : (s.workers w).pc <;> simp_all [WorkerPc.record]

theorem inHand_congr {s s' : State} {w : ℕ} (hpc : (s'.workers w).pc = (s.workers w).pc)
    (hl : ∀ p, (s.workers w).pc.record = some p → s'.heap.lookup p = s.heap.lookup p) :
    inHand s' w = inHand s w := by
  unfold inHand
  rw [hpc]
  cases h : (s.workers w).pc with
  | holding p =>
    have hp := hl p (by rw [h]; rfl)
    simp only [hp]
  | loop => rfl
  | test => rfl
  | served p => rfl
  | leaving => rfl

theorem Rep.setWorker (hr : Rep s L owner) {w : ℕ} {x : Worker}
    (hnext : x.next = (s.workers w).next) (hserved : x.served = (s.workers w).served)
    (hpc : x.pc = (s.workers w).pc ∨ (x.pc.record = none ∧ (s.workers w).pc.record = none)) :
    Rep (s.setWorker w x) L owner := by
  have hrec : x.pc.record = (s.workers w).pc.record := by
    rcases hpc with hpc | ⟨hx, hs⟩
    · rw [hpc]
    · rw [hx, hs]
  have hhand : ∀ v, inHand (s.setWorker w x) v = inHand s v := by
    intro v
    by_cases hv : v = w
    · subst hv
      rcases hpc with hpc | ⟨hx, hs⟩
      · exact inHand_congr (by rw [setWorker_same, hpc]) (fun _ _ => rfl)
      · rw [inHand_of_record hs, inHand_of_record (by rw [setWorker_same, hx])]
    · exact inHand_congr (by rw [setWorker_ne s x hv]) (fun _ _ => rfl)
  refine ⟨?_, hr.queued, ?_, hr.filled, ?_⟩
  · intro v
    rw [setWorker_workers]
    split
    · rename_i hv
      rw [hv, hnext]
      exact hr.chain w
    · exact hr.chain v
  · intro v p hp
    rw [setWorker_workers] at hp
    split at hp
    · rename_i hv
      rw [hv]
      exact hr.held w p (hrec ▸ hp)
    · exact hr.held v p hp
  · intro v
    have hh := hr.history v
    rw [hhand, setWorker_workers]
    split
    · rename_i hv
      subst hv
      rw [hserved]
      exact hh
    · exact hh

theorem Rep.fill (hr : Rep s L owner) {i : UInt8} {a : List Conn} {r : HttpConnection}
    {w : ℕ} {p : Ptr} (hp : s.heap.lookup p = none) (hn : r.next = none) :
    Rep { s with i := i, accepted := a, heap := s.heap.insert p r, dispatcher := .filled w p }
      L (Function.update owner p .dispatcher) := by
  have hlive : ∀ q r', s.heap.lookup q = some r' → q ≠ p := by
    intro q r' hq he
    rw [he, hp] at hq
    cases hq
  refine ⟨?_, ?_, ?_, ?_, ?_⟩
  · intro v
    exact Chain.segment_insert (hr.chain v) (Chain.segment_fresh (hr.chain v) hp)
  · intro v c hc
    have hne := hlive c.1 c.2 (Chain.segment_lookup (hr.chain v) c hc)
    rw [Function.update_of_ne hne]
    exact hr.queued v c hc
  · intro v q hq
    obtain ⟨ho, r', hr'⟩ := hr.held v q hq
    have hne := hlive q r' hr'
    rw [Function.update_of_ne hne]
    exact ⟨ho, r', by rw [AList.lookup_insert_ne hne]; exact hr'⟩
  · intro v q hq
    cases hq
    exact ⟨Function.update_self .., r, AList.lookup_insert _, hn⟩
  · intro v
    refine Eq.trans ?_ (hr.history v)
    congr 2
    refine inHand_congr rfl (fun q hq => ?_)
    obtain ⟨-, r', hr'⟩ := hr.held v q hq
    exact AList.lookup_insert_ne (hlive q r' hr')

/- The state after a push: the head pointer and the heap as the two branches of
the code leave them. -/
def afterPush (s : State) (w : ℕ) (next : Option Ptr) (heap : Records) (c : Conn) : State :=
  { s.setWorker w { s.workers w with next := next } with
    heap := heap
    dispatcher := .pushed w
    log := s.log ++ [(w, c)] }

/- The critical section of `load_balancer_serve`: the new record becomes the
only one of an empty queue, or is linked behind the last one `t`. -/
theorem push_spec (hr : Rep s L owner) {w : ℕ} {p : Ptr} (hd : s.dispatcher = .filled w p) :
    ∃ r, s.heap.lookup p = some r ∧ r.next = none ∧
      ((s.workers w).next = none ∧ L w = [] ∧
          push s w p = afterPush s w (some p) s.heap r.conn ∨
        ∃ l t v, L w = l ++ [(t, v)] ∧ push s w p =
          afterPush s w (s.workers w).next (s.heap.insert t { v with next := some p }) r.conn) := by
  obtain ⟨ho, r, hlk, hrn⟩ := hr.filled w p hd
  refine ⟨r, hlk, hrn, ?_⟩
  have hch := hr.chain w
  cases hq : (s.workers w).next with
  | none =>
    rw [hq] at hch
    refine Or.inl ⟨rfl, (Chain.segment_null hch).1, ?_⟩
    simp only [push, hq, hlk, afterPush, Option.map_some, Option.toList_some]
  | some q =>
    rw [hq] at hch
    obtain ⟨res, hscan⟩ := Chain.scanTail_total (fun _ => (none : Option Empty))
      s.heap.keys.length hch (Chain.segment_length_le hch)
    rcases res with e | t
    · exact e.elim
    · obtain ⟨l, v, hseg, -⟩ := Chain.scanTail_ok _ hscan
      have hL := Chain.segment_unique hch hseg
      have hmem : (t, v) ∈ L w := by rw [hL]; simp
      have htv := Chain.segment_lookup hch (t, v) hmem
      have hpt : p ≠ t := by
        intro he
        have hot := hr.queued w (t, v) hmem
        rw [← he, ho] at hot
        cases hot
      have hlk' : (s.heap.insert t { v with next := some p }).lookup p = some r := by
        rw [AList.lookup_insert_ne hpt]
        exact hlk
      refine Or.inr ⟨l, t, v, hL, ?_⟩
      dsimp only at htv
      simp only [push, hq, hscan, htv, hlk', afterPush, Option.map_some, Option.toList_some]

/- The push of the record that was filled, on an empty queue or behind its last
record. -/
theorem push_afterPush (hr : Rep s L owner) {w : ℕ} {p : Ptr} (hd : s.dispatcher = .filled w p) :
    ∃ n h r, s.heap.lookup p = some r ∧ push s w p = afterPush s w n h r.conn := by
  obtain ⟨r, hlk, -, ⟨-, -, he⟩ | ⟨l, t, v, -, he⟩⟩ := push_spec hr hd
  · exact ⟨_, _, r, hlk, he⟩
  · exact ⟨_, _, r, hlk, he⟩

theorem pushed_afterPush {w v : ℕ} {n : Option Ptr} {h : Records} {c : Conn} :
    pushed (afterPush s w n h c) v = pushed s v ++ (if v = w then [c] else []) := by
  simp only [pushed, afterPush, List.filter_append, List.map_append]
  by_cases hv : v = w
  · subst hv
    simp
  · have hwv : ¬ w = v := fun he => hv he.symm
    simp [hv, hwv]

theorem afterPush_workers {w v : ℕ} {n : Option Ptr} {h : Records} {c : Conn} :
    (afterPush s w n h c).workers v =
      if v = w then { s.workers w with next := n } else s.workers v := by
  simp only [afterPush, setWorker_workers]

/- A push leaves what the workers hold as it is, provided that it leaves their
records as they are. -/
theorem inHand_afterPush {w v : ℕ} {n : Option Ptr} {h : Records} {c : Conn}
    (hl : ∀ q, (s.workers v).pc.record = some q → h.lookup q = s.heap.lookup q) :
    inHand (afterPush s w n h c) v = inHand s v := by
  refine inHand_congr ?_ hl
  rw [afterPush_workers]
  split
  · rename_i hv
    rw [hv]
  · rfl

theorem Rep.afterPush (hr : Rep s L owner) {w : ℕ} {p : Ptr} {n : Option Ptr} {h : Records}
    {c : Conn} {l : List (Ptr × HttpConnection)}
    (ho : owner p = .dispatcher)
    (hchain : Chain.Segment HttpConnection.next h n l none)
    (hkeys : ∀ d ∈ l, d.1 = p ∨ owner d.1 = .queue w)
    (hconns : l.map (fun d => d.2.conn) = (L w).map (fun d => d.2.conn) ++ [c])
    (hframe : ∀ q, owner q ≠ .queue w → h.lookup q = s.heap.lookup q) :
    Rep (afterPush s w n h c) (Function.update L w l) (Function.update owner p (.queue w)) := by
  have hhand : ∀ v q, (s.workers v).pc.record = some q → q ≠ p ∧ owner q ≠ .queue w := by
    intro v q hq
    have hoq := (hr.held v q hq).1
    refine ⟨fun he => ?_, fun he => ?_⟩
    · rw [he, ho] at hoq
      cases hoq
    · rw [he] at hoq
      cases hoq
  refine ⟨?_, ?_, ?_, ?_, ?_⟩
  · intro v
    rw [afterPush_workers]
    by_cases hv : v = w
    · subst hv
      rw [if_pos rfl, Function.update_self]
      exact hchain
    · rw [if_neg hv, Function.update_of_ne hv]
      refine Chain.segment_congr (hr.chain v) (fun d hd => hframe d.1 ?_)
      rw [hr.queued v d hd]
      intro he
      cases he
      exact hv rfl
  · intro v d hd
    by_cases hv : v = w
    · subst hv
      rw [Function.update_self] at hd
      rcases hkeys d hd with he | he
      · rw [he, Function.update_self]
      · by_cases hp : d.1 = p
        · rw [hp, Function.update_self]
        · rw [Function.update_of_ne hp]
          exact he
    · rw [Function.update_of_ne hv] at hd
      have hod := hr.queued v d hd
      have hp : d.1 ≠ p := by
        intro he
        rw [he, ho] at hod
        cases hod
      rw [Function.update_of_ne hp]
      exact hod
  · intro v q hq
    have hq' : (s.workers v).pc.record = some q := by
      rw [afterPush_workers] at hq
      split at hq
      · rename_i hv
        rw [hv]
        exact hq
      · exact hq
    obtain ⟨hoq, r, hlk⟩ := hr.held v q hq'
    obtain ⟨hqp, hqw⟩ := hhand v q hq'
    rw [Function.update_of_ne hqp]
    exact ⟨hoq, r, (hframe q hqw).trans hlk⟩
  · intro v q hq
    cases hq
  · intro v
    rw [pushed_afterPush, ← hr.history v, inHand_afterPush (fun q hq => hframe q (hhand v q hq).2),
      afterPush_workers]
    by_cases hv : v = w
    · subst hv
      simp only [if_true, Function.update_self, hconns, List.append_assoc]
    · simp only [if_neg hv, Function.update_of_ne hv, List.append_nil]

theorem Rep.push (hr : Rep s L owner) {w : ℕ} {p : Ptr} (hd : s.dispatcher = .filled w p) :
    ∃ L' owner', Rep (Balancer.push s w p) L' owner' := by
  have ho := (hr.filled w p hd).1
  obtain ⟨r, hlk, hrn, ⟨hq, hL, he⟩ | ⟨l, t, v, hL, he⟩⟩ := push_spec hr hd
  · -- empty queue: the new record is the whole queue
    refine ⟨_, _, he ▸ hr.afterPush (l := [(p, r)]) ho ?_ ?_ ?_ (fun _ _ => rfl)⟩
    · exact Chain.segment_cons.mpr ⟨rfl, hlk, hrn⟩
    · intro d hd
      left
      simp only [List.mem_singleton] at hd
      rw [hd]
    · simp [hL]
  · -- the last record `t` is rewritten, which only its queue may notice
    have hch := hr.chain w
    have hmem : (t, v) ∈ L w := by rw [hL]; simp
    have hot : owner t = .queue w := hr.queued w (t, v) hmem
    rw [hL] at hch
    refine ⟨_, _,
      he ▸ hr.afterPush (l := l ++ [(t, { v with next := some p }), (p, r)]) ho ?_ ?_ ?_ ?_⟩
    · refine Chain.segment_link hch hlk ?_ rfl hrn
      rw [← hL]
      exact hr.notMem (by rw [ho]; intro h; cases h)
    · intro d hd
      rcases List.mem_append.mp hd with hd | hd
      · exact Or.inr (hr.queued w d (by rw [hL]; exact List.mem_append_left _ hd))
      · simp only [List.mem_cons, List.not_mem_nil, or_false] at hd
        rcases hd with rfl | rfl
        · exact Or.inr hot
        · exact Or.inl rfl
    · simp [hL, HttpConnection.conn]
    · intro q hq
      refine AList.lookup_insert_ne ?_
      intro he'
      rw [he'] at hq
      exact hq hot

/-! ### The worker's side -/

/- The critical section of `worker_on_ev`: either the queue is empty, or its
first record moves into the hand of the worker. -/
theorem testNext_spec (hr : Rep s L owner) (w : ℕ) :
    (s.workers w).next = none ∧ L w = [] ∧
        testNext s w = s.setWorker w { s.workers w with pc := .leaving } ∨
      ∃ p r l, L w = (p, r) :: l ∧ testNext s w =
        s.setWorker w { s.workers w with next := r.next, pc := .holding p } := by
  have hch := hr.chain w
  cases hq : (s.workers w).next with
  | none =>
    rw [hq] at hch
    exact Or.inl ⟨rfl, (Chain.segment_null hch).1, by simp only [testNext, hq]⟩
  | some q =>
    rw [hq] at hch
    cases hL : L w with
    | nil =>
      rw [hL] at hch
      cases Chain.segment_nil.mp hch
    | cons c l =>
      obtain ⟨p, r⟩ := c
      rw [hL] at hch
      obtain ⟨hqp, hlk, -⟩ := Chain.segment_cons.mp hch
      cases hqp
      exact Or.inr ⟨q, r, l, rfl, by simp only [testNext, hq, hlk]⟩

theorem Rep.pop (hr : Rep s L owner) {w : ℕ} {p : Ptr} {r : HttpConnection}
    {l : List (Ptr × HttpConnection)} (hpc : (s.workers w).pc = .test)
    (hL : L w = (p, r) :: l) :
    Rep (s.setWorker w { s.workers w with next := r.next, pc := .holding p })
      (Function.update L w l) (Function.update owner p (.hand w)) := by
  have hch := hr.chain w
  rw [hL] at hch
  obtain ⟨-, hlk, htail⟩ := Chain.segment_cons.mp hch
  have hop : owner p = .queue w := hr.queued w (p, r) (by rw [hL]; exact List.mem_cons_self)
  have hnodup := Chain.segment_nodup hch
  have hpl : p ∉ l.map Prod.fst := (List.nodup_cons.mp hnodup).1
  have hrec : (s.workers w).pc.record = none := by rw [hpc]; rfl
  refine ⟨?_, ?_, ?_, ?_, ?_⟩
  · intro v
    rw [setWorker_workers]
    by_cases hv : v = w
    · subst hv
      rw [if_pos rfl, Function.update_self]
      exact htail
    · rw [if_neg hv, Function.update_of_ne hv]
      exact hr.chain v
  · intro v c hc
    by_cases hv : v = w
    · subst hv
      rw [Function.update_self] at hc
      have hne : c.1 ≠ p := by
        intro he
        exact hpl (he ▸ List.mem_map_of_mem hc)
      rw [Function.update_of_ne hne]
      exact hr.queued v c (by rw [hL]; exact List.mem_cons_of_mem _ hc)
    · rw [Function.update_of_ne hv] at hc
      have hoc := hr.queued v c hc
      have hne : c.1 ≠ p := by
        intro he
        rw [he, hop] at hoc
        cases hoc
        exact hv rfl
      rw [Function.update_of_ne hne]
      exact hoc
  · intro v q hq
    rw [setWorker_workers] at hq
    split at hq
    · rename_i hv
      cases hq
      rw [hv, Function.update_self]
      exact ⟨rfl, r, hlk⟩
    · obtain ⟨hoq, hlive⟩ := hr.held v q hq
      have hne : q ≠ p := by
        intro he
        rw [he, hop] at hoq
        cases hoq
      rw [Function.update_of_ne hne]
      exact ⟨hoq, hlive⟩
  · intro v q hq
    obtain ⟨hoq, hlive⟩ := hr.filled v q hq
    have hne : q ≠ p := by
      intro he
      rw [he, hop] at hoq
      cases hoq
    rw [Function.update_of_ne hne]
    exact ⟨hoq, hlive⟩
  · intro v
    refine Eq.trans ?_ (hr.history v)
    by_cases hv : v = w
    · subst hv
      have hnew : inHand (s.setWorker v { s.workers v with next := r.next, pc := .holding p }) v
          = [r.conn] := by
        simp only [inHand, setWorker_same]
        change ((s.heap.lookup p).map HttpConnection.conn).toList = [r.conn]
        rw [hlk]
        rfl
      rw [hnew, inHand_of_record hrec, setWorker_same, Function.update_self, hL]
      simp
    · have hsame : inHand (s.setWorker w { s.workers w with next := r.next, pc := .holding p }) v
          = inHand s v := inHand_congr (by rw [setWorker_ne _ _ hv]) (fun _ _ => rfl)
      rw [hsame, setWorker_ne _ _ hv, Function.update_of_ne hv]

theorem evhttpServe_spec (hr : Rep s L owner) {w : ℕ} {p : Ptr}
    (hpc : (s.workers w).pc = .holding p) :
    ∃ r, s.heap.lookup p = some r ∧ evhttpServe s w p = s.setWorker w
      { s.workers w with pc := .served p, served := (s.workers w).served ++ [r.conn] } := by
  obtain ⟨-, r, hlk⟩ := hr.held w p (by rw [hpc]; rfl)
  exact ⟨r, hlk, by simp only [evhttpServe, hlk]⟩

theorem Rep.evhttpServe (hr : Rep s L owner) {w : ℕ} {p : Ptr}
    (hpc : (s.workers w).pc = .holding p) : Rep (Balancer.evhttpServe s w p) L owner := by
  obtain ⟨r, hlk, he⟩ := evhttpServe_spec hr hpc
  rw [he]
  refine ⟨?_, hr.queued, ?_, hr.filled, ?_⟩
  · intro v
    rw [setWorker_workers]
    split
    · rename_i hv
      rw [hv]
      exact hr.chain w
    · exact hr.chain v
  · intro v q hq
    rw [setWorker_workers] at hq
    split at hq
    · rename_i hv
      rw [hv]
      exact hr.held w q (by rw [hpc]; exact hq)
    · exact hr.held v q hq
  · intro v
    refine Eq.trans ?_ (hr.history v)
    by_cases hv : v = w
    · subst hv
      have hold : inHand s v = [r.conn] := by
        simp only [inHand, hpc, hlk, Option.map_some, Option.toList_some]
      have hnew : inHand (s.setWorker v { s.workers v with
          pc := .served p, served := (s.workers v).served ++ [r.conn] }) v = [] := by
        simp only [inHand, setWorker_same]
      rw [hold, hnew, setWorker_same]
      simp
    · have hsame : inHand (s.setWorker w { s.workers w with
          pc := .served p, served := (s.workers w).served ++ [r.conn] }) v = inHand s v :=
        inHand_congr (by rw [setWorker_ne _ _ hv]) (fun _ _ => rfl)
      rw [hsame, setWorker_ne _ _ hv]

theorem freeNext_spec (hr : Rep s L owner) {w : ℕ} {p : Ptr}
    (hpc : (s.workers w).pc = .served p) :
    freeNext s w p =
      { s.setWorker w { s.workers w with pc := .test } with heap := s.heap.erase p } := by
  obtain ⟨-, r, hlk⟩ := hr.held w p (by rw [hpc]; rfl)
  simp only [freeNext, hlk]

theorem Rep.freeNext (hr : Rep s L owner) {w : ℕ} {p : Ptr}
    (hpc : (s.workers w).pc = .served p) : Rep (Balancer.freeNext s w p) L owner := by
  have hop : owner p = .hand w := (hr.held w p (by rw [hpc]; rfl)).1
  -- whoever else owns a record owns another one
  have hother : ∀ q, owner q ≠ .hand w → (s.heap.erase p).lookup q = s.heap.lookup q := by
    intro q hq
    refine AList.lookup_erase_ne ?_
    intro he
    exact hq (he ▸ hop)
  have hneq : ∀ v, v ≠ w → Owner.hand v ≠ .hand w := by
    intro v hv he
    cases he
    exact hv rfl
  rw [freeNext_spec hr hpc]
  refine ⟨?_, hr.queued, ?_, ?_, ?_⟩
  · intro v
    have hch : Chain.Segment HttpConnection.next (s.heap.erase p) (s.workers v).next (L v) none :=
      Chain.segment_erase (hr.chain v) (hr.notMem (by rw [hop]; intro h; cases h))
    dsimp only
    rw [setWorker_workers]
    split
    · rename_i hv
      rw [← hv]
      exact hch
    · exact hch
  · intro v q hq
    dsimp only at hq ⊢
    rw [setWorker_workers] at hq
    split at hq
    · cases hq
    · rename_i hv
      obtain ⟨hoq, r, hlk⟩ := hr.held v q hq
      exact ⟨hoq, r, by rw [hother q (by rw [hoq]; exact hneq v hv)]; exact hlk⟩
  · intro v q hq
    obtain ⟨hoq, r, hlk, hn⟩ := hr.filled v q hq
    exact ⟨hoq, r, by rw [hother q (by rw [hoq]; intro h; cases h)]; exact hlk, hn⟩
  · intro v
    refine Eq.trans ?_ (hr.history v)
    by_cases hv : v = w
    · subst hv
      have hold : inHand s v = [] := by simp only [inHand, hpc]
      have hnew : inHand { s.setWorker v { s.workers v with pc := .test } with
          heap := s.heap.erase p } v = [] := by
        simp only [inHand, setWorker_same]
      rw [hold, hnew]
      simp only [setWorker_same]
    · have hsame : inHand { s.setWorker w { s.workers w with pc := .test } with
          heap := s.heap.erase p } v = inHand s v := by
        refine inHand_congr (by dsimp only; rw [setWorker_ne _ _ hv]) (fun q hq => ?_)
        exact hother q (by rw [(hr.held v q hq).1]; exact hneq v hv)
      rw [hsame]
      simp only [setWorker_ne _ _ hv]

/-- A step of a worker changes nothing of the dispatcher's. -/
structure DispatcherSame (s s' : State) : Prop where
  balance : s'.balance = s.balance
  worker : s'.worker = s.worker
  i : s'.i = s.i
  dispatcher : s'.dispatcher = s.dispatcher
  crashed : s'.crashed = s.crashed
  accepted : s'.accepted = s.accepted
  log : s'.log = s.log
  pending : pending s' = pending s

theorem dispatcherSame_setWorker (w : ℕ) (x : Worker) : DispatcherSame s (s.setWorker w x) :=
  ⟨rfl, rfl, rfl, rfl, rfl, rfl, rfl, rfl⟩

theorem WorkerEffect.dispatcherSame (hr : Rep s L owner) {w : ℕ} {s' : State}
    (he : WorkerEffect s w s') : DispatcherSame s s' := by
  cases he with
  | timeout hpc => exact dispatcherSame_setWorker w _
  | wake hpc ha => exact dispatcherSame_setWorker w _
  | testNext hpc =>
    rcases testNext_spec hr w with ⟨-, -, he⟩ | ⟨p, r, l, -, he⟩
    · exact he ▸ dispatcherSame_setWorker w _
    · exact he ▸ dispatcherSame_setWorker w _
  | evhttpServe p hpc =>
    obtain ⟨r, -, he⟩ := evhttpServe_spec hr hpc
    exact he ▸ dispatcherSame_setWorker w _
  | freeNext p hpc =>
    rw [freeNext_spec hr hpc]
    refine ⟨rfl, rfl, rfl, rfl, rfl, rfl, rfl, ?_⟩
    -- the freed record is not the one the dispatcher is filling
    cases hd : s.dispatcher with
    | filled v q =>
      have hne : q ≠ p := by
        intro heq
        have ho := (hr.filled v q hd).1
        rw [heq, (hr.held w p (by rw [hpc]; rfl)).1] at ho
        cases ho
      simp only [pending, State.setWorker, hd, AList.lookup_erase_ne hne]
    | idle => simp only [pending, State.setWorker, hd]
    | pushed v => simp only [pending, State.setWorker, hd]
    | destroyed => simp only [pending, State.setWorker, hd]
  | leave hpc => exact dispatcherSame_setWorker w _

theorem Rep.workerEffect (hr : Rep s L owner) {w : ℕ} {s' : State} (he : WorkerEffect s w s') :
    ∃ L' owner', Rep s' L' owner' := by
  cases he with
  | timeout hpc => exact ⟨L, owner, hr.setWorker rfl rfl (Or.inl rfl)⟩
  | wake hpc ha => exact ⟨L, owner, hr.setWorker rfl rfl (Or.inr ⟨rfl, by rw [hpc]; rfl⟩)⟩
  | testNext hpc =>
    rcases testNext_spec hr w with ⟨-, -, he⟩ | ⟨p, r, l, hL, he⟩
    · exact ⟨L, owner, he ▸ hr.setWorker rfl rfl (Or.inr ⟨rfl, by rw [hpc]; rfl⟩)⟩
    · exact ⟨_, _, he ▸ hr.pop hpc hL⟩
  | evhttpServe p hpc => exact ⟨L, owner, hr.evhttpServe hpc⟩
  | freeNext p hpc => exact ⟨L, owner, hr.freeNext hpc⟩
  | leave hpc => exact ⟨L, owner, hr.setWorker rfl rfl (Or.inr ⟨rfl, by rw [hpc]; rfl⟩)⟩

/-- Every step keeps the queues proper chains of records owned once. -/
theorem Rep.effect (hr : Rep s L owner) {s' : State} {a : Action} (he : Effect s a s') :
    ∃ L' owner', Rep s' L' owner' := by
  cases he with
  | mallocFail fd addr addrLen rand hd =>
    exact ⟨L, owner, hr.chain, hr.queued, hr.held, hr.filled, hr.history⟩
  | fill fd addr addrLen rand p hd hp => exact ⟨_, _, hr.fill hp rfl⟩
  | push w p hd => exact hr.push hd
  | activate w hd =>
    have hw := hr.setWorker (x := { s.workers w with active := true }) rfl rfl (Or.inl rfl)
    exact ⟨L, owner, hw.chain, hw.queued, hw.held, fun v p hp => (by cases hp), hw.history⟩
  | destroy hd =>
    exact ⟨L, owner, hr.chain, hr.queued, hr.held, fun v p hp => (by cases hp), hr.history⟩
  | worker w a s' hw => exact hr.workerEffect hw

end

theorem rep_initial (balance worker : UInt8) :
    Rep (initial balance worker) (fun _ => []) (fun _ => .nobody) := by
  refine ⟨fun _ => rfl, ?_, ?_, ?_, fun _ => rfl⟩
  · intro w c hc
    cases hc
  · intro w p hp
    cases hp
  · intro w p hp
    cases hp

end LibeventHttpServe.Balancer
