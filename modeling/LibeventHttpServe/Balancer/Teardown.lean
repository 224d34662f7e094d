import LibeventHttpServe.Balancer.Lifecycle
import LibeventHttpServe.Lib.Ownership
import Mathlib.Logic.Function.Iterate

/-!
# What set-up acquires and tear-down releases (load_balancer.c:46-173)

A failed `load_balancer_init` acquires in one phase and releases in the next: the
failing worker's resources first, then those of the workers before it, then the
balancer's own. A `load_balancer_destroy` releases all but the balancer's mutex.
-/

namespace LibeventHttpServe.Balancer

open LibeventHttpServe.Lib

def Op.entry : Op → Option (Entry Resource)
  | .acquire r => some (.acquire r)
  | .release r => some (.release r)
  | .addEvent _ => none
  | .createThread _ => none

def entries (ops : List Op) : List (Entry Resource) := ops.filterMap Op.entry

@[simp] theorem entries_append (l m : List Op) : entries (l ++ m) = entries l ++ entries m :=
  List.filterMap_append ..

/-- The worker that a resource belongs to. -/
def Resource.owner : Resource → Option ℕ
  | .workers => none
  | .mutex => none
  | .workerMutex w => some w
  | .base w => some w
  | .http w => some w
  | .ev w => some w

-- the resources of a worker as they are acquired, and as they are released
def workerAcquires (w : ℕ) : List Resource := [.workerMutex w, .base w, .http w, .ev w]
def workerReleases (w : ℕ) : List Resource := [.workerMutex w, .ev w, .http w, .base w]

/-! ### One worker -/

theorem workerInit_done {ok : Call → Bool} {s : Setup} {w : ℕ} (h : (workerInit ok s w).2 = true) :
    (workerInit ok s w).1 = { s with
      ptrs := Function.update s.ptrs w ⟨true, true, true⟩, ops := s.ops ++ workerInitOps w } := by
  unfold workerInit at h ⊢
  split_ifs at h ⊢
  simp [Setup.emit, Setup.setPtrs, workerInitOps]

/-- What the label `FAIL` releases, by the pointers that are not null. -/
def failReleases (x : WorkerPtrs) (w : ℕ) : List Resource :=
  .workerMutex w :: ((if x.ev then [.ev w] else []) ++ ((if x.http then [.http w] else []) ++
    if x.base then [.base w] else []))

theorem workerInitFail_eq (s : Setup) (w : ℕ) :
    workerInitFail s w = { s with
      ptrs := Function.update s.ptrs w ⟨false, false, false⟩
      ops := s.ops ++ (failReleases (s.ptrs w) w).map .release } := by
  rcases hx : s.ptrs w with ⟨base, http, ev⟩
  have hself : s.ptrs = Function.update s.ptrs w ⟨base, http, ev⟩ := by
    rw [← hx, Function.update_eq_self]
  cases base <;> cases http <;> cases ev <;>
    simp [workerInitFail, failReleases, Setup.emit, Setup.setPtrs, hx, ← hself]

/-- The worker acquired some of its resources, in their order, and released them. -/
structure WorkerUndone (w : ℕ) (s t : Setup) (as bs : List Resource) : Prop where
  kept : t.ptrs = s.ptrs ∧ t.worker = s.worker ∧ t.allocated = s.allocated
  ops : entries t.ops = entries s.ops ++ (as.map .acquire ++ bs.map .release)
  acquired : as.Sublist (workerAcquires w)
  released : bs.Sublist (workerReleases w)
  perm : bs.Perm as

theorem entries_map_release (l : List Resource) : entries (l.map .release) = l.map .release := by
  induction l with
  | nil => rfl
  | cons r l ih => exact congrArg (Entry.release r :: ·) ih

/-- From `s` on the worker acquired `as`, and its pointers are `x` now. -/
structure Acquired (w : ℕ) (s t : Setup) (x : WorkerPtrs) (as : List Resource) : Prop where
  ptrs : t.ptrs = Function.update s.ptrs w x
  kept : t.worker = s.worker ∧ t.allocated = s.allocated
  ops : entries t.ops = entries s.ops ++ as.map .acquire

section Acquired

variable {s t : Setup} {w : ℕ} {x : WorkerPtrs} {as : List Resource} (h : Acquired w s t x as)

include h

theorem Acquired.pointers : t.ptrs w = x := by
  rw [h.ptrs, Function.update_self]

theorem Acquired.emit (op : Op) (r : List Resource) (hop : entries [op] = r.map .acquire) :
    Acquired w s (t.emit op) x (as ++ r) := by
  refine ⟨h.ptrs, h.kept, ?_⟩
  show entries (t.ops ++ [op]) = _
  rw [entries_append, h.ops, hop, List.map_append, List.append_assoc]

theorem Acquired.setPtrs (g : WorkerPtrs → WorkerPtrs) :
    Acquired w s (t.setPtrs w (g (t.ptrs w))) (g x) as := by
  refine ⟨?_, h.kept, h.ops⟩
  show Function.update t.ptrs w (g (t.ptrs w)) = _
  rw [h.pointers, h.ptrs, Function.update_idem]

/- A failure behind the acquisitions `as`. -/
theorem Acquired.undone (hp : s.ptrs w = ⟨false, false, false⟩)
    (has : as.Sublist (workerAcquires w)) (hperm : (failReleases x w).Perm as) :
    WorkerUndone w s (workerInitFail t w) as (failReleases x w) := by
  rw [workerInitFail_eq, h.pointers]
  refine ⟨⟨?_, h.kept⟩, ?_, has, ?_, hperm⟩
  · rw [h.ptrs, Function.update_idem, ← hp, Function.update_eq_self]
  · rw [entries_append, entries_map_release, h.ops, List.append_assoc]
  · obtain ⟨base, http, ev⟩ := x
    cases base <;> cases http <;> cases ev <;> simp [failReleases, workerReleases]

end Acquired

/- The acquisitions behind the mutex are released in the opposite order. -/
theorem failReleases_perm (w : ℕ) :
    (failReleases ⟨false, false, false⟩ w).Perm [.workerMutex w] ∧
      (failReleases ⟨true, false, false⟩ w).Perm [.workerMutex w, .base w] ∧
      (failReleases ⟨true, true, false⟩ w).Perm [.workerMutex w, .base w, .http w] ∧
      (failReleases ⟨true, true, true⟩ w).Perm (workerAcquires w) := by
  have hhttp := List.reverse_perm [Resource.base w, Resource.http w]
  have hev := List.reverse_perm [Resource.base w, Resource.http w, Resource.ev w]
  exact ⟨.refl _, .refl _, hhttp.cons _, hev.cons _⟩

theorem workerInit_failed {ok : Call → Bool} {s : Setup} {w : ℕ}
    (hp : s.ptrs w = ⟨false, false, false⟩) (h : (workerInit ok s w).2 = false) :
    ∃ as bs, WorkerUndone w s (workerInit ok s w).1 as bs := by
  have hstart : Acquired w s s ⟨false, false, false⟩ [] :=
    ⟨by rw [← hp, Function.update_eq_self], ⟨rfl, rfl⟩, (List.append_nil _).symm⟩
  have hmutex := hstart.emit (.acquire (.workerMutex w)) [.workerMutex w] rfl
  have hbase := (hmutex.emit (.acquire (.base w)) [.base w] rfl).setPtrs
    fun x => { x with base := true }
  have hhttp := (hbase.emit (.acquire (.http w)) [.http w] rfl).setPtrs
    fun x => { x with http := true }
  have hev := (hhttp.emit (.acquire (.ev w)) [.ev w] rfl).setPtrs fun x => { x with ev := true }
  have hadded := hev.emit (.addEvent w) [] rfl
  obtain ⟨hmutex', hbase', hhttp', hev'⟩ := failReleases_perm w
  unfold workerInit at h ⊢
  split_ifs at h ⊢
  · exact ⟨[], [], ⟨rfl, rfl, rfl⟩, by simp, by simp, by simp, .refl _⟩
  · exact ⟨_, _, hmutex.undone hp (by simp [workerAcquires]) hmutex'⟩
  · exact ⟨_, _, hbase.undone hp (by simp [workerAcquires]) hbase'⟩
  · exact ⟨_, _, hhttp.undone hp (by simp [workerAcquires]) hhttp'⟩
  · exact ⟨_, _, hev.undone hp (by simp [workerAcquires]) hev'⟩
  · exact ⟨_, _, hadded.undone hp (by simp [workerAcquires]) hev'⟩

theorem workerDestroy_ops {s : Setup} {w : ℕ} (hp : s.ptrs w = ⟨true, true, true⟩) :
    workerDestroy s w = { s with
      ptrs := Function.update s.ptrs w ⟨false, false, false⟩
      ops := s.ops ++ (workerReleases w).map .release } := by
  simp [workerDestroy, hp, Setup.emit, Setup.setPtrs, workerReleases]

/-! ### All workers -/

theorem destroyWorkers_ops {n j : ℕ} {s : Setup}
    (hp : ∀ v, j ≤ v → v < j + n → s.ptrs v = ⟨true, true, true⟩) :
    entries (destroyWorkers n j s).ops =
        entries s.ops ++ ((List.range' j n).flatMap workerReleases).map .release ∧
      (destroyWorkers n j s).worker = s.worker := by
  induction n generalizing j s with
  | zero => simp [destroyWorkers]
  | succ n ih =>
    have hrest : ∀ v, j + 1 ≤ v → v < j + 1 + n →
        (workerDestroy s j).ptrs v = ⟨true, true, true⟩ := by
      intro v h1 h2
      rw [workerDestroy_ops (hp j (by omega) (by omega))]
      show Function.update s.ptrs j _ v = _
      rw [Function.update_of_ne (by omega)]
      exact hp v (by omega) (by omega)
    obtain ⟨hops, hworker⟩ := ih hrest
    rw [destroyWorkers, hops, hworker, workerDestroy_ops (hp j (by omega) (by omega))]
    refine ⟨?_, rfl⟩
    rw [entries_append, entries_map_release, List.range'_succ, List.flatMap_cons, List.map_append,
      List.append_assoc]

/-- The workers before `i` are set up, and the others are zero. -/
def SetUpTo (i : ℕ) (s : Setup) : Prop :=
  ∀ v, s.ptrs v = if v < i then ⟨true, true, true⟩ else ⟨false, false, false⟩

theorem entries_workerInitOps (w : ℕ) :
    entries (workerInitOps w) = (workerAcquires w).map .acquire := rfl

theorem setUpTo_done {ok : Call → Bool} {s : Setup} {i : ℕ} (hs : SetUpTo i s)
    (h : (workerInit ok s i).2 = true) : SetUpTo (i + 1) (workerInit ok s i).1 ∧
      entries (workerInit ok s i).1.ops = entries s.ops ++ (workerAcquires i).map .acquire ∧
      (workerInit ok s i).1.worker = s.worker ∧
      (workerInit ok s i).1.allocated = s.allocated := by
  rw [workerInit_done h]
  refine ⟨?_, ?_, rfl, rfl⟩
  · intro v
    by_cases hv : v = i
    · subst hv
      simp
    · show Function.update s.ptrs i _ v = _
      rw [Function.update_of_ne hv, hs v]
      have hlt : v < i + 1 ↔ v < i := by omega
      simp only [hlt]
  · rw [entries_append, entries_workerInitOps]

/-- A set-up that succeeds acquires the resources of every worker in turn. -/
theorem initWorkers_done {ok : Call → Bool} {n i : ℕ} {s : Setup} (hs : SetUpTo i s)
    (h : (initWorkers ok n i s).2 = true) :
    SetUpTo (i + n) (initWorkers ok n i s).1 ∧
      entries (initWorkers ok n i s).1.ops =
        entries s.ops ++ ((List.range' i n).flatMap workerAcquires).map .acquire ∧
      (initWorkers ok n i s).1.worker = s.worker ∧
      (initWorkers ok n i s).1.allocated = s.allocated := by
  induction n generalizing i s with
  | zero =>
    refine ⟨hs, ?_, rfl, rfl⟩
    simp [initWorkers]
  | succ n ih =>
    cases hw : workerInit ok s i with
    | mk t b =>
      cases b with
      | false =>
        rw [initWorkers, hw] at h
        cases h
      | true =>
        have hok : (workerInit ok s i).2 = true := by rw [hw]
        have hdone := setUpTo_done hs hok
        rw [hw] at hdone
        obtain ⟨hset, hops, hworker, halloc⟩ := hdone
        rw [initWorkers, hw] at h ⊢
        obtain ⟨hset', hops', hworker', halloc'⟩ := ih hset h
        refine ⟨?_, ?_, hworker'.trans hworker, halloc'.trans halloc⟩
        · rw [show i + (n + 1) = i + 1 + n by omega]
          exact hset'
        · rw [hops', hops, List.range'_succ, List.flatMap_cons, List.map_append, List.append_assoc]

/- The workers `0..m` are set up when the next one fails; what it releases comes
first. -/
theorem initWorkers_failed {ok : Call → Bool} {n i : ℕ} {s : Setup} (hs : SetUpTo i s)
    (h : (initWorkers ok n i s).2 = false) :
    ∃ m as bs, entries (initWorkers ok n i s).1.ops = entries s.ops ++
          (((List.range' i m).flatMap workerAcquires ++ as).map .acquire ++
            (bs ++ (List.range' 0 (i + m)).flatMap workerReleases ++
              [Resource.workers, .mutex]).map .release) ∧
      as.Sublist (workerAcquires (i + m)) ∧ bs.Sublist (workerReleases (i + m)) ∧ bs.Perm as ∧
      (initWorkers ok n i s).1.allocated = false := by
  induction n generalizing i s with
  | zero => cases h
  | succ n ih =>
    cases hw : workerInit ok s i with
    | mk t b =>
      cases b with
      | false =>
        have hfresh : s.ptrs i = ⟨false, false, false⟩ := by simp [hs i]
        have hno : (workerInit ok s i).2 = false := by rw [hw]
        obtain ⟨as, bs, hundone⟩ := workerInit_failed hfresh hno
        rw [hw] at hundone
        have hset : ∀ v, 0 ≤ v → v < 0 + i → t.ptrs v = ⟨true, true, true⟩ := by
          intro v _ hv
          rw [hundone.kept.1, hs v, if_pos (by omega)]
        have hend : entries [Op.release .workers, Op.release .mutex] =
            [Resource.workers, .mutex].map .release := rfl
        refine ⟨0, as, bs, ?_, hundone.acquired, hundone.released, hundone.perm, ?_⟩
        · rw [initWorkers, hw]
          show entries ((destroyWorkers i 0 t).ops ++ [_] ++ [_]) = _
          rw [List.append_assoc, List.singleton_append, entries_append, hend,
            (destroyWorkers_ops hset).1, hundone.ops]
          simp
        · rw [initWorkers, hw]
          rfl
      | true =>
        have hok : (workerInit ok s i).2 = true := by rw [hw]
        have hdone := setUpTo_done hs hok
        rw [hw] at hdone
        obtain ⟨hset, hops, -⟩ := hdone
        rw [initWorkers, hw] at h ⊢
        obtain ⟨m, as, bs, hops', has, hbs, hperm, halloc⟩ := ih hset h
        rw [Nat.add_right_comm, Nat.add_assoc] at hops' has hbs
        refine ⟨m + 1, as, bs, ?_, has, hbs, hperm, halloc⟩
        show entries (initWorkers ok n (i + 1) t).1.ops = _
        rw [hops', hops, List.range'_succ, List.flatMap_cons]
        simp

/-! ### The resources of all workers -/

theorem owner_acquires {w : ℕ} {r : Resource} (h : r ∈ workerAcquires w) : r.owner = some w := by
  simp only [workerAcquires, List.mem_cons, List.not_mem_nil, or_false] at h
  rcases h with rfl | rfl | rfl | rfl <;> rfl

theorem releases_perm (w : ℕ) : (workerReleases w).Perm (workerAcquires w) :=
  (failReleases_perm w).2.2.2

theorem workers_nodup (n : ℕ) :
    (.workers :: .mutex :: (List.range' 0 n).flatMap workerAcquires).Nodup := by
  have hnone (r : Resource) (hr : r.owner = none) :
      r ∉ (List.range' 0 n).flatMap workerAcquires := by
    intro hm
    obtain ⟨w, -, hw⟩ := List.mem_flatMap.mp hm
    rw [owner_acquires hw] at hr
    cases hr
  have hflat : ((List.range' 0 n).flatMap workerAcquires).Nodup := by
    refine List.nodup_flatMap.mpr ⟨fun w _ => by simp [workerAcquires], ?_⟩
    refine List.Pairwise.imp ?_ (List.nodup_range' (s := 0) (n := n))
    intro v w hne r hv hw
    have howner := (owner_acquires hv).symm.trans (owner_acquires hw)
    exact hne (Option.some.inj howner)
  refine List.nodup_cons.mpr ⟨?_, List.nodup_cons.mpr ⟨hnone _ rfl, hflat⟩⟩
  intro hm
  exact hnone .workers rfl ((List.mem_cons.mp hm).resolve_left (by decide))

/- The resources of one worker, among those of distinct workers. -/
theorem filter_owner {ws : List ℕ} (hws : ws.Nodup) (w : ℕ) :
    (ws.flatMap workerReleases).filter (fun r => r.owner = some w) =
      if w ∈ ws then workerReleases w else [] := by
  induction ws with
  | nil => rfl
  | cons v ws ih =>
    obtain ⟨hv, hws⟩ := List.nodup_cons.mp hws
    rw [List.flatMap_cons, List.filter_append, ih hws]
    by_cases h : v = w
    · subst h
      simp [hv, workerReleases, Resource.owner]
    · have hmem : w ∈ v :: ws ↔ w ∈ ws := by simp [Ne.symm h]
      simp only [hmem]
      simp [workerReleases, Resource.owner, h]

/-- Distinct resources are acquired, and then all of them are released, those of a
worker in the order of its tear-down. -/
def Undone (ops : List Op) : Prop :=
  ∃ as bs : List Resource, entries ops = as.map .acquire ++ bs.map .release ∧ as.Nodup ∧
    bs.Perm as ∧
      ∀ w, (bs.filter fun r => r.owner = some w).Sublist (workerReleases w)

/- The workers before `m` and what the worker `m` acquired. -/
theorem undone_workers {m : ℕ} {as bs : List Resource} (has : as.Sublist (workerAcquires m))
    (hbs : bs.Sublist (workerReleases m)) (hperm : bs.Perm as) {ops : List Op}
    (hops : entries ops =
      (.workers :: .mutex :: ((List.range' 0 m).flatMap workerAcquires ++ as)).map .acquire ++
        (bs ++ (List.range' 0 m).flatMap workerReleases ++ [Resource.workers, .mutex]).map
          .release) : Undone ops := by
  have hrange : List.range' 0 (m + 1) = List.range' 0 m ++ [m] := by
    rw [List.range'_concat]
    simp
  refine ⟨_, _, hops, ?_, ?_, ?_⟩
  · have hall := workers_nodup (m + 1)
    rw [hrange, List.flatMap_append, List.flatMap_singleton] at hall
    exact hall.sublist (((has.append_left _).cons_cons _).cons_cons _)
  · have hflat := List.Perm.flatMap_left (List.range' 0 m) (fun w _ => releases_perm w)
    refine List.perm_append_comm.trans ?_
    exact (((hperm.append hflat).trans List.perm_append_comm).cons _).cons _
  · intro w
    have hsub : (bs ++ (List.range' 0 m).flatMap workerReleases ++
        [Resource.workers, .mutex]).Sublist
        ((m :: List.range' 0 m).flatMap workerReleases ++ [Resource.workers, .mutex]) := by
      rw [List.flatMap_cons]
      exact (hbs.append_right _).append_right _
    have hnodup : (m :: List.range' 0 m).Nodup :=
      List.nodup_cons.mpr ⟨by simp, List.nodup_range'⟩
    refine (hsub.filter _).trans ?_
    rw [List.filter_append, filter_owner hnodup]
    split_ifs <;> simp [Resource.owner]

theorem loadBalancerInit_failed {ok : Call → Bool} {s : Setup} (hs : s.ops = [])
    (h : (loadBalancerInit ok s).2 = false) :
    Undone (loadBalancerInit ok s).1.ops ∧ (loadBalancerInit ok s).1.allocated = false := by
  unfold loadBalancerInit at h ⊢
  split_ifs at h ⊢
  · exact ⟨⟨[], [], by rw [hs]; rfl, .nil, .nil, by simp⟩, rfl⟩
  · refine ⟨⟨[.workers], [.workers], ?_, by simp, .refl _, ?_⟩, rfl⟩
    · simp [Setup.emit, hs, entries, Op.entry]
    · intro w
      simp [Resource.owner]
  · dsimp only [Setup.emit] at h ⊢
    obtain ⟨m, as, bs, hops, has, hbs, hperm, halloc⟩ := initWorkers_failed (fun v => by simp) h
    refine ⟨undone_workers has hbs hperm ?_, halloc⟩
    rw [hops]
    simp [hs, entries, Op.entry]

theorem loadBalancerInit_done {ok : Call → Bool} {s : Setup} (hs : s.ops = [])
    (h : (loadBalancerInit ok s).2 = true) :
    entries (loadBalancerInit ok s).1.ops =
        (.workers :: .mutex :: (List.range' 0 s.worker).flatMap workerAcquires).map .acquire ∧
      SetUpTo s.worker (loadBalancerInit ok s).1 ∧
      (loadBalancerInit ok s).1.worker = s.worker ∧
      (loadBalancerInit ok s).1.allocated = true := by
  unfold loadBalancerInit at h ⊢
  split_ifs at h ⊢
  dsimp only [Setup.emit] at h ⊢
  obtain ⟨hset, hops, hworker, halloc⟩ := initWorkers_done (i := 0) (fun v => by simp) h
  rw [Nat.zero_add] at hset
  refine ⟨?_, hset, hworker, halloc⟩
  rw [hops]
  simp [hs, entries, Op.entry]

theorem loadBalancerDestroy_idle {s : Setup} (h : s.allocated = false) :
    loadBalancerDestroy s = s := by
  rw [loadBalancerDestroy, h]
  rfl

theorem loadBalancerDestroy_done {s : Setup} (hset : SetUpTo s.worker s)
    (h : s.allocated = true) :
    entries (loadBalancerDestroy s).ops = entries s.ops ++
        ((List.range' 0 s.worker).flatMap workerReleases ++ [Resource.workers]).map .release ∧
      (loadBalancerDestroy s).allocated = false := by
  have hall : ∀ v, 0 ≤ v → v < 0 + s.worker → s.ptrs v = ⟨true, true, true⟩ := by
    intro v _ hv
    rw [hset v, if_pos (by omega)]
  rw [loadBalancerDestroy, if_pos h]
  refine ⟨?_, rfl⟩
  show entries ((destroyWorkers s.worker 0 s).ops ++ [_]) = _
  rw [entries_append, (destroyWorkers_ops hall).1]
  simp [entries, Op.entry]

/-- A `load_balancer_init` that fails has released once all that it acquired and nothing
else, the event of a worker before its evhttp before its base, and a
`load_balancer_destroy` behind it does nothing. -/
theorem loadBalancerInit_releases {ok : Call → Bool} {n : ℕ} {allocated : Bool}
    {ptrs : ℕ → WorkerPtrs} (h : (loadBalancerInit ok ⟨n, allocated, ptrs, []⟩).2 = false) :
    let t := (loadBalancerInit ok ⟨n, allocated, ptrs, []⟩).1
    (∀ r, Settled (entries t.ops) r) ∧
      (∀ w, ((releases (entries t.ops)).filter fun r => r.owner = some w).Sublist
        [.workerMutex w, .ev w, .http w, .base w]) ∧
      t.allocated = false ∧ loadBalancerDestroy t = t := by
  intro t
  obtain ⟨⟨as, bs, hops, has, hperm, horder⟩, halloc⟩ := loadBalancerInit_failed rfl h
  refine ⟨?_, ?_, halloc, loadBalancerDestroy_idle halloc⟩
  · rw [hops]
    exact settled_of_perm has hperm
  · rw [hops, releases_phases]
    exact horder

/- Three workers; the evhttp of the second one cannot be made. -/
theorem loadBalancerInit_releases_three :
    let t := (loadBalancerInit (fun c => c != .evhttpNew 1)
      ⟨3, false, fun _ => ⟨false, false, false⟩, []⟩).1
    (∀ r, Settled (entries t.ops) r) ∧
      (∀ w, ((releases (entries t.ops)).filter fun r => r.owner = some w).Sublist
        [.workerMutex w, .ev w, .http w, .base w]) ∧
      t.allocated = false ∧ loadBalancerDestroy t = t :=
  loadBalancerInit_releases (by decide)

/-- A successful `load_balancer_init` and any number of calls of `load_balancer_destroy`
leave the balancer's mutex acquired; all else is released once. -/
theorem loadBalancerDestroy_leaves_mutex {ok : Call → Bool} {n : ℕ} {allocated : Bool}
    {ptrs : ℕ → WorkerPtrs} (h : (loadBalancerInit ok ⟨n, allocated, ptrs, []⟩).2 = true)
    (k : ℕ) :
    let t := loadBalancerDestroy^[k + 1] (loadBalancerInit ok ⟨n, allocated, ptrs, []⟩).1
    history .mutex (entries t.ops) = [.acquire .mutex] ∧
      (∀ r, r ≠ .mutex → Settled (entries t.ops) r) ∧ ¬ ∀ r, Settled (entries t.ops) r := by
  obtain ⟨hops, hset, hworker, halloc⟩ := loadBalancerInit_done rfl h
  generalize (loadBalancerInit ok ⟨n, allocated, ptrs, []⟩).1 = s at *
  rw [show Setup.worker ⟨n, allocated, ptrs, []⟩ = n from rfl] at hops hset hworker
  intro t
  rw [← hworker] at hset hops
  obtain ⟨hdestroy, hfreed⟩ := loadBalancerDestroy_done hset halloc
  have ht : t = loadBalancerDestroy s := by
    show loadBalancerDestroy^[k + 1] s = _
    rw [Function.iterate_succ_apply]
    exact Function.iterate_fixed (loadBalancerDestroy_idle hfreed) k
  have hflat := List.Perm.flatMap_left (List.range' 0 s.worker) (fun w _ => releases_perm w)
  have hperm : (.mutex :: ((List.range' 0 s.worker).flatMap workerReleases ++
      [Resource.workers])).Perm
      (.workers :: .mutex :: (List.range' 0 s.worker).flatMap workerAcquires) :=
    ((List.perm_append_comm.trans (hflat.cons _)).cons _).trans (.swap ..)
  obtain ⟨hmutex, hrest⟩ := history_kept (workers_nodup s.worker) hperm
  rw [ht, hdestroy, hops]
  refine ⟨hmutex, hrest, ?_⟩
  intro hc
  rcases hc .mutex with hm | hm <;> rw [hmutex] at hm <;> cases hm

theorem loadBalancerDestroy_leaves_mutex_one :
    let t := loadBalancerDestroy^[0 + 1] (loadBalancerInit (fun _ => true)
      ⟨1, false, fun _ => ⟨false, false, false⟩, []⟩).1
    history .mutex (entries t.ops) = [.acquire .mutex] ∧
      (∀ r, r ≠ .mutex → Settled (entries t.ops) r) ∧ ¬ ∀ r, Settled (entries t.ops) r :=
  loadBalancerDestroy_leaves_mutex (by decide) 0

/-- One worker, set up and torn down: the mutex of the balancer is not destroyed. -/
theorem loadBalancerDestroy_one :
    ¬ ∀ r, Settled (entries (loadBalancerDestroy (loadBalancerInit (fun _ => true)
      ⟨1, false, fun _ => ⟨false, false, false⟩, []⟩).1).ops) r := by
  intro h
  rcases h .mutex with hm | hm <;> revert hm <;> decide

end LibeventHttpServe.Balancer
