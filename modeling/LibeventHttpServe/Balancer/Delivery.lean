import Mathlib.Data.List.Nodup
import Mathlib.Data.List.Infix
import LibeventHttpServe.Balancer.Queue

/-!
# Exactly-once, in-order hand-over of connections

Along every interleaving of the dispatcher with the workers, what a worker has
served, holds and has queued is what was pushed to it, in push order
(`handOver_reachable`).
-/

namespace LibeventHttpServe.Balancer
open Lib

/-! ### Selection of the worker -/

theorem select_lt {s : State} (hw : s.worker ≠ 0)
    (hi : s.balance = LOAD_BALANCE_ROUND → s.i < s.worker) (rand : ℕ) :
    (select s rand).1 < s.worker.toNat := by
  unfold select
  split
  · rename_i hb
    exact UInt8.lt_iff_toNat_lt.mp (hi hb)
  · refine Nat.mod_lt _ (Nat.pos_of_ne_zero ?_)
    intro h0
    exact hw (UInt8.toNat_inj.mp h0)

/- The counter is compared after its increment; below a worker count of at
most 255 the increment cannot wrap past it. -/
theorem select_next_lt {s : State} (hw : s.worker ≠ 0) (rand : ℕ)
    (hi : s.i < s.worker) : (select s rand).2 < s.worker := by
  have hlt := UInt8.lt_iff_toNat_lt.mp hi
  have hmax := s.worker.toNat_lt
  unfold select
  split
  · dsimp only
    split
    · refine UInt8.lt_iff_toNat_lt.mpr (Nat.pos_of_ne_zero ?_)
      intro h0
      exact hw (UInt8.toNat_inj.mp h0)
    · rename_i hne
      have hadd : (s.i + 1).toNat = s.i.toNat + 1 := by
        rw [UInt8.toNat_add]
        exact Nat.mod_eq_of_lt (by simp only [UInt8.toNat_one]; omega)
      have hne' : (s.i + 1).toNat ≠ s.worker.toNat := fun he => hne (UInt8.toNat_inj.mp he)
      rw [UInt8.lt_iff_toNat_lt]
      omega
  · exact hi

/-! ### Bounds -/

/-- The balancer's configuration is fixed and every index it uses is below its
worker count. -/
structure Bounds (balance worker : UInt8) (s : State) : Prop where
  balance_eq : s.balance = balance
  worker_eq : s.worker = worker
  index : s.i < worker
  filled : ∀ w p, s.dispatcher = .filled w p → w < worker.toNat
  pushed : ∀ w, s.dispatcher = .pushed w → w < worker.toNat
  log : ∀ e ∈ s.log, e.1 < worker.toNat

theorem Bounds.congr {balance worker : UInt8} {s s' : State} (hb : Bounds balance worker s)
    (hs : DispatcherSame s s') : Bounds balance worker s' :=
  ⟨hs.balance.trans hb.balance_eq, hs.worker.trans hb.worker_eq, hs.i ▸ hb.index,
    fun w p hp => hb.filled w p (hs.dispatcher ▸ hp),
    fun w hp => hb.pushed w (hs.dispatcher ▸ hp), fun e he => hb.log e (hs.log ▸ he)⟩

theorem Bounds.effect {balance worker : UInt8} (hw : worker ≠ 0) {s s' : State}
    {L : ℕ → List (Ptr × HttpConnection)} {owner : Ptr → Owner} (hr : Rep s L owner)
    {a : Action} (hb : Bounds balance worker s) (he : Effect s a s') :
    Bounds balance worker s' := by
  have hws : s.worker ≠ 0 := by
    rw [hb.worker_eq]
    exact hw
  have hindex : s.i < s.worker := by
    rw [hb.worker_eq]
    exact hb.index
  cases he with
  | mallocFail fd addr addrLen rand hd =>
    have hnext := select_next_lt hws rand hindex
    rw [hb.worker_eq] at hnext
    exact ⟨hb.balance_eq, hb.worker_eq, hnext, hb.filled, hb.pushed, hb.log⟩
  | fill fd addr addrLen rand p hd hp =>
    have hnext := select_next_lt hws rand hindex
    have hsel := select_lt hws (fun _ => hindex) rand
    rw [hb.worker_eq] at hnext hsel
    refine ⟨hb.balance_eq, hb.worker_eq, hnext, ?_, ?_, hb.log⟩
    · intro w q hq
      cases hq
      exact hsel
    · intro w hq
      cases hq
  | push w p hd =>
    have hwlt := hb.filled w p hd
    have hafter : ∀ n h c, Bounds balance worker (afterPush s w n h c) := by
      intro n h c
      refine ⟨hb.balance_eq, hb.worker_eq, hb.index, ?_, ?_, ?_⟩
      · intro v q hq
        cases hq
      · intro v hq
        cases hq
        exact hwlt
      · intro e hm
        rcases List.mem_append.mp hm with hm | hm
        · exact hb.log e hm
        · rw [List.mem_singleton.mp hm]
          exact hwlt
    obtain ⟨n, h, r, -, he⟩ := push_afterPush hr hd
    rw [he]
    exact hafter n h r.conn
  | activate w hd =>
    exact ⟨hb.balance_eq, hb.worker_eq, hb.index, fun v p hp => (by cases hp),
      fun v hp => (by cases hp), hb.log⟩
  | destroy hd =>
    exact ⟨hb.balance_eq, hb.worker_eq, hb.index, fun v p hp => (by cases hp),
      fun v hp => (by cases hp), hb.log⟩
  | worker w a s' hwe => exact hb.congr (hwe.dispatcherSame hr)

/-! ### The ledger of accepted connections -/

/-- Serial numbers count the `serve` calls, and the pushed connections with the
one being filled in are the accepted ones, a crash in `malloc` apart. -/
structure Ledger (s : State) : Prop where
  serial : s.accepted.map Conn.serial = List.range s.accepted.length
  covers : s.log.map Prod.snd ++ pending s <+: s.accepted
  exact : s.crashed = false → s.log.map Prod.snd ++ pending s = s.accepted

theorem Ledger.congr {s s' : State} (hl : Ledger s) (hs : DispatcherSame s s') : Ledger s' := by
  refine ⟨?_, ?_, ?_⟩
  · rw [hs.accepted]
    exact hl.serial
  · rw [hs.accepted, hs.log, hs.pending]
    exact hl.covers
  · rw [hs.accepted, hs.log, hs.pending, hs.crashed]
    exact hl.exact

theorem pending_idle {s : State} (hd : s.dispatcher = .idle) : pending s = [] := by
  simp only [pending, hd]

theorem serial_append {l : List Conn} {c : Conn} (hl : l.map Conn.serial = List.range l.length)
    (hc : c.serial = l.length) : (l ++ [c]).map Conn.serial = List.range (l ++ [c]).length := by
  simp [hl, hc, List.range_succ]

theorem Ledger.effect {s s' : State} {L : ℕ → List (Ptr × HttpConnection)} {owner : Ptr → Owner}
    {a : Action} (hr : Rep s L owner) (hl : Ledger s) (hcr : s.crashed = false)
    (he : Effect s a s') :
    Ledger s' := by
  have hex := hl.exact hcr
  cases he with
  | mallocFail fd addr addrLen rand hd =>
    refine ⟨serial_append hl.serial rfl, ?_, ?_⟩
    · exact hl.covers.trans (List.prefix_append _ _)
    · intro h
      cases h
  | fill fd addr addrLen rand p hd hp =>
    have hnew : s.log.map Prod.snd ++ [newConn s fd addr addrLen] =
        s.accepted ++ [newConn s fd addr addrLen] := by
      rw [pending_idle hd, List.append_nil] at hex
      rw [hex]
    have hpend : ((s.heap.insert p (newConn s fd addr addrLen).record).lookup p).map
        HttpConnection.conn = some (newConn s fd addr addrLen) := by
      rw [AList.lookup_insert]
      rfl
    refine ⟨serial_append hl.serial rfl, ?_, ?_⟩
    · simp only [pending, hpend, Option.toList_some, hnew]
      exact List.prefix_refl _
    · intro _
      simp only [pending, hpend, Option.toList_some, hnew]
  | push w p hd =>
    obtain ⟨n, h, r, hlk, he⟩ := push_afterPush hr hd
    have hpend : pending s = [r.conn] := by
      simp only [pending, hd, hlk, Option.map_some, Option.toList_some]
    rw [hpend] at hex
    rw [he]
    refine ⟨hl.serial, ?_, ?_⟩
    · simp [afterPush, State.setWorker, pending, hex]
    · intro _
      simp [afterPush, State.setWorker, pending, hex]
  | activate w hd =>
    have hpend : pending s = [] := by simp only [pending, hd]
    rw [hpend] at hex
    have hcov := hl.covers
    rw [hpend] at hcov
    exact ⟨hl.serial, hcov, fun _ => hex⟩
  | destroy hd =>
    have hcov := hl.covers
    rw [pending_idle hd] at hex hcov
    exact ⟨hl.serial, hcov, fun _ => hex⟩
  | worker w a s' hwe => exact hl.congr (hwe.dispatcherSame hr)

/-! ### Every reachable state -/

structure Inv (balance worker : UInt8) (s : State) : Prop where
  rep : ∃ L owner, Rep s L owner
  bounds : Bounds balance worker s
  ledger : Ledger s

theorem inv_initial (balance worker : UInt8) (hw : worker ≠ 0) :
    Inv balance worker (initial balance worker) := by
  have hpos : (0 : UInt8) < worker := by
    refine UInt8.lt_iff_toNat_lt.mpr (Nat.pos_of_ne_zero ?_)
    intro h0
    exact hw (UInt8.toNat_inj.mp h0)
  refine ⟨⟨_, _, rep_initial balance worker⟩, ⟨rfl, rfl, hpos, ?_, ?_, ?_⟩, ⟨rfl, ?_, ?_⟩⟩
  · intro w p hp
    cases hp
  · intro w hp
    cases hp
  · intro e he
    cases he
  · exact List.prefix_refl _
  · intro _
    rfl

theorem inv_reachable {balance worker : UInt8} (hw : worker ≠ 0) {s : State}
    (hs : (system balance worker).Reachable s) : Inv balance worker s := by
  refine hs.invariant (I := Inv balance worker) ?_ ?_
  · intro s h
    rw [h]
    exact inv_initial balance worker hw
  · intro s a s' _ hi h
    obtain ⟨hcr, -, he⟩ := step_effect h
    obtain ⟨L, owner, hr⟩ := hi.rep
    exact ⟨hr.effect he, hi.bounds.effect hw hr he, hi.ledger.effect hr hcr he⟩

theorem queue_eq {s : State} {L : ℕ → List (Ptr × HttpConnection)} {owner : Ptr → Owner}
    (hr : Rep s L owner) (w : ℕ) : queue s w = some ((L w).map fun c => c.2.conn) := by
  have hch := hr.chain w
  simp only [queue, Chain.cells_of_segment _ hch (Chain.segment_length_le hch), Option.map_some]

theorem mem_pushed {s : State} {w : ℕ} {c : Conn} : c ∈ pushed s w ↔ (w, c) ∈ s.log := by
  simp [pushed]

/-- The hand-over contract of the balancer for the workers `0 .. n - 1`. -/
structure HandOver (n : ℕ) (s : State) : Prop where
  /- served, in hand and queued, in this order, is what was pushed -/
  inOrder : ∀ w < n, ∃ q, queue s w = some q ∧
    (s.workers w).served ++ inHand s w ++ q = pushed s w
  /- what was pushed is what was accepted, in accept order, except for the
  connection of the call that is under way -/
  accepted : s.crashed = false → s.log.map Prod.snd ++ pending s = s.accepted
  covers : s.log.map Prod.snd <+: s.accepted
  /- every push goes to a worker, and no connection is pushed twice -/
  worker : ∀ e ∈ s.log, e.1 < n
  once : (s.log.map Prod.snd).Nodup
  /- no connection is served or held twice, or by two workers -/
  servedOnce : ∀ w < n, ((s.workers w).served ++ inHand s w).Nodup
  oneWorker : ∀ w < n, ∀ v < n, ∀ c, c ∈ (s.workers w).served ++ inHand s w →
    c ∈ (s.workers v).served ++ inHand s v → w = v

theorem accepted_nodup {s : State} (hl : Ledger s) : s.accepted.Nodup :=
  List.Nodup.of_map Conn.serial (by rw [hl.serial]; exact List.nodup_range)

theorem Inv.handOver {balance worker : UInt8} {s : State} (hi : Inv balance worker s) :
    HandOver worker.toNat s := by
  obtain ⟨L, owner, hr⟩ := hi.rep
  have hcov : s.log.map Prod.snd <+: s.accepted :=
    (List.prefix_append _ _).trans hi.ledger.covers
  have honce : (s.log.map Prod.snd).Nodup := (accepted_nodup hi.ledger).sublist hcov.sublist
  have hmem : ∀ w c, c ∈ (s.workers w).served ++ inHand s w → (w, c) ∈ s.log := by
    intro w c hc
    refine mem_pushed.mp ?_
    rw [← hr.history w]
    exact List.mem_append_left _ hc
  refine ⟨?_, hi.ledger.exact, hcov, hi.bounds.log, honce, ?_, ?_⟩
  · intro w _
    exact ⟨_, queue_eq hr w, hr.history w⟩
  · intro w _
    have hsub : (pushed s w).Nodup := honce.sublist (List.filter_sublist.map Prod.snd)
    rw [← hr.history w] at hsub
    exact (List.nodup_append.mp hsub).1
  · intro w _ v _ c hw hv
    have he := List.inj_on_of_nodup_map honce (hmem w c hw) (hmem v c hv) rfl
    exact congrArg Prod.fst he

/-- Exactly-once, in-order hand-over: it holds in every state any interleaving of
the dispatcher with the workers can reach, for either balance algorithm. -/
theorem handOver_reachable (balance worker : UInt8) (hw : worker ≠ 0) {s : State}
    (hs : (system balance worker).Reachable s) : HandOver worker.toNat s :=
  (inv_reachable hw hs).handOver

/- Two connections go to the first of two workers and one to the second; the
first worker has served its first one and popped the next. -/
def handOverRun : List Action :=
  [.serve 7 [2, 0] 2 0 (some 10), .push, .activate,
    .serve 8 [2, 1] 2 0 (some 11), .push, .wake 0, .advance 0, .activate,
    .serve 9 [2, 2] 2 0 (some 12), .push, .advance 0, .advance 0, .advance 0]

theorem handOver_reachable_run :
    ∃ s, (system 1 2).exec handOverRun (initial 1 2) = some s ∧ HandOver 2 s ∧
      ((s.workers 0).served, inHand s 0, queue s 1) =
        ([⟨0, 7, 2, [2, 0]⟩], [⟨2, 9, 2, [2, 2]⟩], some [⟨1, 8, 2, [2, 1]⟩]) := by
  have hobs : ((system 1 2).exec handOverRun (initial 1 2)).map
      (fun s => ((s.workers 0).served, inHand s 0, queue s 1)) =
        some ([⟨0, 7, 2, [2, 0]⟩], [⟨2, 9, 2, [2, 2]⟩], some [⟨1, 8, 2, [2, 1]⟩]) := by
    decide
  obtain ⟨s, hs, he⟩ := Option.map_eq_some_iff.mp hobs
  exact ⟨s, hs, handOver_reachable 1 2 (by decide) (System.reachable_exec (.init rfl) hs), he⟩

end LibeventHttpServe.Balancer
