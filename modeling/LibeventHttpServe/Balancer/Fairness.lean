import LibeventHttpServe.Balancer.Delivery
import Mathlib.Data.Int.CardIntervalMod

/-!
# Round-robin selection (load_balancer.c:174-191)

Along every run the counter is the number of calls modulo the number of workers,
so that the calls take the workers in turn.
-/

namespace LibeventHttpServe.Balancer
open Lib

/-! ### Taking turns -/

/-- The first `m` turns of `n` workers. -/
def turns (n m : ℕ) : List ℕ := (List.range m).map (· % n)

theorem turns_succ (n m : ℕ) : turns n (m + 1) = turns n m ++ [m % n] := by
  simp only [turns, List.range_succ, List.map_append, List.map_cons, List.map_nil]

theorem turns_count {n w : ℕ} (hw : w < n) (m : ℕ) :
    (turns n m).count w = m / n + if w < m % n then 1 else 0 := by
  have hcount : (turns n m).count w = m.count (· ≡ w [MOD n]) := by
    induction m with
    | zero => rfl
    | succ m ih =>
      have hmod : m % n = w ↔ m ≡ w [MOD n] := by
        rw [Nat.ModEq, Nat.mod_eq_of_lt hw]
      rw [turns_succ, List.count_append, Nat.count_succ, ih, List.count_singleton]
      simp only [beq_iff_eq, hmod]
  rw [hcount, Nat.count_modEq_card _ (by omega), Nat.mod_eq_of_lt hw]

theorem turns_fair {n v w : ℕ} (hv : v < n) (hw : w < n) (m : ℕ) :
    (turns n m).count v ≤ (turns n m).count w + 1 := by
  rw [turns_count hv, turns_count hw]
  split_ifs <;> omega

/-! ### The counter -/

/-- The counter, the pushes made and the push in progress are the turns of the
calls. -/
structure InTurn (n : ℕ) (s : State) : Prop where
  index : s.i.toNat = s.accepted.length % n
  log : s.log.map Prod.fst = turns n s.log.length
  filled : ∀ w p, s.dispatcher = .filled w p → w = s.log.length % n

theorem select_round {s : State} (hb : s.balance = LOAD_BALANCE_ROUND) (rand : ℕ) :
    select s rand = (s.i.toNat, if s.i + 1 = s.worker then 0 else s.i + 1) := if_pos hb

theorem select_other {s : State} (hb : s.balance ≠ LOAD_BALANCE_ROUND) (rand : ℕ) :
    select s rand = (rand % s.worker.toNat, s.i) := if_neg hb

/- The counter of one byte is incremented before it is compared; below the number
of workers it does not wrap. -/
theorem select_next {s : State} (hb : s.balance = LOAD_BALANCE_ROUND) (hi : s.i < s.worker)
    {k : ℕ} (hk : s.i.toNat = k % s.worker.toNat) (rand : ℕ) :
    (select s rand).2.toNat = (k + 1) % s.worker.toNat := by
  have hlt := UInt8.lt_iff_toNat_lt.mp hi
  have hmax := s.worker.toNat_lt
  have hadd : (s.i + 1).toNat = s.i.toNat + 1 := by
    rw [UInt8.toNat_add, UInt8.toNat_one]
    exact Nat.mod_eq_of_lt (by omega)
  have hsucc : (k + 1) % s.worker.toNat = (s.i.toNat + 1) % s.worker.toNat := by
    rw [hk, Nat.mod_add_mod]
  rw [select_round hb, hsucc]
  by_cases hlast : s.i + 1 = s.worker
  · have heq : s.i.toNat + 1 = s.worker.toNat := by rw [← hadd, hlast]
    rw [if_pos hlast, heq, Nat.mod_self]
    rfl
  · have hne : s.i.toNat + 1 ≠ s.worker.toNat := by
      intro he
      rw [← hadd] at he
      exact hlast (UInt8.toNat_inj.mp he)
    rw [if_neg hlast, Nat.mod_eq_of_lt (by omega), hadd]

theorem log_length {s : State} (hl : Ledger s) (hcr : s.crashed = false) :
    s.log.length + (pending s).length = s.accepted.length := by
  rw [← hl.exact hcr, List.length_append, List.length_map]

theorem InTurn.effect {n : UInt8} {s s' : State} {a : Action} (ht : InTurn n.toNat s)
    (hi : Inv LOAD_BALANCE_ROUND n s) (hcr : s.crashed = false) (he : Effect s a s') :
    InTurn n.toNat s' := by
  obtain ⟨L, owner, hr⟩ := hi.rep
  have hb := hi.bounds
  have hnext (rand : ℕ) (c : Conn) :
      (select s rand).2.toNat = (s.accepted ++ [c]).length % n.toNat := by
    have hw := hb.worker_eq
    have hindex : s.i < s.worker := by
      rw [hw]
      exact hb.index
    have hk := ht.index
    rw [← hw] at hk ⊢
    rw [List.length_append, select_next hb.balance_eq hindex hk]
    rfl
  cases he with
  | mallocFail fd addr addrLen rand hd => exact ⟨hnext rand _, ht.log, ht.filled⟩
  | fill fd addr addrLen rand p hd hp =>
    refine ⟨hnext rand _, ht.log, ?_⟩
    intro w q hq
    cases hq
    have hlen := log_length hi.ledger hcr
    rw [pending_idle hd, List.length_nil, Nat.add_zero] at hlen
    rw [select_round hb.balance_eq]
    show s.i.toNat = s.log.length % n.toNat
    rw [hlen]
    exact ht.index
  | push w p hd =>
    have hafter (next : Option Ptr) (heap : Records) (c : Conn) :
        InTurn n.toNat (afterPush s w next heap c) := by
      refine ⟨ht.index, ?_, nofun⟩
      show (s.log ++ [(w, c)]).map Prod.fst = turns n.toNat (s.log ++ [(w, c)]).length
      rw [List.map_append, List.length_append, ht.log, ht.filled w p hd]
      exact (turns_succ _ _).symm
    obtain ⟨next, heap, r, -, he⟩ := push_afterPush hr hd
    rw [he]
    exact hafter next heap r.conn
  | activate w hd => exact ⟨ht.index, ht.log, nofun⟩
  | destroy hd => exact ⟨ht.index, ht.log, nofun⟩
  | worker w a s' hwe =>
    have hs := hwe.dispatcherSame hr
    refine ⟨?_, ?_, ?_⟩
    · rw [hs.i, hs.accepted]
      exact ht.index
    · rw [hs.log]
      exact ht.log
    · rw [hs.log, hs.dispatcher]
      exact ht.filled

theorem inTurn_reachable {n : UInt8} (hn : n ≠ 0) {s : State}
    (hs : (system LOAD_BALANCE_ROUND n).Reachable s) : InTurn n.toNat s := by
  refine hs.invariant (I := InTurn n.toNat) ?_ ?_
  · intro s h
    rw [h]
    exact ⟨(Nat.zero_mod _).symm, rfl, nofun⟩
  · intro s a s' hs ht h
    obtain ⟨hcr, -, he⟩ := step_effect h
    exact ht.effect (inv_reachable hn hs) hcr he

/-! ### Fairness -/

theorem pushed_length (s : State) (w : ℕ) :
    (pushed s w).length = (s.log.map Prod.fst).count w := by
  unfold pushed
  rw [List.length_map, List.count, List.countP_map, List.countP_eq_length_filter]
  rfl

/-- What the selection does in a state of a run: with the round-robin algorithm the
calls take the workers in turn, and with any other one the counter stays. -/
structure Selection (n : UInt8) (s : State) : Prop where
  index : s.balance = LOAD_BALANCE_ROUND → s.i < n
  turn : s.balance = LOAD_BALANCE_ROUND →
    ∀ rand, (select s rand).1 = s.accepted.length % n.toNat
  given : s.balance = LOAD_BALANCE_ROUND → ∀ k w c, s.log[k]? = some (w, c) →
    w = k % n.toNat ∧ c.serial = k
  fair : s.balance = LOAD_BALANCE_ROUND → ∀ v w, v < n.toNat → w < n.toNat →
    (pushed s v).length ≤ (pushed s w).length + 1
  other : s.balance ≠ LOAD_BALANCE_ROUND →
    ∀ rand, (select s rand).1 < n.toNat ∧ (select s rand).2 = s.i

theorem log_serial {s : State} (hl : Ledger s) {k w : ℕ} {c : Conn}
    (h : s.log[k]? = some (w, c)) : c.serial = k := by
  have hsnd : (s.log.map Prod.snd)[k]? = some c := by rw [List.getElem?_map, h]; rfl
  have hpre := (List.prefix_append (s.log.map Prod.snd) (pending s)).trans hl.covers
  obtain ⟨rest, hrest⟩ := hpre
  have hacc : s.accepted[k]? = some c := by
    rw [← hrest, List.getElem?_append_left (List.getElem?_eq_some_iff.mp hsnd).1, hsnd]
  have hlt : k < s.accepted.length := (List.getElem?_eq_some_iff.mp hacc).1
  have hser : (s.accepted.map Conn.serial)[k]? = some c.serial := by
    rw [List.getElem?_map, hacc]
    rfl
  rw [hl.serial, List.getElem?_range hlt] at hser
  exact (Option.some.inj hser).symm

/-- The selection along every run, for every number of workers. -/
theorem selection_reachable (balance n : UInt8) (hn : n ≠ 0) {s : State}
    (hs : (system balance n).Reachable s) : Selection n s := by
  have hi := inv_reachable hn hs
  have hworker := hi.bounds.worker_eq
  have hround (hb : s.balance = LOAD_BALANCE_ROUND) : InTurn n.toNat s := by
    rw [hi.bounds.balance_eq] at hb
    rw [hb] at hs
    exact inTurn_reachable hn hs
  refine ⟨fun _ => hi.bounds.index, ?_, ?_, ?_, ?_⟩
  · intro hb rand
    rw [select_round hb]
    exact (hround hb).index
  · intro hb k w c hk
    refine ⟨?_, log_serial hi.ledger hk⟩
    have hlt : k < s.log.length := (List.getElem?_eq_some_iff.mp hk).1
    have hfst : (s.log.map Prod.fst)[k]? = some w := by rw [List.getElem?_map, hk]; rfl
    rw [(hround hb).log, turns, List.getElem?_map, List.getElem?_range hlt] at hfst
    exact (Option.some.inj hfst).symm
  · intro hb v w hv hw
    rw [pushed_length, pushed_length, (hround hb).log]
    exact turns_fair hv hw _
  · intro hb rand
    rw [select_other hb, hworker]
    have hpos : 0 < n.toNat := by
      refine Nat.pos_of_ne_zero ?_
      intro h0
      exact hn (UInt8.toNat_inj.mp h0)
    exact ⟨Nat.mod_lt _ hpos, rfl⟩

theorem selection_reachable_run :
    ∃ s, (system 1 2).exec handOverRun (initial 1 2) = some s ∧ Selection 2 s ∧
      s.log.map Prod.fst = [0, 1, 0] := by
  have hobs : ((system 1 2).exec handOverRun (initial 1 2)).map
      (fun s => s.log.map Prod.fst) = some [0, 1, 0] := by
    decide
  obtain ⟨s, hs, he⟩ := Option.map_eq_some_iff.mp hobs
  exact ⟨s, hs, selection_reachable 1 2 (by decide) (System.reachable_exec (.init rfl) hs), he⟩

end LibeventHttpServe.Balancer
