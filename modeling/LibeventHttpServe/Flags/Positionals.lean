import LibeventHttpServe.Flags.Collect
import LibeventHttpServe.Flags.Termination

/-!
# The buffer the positional arguments are kept in

The buffer of `ppp_c_flags_push_args` holds the list of the positional arguments as
long as it does not grow a second time.
-/

namespace LibeventHttpServe.Flags

open LibeventHttpServe.Lib

section

variable {σ : Type} {x : Input} {e : Env σ}

/-! ### The buffer -/

section Push

variable {malloc : ℕ → ℕ → Bool} {max : ℕ} {t : Bytes} {b : HandlerArgs}

theorem copyCells_length (old : List (Option Bytes)) (n cap : ℕ) :
    (copyCells old n cap).length = cap := by
  unfold copyCells
  rw [List.length_take, List.length_append, List.length_replicate]
  omega

/-- The fifth cell is lost: it is not copied when 32 arguments are moved, and
after that there is nothing in it to copy. -/
theorem copyCells_hole {old : List (Option Bytes)} {n : ℕ} (cap : ℕ)
    (h : n < 40 ∨ ∀ t, old[4]? ≠ some (some t)) (t : Bytes) :
    (copyCells old n cap)[4]? ≠ some (some t) := by
  unfold copyCells
  rw [List.getElem?_take]
  split
  · rw [List.getElem?_append]
    split
    · rename_i hlen
      rw [List.length_take] at hlen
      rw [List.getElem?_take]
      split
      · rcases h with h | h
        · omega
        · exact h t
      · nofun
    · rw [List.getElem?_replicate]
      split <;> nofun
  · nofun

/-! What `growArgv` does: for the first argument, while there is room, and when
the block is full. -/

theorem growArgv_start (malloc : ℕ → ℕ → Bool) (max : ℕ) :
    growArgv malloc max .start =
      if malloc 0 (8 * min 32 max) then
        (true, ⟨0, some ⟨0, List.replicate (min 32 max) none⟩, min 32 max, 1, false, [.malloc 0]⟩)
      else (false, ⟨0, none, 0, 1, false, []⟩) := by
  have hcap : (if max < 32 then max else 32) = min 32 max := by
    split <;> omega
  rw [← hcap]
  rfl

theorem growArgv_room (malloc : ℕ → ℕ → Bool) (max : ℕ) (h : b.argc < b.cap) :
    growArgv malloc max b = (true, b) := by
  have hroom : ¬ b.cap < b.argc + 1 := by omega
  unfold growArgv
  rw [if_neg hroom]

theorem growArgv_full (malloc : ℕ → ℕ → Bool) (max : ℕ) {old : Block} (hcap : b.cap < b.argc + 1)
    (hargc : 32 ≤ b.argc) (hk : b.argv = some old) :
    growArgv malloc max b =
      if malloc b.requests (8 * min (b.argc * 2) max) then
        (true, { b with
          argv := some ⟨b.requests, copyCells old.cells b.argc (min (b.argc * 2) max)⟩
          requests := b.requests + 1
          oob := b.oob || decide (8 * min (b.argc * 2) max < b.argc ∨
            8 * old.cells.length < b.argc)
          heap := b.heap ++ [.malloc b.requests, .libcFree old.id] })
      else (false, { b with requests := b.requests + 1, heap := b.heap ++ [.free old.id] }) := by
  have hne : ¬ b.argc = 0 := by omega
  have hlow : ¬ b.argc * 2 < 32 := by omega
  have hmin : (if max < b.argc * 2 then max else b.argc * 2) = min (b.argc * 2) max := by
    split <;> omega
  rw [← hmin]
  simp only [growArgv, if_pos hcap, if_neg hne, if_neg hlow, hk]

theorem pushArg_fst (hm : ∀ n size, malloc n size = true) : (pushArg malloc max t b).1 = true := by
  have hgrow : (growArgv malloc max b).1 = true := by
    unfold growArgv
    dsimp only
    rw [hm]
    split
    · cases b.argv <;> rfl
    · rfl
  unfold pushArg
  split
  · rfl
  · rename_i h
    rw [h] at hgrow
    exact hgrow

theorem pushArg_argc (hm : ∀ n size, malloc n size = true) :
    (pushArg malloc max t b).2.argc = b.argc + 1 := by
  have hgrow : (growArgv malloc max b).2.argc = b.argc := by
    unfold growArgv
    dsimp only
    rw [hm]
    split
    · cases b.argv <;> rfl
    · rfl
  have hstore (b : HandlerArgs) : (storeArg t b).argc = b.argc + 1 := by
    unfold storeArg
    cases b.argv <;> rfl
  have hok : (pushArg malloc max t b).1 = true := pushArg_fst hm
  unfold pushArg at hok ⊢
  generalize growArgv malloc max b = r at hgrow hok ⊢
  obtain ⟨ok, b'⟩ := r
  cases ok with
  | true => exact (hstore b').trans (congrArg (· + 1) hgrow)
  | false => cases hok

theorem pushArg_first (hm : ∀ n size, malloc n size = true) (hmax : 0 < max) :
    ∃ k, (pushArg malloc max t .start).2.argv = some k ∧
      (pushArg malloc max t .start).2.argc = 1 ∧
      (pushArg malloc max t .start).2.cap = min 32 max ∧
      (pushArg malloc max t .start).2.oob = false ∧
      k.cells.length = min 32 max ∧ k.cells.take 1 = [some t] := by
  have hpush : (pushArg malloc max t .start).2 = storeArg t
      ⟨0, some ⟨0, List.replicate (min 32 max) none⟩, min 32 max, 1, false, [.malloc 0]⟩ := by
    unfold pushArg
    rw [growArgv_start, if_pos (hm _ _)]
  have hstore : decide ((List.replicate (min 32 max) (none : Option Bytes)).length ≤ 0) =
      false := by
    rw [List.length_replicate]
    apply decide_eq_false
    omega
  rw [hpush]
  refine ⟨_, rfl, rfl, rfl, hstore, ?_, ?_⟩
  · rw [List.length_set, List.length_replicate]
  · obtain ⟨m, hm'⟩ := Nat.exists_eq_add_of_lt (show 0 < min 32 max by omega)
    rw [hm', Nat.zero_add, List.replicate_succ]
    rfl

theorem pushArg_room (malloc : ℕ → ℕ → Bool) (max : ℕ) {k : Block} (hcap : b.argc < b.cap)
    (hk : b.argv = some k) (hlen : k.cells.length = b.cap) :
    (pushArg malloc max t b).2.argv = some { k with cells := k.cells.set b.argc (some t) } ∧
      (pushArg malloc max t b).2.argc = b.argc + 1 ∧ (pushArg malloc max t b).2.cap = b.cap ∧
      (pushArg malloc max t b).2.oob = b.oob := by
  have hpush : (pushArg malloc max t b).2 = storeArg t b := by
    unfold pushArg
    rw [growArgv_room malloc max hcap]
  have hwrite : decide (k.cells.length ≤ b.argc) = false := by
    apply decide_eq_false
    omega
  rw [hpush]
  unfold storeArg
  rw [hk]
  refine ⟨rfl, rfl, rfl, ?_⟩
  show (b.oob || decide (k.cells.length ≤ b.argc)) = b.oob
  rw [hwrite, Bool.or_false]

theorem pushArg_again (max : ℕ) {old : Block} (hm : ∀ n size, malloc n size = true)
    (hcap : b.cap < b.argc + 1) (hargc : 32 ≤ b.argc) (hk : b.argv = some old) :
    (pushArg malloc max t b).2.argv = some ⟨b.requests,
        (copyCells old.cells b.argc (min (b.argc * 2) max)).set b.argc (some t)⟩ ∧
      (pushArg malloc max t b).2.argc = b.argc + 1 ∧ (pushArg malloc max t b).2.cap = b.cap ∧
      ((pushArg malloc max t b).2.oob = false ↔ b.oob = false ∧ b.argc < max ∧
        b.argc ≤ 8 * old.cells.length) := by
  have hpush : (pushArg malloc max t b).2 = storeArg t { b with
      argv := some ⟨b.requests, copyCells old.cells b.argc (min (b.argc * 2) max)⟩
      requests := b.requests + 1
      oob := b.oob || decide (8 * min (b.argc * 2) max < b.argc ∨
        8 * old.cells.length < b.argc)
      heap := b.heap ++ [.malloc b.requests, .libcFree old.id] } := by
    unfold pushArg
    rw [growArgv_full malloc max hcap hargc hk, if_pos (hm _ _)]
  rw [hpush]
  refine ⟨rfl, rfl, rfl, ?_⟩
  unfold storeArg
  simp only [Bool.or_eq_false_iff, decide_eq_false_iff_not, copyCells_length]
  constructor
  · intro h
    obtain ⟨⟨hoob, hcopy⟩, hwrite⟩ := h
    exact ⟨hoob, by omega, by omega⟩
  · intro h
    obtain ⟨hoob, hlt, hold⟩ := h
    exact ⟨⟨hoob, by omega⟩, by omega⟩

end Push

/-- The buffer after the arguments of the list were pushed. -/
def buffer (x : Input) (e : Env σ) (l : Positionals) : HandlerArgs :=
  l.foldl (fun b p => (pushAt x e p.1 p.2 b).2) .start

theorem buffer_append (l : Positionals) (p : ℕ × Bytes) :
    buffer x e (l ++ [p]) = (pushAt x e p.1 p.2 (buffer x e l)).2 := by
  unfold buffer
  rw [List.foldl_append]
  rfl

theorem buffer_argc (hm : ∀ n size, e.malloc n size = true) (l : Positionals) :
    (buffer x e l).argc = l.length := by
  induction l using List.reverseRecOn with
  | nil => rfl
  | append_singleton l t ih =>
    rw [buffer_append, List.length_append, List.length_singleton, ← ih]
    exact pushArg_argc hm

/-- The first block holds the arguments. -/
structure Held (n : ℕ) (l : Positionals) (b : HandlerArgs) : Prop where
  argc : b.argc = l.length
  cap : ∀ p, l.head? = some p → b.cap = min 32 (n - p.1)
  block : ∃ k, b.argv = some k ∧ k.cells.length = b.cap ∧
    k.cells.take l.length = l.map fun p => some p.2
  oob : b.oob = false

/-- From number 32 on each argument has room in the block that is made for it. -/
def Fits (n : ℕ) (l : Positionals) : Prop :=
  ∀ k p, 32 ≤ k → l[k]? = some p → k + p.1 < n

/-- The first block was replaced. -/
structure Spilled (n : ℕ) (l : Positionals) (b : HandlerArgs) : Prop where
  argc : b.argc = l.length
  cap : b.cap = 32
  oob : b.oob = false ↔ Fits n l
  block : ∃ k, b.argv = some k ∧ (∀ t, k.cells[4]? ≠ some (some t)) ∧
    (b.oob = false → l.length ≤ k.cells.length)

theorem fits_append {n : ℕ} {l : Positionals} {p : ℕ × Bytes} (hl : 32 ≤ l.length) :
    Fits n (l ++ [p]) ↔ Fits n l ∧ l.length + p.1 < n := by
  constructor
  · intro h
    constructor
    · intro k q hk hq
      apply h k q hk
      rw [List.getElem?_append_left (List.getElem?_eq_some_iff.mp hq).1]
      exact hq
    · apply h l.length p hl
      rw [List.getElem?_append_right (Nat.le_refl _), Nat.sub_self]
      rfl
  · intro h k q hk hq
    obtain ⟨hfits, hlast⟩ := h
    rcases Nat.lt_or_ge k l.length with hlt | hge
    · rw [List.getElem?_append_left hlt] at hq
      exact hfits k q hk hq
    · have hlen := (List.getElem?_eq_some_iff.mp hq).1
      rw [List.length_append, List.length_singleton] at hlen
      have hkl : k = l.length := by omega
      subst hkl
      rw [List.getElem?_append_right (Nat.le_refl _), Nat.sub_self] at hq
      cases hq
      exact hlast

theorem fits_short {n : ℕ} {l : Positionals} (hl : l.length ≤ 32) : Fits n l := by
  intro k p hk hp
  have hlt := (List.getElem?_eq_some_iff.mp hp).1
  omega

theorem take_set_end {α : Type} {l : List α} {m : ℕ} {a : α} (h : m < l.length) :
    (l.set m a).take (m + 1) = l.take m ++ [a] := by
  rw [List.take_add_one, List.getElem?_set_self h, List.take_set_of_le (Nat.le_refl m)]
  rfl

section Step

variable (hm : ∀ n size, e.malloc n size = true) {l : Positionals} {p : ℕ × Bytes}

include hm in
theorem held_first (hp : p.1 < x.argc) : Held x.argc [p] (buffer x e [p]) := by
  obtain ⟨k, hk, hargc, hcap, hoob, hlen, htake⟩ := pushArg_first (t := p.2) hm
    (show 0 < x.argc - p.1 by omega)
  refine ⟨hargc, ?_, ⟨k, hk, hlen.trans hcap.symm, htake⟩, hoob⟩
  intro q hq
  cases hq
  exact hcap

theorem held_push (hord : Ordered x.argv x.argc (l ++ [p])) (hne : l ≠ []) (hl : l.length < 32)
    (h : Held x.argc l (buffer x e l)) : Held x.argc (l ++ [p]) (buffer x e (l ++ [p])) := by
  obtain ⟨q, l', rfl⟩ := List.exists_cons_of_ne_nil hne
  obtain ⟨hargc, hcap, ⟨k, hk, hlen, htake⟩, hoob⟩ := h
  have hcap := hcap q rfl
  have hfar := hord.far
  have hlast : p.1 < x.argc := hord.below p (by simp)
  have hroom : (buffer x e (q :: l')).argc < (buffer x e (q :: l')).cap := by
    rw [hargc, hcap]
    simp only [List.length_cons] at hl ⊢
    omega
  obtain ⟨hk', hargc', hcap', hoob'⟩ := pushArg_room e.malloc
    (x.argc - p.1) (t := p.2) hroom hk hlen
  rw [buffer_append]
  refine ⟨?_, ?_, ⟨_, hk', ?_, ?_⟩, hoob'.trans hoob⟩
  · rw [List.length_append, List.length_singleton, ← hargc]
    exact hargc'
  · intro r hr
    cases hr
    exact hcap'.trans hcap
  · rw [List.length_set]
    exact hlen.trans hcap'.symm
  · have hlt : (q :: l').length < k.cells.length := by
      rw [← hargc, hlen]
      exact hroom
    rw [hargc, List.length_append, List.length_singleton, take_set_end hlt, htake,
      List.map_append]
    rfl

include hm in
theorem spilled_push (hord : Ordered x.argv x.argc (l ++ [p])) (hl : 32 ≤ l.length) {k : Block}
    (hargc : (buffer x e l).argc = l.length) (hcap : (buffer x e l).cap = 32)
    (hk : (buffer x e l).argv = some k) (hoob : (buffer x e l).oob = false ↔ Fits x.argc l)
    (hhole : l.length < 40 ∨ ∀ t, k.cells[4]? ≠ some (some t))
    (hroom : (buffer x e l).oob = false → l.length ≤ k.cells.length) :
    Spilled x.argc (l ++ [p]) (buffer x e (l ++ [p])) := by
  have hlast : p.1 < x.argc := hord.below p (by simp)
  obtain ⟨hk', hargc', hcap', hoob'⟩ := pushArg_again (x.argc - p.1) (t := p.2) hm
    (by omega) (by omega) hk
  rw [hargc] at hk' hargc' hoob'
  have hiff : (buffer x e (l ++ [p])).oob = false ↔ Fits x.argc (l ++ [p]) := by
    rw [fits_append hl, buffer_append]
    refine hoob'.trans ?_
    rw [← hoob]
    constructor
    · intro h
      exact ⟨h.1, by omega⟩
    · intro h
      have := hroom h.1
      exact ⟨h.1, by omega, by omega⟩
  refine ⟨?_, ?_, hiff, ?_⟩
  · rw [buffer_append, List.length_append, List.length_singleton]
    exact hargc'
  · rw [buffer_append]
    exact hcap'.trans hcap
  · refine ⟨_, (by rw [buffer_append]; exact hk'), ?_, ?_⟩
    · intro t
      rw [List.getElem?_set_ne (by omega)]
      exact copyCells_hole _ hhole t
    · intro hfalse
      rw [hiff, fits_append hl] at hfalse
      rw [List.length_append, List.length_singleton, List.length_set, copyCells_length]
      omega

include hm in
theorem buffer_holds (hord : Ordered x.argv x.argc l) (hne : l ≠ []) :
    (l.length ≤ 32 ∧ Held x.argc l (buffer x e l)) ∨
      (32 < l.length ∧ Spilled x.argc l (buffer x e l)) := by
  induction l using List.reverseRecOn with
  | nil => exact (hne rfl).elim
  | append_singleton l p ih =>
    rw [List.length_append, List.length_singleton]
    have hlast : p.1 < x.argc := hord.below p (by simp)
    rcases Nat.eq_zero_or_pos l.length with hz | hpos
    · rw [List.length_eq_zero_iff.mp hz]
      exact Or.inl ⟨by simp, held_first hm hlast⟩
    have hne' := List.ne_nil_of_length_pos hpos
    rcases ih hord.init hne' with ⟨hl, h⟩ | ⟨hl, h⟩
    · rcases Nat.lt_or_ge l.length 32 with hlt | hge
      · exact Or.inl ⟨by omega, held_push hord hne' hlt h⟩
      · right
        refine ⟨by omega, ?_⟩
        obtain ⟨hargc, hcap, ⟨k, hk, hlen, htake⟩, hoob⟩ := h
        obtain ⟨q, l', hq⟩ := List.exists_cons_of_ne_nil hne'
        have hcap := hcap q (by rw [hq]; rfl)
        have htaken := congrArg List.length htake
        rw [List.length_take, List.length_map] at htaken
        apply spilled_push hm hord hge hargc (by omega) hk ?_ (Or.inl (by omega)) (by omega)
        exact ⟨fun _ => fits_short hl, fun _ => hoob⟩
    · right
      refine ⟨by omega, ?_⟩
      obtain ⟨hargc, hcap, hoob, ⟨k, hk, hhole, hroom⟩⟩ := h
      exact spilled_push hm hord (by omega) hargc hcap hk hoob (Or.inr hhole) hroom

end Step

/-! ### What the handler gets -/

theorem read_buffer (hm : ∀ n size, e.malloc n size = true) (root : Ptr) (mem : σ) :
    read x e (pushAt x e) x.argv 0 root false ⟨mem, .start, []⟩ =
      (readList x e root mem).map (buffer x e) := by
  have hpush : ∀ i t b, pushAt x e i t (buffer x e b) =
      ((pushList i t b).1, buffer x e (pushList i t b).2) := by
    intro i t l
    apply Prod.ext
    · exact pushArg_fst hm
    · exact (buffer_append l (i, t)).symm
  exact read_map hpush x.argv 0 root false ⟨mem, [], []⟩

theorem buffer_small (hm : ∀ n size, e.malloc n size = true) {l : Positionals}
    (hord : Ordered x.argv x.argc l) (hl : l.length ≤ 32) :
    (buffer x e l).argc = l.length ∧
      (((buffer x e l).argv.map Block.cells).getD []).take l.length =
        l.map (fun p => some p.2) ∧ (buffer x e l).oob = false := by
  rcases List.eq_nil_or_concat l with rfl | ⟨l', p, hlast⟩
  · exact ⟨rfl, rfl, rfl⟩
  have hne : l ≠ [] := by
    intro hnil
    rw [hnil] at hlast
    simp at hlast
  rcases buffer_holds hm hord hne with ⟨-, h⟩ | ⟨hlong, -⟩
  · obtain ⟨k, hk, -, htake⟩ := h.block
    rw [hk]
    exact ⟨h.argc, htake, h.oob⟩
  · omega

theorem buffer_large (hm : ∀ n size, e.malloc n size = true) {l : Positionals}
    (hord : Ordered x.argv x.argc l) (hl : 32 < l.length) :
    (((buffer x e l).argv.map Block.cells).getD []).take l.length ≠
        l.map (fun p => some p.2) ∧ ((buffer x e l).oob = false ↔ Fits x.argc l) := by
  have hne : l ≠ [] := List.ne_nil_of_length_pos (by omega)
  rcases buffer_holds hm hord hne with ⟨hshort, -⟩ | ⟨-, h⟩
  · omega
  obtain ⟨k, hk, hhole, -⟩ := h.block
  refine ⟨?_, h.oob⟩
  intro heq
  have hfour := congrArg (fun l => l[4]?) heq
  have hget := List.getElem?_eq_getElem (show 4 < l.length by omega)
  rw [hk] at hfour
  simp only [Option.map_some, Option.getD_some, List.getElem?_map, hget,
    List.getElem?_take_of_lt (show 4 < l.length by omega)] at hfour
  exact hhole _ hfour

/-- Every handler that is called gets the positional arguments, and nothing is
written or copied outside the block of `handler_argv`. -/
def HandsOver (x : Input) (e : Env σ) (root : Ptr) (mem : σ) : Prop :=
  ∀ fuel r, execute x e root mem fuel = some r →
    (∀ c h argc argv, Event.call c h argc argv ∈ r.world.log →
      argc = (readList x e root mem).world.args.length ∧
        (argv.getD []).take argc =
          (readList x e root mem).world.args.map fun p => some p.2) ∧
    r.world.args.oob = false

/-- The list of the positional arguments ends the run at a handler. -/
def CallsHandler (x : Input) (r : Reading Positionals σ) : Prop :=
  r.stop = none ∧ ∃ h, x.commands.handler r.command = some h

/-- The list has whole tokens in their order. The handler gets it when it is no
longer than 32; longer lists no handler gets, and nothing goes outside only when
each argument fits. -/
theorem handsOver_iff (x : Input) (e : Env σ) (root : Ptr) (mem : σ)
    (hm : ∀ n size, e.malloc n size = true) :
    Ordered x.argv x.argc (readList x e root mem).world.args ∧
      (HandsOver x e root mem ↔ (readList x e root mem).world.args.length ≤ 32 ∨
        (¬ CallsHandler x (readList x e root mem) ∧
          Fits x.argc (readList x e root mem).world.args)) := by
  have hord := ordered_readList x e root mem
  obtain ⟨w, hw, hends⟩ := read_silent x e root mem
  obtain ⟨n, hn⟩ := execute_read x e root mem
  have hread := read_buffer (x := x) hm root mem
  rw [hread] at hends hn
  have hcalls := finish_calls (x := x) (e := e) hw.1 hends
  have hoob := finish_oob (x := x) (e := e) ((readList x e root mem).map (buffer x e))
  refine ⟨hord, ?_⟩
  constructor
  · intro h
    obtain ⟨hargs, hfalse⟩ := h n _ hn
    rcases Nat.lt_or_ge 32 (readList x e root mem).world.args.length with hl | hl
    · obtain ⟨hlost, hfits⟩ := buffer_large hm hord hl
      right
      constructor
      · intro hc
        obtain ⟨hstop, g, hg⟩ := hc
        obtain ⟨hargc, htake⟩ := hargs _ _ _ _ ((hcalls _ g _ _).mpr ⟨hstop, rfl, hg, rfl, rfl⟩)
        rw [hargc] at htake
        exact hlost htake
      · rw [hoob] at hfalse
        exact hfits.mp hfalse
    · exact Or.inl hl
  · intro h fuel r hr
    rw [execute_unique hr, hread]
    rcases Nat.lt_or_ge 32 (readList x e root mem).world.args.length with hl | hl
    · obtain ⟨hno, hfits⟩ := h.resolve_left (by omega)
      constructor
      · intro c g argc argv hmem
        obtain ⟨hstop, -, hg, -⟩ := (hcalls c g argc argv).mp hmem
        exact (hno ⟨hstop, g, hg⟩).elim
      · rw [hoob]
        exact (buffer_large hm hord hl).2.mpr hfits
    · obtain ⟨hargc, htake, hfalse⟩ := buffer_small hm hord hl
      constructor
      · intro c g argc argv hmem
        obtain ⟨-, -, -, hargc', hargv⟩ := (hcalls c g argc argv).mp hmem
        rw [hargc', hargv]
        exact ⟨hargc, hargc ▸ htake⟩
      · rw [hoob]
        exact hfalse

end

/-- One command without flags, with a handler. -/
def bareCommand : Commands where
  child := fun _ => []
  flag := fun _ => []
  handler := fun _ => some 7

theorem handsOver_iff_three :
    (∀ n size, acceptAll.malloc n size = true) ∧
      HandsOver ⟨bareCommand, [text "a", text "-", text "--"], false⟩ acceptAll 1 () := by
  refine ⟨fun _ _ => rfl, ?_⟩
  apply (handsOver_iff ⟨bareCommand, [text "a", text "-", text "--"], false⟩ acceptAll 1 ()
    (fun _ _ => rfl)).2.mpr
  left
  decide

/-- With 33 arguments the last one is written behind the one cell that the new
block has. -/
theorem handsOver_fails :
    ¬ HandsOver ⟨bareCommand, List.replicate 33 (text "a"), false⟩ acceptAll 1 () := by
  have hobs : (execute ⟨bareCommand, List.replicate 33 (text "a"), false⟩ acceptAll 1 () 40).map
      (fun r => r.world.args.oob) = some true := by
    decide
  obtain ⟨r, hr, hoob⟩ := Option.map_eq_some_iff.mp hobs
  intro h
  have hfalse := (h 40 r hr).2
  rw [hfalse] at hoob
  cases hoob

end LibeventHttpServe.Flags
