import LibeventHttpServe.Flags.Positionals

/-!
# What becomes of the blocks for the positional arguments

A push that fails ends the run, so that the block which was handed to it and the
ways out of the loop after it have to be told apart from those before. The list
of the positional arguments, pushed one after the other, says which push fails.
-/

namespace LibeventHttpServe.Flags

open LibeventHttpServe.Lib

/-! ### A reading whose pushes can fail -/

section Collect

variable {β σ : Type} {x : Input} {e : Env σ}

/-- The arguments of the list are pushed up to the first push that fails. -/
def collect (push : ℕ → Bytes → β → Bool × β) : β → Positionals → Bool × β
  | b, [] => (true, b)
  | b, p :: l =>
    match push p.1 p.2 b with
    | (true, b) => collect push b l
    | (false, b) => (false, b)

theorem collect_append {push : ℕ → Bytes → β → Bool × β} {b b' : β} {l : Positionals}
    (h : collect push b l = (true, b')) (m : Positionals) :
    collect push b (l ++ m) = collect push b' m := by
  induction l generalizing b with
  | nil =>
    cases h
    rfl
  | cons p l ih =>
    rw [List.cons_append, collect]
    rw [collect] at h
    generalize push p.1 p.2 b = r at h ⊢
    obtain ⟨ok, b₁⟩ := r
    cases ok with
    | true => exact ih h
    | false => cases h

theorem readLong_push (c : Ptr) (i : ℕ) (t body : Bytes) (value : Option Bytes) :
    (∀ β push (w : World β σ),
        readLong x e push c i t body value w = readPositional push c i t w) ∨
      ∀ β push push' (w : World β σ),
        readLong x e push c i t body value w = readLong x e push' c i t body value w := by
  unfold readLong
  cases longWord (x.commands.flag c) body with
  | help => exact Or.inr fun _ _ _ _ => rfl
  | helpOff => exact Or.inr fun _ _ _ _ => rfl
  | helpBad v => exact Or.inr fun _ _ _ _ => rfl
  | assign f v => exact Or.inr fun _ _ _ _ => rfl
  | bare f => exact Or.inr fun _ _ _ _ => rfl
  | member f =>
    dsimp only
    split
    · exact Or.inl fun _ _ _ => rfl
    · exact Or.inr fun _ _ _ _ => rfl
  | unknown =>
    dsimp only
    split
    · exact Or.inl fun _ _ _ => rfl
    · exact Or.inr fun _ _ _ _ => rfl

/- Behind a bool flag nothing is pushed any more. -/
theorem readShort_again (c : Ptr) (i : ℕ) (t body : Bytes) (value : Option Bytes)
    (push push' : ℕ → Bytes → β → Bool × β) (w : World β σ) :
    readShort x e push c i t value false body w = readShort x e push' c i t value false body w := by
  induction body generalizing w with
  | nil => rfl
  | cons k body ih =>
    unfold readShort
    cases shortWord (x.commands.flag c) (k :: body) with
    | member f => exact ih _
    | help => rfl
    | helpOff => rfl
    | helpBad v => rfl
    | assign f v => rfl
    | bare f => rfl
    | unknown => rfl

theorem readShort_push (c : Ptr) (i : ℕ) (t body : Bytes) (value : Option Bytes) :
    (∀ β push (w : World β σ),
        readShort x e push c i t value true body w = readPositional push c i t w) ∨
      ∀ β push push' (w : World β σ), readShort x e push c i t value true body w =
        readShort x e push' c i t value true body w := by
  cases body with
  | nil => exact Or.inr fun _ _ _ _ => rfl
  | cons k body =>
    unfold readShort
    cases shortWord (x.commands.flag c) (k :: body) with
    | help => exact Or.inr fun _ _ _ _ => rfl
    | helpOff => exact Or.inr fun _ _ _ _ => rfl
    | helpBad v => exact Or.inr fun _ _ _ _ => rfl
    | assign f v => exact Or.inr fun _ _ _ _ => rfl
    | bare f => exact Or.inr fun _ _ _ _ => rfl
    | member f => exact Or.inr fun _ push push' w => readShort_again c i t body value push push' _
    | unknown =>
      dsimp only
      split
      · exact Or.inl fun _ _ _ => rfl
      · exact Or.inr fun _ _ _ _ => rfl

theorem readToken_push (c : Ptr) (i : ℕ) (input : Bool) (t : Bytes) (value : Option Bytes) :
    (∀ β push (w : World β σ),
        readToken x e push c i input t value w = readPositional push c i t w) ∨
      ∀ β push push' (w : World β σ),
        readToken x e push c i input t value w = readToken x e push' c i input t value w := by
  unfold readToken
  cases tokenOf t with
  | long body => exact readLong_push c i t body value
  | short body => exact readShort_push c i t body value
  | plain =>
    dsimp only
    split
    · exact Or.inr fun _ _ _ _ => rfl
    · exact Or.inl fun _ _ _ => rfl

/-- A token is pushed, or it does the same whatever the arguments are kept in. -/
theorem readToken_apart (c : Ptr) (i : ℕ) (input : Bool) (t : Bytes) (value : Option Bytes)
    (mem : σ) (log : List Event) :
    (∀ β push (w : World β σ),
        readToken x e push c i input t value w = readPositional push c i t w) ∨
      ∃ s : Step Unit σ, ∀ β push (b : β),
        readToken x e push c i input t value ⟨mem, b, log⟩ = s.map fun _ => b := by
  rcases readToken_push (x := x) (e := e) c i input t value with h | h
  · exact Or.inl h
  · right
    refine ⟨readToken x e (fun _ _ b => (true, b)) c i input t value ⟨mem, (), log⟩, ?_⟩
    intro β push b
    rw [h β push fun _ _ b => (true, b)]
    exact @readToken_map Unit β σ x e (fun _ => b) (fun _ _ b => (true, b))
      (fun _ _ b => (true, b)) (fun _ _ _ => rfl) c i input t value ⟨mem, (), log⟩

/-- The reading `r` with pushes that can fail against the reading `r'` that collects
the list: `b` and `l` are what they start from. -/
def Collects (push : ℕ → Bytes → β → Bool × β) (b : β) (l : Positionals) (r : Reading β σ)
    (r' : Reading Positionals σ) : Prop :=
  ∃ m, r'.world.args = l ++ m ∧
    ((collect push b m).1 = true → r = r'.map fun _ => (collect push b m).2) ∧
    ((collect push b m).1 = false →
      r.stop = some errorMallocArgv ∧ r.world.args = (collect push b m).2)

theorem Collects.push {push : ℕ → Bytes → β → Bool × β} {b b' : β} {l : Positionals}
    {p : ℕ × Bytes} {r : Reading β σ} {r' : Reading Positionals σ}
    (hpush : push p.1 p.2 b = (true, b')) (h : Collects push b' (l ++ [p]) r r') :
    Collects push b l r r' := by
  obtain ⟨m, hm, htrue, hfalse⟩ := h
  refine ⟨p :: m, hm.trans (List.append_assoc l [p] m), ?_⟩
  rw [collect, hpush]
  exact ⟨htrue, hfalse⟩

theorem collects_fails {push : ℕ → Bytes → β → Bool × β} {b b' : β} {l : Positionals}
    {p : ℕ × Bytes} {r : Reading β σ} {r' : Reading Positionals σ} {m : Positionals}
    (hpush : push p.1 p.2 b = (false, b')) (hm : r'.world.args = l ++ p :: m)
    (hstop : r.stop = some errorMallocArgv) (hargs : r.world.args = b') :
    Collects push b l r r' := by
  refine ⟨p :: m, hm, ?_⟩
  rw [collect, hpush]
  exact ⟨nofun, fun _ => ⟨hstop, hargs⟩⟩

theorem read_collects (push : ℕ → Bytes → β → Bool × β) (toks : List Bytes) (i : ℕ) (c : Ptr)
    (input : Bool) (mem : σ) (log : List Event) (b : β) (l : Positionals) :
    Collects push b l (read x e push toks i c input ⟨mem, b, log⟩)
      (read x e pushList toks i c input ⟨mem, l, log⟩) := by
  induction toks using tokens_induction generalizing i c input mem log b l with
  | nil => exact ⟨[], (List.append_nil l).symm, fun _ => rfl, nofun⟩
  | cons t rest ih ih' =>
    rw [read_cons, read_cons]
    rcases readToken_apart c i input t rest.head? mem log with h | ⟨s, h⟩
    · -- the token is pushed
      have hlist : readPositional pushList c i t ⟨mem, l, log⟩ =
          .one c true ⟨mem, l ++ [(i, t)], log⟩ := rfl
      rw [h, h, hlist]
      rcases hr : push i t b with ⟨ok, b'⟩
      have hrest := ih (i + 1) c true mem log b' (l ++ [(i, t)])
      cases ok with
      | true =>
        have hpush : readPositional push c i t ⟨mem, b, log⟩ = .one c true ⟨mem, b', log⟩ := by
          unfold readPositional
          rw [hr]
        rw [hpush]
        exact Collects.push (p := (i, t)) hr hrest
      | false =>
        have hpush : readPositional push c i t ⟨mem, b, log⟩ = .stop errorMallocArgv
            ((⟨mem, b', log⟩ : World β σ).emit [.message (.mallocArgv t)]) := by
          unfold readPositional
          rw [hr]
        rw [hpush]
        obtain ⟨m, hm, -⟩ := hrest
        rw [List.append_assoc] at hm
        exact collects_fails (p := (i, t)) hr hm rfl rfl
    · rw [h, h]
      cases s with
      | stop err w => exact ⟨[], (List.append_nil l).symm, fun _ => rfl, nofun⟩
      | one c input w => exact ih (i + 1) c input w.mem w.log b l
      | two w => exact ih' (i + 2) c true w.mem w.log b l

end Collect

/-! ### The blocks -/

section Heap

variable {malloc : ℕ → ℕ → Bool} {max : ℕ} {t : Bytes} {b : HandlerArgs}

/-- The first block is the only one, with room for `cap` arguments and `k` in it, and
nothing went outside. -/
structure Sole (cap k : ℕ) (b : HandlerArgs) : Prop where
  argc : b.argc = k
  cap : b.cap = cap
  block : ∃ cells, b.argv = some ⟨0, cells⟩ ∧ cells.length = b.cap
  requests : b.requests = 1
  heap : b.heap = [.malloc 0]
  oob : b.oob = false

theorem pushArg_refused (h : malloc 0 (8 * min 32 max) = false) :
    pushArg malloc max t .start = (false, ⟨0, none, 0, 1, false, []⟩) := by
  unfold pushArg
  rw [growArgv_start, h]
  rfl

theorem sole_first (h : malloc 0 (8 * min 32 max) = true) (hmax : 0 < max) :
    ∃ b', pushArg malloc max t .start = (true, b') ∧ Sole (min 32 max) 1 b' := by
  have hroom : decide ((List.replicate (min 32 max) (none : Option Bytes)).length ≤ 0) =
      false := by
    rw [List.length_replicate]
    apply decide_eq_false
    omega
  unfold pushArg
  rw [growArgv_start, h]
  have hlen : ((List.replicate (min 32 max) (none : Option Bytes)).set 0 (some t)).length =
      min 32 max := by
    rw [List.length_set, List.length_replicate]
  exact ⟨_, rfl, rfl, rfl, ⟨_, rfl, hlen⟩, rfl, rfl, hroom⟩

theorem sole_push {cap k : ℕ} (h : Sole cap k b) (hk : k < cap) (malloc : ℕ → ℕ → Bool)
    (max : ℕ) (t : Bytes) :
    ∃ b', pushArg malloc max t b = (true, b') ∧ Sole cap (k + 1) b' := by
  obtain ⟨hargc, hcap, ⟨cells, hcells, hlen⟩, hreq, hheap, hoob⟩ := h
  have hpush : pushArg malloc max t b = (true, storeArg t b) := by
    unfold pushArg
    rw [growArgv_room malloc max (by omega)]
  have hroom : (b.oob || decide (cells.length ≤ b.argc)) = false := by
    rw [hoob, Bool.false_or]
    apply decide_eq_false
    omega
  refine ⟨_, hpush, ?_⟩
  unfold storeArg
  rw [hcells]
  exact ⟨congrArg (· + 1) hargc, hcap, ⟨_, rfl, List.length_set.trans hlen⟩, hreq, hheap, hroom⟩

/- The full block is replaced by that of the second request, or released. -/
theorem sole_full (h : Sole 32 32 b) (malloc : ℕ → ℕ → Bool) (max : ℕ) (t : Bytes) :
    (malloc 1 (8 * min 64 max) = false →
        ∃ b', pushArg malloc max t b = (false, b') ∧ b'.heap = [.malloc 0, .free 0]) ∧
      (malloc 1 (8 * min 64 max) = true →
        ∃ b', pushArg malloc max t b = (true, b') ∧
          b'.heap = [.malloc 0, .malloc 1, .libcFree 0]) := by
  obtain ⟨hargc, hcap, ⟨cells, hcells, -⟩, hreq, hheap, -⟩ := h
  have hgrow := growArgv_full malloc max (by omega) (by omega) hcells
  rw [hargc, hreq, hheap] at hgrow
  unfold pushArg
  constructor
  · intro hm
    rw [hgrow, if_neg (ne_true_of_eq_false hm)]
    exact ⟨_, rfl, rfl⟩
  · intro hm
    rw [hgrow, if_pos hm]
    exact ⟨_, rfl, rfl⟩

/-- What happened to the blocks is never forgotten. -/
theorem pushArg_heap : b.heap <+: (pushArg malloc max t b).2.heap := by
  have hgrow : b.heap <+: (growArgv malloc max b).2.heap := by
    unfold growArgv
    split
    · extract_lets cap₁ cap₂ cap₃ ok new b'
      clear_value ok
      cases b'.argv <;> cases ok <;> first | exact List.prefix_rfl | exact List.prefix_append _ _
    · exact List.prefix_rfl
  have hstore : ∀ b : HandlerArgs, (storeArg t b).heap = b.heap := by
    intro b
    unfold storeArg
    cases b.argv <;> rfl
  unfold pushArg
  split
  · rename_i b' h
    rw [h] at hgrow
    exact (hstore b').symm ▸ hgrow
  · rename_i b' h
    rw [h] at hgrow
    exact hgrow

end Heap

section

variable {σ : Type} {x : Input} {e : Env σ}

theorem collect_heap (b : HandlerArgs) (l : Positionals) :
    b.heap <+: (collect (pushAt x e) b l).2.heap := by
  induction l generalizing b with
  | nil => exact List.prefix_rfl
  | cons p l ih =>
    have hpush : b.heap <+: (pushAt x e p.1 p.2 b).2.heap := pushArg_heap
    rw [collect]
    generalize pushAt x e p.1 p.2 b = r at hpush ⊢
    obtain ⟨ok, b'⟩ := r
    cases ok with
    | true => exact hpush.trans (ih b')
    | false => exact hpush

theorem sole_collect {cap k : ℕ} {b : HandlerArgs} {l : Positionals} (h : Sole cap k b)
    (hl : k + l.length ≤ cap) :
    ∃ b', collect (pushAt x e) b l = (true, b') ∧ Sole cap (k + l.length) b' := by
  induction l generalizing k b with
  | nil => exact ⟨b, rfl, h⟩
  | cons p l ih =>
    rw [List.length_cons] at hl
    obtain ⟨b₁, hpush, h₁⟩ := sole_push h (by omega) e.malloc (x.argc - p.1) p.2
    obtain ⟨b', hcollect, h'⟩ := ih h₁ (by omega)
    refine ⟨b', ?_, ?_⟩
    · rw [collect, pushAt, hpush]
      exact hcollect
    · rw [List.length_cons, Nat.add_comm l.length 1, ← Nat.add_assoc]
      exact h'

/-- The number of arguments from the first one of the list on bounds the list. -/
theorem Ordered.length_le {argv : List Bytes} {n : ℕ} {p : ℕ × Bytes} {l : Positionals}
    (h : Ordered argv n (p :: l)) : p.1 + l.length < n := by
  rcases List.eq_nil_or_concat l with rfl | ⟨l', q, rfl⟩
  · exact h.below p List.mem_cons_self
  · rw [List.concat_eq_append] at h ⊢
    have hfar := h.far
    have hq := h.below q (by simp)
    rw [List.length_append, List.length_singleton]
    omega

/-- The request number `k` is made for the argument number `n` of the list and is
refused. -/
def Refused (x : Input) (e : Env σ) (l : Positionals) (k n room : ℕ) : Prop :=
  ∃ p, l[n]? = some p ∧ e.malloc k (8 * min room (x.argc - p.1)) = false

theorem collect_refused {l : Positionals} (h : Refused x e l 0 0 32) :
    ∃ b, collect (pushAt x e) .start l = (false, b) ∧ b.heap = [] ∧ b.oob = false := by
  obtain ⟨p, hp, hm⟩ := h
  cases l with
  | nil => cases hp
  | cons q l =>
    cases hp
    refine ⟨⟨0, none, 0, 1, false, []⟩, ?_, rfl, rfl⟩
    rw [collect, pushAt, pushArg_refused hm]

theorem collect_small {p : ℕ × Bytes} {l : Positionals} (hm : ¬ Refused x e (p :: l) 0 0 32)
    (hl : 1 + l.length ≤ min 32 (x.argc - p.1)) (m : Positionals) :
    ∃ b, Sole (min 32 (x.argc - p.1)) (1 + l.length) b ∧
      collect (pushAt x e) .start (p :: l ++ m) = collect (pushAt x e) b m := by
  have hok : e.malloc 0 (8 * min 32 (x.argc - p.1)) = true := by
    apply Bool.eq_true_of_not_eq_false
    intro hfalse
    exact hm ⟨p, rfl, hfalse⟩
  obtain ⟨b₁, hpush, h₁⟩ := sole_first (t := p.2) hok (by omega)
  obtain ⟨b, hcollect, h⟩ := sole_collect (x := x) (e := e) h₁ hl
  refine ⟨b, h, ?_⟩
  apply collect_append
  rw [collect, pushAt, hpush]
  exact hcollect

theorem collect_large {p q : ℕ × Bytes} {l m : Positionals}
    (hord : Ordered x.argv x.argc (p :: l ++ q :: m))
    (hm : ¬ Refused x e (p :: l) 0 0 32) (hl : l.length = 31) :
    (e.malloc 1 (8 * min 64 (x.argc - q.1)) = false →
        ∃ b, collect (pushAt x e) .start (p :: l ++ q :: m) = (false, b) ∧
          b.heap = [.malloc 0, .free 0]) ∧
      (e.malloc 1 (8 * min 64 (x.argc - q.1)) = true →
        [.malloc 0, .malloc 1, .libcFree 0] <+:
          (collect (pushAt x e) .start (p :: l ++ q :: m)).2.heap) := by
  have hord' : Ordered x.argv x.argc (p :: (l ++ q :: m)) := hord
  have hlen := hord'.length_le
  rw [List.length_append, List.length_cons, hl] at hlen
  obtain ⟨b, hb, hcollect⟩ := collect_small hm (by omega) (q :: m)
  have hcap : min 32 (x.argc - p.1) = 32 := by omega
  rw [hcap, hl] at hb
  obtain ⟨hfail, hgrow⟩ := sole_full hb e.malloc (x.argc - q.1) q.2
  rw [hcollect, collect, pushAt]
  constructor
  · intro hq
    obtain ⟨b', hpush, hheap⟩ := hfail hq
    rw [hpush]
    exact ⟨b', rfl, hheap⟩
  · intro hq
    obtain ⟨b', hpush, hheap⟩ := hgrow hq
    rw [hpush, ← hheap]
    exact collect_heap b' m

/-- Nothing goes outside the first block. -/
theorem collect_inside {l : Positionals} (hord : Ordered x.argv x.argc l) (hl : l.length ≤ 32) :
    (collect (pushAt x e) .start l).2.oob = false := by
  cases l with
  | nil => rfl
  | cons p l =>
    by_cases hfirst : Refused x e (p :: l) 0 0 32
    · obtain ⟨b, hcollect, -, hoob⟩ := collect_refused hfirst
      rw [hcollect]
      exact hoob
    · have hlen := hord.length_le
      rw [List.length_cons] at hl
      obtain ⟨b, hb, hcollect⟩ := collect_small hfirst (by omega) []
      rw [List.append_nil] at hcollect
      rw [hcollect]
      exact hb.oob

/-! ### At the return -/

theorem finish_heap (r : Reading HandlerArgs σ) :
    r.world.args.heap <+: (finish x e r).world.args.heap := by
  unfold finish call
  split
  · split
    · exact List.prefix_rfl
    · dsimp only [World.emit]
      split
      · exact List.prefix_rfl
      · exact List.prefix_append _ _
  · exact List.prefix_rfl

theorem finish_heap_call {r : Reading HandlerArgs σ} {h : Fn} {k : Block}
    (hstop : r.stop = none) (hh : x.commands.handler r.command = some h)
    (hk : r.world.args.argv = some k) :
    (finish x e r).world.args.heap = r.world.args.heap ++ [.free k.id] := by
  unfold finish call
  rw [hstop, hh]
  dsimp only [World.emit]
  rw [hk]

theorem finish_heap_same {r : Reading HandlerArgs σ} (h : r.stop ≠ none ∨
    x.commands.handler r.command = none ∨ r.world.args.argv = none) :
    (finish x e r).world.args.heap = r.world.args.heap := by
  unfold finish call
  rcases h with h | h | h
  · split
    · contradiction
    · rfl
  · rw [h]
    split <;> rfl
  · dsimp only [World.emit]
    rw [h]
    split
    · split <;> rfl
    · rfl

/-- Every block that was handed out is released once, and by `ppp_c_flags_free`. -/
def Released (heap : List HeapEvent) : Prop :=
  ∀ id, .malloc id ∈ heap → heap.count (.free id) = 1 ∧ .libcFree id ∉ heap

theorem released_nil : Released [] := nofun

theorem released_freed : Released [.malloc 0, .free 0] := by
  intro id h
  have hid : id = 0 := by simpa using h
  rw [hid]
  decide

theorem not_released_kept : ¬ Released [.malloc 0] := by
  intro h
  have hcount := (h 0 List.mem_cons_self).1
  revert hcount
  decide

theorem not_released_grown {heap : List HeapEvent}
    (h : [.malloc 0, .malloc 1, .libcFree 0] <+: heap) : ¬ Released heap := by
  intro hr
  exact (hr 0 (h.subset (by decide))).2 (h.subset (by decide))

/-- Whichever way the run ends, the blocks for the positional arguments are
released. -/
def Releases (x : Input) (e : Env σ) (root : Ptr) (mem : σ) : Prop :=
  ∀ fuel r, execute x e root mem fuel = some r → Released r.world.args.heap

theorem releases_finish (root : Ptr) (mem : σ) :
    Releases x e root mem ↔ Released (finish x e
      (read x e (pushAt x e) x.argv 0 root false ⟨mem, .start, []⟩)).world.args.heap := by
  constructor
  · intro h
    obtain ⟨n, hn⟩ := execute_read x e root mem
    exact h n _ hn
  · intro h fuel r hr
    rw [execute_unique hr]
    exact h

section Exits

variable {r : Reading HandlerArgs σ} {r' : Reading Positionals σ} {b : HandlerArgs}
  (hr : Collects (pushAt x e) .start [] r r')

include hr in
/- Nothing is released behind a refused request. -/
theorem heap_stopped (h : collect (pushAt x e) .start r'.world.args = (false, b)) :
    (finish x e r).world.args.heap = b.heap := by
  obtain ⟨m, hm, -, hfail⟩ := hr
  rw [hm, List.nil_append] at h
  rw [h] at hfail
  obtain ⟨hstop, hargs⟩ := hfail rfl
  rw [finish_heap_same (Or.inl (by rw [hstop]; nofun)), hargs]

include hr in
theorem reading_collected (h : collect (pushAt x e) .start r'.world.args = (true, b)) :
    r = r'.map fun _ => b := by
  obtain ⟨m, hm, hdone, -⟩ := hr
  rw [hm, List.nil_append] at h
  rw [h] at hdone
  exact hdone rfl

theorem released_sole {cap k : ℕ} (h : Sole cap k b) :
    Released (finish x e (r'.map fun _ => b)).world.args.heap ↔ CallsHandler x r' := by
  obtain ⟨cells, hcells, -⟩ := h.block
  constructor
  · intro hreleased
    by_contra hno
    have hsame : (finish x e (r'.map fun _ => b)).world.args.heap = b.heap := by
      apply finish_heap_same
      by_cases hstop : r'.stop = none
      · right
        left
        apply Option.eq_none_iff_forall_ne_some.mpr
        intro g hg
        exact hno ⟨hstop, g, hg⟩
      · exact Or.inl hstop
    rw [hsame, h.heap] at hreleased
    exact not_released_kept hreleased
  · intro hcall
    obtain ⟨hstop, g, hg⟩ := hcall
    rw [finish_heap_call (r := r'.map fun _ => b) hstop hg hcells]
    show Released (b.heap ++ [.free 0])
    rw [h.heap]
    exact released_freed

include hr in
theorem released_small (hord : Ordered x.argv x.argc r'.world.args)
    (hne : r'.world.args ≠ []) (hfirst : ¬ Refused x e r'.world.args 0 0 32)
    (hl : r'.world.args.length ≤ 32) :
    Released (finish x e r).world.args.heap ↔ CallsHandler x r' := by
  obtain ⟨p, l, hpl⟩ := List.exists_cons_of_ne_nil hne
  rw [hpl] at hord hfirst hl
  have hlen := hord.length_le
  rw [List.length_cons] at hl
  obtain ⟨b, hb, hcollect⟩ := collect_small hfirst (by omega) []
  rw [List.append_nil, ← hpl] at hcollect
  rw [reading_collected hr hcollect, released_sole hb]

include hr in
theorem released_large (hord : Ordered x.argv x.argc r'.world.args)
    (hfirst : ¬ Refused x e r'.world.args 0 0 32) (hl : 32 < r'.world.args.length) :
    Released (finish x e r).world.args.heap ↔ Refused x e r'.world.args 1 32 64 := by
  obtain ⟨p, l, hpl⟩ := List.exists_cons_of_length_pos (Nat.zero_lt_of_lt hl)
  have hlt : 31 < l.length := by
    rw [hpl, List.length_cons] at hl
    omega
  obtain ⟨l₁, q, m, rfl, hl₁⟩ : ∃ l₁ q m, l = l₁ ++ q :: m ∧ l₁.length = 31 := by
    refine ⟨l.take 31, l[31], l.drop 32, ?_, ?_⟩
    · rw [← List.drop_eq_getElem_cons, List.take_append_drop]
    · rw [List.length_take]
      omega
  have hnth : r'.world.args[32]? = some q := by
    rw [hpl, List.getElem?_cons_succ, List.getElem?_append_right (Nat.le_of_eq hl₁), hl₁]
    rfl
  have hkeep : ¬ Refused x e (p :: l₁) 0 0 32 := by
    rintro ⟨p', hp, hm⟩
    cases hp
    exact hfirst ⟨p, by rw [hpl]; rfl, hm⟩
  obtain ⟨hrefused, hgrown⟩ := collect_large (hpl ▸ hord) hkeep hl₁
  rw [List.cons_append, ← hpl] at hrefused hgrown
  cases hm : e.malloc 1 (8 * min 64 (x.argc - q.1)) with
  | false =>
    obtain ⟨b, hb, hheap⟩ := hrefused hm
    rw [heap_stopped hr hb, hheap]
    exact iff_of_true released_freed ⟨q, hnth, hm⟩
  | true =>
    have hheap := hgrown hm
    apply iff_of_false
    · apply not_released_grown
      generalize hb : collect (pushAt x e) .start r'.world.args = c at hheap
      obtain ⟨ok, b⟩ := c
      cases ok with
      | true =>
        rw [reading_collected hr hb]
        exact hheap.trans (finish_heap (r'.map fun _ => b))
      | false =>
        rw [heap_stopped hr hb]
        exact hheap
    · rintro ⟨q', hq, hm'⟩
      cases hnth.symm.trans hq
      rw [hm] at hm'
      cases hm'

end Exits

/-- With at most 32 positional arguments nothing is written or copied outside the block of
`handler_argv`, whatever `malloc` grants. -/
theorem execute_inside {root : Ptr} {mem : σ} {fuel : ℕ} {r : Result σ}
    (hl : (readList x e root mem).world.args.length ≤ 32)
    (hr : execute x e root mem fuel = some r) : r.world.args.oob = false := by
  have hinside := collect_inside (e := e) (ordered_readList x e root mem) hl
  obtain ⟨m, hm, hdone, hstopped⟩ :=
    read_collects (x := x) (e := e) (pushAt x e) x.argv 0 root false mem [] .start []
  rw [List.nil_append] at hm
  have hlist : (readList x e root mem).world.args = m := hm
  rw [hlist] at hinside
  rw [execute_unique hr, finish_oob]
  cases hok : (collect (pushAt x e) .start m).1 with
  | true =>
    rw [hdone hok]
    exact hinside
  | false =>
    rw [(hstopped hok).2]
    exact hinside

/-- The blocks are released when there is no argument, when the first block or its
first successor is refused, and when up to 32 arguments are handed to a handler;
else they are not. -/
theorem releases_iff (x : Input) (e : Env σ) (root : Ptr) (mem : σ) :
    Releases x e root mem ↔ (readList x e root mem).world.args = [] ∨
      Refused x e (readList x e root mem).world.args 0 0 32 ∨
      Refused x e (readList x e root mem).world.args 1 32 64 ∨
      ((readList x e root mem).world.args.length ≤ 32 ∧
        CallsHandler x (readList x e root mem)) := by
  have hord := ordered_readList x e root mem
  have hread : Collects (pushAt x e) .start []
      (read x e (pushAt x e) x.argv 0 root false ⟨mem, .start, []⟩) (readList x e root mem) :=
    read_collects (pushAt x e) x.argv 0 root false mem [] .start []
  rw [releases_finish]
  by_cases hnil : (readList x e root mem).world.args = []
  · rw [reading_collected hread (by rw [hnil]; rfl), finish_heap_same (Or.inr (Or.inr rfl))]
    exact iff_of_true released_nil (Or.inl hnil)
  by_cases hfirst : Refused x e (readList x e root mem).world.args 0 0 32
  · obtain ⟨b, hb, hheap, -⟩ := collect_refused hfirst
    rw [heap_stopped hread hb, hheap]
    exact iff_of_true released_nil (Or.inr (Or.inl hfirst))
  rcases Nat.lt_or_ge 32 (readList x e root mem).world.args.length with hl | hl
  · rw [released_large hread hord hfirst hl]
    have hno : ¬ (readList x e root mem).world.args.length ≤ 32 := by omega
    simp only [hnil, hfirst, hno, false_or, false_and, or_false]
  · rw [released_small hread hord hnil hfirst hl]
    have hno : ¬ Refused x e (readList x e root mem).world.args 1 32 64 := by
      rintro ⟨p, hp, -⟩
      have hlt := (List.getElem?_eq_some_iff.mp hp).1
      omega
    simp only [hnil, hfirst, hno, hl, false_or, true_and]

end

/-- An unknown flag behind a positional argument leaves the block behind. -/
theorem releases_unknown_flag :
    ¬ Releases ⟨bareCommand, [text "a", text "--x"], false⟩ acceptAll 1 () := by
  have hobs : (execute ⟨bareCommand, [text "a", text "--x"], false⟩ acceptAll 1 () 10).map
      (fun r => (r.err, r.world.args.heap)) = some (errorUnknowFlag, [.malloc 0]) := by
    decide
  obtain ⟨r, hr, hheap⟩ := Option.map_eq_some_iff.mp hobs
  intro h
  have hreleased := h 10 r hr
  rw [(Prod.mk.inj hheap).2] at hreleased
  exact not_released_kept hreleased

end LibeventHttpServe.Flags
