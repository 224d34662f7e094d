import LibeventHttpServe.Flags.Tracks

/-!
# The list of the positional arguments

The list is what `read` collects when it appends each positional argument to it.
-/

namespace LibeventHttpServe.Flags

open LibeventHttpServe.Lib

/-! ### Two readings of the same tokens -/

section

variable {β γ σ : Type}

/-- Every word has related flags in both inputs, and what a step does to the
worlds keeps them related by `W`. -/
structure Alongside (x y : Input) (e d : Env σ) (push : ℕ → Bytes → β → Bool × β)
    (push' : ℕ → Bytes → γ → Bool × γ) (F : Flag → Flag → Prop)
    (W : World β σ → World γ σ → Prop) : Prop where
  argc : x.argc = y.argc
  allowUnknow : x.allowUnknow = y.allowUnknow
  child : x.commands.child = y.commands.child
  long : ∀ c s, SameWord F (longWord (x.commands.flag c) s) (longWord (y.commands.flag c) s)
  short : ∀ c s, SameWord F (shortWord (x.commands.flag c) s) (shortWord (y.commands.flag c) s)
  type : ∀ f g, F f g → f.type = g.type
  setFlag : ∀ w w' f g s n, W w w' → F f g →
    (w.setFlag e f s n).1 = (w'.setFlag d g s n).1 ∧
      W (w.setFlag e f s n).2 (w'.setFlag d g s n).2
  emit : ∀ w w' es es', W w w' → List.Forall₂ (SameEvent F) es es' → W (w.emit es) (w'.emit es')
  push : ∀ i t w w', W w w' → (push i t w.args).1 = (push' i t w'.args).1 ∧
    W { w with args := (push i t w.args).2 } { w' with args := (push' i t w'.args).2 }

section Alongside

variable {x y : Input} {e d : Env σ} {push : ℕ → Bytes → β → Bool × β}
  {push' : ℕ → Bytes → γ → Bool × γ} {F : Flag → Flag → Prop}
  {W : World β σ → World γ σ → Prop} (h : Alongside x y e d push push' F W)
  {w : World β σ} {w' : World γ σ}

include h

/- No world is lost. -/
theorem Alongside.tracks : Tracks x y e d push push' F Eq (fun _ => False) W where
  next := fun i j hn => congrArg (· + 1) hn
  allowUnknow := h.allowUnknow
  child := h.child
  long := h.long
  short := h.short
  type := h.type
  setFlag := by
    rintro w w' f g s i _ k hw hf rfl
    rw [h.argc]
    exact Or.inr (h.setFlag w w' f g s _ hw hf)
  emit := h.emit
  push := by
    rintro i _ t w w' hw rfl
    exact h.push i t w w' hw
  lostSet := fun _ _ _ _ hw => hw
  lostEmit := fun _ _ hw => hw
  lostPush := fun _ _ _ hw => hw

theorem Alongside.token (hw : W w w') (c : Ptr) (i : ℕ) (input : Bool) (t : Bytes)
    (value : Option Bytes) :
    (readToken x e push c i input t value w).Rel W
      (readToken y d push' c i input t value w') := by
  rcases h.tracks.token hw rfl c input t value with hlost | hstep
  · generalize readToken x e push c i input t value w = s at hlost
    cases s <;> exact hlost.elim
  · exact hstep

theorem Alongside.reading (toks : List Bytes) (i : ℕ) (c : Ptr) (input : Bool) (hw : W w w') :
    (read x e push toks i c input w).Rel W (read y d push' toks i c input w') :=
  (h.tracks.reading toks rfl c input hw).resolve_left id

end Alongside

/-! ### How the arguments are kept does not change what is read -/

variable {x : Input} {e : Env σ}

def World.map (φ : β → γ) (w : World β σ) : World γ σ := ⟨w.mem, φ w.args, w.log⟩

def Step.map (φ : β → γ) : Step β σ → Step γ σ
  | .one c input w => .one c input (w.map φ)
  | .two w => .two (w.map φ)
  | .stop err w => .stop err (w.map φ)

def Reading.map (φ : β → γ) (r : Reading β σ) : Reading γ σ := ⟨r.stop, r.command, r.world.map φ⟩

section Map

variable {φ : β → γ} {push : ℕ → Bytes → β → Bool × β} {push' : ℕ → Bytes → γ → Bool × γ}

theorem sameWord_self (w : Word) : SameWord Eq w w := by
  cases w with
  | assign f v => exact .assign rfl v
  | bare f => exact .bare rfl
  | member f => exact .member rfl
  | help => exact .same rfl
  | helpOff => exact .same rfl
  | helpBad v => exact .same rfl
  | unknown => exact .same rfl

theorem sameEvent_eq {es es' : List Event} (h : List.Forall₂ (SameEvent Eq) es es') :
    es = es' := by
  induction h with
  | nil => rfl
  | cons hev _ ih =>
    rw [ih]
    cases hev with
    | same ev => rfl
    | needsArgument hf short => rw [hf]
    | invalidArgument hf short s => rw [hf]

variable (hpush : ∀ i t b, push' i t (φ b) = ((push i t b).1, φ (push i t b).2))

include hpush in
theorem alongside_map :
    Alongside x x e e push push' Eq (fun (w : World β σ) w' => w' = w.map φ) where
  argc := rfl
  allowUnknow := rfl
  child := rfl
  long := fun _ _ => sameWord_self _
  short := fun _ _ => sameWord_self _
  type := fun _ _ h => congrArg (fun f : Flag => f.type) h
  setFlag := by
    rintro w _ f _ s n rfl rfl
    exact ⟨rfl, rfl⟩
  emit := by
    rintro w _ es es' rfl hes
    rw [sameEvent_eq hes]
    rfl
  push := by
    rintro i t w _ rfl
    have h : push' i t (w.map φ).args = ((push i t w.args).1, φ (push i t w.args).2) :=
      hpush i t _
    rw [h]
    exact ⟨rfl, rfl⟩

include hpush in
theorem readToken_map (c : Ptr) (i : ℕ) (input : Bool) (t : Bytes) (value : Option Bytes)
    (w : World β σ) :
    readToken x e push' c i input t value (w.map φ) =
      (readToken x e push c i input t value w).map φ := by
  have h := (alongside_map (x := x) (e := e) hpush).token (w := w) rfl c i input t value
  generalize readToken x e push c i input t value w = s at h ⊢
  generalize readToken x e push' c i input t value (w.map φ) = s' at h ⊢
  cases s with
  | one c input u =>
    cases s' with
    | one c' input' u' =>
      obtain ⟨rfl, rfl, rfl⟩ := h
      rfl
    | two u' => exact h.elim
    | stop err u' => exact h.elim
  | two u =>
    cases s' with
    | one c' input' u' => exact h.elim
    | two u' => exact congrArg Step.two h
    | stop err u' => exact h.elim
  | stop err u =>
    cases s' with
    | one c' input' u' => exact h.elim
    | two u' => exact h.elim
    | stop err' u' =>
      obtain ⟨rfl, rfl⟩ := h
      rfl

include hpush in
theorem read_map (toks : List Bytes) (i : ℕ) (c : Ptr) (input : Bool) (w : World β σ) :
    read x e push' toks i c input (w.map φ) = (read x e push toks i c input w).map φ := by
  obtain ⟨hstop, hcommand, hworld⟩ :=
    (alongside_map (x := x) (e := e) hpush).reading (w := w) toks i c input rfl
  generalize read x e push toks i c input w = r at hstop hcommand hworld ⊢
  generalize read x e push' toks i c input (w.map φ) = r' at hstop hcommand hworld ⊢
  obtain ⟨stop, command, world⟩ := r
  obtain ⟨stop', command', world'⟩ := r'
  dsimp only at hstop hcommand hworld
  subst hstop hcommand hworld
  rfl

end Map

/-- The reading of the tokens does not ask what a handler would return. -/
theorem read_handler {d : Env σ} (hset : d.setFlag = e.setFlag)
    (push : ℕ → Bytes → β → Bool × β) (toks : List Bytes) (i : ℕ) (c : Ptr) (input : Bool)
    (w : World β σ) :
    read x d push toks i c input w = read x e push toks i c input w := by
  have halong : Alongside x x d e push push Eq (Eq : World β σ → World β σ → Prop) :=
    { argc := rfl
      allowUnknow := rfl
      child := rfl
      long := fun _ _ => sameWord_self _
      short := fun _ _ => sameWord_self _
      type := fun _ _ h => congrArg (fun f : Flag => f.type) h
      setFlag := by
        rintro w _ f _ s n rfl rfl
        unfold World.setFlag
        rw [hset]
        exact ⟨rfl, rfl⟩
      emit := by
        rintro w _ es es' rfl hes
        rw [sameEvent_eq hes]
      push := by
        rintro i t w _ rfl
        exact ⟨rfl, rfl⟩ }
  obtain ⟨hstop, hcommand, hworld⟩ := halong.reading (w := w) toks i c input rfl
  generalize read x d push toks i c input w = r at hstop hcommand hworld ⊢
  generalize read x e push toks i c input w = r' at hstop hcommand hworld ⊢
  obtain ⟨stop, command, world⟩ := r
  obtain ⟨stop', command', world'⟩ := r'
  dsimp only at hstop hcommand hworld
  subst hstop hcommand hworld
  rfl

/-! ### The list -/

abbrev Positionals := List (ℕ × Bytes)

def pushList (i : ℕ) (t : Bytes) (l : Positionals) : Bool × Positionals := (true, l ++ [(i, t)])

/-- What is read when the positional arguments are collected in a list. -/
def readList (x : Input) (e : Env σ) (root : Ptr) (mem : σ) : Reading Positionals σ :=
  read x e pushList x.argv 0 root false ⟨mem, [], []⟩

/-- The list has tokens of `argv` in their order, with numbers below `n`. -/
structure Ordered (argv : List Bytes) (n : ℕ) (l : Positionals) : Prop where
  increasing : l.Pairwise fun p q => p.1 < q.1
  below : ∀ p ∈ l, p.1 < n
  token : ∀ p ∈ l, argv[p.1]? = some p.2

section Ordered

variable {argv : List Bytes} {n m : ℕ} {l : Positionals}

theorem Ordered.mono (h : Ordered argv n l) (hnm : n ≤ m) : Ordered argv m l :=
  ⟨h.increasing, fun p hp => Nat.lt_of_lt_of_le (h.below p hp) hnm, h.token⟩

theorem Ordered.push (h : Ordered argv n l) {t : Bytes} (ht : argv[n]? = some t) :
    Ordered argv (n + 1) (l ++ [(n, t)]) := by
  constructor
  · apply List.pairwise_append.mpr
    refine ⟨h.increasing, List.pairwise_singleton _ _, ?_⟩
    intro p hp q hq
    rw [List.mem_singleton.mp hq]
    exact h.below p hp
  · intro p hp
    rcases List.mem_append.mp hp with hp | hp
    · exact Nat.lt_succ_of_lt (h.below p hp)
    · rw [List.mem_singleton.mp hp]
      exact Nat.lt_succ_self n
  · intro p hp
    rcases List.mem_append.mp hp with hp | hp
    · exact h.token p hp
    · rw [List.mem_singleton.mp hp]
      exact ht

theorem Ordered.init {p : ℕ × Bytes} (h : Ordered argv n (l ++ [p])) : Ordered argv n l :=
  ⟨(List.pairwise_append.mp h.increasing).1, fun q hq => h.below q (List.mem_append_left _ hq),
    fun q hq => h.token q (List.mem_append_left _ hq)⟩

theorem Ordered.far {p q : ℕ × Bytes} (h : Ordered argv n (p :: l ++ [q])) :
    p.1 + l.length + 1 ≤ q.1 := by
  induction l generalizing p with
  | nil =>
    have hpq := (List.pairwise_cons.mp h.increasing).1 q (by simp)
    simp only [List.length_nil]
    omega
  | cons r l ih =>
    obtain ⟨hp, hr⟩ := List.pairwise_cons.mp h.increasing
    have hpr := hp r (by simp)
    have hrq := ih ⟨hr, fun s hs => h.below s (List.mem_cons_of_mem _ hs),
      fun s hs => h.token s (List.mem_cons_of_mem _ hs)⟩
    simp only [List.length_cons]
    omega

theorem Ordered.end (h : Ordered argv n l) : Ordered argv argv.length l where
  increasing := h.increasing
  below := fun p hp => (List.getElem?_eq_some_iff.mp (h.token p hp)).1
  token := h.token

end Ordered

theorem ordered_readList (x : Input) (e : Env σ) (root : Ptr) (mem : σ) :
    Ordered x.argv x.argc (readList x e root mem).world.args := by
  have hnil : Ordered x.argv 0 [] := ⟨List.Pairwise.nil, nofun, nofun⟩
  obtain ⟨j, w', h, hends⟩ := read_phases x e pushList
    (F := fun i _ w => Ordered x.argv i w.args) (G := fun i _ w => Ordered x.argv i w.args)
    (fun i _ _ _ _ h _ _ _ => h.mono (Nat.le_succ i)) (fun _ _ _ _ h _ _ => h)
    (fun _ _ _ h _ => h) (fun i _ _ h => h.mono (Nat.le_succ i)) (fun _ _ _ _ _ _ h _ => h)
    (fun _ _ _ _ ht h => h.push ht) x.argv 0 root false ⟨mem, [], []⟩ rfl hnil
  unfold readList
  rw [hends.args]
  exact h.end

end

end LibeventHttpServe.Flags
