import LibeventHttpServe.Flags.Phases

/-!
# Two readings side by side

Two readings whose words are about related flags stay related token by token, unless the
left one is lost: then it stays lost to its end, and nothing is said about the right one.
The readings may number their tokens differently.
-/

namespace LibeventHttpServe.Flags

open LibeventHttpServe.Lib

/-! ### Related words and events -/

inductive SameWord (F : Flag → Flag → Prop) : Word → Word → Prop where
  | same {w : Word} (h : w.flag = none) : SameWord F w w
  | assign {f g : Flag} (h : F f g) (v : Bytes) : SameWord F (.assign f v) (.assign g v)
  | bare {f g : Flag} (h : F f g) : SameWord F (.bare f) (.bare g)
  | member {f g : Flag} (h : F f g) : SameWord F (.member f) (.member g)

inductive SameEvent (F : Flag → Flag → Prop) : Event → Event → Prop where
  | same (ev : Event) : SameEvent F ev ev
  | needsArgument {f g : Flag} (h : F f g) (short : Bool) :
      SameEvent F (.message (.needsArgument f short)) (.message (.needsArgument g short))
  | invalidArgument {f g : Flag} (h : F f g) (short : Bool) (s : Bytes) :
      SameEvent F (.message (.invalidArgument f short s)) (.message (.invalidArgument g short s))

section

variable {β γ σ τ : Type}

/-- Every word has related flags in both inputs, and what a step does to the worlds keeps
them related by `W` or makes the left one lost; a lost world stays so. `N` relates the
numbers of the tokens. -/
structure Tracks (x y : Input) (e : Env σ) (d : Env τ) (push : ℕ → Bytes → β → Bool × β)
    (push' : ℕ → Bytes → γ → Bool × γ) (F : Flag → Flag → Prop) (N : ℕ → ℕ → Prop)
    (L : World β σ → Prop) (W : World β σ → World γ τ → Prop) : Prop where
  next : ∀ i j, N i j → N (i + 1) (j + 1)
  lostPush : ∀ i t w, L w → L { w with args := (push i t w.args).2 }
  allowUnknow : x.allowUnknow = y.allowUnknow
  child : x.commands.child = y.commands.child
  long : ∀ c s, SameWord F (longWord (x.commands.flag c) s) (longWord (y.commands.flag c) s)
  short : ∀ c s, SameWord F (shortWord (x.commands.flag c) s) (shortWord (y.commands.flag c) s)
  type : ∀ f g, F f g → f.type = g.type
  setFlag : ∀ w w' f g s i j k, W w w' → F f g → N i j →
    L (w.setFlag e f s (x.argc - i - k)).2 ∨
      ((w.setFlag e f s (x.argc - i - k)).1 = (w'.setFlag d g s (y.argc - j - k)).1 ∧
        W (w.setFlag e f s (x.argc - i - k)).2 (w'.setFlag d g s (y.argc - j - k)).2)
  emit : ∀ w w' es es', W w w' → List.Forall₂ (SameEvent F) es es' → W (w.emit es) (w'.emit es')
  push : ∀ i j t w w', W w w' → N i j → (push i t w.args).1 = (push' j t w'.args).1 ∧
    W { w with args := (push i t w.args).2 } { w' with args := (push' j t w'.args).2 }
  lostSet : ∀ w f s n, L w → L (w.setFlag e f s n).2
  lostEmit : ∀ w es, L w → L (w.emit es)

def Step.Rel (W : World β σ → World γ τ → Prop) : Step β σ → Step γ τ → Prop
  | .one c input w, .one c' input' w' => c = c' ∧ input = input' ∧ W w w'
  | .two w, .two w' => W w w'
  | .stop err w, .stop err' w' => err = err' ∧ W w w'
  | _, _ => False

def Step.Lost (L : World β σ → Prop) : Step β σ → Prop
  | .one _ _ w => L w
  | .two w => L w
  | .stop _ w => L w

structure Reading.Rel (W : World β σ → World γ τ → Prop) (r : Reading β σ)
    (r' : Reading γ τ) : Prop where
  stop : r.stop = r'.stop
  command : r.command = r'.command
  world : W r.world r'.world

theorem Reading.Rel.eq {W : World β σ → World β σ → Prop} {r r' : Reading β σ}
    (h : r.Rel W r') (hW : ∀ w w', W w w' → w = w') : r = r' := by
  have hworld := hW _ _ h.world
  obtain ⟨stop, command, world⟩ := r
  obtain ⟨stop', command', world'⟩ := r'
  cases h.stop
  cases h.command
  cases hworld
  rfl

section Tracks

variable {x y : Input} {e : Env σ} {d : Env τ} {push : ℕ → Bytes → β → Bool × β}
  {push' : ℕ → Bytes → γ → Bool × γ} {F : Flag → Flag → Prop} {N : ℕ → ℕ → Prop}
  {L : World β σ → Prop} {W : World β σ → World γ τ → Prop}
  (h : Tracks x y e d push push' F N L W) {w : World β σ} {w' : World γ τ} {i j : ℕ}

include h

/-! ### What is lost stays lost -/

theorem Tracks.keeps_lost {s : Step β σ} {c : Ptr} (hs : s.Keeps (fun _ _ w => L w) i c) :
    s.Lost L := by
  cases s with
  | one c' input u => exact hs.2.2
  | two u => exact hs
  | stop err u =>
    obtain ⟨-, v, hv, ⟨-, rfl⟩ | ⟨-, es, -, rfl⟩⟩ := hs
    · exact h.lostEmit v _ hv
    · exact h.lostEmit v es hv

theorem Tracks.lost_short (hw : L w) (c : Ptr) (i : ℕ) (t : Bytes) (value : Option Bytes)
    (first : Bool) (body : Bytes) : (readShort x e push c i t value first body w).Lost L :=
  h.keeps_lost (keeps_short (fun _ _ _ hw => hw) (fun _ _ w f s n hw _ => h.lostSet w f s n hw)
    (fun w hw => h.lostPush i t w hw) value body first hw)

theorem Tracks.lost_token (hw : L w) (c : Ptr) (i : ℕ) (input : Bool) (t : Bytes)
    (value : Option Bytes) : (readToken x e push c i input t value w).Lost L := by
  by_cases hno : input = true ∨ tokenOf t ≠ .plain ∨
      (x.commands.child c).find? (fun d => decide (d.2 = t)) = none
  · exact h.keeps_lost (keeps_token (fun _ _ _ hw => hw)
      (fun _ _ w f s n hw _ => h.lostSet w f s n hw) (fun w hw => h.lostPush i t w hw) hw value hno)
  · -- a subcommand
    obtain ⟨hinput, hno⟩ := not_or.mp hno
    obtain ⟨hplain, hfind⟩ := not_or.mp hno
    obtain ⟨q, hq⟩ := Option.ne_none_iff_exists'.mp hfind
    unfold readToken
    rw [not_not.mp hplain, Bool.eq_false_of_not_eq_true hinput]
    dsimp only
    rw [if_neg Bool.false_ne_true, hq]
    exact hw

theorem Tracks.lost_reading (toks : List Bytes) (i : ℕ) (c : Ptr) (input : Bool) (hw : L w) :
    L (read x e push toks i c input w).world := by
  induction toks using tokens_induction generalizing i c input w with
  | nil => exact hw
  | cons t rest ih ih' =>
    rw [read_cons]
    have hstep := h.lost_token hw c i input t rest.head?
    generalize readToken x e push c i input t rest.head? w = s at hstep ⊢
    cases s with
    | stop err u => exact hstep
    | one c' input' u => exact ih (i + 1) c' input' hstep
    | two u => exact ih' (i + 2) c true hstep

/-! ### One token -/

theorem Tracks.stop (hw : W w w') (err : ℕ) {m m' : Message} (c : Ptr)
    (hm : SameEvent F (.message m) (.message m')) :
    (Step.stop err (w.emit [.message m, .usage c])).Rel W
      (.stop err (w'.emit [.message m', .usage c])) :=
  ⟨rfl, h.emit w w' _ _ hw (.cons hm (.cons (.same _) .nil))⟩

theorem Tracks.assign (hw : W w w') (hn : N i j) {f g : Flag} (hf : F f g) (c : Ptr) (v : Bytes)
    (short : Bool) : (readAssign x e c i f v short w).Lost L ∨
      (readAssign x e c i f v short w).Rel W (readAssign y d c j g v short w') := by
  unfold readAssign
  have hset := h.setFlag w w' f g v i j 1 hw hf hn
  generalize w.setFlag e f v (x.argc - i - 1) = r at hset ⊢
  generalize w'.setFlag d g v (y.argc - j - 1) = r' at hset ⊢
  obtain ⟨bad, u⟩ := r
  obtain ⟨bad', u'⟩ := r'
  rcases hset with hlost | ⟨hres, hset⟩
  · cases bad with
    | true => exact Or.inl (h.lostEmit u _ hlost)
    | false => exact Or.inl hlost
  · cases hres
    cases bad with
    | true => exact Or.inr (h.stop hset _ c (.invalidArgument hf short v))
    | false => exact Or.inr ⟨rfl, rfl, hset⟩

theorem Tracks.bare (hw : W w w') (hn : N i j) {f g : Flag} (hf : F f g) (c : Ptr) (short : Bool)
    (value : Option Bytes) : (readBare x e c i f short value w).Lost L ∨
      (readBare x e c i f short value w).Rel W (readBare y d c j g short value w') := by
  unfold readBare
  rw [h.type f g hf]
  split
  · rcases h.setFlag w w' f g (text "1") i j 1 hw hf hn with hlost | ⟨-, hset⟩
    · exact Or.inl hlost
    · exact Or.inr ⟨rfl, rfl, hset⟩
  cases value with
  | none => exact Or.inr (h.stop hw _ c (.needsArgument hf short))
  | some v =>
    dsimp only
    have hset := h.setFlag w w' f g v i j 1 hw hf hn
    generalize w.setFlag e f v (x.argc - i - 1) = r at hset ⊢
    generalize w'.setFlag d g v (y.argc - j - 1) = r' at hset ⊢
    obtain ⟨bad, u⟩ := r
    obtain ⟨bad', u'⟩ := r'
    rcases hset with hlost | ⟨hres, hset⟩
    · cases bad with
      | true => exact Or.inl (h.lostEmit u _ hlost)
      | false => exact Or.inl hlost
    · cases hres
      cases bad with
      | true => exact Or.inr (h.stop hset _ c (.invalidArgument hf short v))
      | false => exact Or.inr hset

theorem Tracks.positional (hw : W w w') (hn : N i j) (c : Ptr) (t : Bytes) :
    (readPositional push c i t w).Rel W (readPositional push' c j t w') := by
  unfold readPositional
  obtain ⟨hres, hset⟩ := h.push i j t w w' hw hn
  generalize push i t w.args = r at hres hset ⊢
  generalize push' j t w'.args = r' at hres hset ⊢
  obtain ⟨ok, b⟩ := r
  obtain ⟨ok', b'⟩ := r'
  cases hres
  cases ok with
  | true => exact ⟨rfl, rfl, hset⟩
  | false => exact ⟨rfl, h.emit _ _ _ _ hset (.cons (.same _) .nil)⟩

theorem Tracks.longToken (hw : W w w') (hn : N i j) (c : Ptr) (t body : Bytes)
    (value : Option Bytes) : (readLong x e push c i t body value w).Lost L ∨
      (readLong x e push c i t body value w).Rel W
        (readLong y d push' c j t body value w') := by
  have hunknown : (if x.allowUnknow then readPositional push c i t w
      else .stop errorUnknowFlag (w.emit [.message (.unknownFlag body), .usage c])).Rel W
      (if y.allowUnknow then readPositional push' c j t w'
        else .stop errorUnknowFlag (w'.emit [.message (.unknownFlag body), .usage c])) := by
    rw [h.allowUnknow]
    split
    · exact h.positional hw hn c t
    · exact h.stop hw _ c (.same _)
  have hword := h.long c body
  unfold readLong
  generalize longWord (x.commands.flag c) body = u at hword ⊢
  generalize longWord (y.commands.flag c) body = u' at hword ⊢
  cases hword with
  | assign hf v => exact h.assign hw hn hf c v false
  | bare hf => exact h.bare hw hn hf c false value
  | member hf => exact Or.inr hunknown
  | same hnone =>
    cases u with
    | help => exact Or.inr ⟨rfl, h.emit w w' _ _ hw (.cons (.same _) .nil)⟩
    | helpOff => exact Or.inr ⟨rfl, rfl, hw⟩
    | helpBad v => exact Or.inr (h.stop hw _ c (.same _))
    | unknown => exact Or.inr hunknown
    | assign f v => cases hnone
    | bare f => cases hnone
    | member f => cases hnone

-- by induction on what is left of the token
theorem Tracks.shortToken (hn : N i j) (c : Ptr) (t : Bytes) (value : Option Bytes)
    (first : Bool) (body : Bytes) (hw : W w w') :
    (readShort x e push c i t value first body w).Lost L ∨
      (readShort x e push c i t value first body w).Rel W
        (readShort y d push' c j t value first body w') := by
  induction body generalizing first w w' with
  | nil => exact Or.inr (h.stop hw _ c (.same _))
  | cons k body ih =>
    have hword := h.short c (k :: body)
    unfold readShort
    generalize shortWord (x.commands.flag c) (k :: body) = u at hword ⊢
    generalize shortWord (y.commands.flag c) (k :: body) = u' at hword ⊢
    cases hword with
    | assign hf v => exact h.assign hw hn hf c v true
    | bare hf => exact h.bare hw hn hf c true value
    | member hf =>
      rcases h.setFlag w w' _ _ (text "1") i j 0 hw hf hn with hlost | ⟨-, hset⟩
      · exact Or.inl (h.lost_short hlost c i t value false body)
      · exact ih false hset
    | same hnone =>
      cases u with
      | help => exact Or.inr ⟨rfl, h.emit w w' _ _ hw (.cons (.same _) .nil)⟩
      | helpOff => exact Or.inr ⟨rfl, rfl, hw⟩
      | helpBad v => exact Or.inr (h.stop hw _ c (.same _))
      | unknown =>
        dsimp only
        rw [h.allowUnknow]
        split
        · exact Or.inr (h.positional hw hn c t)
        · exact Or.inr (h.stop hw _ c (.same _))
      | assign f v => cases hnone
      | bare f => cases hnone
      | member f => cases hnone

theorem Tracks.token (hw : W w w') (hn : N i j) (c : Ptr) (input : Bool) (t : Bytes)
    (value : Option Bytes) : (readToken x e push c i input t value w).Lost L ∨
      (readToken x e push c i input t value w).Rel W
        (readToken y d push' c j input t value w') := by
  unfold readToken
  cases tokenOf t with
  | long body => exact h.longToken hw hn c t body value
  | short body => exact h.shortToken hn c t value true body hw
  | plain =>
    dsimp only
    rw [h.child]
    split
    · exact Or.inr ⟨rfl, rfl, hw⟩
    · exact Or.inr (h.positional hw hn c t)

/-! ### A list of tokens -/

theorem Tracks.reading (toks : List Bytes) (hn : N i j) (c : Ptr) (input : Bool) (hw : W w w') :
    L (read x e push toks i c input w).world ∨
      (read x e push toks i c input w).Rel W (read y d push' toks j c input w') := by
  induction toks using tokens_induction generalizing i j c input w w' with
  | nil => exact Or.inr ⟨rfl, rfl, hw⟩
  | cons t rest ih ih' =>
    rw [read_cons, read_cons]
    have hstep := h.token hw hn c input t rest.head?
    generalize readToken x e push c i input t rest.head? w = s at hstep ⊢
    generalize readToken y d push' c j input t rest.head? w' = s' at hstep ⊢
    cases s with
    | stop err u =>
      rcases hstep with hlost | hstep
      · exact Or.inl hlost
      cases s' with
      | stop err' u' => exact Or.inr ⟨congrArg some hstep.1, rfl, hstep.2⟩
      | one c' input' u' => exact hstep.elim
      | two u' => exact hstep.elim
    | one c' input' u =>
      rcases hstep with hlost | hstep
      · exact Or.inl (h.lost_reading rest (i + 1) c' input' hlost)
      cases s' with
      | stop err' u' => exact hstep.elim
      | one c'' input'' u' =>
        obtain ⟨rfl, rfl, hu⟩ := hstep
        exact ih (h.next i j hn) c' input' hu
      | two u' => exact hstep.elim
    | two u =>
      rcases hstep with hlost | hstep
      · exact Or.inl (h.lost_reading rest.tail (i + 2) c true hlost)
      cases s' with
      | stop err' u' => exact hstep.elim
      | one c'' input'' u' => exact hstep.elim
      | two u' => exact ih' (h.next (i + 1) (j + 1) (h.next i j hn)) c true hstep

end Tracks

end

end LibeventHttpServe.Flags
