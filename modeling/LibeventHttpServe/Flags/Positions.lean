import LibeventHttpServe.Flags.Collect
import LibeventHttpServe.Flags.Simulation

/-!
# Token position

Whether the loop looks at a token as a token, and not as the value of an option, depends
on the tokens before it: when they are read as a whole, what follows is read from where
they leave off.
-/

namespace LibeventHttpServe.Flags

open LibeventHttpServe.Lib

section

variable {β γ σ τ : Type} {x y : Input} {e : Env σ} {d : Env τ}
  {push : ℕ → Bytes → β → Bool × β} {push' : ℕ → Bytes → γ → Bool × γ}

/-! ### The token behind -/

section One

variable {c c' : Ptr} {i : ℕ} {input' : Bool} {w w' : World β σ}

theorem readBare_any {f : Flag} {short : Bool} {value : Option Bytes}
    (h : readBare x e c i f short value w = .one c' input' w') (value' : Option Bytes) :
    readBare x e c i f short value' w = .one c' input' w' := by
  unfold readBare at h ⊢
  split at h
  · rename_i hb
    rw [if_pos hb]
    exact h
  · cases value with
    | none => cases h
    | some v =>
      dsimp only at h
      split at h <;> cases h

theorem readLong_any {t body : Bytes} {value : Option Bytes}
    (h : readLong x e push c i t body value w = .one c' input' w') (value' : Option Bytes) :
    readLong x e push c i t body value' w = .one c' input' w' := by
  unfold readLong at h ⊢
  cases hw : longWord (x.commands.flag c) body with
  | bare f =>
    rw [hw] at h
    exact readBare_any h value'
  | help => rwa [hw] at h
  | helpOff => rwa [hw] at h
  | helpBad v => rwa [hw] at h
  | assign f v => rwa [hw] at h
  | member f => rwa [hw] at h
  | unknown => rwa [hw] at h

theorem readShort_any {t body : Bytes} {value : Option Bytes} {first : Bool}
    (h : readShort x e push c i t value first body w = .one c' input' w')
    (value' : Option Bytes) :
    readShort x e push c i t value' first body w = .one c' input' w' := by
  induction body generalizing first w with
  | nil => exact h
  | cons k body ih =>
    unfold readShort at h ⊢
    cases hw : shortWord (x.commands.flag c) (k :: body) with
    | bare f =>
      rw [hw] at h
      exact readBare_any h value'
    | member f =>
      rw [hw] at h
      exact ih h
    | help => rwa [hw] at h
    | helpOff => rwa [hw] at h
    | helpBad v => rwa [hw] at h
    | assign f v => rwa [hw] at h
    | unknown => rwa [hw] at h

/-- A token that is read without the one behind is read so whatever stands there. -/
theorem readToken_any {input : Bool} {t : Bytes} {value : Option Bytes}
    (h : readToken x e push c i input t value w = .one c' input' w') (value' : Option Bytes) :
    readToken x e push c i input t value' w = .one c' input' w' := by
  unfold readToken at h ⊢
  cases ht : tokenOf t with
  | long body =>
    rw [ht] at h
    exact readLong_any h value'
  | short body =>
    rw [ht] at h
    exact readShort_any h value'
  | plain => rwa [ht] at h

end One

section Two

variable {c : Ptr} {i : ℕ} {w w' : World β σ}

theorem readBare_none {f : Flag} {short : Bool} :
    readBare x e c i f short none w ≠ .two w' := by
  unfold readBare
  split <;> simp

theorem readAssign_one {f : Flag} {v : Bytes} {short : Bool} :
    readAssign x e c i f v short w ≠ .two w' := by
  unfold readAssign
  split <;> simp

theorem readPositional_one {t : Bytes} : readPositional push c i t w ≠ .two w' := by
  unfold readPositional
  split <;> simp

theorem readShort_none {t body : Bytes} {first : Bool} :
    readShort x e push c i t none first body w ≠ .two w' := by
  induction body generalizing first w with
  | nil => simp [readShort]
  | cons k body ih =>
    unfold readShort
    cases shortWord (x.commands.flag c) (k :: body) with
    | bare f => exact readBare_none
    | member f => exact ih
    | assign f v => exact readAssign_one
    | help => simp
    | helpOff => simp
    | helpBad v => simp
    | unknown =>
      dsimp only
      split
      · exact readPositional_one
      · simp

/-- The last token has no value behind it. -/
theorem readToken_none {input : Bool} {t : Bytes} :
    readToken x e push c i input t none w ≠ .two w' := by
  have hunknown : ∀ s : Step β σ, (∀ u, s ≠ .two u) →
      (if x.allowUnknow then readPositional push c i t w else s) ≠ .two w' := by
    intro s hs
    split
    · exact readPositional_one
    · exact hs w'
  unfold readToken
  cases tokenOf t with
  | long body =>
    dsimp only
    unfold readLong
    cases longWord (x.commands.flag c) body with
    | bare f => exact readBare_none
    | assign f v => exact readAssign_one
    | help => simp
    | helpOff => simp
    | helpBad v => simp
    | member f => exact hunknown _ (by simp)
    | unknown => exact hunknown _ (by simp)
  | short body => exact readShort_none
  | plain =>
    dsimp only
    split
    · simp
    · exact readPositional_one

end Two

/-! ### Tokens that are read as a whole -/

/-- The tokens are read one after the other, and the token behind them is in token
position: it is not the value of the last one. -/
inductive Passes (x : Input) (e : Env σ) (push : ℕ → Bytes → β → Bool × β) :
    List Bytes → ℕ → Ptr → Bool → World β σ → Ptr → Bool → World β σ → Prop where
  | nil {i : ℕ} {c : Ptr} {input : Bool} {w : World β σ} :
      Passes x e push [] i c input w c input w
  | one {t : Bytes} {ts : List Bytes} {i : ℕ} {c c' b : Ptr} {input input' last : Bool}
      {w w' u : World β σ}
      (h : ∀ value, readToken x e push c i input t value w = .one c' input' w')
      (hs : Passes x e push ts (i + 1) c' input' w' b last u) :
      Passes x e push (t :: ts) i c input w b last u
  | two {t v : Bytes} {ts : List Bytes} {i : ℕ} {c b : Ptr} {input last : Bool}
      {w w' u : World β σ} (h : readToken x e push c i input t (some v) w = .two w')
      (hs : Passes x e push ts (i + 2) c true w' b last u) :
      Passes x e push (t :: v :: ts) i c input w b last u

theorem read_passes {ts : List Bytes} {i : ℕ} {c b : Ptr} {input last : Bool}
    {w u : World β σ} (h : Passes x e push ts i c input w b last u) (rest : List Bytes) :
    read x e push (ts ++ rest) i c input w = read x e push rest (i + ts.length) b last u := by
  induction h with
  | nil => rfl
  | @one t ts i c c' b input input' last w w' u h _ ih =>
    rw [List.cons_append, read_cons, h]
    show read x e push (ts ++ rest) (i + 1) c' input' w' = _
    rw [ih, List.length_cons, Nat.add_right_comm, Nat.add_assoc]
  | @two t v ts i c b input last w w' u h _ ih =>
    rw [List.cons_append, List.cons_append, read_cons, List.head?_cons, h]
    show read x e push (ts ++ rest) (i + 2) c true w' = _
    rw [ih, List.length_cons, List.length_cons, Nat.add_right_comm, Nat.add_assoc]

section Tracks

variable {F : Flag → Flag → Prop} {N : ℕ → ℕ → Prop} {L : World β σ → Prop}
  {W : World β σ → World γ τ → Prop} (h : Tracks x y e d push push' F N L W)

include h

theorem Tracks.lost_passes {ts : List Bytes} {i : ℕ} {c b : Ptr} {input last : Bool}
    {w u : World β σ} (hp : Passes x e push ts i c input w b last u) (hw : L w) : L u := by
  induction hp with
  | nil => exact hw
  | @one t ts i c c' b input input' last w w' u hread _ ih =>
    have hstep := h.lost_token hw c i input t none
    rw [hread] at hstep
    exact ih hstep
  | @two t v ts i c b input last w w' u hread _ ih =>
    have hstep := h.lost_token hw c i input t (some v)
    rw [hread] at hstep
    exact ih hstep

/-- The right reading reads the same tokens as a whole. -/
theorem Tracks.passes {ts : List Bytes} {i j : ℕ} {c b : Ptr} {input last : Bool}
    {w u : World β σ} {w' : World γ τ} (hp : Passes x e push ts i c input w b last u)
    (hw : W w w') (hn : N i j) :
    L u ∨ ∃ u', Passes y d push' ts j c input w' b last u' ∧ W u u' := by
  induction hp generalizing w' j with
  | nil => exact Or.inr ⟨w', .nil, hw⟩
  | @one t ts i c c' b input input' last w v u hread hs ih =>
    rcases h.token hw hn c input t none with hlost | hstep
    · rw [hread] at hlost
      exact Or.inl (h.lost_passes hs hlost)
    rw [hread] at hstep
    cases hy : readToken y d push' c j input t none w' with
    | one c'' input'' v' =>
      rw [hy] at hstep
      obtain ⟨rfl, rfl, hv⟩ := hstep
      rcases ih hv (h.next i j hn) with hlost | ⟨u', hs', hu⟩
      · exact Or.inl hlost
      · exact Or.inr ⟨u', .one (readToken_any hy) hs', hu⟩
    | two v' =>
      rw [hy] at hstep
      exact hstep.elim
    | stop err v' =>
      rw [hy] at hstep
      exact hstep.elim
  | @two t v ts i c b input last w w₁ u hread hs ih =>
    rcases h.token hw hn c input t (some v) with hlost | hstep
    · rw [hread] at hlost
      exact Or.inl (h.lost_passes hs hlost)
    rw [hread] at hstep
    cases hy : readToken y d push' c j input t (some v) w' with
    | one c'' input'' v' =>
      rw [hy] at hstep
      exact hstep.elim
    | two v' =>
      rw [hy] at hstep
      rcases ih hstep (h.next _ _ (h.next i j hn)) with hlost | ⟨u', hs', hu⟩
      · exact Or.inl hlost
      · exact Or.inr ⟨u', .two hy hs', hu⟩
    | stop err v' =>
      rw [hy] at hstep
      exact hstep.elim

end Tracks

/-! ### The loop in token position -/

theorem At.here {toks : List Bytes} {c : Ptr} {i : ℕ} {input : Bool} {w : World HandlerArgs σ}
    {a : Args σ} (ha : At c i input w a) : ∃ ts rest, toks = ts ++ rest ∧ a.i = i + ts.length ∧
      Passes x e (pushAt x e) ts i c input w a.command a.input a.world := by
  obtain ⟨rfl, rfl, rfl, rfl, -⟩ := ha
  exact ⟨[], toks, rfl, rfl, .nil⟩

theorem rounds_passes {toks : List Bytes} {c : Ptr} {i : ℕ} {input : Bool}
    {w : World HandlerArgs σ} {a b : Args σ} (ha : At c i input w a) (htoks : x.argv.drop i = toks)
    (hab : Rounds x e a b) (hb : b.state = .none) :
    ∃ ts rest, toks = ts ++ rest ∧ b.i = i + ts.length ∧
      Passes x e (pushAt x e) ts i c input w b.command b.input b.world := by
  induction toks using tokens_induction generalizing c i input w a with
  | nil =>
    have hend : round x e a = .ret (call x e c w) := by
      simp only [round, ha.state, nextNone, ha.i,
        List.getElem?_eq_none (List.drop_eq_nil_iff.mp htoks), ha.command, ha.world]
    cases hab with
    | refl => exact ha.here
    | head h _ =>
      rw [hend] at h
      cases h
  | cons t rest ih ih' =>
    obtain ⟨ht, hrest⟩ := drop_cons htoks
    obtain ⟨hval, htail⟩ := drop_next htoks
    obtain ⟨a₁, hinner, hm⟩ := matches_token (e := e) ha ht
    rw [hval] at hm
    rcases hinner.leaves hab hb with rfl | ⟨a₂, hround, hs⟩
    · exact ha.here
    rw [hround] at hm
    cases hread : readToken x e (pushAt x e) c i input t rest.head? w with
    | stop err u =>
      rw [hread] at hm
      exact hm.elim
    | one c' input' u =>
      rw [hread] at hm
      obtain ⟨ts, us, rfl, hi, hp⟩ := ih hm hrest hs
      exact ⟨t :: ts, us, rfl, by rw [hi, List.length_cons]; omega, .one (readToken_any hread) hp⟩
    | two u =>
      rw [hread] at hm
      cases rest with
      | nil => exact (readToken_none hread).elim
      | cons v rest =>
        obtain ⟨ts, us, hsplit, hi, hp⟩ := ih' hm htail hs
        refine ⟨t :: v :: ts, us, ?_, ?_, .two hread hp⟩
        · exact congrArg (fun l => t :: v :: l) hsplit
        · rw [hi]
          simp only [List.length_cons]
          omega

/-- The loop comes to the token number `k`, with `b` as its fields. -/
def Reaches (x : Input) (e : Env σ) (root : Ptr) (mem : σ) (k : ℕ) (b : Args σ) : Prop :=
  Rounds x e (.start root mem) b ∧ b.state = .none ∧ b.i = k

theorem Reaches.passes {root : Ptr} {mem : σ} {pre post : List Bytes} {b : Args σ}
    (h : Reaches x e root mem pre.length b) (hargv : x.argv = pre ++ post) :
    Passes x e (pushAt x e) pre 0 root false ⟨mem, .start, []⟩ b.command b.input b.world := by
  obtain ⟨hrounds, hstate, hi⟩ := h
  have hat : At root 0 false ⟨mem, .start, []⟩ (.start root mem) := ⟨rfl, rfl, rfl, rfl, rfl⟩
  obtain ⟨ts, rest, hts, hb, hp⟩ := rounds_passes hat (rfl : x.argv.drop 0 = x.argv) hrounds
    hstate
  have hlen : pre.length = ts.length := by omega
  obtain ⟨rfl, -⟩ := List.append_inj (hargv.symm.trans hts) hlen
  exact hp

end

end LibeventHttpServe.Flags
