import LibeventHttpServe.Flags.Execute

/-!
# The rounds of the loop

What a round that keeps the loop going does to the fields that decide how the
loop goes on.
-/

namespace LibeventHttpServe.Flags

open LibeventHttpServe.Lib

section

variable {σ : Type} {x : Input} {e : Env σ}

inductive Rounds (x : Input) (e : Env σ) : Args σ → Args σ → Prop where
  | refl (a : Args σ) : Rounds x e a a
  | head {a b c : Args σ} (h : round x e a = .loop b) (hs : Rounds x e b c) : Rounds x e a c

theorem Rounds.trans {a b c : Args σ} (hab : Rounds x e a b) (hbc : Rounds x e b c) :
    Rounds x e a c := by
  induction hab with
  | refl a => exact hbc
  | head h _ ih => exact .head h (ih hbc)

theorem Rounds.tail {a b c : Args σ} (hab : Rounds x e a b) (h : round x e b = .loop c) :
    Rounds x e a c :=
  hab.trans (.head h (.refl c))

/-- Rounds that do not come back to the state in which a token is looked at. -/
inductive Inner (x : Input) (e : Env σ) : Args σ → Args σ → Prop where
  | refl (a : Args σ) : Inner x e a a
  | head {a b c : Args σ} (h : round x e a = .loop b) (hstate : b.state ≠ .none)
      (hs : Inner x e b c) : Inner x e a c

theorem Inner.rounds {a b : Args σ} (hab : Inner x e a b) : Rounds x e a b := by
  induction hab with
  | refl a => exact .refl a
  | head h _ _ ih => exact .head h ih

/-- From the first look at a token the loop comes to the next one in the round that ends
the token. -/
theorem Inner.leaves {a b d : Args σ} (hab : Inner x e a b) (had : Rounds x e a d)
    (hd : d.state = .none) : d = a ∨ ∃ c, round x e b = .loop c ∧ Rounds x e c d := by
  induction hab with
  | refl a =>
    cases had with
    | refl => exact Or.inl rfl
    | head h hs => exact Or.inr ⟨_, h, hs⟩
  | head h hstate _ ih =>
    cases had with
    | refl => exact Or.inl rfl
    | head h' hs =>
      rw [h, Next.loop.injEq] at h'
      subst h'
      rcases ih hs with rfl | hc
      · exact (hstate hd).elim
      · exact Or.inr hc

theorem rounds_mono {a : Args σ} {r : Result σ} {n m : ℕ} (h : rounds x e n a = some r)
    (hnm : n ≤ m) : rounds x e m a = some r := by
  induction n generalizing a m with
  | zero => cases h
  | succ n ih =>
    obtain ⟨k, rfl⟩ := Nat.exists_eq_add_of_le hnm
    rw [Nat.add_right_comm]
    unfold rounds at h ⊢
    cases hr : round x e a with
    | loop b =>
      simp only [hr] at h ⊢
      exact ih h (by omega)
    | ret r' =>
      simp only [hr] at h ⊢
      exact h

theorem Rounds.run {a b : Args σ} {r : Result σ} (hab : Rounds x e a b)
    (hr : round x e b = .ret r) : ∃ n, rounds x e n a = some r := by
  induction hab with
  | refl a => exact ⟨1, by simp only [rounds, hr]⟩
  | head h _ ih =>
    obtain ⟨n, hn⟩ := ih hr
    exact ⟨n + 1, by simp only [rounds, h, hn]⟩

/-! ### The call of the handler -/

theorem call_err (c : Ptr) (w : World HandlerArgs σ) : (call x e c w).err = 0 := by
  unfold call
  split
  · rfl
  · dsimp only
    split <;> rfl

theorem call_command (c : Ptr) (w : World HandlerArgs σ) : (call x e c w).command = c := by
  unfold call
  split
  · rfl
  · dsimp only
    split <;> rfl

theorem call_log (c : Ptr) (w : World HandlerArgs σ) :
    match x.commands.handler c with
    | none => (call x e c w).world.log = w.log
    | some h =>
      (call x e c w).world.log =
          w.log ++ [.call c h w.args.argc (w.args.argv.map Block.cells)] ∧
        (call x e c w).handlerResult =
          e.handler h c w.args.argc (w.args.argv.map Block.cells) w.mem := by
  unfold call
  cases x.commands.handler c with
  | none => rfl
  | some h =>
    dsimp only [World.emit]
    cases w.args.argv with
    | none => exact ⟨rfl, rfl⟩
    | some b => exact ⟨rfl, rfl⟩

theorem call_keeps (c : Ptr) (w : World HandlerArgs σ) :
    (call x e c w).world.mem = w.mem ∧ (call x e c w).world.args.oob = w.args.oob := by
  unfold call
  split
  · exact ⟨rfl, rfl⟩
  · dsimp only [World.emit]
    split <;> exact ⟨rfl, rfl⟩

/-! ### What a round does -/

inductive Moves (x : Input) (a b : Args σ) : Prop where
  /- a subcommand -/
  | descend (t : Bytes) (d : Ptr × Bytes) (hstate : a.state = .none) (hinput : a.input = false)
      (ht : x.argv[a.i]? = some t)
      (hfind : (x.commands.child a.command).find? (fun c => decide (c.2 = t)) = some d)
      (hcommand : b.command = d.1) (hi : b.i = a.i + 1) (hinput' : b.input = false)
      (hstate' : b.state = .none)
  /- the names of an option are read next -/
  | enter (t : Bytes) (hstate : a.state = .none) (ht : x.argv[a.i]? = some t)
      (hdash : t.head? = some (ascii '-')) (htext : b.s.text ≠ [])
      (hless : b.s.text.length < t.length) (hcommand : b.command = a.command) (hi : b.i = a.i)
      (hinput' : b.input = true) (hstate' : b.state ≠ .none)
  /- a positional argument -/
  | positional (t : Bytes) (hstate : a.state = .none) (ht : x.argv[a.i]? = some t)
      (hfind : a.input = true ∨
        (x.commands.child a.command).find? (fun c => decide (c.2 = t)) = none)
      (hcommand : b.command = a.command) (hi : b.i = a.i + 1) (hinput' : b.input = true)
      (hstate' : b.state = .none)
  /- a bool flag with other short names behind it -/
  | member (hstate : a.state = .flagsShort) (hmore : a.s.text.length ≠ 1)
      (htext : b.s.text = a.s.text.drop 1) (hcommand : b.command = a.command) (hi : b.i = a.i)
      (hinput' : b.input = a.input) (hstate' : b.state = .flagsShort)
  /- the option is read -/
  | leave (hstate : a.state ≠ .none) (hcommand : b.command = a.command)
      (hi : b.i = a.i + 1 ∨ b.i = a.i + 2) (hinput' : a.input = true → b.input = true)
      (hstate' : b.state = .none)

theorem pushArgs_loop {a b : Args σ} {s : Str} (h : pushArgs x e a s = .loop b) :
    b.command = a.command ∧ b.i = a.i + 1 ∧ b.input = true ∧ b.state = .none := by
  unfold pushArgs at h
  split at h
  · cases h
    exact ⟨rfl, rfl, rfl, rfl⟩
  · cases h

section Option

variable {a b : Args σ}

theorem leave_pushArgs {s : Str} (hstate : a.state ≠ .none) (h : pushArgs x e a s = .loop b) :
    Moves x a b := by
  obtain ⟨hcommand, hi, hinput, hstate'⟩ := pushArgs_loop h
  exact .leave hstate hcommand (Or.inl hi) (fun _ => hinput) hstate'

theorem leave_nextFlagsSet {f : Flag} {skip : ℕ} {short : Bool} (hstate : a.state ≠ .none)
    (h : nextFlagsSet x e a f skip short = .loop b) : Moves x a b := by
  unfold nextFlagsSet at h
  dsimp only at h
  split at h
  · cases h
  · cases h
    exact .leave hstate rfl (Or.inl rfl) id rfl

theorem leave_nextFlagsSetValue {f : Flag} {short : Bool} (hstate : a.state ≠ .none)
    (h : nextFlagsSetValue x e a f short = .loop b) : Moves x a b := by
  unfold nextFlagsSetValue at h
  split at h
  · cases h
    exact .leave hstate rfl (Or.inl rfl) id rfl
  split at h
  · cases h
  split at h
  · cases h
  · cases h
    exact .leave hstate rfl (Or.inr rfl) id rfl

theorem leave_nextHelp {skip : ℕ} {short : Bool} (hstate : a.state ≠ .none)
    (h : nextHelp a skip short = .loop b) : Moves x a b := by
  unfold nextHelp at h
  dsimp only at h
  split at h
  · cases h
    exact .leave hstate rfl (Or.inl rfl) id rfl
  · cases h
  · cases h

theorem nextFlags_moves (hstate : a.state ≠ .none) (h : nextFlags x e a = .loop b) :
    Moves x a b := by
  unfold nextFlags at h
  dsimp only at h
  split at h
  · cases h
  split at h
  · exact leave_nextHelp hstate h
  split at h
  · exact leave_nextFlagsSetValue hstate h
  · exact leave_nextFlagsSet hstate h
  split at h
  · exact leave_pushArgs hstate h
  · cases h

theorem nextShort_moves (hstate : a.state = .flagsShort) (h : nextShort x e a = .loop b) :
    Moves x a b := by
  have hne : a.state ≠ .none := by
    rw [hstate]
    decide
  unfold nextShort at h
  dsimp only at h
  split at h
  · cases h
  split at h
  · exact leave_nextHelp hne h
  split at h
  · split at h
    · exact leave_nextFlagsSetValue hne h
    rename_i hlen
    split at h
    · exact leave_nextFlagsSet hne h
    split at h
    · cases h
      exact .member hstate hlen (List.drop_drop ..).symm rfl rfl rfl hstate
    · exact leave_nextFlagsSet hne h
  split at h
  · exact leave_pushArgs hne h
  · cases h

theorem nextNone_moves (hstate : a.state = .none) (h : nextNone x e a = .loop b) :
    Moves x a b := by
  unfold nextNone at h
  cases ht : x.argv[a.i]? with
  | none =>
    simp only [ht] at h
    cases h
  | some t =>
    simp only [ht] at h
    split at h
    · rename_i hlong
      cases h
      have hlen : (Str.add ⟨t, 0⟩ 2).text.length = t.length - 2 := List.length_drop
      obtain ⟨h1, hdash, -, h2⟩ := hlong
      apply Moves.enter t hstate ht
      · rw [List.head?_eq_getElem?]
        exact hdash
      · apply List.ne_nil_of_length_pos
        show 0 < (Str.add ⟨t, 0⟩ 2).text.length
        omega
      · show (Str.add ⟨t, 0⟩ 2).text.length < t.length
        omega
      · rfl
      · rfl
      · rfl
      · intro hnone
        cases hnone
    split at h
    · rename_i hshort
      cases h
      have hlen : (Str.add ⟨t, 0⟩ 1).text.length = t.length - 1 := List.length_drop
      obtain ⟨h1, hdash, -⟩ := hshort
      apply Moves.enter t hstate ht
      · rw [List.head?_eq_getElem?]
        exact hdash
      · apply List.ne_nil_of_length_pos
        show 0 < (Str.add ⟨t, 0⟩ 1).text.length
        omega
      · show (Str.add ⟨t, 0⟩ 1).text.length < t.length
        omega
      · rfl
      · rfl
      · rfl
      · intro hnone
        cases hnone
    split at h
    · rename_i hinput
      obtain ⟨hcommand, hi, hinput', hstate'⟩ := pushArgs_loop h
      exact .positional t hstate ht (Or.inl hinput) hcommand hi hinput' hstate'
    rename_i hinput
    have hfalse : a.input = false := Bool.not_eq_true _ ▸ hinput
    split at h
    · rename_i d hd
      cases h
      exact .descend t d hstate hfalse ht hd rfl rfl hfalse hstate
    · rename_i hd
      obtain ⟨hcommand, hi, hinput', hstate'⟩ := pushArgs_loop h
      exact .positional t hstate ht (Or.inr hd) hcommand hi hinput' hstate'

theorem round_moves (h : round x e a = .loop b) : Moves x a b := by
  unfold round at h
  cases hstate : a.state with
  | none =>
    simp only [hstate] at h
    exact nextNone_moves hstate h
  | flags =>
    simp only [hstate] at h
    exact nextFlags_moves (by rw [hstate]; decide) h
  | flagsShort =>
    simp only [hstate] at h
    exact nextShort_moves hstate h

end Option

end

end LibeventHttpServe.Flags
