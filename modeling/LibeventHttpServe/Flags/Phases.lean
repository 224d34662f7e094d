import LibeventHttpServe.Flags.Reading

/-!
# The two phases of a reading

Before the first option or positional argument a reading only descends into
subcommands and changes nothing; from then on it stays at its command. An
invariant of the second phase that every setting of a flag of that command and
every collected argument keep holds to the end.
-/

namespace LibeventHttpServe.Flags

open LibeventHttpServe.Lib

theorem findFlag_mem {s : Bytes} {fs : List Flag} {f : Flag} {b : Bool}
    (h : findFlag s fs = some (f, b)) : f ∈ fs := by
  induction fs with
  | nil => cases h
  | cons g fs ih =>
    unfold findFlag at h
    split at h
    · cases h
      exact List.mem_cons_self
    split at h
    · cases h
      exact List.mem_cons_self
    · exact List.mem_cons_of_mem _ (ih h)

theorem findShort_mem {s : Bytes} {fs : List Flag} {f : Flag} (h : findShort s fs = some f) :
    f ∈ fs := by
  induction fs with
  | nil => cases h
  | cons g fs ih =>
    unfold findShort at h
    split at h
    · cases h
      exact List.mem_cons_self
    · exact List.mem_cons_of_mem _ (ih h)

/-- The flag a word is about. -/
def Word.flag : Word → Option Flag
  | .assign f _ => some f
  | .bare f => some f
  | .member f => some f
  | _ => none

theorem helpWord_flag (v : Bytes) : (helpWord v).flag = none := by
  unfold helpWord
  split <;> rfl

theorem longWord_flag {fs : List Flag} {body : Bytes} {f : Flag}
    (h : (longWord fs body).flag = some f) : f ∈ fs := by
  unfold longWord at h
  split at h
  · cases h
  split at h
  · rw [helpWord_flag] at h
    cases h
  cases hf : findFlag body fs with
  | none =>
    rw [hf] at h
    cases h
  | some r =>
    obtain ⟨g, b⟩ := r
    have hm := findFlag_mem hf
    rw [hf] at h
    cases b <;> cases h <;> exact hm

theorem shortWord_flag {fs : List Flag} {body : Bytes} {f : Flag}
    (h : (shortWord fs body).flag = some f) : f ∈ fs := by
  unfold shortWord at h
  split at h
  · cases h
  split at h
  · rw [helpWord_flag] at h
    cases h
  cases hf : findShort body fs with
  | none =>
    rw [hf] at h
    cases h
  | some g =>
    have hm := findShort_mem hf
    rw [hf] at h
    dsimp only at h
    split at h
    · cases h
      exact hm
    split at h
    · cases h
      exact hm
    split at h <;> cases h <;> exact hm

/-! ### The log -/

/-- Messages and usages, no help and no call of a handler. -/
def Quiet (es : List Event) : Prop :=
  ∀ ev ∈ es, (∃ m, ev = .message m) ∨ ∃ c, ev = .usage c

theorem quiet_message (m : Message) (c : Ptr) : Quiet [.message m, .usage c] := by
  intro ev h
  rcases List.mem_cons.mp h with rfl | h
  · exact Or.inl ⟨m, rfl⟩
  · exact Or.inr ⟨c, List.mem_singleton.mp h⟩

def Event.isCall : Event → Bool
  | .call .. => true
  | _ => false

def Event.isHelp : Event → Bool
  | .help _ => true
  | _ => false

def calls (log : List Event) : List Event := log.filter Event.isCall
def helps (log : List Event) : List Event := log.filter Event.isHelp

@[simp] theorem calls_append (l m : List Event) : calls (l ++ m) = calls l ++ calls m :=
  List.filter_append _ _

@[simp] theorem helps_append (l m : List Event) : helps (l ++ m) = helps l ++ helps m :=
  List.filter_append _ _

/-- No handler was called and no help printed yet. -/
def Silent (log : List Event) : Prop := calls log = [] ∧ helps log = []

theorem call_notMem {log : List Event} (h : calls log = []) (c : Ptr) (g : Fn) (argc : ℕ)
    (argv : Option (List (Option Bytes))) : Event.call c g argc argv ∉ log := by
  intro hm
  have hcall : Event.call c g argc argv ∈ calls log := List.mem_filter.mpr ⟨hm, rfl⟩
  rw [h] at hcall
  cases hcall

theorem silent_append {log es : List Event} :
    Silent (log ++ es) ↔ Silent log ∧ Silent es := by
  simp only [Silent, calls_append, helps_append, List.append_eq_nil_iff]
  exact and_and_and_comm

theorem quiet_silent {es : List Event} (h : Quiet es) : Silent es := by
  constructor <;> apply List.filter_eq_nil_iff.mpr <;> intro ev hev hc <;>
    rcases h ev hev with ⟨m, rfl⟩ | ⟨c, rfl⟩ <;> cases hc

section

variable {β σ : Type} {x : Input} {e : Env σ} {push : ℕ → Bytes → β → Bool × β}

/-- The reading ends early at the world `w'`: with the help, or with an error. -/
def Stopping (c : Ptr) (err : ℕ) (w' w : World β σ) : Prop :=
  (err = 0 ∧ w = w'.emit [.help c]) ∨ (err ≠ 0 ∧ ∃ es, Quiet es ∧ w = w'.emit es)

/-- The step stays at the command `c` and keeps `G` there, `G` being of the number
of the next token. -/
def Step.Keeps (G : ℕ → Ptr → World β σ → Prop) (i : ℕ) (c : Ptr) : Step β σ → Prop
  | .one c' input w => c' = c ∧ input = true ∧ G (i + 1) c w
  | .two w => G (i + 2) c w
  | .stop err w => ∃ j w', G j c w' ∧ Stopping c err w' w

theorem Step.keeps_error {G : ℕ → Ptr → World β σ → Prop} {i j : ℕ} {c : Ptr} {err : ℕ}
    {w : World β σ} {es : List Event} (hG : G j c w) (herr : err ≠ 0) (hes : Quiet es) :
    (Step.stop err (w.emit es)).Keeps G i c :=
  ⟨j, w, hG, Or.inr ⟨herr, es, hes, rfl⟩⟩

section Keeps

variable {G : ℕ → Ptr → World β σ → Prop} {c : Ptr} {i : ℕ} {t : Bytes}
  (hnext : ∀ i c w, G i c w → G (i + 1) c w)
  (hset : ∀ i c w f s n, G i c w → f ∈ x.commands.flag c → G i c (w.setFlag e f s n).2)
  (hpush : ∀ w, G i c w → G (i + 1) c { w with args := (push i t w.args).2 })

include hnext hset in
theorem keeps_assign {w : World β σ} {f : Flag} (hG : G i c w) (hf : f ∈ x.commands.flag c)
    (v : Bytes) (short : Bool) : (readAssign x e c i f v short w).Keeps G i c := by
  have h := hset i c w f v (x.argc - i - 1) hG hf
  unfold readAssign
  generalize w.setFlag e f v (x.argc - i - 1) = r at h ⊢
  obtain ⟨bad, w'⟩ := r
  cases bad with
  | true => exact Step.keeps_error h (by decide) (quiet_message _ _)
  | false => exact ⟨rfl, rfl, hnext i c w' h⟩

include hnext hset in
theorem keeps_bare {w : World β σ} {f : Flag} (hG : G i c w) (hf : f ∈ x.commands.flag c)
    (short : Bool) (value : Option Bytes) : (readBare x e c i f short value w).Keeps G i c := by
  unfold readBare
  by_cases hb : f.type.elem = .bool
  · rw [if_pos hb]
    exact ⟨rfl, rfl, hnext i c _ (hset i c w f _ _ hG hf)⟩
  rw [if_neg hb]
  cases value with
  | none => exact Step.keeps_error hG (by decide) (quiet_message _ _)
  | some v =>
    have h := hset i c w f v (x.argc - i - 1) hG hf
    dsimp only
    generalize w.setFlag e f v (x.argc - i - 1) = r at h ⊢
    obtain ⟨bad, w'⟩ := r
    cases bad with
    | true => exact Step.keeps_error h (by decide) (quiet_message _ _)
    | false => exact hnext (i + 1) c w' (hnext i c w' h)

include hpush in
theorem keeps_positional {w : World β σ} (hG : G i c w) :
    (readPositional push c i t w).Keeps G i c := by
  have h := hpush w hG
  unfold readPositional
  generalize push i t w.args = r at h ⊢
  obtain ⟨ok, b⟩ := r
  cases ok with
  | true => exact ⟨rfl, rfl, h⟩
  | false =>
    apply Step.keeps_error h (by decide)
    intro ev hev
    exact Or.inl ⟨_, List.mem_singleton.mp hev⟩

include hnext hset hpush in
theorem keeps_long {w : World β σ} (hG : G i c w) (body : Bytes) (value : Option Bytes) :
    (readLong x e push c i t body value w).Keeps G i c := by
  have hflag : ∀ f, (longWord (x.commands.flag c) body).flag = some f → f ∈ x.commands.flag c :=
    fun f h => longWord_flag h
  unfold readLong
  cases hw : longWord (x.commands.flag c) body with
  | help => exact ⟨i, w, hG, Or.inl ⟨rfl, rfl⟩⟩
  | helpOff => exact ⟨rfl, rfl, hnext i c w hG⟩
  | helpBad v => exact Step.keeps_error hG (by decide) (quiet_message _ _)
  | assign f v => exact keeps_assign hnext hset hG (hflag f (by rw [hw]; rfl)) v false
  | bare f => exact keeps_bare hnext hset hG (hflag f (by rw [hw]; rfl)) false value
  | member f =>
    dsimp only
    split
    · exact keeps_positional hpush hG
    · exact Step.keeps_error hG (by decide) (quiet_message _ _)
  | unknown =>
    dsimp only
    split
    · exact keeps_positional hpush hG
    · exact Step.keeps_error hG (by decide) (quiet_message _ _)

-- by induction on what is left of the token
include hnext hset hpush in
theorem keeps_short (value : Option Bytes) (body : Bytes) (first : Bool) {w : World β σ}
    (hG : G i c w) :
    (readShort x e push c i t value first body w).Keeps G i c := by
  induction body generalizing first w with
  | nil => exact Step.keeps_error hG (by decide) (quiet_message _ _)
  | cons k body ih =>
    have hflag : ∀ f, (shortWord (x.commands.flag c) (k :: body)).flag = some f →
        f ∈ x.commands.flag c := fun f h => shortWord_flag h
    unfold readShort
    cases hw : shortWord (x.commands.flag c) (k :: body) with
    | help => exact ⟨i, w, hG, Or.inl ⟨rfl, rfl⟩⟩
    | helpOff => exact ⟨rfl, rfl, hnext i c w hG⟩
    | helpBad v => exact Step.keeps_error hG (by decide) (quiet_message _ _)
    | assign f v => exact keeps_assign hnext hset hG (hflag f (by rw [hw]; rfl)) v true
    | bare f => exact keeps_bare hnext hset hG (hflag f (by rw [hw]; rfl)) true value
    | member f => exact ih false (hset i c w f _ _ hG (hflag f (by rw [hw]; rfl)))
    | unknown =>
      dsimp only
      split
      · exact keeps_positional hpush hG
      · exact Step.keeps_error hG (by decide) (quiet_message _ _)

include hnext hset hpush in
/- A token that does not descend into a subcommand. -/
theorem keeps_token {w : World β σ} (hG : G i c w) {input : Bool} (value : Option Bytes)
    (hno : input = true ∨
      tokenOf t ≠ .plain ∨ (x.commands.child c).find? (fun d => decide (d.2 = t)) = none) :
    (readToken x e push c i input t value w).Keeps G i c := by
  unfold readToken
  cases htok : tokenOf t with
  | long body => exact keeps_long hnext hset hpush hG body value
  | short body => exact keeps_short hnext hset hpush value body true hG
  | plain =>
    have hnone : (if input then none
        else (x.commands.child c).find? fun d => decide (d.2 = t)) = none := by
      rcases hno with rfl | hno | hno
      · rfl
      · exact (hno htok).elim
      · rw [hno]
        exact ite_self _
    dsimp only
    rw [hnone]
    exact keeps_positional hpush hG

end Keeps

/-- How the reading `r` ends from the last world `w` that `G` was kept to. -/
def Reading.Ends (r : Reading β σ) (w : World β σ) : Prop :=
  match r.stop with
  | none => r.world = w
  | some err => Stopping r.command err w r.world

theorem Reading.Ends.args {r : Reading β σ} {w : World β σ} (h : r.Ends w) :
    r.world.args = w.args := by
  unfold Reading.Ends at h
  cases hstop : r.stop with
  | none =>
    rw [hstop] at h
    rw [h]
  | some err =>
    rw [hstop] at h
    rcases h with ⟨-, hw⟩ | ⟨-, es, -, hw⟩
    · rw [hw]
      rfl
    · rw [hw]
      rfl

theorem drop_cons {l : List Bytes} {i : ℕ} {t : Bytes} {rest : List Bytes}
    (h : l.drop i = t :: rest) : l[i]? = some t ∧ l.drop (i + 1) = rest := by
  constructor
  · have h0 : (l.drop i)[0]? = some t := by rw [h]; rfl
    rw [List.getElem?_drop] at h0
    exact h0
  · have h1 : (l.drop i).drop 1 = rest := by rw [h]; rfl
    rw [List.drop_drop] at h1
    exact h1

theorem drop_next {l : List Bytes} {i : ℕ} {t : Bytes} {rest : List Bytes}
    (h : l.drop i = t :: rest) : l[i + 1]? = rest.head? ∧ l.drop (i + 2) = rest.tail := by
  obtain ⟨-, hrest⟩ := drop_cons h
  rw [← hrest, List.head?_drop, List.tail_drop]
  exact ⟨rfl, rfl⟩

/-- What a token does in the first phase, with the invariant `F`, and in the second, with
`G`. -/
theorem token_phases {F G : ℕ → Ptr → World β σ → Prop} {t : Bytes} {i : ℕ} {c : Ptr}
    (hdescend : ∀ w d, F i c w → tokenOf t = .plain →
      (x.commands.child c).find? (fun d => decide (d.2 = t)) = some d → F (i + 1) d.1 w)
    (hleave : ∀ w, F i c w → (tokenOf t ≠ .plain ∨
      (x.commands.child c).find? (fun d => decide (d.2 = t)) = none) → G i c w)
    (hnext : ∀ i c w, G i c w → G (i + 1) c w)
    (hset : ∀ i c w f s n, G i c w → f ∈ x.commands.flag c → G i c (w.setFlag e f s n).2)
    (hpush : ∀ w : World β σ, G i c w → G (i + 1) c { w with args := (push i t w.args).2 })
    {input : Bool} {w : World β σ} (value : Option Bytes) (h : if input then G i c w else F i c w) :
    (∃ d, F (i + 1) d w ∧ readToken x e push c i input t value w = .one d false w) ∨
      (readToken x e push c i input t value w).Keeps G i c := by
  cases input with
  | true => exact Or.inr (keeps_token hnext hset hpush h value (Or.inl rfl))
  | false =>
    by_cases hno : tokenOf t ≠ .plain ∨
        (x.commands.child c).find? (fun d => decide (d.2 = t)) = none
    · exact Or.inr (keeps_token hnext hset hpush (hleave w h hno) value (Or.inr hno))
    · obtain ⟨hplain, hfind⟩ := not_or.mp hno
      have htok := not_not.mp hplain
      obtain ⟨d, hd⟩ := Option.ne_none_iff_exists'.mp hfind
      refine Or.inl ⟨d.1, hdescend w d h htok hd, ?_⟩
      unfold readToken
      simp only [htok, Bool.false_eq_true, if_false, hd]

variable (x e push) in
/-- The invariant of the first phase is `F`, that of the second is `G`, both of the
number of the next token. -/
theorem read_phases {F G : ℕ → Ptr → World β σ → Prop}
    (hdescend : ∀ i t c w d, F i c w → x.argv[i]? = some t → tokenOf t = .plain →
      (x.commands.child c).find? (fun d => decide (d.2 = t)) = some d → F (i + 1) d.1 w)
    (hleave : ∀ i t c w, F i c w → x.argv[i]? = some t → (tokenOf t ≠ .plain ∨
      (x.commands.child c).find? (fun d => decide (d.2 = t)) = none) → G i c w)
    (hend : ∀ i c w, F i c w → x.argc ≤ i → G i c w)
    (hnext : ∀ i c w, G i c w → G (i + 1) c w)
    (hset : ∀ i c w f s n, G i c w → f ∈ x.commands.flag c → G i c (w.setFlag e f s n).2)
    (hpush : ∀ i t c (w : World β σ), x.argv[i]? = some t → G i c w →
      G (i + 1) c { w with args := (push i t w.args).2 })
    (toks : List Bytes) (i : ℕ) (c : Ptr) (input : Bool) (w : World β σ)
    (htoks : x.argv.drop i = toks) (hstart : if input then G i c w else F i c w) :
    ∃ j w', G j (read x e push toks i c input w).command w' ∧
      (read x e push toks i c input w).Ends w' := by
  induction toks using tokens_induction generalizing i c input w with
  | nil =>
    refine ⟨i, w, ?_, rfl⟩
    cases input with
    | true => exact hstart
    | false => exact hend i c w hstart (List.drop_eq_nil_iff.mp htoks)
  | cons t rest ih ih' =>
    obtain ⟨ht, hrest⟩ := drop_cons htoks
    rw [read_cons]
    rcases token_phases (fun w d hF => hdescend i t c w d hF ht) (fun w hF => hleave i t c w hF ht)
      hnext hset (fun w hG => hpush i t c w ht hG) rest.head? hstart with ⟨d, hF, h⟩ | h
    · rw [h]
      exact ih (i + 1) d false w hrest hF
    · generalize readToken x e push c i input t rest.head? w = s at h ⊢
      cases s with
      | stop err w' => exact h
      | one c' input' w' =>
        obtain ⟨rfl, rfl, hG⟩ := h
        exact ih (i + 1) c' true w' hrest hG
      | two w' => exact ih' (i + 2) c true w' (drop_next htoks).2 h

end

end LibeventHttpServe.Flags
