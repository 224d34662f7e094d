import LibeventHttpServe.Flags.Spelling

/-!
# Groups of short names (flags.c:2467-2530, 2658-2732)

Bool flags before other short names in one token are the same as a token for each.
-/

namespace LibeventHttpServe.Flags

/-- `-ab...r` for the bool flags `a`, `b`, ... and what follows them. -/
def groupToken (fs : List Flag) (r : Bytes) : Bytes :=
  ascii '-' :: (fs.map (fun f => f.shortName) ++ r)

/-- `-a` `-b` ... `-r`. -/
def separateTokens (fs : List Flag) (r : Bytes) : List Bytes :=
  fs.map (fun f => [ascii '-', f.shortName]) ++ [ascii '-' :: r]

section Group

variable {β σ : Type} {x : Input} {e : Env σ} {push : ℕ → Bytes → β → Bool × β}

/- When no option may be unknown, the token matters only by what is left of it. -/
theorem readShort_rest (hallow : x.allowUnknow = false) (c : Ptr) (i : ℕ) (t t' : Bytes)
    (value : Option Bytes) (first first' : Bool) (body : Bytes) (w : World β σ) :
    readShort x e push c i t value first body w =
      readShort x e push c i t' value first' body w := by
  induction body generalizing first first' w with
  | nil => rfl
  | cons k body ih =>
    have hno (b : Bool) : ¬ (b = true ∧ x.allowUnknow = true) := by simp [hallow]
    unfold readShort
    cases shortWord (x.commands.flag c) (k :: body) with
    | member f => exact ih false false _
    | unknown =>
      dsimp only
      rw [if_neg (hno first), if_neg (hno first')]
    | help => rfl
    | helpOff => rfl
    | helpBad v => rfl
    | assign f v => rfl
    | bare f => rfl

variable {k : Callbacks} {c : Commands} {p : Ptr} {f : Flag}

/-- A bool flag alone in its token. -/
theorem reading_single (h : OwnNames (c.flag p) f) (hbool : f.type.elem = .bool)
    (hshort : f.shortName ≠ 0 ∧ f.shortName ≠ ascii '-') (rest : List Bytes) (input : Bool)
    (w : World (List Bytes) Values) :
    k.reading c false ([ascii '-', f.shortName] :: rest) p input w =
      k.reading c false rest p true (w.setFlag k.valueEnv f (text "1") 0).2 := by
  have hsingle : readToken ⟨c, [], false⟩ k.valueEnv pushText p 0 input [ascii '-', f.shortName]
      rest.head? w = .one p true (w.setFlag k.valueEnv f (text "1") 0).2 := by
    simp only [readToken, tokenOf_short hshort.2, readShort, shortWord_own h hshort.1, if_true,
      readBare, hbool]
    rfl
  rw [reading_cons, hsingle]

/-- One bool flag and what is behind it in its token. -/
theorem reading_member (h : OwnNames (c.flag p) f) (hbool : f.type.elem = .bool)
    (hshort : f.shortName ≠ 0 ∧ f.shortName ≠ ascii '-') {b : UInt8} (r : Bytes)
    (hb : b ≠ ascii '=' ∧ b ≠ ascii '-') (post : List Bytes) (input : Bool)
    (w : World (List Bytes) Values) :
    k.reading c false ((ascii '-' :: f.shortName :: b :: r) :: post) p input w =
      k.reading c false ([ascii '-', f.shortName] :: (ascii '-' :: b :: r) :: post) p input w := by
  have hgroup : readToken ⟨c, [], false⟩ k.valueEnv pushText p 0 input
      (ascii '-' :: f.shortName :: b :: r) post.head? w =
        readShort ⟨c, [], false⟩ k.valueEnv pushText p 0 (ascii '-' :: f.shortName :: b :: r)
          post.head? false (b :: r) (w.setFlag k.valueEnv f (text "1") 0).2 := by
    simp only [readToken, tokenOf_short hshort.2]
    rw [readShort, shortWord_own h hshort.1]
    simp only [List.cons_ne_nil, if_false, List.head?_cons, Option.some.injEq, hb.1, hbool, if_true]
    rfl
  have hlast (w : World (List Bytes) Values) : readToken ⟨c, [], false⟩ k.valueEnv pushText p 0
      true (ascii '-' :: b :: r) post.head? w =
        readShort ⟨c, [], false⟩ k.valueEnv pushText p 0 (ascii '-' :: b :: r) post.head? true
          (b :: r) w := by
    simp only [readToken, tokenOf_short hb.2]
  rw [reading_single h hbool hshort, reading_cons, reading_cons, hgroup, hlast,
    readShort_rest rfl p 0 _ (ascii '-' :: b :: r) post.head? false true]

/-- A group of bool flags and what is behind them. -/
theorem reading_group {fs : List Flag} (hfs : ∀ f ∈ fs, OwnNames (c.flag p) f ∧
      f.type.elem = .bool ∧ f.shortName ≠ 0 ∧ f.shortName ≠ ascii '-')
    (heq : ∀ f ∈ fs.tail, f.shortName ≠ ascii '=') {b : UInt8} (r : Bytes)
    (hb : b ≠ ascii '=' ∧ b ≠ ascii '-') (post : List Bytes) (input : Bool)
    (w : World (List Bytes) Values) :
    k.reading c false (groupToken fs (b :: r) :: post) p input w =
      k.reading c false (separateTokens fs (b :: r) ++ post) p input w := by
  induction fs generalizing input w with
  | nil => rfl
  | cons f fs ih =>
    obtain ⟨hown, hbool, hshort⟩ := hfs f List.mem_cons_self
    -- the next name is that of the next flag, or `b`
    obtain ⟨b', r', hrest, hb'⟩ : ∃ b' r', fs.map (fun f => f.shortName) ++ b :: r = b' :: r' ∧
        b' ≠ ascii '=' ∧ b' ≠ ascii '-' := by
      cases fs with
      | nil => exact ⟨b, r, rfl, hb⟩
      | cons g fs =>
        exact ⟨g.shortName, _, rfl, heq g List.mem_cons_self,
          (hfs g (List.mem_cons_of_mem f List.mem_cons_self)).2.2.2⟩
    have hgroup : groupToken (f :: fs) (b :: r) = ascii '-' :: f.shortName :: b' :: r' := by
      rw [groupToken, List.map_cons, List.cons_append, hrest]
    have htail : ascii '-' :: b' :: r' = groupToken fs (b :: r) := by
      rw [groupToken, hrest]
    have hseparate : separateTokens (f :: fs) (b :: r) ++ post =
        [ascii '-', f.shortName] :: (separateTokens fs (b :: r) ++ post) := rfl
    rw [hgroup, reading_member hown hbool hshort r' hb', htail, hseparate,
      reading_single hown hbool hshort, reading_single hown hbool hshort]
    exact ih (fun g hg => hfs g (List.mem_cons_of_mem f hg))
      (fun g hg => heq g (List.mem_of_mem_tail hg)) true _

end Group

/-- Over a reachable registry, when no option may be unknown: a group of bool flags of a
command in one token, with anything behind them that is neither a value nor a `'-'`, shows
the same as a token for each. -/
theorem groups_separate {t : Registry} (ht : registrySystem.Reachable t) {v : Forest}
    (hst : Stores t v) {c : Ptr} {fs : List Flag} (hfs : ∀ f ∈ fs, f ∈ v.commands.flag c ∧
      f.type.elem = .bool ∧ f.shortName ≠ 0 ∧ f.shortName ≠ ascii '-')
    (heq : ∀ f ∈ fs.tail, f.shortName ≠ ascii '=') {b : UInt8} {r : Bytes}
    (hb : b ≠ ascii '=' ∧ b ≠ ascii '-') (k : Callbacks)
    (hargv : ∀ n size, k.argv n size = true) {m : FlagMemory} (hready : Ready v m) {root : Ptr}
    {pre post : List Bytes} {a : Args FlagMemory}
    (hpos : Reaches ⟨v.commands, pre ++ groupToken fs (b :: r) :: post, false⟩ k.env root m
      pre.length a) (hc : a.command = c) :
    SameRuns k ⟨v.commands, pre ++ groupToken fs (b :: r) :: post, false⟩
      ⟨v.commands, pre ++ (separateTokens fs (b :: r) ++ post), false⟩ root m := by
  obtain ⟨w, hw, hv⟩ := forest_reachable ht
  obtain rfl := hst.unique hw
  subst hc
  refine sameRuns_of_reading hready hargv hpos fun u => ?_
  have hown : ∀ f ∈ fs, OwnNames (v.commands.flag a.command) f ∧ f.type.elem = .bool ∧
      f.shortName ≠ 0 ∧ f.shortName ≠ ascii '-' := by
    intro f hf
    obtain ⟨hlisted, hrest⟩ := hfs f hf
    exact ⟨listed_names hv hlisted, hrest⟩
  rw [reading_group hown heq r hb]

def verbose : Flag :=
  ⟨⟨8, false, ⟨.bool, false⟩, text "verbose", ascii 'v', none, ⟨.bool, false⟩, none⟩, 2⟩

theorem verbose_listed : ∃ s v, registrySystem.exec (oneFlag "verbose" 'v' 1) ⟨∅, ∅⟩ = some s ∧
    registrySystem.Reachable s ∧ Stores s v ∧ v.commands.flag 1 = [verbose] :=
  oneFlag_listed "verbose" 'v' 1 (d := verbose.toFlagData) (by decide)

theorem groups_separate_verbose :
    ∃ s v, registrySystem.exec (oneFlag "verbose" 'v' 1) ⟨∅, ∅⟩ = some s ∧ Stores s v ∧
      SameRuns plainCallbacks ⟨v.commands, [text "-vvh"], false⟩
        ⟨v.commands, [text "-v", text "-v", text "-h"], false⟩ 1 emptyMemory := by
  obtain ⟨s, v, hs, hreach, hst, hflags⟩ := verbose_listed
  refine ⟨s, v, hs, hst, ?_⟩
  have hfs : ∀ g ∈ [verbose, verbose], g ∈ v.commands.flag 1 ∧ g.type.elem = .bool ∧
      g.shortName ≠ 0 ∧ g.shortName ≠ ascii '-' := by
    rw [hflags]
    decide
  have hpos : Reaches ⟨v.commands, [] ++ groupToken [verbose, verbose] (ascii 'h' :: []) :: [],
      false⟩ plainCallbacks.env 1 emptyMemory 0 (.start 1 emptyMemory) := ⟨.refl _, rfl, rfl⟩
  exact groups_separate hreach hst hfs (by decide) (by decide) plainCallbacks (fun _ _ => rfl)
    (ready_empty v) hpos rfl

end LibeventHttpServe.Flags
