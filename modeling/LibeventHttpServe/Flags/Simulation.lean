import LibeventHttpServe.Flags.Phases
import LibeventHttpServe.Flags.Rounds

/-!
# The loop of execute reads token by token

The rounds of the loop that deal with one token do what `readToken` does, so that
`ppp_c_flags_execute` ends as `read` does.
-/

namespace LibeventHttpServe.Flags

open LibeventHttpServe.Lib

section

variable {σ : Type} {x : Input} {e : Env σ}

/-- `ppp_c_flags_push_args` on the collected arguments alone. -/
def pushAt (x : Input) (e : Env σ) (i : ℕ) (t : Bytes) (b : HandlerArgs) : Bool × HandlerArgs :=
  pushArg e.malloc (x.argc - i) t b

/-- The loop is about to look at the token number `i`. -/
structure At (c : Ptr) (i : ℕ) (input : Bool) (w : World HandlerArgs σ) (a : Args σ) : Prop where
  command : a.command = c
  i : a.i = i
  input : a.input = input
  world : a.world = w
  state : a.state = .none

/-- The round ends the token number `i` as the step of the reading does. -/
def Matches (c : Ptr) (i : ℕ) : Step HandlerArgs σ → Next σ → Prop
  | .one c' input w, .loop a => At c' (i + 1) input w a
  | .two w, .loop a => At c (i + 2) true w a
  | .stop err w, .ret r => r = ⟨err, c, 0, w⟩
  | _, _ => False

section Round

variable {a : Args σ}

theorem matches_positional (s : Str) :
    Matches a.command a.i (readPositional (pushAt x e) a.command a.i s.text a.world)
      (pushArgs x e a s) := by
  unfold readPositional pushArgs pushAt
  rcases pushArg e.malloc (x.argc - a.i) s.text a.world.args with ⟨ok, b⟩
  cases ok with
  | true => exact ⟨rfl, rfl, rfl, rfl, rfl⟩
  | false => exact rfl

theorem matches_assign (hin : a.input = true) (f : Flag) (skip : ℕ) (short : Bool) :
    Matches a.command a.i (readAssign x e a.command a.i f (a.s.add skip).text short a.world)
      (nextFlagsSet x e a f skip short) := by
  unfold readAssign nextFlagsSet
  dsimp only
  rcases a.world.setFlag e f (a.s.add skip).text (x.argc - a.i - 1) with ⟨bad, w⟩
  cases bad with
  | true => exact rfl
  | false => exact ⟨rfl, rfl, hin, rfl, rfl⟩

theorem matches_bare (hin : a.input = true) (f : Flag) (short : Bool) :
    Matches a.command a.i
      (readBare x e a.command a.i f short x.argv[a.i + 1]? a.world)
      (nextFlagsSetValue x e a f short) := by
  unfold readBare nextFlagsSetValue
  by_cases hb : f.type.elem = .bool
  · rw [if_pos hb, if_pos hb]
    exact ⟨rfl, rfl, hin, rfl, rfl⟩
  rw [if_neg hb, if_neg hb]
  cases x.argv[a.i + 1]? with
  | none => exact rfl
  | some v =>
    dsimp only
    rcases a.world.setFlag e f v (x.argc - a.i - 1) with ⟨bad, w⟩
    cases bad with
    | true => exact rfl
    | false => exact ⟨rfl, rfl, hin, rfl, rfl⟩

theorem nextHelp_cases (skip : ℕ) (short : Bool) :
    (helpWord (a.s.add skip).text = .helpOff ∧ nextHelp a skip short =
        .loop { a with s := a.s.add skip, i := a.i + 1, state := .none }) ∨
      (helpWord (a.s.add skip).text = .help ∧
        nextHelp a skip short = a.stop 0 a.world [.help a.command]) ∨
      (helpWord (a.s.add skip).text = .helpBad (a.s.add skip).text ∧
        nextHelp a skip short = a.stop errorInvalidArgument a.world
          [.message (.invalidHelp short (a.s.add skip).text), .usage a.command]) := by
  unfold nextHelp helpWord
  dsimp only
  generalize parseBool (a.s.add skip).text (a.s.add skip).text.length = p
  cases p with
  | error f => exact Or.inr (Or.inr ⟨rfl, rfl⟩)
  | ok n =>
    by_cases h0 : n = 0
    · subst h0
      exact Or.inl ⟨rfl, rfl⟩
    by_cases h1 : n = 1
    · subst h1
      exact Or.inr (Or.inl ⟨rfl, rfl⟩)
    · right
      right
      constructor
      · split <;> simp_all
      · split <;> simp_all

theorem matches_long (hin : a.input = true) {t body : Bytes} (hs : a.s.text = body)
    (ht : (a.s.sub 2).text = t) :
    Matches a.command a.i
      (readLong x e (pushAt x e) a.command a.i t body x.argv[a.i + 1]? a.world)
      (nextFlags x e a) := by
  unfold readLong nextFlags longWord
  dsimp only
  rw [hs]
  by_cases h1 : body = text "help"
  · rw [if_pos h1, if_pos h1]
    exact rfl
  rw [if_neg h1, if_neg h1]
  by_cases h2 : 4 < body.length ∧ body.take 5 = text "help="
  · rw [if_pos h2, if_pos h2]
    have hv : body.drop 5 = (a.s.add 5).text := by
      rw [← hs]
      simp only [Str.text, Str.add, List.drop_drop]
    rw [hv]
    rcases nextHelp_cases (a := a) 5 false with ⟨h, hn⟩ | ⟨h, hn⟩ | ⟨h, hn⟩
    · rw [h, hn]
      exact ⟨rfl, rfl, hin, rfl, rfl⟩
    · rw [h, hn]
      exact rfl
    · rw [h, hn]
      exact rfl
  rw [if_neg h2, if_neg h2]
  cases hf : findFlag body (x.commands.flag a.command) with
  | none =>
    dsimp only
    by_cases ha : x.allowUnknow = true
    · rw [if_pos ha, if_pos ha, ← ht]
      exact matches_positional _
    · rw [if_neg ha, if_neg ha]
      exact rfl
  | some r =>
    obtain ⟨f, eq⟩ := r
    cases eq with
    | false => exact matches_bare hin f false
    | true =>
      have hv : body.drop (f.name.length + 1) = (a.s.add (f.name.length + 1)).text := by
        rw [← hs]
        simp only [Str.text, Str.add, List.drop_drop]
      dsimp only
      rw [hv]
      exact matches_assign hin f (f.name.length + 1) false

/- One round on a short token is the reading of its next name, or moves on to
the name behind it. -/
theorem matches_short (hin : a.input = true) {t : Bytes} {k : UInt8} {body : Bytes}
    {first : Bool} (hs : a.s.text = k :: body) (hfirst : a.shortInput = !first)
    (ht : first = true → (a.s.sub 1).text = t) :
    (∃ f, shortWord (x.commands.flag a.command) (k :: body) = .member f ∧
      nextShort x e a = .loop { a with
        s := a.s.add 1, shortInput := true
        world := (a.world.setFlag e f (text "1") (x.argc - a.i)).2 }) ∨
    ((∀ f, shortWord (x.commands.flag a.command) (k :: body) ≠ .member f) ∧
      Matches a.command a.i
        (readShort x e (pushAt x e) a.command a.i t x.argv[a.i + 1]? first (k :: body) a.world)
        (nextShort x e a)) := by
  have hadd : ∀ n, (k :: body).drop n = (a.s.add n).text := by
    intro n
    rw [← hs]
    simp only [Str.text, Str.add, List.drop_drop]
  unfold readShort nextShort shortWord
  dsimp only
  rw [hs]
  by_cases h1 : k :: body = text "h"
  · right
    rw [if_pos h1, if_pos h1]
    exact ⟨fun f => by simp, rfl⟩
  rw [if_neg h1, if_neg h1]
  by_cases h2 : 1 < (k :: body).length ∧ (k :: body).take 2 = text "h="
  · right
    rw [if_pos h2, if_pos h2, hadd]
    rcases nextHelp_cases (a := a) 2 true with ⟨h, hn⟩ | ⟨h, hn⟩ | ⟨h, hn⟩
    · rw [h, hn]
      exact ⟨fun f => by simp, rfl, rfl, hin, rfl, rfl⟩
    · rw [h, hn]
      exact ⟨fun f => by simp, rfl⟩
    · rw [h, hn]
      exact ⟨fun f => by simp, rfl⟩
  rw [if_neg h2, if_neg h2]
  cases hf : findShort (k :: body) (x.commands.flag a.command) with
  | none =>
    right
    dsimp only
    refine ⟨fun f => by simp, ?_⟩
    by_cases ha : first = true ∧ x.allowUnknow = true
    · have hshort : a.shortInput = false := by
        rw [hfirst, ha.1]
        rfl
      rw [if_pos ha, if_pos ⟨hshort, ha.2⟩, ← ht ha.1]
      exact matches_positional _
    · have hno : ¬ (a.shortInput = false ∧ x.allowUnknow = true) := by
        intro h
        apply ha
        refine ⟨?_, h.2⟩
        rw [hfirst] at h
        simpa using h.1
      rw [if_neg ha, if_neg hno]
      exact rfl
  | some f =>
    dsimp only
    by_cases hlen : (k :: body).length = 1
    · right
      rw [if_pos hlen, if_pos hlen]
      exact ⟨fun f => by simp, matches_bare hin f true⟩
    rw [if_neg hlen, if_neg hlen]
    by_cases heq : (k :: body)[1]? = some (ascii '=')
    · right
      rw [if_pos heq, if_pos heq, hadd]
      exact ⟨fun f => by simp, matches_assign hin f 2 true⟩
    rw [if_neg heq, if_neg heq]
    by_cases hbool : f.type.elem = .bool
    · left
      rw [if_pos hbool, if_pos hbool]
      exact ⟨f, rfl, rfl⟩
    · right
      rw [if_neg hbool, if_neg hbool, hadd]
      exact ⟨fun f => by simp, matches_assign hin f 1 true⟩

end Round

theorem helpWord_ne_member (v : Bytes) (f : Flag) : helpWord v ≠ .member f := by
  unfold helpWord
  split <;> simp

theorem shortWord_single (flags : List Flag) (k : UInt8) (f : Flag) :
    shortWord flags [k] ≠ .member f := by
  unfold shortWord
  split
  · simp
  split
  · exact helpWord_ne_member _ f
  split <;> simp

/-- The rounds on a short token end as `readShort` does. The induction is on what
is left of the token: a member of a group leaves the other fields alone. -/
theorem matches_group {t : Bytes} (body : Bytes) {k : UInt8} (first : Bool) {a : Args σ}
    (hin : a.input = true) (hstate : a.state = .flagsShort) (hs : a.s.text = k :: body)
    (hfirst : a.shortInput = !first) (ht : first = true → (a.s.sub 1).text = t) :
    ∃ b, Inner x e a b ∧ Matches a.command a.i
      (readShort x e (pushAt x e) a.command a.i t x.argv[a.i + 1]? first (k :: body) a.world)
      (round x e b) := by
  have hround : round x e a = nextShort x e a := by
    simp only [round, hstate]
  induction body generalizing k first a with
  | nil =>
    rcases matches_short (x := x) (e := e) hin hs hfirst ht with ⟨f, hw, -⟩ | ⟨-, hm⟩
    · exact (shortWord_single _ _ _ hw).elim
    · exact ⟨a, .refl a, by rw [hround]; exact hm⟩
  | cons k' body ih =>
    rcases matches_short (x := x) (e := e) hin hs hfirst ht with ⟨f, hw, hnext⟩ | ⟨-, hm⟩
    · have htext : (a.s.add 1).text = k' :: body := by
        have hd : (a.s.add 1).text = a.s.text.drop 1 := by
          simp only [Str.text, Str.add, List.drop_drop]
        rw [hd, hs]
        rfl
      have hne : a.state ≠ .none := by
        rw [hstate]
        decide
      obtain ⟨b, hb, hm⟩ := ih false (k := k') (a := { a with
          s := a.s.add 1, shortInput := true
          world := (a.world.setFlag e f (text "1") (x.argc - a.i)).2 })
        hin hstate htext rfl (fun h => absurd h (by decide)) (by simp only [round, hstate])
      refine ⟨b, .head (hround.trans hnext) hne hb, ?_⟩
      rw [readShort, hw]
      exact hm
    · exact ⟨a, .refl a, by rw [hround]; exact hm⟩

/-- The tests of `ppp_c_flags_next_none` on the first two bytes. -/
def LongTest (t : Bytes) : Prop :=
  1 < t.length ∧ t[0]? = some (ascii '-') ∧ t[1]? = some (ascii '-') ∧ 2 < t.length

def ShortTest (t : Bytes) : Prop :=
  1 < t.length ∧ t[0]? = some (ascii '-') ∧ t[1]? ≠ some (ascii '-')

theorem tokenOf_tests (t : Bytes) :
    match tokenOf t with
    | .long body => LongTest t ∧ t.drop 2 = body
    | .short body => ¬ LongTest t ∧ ShortTest t ∧ t.drop 1 = body ∧ body ≠ []
    | .plain => ¬ LongTest t ∧ ¬ ShortTest t := by
  unfold LongTest ShortTest
  match t with
  | [] => simp [tokenOf]
  | [k] => simp [tokenOf]
  | k :: d :: body =>
    by_cases hk : k = ascii '-'
    · by_cases hd : d = ascii '-'
      · by_cases hb : body = []
        · simp [tokenOf, hk, hd, hb]
        · have hpos := List.length_pos_iff.mpr hb
          simp only [tokenOf, hk, hd, hb, if_true, if_false]
          exact ⟨⟨by simp, rfl, rfl, by simpa using hpos⟩, rfl⟩
      · simp [tokenOf, hk, hd]
    · simp [tokenOf, hk]

theorem matches_token {c : Ptr} {i : ℕ} {input : Bool} {w : World HandlerArgs σ} {a : Args σ}
    (ha : At c i input w a) {t : Bytes} (ht : x.argv[i]? = some t) :
    ∃ b, Inner x e a b ∧ Matches c i
      (readToken x e (pushAt x e) c i input t x.argv[i + 1]? w) (round x e b) := by
  obtain ⟨rfl, rfl, rfl, rfl, hstate⟩ := ha
  have hround : round x e a = nextNone x e a := by
    simp only [round, hstate]
  have hplain : ∀ a' : Args σ, (∃ s, a' = { a with s := s }) → Matches a.command a.i
      (readPositional (pushAt x e) a.command a.i t a.world) (pushArgs x e a' ⟨t, 0⟩) := by
    intro a' ha'
    obtain ⟨s, rfl⟩ := ha'
    exact matches_positional (a := { a with s := s }) ⟨t, 0⟩
  have htests := tokenOf_tests t
  unfold LongTest ShortTest at htests
  unfold readToken
  unfold nextNone at hround
  simp only [ht] at hround
  cases htok : tokenOf t with
  | long body =>
    rw [htok] at htests
    obtain ⟨hlong, hbody⟩ := htests
    rw [if_pos hlong] at hround
    refine ⟨_, .head hround (by simp) (.refl _), ?_⟩
    exact matches_long (a := { a with s := ⟨t, 2⟩, input := true, state := .flags }) rfl hbody rfl
  | short body =>
    rw [htok] at htests
    obtain ⟨hlong, hshort, hbody, hne⟩ := htests
    rw [if_neg hlong, if_pos hshort] at hround
    obtain ⟨k, body, rfl⟩ := List.exists_cons_of_ne_nil hne
    obtain ⟨b, hb, hm⟩ := matches_group (x := x) (e := e) (t := t) body true
      (a := { a with s := ⟨t, 1⟩, input := true, shortInput := false, state := .flagsShort })
      rfl rfl hbody rfl (fun _ => rfl)
    exact ⟨b, .head hround (by simp) hb, hm⟩
  | plain =>
    rw [htok] at htests
    obtain ⟨hlong, hshort⟩ := htests
    rw [if_neg hlong, if_neg hshort] at hround
    refine ⟨a, .refl a, ?_⟩
    rw [hround]
    by_cases hin : a.input = true
    · rw [if_pos hin, if_pos hin]
      exact hplain _ ⟨_, rfl⟩
    rw [if_neg hin, if_neg hin]
    cases hfind : (x.commands.child a.command).find? fun d => decide (d.2 = t) with
    | none => exact hplain _ ⟨_, rfl⟩
    | some d => exact ⟨rfl, rfl, by simpa using hin, rfl, hstate⟩

/-- How the loop ends after the reading `r`. -/
def finish (x : Input) (e : Env σ) (r : Reading HandlerArgs σ) : Result σ :=
  match r.stop with
  | none => call x e r.command r.world
  | some err => ⟨err, r.command, 0, r.world⟩

theorem matches_rest {c : Ptr} {i : ℕ} {s : Step HandlerArgs σ} {a b : Args σ} {r : Result σ}
    (hb : Rounds x e a b) (hm : Matches c i s (round x e b))
    (hrest : match s with
      | .one c' input w => ∀ b', At c' (i + 1) input w b' → ∃ n, rounds x e n b' = some r
      | .two w => ∀ b', At c (i + 2) true w b' → ∃ n, rounds x e n b' = some r
      | .stop err w => r = ⟨err, c, 0, w⟩) :
    ∃ n, rounds x e n a = some r := by
  have hloop : ∀ b', round x e b = .loop b' → (∃ n, rounds x e n b' = some r) →
      ∃ n, rounds x e n a = some r := by
    intro b' hr hn
    have hab := hb.tail hr
    clear hb hm hr hrest
    induction hab with
    | refl => exact hn
    | head h _ ih =>
      obtain ⟨n, hn⟩ := ih hn
      exact ⟨n + 1, by simp only [rounds, h, hn]⟩
  cases hr : round x e b with
  | loop b' =>
    rw [hr] at hm
    cases s with
    | one c' input w => exact hloop b' hr (hrest b' hm)
    | two w => exact hloop b' hr (hrest b' hm)
    | stop err w => exact hm.elim
  | ret r' =>
    rw [hr] at hm
    cases s with
    | one c' input w => exact hm.elim
    | two w => exact hm.elim
    | stop err w =>
      rw [hrest]
      rw [show r' = ⟨err, c, 0, w⟩ from hm] at hr
      exact hb.run hr

theorem rounds_end {c : Ptr} {i : ℕ} {input : Bool} {w : World HandlerArgs σ} {a : Args σ}
    (ha : At c i input w a) (hi : x.argv.length ≤ i) :
    ∃ n, rounds x e n a = some (call x e c w) := by
  have hround : round x e a = .ret (call x e c w) := by
    simp only [round, ha.state, nextNone, ha.i, List.getElem?_eq_none hi, ha.command, ha.world]
  exact ⟨1, by simp only [rounds, hround]⟩

/-- From any token on, the loop ends as the reading of the tokens that are left
does. -/
theorem rounds_read (toks : List Bytes) {c : Ptr} {i : ℕ} {input : Bool}
    {w : World HandlerArgs σ} {a : Args σ} (ha : At c i input w a) (ht : x.argv.drop i = toks) :
    ∃ n, rounds x e n a = some (finish x e (read x e (pushAt x e) toks i c input w)) := by
  induction toks using tokens_induction generalizing c i input w a with
  | nil => exact rounds_end ha (List.drop_eq_nil_iff.mp ht)
  | cons t rest ih ih' =>
    obtain ⟨htok, hrest⟩ := drop_cons ht
    obtain ⟨hval, htail⟩ := drop_next ht
    obtain ⟨b, hb, hm⟩ := matches_token (e := e) ha htok
    rw [hval] at hm
    rw [read_cons]
    generalize readToken x e (pushAt x e) c i input t rest.head? w = s at hm ⊢
    apply matches_rest hb.rounds hm
    cases s with
    | stop err w' => rfl
    | one c' input' w' => exact fun b' hb' => ih hb' hrest
    | two w' => exact fun b' hb' => ih' hb' htail

/-- `ppp_c_flags_execute` ends as the reading of its arguments does. -/
theorem execute_read (x : Input) (e : Env σ) (root : Ptr) (mem : σ) :
    ∃ n, execute x e root mem n =
      some (finish x e (read x e (pushAt x e) x.argv 0 root false ⟨mem, .start, []⟩)) :=
  rounds_read x.argv ⟨rfl, rfl, rfl, rfl, rfl⟩ rfl

theorem execute_unique {x : Input} {e : Env σ} {root : Ptr} {mem : σ} {n : ℕ} {r : Result σ}
    (h : execute x e root mem n = some r) :
    r = finish x e (read x e (pushAt x e) x.argv 0 root false ⟨mem, .start, []⟩) := by
  obtain ⟨m, hm⟩ := execute_read x e root mem
  have h1 := rounds_mono h (Nat.le_max_left n m)
  have h2 := rounds_mono hm (Nat.le_max_right n m)
  rw [h1, Option.some.injEq] at h2
  exact h2

theorem finish_command (r : Reading HandlerArgs σ) : (finish x e r).command = r.command := by
  unfold finish
  split
  · exact call_command _ _
  · rfl

theorem finish_oob (r : Reading HandlerArgs σ) :
    (finish x e r).world.args.oob = r.world.args.oob := by
  unfold finish
  split
  · exact (call_keeps _ _).2
  · rfl

theorem finish_world_mem (r : Reading HandlerArgs σ) :
    (finish x e r).world.mem = r.world.mem := by
  unfold finish
  split
  · exact (call_keeps _ _).1
  · rfl

theorem finish_mem {r : Reading HandlerArgs σ} {w : World HandlerArgs σ} (h : r.Ends w) :
    (finish x e r).world.mem = w.mem := by
  unfold Reading.Ends at h
  unfold finish
  cases hstop : r.stop with
  | none =>
    rw [hstop] at h
    subst h
    exact (call_keeps _ _).1
  | some err =>
    rw [hstop] at h
    rcases h with ⟨-, hw⟩ | ⟨-, es, -, hw⟩
    · rw [hw]
      rfl
    · rw [hw]
      rfl

/-- The handler of `c` is called with the collected arguments. -/
def Reading.Calls (x : Input) (r : Reading HandlerArgs σ) (c : Ptr) (g : Fn) (argc : ℕ)
    (argv : Option (List (Option Bytes))) : Prop :=
  r.stop = none ∧ c = r.command ∧ x.commands.handler r.command = some g ∧
    argc = r.world.args.argc ∧ argv = r.world.args.argv.map Block.cells

/- What the loop adds to the log after the last token: the call of the handler, or
the help or an error. -/
theorem finish_log {r : Reading HandlerArgs σ} {w : World HandlerArgs σ} (h : r.Ends w) :
    ∃ es, (finish x e r).world.log = w.log ++ es ∧ (∀ f s, Event.setFlag f s ∉ es) ∧
      ∀ c g argc argv, Event.call c g argc argv ∈ es ↔ r.Calls x c g argc argv := by
  unfold Reading.Ends at h
  unfold finish Reading.Calls
  cases hstop : r.stop with
  | none =>
    rw [hstop] at h
    subst h
    have hlog := call_log (x := x) (e := e) r.command r.world
    dsimp only
    cases hh : x.commands.handler r.command with
    | none =>
      rw [hh] at hlog
      refine ⟨[], ?_, fun f s => List.not_mem_nil, ?_⟩
      · rw [List.append_nil]
        exact hlog
      · intro c g argc argv
        apply iff_of_false List.not_mem_nil
        intro hc
        cases hc.2.2.1
    | some g =>
      rw [hh] at hlog
      refine ⟨_, hlog.1, ?_, ?_⟩
      · intro f s hm
        cases List.mem_singleton.mp hm
      · intro c g' argc argv
        constructor
        · intro hm
          cases List.mem_singleton.mp hm
          exact ⟨rfl, rfl, rfl, rfl, rfl⟩
        · intro hc
          obtain ⟨-, rfl, hg, rfl, rfl⟩ := hc
          cases hg
          exact List.mem_singleton.mpr rfl
  | some err =>
    rw [hstop] at h
    have hno : ∀ es : List Event, (∀ c g argc argv, Event.call c g argc argv ∉ es) →
        ∀ c g argc argv, Event.call c g argc argv ∈ es ↔ some err = none ∧ c = r.command ∧
          x.commands.handler r.command = some g ∧ argc = r.world.args.argc ∧
            argv = r.world.args.argv.map Block.cells := by
      intro es hes c g argc argv
      apply iff_of_false (hes c g argc argv)
      intro hc
      cases hc.1
    rcases h with ⟨-, hw⟩ | ⟨-, es, hes, hw⟩
    · refine ⟨[.help r.command], by rw [hw]; rfl, ?_, hno _ (call_notMem rfl)⟩
      intro f s hm
      cases List.mem_singleton.mp hm
    · refine ⟨es, by rw [hw]; rfl, ?_, hno _ (call_notMem (quiet_silent hes).1)⟩
      intro f s hm
      rcases hes _ hm with ⟨m, hm⟩ | ⟨c, hm⟩ <;> cases hm

/-- The calls in the log of a run. -/
theorem finish_calls {r : Reading HandlerArgs σ} {w : World HandlerArgs σ}
    (hw : calls w.log = []) (h : r.Ends w) (c : Ptr) (g : Fn) (argc : ℕ)
    (argv : Option (List (Option Bytes))) :
    Event.call c g argc argv ∈ (finish x e r).world.log ↔ r.Calls x c g argc argv := by
  obtain ⟨es, hlog, -, hcalls⟩ := finish_log (x := x) (e := e) h
  rw [hlog, List.mem_append, ← hcalls]
  constructor
  · intro hm
    exact hm.resolve_left (call_notMem hw c g argc argv)
  · exact Or.inr

/-- The flags set in the log of a run. -/
theorem finish_flags {r : Reading HandlerArgs σ} {w : World HandlerArgs σ} (h : r.Ends w)
    (f : Ptr) (s : Bytes) :
    Event.setFlag f s ∈ (finish x e r).world.log ↔ Event.setFlag f s ∈ w.log := by
  obtain ⟨es, hlog, hno, -⟩ := finish_log (x := x) (e := e) h
  rw [hlog, List.mem_append]
  constructor
  · intro hm
    exact hm.resolve_right (hno f s)
  · exact Or.inl

/-- A call stores what the handler returns. -/
theorem finish_result {r : Reading HandlerArgs σ} {w : World HandlerArgs σ} (h : r.Ends w)
    {c : Ptr} {g : Fn} {argc : ℕ} {argv : Option (List (Option Bytes))}
    (hc : r.Calls x c g argc argv) :
    (finish x e r).handlerResult = e.handler g c argc argv w.mem := by
  obtain ⟨hstop, rfl, hg, rfl, rfl⟩ := hc
  unfold Reading.Ends at h
  rw [hstop] at h
  subst h
  have hlog := call_log (x := x) (e := e) r.command r.world
  rw [hg] at hlog
  unfold finish
  rw [hstop]
  exact hlog.2

end

end LibeventHttpServe.Flags
