import LibeventHttpServe.Flags.Console
import LibeventHttpServe.Flags.Spelling

/-!
# Pages and arguments (flags.c:2287-2774)

The names on the first line of a page lead a run to the command of the page, and the
options on the page are the ones that the command knows.
-/

namespace LibeventHttpServe.Flags

open LibeventHttpServe.Lib

/-! ### Names that lead to a command -/

section Path

variable {β σ : Type} {x : Input} {e : Env σ} {push : ℕ → Bytes → β → Bool × β} {v : Forest}

theorem token_child (hv : WellFormed v) (hx : x.commands = v.commands) {p c : Ptr} {t : Bytes}
    (h : ChildNamed v p t c) (i : ℕ) (value : Option Bytes) (w : World β σ) :
    readToken x e push p i false t value w = .one c false w := by
  unfold readToken
  rw [tokenOf_head (h.plain hv), hx]
  dsimp only
  rw [if_neg Bool.false_ne_true]
  cases hfind : (v.commands.child p).find? fun d => decide (d.2 = t) with
  | none => exact (find_none hfind h).elim
  | some q =>
    rw [h.unique hv (find_some hfind)]

/-- The tokens of a path are read as its commands. -/
theorem read_path (hv : WellFormed v) (hx : x.commands = v.commands) {p c : Ptr}
    {ts : List Bytes} (h : Path v p ts c) (rest : List Bytes) (i : ℕ) (w : World β σ) :
    read x e push (ts ++ rest) i p false w = read x e push rest (i + ts.length) c false w := by
  induction h generalizing i with
  | nil p => rfl
  | @cons p c d t ts hchild _ ih =>
    rw [List.cons_append, read_cons, token_child hv hx hchild]
    show read x e push (ts ++ rest) (i + 1) c false w = _
    rw [ih (i + 1), List.length_cons, Nat.add_assoc, Nat.add_comm 1]

end Path

/-! ### Asking for help -/

/-- The token asks for the help of the command. -/
inductive AsksHelp : Bytes → Prop where
  | long : AsksHelp (text "--help")
  | short : AsksHelp (text "-h")
  | longValue {s : Bytes} (h : parseBool s s.length = .ok 1) : AsksHelp (text "--help=" ++ s)
  | shortValue {s : Bytes} (h : parseBool s s.length = .ok 1) : AsksHelp (text "-h=" ++ s)

section Help

variable {β σ : Type} {x : Input} {e : Env σ} {push : ℕ → Bytes → β → Bool × β} {v : Forest}

theorem helpWord_true {s : Bytes} (h : parseBool s s.length = .ok 1) : helpWord s = .help := by
  simp [helpWord, h]

theorem token_help {t : Bytes} (h : AsksHelp t) (c : Ptr) (i : ℕ) (input : Bool)
    (value : Option Bytes) (w : World β σ) :
    readToken x e push c i input t value w = .stop 0 (w.emit [.help c]) := by
  cases h with
  | long => rfl
  | short => rfl
  | @longValue s h =>
    have htoken : tokenOf (text "--help=" ++ s) = .long (text "help=" ++ s) :=
      tokenOf_long (n := text "help=" ++ s) nofun
    have hword : longWord (x.commands.flag c) (text "help=" ++ s) = helpWord s := by
      rw [longWord, if_neg, if_pos]
      · rfl
      · exact ⟨by simp [text], rfl⟩
      · intro heq
        have hlen := congrArg List.length heq
        simp [text] at hlen
    simp only [readToken, htoken, readLong, hword, helpWord_true h]
  | @shortValue s h =>
    have htoken : tokenOf (text "-h=" ++ s) = .short (text "h=" ++ s) :=
      tokenOf_short (k := ascii 'h') (by decide) (ascii '=' :: s)
    have hword : shortWord (x.commands.flag c) (ascii 'h' :: ascii '=' :: s) = helpWord s := by
      rw [shortWord, if_neg, if_pos]
      · rfl
      · exact ⟨by simp, rfl⟩
      · intro heq
        have hlen := congrArg List.length heq
        simp [text] at hlen
    unfold readToken
    rw [htoken]
    show readShort x e push c i _ value true (ascii 'h' :: ascii '=' :: s) w = _
    simp only [readShort, hword, helpWord_true h]

/-- From a root, the names that lead to a command and a token that asks for help print the
help of the command, whose first line has these names, and nothing else happens. -/
theorem help_page {d : PrintData} {s : Registry} (hs : textSystem.Reachable s)
    (hst : Stores s v) (hd : Terminated d v) {root c : Ptr} {y : CommandView}
    (hy : v.command root = some y) (hroot : y.parent = none) {ts : List Bytes}
    (hpath : Path v root ts c) (hx : x.commands = v.commands) {t : Bytes} (ht : AsksHelp t)
    {rest : List Bytes} (hargv : x.argv = ts ++ t :: rest) (mem : σ) :
    ∃ n, execute x e root mem n = some ⟨0, c, 0, ⟨mem, .start, [.help c]⟩⟩ ∧
      output d s [.help c] = .ok (v.help d (y.name :: ts) c) := by
  obtain ⟨w, hw, hv⟩ := forest_reachable (System.reachable_of_restrict hs)
  obtain rfl := hst.unique hw
  obtain ⟨z, hz⟩ := path_live hpath hy
  obtain ⟨n, hn⟩ := execute_read x e root mem
  refine ⟨n, ?_, ?_⟩
  · rw [hn, hargv, read_path hv hx hpath, read_cons, token_help ht]
    rfl
  · have husage := printUsage_page hst hv (printable_of_text hs hst hd) hy hroot hpath hz
    simp only [output, Event.output, print_help hst hz husage, pure_eq_ok, ok_bind,
      List.append_nil]

end Help

theorem help_page_get : ∃ s v y, textSystem.exec twoCommands ⟨∅, ∅⟩ = some s ∧ Stores s v ∧
    v.command 1 = some y ∧
    ∃ n, execute ⟨v.commands, [text "get"] ++ (text "--help=" ++ text "true") :: [], false⟩
        acceptAll 1 () n = some ⟨0, 2, 0, ⟨(), .start, [.help 2]⟩⟩ ∧
      output noDefaults s [.help 2] = .ok (v.help noDefaults (y.name :: [text "get"]) 2) := by
  have hobs : (textSystem.exec twoCommands ⟨∅, ∅⟩).map (fun s =>
      ((s.commands.lookup 1).map CommandNode.parent,
        (s.commands.lookup 2).map fun n => (n.name, n.parent))) =
      some (some none, some (text "get", some 1)) := by
    decide
  obtain ⟨s, hs, hlive⟩ := Option.map_eq_some_iff.mp hobs
  obtain ⟨happ, hget⟩ := Prod.mk.injEq .. ▸ hlive
  obtain ⟨n, hn, hnroot⟩ := Option.map_eq_some_iff.mp happ
  obtain ⟨m, hm, hmdata⟩ := Option.map_eq_some_iff.mp hget
  obtain ⟨hmname, hmparent⟩ := Prod.mk.injEq .. ▸ hmdata
  have hreach : textSystem.Reachable s := System.reachable_exec (.init rfl) hs
  obtain ⟨v, hst, hv⟩ := forest_reachable (System.reachable_of_restrict hreach)
  obtain ⟨y, hy, -, hyparent⟩ := hst.view hn
  obtain ⟨z, hz, hzdata, hzparent⟩ := hst.view hm
  obtain ⟨y', hy', hmem⟩ := hv.listed 2 z 1 hz (by rw [← hzparent, hmparent])
  have hname : z.name = text "get" := by
    rw [← hmname, hzdata]
  have hpath : Path v 1 [text "get"] 2 := .cons ⟨y', z, hy', hmem, hz, hname⟩ (.nil 2)
  have hroot : y.parent = none := by
    rw [← hyparent, hnroot]
  exact ⟨s, v, y, hs, hst, hy, help_page hreach hst (noDefaults_terminated v) hy hroot hpath
    (x := ⟨v.commands, [text "get"] ++ (text "--help=" ++ text "true") :: [], false⟩) rfl
    (.longValue (by decide)) rfl ()⟩

/-! ### The options that a command knows -/

/-- A value behind a name, or none. -/
def Assigned (tail : Bytes) : Prop := tail = [] ∨ ∃ s, tail = ascii '=' :: s

section Words

variable {fs : List Flag} {n tail : Bytes} {k : UInt8}

theorem assigned_name (ht : Assigned tail) (hn : ascii '=' ∉ n) {m : Bytes} (hm : ascii '=' ∉ m)
    (hne : m ≠ n) : n ++ tail ≠ m ∧ ¬ ∃ r, n ++ tail = m ++ ascii '=' :: r := by
  rcases ht with rfl | ⟨s, rfl⟩
  · rw [List.append_nil]
    refine ⟨Ne.symm hne, ?_⟩
    rintro ⟨r, rfl⟩
    simp at hn
  · refine ⟨?_, ?_⟩
    · rintro rfl
      simp at hm
    · rintro ⟨r, hr⟩
      exact hne (split_first hr hn hm).1.symm

theorem findFlag_none (ht : Assigned tail) (hn : ascii '=' ∉ n)
    (hno : ∀ g ∈ fs, ascii '=' ∉ g.name) :
    findFlag (n ++ tail) fs = none ↔ n ∉ fs.map fun g => g.name := by
  induction fs with
  | nil => simp [findFlag]
  | cons g fs ih =>
    have hrec := ih fun h hh => hno h (List.mem_cons_of_mem _ hh)
    have hgno := hno g List.mem_cons_self
    unfold findFlag
    by_cases hg : g.name = n
    · rcases ht with rfl | ⟨s, rfl⟩
      · rw [List.append_nil, if_pos hg.symm]
        simp [hg]
      · have hassigned := assigned_iff.mpr ⟨s, (rfl : n ++ ascii '=' :: s = _)⟩
        rw [hg]
        rw [if_neg (by simp), if_pos hassigned]
        simp [hg]
    · obtain ⟨hwhole, hassign⟩ := assigned_name ht hn hgno hg
      rw [if_neg hwhole, if_neg fun h => hassign (assigned_iff.mp h), hrec]
      simp [Ne.symm hg]

theorem helpWord_known (s : Bytes) : helpWord s ≠ .unknown := by
  unfold helpWord
  split <;> nofun

/-- A name that is no word of its command is neither `help` nor listed. -/
theorem longWord_unknown (ht : Assigned tail) (hn : ascii '=' ∉ n)
    (hno : ∀ g ∈ fs, ascii '=' ∉ g.name) :
    (longWord fs (n ++ tail) = .unknown ↔ n ≠ text "help" ∧ n ∉ fs.map fun g => g.name) ∧
      ∀ f, longWord fs (n ++ tail) ≠ .member f := by
  unfold longWord
  by_cases hhelp : n = text "help"
  · subst hhelp
    rcases ht with rfl | ⟨s, rfl⟩
    · simp
    · rw [if_neg, if_pos]
      · simp [helpWord_known, helpWord_ne_member]
      · exact ⟨by simp [text], rfl⟩
      · simp
  · obtain ⟨hwhole, hassign⟩ := assigned_name ht hn (m := text "help") (by decide) (Ne.symm hhelp)
    have hask : ¬ (4 < (n ++ tail).length ∧ (n ++ tail).take 5 = text "help=") := by
      intro hask
      refine hassign ⟨(n ++ tail).drop 5, ?_⟩
      have heq : text "help=" = text "help" ++ [ascii '='] := rfl
      rw [← List.singleton_append, ← List.append_assoc, ← heq, ← hask.2, List.take_append_drop]
    rw [if_neg hwhole, if_neg hask, ← findFlag_none ht hn hno]
    cases findFlag (n ++ tail) fs with
    | none => simp [hhelp]
    | some q =>
      obtain ⟨f, b⟩ := q
      cases b <;> simp

theorem findShort_none (hk : k ≠ 0) :
    findShort (k :: tail) fs = none ↔ k ∉ fs.map fun g => g.shortName := by
  induction fs with
  | nil => simp [findShort]
  | cons g fs ih =>
    unfold findShort
    by_cases hg : g.shortName = k
    · rw [if_pos ⟨hg ▸ hk, by rw [hg]; rfl⟩]
      simp [hg]
    · have hno : ¬ (g.shortName ≠ 0 ∧ (k :: tail)[0]? = some g.shortName) := by
        intro h
        exact hg (Option.some.inj h.2).symm
      rw [if_neg hno, ih]
      simp [Ne.symm hg]

theorem shortWord_unknown (ht : Assigned tail) (hk : k ≠ 0) :
    (shortWord fs (k :: tail) = .unknown ↔
      k ≠ ascii 'h' ∧ k ∉ fs.map fun g => g.shortName) ∧
      ∀ f, shortWord fs (k :: tail) ≠ .member f := by
  unfold shortWord
  by_cases hhelp : k = ascii 'h'
  · subst hhelp
    rcases ht with rfl | ⟨s, rfl⟩
    · have hwhole : [ascii 'h'] = text "h" := rfl
      rw [if_pos hwhole]
      simp
    · rw [if_neg, if_pos]
      · exact ⟨by simp [helpWord_known], helpWord_ne_member _⟩
      · exact ⟨by simp, rfl⟩
      · intro heq
        have hlen := congrArg List.length heq
        simp [text] at hlen
  · have hwhole : k :: tail ≠ text "h" := fun h => hhelp (List.cons.inj h).1
    have hask : ¬ (1 < (k :: tail).length ∧ (k :: tail).take 2 = text "h=") := by
      intro h
      rw [List.take_succ_cons] at h
      exact hhelp (List.cons.inj h.2).1
    rw [if_neg hwhole, if_neg hask, ← @findShort_none fs tail k hk]
    cases findShort (k :: tail) fs with
    | none => simp [hhelp]
    | some f =>
      rcases ht with rfl | ⟨s, rfl⟩
      · simp
      · simp

end Words

/-! ### The last token -/

/-- The code that is returned when there is no token behind. -/
def Step.code {β σ : Type} : Step β σ → ℕ
  | .stop err _ => err
  | .one _ _ _ => 0
  | .two _ => 0

section Last

variable {σ : Type} {x : Input} {e : Env σ} {c : Ptr} {i : ℕ} {f : Flag} {short : Bool}

theorem assign_code {β : Type} (s : Bytes) (w : World β σ) :
    (readAssign x e c i f s short w).code = 0 ∨
      (readAssign x e c i f s short w).code = errorInvalidArgument := by
  unfold readAssign
  rcases w.setFlag e f s (x.argc - i - 1) with ⟨bad, u⟩
  cases bad with
  | true => exact Or.inr rfl
  | false => exact Or.inl rfl

theorem bare_code {β : Type} (w : World β σ) :
    (readBare x e c i f short none w).code = 0 ∨
      (readBare x e c i f short none w).code = errorInvalidArgument := by
  unfold readBare
  split
  · exact Or.inl rfl
  · exact Or.inr rfl

theorem last_code (t : Bytes) (w : World HandlerArgs σ) :
    (finish x e (read x e (pushAt x e) [t] i c false w)).err =
      (readToken x e (pushAt x e) c i false t none w).code := by
  rw [read_cons, List.head?_nil]
  cases readToken x e (pushAt x e) c i false t none w with
  | stop err u => rfl
  | one c' input u => exact call_err c' u
  | two u => exact call_err c u

variable {v : Forest} {d : PrintData} {path : List Bytes} {tail : Bytes}

/-- The last token is `--name` with a value or without. -/
theorem long_code (hx : x.commands = v.commands) (hstrict : x.allowUnknow = false)
    (hno : ∀ r ∈ (v.page d path c).flags, ascii '=' ∉ r.name) (ht : Assigned tail) {n : Bytes}
    (hne : n ≠ []) (hn : ascii '=' ∉ n) (w : World HandlerArgs σ) :
    (readToken x e (pushAt x e) c i false (text "--" ++ (n ++ tail)) none w).code =
        errorUnknowFlag ↔
      n ≠ text "help" ∧ n ∉ (v.page d path c).flags.map FlagRow.name := by
  have hnames : (v.page d path c).flags.map FlagRow.name =
      (v.commands.flag c).map fun g => g.name := by
    simp only [Forest.page, List.map_map]
    rfl
  have hnoflag : ∀ g ∈ v.commands.flag c, ascii '=' ∉ g.name := by
    intro g hg
    exact hno (flagRow (d.defaultText g) g.toFlagData) (List.mem_map_of_mem hg)
  obtain ⟨hword, hmember⟩ := longWord_unknown ht hn hnoflag
  have htoken : tokenOf (text "--" ++ (n ++ tail)) = .long (n ++ tail) :=
    tokenOf_long (by simp [hne])
  rw [hnames, ← hword]
  unfold readToken
  rw [htoken]
  dsimp only
  unfold readLong
  rw [hx]
  cases hw : longWord (v.commands.flag c) (n ++ tail) with
  | help => simp [Step.code, errorUnknowFlag]
  | helpOff => simp [Step.code, errorUnknowFlag]
  | helpBad s => simp [Step.code, errorInvalidArgument, errorUnknowFlag]
  | assign f s =>
    dsimp only
    rcases @assign_code _ x e c i f false _ s w with
      h | h <;> simp [h, errorInvalidArgument, errorUnknowFlag]
  | bare f =>
    dsimp only
    rcases @bare_code _ x e c i f false _ w with
      h | h <;> simp [h, errorInvalidArgument, errorUnknowFlag]
  | member f => exact (hmember f hw).elim
  | unknown => simp [hstrict, Step.code]

/-- The last token is `-k` with a value or without. -/
theorem short_code (hx : x.commands = v.commands) (hstrict : x.allowUnknow = false)
    (ht : Assigned tail) {k : UInt8} (hk : k ≠ 0) (hdash : k ≠ ascii '-')
    (w : World HandlerArgs σ) :
    (readToken x e (pushAt x e) c i false (ascii '-' :: k :: tail) none w).code =
        errorUnknowShortFlag ↔
      k ≠ ascii 'h' ∧ k ∉ (v.page d path c).flags.map FlagRow.short := by
  have hnames : (v.page d path c).flags.map FlagRow.short =
      (v.commands.flag c).map fun g => g.shortName := by
    simp only [Forest.page, List.map_map]
    rfl
  obtain ⟨hword, hmember⟩ := @shortWord_unknown (v.commands.flag c) tail k ht hk
  rw [hnames, ← hword]
  unfold readToken
  rw [tokenOf_short hdash]
  dsimp only
  unfold readShort
  rw [hx]
  cases hw : shortWord (v.commands.flag c) (k :: tail) with
  | help => simp [Step.code, errorUnknowShortFlag]
  | helpOff => simp [Step.code, errorUnknowShortFlag]
  | helpBad s => simp [Step.code, errorInvalidArgument, errorUnknowShortFlag]
  | assign f s =>
    dsimp only
    rcases @assign_code _ x e c i f true _ s w with
      h | h <;> simp [h, errorInvalidArgument, errorUnknowShortFlag]
  | bare f =>
    dsimp only
    rcases @bare_code _ x e c i f true _ w with
      h | h <;> simp [h, errorInvalidArgument, errorUnknowShortFlag]
  | member f => exact (hmember f hw).elim
  | unknown => simp [hstrict, Step.code]

/-- The page of a command shows the options that it knows: behind the names on the first
line of the page that is printed, `--name` is unknown when the page has no row with that
name, `-k` when it has no row with that short name, and never otherwise, with a value or
without. -/
theorem page_options {s : Registry} (hs : textSystem.Reachable s) (hst : Stores s v)
    (hd : Terminated d v) {root : Ptr} {y : CommandView} (hy : v.command root = some y)
    (hroot : y.parent = none) {ts : List Bytes} (hpath : Path v root ts c)
    (hno : ∀ r ∈ (v.page d (y.name :: ts) c).flags, ascii '=' ∉ r.name)
    (hx : x.commands = v.commands) (hstrict : x.allowUnknow = false) (mem : σ)
    (ht : Assigned tail) :
    printUsage d s c = .ok (v.page d (y.name :: ts) c).render ∧
      (∀ n, n ≠ [] → ascii '=' ∉ n → x.argv = ts ++ [text "--" ++ (n ++ tail)] →
        ∃ m r, execute x e root mem m = some r ∧ (r.err = errorUnknowFlag ↔
          n ≠ text "help" ∧ n ∉ (v.page d (y.name :: ts) c).flags.map FlagRow.name)) ∧
      (∀ k, k ≠ 0 → k ≠ ascii '-' → x.argv = ts ++ [ascii '-' :: k :: tail] →
        ∃ m r, execute x e root mem m = some r ∧ (r.err = errorUnknowShortFlag ↔
          k ≠ ascii 'h' ∧ k ∉ (v.page d (y.name :: ts) c).flags.map FlagRow.short)) := by
  obtain ⟨w, hw, hv⟩ := forest_reachable (System.reachable_of_restrict hs)
  obtain rfl := hst.unique hw
  obtain ⟨z, hz⟩ := path_live hpath hy
  obtain ⟨m, hm⟩ := execute_read x e root mem
  refine ⟨printUsage_page hst hv (printable_of_text hs hst hd) hy hroot hpath hz, ?_, ?_⟩
  · intro n hne hn hargv
    rw [hargv, read_path hv hx hpath] at hm
    refine ⟨m, _, hm, ?_⟩
    rw [last_code]
    exact long_code hx hstrict hno ht hne hn _
  · intro k hk hdash hargv
    rw [hargv, read_path hv hx hpath] at hm
    refine ⟨m, _, hm, ?_⟩
    rw [last_code]
    exact short_code hx hstrict ht hk hdash _

end Last

theorem page_options_worker : ∃ s v y,
    textSystem.exec (oneFlag "worker" 'w' 6) ⟨∅, ∅⟩ = some s ∧ Stores s v ∧
    v.command 1 = some y ∧
    printUsage noDefaults s 1 = .ok (v.page noDefaults [y.name] 1).render ∧
    ∃ m r, execute ⟨v.commands, [text "--" ++ (text "jobs" ++ text "=7")], false⟩ acceptAll 1 ()
        m = some r ∧ r.err = errorUnknowFlag := by
  have hobs : (textSystem.exec (oneFlag "worker" 'w' 6) ⟨∅, ∅⟩).map (fun s =>
      (s.commands.lookup 1).map CommandNode.parent) = some (some none) := by
    decide
  obtain ⟨s, hs, happ⟩ := Option.map_eq_some_iff.mp hobs
  obtain ⟨n, hn, hnroot⟩ := Option.map_eq_some_iff.mp happ
  have hreach : textSystem.Reachable s := System.reachable_exec (.init rfl) hs
  obtain ⟨s', v, hs', -, hst, hflags⟩ := oneFlag_listed "worker" 'w' 6 (d := ⟨8, false,
    ⟨.uint8, false⟩, text "worker", ascii 'w', none, ⟨.uint8, false⟩, none⟩) (by decide)
  rw [System.exec_of_restrict hs, Option.some.injEq] at hs'
  subst hs'
  obtain ⟨y, hy, -, hyparent⟩ := hst.view hn
  have hno : ∀ r ∈ (v.page noDefaults [y.name] 1).flags, ascii '=' ∉ r.name := by
    simp only [Forest.page, hflags, List.map_cons, List.map_nil, List.forall_mem_singleton]
    decide
  have hvalue : Assigned (text "=7") := Or.inr ⟨text "7", rfl⟩
  obtain ⟨hpage, hlong, -⟩ := page_options hreach hst (noDefaults_terminated v) hy
    (by rw [← hyparent, hnroot]) (.nil 1) hno
    (x := ⟨v.commands, [text "--" ++ (text "jobs" ++ text "=7")], false⟩) (e := acceptAll) rfl rfl
    () hvalue
  obtain ⟨m, r, hrun, herr⟩ := hlong (text "jobs") (by decide) (by decide) rfl
  have hrow : text "jobs" ∉ (v.page noDefaults [y.name] 1).flags.map FlagRow.name := by
    simp only [Forest.page, hflags, List.map_cons, List.map_nil]
    decide
  exact ⟨s, v, y, hs, hst, hy, hpage, m, r, hrun, herr.mpr ⟨by decide, hrow⟩⟩

end LibeventHttpServe.Flags
