import LibeventHttpServe.Flags.Arrays

/-!
# Integer flags (flags.c:196-442, 2043-2080)

A flag that is registered with an integer type stores exactly the integers of that
type: the width and the signedness of its handler are those of the type.
-/

namespace LibeventHttpServe.Flags

open LibeventHttpServe.Lib

/-- Whether an integer type is signed, and its width. -/
def ElemType.intKind : ElemType → Option (Bool × ℕ)
  | .int8 => some (true, 8)
  | .int16 => some (true, 16)
  | .int32 => some (true, 32)
  | .int64 => some (true, 64)
  | .uint8 => some (false, 8)
  | .uint16 => some (false, 16)
  | .uint32 => some (false, 32)
  | .uint64 => some (false, 64)
  | _ => none

/-- The integer that a value of an integer type is. -/
def ElemType.intValue : (e : ElemType) → e.Value → Option ℤ
  | .int8, x => some x.toInt
  | .int16, x => some x.toInt
  | .int32, x => some x.toInt
  | .int64, x => some x.toInt
  | .uint8, x => some x.toNat
  | .uint16, x => some x.toNat
  | .uint32, x => some x.toNat
  | .uint64, x => some x.toNat
  | _, _ => none

/-- The text is a literal of base 0 for `v`, with an optional sign for a signed type. -/
def DenotesInt (signed : Bool) (s : Bytes) (v : ℤ) : Prop :=
  if signed then SignedDenotes 0 s v else ∃ n : ℕ, v = n ∧ Denotes 0 s n

def InRange (signed : Bool) (bits : ℕ) (v : ℤ) : Prop :=
  if signed then -2 ^ (bits - 1) ≤ v ∧ v ≤ 2 ^ (bits - 1) - 1 else 0 ≤ v ∧ v ≤ 2 ^ bits - 1

def Accepts {α : Type} (verify : Option (α → ℤ)) (v : α) : Prop :=
  ∀ f, verify = some f → f v = 0

/-! ### The value of a text -/

/-- A result is the value of the type exactly for the integers `D`. -/
def ExactValue {α : Type} (toInt : α → Option ℤ) (D : ℤ → Prop) (c : Checked (Except ℤ α)) :
    Prop :=
  ∃ r, c = .ok r ∧ ∀ v, (∃ w, r = .ok w ∧ toInt w = some v) ↔ D v

theorem exactValue_ok {α : Type} {toInt : α → Option ℤ} {D : ℤ → Prop} {w : α} {v : ℤ}
    (hw : toInt w = some v) (hv : D v) (hD : ∀ v', D v' → v' = v) :
    ExactValue toInt D (.ok (.ok w)) := by
  refine ⟨_, rfl, ?_⟩
  intro v'
  constructor
  · rintro ⟨w', hw', hv'⟩
    cases hw'
    rw [hw] at hv'
    cases hv'
    exact hv
  · intro hv'
    exact ⟨w, rfl, by rw [hw, hD v' hv']⟩

theorem exactValue_error {α : Type} {toInt : α → Option ℤ} {D : ℤ → Prop} {err : ℤ}
    (h : ∀ v, ¬ D v) : ExactValue toInt D (.ok (.error err)) :=
  ⟨_, rfl, fun v => iff_of_false nofun (h v)⟩

theorem parseInt_exact {α : Type} {bits : ℕ} (h2 : 2 ≤ bits) (h64 : bits ≤ 64)
    {narrow : Int64 → α} {toInt : α → Option ℤ}
    (hnarrow : ∀ x : Int64, -2 ^ (bits - 1) ≤ x.toInt → x.toInt ≤ 2 ^ (bits - 1) - 1 →
      toInt (narrow x) = some x.toInt) (s : Bytes) :
    ExactValue toInt (fun v => DenotesInt true s v ∧ InRange true bits v)
      (parseInt bits narrow s s.length) := by
  have hadm : Admissible 0 bits := ⟨Or.inl rfl, by omega, by omega⟩
  have hmis : ¬ Misread 0 bits s := by
    intro hm
    have hone := hm.1
    omega
  obtain ⟨r, hrun, hout⟩ := parseInt64_outcome hadm hmis
  have hw : width bits = bits := by
    unfold width
    rw [if_neg (by omega), Int.toNat_natCast]
  rw [hw] at hout
  have hexact := hout.exact fun _ _ => signedDenotes_unique
  unfold parseInt
  simp only [hrun, ok_bind]
  by_cases herr : r.err = 0
  · rw [if_neg (not_not.mpr herr)]
    rcases hout with ⟨v, hv, hlo, hhi, -, ho⟩ | ⟨hone, -⟩ | ⟨hone, -⟩ | ⟨hone, -⟩
    · obtain ⟨x, hx, rfl⟩ := Option.map_eq_some_iff.mp ho
      rw [hx]
      exact exactValue_ok (hnarrow x hlo hhi) ⟨hv, hlo, hhi⟩
        fun v' hv' => signedDenotes_unique hv'.1 hv
    · omega
    · omega
    · omega
  · rw [if_pos herr]
    refine exactValue_error ?_
    rintro v ⟨hv, hlo, hhi⟩
    exact herr ((hexact.value v).mpr ⟨hv, hlo, hhi⟩).1

theorem parseUint_exact {α : Type} {bits : ℕ} (h1 : 1 ≤ bits) (h64 : bits ≤ 64)
    {narrow : UInt64 → α} {toInt : α → Option ℤ}
    (hnarrow : ∀ x : UInt64, x.toNat < 2 ^ bits → toInt (narrow x) = some (x.toNat : ℤ))
    (s : Bytes) :
    ExactValue toInt (fun v => DenotesInt false s v ∧ InRange false bits v)
      (parseUint bits narrow s s.length) := by
  have hadm : Admissible 0 bits := ⟨Or.inl rfl, by omega, by omega⟩
  obtain ⟨r, out, hrun, hout⟩ := parseUint64_outcome hadm s
  have hw : width bits = bits := by
    unfold width
    rw [if_neg (by omega), Int.toNat_natCast]
  rw [hw] at hout
  have hrange (n : ℕ) : InRange false bits n ↔ n < 2 ^ bits := by
    have hcast : ((2 ^ bits : ℕ) : ℤ) = 2 ^ bits := by push_cast; rfl
    unfold InRange
    rw [if_neg Bool.false_ne_true, ← hcast]
    omega
  unfold parseUint
  simp only [hrun, ok_bind]
  rcases hout with ⟨rfl, n, rfl, hn, hlt⟩ | ⟨rfl, -, hover⟩ | ⟨rfl, -, hbad⟩
  · rw [if_neg (by decide)]
    refine exactValue_ok (hnarrow n hlt) ⟨⟨_, rfl, hn⟩, (hrange _).mpr hlt⟩ ?_
    rintro v ⟨⟨m, rfl, hm⟩, -⟩
    rw [denotes_unique hm hn]
  · rw [if_pos (by decide)]
    refine exactValue_error ?_
    rintro v ⟨⟨m, rfl, hm⟩, hlt⟩
    exact absurd (hover m hm) (Nat.not_le.mpr ((hrange m).mp hlt))
  · rw [if_pos (by decide)]
    refine exactValue_error ?_
    rintro v ⟨⟨m, rfl, hm⟩, -⟩
    exact hbad m hm

theorem ExactValue.setFlagWith {α : Type} {toInt : α → Option ℤ} {D : ℤ → Prop}
    {parse : Checked (Except ℤ α)} (h : ExactValue toInt D parse)
    (hinj : ∀ w w' v, toInt w = some v → toInt w' = some v → w = w') (verify : Option (α → ℤ)) :
    ExactValue toInt (fun v => D v ∧ ∃ w, toInt w = some v ∧ Accepts verify w)
      (setFlagWith parse verify) := by
  obtain ⟨r, rfl, hr⟩ := h
  unfold Flags.setFlagWith
  cases r with
  | error err =>
    refine exactValue_error ?_
    rintro v ⟨hv, -⟩
    obtain ⟨w, hw, -⟩ := (hr v).mpr hv
    cases hw
  | ok w =>
    have hw (v : ℤ) : toInt w = some v ↔ D v := by
      rw [← hr v]
      constructor
      · exact fun h => ⟨w, rfl, h⟩
      · rintro ⟨w', hw', h⟩
        cases hw'
        exact h
    have hacc (v : ℤ) : (D v ∧ ∃ w, toInt w = some v ∧ Accepts verify w) ↔
        toInt w = some v ∧ Accepts verify w := by
      rw [← hw v]
      constructor
      · rintro ⟨hv, w', hv', ha⟩
        rw [hinj w w' v hv hv']
        exact ⟨hv', ha⟩
      · exact fun h => ⟨h.1, w, h.1, h.2⟩
    have haccepted (ha : Accepts verify w) : ExactValue toInt
        (fun v => D v ∧ ∃ w, toInt w = some v ∧ Accepts verify w) (.ok (.ok w)) := by
      refine ⟨_, rfl, fun v => ?_⟩
      refine Iff.trans ?_ (hacc v).symm
      constructor
      · rintro ⟨w', hw', hv⟩
        cases hw'
        exact ⟨hv, ha⟩
      · exact fun h => ⟨w, rfl, h.1⟩
    simp only [ok_bind]
    cases verify with
    | none => exact haccepted nofun
    | some f =>
      dsimp only
      split_ifs with hf
      · refine exactValue_error ?_
        intro v hv
        exact hf (((hacc v).mp hv).2 f rfl)
      · refine haccepted ?_
        rintro g ⟨⟩
        exact not_not.mp hf

/-! ### The handlers of the integer types -/

theorem intValue_inj (e : ElemType) (w w' : e.Value) (v : ℤ) (h : e.intValue w = some v)
    (h' : e.intValue w' = some v) : w = w' := by
  have heq : e.intValue w = e.intValue w' := h.trans h'.symm
  cases e with
  | bool => cases h
  | int8 => exact Int8.toInt_inj.mp (Option.some.inj heq)
  | int16 => exact Int16.toInt_inj.mp (Option.some.inj heq)
  | int32 => exact Int32.toInt_inj.mp (Option.some.inj heq)
  | int64 => exact Int64.toInt_inj.mp (Option.some.inj heq)
  | uint8 => exact UInt8.toNat_inj.mp (Int.ofNat_inj.mp (Option.some.inj heq))
  | uint16 => exact UInt16.toNat_inj.mp (Int.ofNat_inj.mp (Option.some.inj heq))
  | uint32 => exact UInt32.toNat_inj.mp (Int.ofNat_inj.mp (Option.some.inj heq))
  | uint64 => exact UInt64.toNat_inj.mp (Int.ofNat_inj.mp (Option.some.inj heq))
  | float32 => cases h
  | float64 => cases h
  | string => cases h

/-- The handler of an integer type takes the integers of that type. -/
theorem intFlag_exact (fl : Floats) {e : ElemType} {signed : Bool} {bits : ℕ}
    (hk : e.intKind = some (signed, bits)) (verify : Option (e.Value → ℤ)) (s : Bytes) :
    ExactValue e.intValue
      (fun v => (DenotesInt signed s v ∧ InRange signed bits v) ∧
        ∃ w, e.intValue w = some v ∧ Accepts verify w)
      (e.setFlag fl verify s s.length) := by
  have hinj := intValue_inj e
  cases e with
  | bool => cases hk
  | int8 =>
    cases hk
    refine (parseInt_exact (by decide) (by decide) ?_ s).setFlagWith hinj verify
    intro x hlo hhi
    show some x.toInt8.toInt = some x.toInt
    rw [Int64.toInt_toInt8, Int.bmod_eq_of_le (by omega) (by omega)]
  | int16 =>
    cases hk
    refine (parseInt_exact (by decide) (by decide) ?_ s).setFlagWith hinj verify
    intro x hlo hhi
    show some x.toInt16.toInt = some x.toInt
    rw [Int64.toInt_toInt16, Int.bmod_eq_of_le (by omega) (by omega)]
  | int32 =>
    cases hk
    refine (parseInt_exact (by decide) (by decide) ?_ s).setFlagWith hinj verify
    intro x hlo hhi
    show some x.toInt32.toInt = some x.toInt
    rw [Int64.toInt_toInt32, Int.bmod_eq_of_le (by omega) (by omega)]
  | int64 =>
    cases hk
    have hparse := @parseInt_exact Int64 64 (by decide) (by decide) id
      (ElemType.intValue .int64) (fun _ _ _ => rfl) s
    exact hparse.setFlagWith hinj verify
  | uint8 =>
    cases hk
    refine (parseUint_exact (by decide) (by decide) ?_ s).setFlagWith hinj verify
    intro x hlt
    show some (x.toUInt8.toNat : ℤ) = some (x.toNat : ℤ)
    rw [UInt64.toNat_toUInt8, Nat.mod_eq_of_lt hlt]
  | uint16 =>
    cases hk
    refine (parseUint_exact (by decide) (by decide) ?_ s).setFlagWith hinj verify
    intro x hlt
    show some (x.toUInt16.toNat : ℤ) = some (x.toNat : ℤ)
    rw [UInt64.toNat_toUInt16, Nat.mod_eq_of_lt hlt]
  | uint32 =>
    cases hk
    refine (parseUint_exact (by decide) (by decide) ?_ s).setFlagWith hinj verify
    intro x hlt
    show some (x.toUInt32.toNat : ℤ) = some (x.toNat : ℤ)
    rw [UInt64.toNat_toUInt32, Nat.mod_eq_of_lt hlt]
  | uint64 =>
    cases hk
    have hparse := @parseUint_exact UInt64 64 (by decide) (by decide) id
      (ElemType.intValue .uint64) (fun _ _ => rfl) s
    exact hparse.setFlagWith hinj verify
  | float32 => cases hk
  | float64 => cases hk
  | string => cases hk

/-! ### Registered flags -/

theorem flagType_ofTag {tag : ℤ} {e : ElemType} (h : ElemType.ofTag tag = some e) :
    FlagType.ofTag tag = some ⟨e, false⟩ := by
  unfold FlagType.ofTag
  rw [h]

theorem addFlagWithLen_node {c : Ptr} {name : Option Bytes} {k : UInt8} {d : Option Bytes}
    {value : Ptr} {tag : ℤ} {malloc : Option Ptr} {reg reg' : Registry} {f : Ptr} {err : ℕ}
    {type : FlagType} (htag : FlagType.ofTag tag = some type)
    (hadd : addFlagWithLen c name k d value tag malloc reg = some (⟨some f, err⟩, reg')) :
    ∃ node, reg'.flags.lookup f = some node ∧ node.value = value ∧ node.handler = type := by
  unfold addFlagWithLen at hadd
  cases hn : checkFlag name with
  | none =>
    rw [hn] at hadd
    cases hadd
  | some name =>
    simp only [hn, htag] at hadd
    by_cases hhelp : name = text "help"
    · rw [if_pos hhelp] at hadd
      cases hadd
    by_cases hh : k = ascii 'h'
    · rw [if_neg hhelp, if_pos hh] at hadd
      cases hadd
    rw [if_neg hhelp, if_neg hh] at hadd
    cases hp : reg.commands.lookup c with
    | none => simp [hp] at hadd
    | some n =>
      cases hback : Chain.back FlagNode.next (sameFlag name k) reg.flags n.flag with
      | none => simp [hp, hback] at hadd
      | some r =>
        simp only [hp, hback] at hadd
        cases r with
        | error e => cases hadd
        | ok back =>
          cases malloc with
          | none => cases hadd
          | some f' =>
            simp only [Option.ite_none_left_eq_some] at hadd
            obtain ⟨hfresh, hadd⟩ := hadd
            cases back with
            | none =>
              cases hadd
              exact ⟨_, AList.lookup_insert _, rfl, rfl⟩
            | some t =>
              cases ht : reg.flags.lookup t with
              | none => simp [ht] at hadd
              | some b =>
                simp only [ht] at hadd
                cases hadd
                have hne : f ≠ t := by
                  rintro rfl
                  exact hfresh (AList.lookup_isSome.mp (by rw [ht]; rfl))
                refine ⟨⟨⟨value, false, type, name, k, d, type, none⟩, none⟩, ?_, rfl, rfl⟩
                rw [AList.lookup_insert_ne hne]
                exact AList.lookup_insert _

/-- The flag that a successful registration with a tag returns has the value pointer
that was passed and the handler of that tag. -/
theorem addFlag_node {c : Ptr} {name : Option Bytes} {k : UInt8} {d : Option Bytes} {value : Ptr}
    {tag : ℤ} {malloc : Option Ptr} {reg reg' : Registry} {f : Ptr} {err : ℕ} {type : FlagType}
    (htag : FlagType.ofTag tag = some type)
    (hadd : addFlag c name k d value tag malloc reg = some (⟨some f, err⟩, reg')) :
    ∃ node, reg'.flags.lookup f = some node ∧ node.value = value ∧ node.handler = type := by
  unfold addFlag at hadd
  cases name with
  | none => cases hadd
  | some name =>
    by_cases hnil : cString name = []
    · simp [hnil] at hadd
    · simp only [hnil, if_false] at hadd
      exact addFlagWithLen_node htag hadd

/-- A flag that is registered with an integer type: `set_flag` of its handler returns
0 and stores `v` exactly when the text denotes `v`, `v` is an integer of the type and
`verify` accepts it; otherwise the stored value stays. -/
theorem integerFlag_exact (fl : Floats) {c : Ptr} {name : Option Bytes} {k : UInt8}
    {d : Option Bytes} {value : Ptr} {tag : ℤ} {malloc : Option Ptr} {reg reg' : Registry}
    {f : Ptr} {err : ℕ} {e : ElemType} {signed : Bool} {bits : ℕ}
    (htag : ElemType.ofTag tag = some e) (hk : e.intKind = some (signed, bits))
    (hadd : addFlag c name k d value tag malloc reg = some (⟨some f, err⟩, reg')) :
    ∃ node, reg'.flags.lookup f = some node ∧ node.value = value ∧ node.handler = ⟨e, false⟩ ∧
      ∀ (verify : Option (e.Value → ℤ)) (s : Bytes) (n : UInt64) (m : Malloc) (old : e.Value),
        ∃ r new, FlagType.setFlag fl ⟨e, false⟩ verify s s.length n m old = .ok (r, new) ∧
          (∀ v, (r = 0 ∧ e.intValue new = some v) ↔
            DenotesInt signed s v ∧ InRange signed bits v ∧
              ∃ w, e.intValue w = some v ∧ Accepts verify w) ∧
          (r ≠ 0 → new = old) := by
  obtain ⟨node, hnode, hvalue, hhandler⟩ := addFlag_node (flagType_ofTag htag) hadd
  refine ⟨node, hnode, hvalue, hhandler, ?_⟩
  intro verify s n m old
  obtain ⟨res, hres, hexact⟩ := intFlag_exact fl hk verify s
  obtain ⟨res', hres', herr⟩ := e.setFlag_proper fl verify s
  rw [hres] at hres'
  cases hres'
  have hassoc (v : ℤ) :=
    Iff.trans (hexact v) (and_assoc (c := ∃ w, e.intValue w = some v ∧ Accepts verify w))
  unfold FlagType.setFlag
  simp only [hres, ok_bind]
  cases res with
  | error err' =>
    refine ⟨err', old, rfl, ?_, fun _ => rfl⟩
    intro v
    rw [← hassoc v]
    exact iff_of_false (fun h => herr err' rfl h.1) nofun
  | ok w =>
    refine ⟨0, w, rfl, ?_, fun h => (h rfl).elim⟩
    intro v
    rw [← hassoc v]
    constructor
    · exact fun h => ⟨w, rfl, h.2⟩
    · rintro ⟨w', hw', hv⟩
      cases hw'
      exact ⟨rfl, hv⟩

theorem integerFlag_exact_int8 :
    ∃ reg, addFlag 1 (some (text "n")) 0 none 5 2 (some 9)
        ⟨(∅ : Heap Ptr CommandNode).insert 1 ⟨⟨text "x", none, none, 0⟩, none, none, none, none⟩, ∅⟩ =
          some (⟨some 9, 0⟩, reg) ∧
      FlagType.setFlag .none ⟨.int8, false⟩ none (text "-0x80") (text "-0x80").length 0
          .always (7 : Int8) = .ok (0, (-128 : Int8)) ∧
      DenotesInt true (text "-0x80") (-128) ∧ InRange true 8 (-128) := by
  have hobs : (addFlag 1 (some (text "n")) 0 none 5 2 (some 9)
      ⟨(∅ : Heap Ptr CommandNode).insert 1 ⟨⟨text "x", none, none, 0⟩, none, none, none, none⟩,
        ∅⟩).map Prod.fst = some ⟨some 9, 0⟩ := by decide
  obtain ⟨⟨out, reg⟩, hadd, hout⟩ := Option.map_eq_some_iff.mp hobs
  cases hout
  have hset : FlagType.setFlag .none ⟨.int8, false⟩ none (text "-0x80") (text "-0x80").length 0
      .always (7 : Int8) = .ok (0, (-128 : Int8)) := rfl
  obtain ⟨-, -, -, -, hexact⟩ := integerFlag_exact .none (e := .int8) rfl rfl hadd
  obtain ⟨r, new, hrun, hvalue, -⟩ := hexact none (text "-0x80") 0 .always 7
  cases hset.symm.trans hrun
  obtain ⟨hden, hrange, -⟩ := (hvalue (-128)).mp ⟨rfl, rfl⟩
  exact ⟨reg, hadd, hset, hden, hrange⟩

end LibeventHttpServe.Flags
