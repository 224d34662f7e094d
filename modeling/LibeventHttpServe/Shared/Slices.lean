import LibeventHttpServe.Shared.Address
import LibeventHttpServe.Flags.ParseInt

/-!
# The parsers stay inside their slice

A function of these models that reads or writes outside a buffer, or subtracts
lengths with a wrap, returns a fault (`Lib.Checked`). On a slice with its own length
each of them returns a result.
-/

namespace LibeventHttpServe.Shared

open LibeventHttpServe.Lib LibeventHttpServe.Flags

/- The part of `ppp_c_flags_underscore_ok` behind the optional sign. -/
theorem underscoreUnsigned_total (s : Bytes) : ∃ r,
    (do
      let c0 ← if 2 ≤ s.length then readAt s 0 else pure 0
      if c0 = ascii '0' then
        let c1 ← readAt s 1
        if loger c1 = ascii 'x' then underscoreLoop true s (s.length - 2) 2 .digit
        else if loger c1 = ascii 'b' ∨ loger c1 = ascii 'o' then
          underscoreLoop false s (s.length - 2) 2 .digit
        else underscoreLoop false s s.length 0 .start
      else underscoreLoop false s s.length 0 .start : Checked Bool) = .ok r := by
  have hwhole : ∃ r, underscoreLoop false s s.length 0 .start = .ok r :=
    ⟨_, underscoreLoop_all false s .start⟩
  by_cases h2 : 2 ≤ s.length
  · have h0 : readAt s 0 = .ok s[0] := readAt_ok (List.getElem?_eq_getElem (by omega))
    have h1 : readAt s 1 = .ok s[1] := readAt_ok (List.getElem?_eq_getElem (by omega))
    have hbehind (hex : Bool) : ∃ r, underscoreLoop hex s (s.length - 2) 2 .digit = .ok r :=
      ⟨_, underscoreLoop_scan hex s _ 2 .digit (by omega)⟩
    simp only [h2, if_true, h0, ok_bind, h1]
    split_ifs
    · exact hbehind true
    · exact hbehind false
    · exact hwhole
    · exact hwhole
  · have hne : ¬ (0 : UInt8) = ascii '0' := by decide
    simp only [h2, if_false, pure_eq_ok, ok_bind, hne]
    exact hwhole

theorem underscoreOk_total (s : Bytes) : ∃ r, underscoreOk s s.length = .ok r := by
  cases s with
  | nil => exact ⟨true, rfl⟩
  | cons c t =>
    have h0 : readAt (c :: t) 0 = .ok c := rfl
    have hone : 1 ≤ (c :: t).length := by simp
    unfold underscoreOk
    simp only [hone, if_true, h0, ok_bind, pure_eq_ok]
    by_cases hsign : c = ascii '-' ∨ c = ascii '+'
    · have hsub : subLen (c :: t).length 1 = .ok t.length := subLen_ok hone
      simp only [hsign, decide_true, if_true, List.drop_succ_cons, List.drop_zero, hsub]
      exact underscoreUnsigned_total t
    · simp only [hsign, decide_false, Bool.false_eq_true, if_false]
      exact underscoreUnsigned_total (c :: t)

theorem parseUint64_total (s : Bytes) (base bits : ℤ) :
    ∃ r out, parseUint64 (some s) s.length base bits = .ok (r, out) := by
  by_cases h : Admissible base bits
  · obtain ⟨r, out, hrun, -⟩ := parseUint64_outcome h s
    exact ⟨r, out, hrun⟩
  · exact ⟨-1, none, parseUint64_refused h s⟩

theorem parseInt64_total (s : Bytes) (base bits : ℤ) :
    ∃ r, parseInt64 (some s) s.length base bits = .ok r := by
  cases s with
  | nil => exact ⟨⟨-1, none, none⟩, rfl⟩
  | cons c t =>
    by_cases hc : c = ascii '-' ∨ c = ascii '+'
    · obtain ⟨r, out, hrun⟩ := parseUint64_total t base bits
      exact ⟨_, parseInt64_sign hc t hrun⟩
    · obtain ⟨r, out, hrun⟩ := parseUint64_total (c :: t) base bits
      exact ⟨_, parseInt64_plain hc t hrun⟩

theorem parseSharedAddress_total (inetPton : InetPton) (s : Bytes) (addr : Option SharedAddress) :
    ∃ r, parseSharedAddress inetPton s s.length addr = .ok r := by
  rcases split_last (ascii ':') s with hno | ⟨host, port, rfl, hport⟩
  · exact ⟨_, parseSharedAddress_noColon inetPton hno addr⟩
  · exact ⟨_, parseSharedAddress_split inetPton host hport addr⟩

/-- No parser faults on a slice of any length, in any base and with any bit size. -/
theorem sliceParsers_inside (inetPton : InetPton) (s : Bytes) (base bits : ℤ)
    (addr : Option SharedAddress) :
    (∃ r, underscoreOk s s.length = .ok r) ∧
    (∃ r, parseUint64 (some s) s.length base bits = .ok r) ∧
    (∃ r, parseInt64 (some s) s.length base bits = .ok r) ∧
    ∃ r, parseSharedAddress inetPton s s.length addr = .ok r := by
  obtain ⟨r, out, hrun⟩ := parseUint64_total s base bits
  exact ⟨underscoreOk_total s, ⟨(r, out), hrun⟩, parseInt64_total s base bits,
    parseSharedAddress_total inetPton s addr⟩

end LibeventHttpServe.Shared
