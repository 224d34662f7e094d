import LibeventHttpServe.Shared.Address

/-!
# The output of `parse_shared_address` (shared.c:28-128, listener.c:4-33)

The result does not depend on whether an output is passed. What is stored depends
on the earlier contents of the output in one case: the branch of an IPv4 host
leaves `v6` as it was, and the listeners pick the member of the union by `v6`.
-/

namespace LibeventHttpServe.Shared

open LibeventHttpServe.Lib
open LibeventHttpServe.Flags (Bytes ascii text parseUint64)

/-! ### The result without an output -/

theorem parseHost_result (inetPton : InetPton) (s : Bytes) (sLen : ℕ) (port : UInt64)
    (addr : SharedAddress) :
    (parseHost inetPton s sLen port none).map Prod.fst =
      (parseHost inetPton s sLen port (some addr)).map Prod.fst := by
  unfold parseHost
  by_cases hzero : sLen = 0
  · rw [if_pos hzero, if_pos hzero]
    cases inetPton .inet6 (text "::") <;> rfl
  rw [if_neg hzero, if_neg hzero]
  by_cases hone : sLen < 2
  · rw [if_pos hone, if_pos hone]
    rfl
  rw [if_neg hone, if_neg hone]
  cases isBracketed s sLen with
  | error e => rfl
  | ok bracketed =>
    simp only [ok_bind]
    cases bracketed with
    | true =>
      rw [if_pos rfl, if_pos rfl]
      cases subLen sLen 2 with
      | error e => rfl
      | ok sLen =>
        simp only [ok_bind]
        split_ifs
        · rfl
        · cases copyHost (maxIpv6StringLen + 1) (s.drop 1) sLen with
          | error e => rfl
          | ok ip =>
            simp only [ok_bind]
            cases inetPton .inet6 (cString ip) <;> rfl
    | false =>
      rw [if_neg Bool.false_ne_true, if_neg Bool.false_ne_true]
      split_ifs
      · rfl
      · cases copyHost (maxIpv4StringLen + 1) s sLen with
        | error e => rfl
        | ok ip =>
          simp only [ok_bind]
          cases inetPton .inet (cString ip) <;> rfl

/-- Validating a text without an output gives the same result as reading it into
any output. -/
theorem parseSharedAddress_result (inetPton : InetPton) (s : Bytes) (sLen : ℕ)
    (addr : SharedAddress) :
    (parseSharedAddress inetPton s sLen none).map Prod.fst =
      (parseSharedAddress inetPton s sLen (some addr)).map Prod.fst := by
  unfold parseSharedAddress
  cases lastColon s sLen with
  | error e => rfl
  | ok found =>
    simp only [ok_bind]
    cases found with
    | none => rfl
    | some i =>
      dsimp only
      cases subLen sLen i with
      | error e => rfl
      | ok n =>
        simp only [ok_bind]
        cases subLen n 1 with
        | error e => rfl
        | ok n =>
          simp only [ok_bind]
          cases parseUint64 (some (s.drop (i + 1))) n 10 (8 * 2) with
          | error e => rfl
          | ok out =>
            simp only [ok_bind]
            split_ifs
            · rfl
            · exact parseHost_result inetPton s i _ addr

/-! ### What is stored -/

/-- The selector names the member of the union that was written. -/
def Selects (d : SharedAddress) : Prop :=
  (d.v6 = 1 ↔ ∃ a, d.member = .addr6 a) ∧ (d.v6 = 0 ↔ ∃ a, d.member = .addr a)

/-- A successful call stores the same address into any two outputs, with the
selector of its member. -/
def OutputFixed (inetPton : InetPton) (s : Bytes) : Prop :=
  ∀ addr addr' d d', parseSharedAddress inetPton s s.length (some addr) = .ok (0, some d) →
    parseSharedAddress inetPton s s.length (some addr') = .ok (0, some d') → d = d' ∧ Selects d

/-- The texts with a good port and an IPv4 host that is taken: the branch that does
not assign `v6`. -/
def SelectorKept (inetPton : InetPton) (s : Bytes) : Prop :=
  ∃ host port, s = host ++ ascii ':' :: port ∧ ascii ':' ∉ port ∧ portOf port ≠ none ∧
    2 ≤ host.length ∧ host.length ≤ 15 ∧ ¬ Bracketed host ∧ inetPton .inet (cString host) = none

theorem selects_addr6 (a : SockAddr) : Selects ⟨1, .addr6 a⟩ :=
  ⟨iff_of_true rfl ⟨a, rfl⟩, iff_of_false (show ¬ (1 : UInt8) = 0 by decide) nofun⟩

theorem selects_addr (a : SockAddr) : Selects ⟨0, .addr a⟩ :=
  ⟨iff_of_false (show ¬ (0 : UInt8) = 1 by decide) nofun, iff_of_true rfl ⟨a, rfl⟩⟩

/- A host outside the branch stores a record that does not mention the output. -/
theorem hostResult_fixed {inetPton : InetPton} {host : Bytes} {port : UInt16}
    (h : ¬ (2 ≤ host.length ∧ host.length ≤ 15 ∧ ¬ Bracketed host ∧
      inetPton .inet (cString host) = none)) :
    (∀ addr, (hostResult inetPton host port (some addr)).1 ≠ 0) ∨
      ∃ d, Selects d ∧ ∀ addr, hostResult inetPton host port (some addr) = (0, some d) := by
  have herr : (-1 : ℤ) ≠ 0 := by decide
  unfold hostResult
  split_ifs with hnil hone hb hlong hlong
  · cases inetPton .inet6 (text "::") with
    | none => exact Or.inr ⟨_, selects_addr _, fun _ => rfl⟩
    | some a => exact Or.inr ⟨_, selects_addr6 _, fun _ => rfl⟩
  · exact Or.inl fun _ => herr
  · exact Or.inl fun _ => herr
  · cases inetPton .inet6 (cString (host.drop 1).dropLast) with
    | none => exact Or.inr ⟨_, selects_addr6 _, fun _ => rfl⟩
    | some a => exact Or.inl fun _ => herr
  · exact Or.inl fun _ => herr
  · cases hp : inetPton .inet (cString host) with
    | none => exact (h ⟨by omega, by omega, hb, hp⟩).elim
    | some a => exact Or.inl fun _ => herr

theorem hostResult_kept {inetPton : InetPton} {host : Bytes} {port : UInt16}
    (h2 : 2 ≤ host.length) (h15 : host.length ≤ 15) (hb : ¬ Bracketed host)
    (hp : inetPton .inet (cString host) = none) (addr : SharedAddress) :
    hostResult inetPton host port (some addr) =
      (0, some ⟨addr.v6, .addr ⟨.inet, htons port, any4⟩⟩) := by
  have hnil : host ≠ [] := by
    rintro rfl
    exact absurd h2 (by decide)
  unfold hostResult
  rw [if_neg hnil, if_neg (by omega), if_neg hb, if_neg (by omega), hp]
  rfl

theorem outputFixed_of_not {inetPton : InetPton} {s : Bytes} (h : ¬ SelectorKept inetPton s) :
    OutputFixed inetPton s := by
  intro addr addr' d d' hd hd'
  rcases split_last (ascii ':') s with hno | ⟨host, port, rfl, hport⟩
  · rw [parseSharedAddress_noColon inetPton hno] at hd
    cases hd
  rw [parseSharedAddress_split inetPton host hport] at hd hd'
  cases hp : portOf port with
  | none =>
    rw [hp] at hd
    cases hd
  | some p =>
    rw [hp] at hd hd'
    replace hd : hostResult inetPton host p (some addr) = (0, some d) := Except.ok.inj hd
    replace hd' : hostResult inetPton host p (some addr') = (0, some d') := Except.ok.inj hd'
    have hhost : ¬ (2 ≤ host.length ∧ host.length ≤ 15 ∧ ¬ Bracketed host ∧
        inetPton .inet (cString host) = none) := by
      intro hc
      exact h ⟨host, port, rfl, hport, by rw [hp]; nofun, hc⟩
    rcases @hostResult_fixed _ _ p hhost with hfail | ⟨e, hsel, hall⟩
    · have hz := hfail addr
      rw [hd] at hz
      exact (hz rfl).elim
    · rw [hall addr] at hd
      rw [hall addr'] at hd'
      cases hd
      cases hd'
      exact ⟨rfl, hsel⟩

/-- The stored address is fixed by the text exactly outside the branch that leaves
`v6` unassigned. -/
theorem outputFixed_iff (inetPton : InetPton) (s : Bytes) :
    OutputFixed inetPton s ↔ ¬ SelectorKept inetPton s := by
  refine ⟨?_, outputFixed_of_not⟩
  rintro hfixed ⟨host, port, rfl, hport, hp, h2, h15, hb, hpton⟩
  obtain ⟨p, hp⟩ := Option.ne_none_iff_exists'.mp hp
  have hrun (addr : SharedAddress) :
      parseSharedAddress inetPton (host ++ ascii ':' :: port) (host ++ ascii ':' :: port).length
        (some addr) = .ok (0, some ⟨addr.v6, .addr ⟨.inet, htons p, any4⟩⟩) := by
    rw [parseSharedAddress_split inetPton host hport, hp]
    exact congrArg Except.ok (hostResult_kept h2 h15 hb hpton addr)
  let prior (v6 : UInt8) : SharedAddress := ⟨v6, .addr ⟨.unspec, (0, 0), []⟩⟩
  obtain ⟨heq, -⟩ := hfixed _ _ _ _ (hrun (prior 0)) (hrun (prior 1))
  cases heq

/-- The host `localhost`, which is no IPv4 address, is stored as `addr` under any
selector. -/
theorem localhost_selector :
    let inetPton : InetPton := fun _ _ => none
    let prior : SharedAddress := ⟨1, .addr ⟨.unspec, (0, 0), []⟩⟩
    parseSharedAddress inetPton (text "localhost:80") (text "localhost:80").length (some prior) =
        .ok (0, some ⟨1, .addr ⟨.inet, (0, 80), any4⟩⟩) ∧
      ¬ OutputFixed inetPton (text "localhost:80") := by
  intro inetPton prior
  have hrun : parseSharedAddress inetPton (text "localhost:80") (text "localhost:80").length
      (some prior) = .ok (0, some ⟨1, .addr ⟨.inet, (0, 80), any4⟩⟩) := rfl
  refine ⟨hrun, ?_⟩
  intro hfixed
  obtain ⟨-, h6, -⟩ := hfixed prior prior _ _ hrun hrun
  obtain ⟨a, ha⟩ := h6.mp rfl
  cases ha

end LibeventHttpServe.Shared
