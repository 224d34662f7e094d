import LibeventHttpServe.Shared.Address
import Mathlib.Data.Bool.AllAny
import Mathlib.Data.List.TakeWhile

/-!
# The texts of listen addresses (shared.c, shared.h:26)

The grammar `[host]:port` that `parse_shared_address` is documented to read, and
the texts on which it does.
-/

namespace LibeventHttpServe.Shared

open LibeventHttpServe.Lib
open LibeventHttpServe.Flags (Bytes ascii text)

def IsDecimal (c : UInt8) : Prop := ascii '0' ≤ c ∧ c ≤ ascii '9'

instance (c : UInt8) : Decidable (IsDecimal c) := by
  unfold IsDecimal
  infer_instance

/-- A non-empty string of decimal digits with a value from 1 to 65535. -/
structure PortText (t : Bytes) (p : UInt16) : Prop where
  nonempty : t ≠ []
  digits : ∀ c ∈ t, IsDecimal c
  value : numeral 10 0 (t.map fun c => c.toNat - 48) = p.toNat
  pos : p ≠ 0

/-- The texts of a host with the family and the address they stand for. -/
inductive HostText (inetPton : InetPton) : Bytes → Family → Bytes → Prop where
  | any6 {a : Bytes} (h : inetPton .inet6 (text "::") = some a) : HostText inetPton [] .inet6 any6
  | any4 (h : inetPton .inet6 (text "::") = none) : HostText inetPton [] .inet any4
  | v6 {x a : Bytes} (hlen : x.length ≤ 46) (h : inetPton .inet6 x = some a) :
      HostText inetPton (ascii '[' :: x ++ [ascii ']']) .inet6 a
  | v4 {x a : Bytes} (hlen : x.length ≤ 15) (h : inetPton .inet x = some a) :
      HostText inetPton x .inet a

/-- `s` is `[host]:port` and stands for the address `a`. -/
def AddressText (inetPton : InetPton) (s : Bytes) (a : SockAddr) : Prop :=
  ∃ host port p, s = host ++ ascii ':' :: port ∧ ascii ':' ∉ port ∧ PortText port p ∧
    HostText inetPton host a.family a.ip ∧ a.port = htons p

def SharedAddress.stored (d : SharedAddress) : SockAddr :=
  match d.member with
  | .addr a => a
  | .addr6 a => a

/-- The call returns 0 on the texts of addresses only, and stores their
address. -/
def Decodes (inetPton : InetPton) (s : Bytes) (addr : SharedAddress) : Prop :=
  ∃ r d, parseSharedAddress inetPton s s.length (some addr) = .ok (r, some d) ∧
    (r = 0 ↔ ∃ a, AddressText inetPton s a) ∧ (r = 0 → AddressText inetPton s d.stored)

/-- A host that is handed to `evutil_inet_pton`: it is not empty and not too long
for its form. -/
def HostTested (host : Bytes) : Prop :=
  2 ≤ host.length ∧ if Bracketed host then host.length ≤ 48 else host.length ≤ 15

/-- The text has a good port and a host that is handed to `evutil_inet_pton`. -/
def Tested (s : Bytes) : Prop :=
  ∃ host port p, s = host ++ ascii ':' :: port ∧ ascii ':' ∉ port ∧ PortText port p ∧
    HostTested host

def DottedDecimal (inetPton : InetPton) : Prop :=
  ∀ x a, inetPton .inet x = some a →
    7 ≤ x.length ∧ ∀ c ∈ x, IsDecimal c ∨ c = ascii '.'

theorem digitBelow_ten {c : UInt8} {d : ℕ} :
    Flags.digitBelow 10 c = some d ↔ IsDecimal c ∧ d = c.toNat - 48 := by
  have h0 : (ascii '0').toNat = 48 := rfl
  have h9 : (ascii '9').toNat = 57 := rfl
  have ha : (ascii 'a').toNat = 97 := rfl
  have hz : (ascii 'z').toNat = 122 := rfl
  unfold Flags.digitBelow Flags.digitOf IsDecimal
  by_cases hd : ascii '0' ≤ c ∧ c ≤ ascii '9'
  · have h1 := UInt8.le_iff_toNat_le.mp hd.1
    have h2 := UInt8.le_iff_toNat_le.mp hd.2
    have hsub : (c - ascii '0').toNat = c.toNat - 48 := UInt8.toNat_sub_of_le _ _ hd.1
    rw [if_pos hd]
    simp only [Option.bind_some, hsub]
    rw [if_pos (by omega)]
    simp only [hd, true_and, Option.some.injEq, eq_comm]
  · rw [if_neg hd]
    simp only [hd, false_and, iff_false]
    by_cases hl : ascii 'a' ≤ Flags.loger c ∧ Flags.loger c ≤ ascii 'z'
    · have h1 := UInt8.le_iff_toNat_le.mp hl.1
      have h2 := UInt8.le_iff_toNat_le.mp hl.2
      have hsub : (Flags.loger c - ascii 'a').toNat = (Flags.loger c).toNat - 97 :=
        UInt8.toNat_sub_of_le _ _ hl.1
      have hadd : (Flags.loger c - ascii 'a' + 10).toNat = (Flags.loger c).toNat - 97 + 10 := by
        rw [UInt8.toNat_add, hsub]
        exact Nat.mod_eq_of_lt (by show _ + 10 < 256; omega)
      rw [if_pos hl]
      simp only [Option.bind_some, hadd]
      rw [if_neg (by omega)]
      simp
    · rw [if_neg hl]
      simp

theorem literalDigits_ten {t : Bytes} {ds : List ℕ} :
    Flags.literalDigits false 10 t = some ds ↔
      (∀ c ∈ t, IsDecimal c) ∧ ds = t.map fun c => c.toNat - 48 := by
  induction t generalizing ds with
  | nil => simp [Flags.literalDigits, eq_comm]
  | cons c t ih =>
    rw [Flags.literalDigits_digit (fun h => Bool.false_ne_true h.2)]
    constructor
    · intro h
      obtain ⟨d, hd, h⟩ := Option.bind_eq_some_iff.mp h
      obtain ⟨es, hes, rfl⟩ := Option.map_eq_some_iff.mp h
      obtain ⟨hdec, rfl⟩ := digitBelow_ten.mp hd
      obtain ⟨hall, rfl⟩ := ih.mp hes
      exact ⟨List.forall_mem_cons.mpr ⟨hdec, hall⟩, rfl⟩
    · intro ⟨hall, hds⟩
      obtain ⟨hdec, hall⟩ := List.forall_mem_cons.mp hall
      rw [digitBelow_ten.mpr ⟨hdec, rfl⟩, ih.mpr ⟨hall, rfl⟩, hds]
      rfl

theorem portOf_eq_some {t : Bytes} {p : UInt16} : portOf t = some p ↔ PortText t p := by
  unfold portOf
  constructor
  · intro h
    obtain ⟨ds, hds, h⟩ := Option.bind_eq_some_iff.mp h
    obtain ⟨hall, rfl⟩ := literalDigits_ten.mp hds
    simp only [Option.ite_none_right_eq_some, Option.some.injEq] at h
    obtain ⟨⟨hne, hpos, hlt⟩, rfl⟩ := h
    have hval := UInt16.toNat_ofNat_of_lt' hlt
    refine ⟨hne, hall, hval.symm, ?_⟩
    intro hz
    rw [hz] at hval
    have hz0 : (0 : UInt16).toNat = 0 := rfl
    omega
  · intro h
    have hpos : 0 < p.toNat := Nat.pos_of_ne_zero (fun h0 => h.pos (UInt16.toNat_inj.mp h0))
    have hlt : p.toNat < 2 ^ 16 := p.toNat_lt
    rw [literalDigits_ten.mpr ⟨h.digits, rfl⟩]
    simp only [Option.bind_some, h.value]
    rw [if_pos ⟨h.nonempty, hpos, hlt⟩, UInt16.ofNat_toNat]

theorem cString_eq {x : Bytes} (h : (0 : UInt8) ∉ x) : cString x = x := by
  unfold cString
  apply List.takeWhile_eq_self_iff.mpr
  intro c hc
  simp only [bne_iff_ne, ne_eq]
  intro he
  exact h (he ▸ hc)

theorem bracketed_inner {host : Bytes} (hb : Bracketed host) (h2 : 2 ≤ host.length) :
    host = ascii '[' :: (host.drop 1).dropLast ++ [ascii ']'] := by
  obtain ⟨hf, hl⟩ := hb
  cases host with
  | nil => cases hf
  | cons c t =>
    have hc : c = ascii '[' := Option.some.inj hf
    have ht : t ≠ [] := by
      intro h
      rw [h] at h2
      exact Nat.not_succ_le_self 1 h2
    have hlast : t.getLast ht = ascii ']' := by
      rw [List.getLast?_cons_of_ne_nil ht] at hl
      rw [List.getLast?_eq_some_getLast ht] at hl
      exact Option.some.inj hl
    rw [List.drop_one, List.tail_cons, List.cons_append, ← hlast, List.dropLast_append_getLast, hc]

theorem bracketed_cons (x : Bytes) : Bracketed (ascii '[' :: x ++ [ascii ']']) :=
  ⟨rfl, by rw [List.getLast?_concat]⟩

theorem DottedDecimal.notBracketed {inetPton : InetPton} (hv4 : DottedDecimal inetPton)
    {x a : Bytes} (h : inetPton .inet x = some a) : ¬ Bracketed x := by
  intro hb
  have hm : ascii '[' ∈ x := List.mem_of_mem_head? hb.1
  rcases (hv4 x a h).2 _ hm with hd | hd
  · exact absurd hd (by unfold IsDecimal; decide)
  · exact absurd hd (by decide)

section Host

variable {inetPton : InetPton} {host : Bytes} {p : UInt16} {addr : SharedAddress}

/-- The result for a host is right: it is 0 on the texts of hosts only, and then
their address is stored. -/
def HostRight (inetPton : InetPton) (host : Bytes) (p : UInt16) (addr : SharedAddress) : Prop :=
  ∃ r d, hostResult inetPton host p (some addr) = (r, some d) ∧
    (r = 0 ↔ ∃ f ip, HostText inetPton host f ip) ∧
    (r = 0 → HostText inetPton host d.stored.family d.stored.ip ∧ d.stored.port = htons p)

theorem hostRight_empty : HostRight inetPton [] p addr := by
  cases h : inetPton .inet6 (text "::") with
  | none =>
    refine ⟨0, ⟨0, .addr ⟨.inet, htons p, any4⟩⟩, ?_, ?_, ?_⟩
    · simp only [hostResult, h, if_true, Option.map_some]
    · exact iff_of_true rfl ⟨_, _, .any4 h⟩
    · exact fun _ => ⟨.any4 h, rfl⟩
  | some a =>
    refine ⟨0, ⟨1, .addr6 ⟨.inet6, htons p, any6⟩⟩, ?_, ?_, ?_⟩
    · simp only [hostResult, h, if_true, Option.map_some]
    · exact iff_of_true rfl ⟨_, _, .any6 h⟩
    · exact fun _ => ⟨.any6 h, rfl⟩

/- A host that is no text of a host is rejected where `evutil_inet_pton` is not
called. -/
theorem hostRight_rejected (hres : hostResult inetPton host p (some addr) = (-1, some addr))
    (hno : ∀ f ip, ¬ HostText inetPton host f ip) : HostRight inetPton host p addr := by
  refine ⟨-1, addr, hres, ?_, ?_⟩
  · apply iff_of_false (by decide)
    intro ⟨f, ip, h⟩
    exact hno f ip h
  · intro h
    cases h

/-- The test of the result of `evutil_inet_pton` is the wrong way round: the host
is accepted exactly when it is no text of a host. -/
theorem hostResult_tested (p : UInt16) (addr : SharedAddress) (hv4 : DottedDecimal inetPton)
    (h0 : (0 : UInt8) ∉ host) (ht : HostTested host) :
    (hostResult inetPton host p (some addr)).1 = 0 ↔ ¬ ∃ f ip, HostText inetPton host f ip := by
  obtain ⟨h2, hlen⟩ := ht
  have hnil : host ≠ [] := by
    intro h
    rw [h] at h2
    exact Nat.not_succ_le_zero 1 h2
  have hone : ¬ host.length < 2 := by omega
  by_cases hb : Bracketed host
  · rw [if_pos hb] at hlen
    have hinner := bracketed_inner hb h2
    generalize hx : (host.drop 1).dropLast = x at hinner
    have hx0 : (0 : UInt8) ∉ x := by
      intro hm
      apply h0
      rw [hinner]
      simp [hm]
    have hxlen : x.length ≤ 46 := by
      rw [hinner] at hlen
      simp only [List.cons_append, List.length_cons, List.length_append, List.length_nil] at hlen
      omega
    have hiff : (∃ f ip, HostText inetPton host f ip) ↔ ∃ a, inetPton .inet6 x = some a := by
      constructor
      · intro ⟨f, ip, h⟩
        cases h with
        | any6 => exact (hnil rfl).elim
        | any4 => exact (hnil rfl).elim
        | v6 hl h =>
          rename_i y
          have hy : y = x := by simpa using hinner
          exact ⟨_, hy ▸ h⟩
        | v4 hl h => exact (hv4.notBracketed h hb).elim
      · intro ⟨a, ha⟩
        rw [hinner]
        exact ⟨_, _, .v6 hxlen ha⟩
    rw [hiff]
    simp only [hostResult, hnil, hone, hb, if_false, if_true, hx, cString_eq hx0,
      Nat.not_lt.mpr hlen]
    cases inetPton .inet6 x <;> simp
  · rw [if_neg hb] at hlen
    have hiff : (∃ f ip, HostText inetPton host f ip) ↔ ∃ a, inetPton .inet host = some a := by
      constructor
      · intro ⟨f, ip, h⟩
        cases h with
        | any6 => exact (hnil rfl).elim
        | any4 => exact (hnil rfl).elim
        | v6 hl h => exact (hb (bracketed_cons _)).elim
        | v4 hl h => exact ⟨_, h⟩
      · intro ⟨a, ha⟩
        exact ⟨_, _, .v4 hlen ha⟩
    rw [hiff]
    simp only [hostResult, hnil, hone, hb, if_false, cString_eq h0, Nat.not_lt.mpr hlen]
    cases inetPton .inet host <;> simp

theorem hostRight_iff (hv4 : DottedDecimal inetPton) (h0 : (0 : UInt8) ∉ host) :
    HostRight inetPton host p addr ↔ ¬ HostTested host := by
  constructor
  · intro ⟨r, d, hres, hiff, _⟩ ht
    have hinv := hostResult_tested p addr hv4 h0 ht
    rw [hres] at hinv
    by_cases hr : r = 0
    · exact hinv.mp hr (hiff.mp hr)
    · exact hr (hinv.mpr (mt hiff.mpr hr))
  · intro ht
    by_cases hnil : host = []
    · subst hnil
      exact hostRight_empty
    have hpos := List.length_pos_iff.mpr hnil
    by_cases hone : host.length < 2
    · apply hostRight_rejected
      · simp only [hostResult, hnil, hone, if_false, if_true]
      · intro f ip hx
        cases hx with
        | any6 => exact hnil rfl
        | any4 => exact hnil rfl
        | v6 hl h =>
          simp only [List.cons_append, List.length_cons, List.length_append] at hone
          omega
        | v4 hl h =>
          have h7 := (hv4 _ _ h).1
          omega
    by_cases hb : Bracketed host
    · have hlen : 48 < host.length := by
        by_contra hlen
        exact ht ⟨by omega, by rw [if_pos hb]; omega⟩
      apply hostRight_rejected
      · simp only [hostResult, hnil, hone, hb, hlen, if_false, if_true]
      · intro f ip hx
        cases hx with
        | any6 => exact hnil rfl
        | any4 => exact hnil rfl
        | v6 hl h =>
          simp only [List.cons_append, List.length_cons, List.length_append,
            List.length_nil] at hlen
          omega
        | v4 hl h => omega
    · have hlen : 15 < host.length := by
        by_contra hlen
        exact ht ⟨by omega, by rw [if_neg hb]; omega⟩
      apply hostRight_rejected
      · simp only [hostResult, hnil, hone, hb, hlen, if_false, if_true]
      · intro f ip hx
        cases hx with
        | any6 => exact hnil rfl
        | any4 => exact hnil rfl
        | v6 hl h => exact hb (bracketed_cons _)
        | v4 hl h => omega

end Host

/-! ### The whole text -/

theorem not_addressText {inetPton : InetPton} {s : Bytes} (h : ascii ':' ∉ s) (a : SockAddr) :
    ¬ AddressText inetPton s a := by
  intro ⟨host, port, p, hs, _⟩
  apply h
  rw [hs]
  simp

theorem addressText_split {inetPton : InetPton} (host : Bytes) {port : Bytes} (h : ascii ':' ∉ port)
    (a : SockAddr) :
    AddressText inetPton (host ++ ascii ':' :: port) a ↔
      ∃ p, PortText port p ∧ HostText inetPton host a.family a.ip ∧ a.port = htons p := by
  constructor
  · intro ⟨host', port', p, hs, hport', hp, hrest⟩
    obtain ⟨rfl, rfl⟩ := split_unique hs h hport'
    exact ⟨p, hp, hrest⟩
  · intro ⟨p, hp, hrest⟩
    exact ⟨host, port, p, rfl, h, hp, hrest⟩

theorem tested_split (host : Bytes) {port : Bytes} (h : ascii ':' ∉ port) :
    Tested (host ++ ascii ':' :: port) ↔ (∃ p, PortText port p) ∧ HostTested host := by
  constructor
  · intro ⟨host', port', p, hs, hport', hp, ht⟩
    obtain ⟨rfl, rfl⟩ := split_unique hs h hport'
    exact ⟨⟨p, hp⟩, ht⟩
  · intro ⟨⟨p, hp⟩, ht⟩
    exact ⟨host, port, p, rfl, h, hp, ht⟩

theorem decodes_split {inetPton : InetPton} {host port : Bytes} (h : ascii ':' ∉ port)
    {p : UInt16} (hp : PortText port p) (addr : SharedAddress) :
    Decodes inetPton (host ++ ascii ':' :: port) addr ↔ HostRight inetPton host p addr := by
  have hport := portOf_eq_some.mpr hp
  have hacc : (∃ a, AddressText inetPton (host ++ ascii ':' :: port) a) ↔
      ∃ f ip, HostText inetPton host f ip := by
    constructor
    · intro ⟨a, ha⟩
      obtain ⟨_, _, hh, _⟩ := (addressText_split host h a).mp ha
      exact ⟨_, _, hh⟩
    · intro ⟨f, ip, hh⟩
      exact ⟨⟨f, htons p, ip⟩, (addressText_split host h _).mpr ⟨p, hp, hh, rfl⟩⟩
  have hst : ∀ d : SharedAddress, AddressText inetPton (host ++ ascii ':' :: port) d.stored ↔
      HostText inetPton host d.stored.family d.stored.ip ∧ d.stored.port = htons p := by
    intro d
    rw [addressText_split host h]
    constructor
    · intro ⟨p', hp', hrest⟩
      have he : p' = p := by
        have hsome := portOf_eq_some.mpr hp'
        rw [hport] at hsome
        exact (Option.some.inj hsome).symm
      rw [← he]
      exact hrest
    · intro hrest
      exact ⟨p, hp, hrest⟩
  unfold Decodes HostRight
  simp only [parseSharedAddress_split inetPton host h, hport, Except.ok.injEq, hacc, hst]

/-- `parse_shared_address` accepts the texts of addresses and stores what they
stand for exactly on the texts it decides without `evutil_inet_pton`. -/
theorem decodes_iff (inetPton : InetPton) (hv4 : DottedDecimal inetPton) (s : Bytes)
    (h0 : (0 : UInt8) ∉ s) (addr : SharedAddress) : Decodes inetPton s addr ↔ ¬ Tested s := by
  rcases split_last (ascii ':') s with hno | ⟨host, port, rfl, hport⟩
  · have ht : ¬ Tested s := by
      intro ⟨host, port, p, hs, _⟩
      apply hno
      rw [hs]
      simp
    refine iff_of_true ⟨-1, addr, parseSharedAddress_noColon inetPton hno _, ?_, ?_⟩ ht
    · apply iff_of_false (by decide)
      intro ⟨a, ha⟩
      exact not_addressText hno a ha
    · intro h
      cases h
  · by_cases hp : ∃ p, PortText port p
    · obtain ⟨p, hp⟩ := hp
      have hh0 : (0 : UInt8) ∉ host := fun hm => h0 (List.mem_append_left _ hm)
      rw [decodes_split hport hp, hostRight_iff hv4 hh0, tested_split host hport]
      exact not_congr (and_iff_right ⟨p, hp⟩).symm
    · have hnone : portOf port = none := by
        apply Option.eq_none_iff_forall_ne_some.mpr
        intro p hsome
        exact hp ⟨p, portOf_eq_some.mp hsome⟩
      have hrun := parseSharedAddress_split inetPton host hport (some addr)
      rw [hnone] at hrun
      refine iff_of_true ⟨-1, addr, hrun, ?_, ?_⟩ ?_
      · apply iff_of_false (by decide)
        intro ⟨a, ha⟩
        obtain ⟨p, hp', _⟩ := (addressText_split host hport a).mp ha
        exact hp ⟨p, hp'⟩
      · intro h
        cases h
      · exact fun ht => hp ((tested_split host hport).mp ht).1

/- Two of the texts `evutil_inet_pton` knows. -/
def loopback : InetPton
  | .inet, x => if x = text "127.0.0.1" then some [127, 0, 0, 1] else none
  | .inet6, x => if x = text "::" then some any6 else none
  | .unspec, _ => none

theorem loopback_dotted : DottedDecimal loopback := by
  intro x a h
  simp only [loopback, Option.ite_none_right_eq_some] at h
  rw [h.1]
  exact ⟨by decide, List.all_iff_forall_prop.mp (by decide)⟩

theorem portText_80 : PortText (text "80") 80 where
  nonempty := by decide
  digits := List.all_iff_forall_prop.mp (by decide)
  value := by decide
  pos := by decide

def blank : SharedAddress := ⟨0, .addr ⟨.unspec, (0, 0), any4⟩⟩

theorem decodes_iff_loopback :
    Decodes loopback (text ":80") blank ∧ ¬ Decodes loopback (text "127.0.0.1:80") blank := by
  constructor
  · apply (decodes_iff loopback loopback_dotted (text ":80") (by decide) blank).mpr
    intro ht
    have hhost := ((tested_split [] (show ascii ':' ∉ text "80" by decide)).mp ht).2.1
    exact Nat.not_succ_le_zero 1 hhost
  · intro hd
    apply (decodes_iff loopback loopback_dotted (text "127.0.0.1:80") (by decide) blank).mp hd
    exact ⟨text "127.0.0.1", text "80", 80, by decide, by decide, portText_80, by decide,
      by decide⟩

/-- An IPv4 and an IPv6 address are rejected, and a name that is no address is
accepted as the any-address. -/
theorem decodes_fails :
    (AddressText loopback (text "127.0.0.1:80") ⟨.inet, (0, 80), [127, 0, 0, 1]⟩ ∧
      parseSharedAddress loopback (text "127.0.0.1:80") 12 none = .ok (-1, none) ∧
      ¬ Decodes loopback (text "127.0.0.1:80") blank) ∧
    (AddressText loopback (text "[::]:80") ⟨.inet6, (0, 80), any6⟩ ∧
      parseSharedAddress loopback (text "[::]:80") 7 none = .ok (-1, none)) ∧
    parseSharedAddress loopback (text "localhost:80") 12 none = .ok (0, none) ∧
      ∀ a, ¬ AddressText loopback (text "localhost:80") a := by
  have h4 : AddressText loopback (text "127.0.0.1:80") ⟨.inet, (0, 80), [127, 0, 0, 1]⟩ :=
    ⟨text "127.0.0.1", text "80", 80, by decide, by decide, portText_80,
      .v4 (by decide) (by decide), by decide⟩
  have h6 : AddressText loopback (text "[::]:80") ⟨.inet6, (0, 80), any6⟩ :=
    ⟨text "[::]", text "80", 80, by decide, by decide, portText_80,
      .v6 (x := text "::") (by decide) (by decide), by decide⟩
  refine ⟨⟨h4, by decide, ?_⟩, ⟨h6, by decide⟩, by decide, ?_⟩
  · intro ⟨r, d, hrun, hiff, _⟩
    have hneg : parseSharedAddress loopback (text "127.0.0.1:80") (text "127.0.0.1:80").length
        (some blank) =
          .ok (-1, some ⟨0, .addr ⟨.unspec, (0, 0), [127, 0, 0, 1]⟩⟩) := by
      decide
    rw [hneg] at hrun
    cases hrun
    exact absurd (hiff.mpr ⟨_, h4⟩) (by decide)
  · intro a ha
    obtain ⟨_, _, hh, _⟩ := (addressText_split (text "localhost")
      (show ascii ':' ∉ text "80" by decide) a).mp ha
    generalize a.family = f at hh
    generalize a.ip = ip at hh
    generalize hx : text "localhost" = x at hh
    cases hh with
    | any6 => exact absurd hx (by decide)
    | any4 => exact absurd hx (by decide)
    | v6 hl h =>
      have hb := congrArg List.head? hx
      exact absurd hb (by simp only [List.cons_append, List.head?_cons]; decide)
    | v4 hl h =>
      have hnone : loopback .inet (text "localhost") = none := by decide
      rw [← hx, hnone] at h
      cases h

end LibeventHttpServe.Shared
