import LibeventHttpServe.Flags.Parse
import LibeventHttpServe.Lib.Split

/-!
# Listen addresses (shared.c, shared.h)

`parse_shared_address` on a text `[host]:port`. `evutil_inet_pton` is a
parameter: `some ip` when it returns 1 after writing `ip`, `none` when it
returns 0.
-/

namespace LibeventHttpServe.Shared

open LibeventHttpServe.Lib
open LibeventHttpServe.Flags (Bytes ascii text parseUint64)

inductive Family where
  /- the value a `memset` to 0 leaves -/
  | unspec
  | inet
  | inet6
  deriving DecidableEq, Repr

/-- The fields of `struct sockaddr_in` and `struct sockaddr_in6` that are used;
the port as its two bytes in memory. -/
structure SockAddr where
  family : Family
  port : UInt8 × UInt8
  ip : Bytes
  deriving DecidableEq, Repr

/-- The union of `shared_address_t`: the member that was written last. -/
inductive Member where
  | addr (a : SockAddr)
  | addr6 (a : SockAddr)
  deriving DecidableEq, Repr

structure SharedAddress where
  v6 : UInt8
  member : Member
  deriving DecidableEq, Repr

def maxIpv4StringLen : ℕ := 15
def maxIpv6StringLen : ℕ := 46

def htons (p : UInt16) : UInt8 × UInt8 := ((p >>> 8).toUInt8, p.toUInt8)

-- INADDR_ANY and in6addr_any
def any4 : Bytes := List.replicate 4 0
def any6 : Bytes := List.replicate 16 0

abbrev InetPton := Family → Bytes → Option Bytes

/-- The backward search for `':'`; the second argument is `i + 1`, so that 0 is
the `(size_t)-1` that ends the loop. -/
def lastColon (s : Bytes) : ℕ → Checked (Option ℕ)
  | 0 => pure none
  | i + 1 => do
    let c ← readAt s i
    if c = ascii ':' then pure (some i) else lastColon s i

/-- `memcpy(ip, s, s_len); ip[s_len] = 0;` into a local buffer of `size` bytes. -/
def copyHost (size : ℕ) (s : Bytes) (sLen : ℕ) : Checked Bytes := do
  let ip ← copyTo (List.replicate size 0) s sLen
  writeAt ip sLen 0

/-- `s[0] == '[' && s[s_len - 1] == ']'`. -/
def isBracketed (s : Bytes) (sLen : ℕ) : Checked Bool := do
  let first ← readAt s 0
  if first = ascii '[' then
    let i ← subLen sLen 1
    let last ← readAt s i
    pure (decide (last = ascii ']'))
  else pure false

/-- `parse_shared_address` after the port is read (`shared.c:33-127`); `sLen` is
the length of the host. -/
def parseHost (inetPton : InetPton) (s : Bytes) (sLen : ℕ) (port : UInt64)
    (addr : Option SharedAddress) : Checked (ℤ × Option SharedAddress) := do
  if sLen = 0 then
    match inetPton .inet6 (text "::") with
    | some _ =>
      pure (0, addr.map fun _ => ⟨1, .addr6 ⟨.inet6, htons port.toUInt16, any6⟩⟩)
    | none => pure (0, addr.map fun _ => ⟨0, .addr ⟨.inet, htons port.toUInt16, any4⟩⟩)
  else if sLen < 2 then pure (-1, addr)
  else
    let bracketed ← isBracketed s sLen
    if bracketed then
      let sLen ← subLen sLen 2
      if maxIpv6StringLen < sLen then pure (-1, addr)
      else
        let ip ← copyHost (maxIpv6StringLen + 1) (s.drop 1) sLen
        match addr with
        | some _ =>
          match inetPton .inet6 (cString ip) with
          | some a => pure (-1, some ⟨1, .addr6 ⟨.unspec, (0, 0), a⟩⟩)
          | none => pure (0, some ⟨1, .addr6 ⟨.inet6, htons port.toUInt16, any6⟩⟩)
        | none =>
          match inetPton .inet6 (cString ip) with
          | some _ => pure (-1, none)
          | none => pure (0, none)
    else if maxIpv4StringLen < sLen then pure (-1, addr)
    else
      let ip ← copyHost (maxIpv4StringLen + 1) s sLen
      match addr with
      | some d =>
        -- `addr->v6` keeps its value here
        match inetPton .inet (cString ip) with
        | some a => pure (-1, some ⟨d.v6, .addr ⟨.unspec, (0, 0), a⟩⟩)
        | none => pure (0, some ⟨d.v6, .addr ⟨.inet, htons port.toUInt16, any4⟩⟩)
      | none =>
        match inetPton .inet (cString ip) with
        | some _ => pure (-1, none)
        | none => pure (0, none)

/-- `parse_shared_address`. -/
def parseSharedAddress (inetPton : InetPton) (s : Bytes) (sLen : ℕ)
    (addr : Option SharedAddress) : Checked (ℤ × Option SharedAddress) := do
  match ← lastColon s sLen with
  | none => pure (-1, addr)
  | some i =>
    let n ← subLen sLen i
    let n ← subLen n 1
    let (err, out) ← parseUint64 (some (s.drop (i + 1))) n 10 (8 * 2)
    -- `port` is read only when the call stored it
    let port := out.getD 0
    if err ≠ 0 ∨ port = 0 then pure (-1, addr)
    else parseHost inetPton s i port addr

/-! ### The same on the texts of host and port -/

def Bracketed (host : Bytes) : Prop := host.head? = some (ascii '[') ∧
  host.getLast? = some (ascii ']')

instance (host : Bytes) : Decidable (Bracketed host) := by
  unfold Bracketed
  infer_instance

/-- What `parse_shared_address` does with the host `host` and a good port. -/
def hostResult (inetPton : InetPton) (host : Bytes) (port : UInt16)
    (addr : Option SharedAddress) : ℤ × Option SharedAddress :=
  if host = [] then
    match inetPton .inet6 (text "::") with
    | some _ => (0, addr.map fun _ => ⟨1, .addr6 ⟨.inet6, htons port, any6⟩⟩)
    | none => (0, addr.map fun _ => ⟨0, .addr ⟨.inet, htons port, any4⟩⟩)
  else if host.length < 2 then (-1, addr)
  else if Bracketed host then
    if 48 < host.length then (-1, addr)
    else
      match inetPton .inet6 (cString ((host.drop 1).dropLast)) with
      | some a => (-1, addr.map fun _ => ⟨1, .addr6 ⟨.unspec, (0, 0), a⟩⟩)
      | none => (0, addr.map fun _ => ⟨1, .addr6 ⟨.inet6, htons port, any6⟩⟩)
  else if 15 < host.length then (-1, addr)
  else
    match inetPton .inet (cString host) with
    | some a => (-1, addr.map fun d => ⟨d.v6, .addr ⟨.unspec, (0, 0), a⟩⟩)
    | none => (0, addr.map fun d => ⟨d.v6, .addr ⟨.inet, htons port, any4⟩⟩)

theorem cString_terminated (t : Bytes) (rest : Bytes) : cString (t ++ 0 :: rest) = cString t := by
  unfold cString
  induction t with
  | nil => rfl
  | cons c t ih =>
    by_cases hc : (c != 0) = true
    · simp only [List.cons_append, List.takeWhile_cons, hc, if_true, ih]
    · simp [hc]

theorem copyHost_ok (size : ℕ) {n : ℕ} {s : Bytes} (hs : n ≤ s.length) (hn : n < size) :
    ∃ ip, copyHost size s n = .ok ip ∧ cString ip = cString (s.take n) := by
  have hlen : (List.replicate size (0 : UInt8)).length = size := List.length_replicate
  have htake : (s.take n).length = n := by
    rw [List.length_take]
    omega
  unfold copyHost
  rw [copyTo_ok hs (by omega)]
  simp only [ok_bind]
  have hd : (List.replicate size (0 : UInt8)).drop n = 0 :: List.replicate (size - n - 1) 0 := by
    rw [List.drop_replicate, ← List.replicate_succ]
    congr 1
    omega
  rw [hd, writeAt_ok (by
    rw [List.length_append, htake, List.length_cons]
    omega)]
  refine ⟨_, rfl, ?_⟩
  rw [List.set_append_right _ _ (by omega), htake, Nat.sub_self, List.set_cons_zero]
  exact cString_terminated _ _

theorem isBracketed_ok {host : Bytes} (hnil : host ≠ []) (rest : Bytes) :
    isBracketed (host ++ rest) host.length = .ok (decide (Bracketed host)) := by
  have hpos := List.length_pos_iff.mpr hnil
  have hfirst : readAt (host ++ rest) 0 = .ok (host.head hnil) := by
    apply readAt_ok
    rw [List.getElem?_append_left hpos, ← List.head?_eq_getElem?, List.head?_eq_some_head hnil]
  have hlast : readAt (host ++ rest) (host.length - 1) = .ok (host.getLast hnil) := by
    apply readAt_ok
    rw [List.getElem?_append_left (by omega), ← List.getLast?_eq_getElem?,
      List.getLast?_eq_some_getLast hnil]
  have hbr : Bracketed host ↔ host.head hnil = ascii '[' ∧ host.getLast hnil = ascii ']' := by
    unfold Bracketed
    rw [List.head?_eq_some_head hnil, List.getLast?_eq_some_getLast hnil, Option.some.injEq,
      Option.some.injEq]
  unfold isBracketed
  simp only [hfirst, ok_bind, hbr, subLen_ok (show 1 ≤ host.length from hpos), hlast]
  by_cases hf : host.head hnil = ascii '['
  · simp only [hf, if_true, true_and, pure_eq_ok]
  · simp only [hf, if_false, false_and, decide_false, pure_eq_ok]

theorem parseHost_ok (inetPton : InetPton) (host rest : Bytes) (port : UInt64)
    (addr : Option SharedAddress) :
    parseHost inetPton (host ++ rest) host.length port addr =
      .ok (hostResult inetPton host port.toUInt16 addr) := by
  unfold parseHost hostResult
  by_cases hnil : host = []
  · subst hnil
    cases inetPton .inet6 (text "::") <;> rfl
  have hpos : host.length ≠ 0 := fun h => hnil (List.length_eq_zero_iff.mp h)
  rw [if_neg hpos, if_neg hnil]
  by_cases hone : host.length < 2
  · rw [if_pos hone, if_pos hone]
    rfl
  rw [if_neg hone, if_neg hone, isBracketed_ok hnil]
  simp only [ok_bind, decide_eq_true_eq]
  by_cases hb : Bracketed host
  · rw [if_pos hb, if_pos hb, subLen_ok (by omega)]
    simp only [ok_bind]
    have hmax : maxIpv6StringLen < host.length - 2 ↔ 48 < host.length := by
      show 46 < host.length - 2 ↔ 48 < host.length
      omega
    by_cases hlen : 48 < host.length
    · rw [if_pos hlen, if_pos (hmax.mpr hlen)]
      rfl
    rw [if_neg hlen, if_neg (mt hmax.mp hlen)]
    obtain ⟨ip, hip, hstr⟩ := copyHost_ok (maxIpv6StringLen + 1) (n := host.length - 2)
      (s := (host ++ rest).drop 1) (by simp only [List.length_drop, List.length_append]; omega)
      (Nat.lt_succ_of_le (Nat.le_of_not_lt (mt hmax.mp hlen)))
    have hinner : ((host ++ rest).drop 1).take (host.length - 2) = (host.drop 1).dropLast := by
      rw [List.drop_append_of_le_length (by omega), List.take_append_of_le_length (by
        rw [List.length_drop]
        omega), List.dropLast_eq_take, List.length_drop]
      rfl
    rw [hinner] at hstr
    simp only [hip, ok_bind, hstr]
    cases addr <;> cases inetPton .inet6 (cString (host.drop 1).dropLast) <;> rfl
  · rw [if_neg hb, if_neg hb]
    by_cases hlen : 15 < host.length
    · rw [if_pos hlen]
      exact if_pos hlen
    rw [if_neg hlen, if_neg (show ¬ maxIpv4StringLen < host.length from hlen)]
    obtain ⟨ip, hip, hstr⟩ := copyHost_ok (maxIpv4StringLen + 1) (n := host.length)
      (s := host ++ rest) (by simp only [List.length_append]; omega)
      (Nat.lt_succ_of_le (Nat.le_of_not_lt hlen))
    rw [List.take_left] at hstr
    simp only [hip, ok_bind, hstr]
    cases addr <;> cases inetPton .inet (cString host) <;> rfl

/-! ### The port -/

theorem lastColon_none {s : Bytes} {n : ℕ} (hn : n ≤ s.length)
    (h : ∀ i < n, s[i]? ≠ some (ascii ':')) : lastColon s n = .ok none := by
  induction n with
  | zero => rfl
  | succ n ih =>
    have hr : readAt s n = .ok s[n] := readAt_ok (List.getElem?_eq_getElem (by omega))
    have hne : ¬ s[n] = ascii ':' := by
      intro he
      apply h n (by omega)
      rw [List.getElem?_eq_getElem (by omega), he]
    unfold lastColon
    simp only [hr, ok_bind]
    rw [if_neg hne]
    exact ih (by omega) (fun i hi => h i (by omega))

theorem lastColon_some {host port : Bytes} (h : ascii ':' ∉ port) (n : ℕ) (hn : n ≤ port.length) :
    lastColon (host ++ ascii ':' :: port) (host.length + 1 + n) = .ok (some host.length) := by
  induction n with
  | zero =>
    have hr : readAt (host ++ ascii ':' :: port) host.length = .ok (ascii ':') := by
      apply readAt_ok
      rw [List.getElem?_append_right (Nat.le_refl _), Nat.sub_self]
      rfl
    show lastColon _ (host.length + 1) = _
    unfold lastColon
    simp only [hr, ok_bind, if_true, pure_eq_ok]
  | succ n ih =>
    have hi : n < port.length := by omega
    have hr : readAt (host ++ ascii ':' :: port) (host.length + 1 + n) = .ok port[n] := by
      apply readAt_ok
      rw [List.getElem?_append_right (by omega),
        show host.length + 1 + n - host.length = n + 1 by omega, List.getElem?_cons_succ,
        List.getElem?_eq_getElem hi]
    have hne : ¬ port[n] = ascii ':' := by
      intro he
      apply h
      rw [← he]
      exact List.getElem_mem hi
    show lastColon _ (host.length + 1 + n + 1) = _
    unfold lastColon
    simp only [hr, ok_bind]
    rw [if_neg hne]
    exact ih (by omega)

/-- The text of a port in `1..65535`. -/
def portOf (t : Bytes) : Option UInt16 :=
  (Flags.literalDigits false 10 t).bind fun ds =>
    if t ≠ [] ∧ 0 < numeral 10 0 ds ∧ numeral 10 0 ds < 2 ^ 16 then
      some (UInt16.ofNat (numeral 10 0 ds))
    else none

theorem parseSharedAddress_split (inetPton : InetPton) (host : Bytes) {port : Bytes}
    (h : ascii ':' ∉ port) (addr : Option SharedAddress) :
    parseSharedAddress inetPton (host ++ ascii ':' :: port) (host ++ ascii ':' :: port).length addr =
      .ok (match portOf port with
        | none => (-1, addr)
        | some p => hostResult inetPton host p addr) := by
  have hlen : (host ++ ascii ':' :: port).length = host.length + 1 + port.length := by
    simp only [List.length_append, List.length_cons]
    omega
  unfold parseSharedAddress
  rw [hlen, lastColon_some h _ (Nat.le_refl _)]
  simp only [ok_bind]
  rw [subLen_ok (by omega)]
  simp only [ok_bind]
  rw [subLen_ok (by omega), show host.length + 1 + port.length - host.length - 1 = port.length by
    omega]
  have hdrop : (host ++ ascii ':' :: port).drop (host.length + 1) = port := by
    rw [List.drop_append, List.drop_of_length_le (by omega)]
    simp
  obtain ⟨r, out, hrun, hspec⟩ := Flags.parseUint64_explicit 10 16
    (by omega) (by omega) (by omega) (by omega) port
  have hrun' : parseUint64 (some port) port.length 10 (8 * 2) = .ok (r, out) := hrun
  simp only [hdrop, hrun', ok_bind]
  rcases hspec with ⟨rfl, ds, n, hne, hds, rfl, hv, hlt⟩ | ⟨rfl, hne, rfl, hbig⟩ | ⟨rfl, rfl, hbad⟩
  · by_cases hz : n = 0
    · have hport : portOf port = none := by
        rw [portOf, hds]
        apply if_neg
        rw [← hv, hz]
        exact fun hc => Nat.lt_irrefl 0 hc.2.1
      rw [hport]
      exact if_pos (Or.inr hz)
    · have hpos : 0 < n.toNat := Nat.pos_of_ne_zero (fun h0 => hz (UInt64.toNat_inj.mp h0))
      have hport : portOf port = some n.toUInt16 := by
        rw [portOf, hds]
        simp only [Option.bind_some]
        rw [if_pos ⟨hne, by omega, by omega⟩, ← hv]
        rfl
      rw [hport]
      simp only [Option.getD_some, ne_eq, not_true, hz, or_self, if_false]
      exact parseHost_ok inetPton host (ascii ':' :: port) n addr
  · have hport : portOf port = none := by
      rw [portOf]
      cases hds : Flags.literalDigits false 10 port with
      | none => rfl
      | some ds =>
        have hge := hbig ds hds
        exact if_neg (fun hc => Nat.not_le_of_lt hc.2.2 hge)
    rw [hport]
    rfl
  · have hport : portOf port = none := by
      rcases hbad with rfl | hbad
      · rfl
      · rw [portOf, hbad]
        rfl
    rw [hport]
    rfl

theorem parseSharedAddress_noColon (inetPton : InetPton) {s : Bytes} (h : ascii ':' ∉ s)
    (addr : Option SharedAddress) :
    parseSharedAddress inetPton s s.length addr = .ok (-1, addr) := by
  unfold parseSharedAddress
  rw [lastColon_none (Nat.le_refl _)]
  · rfl
  · intro i hi he
    exact h (List.mem_of_getElem? he)

end LibeventHttpServe.Shared
