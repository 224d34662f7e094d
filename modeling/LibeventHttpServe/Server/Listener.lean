import LibeventHttpServe.Lib.Ownership
import LibeventHttpServe.Shared.Address

/-!
# The two listeners (listener.c, listener.h)

What `sync_listener_init` and `async_listener_init` ask of the system and of
libevent, in order, each call with the answer it got; the answers are a parameter.
Each of the calls is made at most once by one initialisation.
-/

namespace LibeventHttpServe.Server
open Shared

/-- The answers of the system and of libevent: return values, and whether a
pointer is not null. -/
structure Network where
  socket : ℤ
  bind : ℤ
  listen : ℤ
  eventBaseNew : Bool
  evconnlistenerNewBind : Bool

/-- A call and, last, its answer where it has one. -/
inductive NetCall where
  | socket (family : Family) (s : ℤ)
  | bind (s : ℤ) (addr : SharedAddress) (len : ℕ) (err : ℤ)
  | listen (s : ℤ) (backlog : ℕ) (err : ℤ)
  | closesocket (s : ℤ)
  | eventBaseNew (base : Bool)
  | evconnlistenerNewBind (addr : SharedAddress) (len backlog : ℕ) (listener : Bool)
  | eventBaseFree
  | evconnlistenerEnable
  deriving DecidableEq, Repr

/-- `sync_listener_t` without the pointer to the load balancer. -/
structure SyncListener where
  s : ℤ
  v6 : Bool
  ok : Bool
  deriving DecidableEq, Repr

/-- `async_listener_t`: which of its pointers are not null. -/
structure AsyncListener where
  base : Bool
  listener : Bool
  deriving DecidableEq, Repr

/-- `addr->v6` as the condition that chooses family, member and length. -/
def useV6 (addr : SharedAddress) : Bool := decide (addr.v6 ≠ 0)

-- sizeof(struct sockaddr_in6) and sizeof(struct sockaddr_in)
def addrSize (v6 : Bool) : ℕ := if v6 then 28 else 16

def backlog : ℕ := 128

/-- `sync_listener_init`. -/
def syncListenerInit (net : Network) (l : SyncListener) (addr : SharedAddress) :
    List NetCall × SyncListener × ℤ :=
  let v6 := useV6 addr
  let calls := [.socket (if v6 then .inet6 else .inet) net.socket]
  if net.socket = -1 then (calls, l, -1)
  else
    let calls := calls ++ [.bind net.socket addr (addrSize v6) net.bind]
    if net.bind < 0 then (calls ++ [.closesocket net.socket], l, -1)
    else
      let calls := calls ++ [.listen net.socket backlog net.listen]
      if net.listen < 0 then (calls ++ [.closesocket net.socket], l, -1)
      else (calls, ⟨net.socket, v6, true⟩, 0)

/-- `async_listener_init`. The options of the listener are fixed ones. -/
def asyncListenerInit (net : Network) (l : AsyncListener) (addr : SharedAddress) :
    List NetCall × AsyncListener × ℤ :=
  let calls := [.eventBaseNew net.eventBaseNew]
  if !net.eventBaseNew then (calls, l, -1)
  else
    let calls := calls ++ [.evconnlistenerNewBind addr (addrSize (useV6 addr)) backlog
      net.evconnlistenerNewBind]
    if !net.evconnlistenerNewBind then (calls ++ [.eventBaseFree], l, -1)
    else (calls, ⟨true, true⟩, 0)

/-! ### What an initialisation opens and closes -/

inductive Handle where
  | socket (s : ℤ)
  | base
  | listener
  deriving DecidableEq, Repr

/-- The handle that a call opens or closes: one that fails opens none. -/
def NetCall.entry : NetCall → Option (Lib.Entry Handle)
  | .socket _ s => if s = -1 then none else some (.acquire (.socket s))
  | .closesocket s => some (.release (.socket s))
  | .eventBaseNew base => if base then some (.acquire .base) else none
  | .evconnlistenerNewBind _ _ _ listener => if listener then some (.acquire .listener) else none
  | .eventBaseFree => some (.release .base)
  | .bind .. | .listen .. | .evconnlistenerEnable => none

def entries (calls : List NetCall) : List (Lib.Entry Handle) :=
  calls.filterMap NetCall.entry

/-- The calls of a `sync_listener_init` that returns 0. -/
def syncCalls (net : Network) (addr : SharedAddress) : List NetCall :=
  [.socket (if useV6 addr then .inet6 else .inet) net.socket,
    .bind net.socket addr (addrSize (useV6 addr)) net.bind,
    .listen net.socket backlog net.listen]

/-- The calls of an `async_listener_init` that returns 0. -/
def asyncCalls (net : Network) (addr : SharedAddress) : List NetCall :=
  [.eventBaseNew net.eventBaseNew,
    .evconnlistenerNewBind addr (addrSize (useV6 addr)) backlog net.evconnlistenerNewBind]

/- Nothing is opened, or one handle is opened and closed again. -/
theorem settled_pair (r : Handle) (h : Handle) :
    Lib.Settled [.acquire h, .release h] r := by
  have hperm : Lib.Settled ([h].map .acquire ++ [h].map .release) r :=
    Lib.settled_of_perm (by simp) (.refl _) r
  simpa using hperm

theorem syncListenerInit_cases (net : Network) (l : SyncListener) (addr : SharedAddress) :
    (syncListenerInit net l addr = (syncCalls net addr, ⟨net.socket, useV6 addr, true⟩, 0) ∧
        net.socket ≠ -1 ∧ 0 ≤ net.bind ∧ 0 ≤ net.listen) ∨
      ∃ calls, syncListenerInit net l addr = (calls, l, -1) ∧
        ∀ r, Lib.Settled (entries calls) r := by
  unfold syncListenerInit
  split_ifs with hs hb hl
  · refine Or.inr ⟨_, rfl, fun r => Or.inl ?_⟩
    simp [entries, NetCall.entry, hs, Lib.history]
  · refine Or.inr ⟨_, rfl, fun r => ?_⟩
    simpa [entries, List.filterMap_cons, NetCall.entry, hs] using
      settled_pair r (.socket net.socket)
  · refine Or.inr ⟨_, rfl, fun r => ?_⟩
    simpa [entries, List.filterMap_cons, NetCall.entry, hs] using
      settled_pair r (.socket net.socket)
  · exact Or.inl ⟨rfl, hs, not_lt.mp hb, not_lt.mp hl⟩

theorem asyncListenerInit_cases (net : Network) (l : AsyncListener) (addr : SharedAddress) :
    (asyncListenerInit net l addr = (asyncCalls net addr, ⟨true, true⟩, 0) ∧
        net.eventBaseNew = true ∧ net.evconnlistenerNewBind = true) ∨
      ∃ calls, asyncListenerInit net l addr = (calls, l, -1) ∧
        ∀ r, Lib.Settled (entries calls) r := by
  unfold asyncListenerInit
  cases hb : net.eventBaseNew with
  | false =>
    refine Or.inr ⟨[.eventBaseNew false], rfl, fun r => Or.inl ?_⟩
    simp [entries, NetCall.entry, Lib.history]
  | true =>
    cases hl : net.evconnlistenerNewBind with
    | false =>
      refine Or.inr ⟨_, rfl, fun r => ?_⟩
      simpa [entries, NetCall.entry] using settled_pair r .base
    | true =>
      refine Or.inl ⟨?_, rfl, rfl⟩
      simp [asyncCalls, hb, hl]

/-! ### The address that is listened on -/

/-- The call makes a socket for `addr`, or binds one to it. -/
def NetCall.Uses (addr : SharedAddress) : NetCall → Prop
  | .socket family _ => family = if useV6 addr then .inet6 else .inet
  | .bind _ a len _ => a = addr ∧ len = addrSize (useV6 addr)
  | .evconnlistenerNewBind a len _ _ => a = addr ∧ len = addrSize (useV6 addr)
  | .listen .. | .closesocket _ | .eventBaseNew _ | .eventBaseFree | .evconnlistenerEnable =>
    True

theorem syncListenerInit_uses (net : Network) (l : SyncListener) (addr : SharedAddress) :
    ∀ c ∈ (syncListenerInit net l addr).1, c.Uses addr := by
  unfold syncListenerInit
  split_ifs <;> simp [NetCall.Uses]

theorem asyncListenerInit_uses (net : Network) (l : AsyncListener) (addr : SharedAddress) :
    ∀ c ∈ (asyncListenerInit net l addr).1, c.Uses addr := by
  unfold asyncListenerInit
  split_ifs <;> simp [NetCall.Uses]

end LibeventHttpServe.Server
