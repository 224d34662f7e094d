import LibeventHttpServe.Example.Tree
import LibeventHttpServe.Flags.Termination

/-!
# Only validated values reach the handler

Whatever the arguments are, the variable `flags` has values that the `verify`
functions accept, from its initial ones on.
-/

namespace LibeventHttpServe.Example

open LibeventHttpServe.Lib LibeventHttpServe.Flags LibeventHttpServe.Shared
open LibeventHttpServe.Balancer (LOAD_BALANCE_ROUND LOAD_BALANCE_RANDOM)

/-! ### The values of the flags -/

theorem parse_error (inetPton : InetPton) (s : Bytes) :
    ∃ err, ∀ addr, ∃ out, parseSharedAddress inetPton s s.length addr = .ok (err, out) := by
  rcases split_last (ascii ':') s with hno | ⟨host, port, rfl, hno⟩
  · exact ⟨-1, fun addr => ⟨addr, parseSharedAddress_noColon inetPton hno addr⟩⟩
  cases hport : portOf port with
  | none =>
    refine ⟨-1, fun addr => ⟨addr, ?_⟩⟩
    rw [parseSharedAddress_split inetPton host hno addr, hport]
  | some p =>
    refine ⟨(hostResult inetPton host p none).1, fun addr =>
      ⟨(hostResult inetPton host p addr).2, ?_⟩⟩
    have hfst : (hostResult inetPton host p addr).1 = (hostResult inetPton host p none).1 := by
      unfold hostResult
      split
      · split <;> rfl
      split
      · rfl
      split
      · split
        · rfl
        · split <;> rfl
      split
      · rfl
      · split <;> rfl
    rw [parseSharedAddress_split inetPton host hno addr, hport, ← hfst]

/-- What the `verify` functions accept. -/
structure Valid (inetPton : InetPton) (m : RootFlags) : Prop where
  addr : ∀ a, ∃ out, parseSharedAddress inetPton m.addr m.addr.length (some a) = .ok (0, out)
  balance : m.balance = LOAD_BALANCE_ROUND ∨ m.balance = LOAD_BALANCE_RANDOM
  worker : 2 ≤ m.worker.toNat ∧ m.worker.toNat ≤ 255

theorem verifyAddr_ok {inetPton : InetPton} {s : Bytes} (h : verifyAddr inetPton s = 0)
    (a : SharedAddress) :
    ∃ out, parseSharedAddress inetPton s s.length (some a) = .ok (0, out) := by
  obtain ⟨err, herr⟩ := parse_error inetPton s
  obtain ⟨out, hout⟩ := herr none
  unfold verifyAddr at h
  rw [hout] at h
  have hzero : err = 0 := h
  subst hzero
  exact herr (some a)

theorem valid_rootFlags (inetPton : InetPton) : Valid inetPton rootFlags where
  addr := by
    intro a
    have h := parseSharedAddress_split inetPton [] (show ascii ':' ∉ text "9000" by decide)
      (some a)
    have hport : portOf (text "9000") = some 9000 := by decide
    have htext : rootFlags.addr = [] ++ ascii ':' :: text "9000" := by decide
    have hfst : (hostResult inetPton [] 9000 (some a)).1 = 0 := by
      unfold hostResult
      rw [if_pos rfl]
      split <;> rfl
    rw [hport] at h
    rw [htext, h]
    refine ⟨(hostResult inetPton [] 9000 (some a)).2, ?_⟩
    rw [← hfst]
  balance := Or.inl rfl
  worker := by decide

theorem verifyWorker_ok {v : UInt8} (h : verifyWorker v = 0) :
    2 ≤ v.toNat ∧ v.toNat ≤ 255 := by
  unfold verifyWorker at h
  have hlt : v.toNat < 256 := v.toNat_lt
  split at h
  · cases h
  · rename_i hv
    rw [UInt8.lt_iff_toNat_lt] at hv
    have htwo : (2 : UInt8).toNat = 2 := rfl
    omega

theorem verifyBalance_ok {v : UInt8} (h : verifyBalance v = 0) :
    v = LOAD_BALANCE_ROUND ∨ v = LOAD_BALANCE_RANDOM := by
  unfold verifyBalance at h
  split at h
  · assumption
  · cases h

theorem stored_valid {α : Type} {inetPton : InetPton} {m : RootFlags} (hm : Valid inetPton m)
    {store : α → RootFlags} {r : Lib.Checked (Except ℤ α)}
    (h : ∀ v, r = .ok (.ok v) → Valid inetPton (store v)) :
    Valid inetPton (stored m store r).2 := by
  unfold stored
  split
  · exact h _ rfl
  · exact hm

/- A flag of `main` keeps the values valid: nothing is stored that `verify` has not
seen. -/
theorem setFlag_valid {inetPton : InetPton} {m : RootFlags} (hm : Valid inetPton m) {g : Flag}
    (hg : Guarded g) (s : Bytes) (n : ℕ) : Valid inetPton (setFlag inetPton m g s n).2 := by
  obtain ⟨haddr, hbalance, hworker⟩ := hm
  unfold setFlag
  rcases hg with ⟨hh, hvalue⟩ | ⟨hh, hvalue, hverify⟩ | ⟨hh, hvalue, hverify⟩ |
    ⟨hh, hvalue, hverify⟩
  · rw [hh]
    apply stored_valid ⟨haddr, hbalance, hworker⟩
    intro v _
    rw [hvalue]
    exact ⟨haddr, hbalance, hworker⟩
  · rw [hh]
    apply stored_valid ⟨haddr, hbalance, hworker⟩
    intro v hv
    rw [hverify] at hv
    rw [hvalue]
    exact ⟨verifyAddr_ok (setFlagWith_verified hv), hbalance, hworker⟩
  · rw [hh]
    apply stored_valid ⟨haddr, hbalance, hworker⟩
    intro v hv
    rw [hverify] at hv
    rw [hvalue]
    exact ⟨haddr, verifyBalance_ok (setFlagWith_verified hv), hworker⟩
  · rw [hh]
    apply stored_valid ⟨haddr, hbalance, hworker⟩
    intro v hv
    rw [hverify] at hv
    rw [hvalue]
    exact ⟨haddr, hbalance, verifyWorker_ok (setFlagWith_verified hv)⟩

/-! ### The run -/

section Run

variable {inetPton : InetPton} {malloc : ℕ → ℕ → Bool}
  {handler : Fn → Ptr → ℕ → Option (List (Option Bytes)) → RootFlags → ℤ} {v : Forest}
  {cmd : Ptr} {l : List Flag} {argv : List Bytes}

/-- At the command of `main`, with valid values, before its handler. -/
def Ready (inetPton : InetPton) (cmd c : Ptr) (w : World HandlerArgs RootFlags) : Prop :=
  c = cmd ∧ Valid inetPton w.mem ∧ Silent w.log

theorem read_ready (inetPton : InetPton) (hroot : Root v cmd l) (hguard : ∀ g ∈ l, Guarded g)
    {x : Input} (hx : x.commands = v.commands) {e : Env RootFlags}
    (he : e.setFlag = setFlag inetPton) {w : World HandlerArgs RootFlags}
    (hw : Ready inetPton cmd cmd w) :
    ∃ w', Ready inetPton cmd (read x e (pushAt x e) x.argv 0 cmd false w).command w' ∧
      (read x e (pushAt x e) x.argv 0 cmd false w).Ends w' := by
  have hphases := read_phases x e (pushAt x e)
    (F := fun _ => Ready inetPton cmd) (G := fun _ => Ready inetPton cmd)
    ?_ (fun _ _ _ _ hF _ _ => hF) (fun _ _ _ hF _ => hF) (fun _ _ _ hG => hG) ?_
    (fun _ _ _ _ _ hG => hG) x.argv 0 cmd false w rfl hw
  · obtain ⟨-, w', hw', hends⟩ := hphases
    exact ⟨w', hw', hends⟩
  · intro i t c w d hF _ _ hfind
    obtain ⟨rfl, -⟩ := hF
    rw [hx, hroot.child] at hfind
    cases hfind
  · intro i c w f s n hG hf
    obtain ⟨rfl, hm, hlog⟩ := hG
    rw [hx, hroot.flags] at hf
    refine ⟨rfl, ?_, silent_append.mpr ⟨hlog, rfl, rfl⟩⟩
    show Valid inetPton (e.setFlag w.mem f s n).2
    rw [he]
    exact setFlag_valid hm (hguard f hf) s n

theorem finish_ready {x : Input} {e : Env RootFlags} {r : Reading HandlerArgs RootFlags}
    {w : World HandlerArgs RootFlags} (hh : x.commands.handler cmd = some rootHandler)
    (hw : Ready inetPton cmd r.command w) (hends : r.Ends w) :
    Valid inetPton (finish x e r).world.mem ∧
      ∀ c f argc av, Event.call c f argc av ∈ (finish x e r).world.log →
        c = cmd ∧ f = rootHandler ∧ (finish x e r).handlerResult =
          e.handler rootHandler cmd argc av (finish x e r).world.mem := by
  obtain ⟨hc, hm, hcalls, -⟩ := hw
  rw [finish_mem hends]
  refine ⟨hm, ?_⟩
  intro c f argc av hin
  have hcall := (finish_calls hcalls hends c f argc av).mp hin
  have hresult := finish_result (e := e) hends hcall
  obtain ⟨-, hcmd, hf, -⟩ := hcall
  rw [hc] at hcmd hf
  rw [hh, Option.some.injEq] at hf
  subst hcmd hf
  exact ⟨rfl, rfl, hresult⟩

/-- Whatever the arguments are, `root_handler` is the only handler that is called,
and the values it is called with are valid. -/
theorem main_valid (inetPton : InetPton) (malloc : ℕ → ℕ → Bool)
    (handler : Fn → Ptr → ℕ → Option (List (Option Bytes)) → RootFlags → ℤ) {name : Bytes}
    {answers : ℕ → Option Ptr} {s : Registry} (h : mainTree name answers = some (cmd, s)) :
    ∃ v, Stores s v ∧ WellFormed v ∧ ∀ argv fuel r,
      execute ⟨v.commands, argv, true⟩ (mainEnv inetPton malloc handler) cmd rootFlags fuel =
          some r →
        Valid inetPton r.world.mem ∧ ∀ c f argc av, Event.call c f argc av ∈ r.world.log →
          c = cmd ∧ f = rootHandler ∧
            r.handlerResult = handler rootHandler cmd argc av r.world.mem := by
  obtain ⟨v, l, hst, hv, hroot, hguard⟩ := mainTree_root h
  refine ⟨v, hst, hv, ?_⟩
  intro argv fuel r hr
  obtain ⟨w, hw, hends⟩ := read_ready inetPton hroot hguard
    (x := ⟨v.commands, argv, true⟩) rfl (e := mainEnv inetPton malloc handler) rfl
    (w := ⟨rootFlags, .start, []⟩) ⟨rfl, valid_rootFlags inetPton, rfl, rfl⟩
  rw [execute_unique hr]
  exact finish_ready hroot.handler hw hends

theorem main_valid_run :
    ∃ s v, mainTree (text "server") some = some (0, s) ∧ Stores s v ∧ ∀ argv fuel r,
      execute ⟨v.commands, argv, true⟩
          (mainEnv (fun _ _ => none) (fun _ _ => true) (fun _ _ _ _ _ => 0)) 0 rootFlags fuel =
          some r → Valid (fun _ _ => none) r.world.mem := by
  have hobs : (mainTree (text "server") some).map Prod.fst = some 0 := by decide
  obtain ⟨⟨cmd, s⟩, hs, rfl⟩ := Option.map_eq_some_iff.mp hobs
  obtain ⟨v, hst, -, hall⟩ := main_valid (fun _ _ => none) (fun _ _ => true)
    (fun _ _ _ _ _ => 0) hs
  exact ⟨s, v, hs, hst, fun argv fuel r hr => (hall argv fuel r hr).1⟩

end Run

end LibeventHttpServe.Example
