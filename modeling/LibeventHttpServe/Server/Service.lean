import LibeventHttpServe.Balancer.Fairness
import LibeventHttpServe.Server.Startup
import LibeventHttpServe.Shared.AddressText
import LibeventHttpServe.Shared.Output

/-!
# What the running server does with a connection

The guarantees of the load balancer's queues hold of the whole process, from the
command line on, and none of them needs a condition on the environment: the
process hands nothing to the balancer before it is complete.
-/

namespace LibeventHttpServe.Server
open Lib Shared Example
open Balancer (State HandOver At returned LOAD_BALANCE_ROUND)

section
variable {inetPton : InetPton} {m : RootFlags} {s : Process}

/-! ### Delivery -/

/-- From the command line to the workers: whatever the arguments are, and however
the threads of the server that they start are scheduled, every accepted
connection is handed over exactly once and in order. -/
theorem main_handOver (inetPton : InetPton) (malloc : ℕ → ℕ → Bool)
    (handler : Flags.Fn → Flags.Ptr → ℕ → Option (List (Option Flags.Bytes)) → RootFlags → ℤ)
    {name : Flags.Bytes} {answers : ℕ → Option Flags.Ptr} {cmd : Flags.Ptr}
    {st : Flags.Registry} (h : mainTree name answers = some (cmd, st)) :
    ∃ v, Flags.Stores st v ∧ Flags.WellFormed v ∧ ∀ argv fuel r,
      Flags.execute ⟨v.commands, argv, true⟩ (mainEnv inetPton malloc handler) cmd rootFlags
          fuel = some r →
        ∀ s, (serverSystem inetPton r.world.mem).Reachable s →
          HandOver r.world.mem.worker.toNat s.balancer := by
  obtain ⟨v, l, hst, hv, hroot, hguard⟩ := mainTree_root h
  refine ⟨v, hst, hv, ?_⟩
  intro argv fuel r hr s hs
  obtain ⟨w, hw, hends⟩ := read_ready inetPton hroot hguard
    (x := ⟨v.commands, argv, true⟩) rfl (e := mainEnv inetPton malloc handler) rfl
    (w := ⟨rootFlags, .start, []⟩) ⟨rfl, valid_rootFlags inetPton, rfl, rfl⟩
  rw [Flags.execute_unique hr] at hs ⊢
  have hvalid := (finish_ready (x := ⟨v.commands, argv, true⟩)
    (e := mainEnv inetPton malloc handler) hroot.handler hw hends).1
  refine (Balancer.inv_reachable ?_ (queues_reachable hs)).handOver
  intro hzero
  have htwo := hvalid.worker.1
  rw [hzero] at htwo
  exact absurd htwo (by decide)

theorem main_handOver_run :
    ∃ st v, mainTree (Flags.text "server") some = some (0, st) ∧ Flags.Stores st v ∧
      ∀ argv fuel r, Flags.execute ⟨v.commands, argv, true⟩
          (mainEnv (fun _ _ => none) (fun _ _ => true) (fun _ _ _ _ _ => 0)) 0 rootFlags fuel =
            some r →
        ∀ s, (serverSystem (fun _ _ => none) r.world.mem).Reachable s →
          HandOver r.world.mem.worker.toNat s.balancer := by
  have hobs : (mainTree (Flags.text "server") some).map Prod.fst = some 0 := by decide
  obtain ⟨⟨cmd, st⟩, hs, rfl⟩ := Option.map_eq_some_iff.mp hobs
  obtain ⟨v, hst, -, hall⟩ := main_handOver (fun _ _ => none) (fun _ _ => true)
    (fun _ _ _ _ _ => 0) hs
  exact ⟨st, v, hs, hst, hall⟩

/- Two workers behind the synchronous listener. -/
def syncFlags : RootFlags := { rootFlags with sync := 1, worker := 2 }

def syncStart : Process :=
  Process.initial (fun _ _ => none) syncFlags ⟨0, .addr ⟨.unspec, (0, 0), []⟩⟩

/- The server comes up, accepts one connection and serves it. -/
def serveOneRun : List ServerAction :=
  .evthread true :: .initBalancer (fun _ => true) :: List.replicate 17 .main ++
    [.initListener ⟨3, 0, 0, true, true⟩, .accept 7 [2, 0] 2 0 (some 10), .push, .activate,
      .enter 0, .wake 0, .advance 0, .advance 0]

/-! ### Before the first connection -/

theorem ready_of_serving (hw : m.worker ≠ 0) (hs : (serverSystem inetPton m).Reachable s)
    (hpc : s.pc = .serving) :
    ∃ ok, Ready m.worker.toNat ok s ∧ ∃ net, Listening net s := by
  have hat := (inv_reachable hw hs).atPc
  rw [hpc] at hat
  obtain ⟨ok, hr, -, hl⟩ := hat
  exact ⟨ok, hr, hl⟩

/- A thread that exists works on live objects, while nothing was released. -/
theorem Ready.held {n : ℕ} {ok : Balancer.Call → Bool} (h : Ready n ok s) {w : ℕ} (hw : w < n) :
    Balancer.Held s.life.live w := by
  have hthread := h.thread hw
  cases h.setUp.safe h.result with
  | idle _ ha => exact (hthread (ha w)).elim
  | running _ hheld _ _ => exact hheld w hthread

/-- No connection is accepted before all workers are complete and named and the
listener is open; nothing is freed while the listener serves. -/
theorem ready_before_accept (inetPton : InetPton) (m : RootFlags) (hw : m.worker ≠ 0)
    {s : Process} (hs : (serverSystem inetPton m).Reachable s) :
    (s.balancer.accepted ≠ [] → ∀ w < m.worker.toNat,
      s.life.thread w ≠ .absent ∧ s.ids w = w) ∧
    (s.pc = .serving → (∃ net, Listening net s) ∧ ∀ w < m.worker.toNat,
      s.life.thread w ≠ .absent ∧ s.ids w = w ∧ Balancer.Held s.life.live w) := by
  constructor
  · intro hacc w hlt
    have hat := (inv_reachable hw hs).atPc
    cases hpc : s.pc with
    | start =>
      rw [hpc] at hat
      exact (hacc hat.2.2.2.2.1).elim
    | balancer =>
      rw [hpc] at hat
      exact (hacc hat.2.2.2.2.1).elim
    | initBalancer b =>
      rw [hpc] at hat
      obtain ⟨ok, -, -, -, hf⟩ := hat
      exact (hacc hf.1).elim
    | listener =>
      rw [hpc] at hat
      obtain ⟨ok, -, -, hf⟩ := hat
      exact (hacc hf.1).elim
    | serving =>
      obtain ⟨ok, hr, -⟩ := ready_of_serving hw hs hpc
      exact ⟨hr.thread hlt, hr.id hlt⟩
    | ending err =>
      rw [hpc] at hat
      obtain ⟨ok, hd, -⟩ := hat
      exact ⟨hd.thread w hlt, hd.ids w hlt⟩
    | returned err =>
      rw [hpc] at hat
      rcases hat with ⟨-, -, -, hf⟩ | ⟨ok, -, -, -, -, hf⟩ | ⟨ok, hd, -⟩
      · exact (hacc hf.1).elim
      · exact (hacc hf.1).elim
      · exact ⟨hd.thread w hlt, hd.ids w hlt⟩
  · intro hpc
    obtain ⟨ok, hr, hl⟩ := ready_of_serving hw hs hpc
    exact ⟨hl, fun w hlt => ⟨hr.thread hlt, hr.id hlt, hr.held hlt⟩⟩

theorem ready_before_accept_run :
    ∃ s, (serverSystem (fun _ _ => none) syncFlags).exec serveOneRun syncStart = some s ∧
      s.pc = .serving ∧ ∀ w < 2,
        s.life.thread w ≠ .absent ∧ s.ids w = w ∧ Balancer.Held s.life.live w := by
  have hobs : ((serverSystem (fun _ _ => none) syncFlags).exec serveOneRun syncStart).map
      Process.pc = some .serving := by
    decide
  obtain ⟨s, hs, hpc⟩ := Option.map_eq_some_iff.mp hobs
  have hready := ready_before_accept (fun _ _ => none) syncFlags (by decide)
    (System.reachable_exec (.init ⟨_, rfl⟩) hs)
  exact ⟨s, hs, hpc, (hready.2 hpc).2⟩

/-! ### The synchronous listener -/

/-- Every `malloc` of `load_balancer_serve` succeeds. -/
def Allocates (_ : Process) : ServerAction → Prop
  | .accept _ _ _ _ malloc => malloc ≠ none
  | _ => True

instance (s : Process) : ∀ a, Decidable (Allocates s a)
  | .accept _ _ _ _ malloc => inferInstanceAs (Decidable (malloc ≠ none))
  | .evthread _ | .initBalancer _ | .main | .initListener _ | .push | .activate
  | .listenerReturns | .enter _ | .timeout _ | .wake _ | .advance _ => isTrue trivial

theorem atPc_accepted {n : ℕ} {pc : MainPc} (h : AtPc n s pc) (hsync : s.flags.sync ≠ 0)
    (hacc : s.balancer.accepted ≠ []) : pc = .serving := by
  have hclosed : ∀ {err}, ¬ Closed err s := by
    rintro err (⟨-, hnil, -⟩ | ⟨-, hasync, -⟩)
    · exact hacc hnil
    · exact hsync hasync
  cases pc with
  | start => exact (hacc h.2.2.2.2.1).elim
  | balancer => exact (hacc h.2.2.2.2.1).elim
  | initBalancer b =>
    obtain ⟨ok, -, -, -, hf⟩ := h
    exact (hacc hf.1).elim
  | listener =>
    obtain ⟨ok, -, -, hf⟩ := h
    exact (hacc hf.1).elim
  | serving => rfl
  | ending err =>
    obtain ⟨ok, -, hc⟩ := h
    exact (hclosed hc).elim
  | returned err =>
    rcases h with ⟨-, -, -, hf⟩ | ⟨ok, -, -, -, -, hf⟩ | ⟨ok, -, -, hc⟩
    · exact (hacc hf.1).elim
    · exact (hacc hf.1).elim
    · exact (hclosed hc).elim

/- The queues of a balancer that never accepted anything. -/
theorem next_of_accepted {balance worker : UInt8} {q : State}
    (hi : Balancer.Inv balance worker q) (hacc : q.accepted = []) (w : ℕ) :
    (q.workers w).next = none := by
  obtain ⟨L, owner, hr⟩ := hi.rep
  have hcov := hi.ledger.covers
  rw [hacc, List.prefix_nil, List.append_eq_nil_iff, List.map_eq_nil_iff] at hcov
  have hpushed : Balancer.pushed q w = [] := by simp [Balancer.pushed, hcov.1]
  have hL : L w = [] := by
    have hh := hr.history w
    rw [hpushed] at hh
    simpa using (List.append_eq_nil_iff.mp hh).2
  have hch := hr.chain w
  rw [hL] at hch
  exact Chain.segment_nil.mp hch

/- With the synchronous listener the balancer is taken down only before it has
accepted anything. -/
theorem refines_provided (hw : m.worker ≠ 0) (hsync : m.sync ≠ 0) :
    ((serverSystem inetPton m).restrict Allocates).Refines
      ((Balancer.system m.balance m.worker).restrict Balancer.Provided) Process.balancer where
  init := by
    rintro s ⟨garbage, rfl⟩
    rfl
  step := by
    intro s a s' hs h
    obtain ⟨hg, h⟩ := System.restrict_step.mp h
    have hreach := System.reachable_of_restrict hs
    have hi := inv_reachable hw hreach
    have hq := Balancer.inv_reachable hw (queues_reachable hreach)
    have hdestroy : s.balancer.accepted = [] →
        Balancer.step s.balancer .destroy = some s'.balancer →
        ∃ b, ((Balancer.system m.balance m.worker).restrict Balancer.Provided).step
          s.balancer b = some s'.balancer := fun hacc hb =>
      ⟨.destroy, System.restrict_step.mpr ⟨fun w _ => next_of_accepted hq hacc w, hb⟩⟩
    have hother : ∀ b q, Balancer.Provided s.balancer b → Balancer.step s.balancer b = some q →
        ∃ b, ((Balancer.system m.balance m.worker).restrict Balancer.Provided).step
          s.balancer b = some q := fun b q hp hb => ⟨b, System.restrict_step.mpr ⟨hp, hb⟩⟩
    have hat := hi.atPc
    cases step_effect h with
    | evthread ok hpc => exact Or.inl rfl
    | initBalancer ok hpc hl => exact Or.inl rfl
    | name b w hpc hu => exact Or.inl rfl
    | perform op rest hpc hl => exact Or.inl rfl
    | initialised b hpc hu hl => exact Or.inl rfl
    | exit err hpc hl => exact Or.inl rfl
    | listener net s' hpc h =>
      rw [hpc] at hat
      obtain ⟨ok, -, -, hf⟩ := hat
      rcases initListenerStep_parts h with ⟨-, he⟩ | ⟨-, he⟩
      · exact Or.inl he
      · exact Or.inr (hdestroy hf.1 he)
    | retry fd addr addrLen rand malloc hpc => exact Or.inl rfl
    | dispatch a q b hpc ha hb =>
      refine Or.inr (hother q b ?_ hb)
      cases a <;> cases ha <;> exact hg
    | listenerReturns s' hpc hok h =>
      obtain ⟨ok, -, net, hl⟩ := ready_of_serving hw hreach hpc
      have hflag : s.flags.sync ≠ 0 := by
        rw [hi.flags]
        exact hsync
      exact (hok ⟨hflag, listening_sync hl hflag⟩).elim
    | enter w life hl => exact Or.inl rfl
    | worker a w q b ha ht hb =>
      refine Or.inr (hother q b ?_ hb)
      cases a <;> cases ha <;> exact trivial

/-- With the synchronous listener no socket is dropped, provided that `malloc`
succeeds: once a connection was accepted the program does not come to its end. -/
theorem sync_keeps_sockets (inetPton : InetPton) (m : RootFlags) (hw : m.worker ≠ 0)
    (hsync : m.sync ≠ 0) {s : Process}
    (hs : ((serverSystem inetPton m).restrict Allocates).Reachable s) :
    s.balancer.crashed = false ∧
      (∀ c ∈ returned s.balancer, ∃! p, At m.worker.toNat s.balancer c p) ∧
      (s.balancer.accepted ≠ [] → s.pc = .serving) := by
  have hreach := System.reachable_of_restrict hs
  have hq := Balancer.inv_reachable hw (queues_reachable hreach)
  have hk := Balancer.intact_reachable hw ((refines_provided hw hsync).reachable hs)
  have hi := inv_reachable hw hreach
  refine ⟨hk.noNull, ?_, ?_⟩
  · intro c hc
    obtain ⟨w, hlog⟩ := Balancer.returned_logged hq.ledger hk.noNull hc
    exact Balancer.place_unique hq hlog
  · intro hacc
    refine atPc_accepted hi.atPc ?_ hacc
    rw [hi.flags]
    exact hsync

theorem sync_keeps_sockets_run :
    ∃ s, ((serverSystem (fun _ _ => none) syncFlags).restrict Allocates).exec serveOneRun
        syncStart = some s ∧
      returned s.balancer = [⟨0, 7, 2, [2, 0]⟩] ∧
      ∀ c ∈ returned s.balancer, ∃! p, At 2 s.balancer c p := by
  have hobs : (((serverSystem (fun _ _ => none) syncFlags).restrict Allocates).exec serveOneRun
      syncStart).map (fun s => returned s.balancer) = some [⟨0, 7, 2, [2, 0]⟩] := by
    decide
  obtain ⟨s, hs, hret⟩ := Option.map_eq_some_iff.mp hobs
  exact ⟨s, hs, hret, (sync_keeps_sockets (fun _ _ => none) syncFlags (by decide) (by decide)
    (System.reachable_exec (.init ⟨_, rfl⟩) hs)).2.1⟩

/-! ### The reply -/

theorem served_logged {balance worker : UInt8} {q : State} (hi : Balancer.Inv balance worker q)
    {w : ℕ} {c : Balancer.Conn} (hc : c ∈ (q.workers w).served) : (w, c) ∈ q.log := by
  obtain ⟨L, owner, hr⟩ := hi.rep
  refine Balancer.mem_pushed.mp ?_
  rw [← hr.history w, List.append_assoc]
  exact List.mem_append_left _ hc

/-- With `--balance 1` the connection accepted as number `k` is answered by the worker
`k % worker`, which puts this number into the reply. -/
theorem round_reply (inetPton : InetPton) (m : RootFlags) (hw : m.worker ≠ 0)
    (hround : m.balance = LOAD_BALANCE_ROUND) {s : Process}
    (hs : (serverSystem inetPton m).Reachable s) {w : ℕ} {c : Balancer.Conn}
    (hc : c ∈ (s.balancer.workers w).served) :
    s.balancer.accepted[c.serial]? = some c ∧
      httpHandler (s.ids w) = (200, Flags.text "Ok", Flags.text "serve by worker " ++
        Flags.decimal (c.serial % m.worker.toNat) ++ Flags.text "\n") := by
  have hqueues := queues_reachable hs
  have hq := Balancer.inv_reachable hw hqueues
  have hlog := served_logged hq hc
  obtain ⟨k, hk⟩ := List.getElem?_of_mem hlog
  have hserial := Balancer.log_serial hq.ledger hk
  have hacc : s.balancer.accepted[c.serial]? = some c := by
    have hsnd : (s.balancer.log.map Prod.snd)[k]? = some c := by rw [List.getElem?_map, hk]; rfl
    obtain ⟨rest, hrest⟩ := (List.prefix_append _ _).trans hq.ledger.covers
    rw [hserial, ← hrest, List.getElem?_append_left (List.getElem?_eq_some_iff.mp hsnd).1, hsnd]
  refine ⟨hacc, ?_⟩
  have hne : s.balancer.accepted ≠ [] := by
    intro hnil
    rw [hnil] at hacc
    cases hacc
  have hid := ((ready_before_accept inetPton m hw hs).1 hne w (hq.bounds.log _ hlog)).2
  rw [hround] at hqueues
  have hturn := (Balancer.inTurn_reachable hw hqueues).log
  have hlt : k < s.balancer.log.length := (List.getElem?_eq_some_iff.mp hk).1
  have hfst : (s.balancer.log.map Prod.fst)[k]? = some w := by rw [List.getElem?_map, hk]; rfl
  rw [hturn, Balancer.turns, List.getElem?_map, List.getElem?_range hlt] at hfst
  have hwk : k % m.worker.toNat = w := Option.some.inj hfst
  rw [hid, hserial, hwk]
  rfl

theorem round_reply_run :
    ∃ s, (serverSystem (fun _ _ => none) syncFlags).exec serveOneRun syncStart = some s ∧
      httpHandler (s.ids 0) = (200, Flags.text "Ok", Flags.text "serve by worker 0\n") := by
  have hobs : ((serverSystem (fun _ _ => none) syncFlags).exec serveOneRun syncStart).map
      (fun s => (s.balancer.workers 0).served) = some [⟨0, 7, 2, [2, 0]⟩] := by
    decide
  obtain ⟨s, hs, hserved⟩ := Option.map_eq_some_iff.mp hobs
  have hreply := (round_reply (fun _ _ => none) syncFlags (by decide) rfl
    (System.reachable_exec (.init ⟨_, rfl⟩) hs) (w := 0) (c := ⟨0, 7, 2, [2, 0]⟩)
    (by rw [hserved]; simp)).2
  refine ⟨s, hs, hreply.trans ?_⟩
  decide

/-! ### The address -/

/- A host that is taken leaves the wildcard address of its family. -/
theorem hostResult_wildcard {host : Flags.Bytes} {p : UInt16} {out : Option SharedAddress}
    {garbage : SharedAddress} (h : hostResult inetPton host p (some garbage) = (0, out)) :
    ∃ d, out = some d ∧
      (d.stored = ⟨.inet, htons p, any4⟩ ∨ d.stored = ⟨.inet6, htons p, any6⟩) := by
  unfold hostResult at h
  split_ifs at h
  · cases hp : inetPton .inet6 (Flags.text "::") with
    | none =>
      rw [hp] at h
      cases h
      exact ⟨_, rfl, Or.inl rfl⟩
    | some a =>
      rw [hp] at h
      cases h
      exact ⟨_, rfl, Or.inr rfl⟩
  · cases h
  · cases h
  · cases hp : inetPton .inet6 (cString (host.drop 1).dropLast) with
    | none =>
      rw [hp] at h
      cases h
      exact ⟨_, rfl, Or.inr rfl⟩
    | some a =>
      rw [hp] at h
      cases h
  · cases h
  · cases hp : inetPton .inet (cString host) with
    | none =>
      rw [hp] at h
      cases h
      exact ⟨_, rfl, Or.inl rfl⟩
    | some a =>
      rw [hp] at h
      cases h

theorem listenAddress_result (hv : Valid inetPton m) (garbage : SharedAddress) :
    ∃ host port p, m.addr = host ++ Flags.ascii ':' :: port ∧ Flags.ascii ':' ∉ port ∧
      PortText port p ∧ hostResult inetPton host p (some garbage) =
        (0, some (listenAddress inetPton m garbage)) := by
  obtain ⟨out, hout⟩ := hv.addr garbage
  rcases split_last (Flags.ascii ':') m.addr with hno | ⟨host, port, hsplit, hport⟩
  · rw [parseSharedAddress_noColon inetPton hno] at hout
    cases hout
  · have hrun := hout
    rw [hsplit, parseSharedAddress_split inetPton host hport, Except.ok.injEq] at hrun
    cases hp : portOf port with
    | none =>
      rw [hp] at hrun
      cases hrun
    | some p =>
      rw [hp] at hrun
      obtain ⟨d, rfl, -⟩ := hostResult_wildcard hrun
      refine ⟨host, port, p, hsplit, hport, portOf_eq_some.mp hp, ?_⟩
      unfold listenAddress
      rw [hout]
      exact hrun

/-- The calls that bind a socket to an address, with the address and its length. -/
def NetCall.binds : NetCall → Option (SharedAddress × ℕ)
  | .bind _ addr len _ => some (addr, len)
  | .evconnlistenerNewBind addr len _ _ => some (addr, len)
  | .socket .. | .listen .. | .closesocket _ | .eventBaseNew _ | .eventBaseFree
  | .evconnlistenerEnable => none

/-- In every run the program binds to the port of `--addr` and to the wildcard address,
whatever the host is. The length is that of the address that is stored, except for a
text in which `parse_shared_address` leaves `v6` as it finds it. -/
theorem bound_address (inetPton : InetPton) (m : RootFlags) (hv : Valid inetPton m)
    {s : Process} (hs : (serverSystem inetPton m).Reachable s) {c : NetCall}
    (hc : c ∈ s.calls) {addr : SharedAddress} {len : ℕ} (hb : c.binds = some (addr, len)) :
    (∃ host port p, m.addr = host ++ Flags.ascii ':' :: port ∧ Flags.ascii ':' ∉ port ∧
      PortText port p ∧
      (addr.stored = ⟨.inet, htons p, any4⟩ ∨ addr.stored = ⟨.inet6, htons p, any6⟩)) ∧
    (¬ SelectorKept inetPton m.addr → ((∃ a, addr.member = .addr6 a) ∧ len = 28) ∨
      ((∃ a, addr.member = .addr a) ∧ len = 16)) := by
  have hw : m.worker ≠ 0 := by
    intro hzero
    have htwo := hv.worker.1
    rw [hzero] at htwo
    exact absurd htwo (by decide)
  have hi := inv_reachable hw hs
  obtain ⟨garbage, haddr⟩ := hi.addr
  have huses : addr = s.addr ∧ len = addrSize (useV6 s.addr) := by
    have hu := hi.uses c hc
    cases c <;> cases hb <;> exact hu
  obtain ⟨host, port, p, hsplit, hport, hp, hres⟩ := listenAddress_result hv garbage
  rw [← haddr, ← huses.1] at hres
  obtain ⟨d, hd, hwild⟩ := hostResult_wildcard hres
  cases hd
  refine ⟨⟨host, port, p, hsplit, hport, hp, hwild⟩, ?_⟩
  intro hkept
  have hnot : ¬ (2 ≤ host.length ∧ host.length ≤ 15 ∧ ¬ Bracketed host ∧
      inetPton .inet (cString host) = none) := by
    rintro ⟨h2, h15, hbr, hnone⟩
    refine hkept ⟨host, port, hsplit, hport, ?_, h2, h15, hbr, hnone⟩
    rw [portOf_eq_some.mpr hp]
    nofun
  have hfixed : (∀ a, (hostResult inetPton host p (some a)).1 ≠ 0) ∨
      ∃ d, Selects d ∧ ∀ a, hostResult inetPton host p (some a) = (0, some d) :=
    hostResult_fixed hnot
  rcases hfixed with hbad | ⟨d, hsel, hall⟩
  · exact (hbad garbage (by rw [hres])).elim
  · rw [hall garbage] at hres
    cases hres
    rw [huses.2, ← huses.1]
    cases hmem : addr.member with
    | addr6 a =>
      have hone := hsel.1.mpr ⟨a, hmem⟩
      exact Or.inl ⟨⟨a, rfl⟩, by simp [useV6, hone, addrSize]⟩
    | addr a =>
      have hzero := hsel.2.mpr ⟨a, hmem⟩
      exact Or.inr ⟨⟨a, rfl⟩, by simp [useV6, hzero, addrSize]⟩

theorem bound_address_run :
    ∃ s addr, (serverSystem (fun _ _ => none) syncFlags).exec serveOneRun syncStart = some s ∧
      .bind 3 addr 16 0 ∈ s.calls ∧
      ∃ host port p, syncFlags.addr = host ++ Flags.ascii ':' :: port ∧
        Flags.ascii ':' ∉ port ∧ PortText port p ∧
        (addr.stored = ⟨.inet, htons p, any4⟩ ∨ addr.stored = ⟨.inet6, htons p, any6⟩) := by
  have hvalid : Valid (fun _ _ => none) syncFlags :=
    ⟨(valid_rootFlags _).addr, Or.inl rfl, by decide⟩
  have hobs : ((serverSystem (fun _ _ => none) syncFlags).exec serveOneRun syncStart).map
      (fun s => decide (.bind 3 (listenAddress (fun _ _ => none) syncFlags
        ⟨0, .addr ⟨.unspec, (0, 0), []⟩⟩) 16 0 ∈ s.calls)) = some true := by
    decide
  obtain ⟨s, hs, hmem⟩ := Option.map_eq_some_iff.mp hobs
  have hcall := of_decide_eq_true hmem
  exact ⟨s, _, hs, hcall, (bound_address (fun _ _ => none) syncFlags hvalid
    (System.reachable_exec (.init ⟨_, rfl⟩) hs) hcall rfl).1⟩

end
end LibeventHttpServe.Server
