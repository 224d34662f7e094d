import Mathlib.Data.Finset.Lattice.Fold
import LibeventHttpServe.Flags.Traversal
import LibeventHttpServe.Flags.TreeInvariant

/-!
# A destroyed tree (flags.c:1767-1814)

Each command, each flag and each heap buffer of a tree is freed once, and an array that
several flags share is emptied by the first of them.
-/

namespace LibeventHttpServe.Flags

open LibeventHttpServe.Lib

variable {kind : Ptr → FlagType} {t t' u : Tree}

/-- A flag of the list has the array of type `e` at `a` as its variable. -/
def Named (t : Tree) (xs : List Node) (a : Ptr) (e : ElemType) : Prop :=
  ∃ f n, Node.flag f ∈ xs ∧ t.registry.flags.lookup f = some n ∧ n.type = ⟨e, true⟩ ∧ n.value = a

/-- What freeing the nodes `xs` of `t` comes to. -/
structure Frees (t : Tree) (xs : List Node) (t' : Tree) (log : List Freed) : Prop where
  freed : t'.freed = t.freed ++ log
  nodup : log.Nodup
  node : ∀ x, .node x ∈ log ↔ x ∈ xs
  buffer : ∀ p, .buffer p ∈ log ↔
    ∃ a e, Named t xs a e ∧ (t.array a e).cap ≠ 0 ∧ (t.array a e).p = some p
  cleared : ∀ a e, Named t xs a e → (t.array a e).cap ≠ 0 →
    t'.array a e = ⟨none, [], 0, 0, (t.array a e).setValue⟩
  kept : ∀ a e, ¬ (Named t xs a e ∧ (t.array a e).cap ≠ 0) → t'.array a e = t.array a e

/-- What the frees that are left rely on. -/
structure Freeing (kind : Ptr → FlagType) (t : Tree) : Prop where
  buffers : OwnBuffers kind t
  typed : ∀ f n, t.registry.flags.lookup f = some n → n.type = kind n.value

def LiveNode (s : Registry) : Node → Prop
  | .command c => c ∈ s.commands
  | .flag f => f ∈ s.flags

theorem Freeing.named (ht : Freeing kind t) {xs : List Node} {a : Ptr} {e : ElemType}
    (h : Named t xs a e) : kind a = ⟨e, true⟩ := by
  obtain ⟨f, n, -, hn, htype, rfl⟩ := h
  rw [← ht.typed f n hn, htype]

/-! ### One node -/

theorem frees_plain {x : Node} (hnone : ∀ a e, Named t [x] a e → (t.array a e).cap = 0)
    (harray : t'.array = t.array) (hfreed : t'.freed = t.freed ++ [.node x]) :
    Frees t [x] t' [.node x] where
  freed := hfreed
  nodup := List.nodup_singleton _
  node y := by simp
  buffer p := by
    constructor
    · intro h
      simp at h
    · rintro ⟨a, e, hn, hcap, -⟩
      exact (hcap (hnone a e hn)).elim
  cleared a e hn hcap := (hcap (hnone a e hn)).elim
  kept a e _ := congrFun (congrFun harray a) e

theorem freeCommand_spec (ht : Freeing kind t) {c : Ptr} (hc : c ∈ t.registry.commands) :
    ∃ t', t.freeCommand c = some t' ∧ Frees t [.command c] t' [.node (.command c)] ∧
      Freeing kind t' := by
  obtain ⟨n, hn⟩ := Option.isSome_iff_exists.mp (AList.lookup_isSome.mpr hc)
  have hfree : t.freeCommand c = some { t with
      registry := { t.registry with commands := t.registry.commands.erase c }
      freed := t.freed ++ [.node (.command c)] } := by
    rw [Tree.freeCommand, hn]
  refine ⟨_, hfree, frees_plain ?_ rfl rfl, ⟨ht.buffers.owned, ht.buffers.live,
    ht.buffers.apart⟩, ht.typed⟩
  intro a e hnamed
  obtain ⟨f, n, hf, -⟩ := hnamed
  cases List.mem_singleton.mp hf

theorem typed_erase (ht : Freeing kind t) (f : Ptr) :
    ∀ g m, (t.registry.flags.erase f).lookup g = some m → m.type = kind m.value := by
  intro g m hm
  by_cases hgf : g = f
  · rw [hgf, AList.lookup_erase] at hm
    cases hm
  · rw [AList.lookup_erase_ne hgf] at hm
    exact ht.typed g m hm

/- The variable of the one flag that is freed. -/
theorem named_single {f : Ptr} {n : FlagNode} (hn : t.registry.flags.lookup f = some n) {a : Ptr}
    {e : ElemType} : Named t [.flag f] a e ↔ n.type = ⟨e, true⟩ ∧ n.value = a := by
  constructor
  · intro h
    obtain ⟨g, m, hg, hm, htype, hvalue⟩ := h
    cases List.mem_singleton.mp hg
    rw [hn, Option.some.injEq] at hm
    subst hm
    exact ⟨htype, hvalue⟩
  · intro h
    exact ⟨f, n, List.mem_singleton_self _, hn, h.1, h.2⟩

/- A flag whose variable has no heap buffer. -/
theorem freeFlag_plain (ht : Freeing kind t) {f : Ptr} {n : FlagNode}
    (hn : t.registry.flags.lookup f = some n)
    (hno : ¬ (n.type.array = true ∧ (t.array n.value n.type.elem).cap ≠ 0)) :
    ∃ t', t.freeFlag f = some t' ∧ Frees t [.flag f] t' [.node (.flag f)] ∧ Freeing kind t' := by
  have hkeep : t.freeArray n = some t := if_neg hno
  have hfree : t.freeFlag f = some { t with
      registry := { t.registry with flags := t.registry.flags.erase f }
      freed := t.freed ++ [.node (.flag f)] } := by
    rw [Tree.freeFlag, hn]
    exact congrArg (Option.map _) hkeep
  refine ⟨_, hfree, frees_plain ?_ rfl rfl, ⟨ht.buffers.owned, ht.buffers.live,
    ht.buffers.apart⟩, typed_erase ht f⟩
  intro a e hnamed
  obtain ⟨htype, rfl⟩ := (named_single hn).mp hnamed
  rw [htype] at hno
  simpa using hno

/-- The empty array that is left. -/
theorem OwnBuffers.freeArray (hb : OwnBuffers kind t) {a : Ptr} {e : ElemType}
    (hkind : kind a = ⟨e, true⟩) {p : Ptr} (hp : (t.array a e).p = some p)
    (hcap : (t.array a e).cap ≠ 0) {c : ArrayCell e.Value} (hzero : c.cap = 0) :
    OwnBuffers kind { t.setArray a e c with buffers := t.buffers.filter fun q => q ≠ p } := by
  have hother {b : Ptr} (hne : b ≠ a) (d : ElemType) :
      (t.setArray a e c).array b d = t.array b d := setArray_other hne e d c
  -- the array that is left has no buffer
  have hold {b : Ptr} {d : ElemType} (hd : kind b = ⟨d, true⟩)
      (hbcap : ((t.setArray a e c).array b d).cap ≠ 0) : b ≠ a := by
    rintro rfl
    rw [hkind] at hd
    cases hd
    rw [setArray_self] at hbcap
    exact hbcap hzero
  refine ⟨?_, ?_, ?_⟩
  · intro b d hd
    by_cases hne : b = a
    · subst hne
      rw [hkind] at hd
      cases hd
      exact Or.inl (by simpa only [setArray_self] using hzero)
    · simp only [hother hne]
      exact hb.owned b d hd
  · intro b d hd hbcap
    have hne := hold hd hbcap
    simp only [hother hne] at hbcap ⊢
    obtain ⟨q, hq, hbq⟩ := hb.live b d hd hbcap
    have hqp : q ≠ p := by
      rintro rfl
      exact hne (hb.apart b d a e q hd hkind hbcap hcap hbq hp)
    exact ⟨q, List.mem_filter.mpr ⟨hq, by simpa using hqp⟩, hbq⟩
  · intro b d b' d' q hd hd' hbcap hbcap' hq hq'
    have hne := hold hd hbcap
    have hne' := hold hd' hbcap'
    simp only [hother hne, hother hne'] at hbcap hbcap' hq hq'
    exact hb.apart b d b' d' q hd hd' hbcap hbcap' hq hq'

theorem freeFlag_buffer {f p : Ptr} {n : FlagNode} {e : ElemType}
    (hn : t.registry.flags.lookup f = some n) (htype : n.type = ⟨e, true⟩)
    (hcap : (t.array n.value e).cap ≠ 0) (hp : (t.array n.value e).p = some p)
    (hlive : p ∈ t.buffers) :
    t.freeFlag f = some { t.setArray n.value e
        ⟨none, [], 0, 0, (t.array n.value e).setValue⟩ with
      registry := { t.registry with flags := t.registry.flags.erase f }
      buffers := t.buffers.filter fun q => q ≠ p
      freed := t.freed ++ [.buffer p] ++ [.node (.flag f)] } := by
  have harray : t.freeArray n = some { t.setArray n.value e
      ⟨none, [], 0, 0, (t.array n.value e).setValue⟩ with
      buffers := t.buffers.filter fun q => q ≠ p, freed := t.freed ++ [.buffer p] } := by
    obtain rfl : e = n.type.elem := by rw [htype]
    have harr : n.type.array = true := by rw [htype]
    have hbuffer : t.freeBuffer (t.array n.value n.type.elem).p = some { t with
        buffers := t.buffers.filter fun q => q ≠ p, freed := t.freed ++ [.buffer p] } := by
      rw [hp]
      exact if_pos hlive
    rw [Tree.freeArray, if_pos ⟨harr, hcap⟩, hbuffer]
    rfl
  rw [Tree.freeFlag, hn]
  exact congrArg (Option.map _) harray

/- A flag whose variable has a heap buffer. -/
theorem freeFlag_heap (ht : Freeing kind t) {f : Ptr} {n : FlagNode} {e : ElemType}
    (hn : t.registry.flags.lookup f = some n) (htype : n.type = ⟨e, true⟩)
    (hcap : (t.array n.value e).cap ≠ 0) :
    ∃ t' p, t.freeFlag f = some t' ∧ Frees t [.flag f] t' [.buffer p, .node (.flag f)] ∧
      Freeing kind t' := by
  have hkind : kind n.value = ⟨e, true⟩ := by
    rw [← ht.typed f n hn, htype]
  obtain ⟨p, hlive, hp⟩ := ht.buffers.live n.value e hkind hcap
  have hfree := freeFlag_buffer hn htype hcap hp hlive
  let c : ArrayCell e.Value := ⟨none, [], 0, 0, (t.array n.value e).setValue⟩
  have hnamed {a : Ptr} {d : ElemType} (h : Named t [.flag f] a d) : d = e ∧ a = n.value := by
    obtain ⟨htype', hvalue⟩ := (named_single hn).mp h
    rw [htype] at htype'
    cases htype'
    exact ⟨rfl, hvalue.symm⟩
  have hown := ht.buffers.freeArray hkind hp hcap (c := c) rfl
  refine ⟨_, p, hfree, ⟨by simp, by simp, by simp, ?_, ?_, ?_⟩,
    ⟨hown.owned, hown.live, hown.apart⟩, typed_erase ht f⟩
  · intro q
    constructor
    · intro hq
      have hqp : q = p := by simpa using hq
      subst hqp
      exact ⟨n.value, e, (named_single hn).mpr ⟨htype, rfl⟩, hcap, hp⟩
    · intro h
      obtain ⟨a, d, hname, -, hq⟩ := h
      obtain ⟨rfl, rfl⟩ := hnamed hname
      rw [hp] at hq
      cases hq
      exact List.mem_cons_self
  · intro a d hname _
    obtain ⟨rfl, rfl⟩ := hnamed hname
    exact setArray_self ..
  · intro a d hno
    by_cases ha : a = n.value
    · subst ha
      by_cases hd : d = e
      · subst hd
        exact (hno ⟨(named_single hn).mpr ⟨htype, rfl⟩, hcap⟩).elim
      · show Function.update t.array n.value _ n.value d = _
        rw [Function.update_self, Function.update_of_ne hd]
    · exact setArray_other ha e d c

theorem freeNode_spec (ht : Freeing kind t) {x : Node} (hx : LiveNode t.registry x) :
    ∃ t' log, t.freeNode x = some t' ∧ Frees t [x] t' log ∧ Freeing kind t' := by
  cases x with
  | command c =>
    obtain ⟨t', h⟩ := freeCommand_spec ht hx
    exact ⟨t', _, h⟩
  | flag f =>
    obtain ⟨n, hn⟩ := Option.isSome_iff_exists.mp (AList.lookup_isSome.mpr hx)
    by_cases hheap : n.type.array = true ∧ (t.array n.value n.type.elem).cap ≠ 0
    · have htype : n.type = ⟨n.type.elem, true⟩ := by
        rw [← hheap.1]
      obtain ⟨t', p, h⟩ := freeFlag_heap ht hn htype hheap.2
      exact ⟨t', _, h⟩
    · obtain ⟨t', h⟩ := freeFlag_plain ht hn hheap
      exact ⟨t', _, h⟩

/-! ### A list of nodes -/

theorem named_cons {x : Node} {xs : List Node} {a : Ptr} {e : ElemType} :
    Named t (x :: xs) a e ↔ Named t [x] a e ∨ Named t xs a e := by
  constructor
  · intro h
    obtain ⟨f, n, hf, hn⟩ := h
    rcases List.mem_cons.mp hf with rfl | hf
    · exact Or.inl ⟨f, n, List.mem_singleton_self _, hn⟩
    · exact Or.inr ⟨f, n, hf, hn⟩
  · intro h
    rcases h with ⟨f, n, hf, hn⟩ | ⟨f, n, hf, hn⟩
    · exact ⟨f, n, List.mem_cons.mpr (Or.inl (List.mem_singleton.mp hf)), hn⟩
    · exact ⟨f, n, List.mem_cons_of_mem x hf, hn⟩

/-- The variables of nodes that are left are the same. -/
theorem named_frame {x : Node} {xs : List Node} (hfree : t.freeNode x = some u) (hx : x ∉ xs)
    {a : Ptr} {e : ElemType} : Named u xs a e ↔ Named t xs a e := by
  have hsame {f : Ptr} (hf : Node.flag f ∈ xs) :
      u.registry.flags.lookup f = t.registry.flags.lookup f := by
    have hne : Node.flag f ≠ x := by
      rintro rfl
      exact hx hf
    exact freeNode_frame hfree hne
  constructor
  · intro h
    obtain ⟨f, n, hf, hn, hrest⟩ := h
    exact ⟨f, n, hf, (hsame hf).symm.trans hn, hrest⟩
  · intro h
    obtain ⟨f, n, hf, hn, hrest⟩ := h
    exact ⟨f, n, hf, (hsame hf).trans hn, hrest⟩

/- An array that still has a buffer is the one that it was. -/
theorem Frees.still {xs : List Node} {log : List Freed} (h : Frees t xs t' log) {a : Ptr}
    {e : ElemType} (hcap : (t'.array a e).cap ≠ 0) :
    t'.array a e = t.array a e ∧ ¬ Named t xs a e := by
  have hno : ¬ (Named t xs a e ∧ (t.array a e).cap ≠ 0) := by
    intro hboth
    rw [h.cleared a e hboth.1 hboth.2] at hcap
    exact hcap rfl
  have hkept := h.kept a e hno
  rw [hkept] at hcap
  exact ⟨hkept, fun hnamed => hno ⟨hnamed, hcap⟩⟩

/- Nothing is freed again: the first node is another one, and its array has no buffer any
more. -/
theorem Frees.disjoint {x : Node} {xs : List Node} {l m : List Freed} (h : Frees t [x] u l)
    (ht : Freeing kind t) (hfree : t.freeNode x = some u) (hx : x ∉ xs) (h' : Frees u xs t' m) :
    List.Disjoint l m := by
  intro y hy hy'
  cases y with
  | node y =>
    have hyx := List.mem_singleton.mp ((h.node y).mp hy)
    exact hx (hyx ▸ (h'.node y).mp hy')
  | buffer p =>
    obtain ⟨a, e, hname, hcap, hp⟩ := (h.buffer p).mp hy
    obtain ⟨b, d, hname', hcap', hp'⟩ := (h'.buffer p).mp hy'
    obtain ⟨hkept, hno⟩ := h.still hcap'
    rw [hkept] at hcap' hp'
    have hkind := ht.named hname
    have hkind' := ht.named ((named_frame hfree hx).mp hname')
    have hab := ht.buffers.apart a e b d p hkind hkind' hcap hcap' hp hp'
    subst hab
    rw [hkind] at hkind'
    cases hkind'
    exact hno hname

theorem Frees.cons (ht : Freeing kind t) {x : Node} {xs : List Node} {l m : List Freed}
    (hfree : t.freeNode x = some u) (hx : x ∉ xs) (h : Frees t [x] u l) (h' : Frees u xs t' m) :
    Frees t (x :: xs) t' (l ++ m) := by
  have hframe {a : Ptr} {e : ElemType} : Named u xs a e ↔ Named t xs a e := named_frame hfree hx
  refine ⟨?_, ?_, ?_, ?_, ?_, ?_⟩
  · rw [h'.freed, h.freed, List.append_assoc]
  · exact List.nodup_append'.mpr ⟨h.nodup, h'.nodup, h.disjoint ht hfree hx h'⟩
  · intro y
    rw [List.mem_append, h.node, h'.node, List.mem_singleton, List.mem_cons]
  · intro p
    rw [List.mem_append, h.buffer, h'.buffer]
    constructor
    · intro hmem
      rcases hmem with ⟨a, e, hname, hrest⟩ | ⟨a, e, hname, hcap, hp⟩
      · exact ⟨a, e, named_cons.mpr (Or.inl hname), hrest⟩
      · obtain ⟨hkept, -⟩ := h.still hcap
        rw [hkept] at hcap hp
        exact ⟨a, e, named_cons.mpr (Or.inr (hframe.mp hname)), hcap, hp⟩
    · intro hmem
      obtain ⟨a, e, hname, hcap, hp⟩ := hmem
      by_cases hfirst : Named t [x] a e
      · exact Or.inl ⟨a, e, hfirst, hcap, hp⟩
      · have hkept := h.kept a e fun hboth => hfirst hboth.1
        rw [← hkept] at hcap hp
        have hrest := (named_cons.mp hname).resolve_left hfirst
        exact Or.inr ⟨a, e, hframe.mpr hrest, hcap, hp⟩
  · intro a e hname hcap
    by_cases hfirst : Named t [x] a e
    · have hzero := h.cleared a e hfirst hcap
      rw [← hzero]
      refine h'.kept a e fun hboth => hboth.2 ?_
      rw [hzero]
    · have hkept := h.kept a e fun hboth => hfirst hboth.1
      have hrest := (named_cons.mp hname).resolve_left hfirst
      rw [← hkept] at hcap ⊢
      exact h'.cleared a e (hframe.mpr hrest) hcap
  · intro a e hno
    have hkept := h.kept a e fun hboth => hno ⟨named_cons.mpr (Or.inl hboth.1), hboth.2⟩
    rw [← hkept]
    refine h'.kept a e fun hboth => hno ⟨named_cons.mpr (Or.inr (hframe.mp hboth.1)), ?_⟩
    rw [← hkept]
    exact hboth.2

theorem LiveNode.congr {s r : Registry} {x : Node} (h : SameNode s r x) (hx : LiveNode s x) :
    LiveNode r x := by
  cases x with
  | command c => exact AList.lookup_isSome.mp (h.symm ▸ AList.lookup_isSome.mpr hx)
  | flag f => exact AList.lookup_isSome.mp (h.symm ▸ AList.lookup_isSome.mpr hx)

/-- Distinct live nodes are all freed. -/
theorem freeAll_spec {xs : List Node} (hxs : xs.Nodup) (ht : Freeing kind t)
    (hlive : ∀ x ∈ xs, LiveNode t.registry x) :
    ∃ t' log, t.freeAll xs = some t' ∧ Frees t xs t' log := by
  induction xs generalizing t with
  | nil =>
    have hnone {a : Ptr} {e : ElemType} : ¬ Named t [] a e := by simp [Named]
    exact ⟨t, [], rfl, by simp, by simp, by simp, by simp [hnone],
      fun a e hname => (hnone hname).elim, fun a e _ => rfl⟩
  | cons x xs ih =>
    obtain ⟨hx, hxs⟩ := List.nodup_cons.mp hxs
    obtain ⟨u, l, hfree, hone, hu⟩ := freeNode_spec ht (hlive x List.mem_cons_self)
    have hrest : ∀ y ∈ xs, LiveNode u.registry y := by
      intro y hy
      have hne : y ≠ x := by
        rintro rfl
        exact hx hy
      exact (hlive y (List.mem_cons_of_mem x hy)).congr (freeNode_frame hfree hne)
    obtain ⟨t', m, hall, hmany⟩ := ih hxs hu hrest
    refine ⟨t', l ++ m, ?_, Frees.cons ht hfree hx hone hmany⟩
    rw [freeAll_cons, hfree]
    exact hall

/-! ### The nodes of a tree -/

def Registry.ChildOf (s : Registry) (c d : Ptr) : Prop :=
  ∃ n, s.commands.lookup d = some n ∧ n.parent = some c

/-- The commands that lead to `root` by their parents, and the flags in their lists. -/
def InTree (s : Registry) (root : Ptr) : Node → Prop
  | .command c => Relation.ReflTransGen s.ChildOf root c
  | .flag f => ∃ c n l, Relation.ReflTransGen s.ChildOf root c ∧ s.commands.lookup c = some n ∧
      Chain.Visits FlagNode.next s.flags n.flag l none ∧ f ∈ l

section Forest

variable {s : Registry} {v : Forest}

theorem mem_children {c d : Ptr} :
    d ∈ v.children c ↔ ∃ x, v.command c = some x ∧ d ∈ x.children := by
  rw [Forest.children]
  cases v.command c <;> simp

theorem mem_flagsOf {c f : Ptr} : f ∈ v.flagsOf c ↔ ∃ x, v.command c = some x ∧ f ∈ x.flags := by
  rw [Forest.flagsOf]
  cases v.command c <;> simp

theorem childOf_iff (hs : Stores s v) (hv : WellFormed v) {c d : Ptr} :
    d ∈ v.children c ↔ s.ChildOf c d := by
  rw [mem_children]
  constructor
  · intro h
    obtain ⟨x, hx, hd⟩ := h
    obtain ⟨y, hy, hparent⟩ := hv.parentOf c x d hx hd
    obtain ⟨n, hn, -, heq⟩ := hs.live hy
    exact ⟨n, hn, heq.trans hparent⟩
  · intro h
    obtain ⟨n, hn, hparent⟩ := h
    obtain ⟨y, hy, -, heq⟩ := hs.view hn
    exact hv.listed d y c hy (heq.symm.trans hparent)

theorem below_iff (hs : Stores s v) (hv : WellFormed v) {c d : Ptr} :
    Below v.children c d ↔ Relation.ReflTransGen s.ChildOf c d := by
  have hsame : (fun c d => d ∈ v.children c) = s.ChildOf := by
    funext c d
    exact propext (childOf_iff hs hv)
  rw [Below, hsame]

theorem WellFormed.layered (hv : WellFormed v) : ∃ depth, Layered v.children depth := by
  obtain ⟨depth, hdepth⟩ := hv.acyclic
  obtain ⟨ps, hps⟩ := hv.finite
  have hup {c d : Ptr} (hd : d ∈ v.children c) : ∃ y, v.command d = some y ∧ y.parent = some c := by
    obtain ⟨x, hx, hd⟩ := mem_children.mp hd
    exact hv.parentOf c x d hx hd
  refine ⟨depth, ?_, ?_, ?_, ps.toFinset.sup depth, ?_⟩
  · intro c d hd
    obtain ⟨y, hy, hparent⟩ := hup hd
    exact hdepth d y c hy hparent
  · intro b c d hb hc
    obtain ⟨y, hy, hparent⟩ := hup hb
    obtain ⟨z, hz, hparent'⟩ := hup hc
    rw [hy, Option.some.injEq] at hz
    rw [← hz, hparent, Option.some.injEq] at hparent'
    exact hparent'
  · intro c
    rw [Forest.children]
    cases hc : v.command c with
    | none => exact .nil
    | some x => exact (hv.once c x hc).1
  · intro c d hd
    obtain ⟨y, hy, -⟩ := hup hd
    exact Finset.le_sup (List.mem_toFinset.mpr (hps d y hy))

theorem mem_nodes_command {order : List Ptr} {c : Ptr} :
    .command c ∈ v.nodes order ↔ c ∈ order := by
  simp [Forest.nodes]

theorem mem_nodes_flag {order : List Ptr} {f : Ptr} :
    .flag f ∈ v.nodes order ↔ ∃ c ∈ order, f ∈ v.flagsOf c := by
  simp [Forest.nodes]

theorem nodes_nodup (hv : WellFormed v) {order : List Ptr} (ho : order.Nodup) :
    (v.nodes order).Nodup := by
  induction order with
  | nil => exact .nil
  | cons c order ih =>
    obtain ⟨hc, ho⟩ := List.nodup_cons.mp ho
    have hflags : (v.flagsOf c).Nodup := by
      rw [Forest.flagsOf]
      cases hx : v.command c with
      | none => exact .nil
      | some x => exact (hv.once c x hx).2
    have hone : (v.nodes [c]).Nodup := by
      rw [nodes_single]
      refine List.nodup_append'.mpr ⟨hflags.map fun _ _ h => Node.flag.inj h,
        List.nodup_singleton _, ?_⟩
      simp
    rw [← List.singleton_append, nodes_append]
    refine List.nodup_append'.mpr ⟨hone, ih ho, ?_⟩
    intro x hx hx'
    cases x with
    | command d =>
      have hdc := List.mem_singleton.mp (mem_nodes_command.mp hx)
      exact hc (hdc ▸ mem_nodes_command.mp hx')
    | flag f =>
      obtain ⟨b, hb, hf⟩ := mem_nodes_flag.mp hx
      obtain ⟨d, hd, hf'⟩ := mem_nodes_flag.mp hx'
      obtain ⟨y, hy, hf⟩ := mem_flagsOf.mp hf
      obtain ⟨z, hz, hf'⟩ := mem_flagsOf.mp hf'
      rw [List.mem_singleton.mp hb] at hy
      rw [← hv.owner c y d z f hy hz hf hf'] at hd
      exact hc hd

theorem inTree_iff (hs : Stores s v) (hv : WellFormed v) {root : Ptr} {order : List Ptr}
    (ho : PostOrder v.children [root] order) {x : Node} :
    x ∈ v.nodes order ↔ InTree s root x := by
  have hmem {c : Ptr} : c ∈ order ↔ Relation.ReflTransGen s.ChildOf root c := by
    rw [mem_postOrder ho, ← below_iff hs hv]
    simp
  cases x with
  | command c => rw [mem_nodes_command, hmem, InTree]
  | flag f =>
    rw [mem_nodes_flag, InTree]
    constructor
    · intro h
      obtain ⟨c, hc, hf⟩ := h
      obtain ⟨x, hx, hf⟩ := mem_flagsOf.mp hf
      obtain ⟨n, hn, -⟩ := hs.live hx
      exact ⟨c, n, x.flags, hmem.mp hc, hn, hs.flags c n x hn hx, hf⟩
    · intro h
      obtain ⟨c, n, l, hc, hn, hl, hf⟩ := h
      obtain ⟨x, hx, -⟩ := hs.view hn
      rw [Chain.visits_unique hl (hs.flags c n x hn hx)] at hf
      exact ⟨c, hmem.mpr hc, mem_flagsOf.mpr ⟨x, hx, hf⟩⟩

theorem InTree.live {root : Ptr} (hroot : root ∈ s.commands)
    {x : Node} (hx : InTree s root x) : LiveNode s x := by
  cases x with
  | command c =>
    rcases Relation.ReflTransGen.cases_tail hx with rfl | ⟨b, -, n, hn, -⟩
    · exact hroot
    · exact AList.lookup_isSome.mp (by rw [hn]; rfl)
  | flag f =>
    obtain ⟨c, n, l, -, -, hl, hf⟩ := hx
    obtain ⟨k, hk⟩ := Chain.visits_live hl hf
    exact AList.lookup_isSome.mp (by rw [hk]; rfl)

end Forest

/-! ### The whole tree -/

theorem TreeInv.freeing {v : Forest} (hi : TreeInv kind t v) : Freeing kind t := by
  refine ⟨hi.buffers, ?_⟩
  intro f n hn
  have hg : v.flag f = some n.toFlagData := by
    rw [← hi.stores.flag f, hn]
    rfl
  exact (hi.typed f _ hg).2

/- All nodes of the tree at a root are freed. -/
theorem commandDestroy_spec {v : Forest} (hi : TreeInv kind t v) {root : Ptr} {n : CommandNode}
    (hroot : t.registry.commands.lookup root = some n) (hparent : n.parent = none) :
    ∃ t' xs log, commandDestroy root t = some t' ∧ Frees t xs t' log ∧
      ∀ x, x ∈ xs ↔ InTree t.registry root x := by
  obtain ⟨depth, hdepth⟩ := hi.wellFormed.layered
  obtain ⟨order, ho⟩ := exists_postOrder hdepth [root]
  have hnodup : order.Nodup := by
    refine postOrder_nodup hdepth ho (List.nodup_singleton root) ?_
    intro b hb c hc
    rw [List.mem_singleton.mp hb, List.mem_singleton.mp hc]
  have hmem (x : Node) : x ∈ v.nodes order ↔ InTree t.registry root x :=
    inTree_iff hi.stores hi.wellFormed ho
  have hlive : ∀ x ∈ v.nodes order, LiveNode t.registry x := by
    intro x hx
    have hin : root ∈ t.registry.commands := AList.lookup_isSome.mp (by rw [hroot]; rfl)
    exact ((hmem x).mp hx).live hin
  have hfuel : order.length ≤ t.registry.commands.keys.length := by
    have hsub : order ⊆ t.registry.commands.keys := by
      intro c hc
      exact AList.mem_keys.mp (hlive (.command c) (mem_nodes_command.mpr hc))
    exact (List.subperm_of_subset hnodup hsub).length_le
  have hstart : Chain.Visits CommandNode.next t.registry.commands (some root) [root] none := by
    have hnext := hi.rootNext root n hroot hparent
    exact ⟨[(root, n)], ⟨rfl, hroot, hnext⟩, rfl⟩
  have hnodes := nodes_nodup hi.wellFormed hnodup
  obtain ⟨t', log, hall, hfrees⟩ := freeAll_spec hnodes hi.freeing hlive
  have hrun : commandDestroy root t = t.freeAll (v.nodes order) := by
    refine destroyFrom_eq hi.stores ho hstart hnodes ?_ hfuel
    intro x _
    cases x <;> rfl
  exact ⟨t', _, log, hrun.trans hall, hfrees, hmem⟩

/-- A flag of the tree at `root` whose array has heap capacity. -/
def HeapArray (t : Tree) (root : Ptr) (n : FlagNode) : Prop :=
  n.type.array = true ∧ (t.array n.value n.type.elem).cap ≠ 0 ∧
    ∃ f, InTree t.registry root (.flag f) ∧ t.registry.flags.lookup f = some n

theorem heapArray_named {root : Ptr} {xs : List Node}
    (hmem : ∀ x, x ∈ xs ↔ InTree t.registry root x) {n : FlagNode} (h : HeapArray t root n) :
    Named t xs n.value n.type.elem := by
  obtain ⟨harray, -, f, hf, hn⟩ := h
  exact ⟨f, n, (hmem _).mpr hf, hn, by rw [← harray], rfl⟩

/-- Destroying the command at the root of a tree succeeds, frees each command node, each
flag node and each heap buffer of the tree once and nothing else, and leaves the arrays
empty. -/
theorem commandDestroy_frees {fl : Floats} (ht : (treeSystem fl kind).Reachable t) {root : Ptr}
    {n : CommandNode} (hroot : t.registry.commands.lookup root = some n)
    (hparent : n.parent = none) :
    ∃ t', commandDestroy root t = some t' ∧ t'.freed.Nodup ∧
      (∀ x, .node x ∈ t'.freed ↔ InTree t.registry root x) ∧
      (∀ p, .buffer p ∈ t'.freed ↔
        ∃ n, HeapArray t root n ∧ (t.array n.value n.type.elem).p = some p) ∧
      (∀ n, HeapArray t root n → (t.array n.value n.type.elem).p ≠ none ∧
        (t'.array n.value n.type.elem).p = none ∧ (t'.array n.value n.type.elem).cap = 0 ∧
        (t'.array n.value n.type.elem).len = 0) := by
  obtain ⟨v, hi⟩ := tree_reachable ht
  obtain ⟨t', xs, log, hrun, h, hmem⟩ := commandDestroy_spec hi hroot hparent
  have hfreed : t'.freed = log := by
    rw [h.freed, hi.freed, List.nil_append]
  refine ⟨t', hrun, ?_, ?_, ?_, ?_⟩
  · rw [hfreed]
    exact h.nodup
  · intro x
    rw [hfreed, h.node, hmem]
  · intro p
    rw [hfreed, h.buffer]
    constructor
    · intro hbuffer
      obtain ⟨a, e, ⟨f, m, hf, hm, htype, rfl⟩, hcap, hp⟩ := hbuffer
      obtain rfl : e = m.type.elem := by rw [htype]
      exact ⟨m, ⟨by rw [htype], hcap, f, (hmem _).mp hf, hm⟩, hp⟩
    · intro hbuffer
      obtain ⟨m, hm, hp⟩ := hbuffer
      exact ⟨m.value, m.type.elem, heapArray_named hmem hm, hm.2.1, hp⟩
  · intro m hm
    have hname := heapArray_named hmem hm
    have hkind := hi.freeing.named hname
    obtain ⟨p, -, hp⟩ := hi.buffers.live _ _ hkind hm.2.1
    rw [h.cleared _ _ hname hm.2.1]
    exact ⟨by rw [hp]; nofun, rfl, rfl, rfl⟩

/- A command with a child; a flag of each has the same array, which got a value. -/
def sharedTree : List TreeAction :=
  [.call (.commandCreate (text "app") none none 0) (some 1),
    .call (.addCommand 1 (some (text "run")) none none 0) (some 2),
    .call (.addFlag 1 (some (text "a")) 0 none 8 36) (some 3),
    .call (.addFlag 2 (some (text "b")) 0 none 8 36) (some 4),
    .set 4 .uint8 ⟨text "1", 0, none, .always⟩]

def noArrays : Tree :=
  ⟨⟨∅, ∅⟩, fun _ _ => ⟨none, [], 0, 0, false⟩, fun _ => false, [], []⟩

/- The arrays of bytes are the caller's array {7, 8}. -/
def callerArrays : Tree :=
  { noArrays with
    array := fun
      | _, .uint8 => ⟨some 9, [some 7, some 8], 0, 2, false⟩
      | _, _ => ⟨none, [], 0, 0, false⟩ }

/- The array is freed and emptied with the flag of the child. -/
example : (((treeSystem .none fun _ => ⟨.uint8, true⟩).exec sharedTree callerArrays).bind
    (commandDestroy 1)).map Tree.freed = some [.buffer 1, .node (.flag 4), .node (.command 2),
      .node (.flag 3), .node (.command 1)] := by
  decide

theorem commandDestroy_frees_shared :
    ∃ t n t', (treeSystem .none fun _ => ⟨.uint8, true⟩).exec sharedTree callerArrays = some t ∧
      t.registry.commands.lookup 1 = some n ∧ n.parent = none ∧ commandDestroy 1 t = some t' ∧
      t'.freed.Nodup ∧ (∀ x, .node x ∈ t'.freed ↔ InTree t.registry 1 x) ∧
      ∀ n, HeapArray t 1 n → (t'.array n.value n.type.elem).len = 0 := by
  have hobs : ((treeSystem .none fun _ => ⟨.uint8, true⟩).exec sharedTree callerArrays).map
      (fun t => (t.registry.commands.lookup 1).map CommandNode.parent) = some (some none) := by
    decide
  obtain ⟨t, ht, hobs⟩ := Option.map_eq_some_iff.mp hobs
  obtain ⟨n, hn, hparent⟩ := Option.map_eq_some_iff.mp hobs
  have hinit : (treeSystem .none fun _ => ⟨.uint8, true⟩).Reachable callerArrays := by
    have hcap (a : Ptr) (e : ElemType) : (callerArrays.array a e).cap = 0 := by
      cases e <;> rfl
    refine .init ⟨rfl, fun _ => rfl, rfl, fun a e _ => Or.inl (hcap a e), ?_, ?_⟩
    · intro a e _ hne
      exact (hne (hcap a e)).elim
    · intro a e b d p _ _ hne
      exact (hne (hcap a e)).elim
  obtain ⟨t', hrun, hnodup, hnodes, -, harrays⟩ :=
    commandDestroy_frees (System.reachable_exec hinit ht) hn hparent
  exact ⟨t, n, t', ht, hn, hparent, hrun, hnodup, hnodes, fun m hm => (harrays m hm).2.2.2⟩

end LibeventHttpServe.Flags
