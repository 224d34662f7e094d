import LibeventHttpServe.Flags.Tree
import LibeventHttpServe.Lib.PostOrder

/-!
# The order in which a tree is destroyed (flags.c:1767-1814)

`ppp_c_flags_command_destroy` frees the commands in post-order, each one behind its
flags. No link is read from a node that is gone.
-/

namespace LibeventHttpServe.Flags

open LibeventHttpServe.Lib
open LibeventHttpServe.Lib.Chain (Visits Segment)

/-! ### Freeing a list of nodes -/

def Tree.freeNode (t : Tree) : Node → Option Tree
  | .command c => t.freeCommand c
  | .flag f => t.freeFlag f

def Tree.freeAll (xs : List Node) (t : Tree) : Option Tree := xs.foldlM Tree.freeNode t

/-- Both trees have the same node `x`, or none. -/
def SameNode (s t : Registry) : Node → Prop
  | .command c => t.commands.lookup c = s.commands.lookup c
  | .flag f => t.flags.lookup f = s.flags.lookup f

theorem SameNode.trans {s t u : Registry} {x : Node} (h : SameNode s t x) (h' : SameNode t u x) :
    SameNode s u x := by
  cases x <;> exact Eq.trans h' h

theorem freeAll_cons (x : Node) (xs : List Node) (t : Tree) :
    t.freeAll (x :: xs) = (t.freeNode x).bind (Tree.freeAll xs) := List.foldlM_cons ..

theorem freeAll_append (xs ys : List Node) (t : Tree) :
    t.freeAll (xs ++ ys) = (t.freeAll xs).bind (Tree.freeAll ys) := List.foldlM_append ..

theorem freeBuffer_registry {t t' : Tree} {p : Option Ptr} (h : t.freeBuffer p = some t') :
    t'.registry = t.registry := by
  cases p with
  | none =>
    cases h
    rfl
  | some p =>
    simp only [Tree.freeBuffer, Option.ite_none_right_eq_some, Option.some.injEq] at h
    rw [← h.2]

theorem freeArray_registry {t t' : Tree} {n : FlagNode} (h : t.freeArray n = some t') :
    t'.registry = t.registry := by
  simp only [Tree.freeArray] at h
  split_ifs at h
  · obtain ⟨u, hu, rfl⟩ := Option.map_eq_some_iff.mp h
    exact (freeBuffer_registry hu :)
  · cases h
    rfl

theorem freeNode_frame {t t' : Tree} {x y : Node} (h : t.freeNode x = some t') (hne : y ≠ x) :
    SameNode t.registry t'.registry y := by
  cases x with
  | command c =>
    simp only [Tree.freeNode, Tree.freeCommand] at h
    split at h
    · cases h
    cases h
    cases y with
    | command d =>
      have hdc : d ≠ c := fun he => hne (congrArg Node.command he)
      exact AList.lookup_erase_ne hdc
    | flag f => rfl
  | flag f =>
    simp only [Tree.freeNode, Tree.freeFlag] at h
    split at h
    · cases h
    obtain ⟨u, hu, rfl⟩ := Option.map_eq_some_iff.mp h
    have hreg := freeArray_registry hu
    cases y with
    | command d => exact congrArg (fun r => r.commands.lookup d) hreg
    | flag g =>
      have hgf : g ≠ f := fun he => hne (congrArg Node.flag he)
      exact (AList.lookup_erase_ne hgf).trans (congrArg (fun r => r.flags.lookup g) hreg)

theorem freeAll_frame {xs : List Node} {t t' : Tree} (h : t.freeAll xs = some t') {y : Node}
    (hy : y ∉ xs) : SameNode t.registry t'.registry y := by
  induction xs generalizing t with
  | nil =>
    cases h
    cases y <;> rfl
  | cons x xs ih =>
    rw [freeAll_cons] at h
    obtain ⟨u, hu, hrest⟩ := Option.bind_eq_some_iff.mp h
    have hfirst := freeNode_frame hu fun he => hy (he ▸ List.mem_cons_self)
    exact hfirst.trans (ih hrest fun hm => hy (List.mem_cons_of_mem x hm))

/-! ### The flags of a command -/

theorem destroyFlags_eq {s : Registry} {p : Option Ptr} {l : List (Ptr × FlagNode)}
    (hs : Segment FlagNode.next s.flags p l none) {t : Tree}
    (ht : ∀ c ∈ l, SameNode s t.registry (.flag c.1)) {fuel : ℕ} (hfuel : l.length ≤ fuel) :
    destroyFlags fuel p t = t.freeAll (l.map fun c => .flag c.1) := by
  induction l generalizing p t fuel with
  | nil =>
    cases hs
    cases fuel <;> rfl
  | cons c l ih =>
    obtain ⟨f, n⟩ := c
    have hnodup := Chain.segment_nodup hs
    obtain ⟨rfl, hn, htail⟩ := Chain.segment_cons.mp hs
    obtain ⟨fuel, rfl⟩ : ∃ k, fuel = k + 1 := ⟨fuel - 1, by simp at hfuel; omega⟩
    have hlive : t.registry.flags.lookup f = some n := by
      rw [← hn]
      exact ht (f, n) List.mem_cons_self
    rw [destroyFlags, hlive, List.map_cons, freeAll_cons]
    show (t.freeFlag f).bind _ = (t.freeFlag f).bind _
    cases hfree : t.freeFlag f with
    | none => rfl
    | some u =>
      refine ih htail ?_ (by simpa using hfuel)
      intro c hc
      refine (ht c (List.mem_cons_of_mem _ hc)).trans (freeNode_frame (x := .flag f) hfree ?_)
      intro he
      have hcf : c.1 = f := Node.flag.inj he
      have hmem : f ∈ l.map Prod.fst := by
        rw [← hcf]
        exact List.mem_map_of_mem hc
      exact (List.nodup_cons.mp hnodup).1 hmem

/-! ### The commands of a forest -/

def Forest.children (v : Forest) (c : Ptr) : List Ptr :=
  match v.command c with
  | none => []
  | some x => x.children

def Forest.flagsOf (v : Forest) (c : Ptr) : List Ptr :=
  match v.command c with
  | none => []
  | some x => x.flags

/-- The nodes of commands in the given order, each command behind its flags. -/
def Forest.nodes (v : Forest) (order : List Ptr) : List Node :=
  order.flatMap fun c => (v.flagsOf c).map .flag ++ [.command c]

theorem nodes_append (v : Forest) (l m : List Ptr) : v.nodes (l ++ m) = v.nodes l ++ v.nodes m :=
  List.flatMap_append ..

theorem nodes_single (v : Forest) (c : Ptr) :
    v.nodes [c] = (v.flagsOf c).map .flag ++ [.command c] := List.flatMap_singleton ..

/- A command whose siblings and children are freed is freed behind its flags. -/
theorem destroyFrom_last {s : Registry} {v : Forest} (hs : Stores s v) {c : Ptr} {n : CommandNode}
    (hn : s.commands.lookup c = some n) {t : Tree}
    (ht : ∀ x ∈ v.nodes [c], SameNode s t.registry x) :
    ((destroyFlags t.registry.flags.keys.length n.flag t).bind fun u => u.freeCommand c) =
      t.freeAll (v.nodes [c]) := by
  obtain ⟨x, hx, -⟩ := hs.view hn
  obtain ⟨l, hl, hflags⟩ := hs.flags c n x hn hx
  have hof : v.flagsOf c = x.flags := by
    rw [Forest.flagsOf, hx]
  have hsame : ∀ d ∈ l, SameNode s t.registry (.flag d.1) := by
    intro d hd
    apply ht
    rw [nodes_single, hof, ← hflags]
    exact List.mem_append_left _ (List.mem_map_of_mem (List.mem_map_of_mem hd))
  have hfuel : l.length ≤ t.registry.flags.keys.length := by
    have hlive : Segment FlagNode.next t.registry.flags n.flag l none :=
      Chain.segment_congr hl hsame
    exact Chain.segment_length_le hlive
  have hmap : x.flags.map Node.flag = l.map fun d => Node.flag d.1 := by
    rw [← hflags, List.map_map]
    rfl
  rw [destroyFlags_eq hl hsame hfuel, nodes_single, hof, freeAll_append, hmap]
  cases t.freeAll (l.map fun d => Node.flag d.1) with
  | none => rfl
  | some u =>
    show u.freeCommand c = u.freeAll [.command c]
    rw [freeAll_cons]
    show u.freeCommand c = (u.freeCommand c).bind _
    cases u.freeCommand c <;> rfl

/-- The recursion frees the nodes of the post-order. -/
theorem destroyFrom_eq {s : Registry} {v : Forest} (hs : Stores s v) {cs order : List Ptr}
    (ho : PostOrder v.children cs order) {p : Option Ptr}
    (hp : Visits CommandNode.next s.commands p cs none) (hnodup : (v.nodes order).Nodup)
    {t : Tree} (ht : ∀ x ∈ v.nodes order, SameNode s t.registry x) {fuel : ℕ}
    (hfuel : order.length ≤ fuel) :
    whenSome (destroyFrom fuel) p t = t.freeAll (v.nodes order) := by
  induction ho generalizing p t fuel with
  | nil =>
    obtain ⟨l, hl, hnil⟩ := hp
    rw [List.map_eq_nil_iff.mp hnil] at hl
    cases hl
    rfl
  | @cons c cs rest sub hrest hsub ihrest ihsub =>
    obtain ⟨l, hl, hkeys⟩ := hp
    obtain ⟨⟨k, n⟩, l, rfl, rfl, rfl⟩ := List.map_eq_cons_iff.mp hkeys
    obtain ⟨rfl, hn, htail⟩ := Chain.segment_cons.mp hl
    obtain ⟨x, hx, -⟩ := hs.view hn
    have hchildren : v.children k = x.children := by
      rw [Forest.children, hx]
    obtain ⟨fuel, rfl⟩ : ∃ j, fuel = j + 1 := ⟨fuel - 1, by simp at hfuel; omega⟩
    simp only [List.length_append, List.length_singleton] at hfuel
    rw [nodes_append, nodes_append] at hnodup ht ⊢
    obtain ⟨hnrest, hntree, hdisj⟩ := List.nodup_append'.mp hnodup
    obtain ⟨hnsub, -, hdisj'⟩ := List.nodup_append'.mp hntree
    have hself : Node.command k ∈ v.nodes [k] := by
      rw [nodes_single]
      exact List.mem_append_right _ List.mem_cons_self
    have hlive (u : Tree) (hu : SameNode s u.registry (.command k)) :
        u.registry.commands.lookup k = some n := Eq.trans hu hn
    have hstart := hlive t (ht _ (List.mem_append_right _ (List.mem_append_right _ hself)))
    have hnext := ihrest ⟨l, htail, rfl⟩ hnrest
      (fun y hy => ht y (List.mem_append_left _ hy)) (show rest.length ≤ fuel by omega)
    show destroyFrom (fuel + 1) k t = _
    rw [destroyFrom, hstart]
    simp only [Option.bind_eq_bind, Option.bind_some]
    rw [hnext, freeAll_append]
    cases h1 : t.freeAll (v.nodes rest) with
    | none => rfl
    | some t1 =>
      have hsame1 : ∀ y ∈ v.nodes sub ++ v.nodes [k], SameNode s t1.registry y := fun y hy =>
        (ht y (List.mem_append_right _ hy)).trans (freeAll_frame h1 fun hm => hdisj hm hy)
      have hchild := ihsub (by rw [hchildren]; exact hs.children k n x hn hx) hnsub
        (fun y hy => hsame1 y (List.mem_append_left _ hy)) (show sub.length ≤ fuel by omega)
      simp only [Option.bind_some, hlive t1 (hsame1 _ (List.mem_append_right _ hself))]
      rw [hchild, freeAll_append]
      cases h2 : t1.freeAll (v.nodes sub) with
      | none => rfl
      | some t2 =>
        have hsame2 : ∀ y ∈ v.nodes [k], SameNode s t2.registry y := fun y hy =>
          (hsame1 y (List.mem_append_right _ hy)).trans
            (freeAll_frame h2 fun hm => hdisj' hm hy)
        simp only [Option.bind_some, hlive t2 (hsame2 _ hself)]
        exact destroyFrom_last hs hn hsame2

end LibeventHttpServe.Flags
