import Mathlib.Data.List.Nodup
import Mathlib.Logic.Relation

/-!
# Forests in post-order

A forest is given by the children of each node. The post-order here is that of a
recursion that descends into the next sibling first, then into the first child, and
takes the node itself last. It exists for every list of nodes of a layered forest,
lists what lies below them, and repeats nothing.
-/

namespace LibeventHttpServe.Lib

variable {κ : Type} {children : κ → List κ} {depth : κ → ℕ}

/-- Parents are unique, a child is one level below its parent, and there are finitely
many levels. -/
structure Layered (children : κ → List κ) (depth : κ → ℕ) : Prop where
  deeper : ∀ c d, d ∈ children c → depth d = depth c + 1
  parent : ∀ b c d, d ∈ children b → d ∈ children c → b = c
  once : ∀ c, (children c).Nodup
  bounded : ∃ n, ∀ c d, d ∈ children c → depth d ≤ n

inductive PostOrder (children : κ → List κ) : List κ → List κ → Prop where
  | nil : PostOrder children [] []
  | cons {c : κ} {cs rest sub : List κ} (hrest : PostOrder children cs rest)
      (hsub : PostOrder children (children c) sub) :
      PostOrder children (c :: cs) (rest ++ (sub ++ [c]))

/-- `d` is `c` or lies below it. -/
abbrev Below (children : κ → List κ) : κ → κ → Prop :=
  Relation.ReflTransGen fun c d => d ∈ children c

theorem postOrder_list {cs : List κ} (h : ∀ c ∈ cs, ∃ sub, PostOrder children (children c) sub) :
    ∃ order, PostOrder children cs order := by
  induction cs with
  | nil => exact ⟨[], .nil⟩
  | cons c cs ih =>
    obtain ⟨sub, hsub⟩ := h c List.mem_cons_self
    obtain ⟨rest, hrest⟩ := ih (fun d hd => h d (List.mem_cons_of_mem c hd))
    exact ⟨_, .cons hrest hsub⟩

theorem exists_postOrder (h : Layered children depth) (cs : List κ) :
    ∃ order, PostOrder children cs order := by
  obtain ⟨n, hn⟩ := h.bounded
  -- the levels below a node are used up
  have hlevels : ∀ k c, n < depth c + k → ∃ sub, PostOrder children (children c) sub := by
    intro k
    induction k with
    | zero =>
      intro c hc
      have hnil : children c = [] := by
        by_contra hne
        obtain ⟨d, hd⟩ := List.exists_mem_of_ne_nil _ hne
        have hle := hn c d hd
        have heq := h.deeper c d hd
        omega
      rw [hnil]
      exact ⟨[], .nil⟩
    | succ k ih =>
      intro c hc
      refine postOrder_list fun d hd => ih d ?_
      have heq := h.deeper c d hd
      omega
  exact postOrder_list fun c _ => hlevels (n + 1) c (by omega)

theorem mem_postOrder {cs order : List κ} (h : PostOrder children cs order) {d : κ} :
    d ∈ order ↔ ∃ c ∈ cs, Below children c d := by
  induction h with
  | nil => simp
  | @cons c cs rest sub hrest hsub ihrest ihsub =>
    have hbelow : Below children c d ↔ (∃ e ∈ children c, Below children e d) ∨ d = c := by
      constructor
      · intro hcd
        rcases Relation.ReflTransGen.cases_head hcd with rfl | ⟨e, he, hd⟩
        · exact Or.inr rfl
        · exact Or.inl ⟨e, he, hd⟩
      · rintro (⟨e, he, hd⟩ | rfl)
        · exact .head he hd
        · exact .refl
    have hself : d ∈ [c] ↔ d = c := List.mem_singleton
    simp only [List.mem_append, hself, ihrest, ihsub, List.mem_cons, exists_eq_or_imp, hbelow]
    exact or_comm

theorem below_depth (h : Layered children depth) {c d : κ} (hd : Below children c d) :
    depth c ≤ depth d := by
  induction hd with
  | refl => exact Nat.le_refl _
  | tail _ hlast ih =>
    rw [h.deeper _ _ hlast]
    omega

/-- What lies below two nodes of one level lies below one node. -/
theorem below_unique (h : Layered children depth) {b c d : κ} (hb : Below children b d)
    (hc : Below children c d) (hdepth : depth b = depth c) : b = c := by
  induction hb with
  | refl =>
    rcases Relation.ReflTransGen.cases_tail hc with rfl | ⟨e, he, hlast⟩
    · rfl
    · have hle := below_depth h he
      have heq := h.deeper _ _ hlast
      omega
  | @tail e d hbe hlast ih =>
    rcases Relation.ReflTransGen.cases_tail hc with rfl | ⟨e', he', hlast'⟩
    · have hle := below_depth h hbe
      have heq := h.deeper _ _ hlast
      omega
    · rw [h.parent _ _ _ hlast' hlast] at he'
      exact ih he'

theorem postOrder_nodup (h : Layered children depth) {cs order : List κ}
    (ho : PostOrder children cs order) (hcs : cs.Nodup)
    (hlevel : ∀ b ∈ cs, ∀ c ∈ cs, depth b = depth c) : order.Nodup := by
  induction ho with
  | nil => exact .nil
  | @cons c cs rest sub hrest hsub ihrest ihsub =>
    obtain ⟨hc, hcs⟩ := List.nodup_cons.mp hcs
    have hchild : ∀ d ∈ sub, Below children c d ∧ depth c < depth d := by
      intro d hd
      obtain ⟨e, he, hed⟩ := (mem_postOrder hsub).mp hd
      have hle := below_depth h hed
      have heq := h.deeper _ _ he
      exact ⟨.head he hed, by omega⟩
    have hself : c ∉ sub := fun hm => Nat.lt_irrefl _ (hchild c hm).2
    have htree : (sub ++ [c]).Nodup := by
      refine List.nodup_append'.mpr ⟨ihsub (h.once c) ?_, List.nodup_singleton c, ?_⟩
      · intro b hb d hd
        rw [h.deeper c b hb, h.deeper c d hd]
      · intro d hd hdc
        rw [List.mem_singleton.mp hdc] at hd
        exact hself hd
    refine List.nodup_append'.mpr ⟨ihrest hcs fun b hb d hd =>
      hlevel b (List.mem_cons_of_mem c hb) d (List.mem_cons_of_mem c hd), htree, ?_⟩
    intro d hd hd'
    obtain ⟨b, hb, hbd⟩ := (mem_postOrder hrest).mp hd
    have hcd : Below children c d := by
      rcases List.mem_append.mp hd' with hd' | hd'
      · exact (hchild d hd').1
      · rw [List.mem_singleton.mp hd']
    have hbc := below_unique h hbd hcd
      (hlevel b (List.mem_cons_of_mem c hb) c List.mem_cons_self)
    rw [hbc] at hb
    exact hc hb

end LibeventHttpServe.Lib
