import LibeventHttpServe.Flags.Forest

/-!
# The two heaps that store a forest

Inserting a node and setting the one link that leads to it makes the heaps store
the forest with that node at the end of its list.
-/

namespace LibeventHttpServe.Flags

open LibeventHttpServe.Lib

variable {s : Registry} {v : Forest}

theorem Stores.live (hs : Stores s v) {p : Ptr} {x : CommandView} (hx : v.command p = some x) :
    ∃ n, s.commands.lookup p = some n ∧ n.toCommandData = x.toCommandData ∧
      n.parent = x.parent := by
  have h := hs.command p
  rw [hx, Option.map_some] at h
  obtain ⟨n, hn, he⟩ := Option.map_eq_some_iff.mp h
  exact ⟨n, hn, congrArg Prod.fst he, congrArg Prod.snd he⟩

theorem Stores.view (hs : Stores s v) {p : Ptr} {n : CommandNode}
    (hn : s.commands.lookup p = some n) :
    ∃ x, v.command p = some x ∧ n.toCommandData = x.toCommandData ∧ n.parent = x.parent := by
  have h := hs.command p
  rw [hn, Option.map_some] at h
  obtain ⟨x, hx, he⟩ := Option.map_eq_some_iff.mp h.symm
  exact ⟨x, hx, (congrArg Prod.fst he).symm, (congrArg Prod.snd he).symm⟩

theorem Stores.fresh (hs : Stores s v) {c : Ptr} (hc : c ∉ s.commands) :
    v.command c = none ∧ s.commands.lookup c = none := by
  have hl := AList.lookup_eq_none.mpr hc
  have h := hs.command c
  rw [hl, Option.map_none] at h
  exact ⟨Option.map_eq_none_iff.mp h.symm, hl⟩

theorem Stores.freshFlag (hs : Stores s v) {f : Ptr} (hf : f ∉ s.flags) :
    v.flag f = none ∧ s.flags.lookup f = none := by
  have hl := AList.lookup_eq_none.mpr hf
  have h := hs.flag f
  rw [hl, Option.map_none] at h
  exact ⟨h.symm, hl⟩

theorem Stores.notMem (hs : Stores s v) {f : Ptr} : f ∉ s.flags ↔ v.flag f = none := by
  rw [← hs.flag f, Option.map_eq_none_iff, AList.lookup_eq_none]

/-- A registry stores one forest. -/
theorem Stores.unique {w : Forest} (hv : Stores s v) (hw : Stores s w) : v = w := by
  have hflag : v.flag = w.flag := by
    funext f
    rw [← hv.flag f, ← hw.flag f]
  have hcommand : v.command = w.command := by
    funext p
    have hvp := hv.command p
    have hwp := hw.command p
    cases hn : s.commands.lookup p with
    | none =>
      rw [hn, Option.map_none] at hvp hwp
      rw [Option.map_eq_none_iff.mp hvp.symm, Option.map_eq_none_iff.mp hwp.symm]
    | some n =>
      obtain ⟨x, hx, hxd, hxp⟩ := hv.view hn
      obtain ⟨y, hy, hyd, hyp⟩ := hw.view hn
      have hchildren := Chain.visits_unique (hv.children p n x hn hx) (hw.children p n y hn hy)
      have hflags := Chain.visits_unique (hv.flags p n x hn hx) (hw.flags p n y hn hy)
      obtain ⟨xd, xp, xc, xf⟩ := x
      obtain ⟨yd, yp, yc, yf⟩ := y
      dsimp only at hxd hxp hyd hyp hchildren hflags
      rw [hx, hy, ← hxd, ← hxp, ← hyd, ← hyp, hchildren, hflags]
  obtain ⟨vc, vf⟩ := v
  obtain ⟨wc, wf⟩ := w
  dsimp only at hcommand hflag
  rw [hcommand, hflag]

theorem Stores.create (hs : Stores s v) {c : Ptr} (hc : c ∉ s.commands) (d : CommandData) :
    Stores { s with commands := s.commands.insert c ⟨d, none, none, none, none⟩ }
      (v.create c d) := by
  obtain ⟨hvc, hlc⟩ := hs.fresh hc
  -- the commands other than `c` are the old ones
  have hold : ∀ q n z, (s.commands.insert c ⟨d, none, none, none, none⟩).lookup q = some n →
      (v.create c d).command q = some z →
      (q = c ∧ n = ⟨d, none, none, none, none⟩ ∧ z = ⟨d, none, [], []⟩) ∨
        (s.commands.lookup q = some n ∧ v.command q = some z) := by
    intro q n z hn hz
    rcases create_cases hz with ⟨rfl, rfl⟩ | ⟨hq, hz⟩
    · rw [AList.lookup_insert, Option.some.injEq] at hn
      exact Or.inl ⟨rfl, hn.symm, rfl⟩
    · rw [AList.lookup_insert_ne hq] at hn
      exact Or.inr ⟨hn, hz⟩
  refine ⟨?_, ?_, ?_, hs.flag⟩
  · intro q
    by_cases hq : q = c
    · subst hq
      simp only [AList.lookup_insert, Forest.create, Function.update_self, Option.map_some]
    · simp only [AList.lookup_insert_ne hq, Forest.create, Function.update_of_ne hq]
      exact hs.command q
  · intro q n z hn hz
    rcases hold q n z hn hz with ⟨-, rfl, rfl⟩ | ⟨hn, hz⟩
    · exact Chain.visits_nil _
    · exact (Chain.visits_insert (hs.children q n z hn hz) hlc _).2
  · intro q n z hn hz
    rcases hold q n z hn hz with ⟨-, rfl, rfl⟩ | ⟨hn, hz⟩
    · exact Chain.visits_nil _
    · exact hs.flags q n z hn hz

section AddCommand

variable {p c t : Ptr} {x : CommandView} {b w : CommandNode} {d : CommandData}

/-- The heap with the new command, after one old node is relinked. -/
def relinked (s : Registry) (p c t : Ptr) (d : CommandData) (w : CommandNode) :
    Heap Ptr CommandNode :=
  (s.commands.insert c ⟨d, some p, none, none, none⟩).insert t w

theorem relinked_new (hct : c ≠ t) :
    (relinked s p c t d w).lookup c = some ⟨d, some p, none, none, none⟩ := by
  rw [relinked, AList.lookup_insert_ne hct, AList.lookup_insert]

theorem relinked_old {q : Ptr} {n : CommandNode} (hq : q ≠ c)
    (hn : (relinked s p c t d w).lookup q = some n) :
    (q = t ∧ n = w) ∨ (q ≠ t ∧ s.commands.lookup q = some n) := by
  by_cases hqt : q = t
  · subst hqt
    rw [relinked, AList.lookup_insert, Option.some.injEq] at hn
    exact Or.inl ⟨rfl, hn.symm⟩
  · rw [relinked, AList.lookup_insert_ne hqt, AList.lookup_insert_ne hq] at hn
    exact Or.inr ⟨hqt, hn⟩

/-- The relinked node keeps everything but one link: then the new heap stores the
new forest as soon as its child lists are those of the old one, with `c` at the
end of the list of `p`. -/
theorem Stores.addCommand (hs : Stores s v) (hc : c ∉ s.commands) (hp : v.command p = some x)
    (hb : s.commands.lookup t = some b) (hdata : w.toCommandData = b.toCommandData)
    (hparent : w.parent = b.parent) (hflag : w.flag = b.flag)
    (hch : ∀ q n y, q ≠ c → (relinked s p c t d w).lookup q = some n → v.command q = some y →
      Chain.Visits CommandNode.next (relinked s p c t d w) n.child
        (y.children ++ if q = p then [c] else []) none) :
    Stores { s with commands := relinked s p c t d w } (v.addCommand p x c d) := by
  obtain ⟨hvc, hlc⟩ := hs.fresh hc
  have hct : c ≠ t := by
    intro he
    rw [he, hb] at hlc
    cases hlc
  refine ⟨?_, ?_, ?_, hs.flag⟩
  · intro q
    by_cases hq : q = c
    · subst hq
      rw [relinked_new hct, addCommand_new]
      rfl
    · have hleft : ((relinked s p c t d w).lookup q).map
          (fun n => (n.toCommandData, n.parent)) =
            (s.commands.lookup q).map fun n => (n.toCommandData, n.parent) := by
        by_cases hqt : q = t
        · subst hqt
          rw [relinked, AList.lookup_insert, hb, Option.map_some, Option.map_some, hdata, hparent]
        · rw [relinked, AList.lookup_insert_ne hqt, AList.lookup_insert_ne hq]
      have hright : ((v.addCommand p x c d).command q).map
          (fun x => (x.toCommandData, x.parent)) =
            (v.command q).map fun x => (x.toCommandData, x.parent) := by
        by_cases hqp : q = p
        · subst hqp
          rw [hp]
          simp only [Forest.addCommand, Function.update_of_ne hq, Function.update_self,
            Option.map_some]
        · simp only [Forest.addCommand, Function.update_of_ne hq, Function.update_of_ne hqp]
      rw [hleft, hright]
      exact hs.command q
  · intro q n z hn hz
    rcases addCommand_cases hp hz with ⟨rfl, rfl⟩ | ⟨hq, y, hy, -, -, -, hzch⟩
    · rw [relinked_new hct, Option.some.injEq] at hn
      subst hn
      exact Chain.visits_nil _
    · rw [hzch]
      exact hch q n y hq hn hy
  · intro q n z hn hz
    rcases addCommand_cases hp hz with ⟨rfl, rfl⟩ | ⟨hq, y, hy, -, -, hzfl, -⟩
    · rw [relinked_new hct, Option.some.injEq] at hn
      subst hn
      exact Chain.visits_nil _
    · rw [hzfl]
      rcases relinked_old hq hn with ⟨rfl, rfl⟩ | ⟨-, hn⟩
      · rw [hflag]
        exact hs.flags q b y hb hy
      · exact hs.flags q n y hn hy

theorem Stores.addFirst (hs : Stores s v) (hc : c ∉ s.commands) (hp : v.command p = some x)
    (hb : s.commands.lookup p = some b) (hnil : x.children = []) :
    Stores { s with commands := relinked s p c p d { b with child := some c } }
      (v.addCommand p x c d) := by
  obtain ⟨-, hlc⟩ := hs.fresh hc
  have hcp : c ≠ p := by
    intro he
    rw [he, hb] at hlc
    cases hlc
  apply hs.addCommand (w := { b with child := some c }) hc hp hb rfl rfl rfl
  intro q n y hq hn hy
  by_cases hqp : q = p
  · subst hqp
    rw [hp, Option.some.injEq] at hy
    subst hy
    rw [relinked, AList.lookup_insert, Option.some.injEq] at hn
    subst hn
    rw [hnil, if_pos rfl]
    exact ⟨[(c, ⟨d, some q, none, none, none⟩)], ⟨rfl, relinked_new hcp, rfl⟩, rfl⟩
  · rw [if_neg hqp, List.append_nil]
    rcases relinked_old hq hn with ⟨h, -⟩ | ⟨-, hn⟩
    · exact (hqp h).elim
    refine Chain.visits_congr (Chain.visits_insert (hs.children q n y hn hy) hlc
      ⟨d, some p, none, none, none⟩).2 ?_
    intro k hk
    by_cases hkp : k = p
    · subst hkp
      rw [relinked, AList.lookup_insert, AList.lookup_insert_ne hcp.symm, hb]
      rfl
    · rw [relinked, AList.lookup_insert_ne hkp]

theorem Stores.addLast (hs : Stores s v) (hv : WellFormed v) (hc : c ∉ s.commands)
    (hp : v.command p = some x) (hb : s.commands.lookup t = some b)
    (hlast : x.children.getLast? = some t) :
    Stores { s with commands := relinked s p c t d { b with next := some c } }
      (v.addCommand p x c d) := by
  obtain ⟨-, hlc⟩ := hs.fresh hc
  apply hs.addCommand (w := { b with next := some c }) hc hp hb rfl rfl rfl
  intro q n y hq hn hy
  -- the child pointer is the old one
  have hold : ∃ m, s.commands.lookup q = some m ∧ n.child = m.child := by
    rcases relinked_old hq hn with ⟨rfl, rfl⟩ | ⟨-, hn⟩
    · exact ⟨b, hb, rfl⟩
    · exact ⟨n, hn, rfl⟩
  obtain ⟨m, hm, hchild⟩ := hold
  rw [hchild]
  have hvis := hs.children q m y hm hy
  by_cases hqp : q = p
  · subst hqp
    rw [hp, Option.some.injEq] at hy
    subst hy
    rw [if_pos rfl]
    exact Chain.visits_extend hvis hlc hlast rfl rfl
  · rw [if_neg hqp, List.append_nil]
    refine Chain.visits_other hvis hlc ?_ _ _
    intro ht
    obtain ⟨z, hz, hzp⟩ := hv.parentOf p x t hp (List.mem_of_getLast? hlast)
    obtain ⟨z', hz', hzq⟩ := hv.parentOf q y t hy ht
    rw [hz, Option.some.injEq] at hz'
    rw [← hz', hzp, Option.some.injEq] at hzq
    exact hqp hzq.symm

end AddCommand

section AddFlag

variable {p f t : Ptr} {x : CommandView} {b : CommandNode} {g : FlagNode} {d : FlagData}

theorem addFlag_map (hp : v.command p = some x) (q : Ptr) :
    ((v.addFlag p x f d).command q).map (fun x => (x.toCommandData, x.parent)) =
      (v.command q).map fun x => (x.toCommandData, x.parent) := by
  by_cases hqp : q = p
  · subst hqp
    rw [hp]
    simp only [Forest.addFlag, Function.update_self, Option.map_some]
  · simp only [Forest.addFlag, Function.update_of_ne hqp]

theorem Stores.addFirstFlag (hs : Stores s v) (hf : f ∉ s.flags) (hp : v.command p = some x)
    (hb : s.commands.lookup p = some b) (hnil : x.flags = []) :
    Stores ⟨s.commands.insert p { b with flag := some f }, s.flags.insert f ⟨d, none⟩⟩
      (v.addFlag p x f d) := by
  obtain ⟨-, hlf⟩ := hs.freshFlag hf
  -- a node of the new heap of commands is an old one, up to the flag pointer
  have hold : ∀ q n, (s.commands.insert p { b with flag := some f }).lookup q = some n →
      (q = p ∧ n = { b with flag := some f }) ∨ (q ≠ p ∧ s.commands.lookup q = some n) := by
    intro q n hn
    by_cases hqp : q = p
    · subst hqp
      rw [AList.lookup_insert, Option.some.injEq] at hn
      exact Or.inl ⟨rfl, hn.symm⟩
    · rw [AList.lookup_insert_ne hqp] at hn
      exact Or.inr ⟨hqp, hn⟩
  have hlink : ∀ k, ((s.commands.insert p { b with flag := some f }).lookup k).map
      CommandNode.next = (s.commands.lookup k).map CommandNode.next := by
    intro k
    by_cases hkp : k = p
    · subst hkp
      rw [AList.lookup_insert, hb]
      rfl
    · rw [AList.lookup_insert_ne hkp]
  refine ⟨?_, ?_, ?_, ?_⟩
  · intro q
    rw [addFlag_map hp]
    rw [← hs.command q]
    by_cases hqp : q = p
    · subst hqp
      rw [AList.lookup_insert, hb]
      rfl
    · rw [AList.lookup_insert_ne hqp]
  · intro q n z hn hz
    obtain ⟨y, hy, -, -, hch, -⟩ := addFlag_cases hp hz
    rw [hch]
    rcases hold q n hn with ⟨rfl, rfl⟩ | ⟨-, hn⟩
    · exact Chain.visits_congr (hs.children q b y hb hy) (fun k _ => hlink k)
    · exact Chain.visits_congr (hs.children q n y hn hy) (fun k _ => hlink k)
  · intro q n z hn hz
    obtain ⟨y, hy, -, -, -, hfl⟩ := addFlag_cases hp hz
    rw [hfl]
    rcases hold q n hn with ⟨rfl, rfl⟩ | ⟨hqp, hn⟩
    · rw [hp, Option.some.injEq] at hy
      rw [← hy, hnil, if_pos rfl]
      exact ⟨[(f, ⟨d, none⟩)], ⟨rfl, AList.lookup_insert _, rfl⟩, rfl⟩
    · rw [if_neg hqp, List.append_nil]
      exact (Chain.visits_insert (hs.flags q n y hn hy) hlf _).2
  · intro e
    by_cases hef : e = f
    · subst hef
      simp only [AList.lookup_insert, Forest.addFlag, Function.update_self, Option.map_some]
    · simp only [AList.lookup_insert_ne hef, Forest.addFlag, Function.update_of_ne hef]
      exact hs.flag e

theorem Stores.addLastFlag (hs : Stores s v) (hv : WellFormed v) (hf : f ∉ s.flags)
    (hp : v.command p = some x) (hg : s.flags.lookup t = some g)
    (hlast : x.flags.getLast? = some t) :
    Stores { s with flags := (s.flags.insert f ⟨d, none⟩).insert t { g with next := some f } }
      (v.addFlag p x f d) := by
  obtain ⟨-, hlf⟩ := hs.freshFlag hf
  have hft : f ≠ t := by
    intro he
    rw [he, hg] at hlf
    cases hlf
  refine ⟨?_, ?_, ?_, ?_⟩
  · intro q
    rw [addFlag_map hp]
    exact hs.command q
  · intro q n z hn hz
    obtain ⟨y, hy, -, -, hch, -⟩ := addFlag_cases hp hz
    rw [hch]
    exact hs.children q n y hn hy
  · intro q n z hn hz
    obtain ⟨y, hy, -, -, -, hfl⟩ := addFlag_cases hp hz
    rw [hfl]
    have hvis := hs.flags q n y hn hy
    by_cases hqp : q = p
    · subst hqp
      rw [hp, Option.some.injEq] at hy
      subst hy
      rw [if_pos rfl]
      exact Chain.visits_extend hvis hlf hlast rfl rfl
    · rw [if_neg hqp, List.append_nil]
      refine Chain.visits_other hvis hlf ?_ _ _
      intro ht
      exact hqp (hv.owner q y p x t hy hp ht (List.mem_of_getLast? hlast))
  · intro e
    by_cases het : e = t
    · subst het
      have hold := hs.flag e
      rw [hg] at hold
      simp only [AList.lookup_insert, Forest.addFlag, Function.update_of_ne hft.symm,
        Option.map_some, ← hold]
    · by_cases hef : e = f
      · subst hef
        simp only [AList.lookup_insert_ne het, AList.lookup_insert, Forest.addFlag,
          Function.update_self, Option.map_some]
      · simp only [AList.lookup_insert_ne het, AList.lookup_insert_ne hef, Forest.addFlag,
          Function.update_of_ne hef]
        exact hs.flag e

end AddFlag

end LibeventHttpServe.Flags
