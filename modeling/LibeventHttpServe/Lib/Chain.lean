import Mathlib.Data.List.AList
import Mathlib.Data.List.Perm.Subperm

/-!
# Singly linked chains in a heap

A heap is a finite map from addresses to live cells. `Segment next h p l q`
says that following the `next` link from `p` visits exactly the cells `l`, in
order, and arrives at `q`; a chain is a segment that arrives at the null
pointer `none`. The walks a program makes over such a chain are bounded by the
number of live cells, because a chain visits no cell twice.
-/

namespace LibeventHttpServe.Lib

/-- Live cells by address; an address with no entry is free. -/
abbrev Heap (κ ν : Type) := AList (fun _ : κ => ν)

namespace Chain

variable {κ ν ε : Type} [DecidableEq κ] {next : ν → Option κ} {h : Heap κ ν}

/-- The cells met between the pointers `p` and `q` along `next`. -/
def Segment (next : ν → Option κ) (h : Heap κ ν) : Option κ → List (κ × ν) → Option κ → Prop
  | p, [], q => p = q
  | p, (k, v) :: l, q => p = some k ∧ h.lookup k = some v ∧ Segment next h (next v) l q

theorem segment_nil {p q : Option κ} : Segment next h p [] q ↔ p = q := Iff.rfl

theorem segment_cons {p q : Option κ} {k : κ} {v : ν} {l : List (κ × ν)} :
    Segment next h p ((k, v) :: l) q ↔
      p = some k ∧ h.lookup k = some v ∧ Segment next h (next v) l q := Iff.rfl

theorem segment_append {p q : Option κ} {l m : List (κ × ν)} :
    Segment next h p (l ++ m) q ↔ ∃ r, Segment next h p l r ∧ Segment next h r m q := by
  induction l generalizing p with
  | nil => simp [segment_nil]
  | cons c l ih =>
    obtain ⟨k, v⟩ := c
    simp only [List.cons_append, segment_cons, ih]
    constructor
    · rintro ⟨hp, hv, r, hl, hm⟩
      exact ⟨r, ⟨hp, hv, hl⟩, hm⟩
    · rintro ⟨r, ⟨hp, hv, hl⟩, hm⟩
      exact ⟨hp, hv, r, hl, hm⟩

theorem segment_null {q : Option κ} {l : List (κ × ν)} (hs : Segment next h none l q) :
    l = [] ∧ q = none := by
  cases l with
  | nil => exact ⟨rfl, hs.symm⟩
  | cons c l => cases hs.1

theorem segment_lookup {p q : Option κ} {l : List (κ × ν)} (hs : Segment next h p l q) :
    ∀ c ∈ l, h.lookup c.1 = some c.2 := by
  induction l generalizing p with
  | nil => simp
  | cons c l ih =>
    intro d hd
    rcases List.mem_cons.mp hd with rfl | hd
    · exact hs.2.1
    · exact ih hs.2.2 d hd

theorem segment_unique {p : Option κ} {l m : List (κ × ν)}
    (hl : Segment next h p l none) (hm : Segment next h p m none) : l = m := by
  induction l generalizing p m with
  | nil =>
    cases segment_nil.mp hl
    exact (segment_null hm).1.symm
  | cons c l ih =>
    obtain ⟨k, v⟩ := c
    obtain ⟨hp, hv, htail⟩ := segment_cons.mp hl
    subst hp
    cases m with
    | nil => cases segment_nil.mp hm
    | cons d m =>
      obtain ⟨k', v'⟩ := d
      obtain ⟨hk, hv', htail'⟩ := segment_cons.mp hm
      cases hk
      have hvv : v = v' := Option.some.inj (hv.symm.trans hv')
      subst hvv
      rw [ih htail htail']

/-- No cell is met twice: after a second visit the chain would be its own
proper suffix. -/
theorem segment_nodup {p : Option κ} {l : List (κ × ν)} (hs : Segment next h p l none) :
    (l.map Prod.fst).Nodup := by
  induction l generalizing p with
  | nil => simp
  | cons c l ih =>
    obtain ⟨k, v⟩ := c
    obtain ⟨-, hv, hl⟩ := segment_cons.mp hs
    refine List.nodup_cons.mpr ⟨?_, ih hl⟩
    intro hk
    obtain ⟨d, hd, hdk⟩ := List.mem_map.mp hk
    have hlk : h.lookup d.1 = some d.2 := segment_lookup hl d hd
    have hdv : d = (k, v) := by
      rw [hdk, hv] at hlk
      exact Prod.ext hdk (Option.some.inj hlk).symm
    subst hdv
    obtain ⟨a, b, hab⟩ := List.append_of_mem hd
    have hsplit := hl
    rw [hab] at hsplit
    obtain ⟨r, -, hr⟩ := segment_append.mp hsplit
    have hlen := congrArg List.length (segment_unique hl hr.2.2)
    rw [hab] at hlen
    simp only [List.length_append, List.length_cons] at hlen
    omega

theorem segment_length_le {p : Option κ} {l : List (κ × ν)} (hs : Segment next h p l none) :
    l.length ≤ h.keys.length := by
  have hsub : l.map Prod.fst ⊆ h.keys := by
    intro k hk
    obtain ⟨c, hc, rfl⟩ := List.mem_map.mp hk
    have hlk := segment_lookup hs c hc
    exact AList.mem_keys.mp (AList.lookup_isSome.mp (by rw [hlk]; rfl))
  have hle := (List.subperm_of_subset (segment_nodup hs) hsub).length_le
  simpa using hle

theorem segment_congr {h' : Heap κ ν} {p q : Option κ} {l : List (κ × ν)}
    (hs : Segment next h p l q) (hh : ∀ c ∈ l, h'.lookup c.1 = h.lookup c.1) :
    Segment next h' p l q := by
  induction l generalizing p with
  | nil => exact hs
  | cons c l ih =>
    obtain ⟨k, v⟩ := c
    obtain ⟨hp, hv, hl⟩ := segment_cons.mp hs
    refine segment_cons.mpr ⟨hp, ?_, ih hl (fun d hd => hh d (List.mem_cons_of_mem _ hd))⟩
    rw [hh (k, v) List.mem_cons_self]
    exact hv

theorem segment_insert {p q : Option κ} {l : List (κ × ν)} {k : κ} {v : ν}
    (hs : Segment next h p l q) (hk : k ∉ l.map Prod.fst) :
    Segment next (h.insert k v) p l q := by
  refine segment_congr hs (fun c hc => AList.lookup_insert_ne ?_)
  rintro rfl
  exact hk (List.mem_map_of_mem hc)

theorem segment_erase {p q : Option κ} {l : List (κ × ν)} {k : κ}
    (hs : Segment next h p l q) (hk : k ∉ l.map Prod.fst) :
    Segment next (h.erase k) p l q := by
  refine segment_congr hs (fun c hc => AList.lookup_erase_ne ?_)
  rintro rfl
  exact hk (List.mem_map_of_mem hc)

theorem segment_fresh {p q : Option κ} {l : List (κ × ν)} {k : κ}
    (hs : Segment next h p l q) (hk : h.lookup k = none) : k ∉ l.map Prod.fst := by
  intro hm
  obtain ⟨c, hc, rfl⟩ := List.mem_map.mp hm
  rw [segment_lookup hs c hc] at hk
  cases hk

theorem segment_link {p : Option κ} {l : List (κ × ν)} {t n : κ} {v v' w : ν}
    (hs : Segment next h p (l ++ [(t, v)]) none) (hn : h.lookup n = some w)
    (hnl : n ∉ (l ++ [(t, v)]).map Prod.fst) (hv' : next v' = some n) (hw : next w = none) :
    Segment next (h.insert t v') p (l ++ [(t, v'), (n, w)]) none := by
  have hnodup := segment_nodup hs
  simp only [List.map_append, List.map_cons, List.map_nil] at hnodup hnl
  obtain ⟨r, hl, ht⟩ := segment_append.mp hs
  have htl : t ∉ l.map Prod.fst := fun hm =>
    List.disjoint_of_nodup_append hnodup hm (by simp)
  have hnt : n ≠ t := fun he => hnl (by simp [he])
  refine segment_append.mpr ⟨r, segment_insert hl htl, ?_⟩
  refine segment_cons.mpr ⟨ht.1, AList.lookup_insert _, ?_⟩
  refine segment_cons.mpr ⟨hv', ?_, segment_nil.mpr hw⟩
  rw [AList.lookup_insert_ne hnt]
  exact hn

/-! ### The addresses of a chain -/

/-- The chain from `p` to `q` visits the addresses `ks`; the rest of the cells is
left open. -/
def Visits (next : ν → Option κ) (h : Heap κ ν) (p : Option κ) (ks : List κ) (q : Option κ) :
    Prop :=
  ∃ l, Segment next h p l q ∧ l.map Prod.fst = ks

theorem visits_nil (p : Option κ) : Visits next h p [] p := ⟨[], rfl, rfl⟩

theorem visits_unique {p : Option κ} {ks js : List κ} (hk : Visits next h p ks none)
    (hj : Visits next h p js none) : ks = js := by
  obtain ⟨l, hl, rfl⟩ := hk
  obtain ⟨m, hm, rfl⟩ := hj
  rw [segment_unique hl hm]

theorem visits_live {p q : Option κ} {ks : List κ} (hs : Visits next h p ks q) {k : κ}
    (hk : k ∈ ks) : ∃ v, h.lookup k = some v := by
  obtain ⟨l, hl, rfl⟩ := hs
  obtain ⟨c, hc, rfl⟩ := List.mem_map.mp hk
  exact ⟨c.2, segment_lookup hl c hc⟩

theorem visits_congr {h' : Heap κ ν} {p q : Option κ} {ks : List κ} (hs : Visits next h p ks q)
    (hh : ∀ k ∈ ks, (h'.lookup k).map next = (h.lookup k).map next) :
    Visits next h' p ks q := by
  obtain ⟨l, hl, rfl⟩ := hs
  induction l generalizing p with
  | nil => exact ⟨[], hl, rfl⟩
  | cons c l ih =>
    obtain ⟨k, v⟩ := c
    obtain ⟨hp, hv, htail⟩ := segment_cons.mp hl
    have hk := hh k List.mem_cons_self
    rw [hv, Option.map_some] at hk
    obtain ⟨v', hv', hnext⟩ := Option.map_eq_some_iff.mp hk
    obtain ⟨m, hm, hkeys⟩ := ih htail (fun k' hk' => hh k' (List.mem_cons_of_mem _ hk'))
    refine ⟨(k, v') :: m, segment_cons.mpr ⟨hp, hv', by rw [hnext]; exact hm⟩, ?_⟩
    rw [List.map_cons, List.map_cons, hkeys]

/-- A chain does not notice a cell at an address that was free. -/
theorem visits_insert {p q : Option κ} {ks : List κ} {k : κ} (hs : Visits next h p ks q)
    (hk : h.lookup k = none) (v : ν) : k ∉ ks ∧ Visits next (h.insert k v) p ks q := by
  obtain ⟨l, hl, rfl⟩ := hs
  have hfresh := segment_fresh hl hk
  exact ⟨hfresh, l, segment_insert hl hfresh, rfl⟩

theorem visits_link {p : Option κ} {ks : List κ} {t n : κ} {v' w : ν}
    (hs : Visits next h p (ks ++ [t]) none) (hn : h.lookup n = some w) (hnl : n ∉ ks ++ [t])
    (hv' : next v' = some n) (hw : next w = none) :
    Visits next (h.insert t v') p (ks ++ [t] ++ [n]) none := by
  obtain ⟨l, hl, hkeys⟩ := hs
  obtain ⟨a, b, rfl, rfl, hb⟩ := List.map_eq_append_iff.mp hkeys
  obtain ⟨c, rfl, rfl⟩ := List.map_eq_singleton_iff.mp hb
  have hlink := segment_link hl hn (by rw [hkeys]; exact hnl) hv' hw
  exact ⟨_, hlink, by simp⟩

/-- A new cell is linked behind the last one of the chain. -/
theorem visits_extend {p : Option κ} {ks : List κ} {t n : κ} {v' w : ν}
    (hs : Visits next h p ks none) (hn : h.lookup n = none) (hlast : ks.getLast? = some t)
    (hv' : next v' = some n) (hw : next w = none) :
    Visits next ((h.insert n w).insert t v') p (ks ++ [n]) none := by
  obtain ⟨js, rfl⟩ := List.getLast?_eq_some_iff.mp hlast
  obtain ⟨hnot, hvis⟩ := visits_insert hs hn w
  exact visits_link hvis (AList.lookup_insert _) hnot hv' hw

/-- The other chains do not notice. -/
theorem visits_other {p q : Option κ} {ks : List κ} {t n : κ} (hs : Visits next h p ks q)
    (hn : h.lookup n = none) (ht : t ∉ ks) (v' w : ν) :
    Visits next ((h.insert n w).insert t v') p ks q := by
  refine visits_congr (visits_insert hs hn w).2 ?_
  intro k hk
  have hkt : k ≠ t := fun he => ht (he ▸ hk)
  rw [AList.lookup_insert_ne hkt]

/-! ### Walks -/

/-- The cells from `p` to the null pointer; `none` when the walk meets a free
address or needs more than `fuel` cells. -/
def cells (next : ν → Option κ) (h : Heap κ ν) : ℕ → Option κ → Option (List (κ × ν))
  | _, none => some []
  | 0, some _ => none
  | fuel + 1, some p =>
    match h.lookup p with
    | none => none
    | some v => (cells next h fuel (next v)).map fun l => (p, v) :: l

theorem cells_of_segment {p : Option κ} {l : List (κ × ν)} (fuel : ℕ)
    (hs : Segment next h p l none) (hf : l.length ≤ fuel) :
    cells next h fuel p = some l := by
  induction l generalizing p fuel with
  | nil =>
    cases segment_nil.mp hs
    cases fuel <;> rfl
  | cons c l ih =>
    obtain ⟨k, v⟩ := c
    obtain ⟨hp, hv, hl⟩ := segment_cons.mp hs
    subst hp
    cases fuel with
    | zero => simp at hf
    | succ fuel =>
      have hrec := ih fuel hl (by simpa using hf)
      simp only [cells, hv, hrec, Option.map_some]

theorem cells_null (fuel : ℕ) : cells next h fuel none = some [] := by
  cases fuel <;> rfl

theorem cells_ne_nil {fuel : ℕ} {p : κ} {l : List (κ × ν)}
    (hl : cells next h fuel (some p) = some l) : l ≠ [] := by
  rintro rfl
  cases fuel with
  | zero => cases hl
  | succ fuel =>
    unfold cells at hl
    split at hl
    · cases hl
    · simp at hl

/-- The walk to the last cell of the chain that starts at the cell `p`: every
cell but the last is tested before the walk moves on, the last one after it. A
positive test stops the walk. -/
def scanTail (next : ν → Option κ) (test : ν → Option ε) (h : Heap κ ν) :
    ℕ → κ → Option (Except ε κ)
  | 0, _ => none
  | fuel + 1, p =>
    match h.lookup p with
    | none => none
    | some v =>
      match next v with
      | some q =>
        match test v with
        | some e => some (.error e)
        | none => scanTail next test h fuel q
      | none =>
        match test v with
        | some e => some (.error e)
        | none => some (.ok p)

/-- A walk that reaches the last cell has tested every cell of the chain. -/
theorem scanTail_ok {test : ν → Option ε} {p t : κ} (fuel : ℕ)
    (hw : scanTail next test h fuel p = some (.ok t)) :
    ∃ l v, Segment next h (some p) (l ++ [(t, v)]) none ∧
      ∀ c ∈ l ++ [(t, v)], test c.2 = none := by
  induction fuel generalizing p with
  | zero => cases hw
  | succ fuel ih =>
    cases hv : h.lookup p with
    | none => simp [scanTail, hv] at hw
    | some v =>
      simp only [scanTail, hv] at hw
      cases ht : test v with
      | some e => cases hq : next v <;> simp [hq, ht] at hw
      | none =>
        cases hq : next v with
        | none =>
          simp only [hq, ht, Option.some.injEq, Except.ok.injEq] at hw
          subst hw
          exact ⟨[], v, segment_cons.mpr ⟨rfl, hv, hq⟩, by simpa using ht⟩
        | some q =>
          simp only [hq, ht] at hw
          obtain ⟨l, u, hl, hall⟩ := ih hw
          refine ⟨(p, v) :: l, u, segment_cons.mpr ⟨rfl, hv, by rw [hq]; exact hl⟩, ?_⟩
          intro c hc
          rcases List.mem_cons.mp hc with rfl | hc
          · exact ht
          · exact hall c hc

/-- A walk that a test stops has met the cell. -/
theorem scanTail_error {test : ν → Option ε} {p : κ} {e : ε} {l : List (κ × ν)} (fuel : ℕ)
    (hs : Segment next h (some p) l none)
    (hw : scanTail next test h fuel p = some (.error e)) : ∃ c ∈ l, test c.2 = some e := by
  induction fuel generalizing p l with
  | zero => cases hw
  | succ fuel ih =>
    cases l with
    | nil => cases segment_nil.mp hs
    | cons c l =>
      obtain ⟨k, v⟩ := c
      obtain ⟨hp, hv, hl⟩ := segment_cons.mp hs
      cases hp
      simp only [scanTail, hv] at hw
      cases ht : test v with
      | some e' =>
        have he : e' = e := by
          cases hq : next v <;> simpa [hq, ht] using hw
        exact ⟨(p, v), List.mem_cons_self, he ▸ ht⟩
      | none =>
        cases hq : next v with
        | none => simp [hq, ht] at hw
        | some q =>
          simp only [hq, ht] at hw
          rw [hq] at hl
          obtain ⟨c, hc, hce⟩ := ih hl hw
          exact ⟨c, List.mem_cons_of_mem _ hc, hce⟩

theorem scanTail_total (test : ν → Option ε) {p : κ} {l : List (κ × ν)} (fuel : ℕ)
    (hs : Segment next h (some p) l none) (hf : l.length ≤ fuel) :
    ∃ r, scanTail next test h fuel p = some r := by
  induction fuel generalizing p l with
  | zero =>
    cases l with
    | nil => cases segment_nil.mp hs
    | cons c l => simp at hf
  | succ fuel ih =>
    cases l with
    | nil => cases segment_nil.mp hs
    | cons c l =>
      obtain ⟨k, v⟩ := c
      obtain ⟨hp, hv, hl⟩ := segment_cons.mp hs
      cases hp
      simp only [scanTail, hv]
      cases hq : next v with
      | none => cases test v <;> exact ⟨_, rfl⟩
      | some q =>
        rw [hq] at hl
        cases test v with
        | some e => exact ⟨_, rfl⟩
        | none => exact ih hl (by simpa using hf)

/-- The last cell of the chain that starts at `head`, none when there is no cell. -/
def back (next : ν → Option κ) (test : ν → Option ε) (h : Heap κ ν) (head : Option κ) :
    Option (Except ε (Option κ)) :=
  match head with
  | none => some (.ok none)
  | some p => (scanTail next test h h.keys.length p).map (Except.map some)

theorem back_total (test : ν → Option ε) {head : Option κ} {ks : List κ}
    (hs : Visits next h head ks none) : ∃ r, back next test h head = some r := by
  cases head with
  | none => exact ⟨_, rfl⟩
  | some p =>
    obtain ⟨l, hl, -⟩ := hs
    obtain ⟨r, hr⟩ := scanTail_total test h.keys.length hl (segment_length_le hl)
    exact ⟨r.map some, by rw [back, hr, Option.map_some]⟩

theorem back_ok {test : ν → Option ε} {head b : Option κ} {ks : List κ}
    (hs : Visits next h head ks none) (hb : back next test h head = some (.ok b)) :
    ks.getLast? = b ∧ ∀ k ∈ ks, ∀ v, h.lookup k = some v → test v = none := by
  obtain ⟨l, hl, rfl⟩ := hs
  cases head with
  | none =>
    cases hb
    rw [(segment_null hl).1]
    simp
  | some p =>
    obtain ⟨r, hr, hrb⟩ := Option.map_eq_some_iff.mp hb
    cases r with
    | error e => cases hrb
    | ok t =>
      cases hrb
      obtain ⟨m, v, hm, hall⟩ := scanTail_ok _ hr
      rw [segment_unique hl hm]
      refine ⟨by simp, ?_⟩
      intro k hk w hw
      obtain ⟨c, hc, rfl⟩ := List.mem_map.mp hk
      have hcw := segment_lookup hm c hc
      rw [hw, Option.some.injEq] at hcw
      rw [hcw]
      exact hall c hc

theorem back_passes {test : ν → Option ε} {head : Option κ} {ks : List κ}
    (hs : Visits next h head ks none)
    (ht : ∀ k ∈ ks, ∀ v, h.lookup k = some v → test v = none) :
    back next test h head = some (.ok ks.getLast?) := by
  obtain ⟨r, hr⟩ := back_total test hs
  cases r with
  | ok b => rw [hr, (back_ok hs hr).1]
  | error e =>
    obtain ⟨l, hl, rfl⟩ := hs
    cases head with
    | none => cases hr
    | some p =>
      obtain ⟨r, hscan, hre⟩ := Option.map_eq_some_iff.mp hr
      cases r with
      | ok t => cases hre
      | error e' =>
        obtain ⟨c, hc, hce⟩ := scanTail_error _ hl hscan
        rw [ht c.1 (List.mem_map_of_mem hc) c.2 (segment_lookup hl c hc)] at hce
        cases hce

end Chain
end LibeventHttpServe.Lib
