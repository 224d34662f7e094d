import LibeventHttpServe.Flags.Growth
import LibeventHttpServe.Flags.Refinement

/-!
# A tree with the values of its array flags (flags.c:40-110, 1767-2163)

The registry together with the arrays that its flags write and the buffers that are
allocated for them. `ppp_c_flags_command_destroy` reads a node only while it is live:
a read or a free of anything else is no result.
-/

namespace LibeventHttpServe.Flags

open LibeventHttpServe.Lib

inductive Node where
  | command (c : Ptr)
  | flag (f : Ptr)
  deriving DecidableEq, Repr

/-- What `ppp_c_flags_free` is called with. -/
inductive Freed where
  | node (x : Node)
  | buffer (p : Ptr)
  deriving DecidableEq, Repr

structure Tree where
  registry : Registry
  /- the arrays that the `_value` of flags point to, by the type of the elements -/
  array : Ptr → (e : ElemType) → ArrayCell e.Value
  /- `_set_value` of a flag -/
  used : Ptr → Bool
  /- the buffers that are allocated -/
  buffers : List Ptr
  /- what `ppp_c_flags_command_destroy` freed, in order -/
  freed : List Freed

/-- The array of type `e` at `a` as the flag `f` has it. -/
def Tree.view (t : Tree) (f a : Ptr) (e : ElemType) : ArrayCell e.Value :=
  { t.array a e with setValue := t.used f }

def Tree.setArray (t : Tree) (a : Ptr) (e : ElemType) (b : ArrayCell e.Value) : Tree :=
  { t with array := Function.update t.array a (Function.update (t.array a) e b) }

/-! ### Building a tree and giving values -/

/-- The buffer that a growth obtained: one that allocates never keeps the capacity. -/
def Growth.obtained {α : Type} (g : Growth α) (a : ArrayCell α) : Option Ptr :=
  if g.cell.cap = a.cap then none else g.cell.p

/-- `flag->_handler->set_flag` on a flag `f` for arrays of type `e`, with the buffers
that `ppp_c_flags_gropw` obtains and frees. -/
def Tree.set (fl : Floats) (t : Tree) (f a : Ptr) (e : ElemType) (c : ArrayCall e) : Option Tree :=
  let old := t.view f a e
  match c.run fl old, c.growth fl old with
  | .error _, _ => none
  | .ok _, none => some t
  | .ok (_, b), some g =>
    let t := { t.setArray a e b with used := Function.update t.used f b.setValue }
    match g.obtained old with
    | none => some t
    | some p =>
      if p ∈ t.buffers then none
      else some { t with buffers := p :: t.buffers.filter fun q => some q ≠ g.freed }

inductive TreeAction where
  | call (c : Call) (malloc : Option Ptr)
  | set (f : Ptr) (e : ElemType) (c : ArrayCall e)

/-- The variable of the flag that a call adds, with the constant of its type. -/
def Call.declares : Call → Option (Ptr × ℤ)
  | .commandCreateWithLen .. => none
  | .commandCreate .. => none
  | .addCommandWithLen .. => none
  | .addCommand .. => none
  | .addFlagWithLen _ _ _ _ a tag => some (a, tag)
  | .addFlag _ _ _ _ a tag => some (a, tag)

/-- A call names a variable with the type that it has. -/
def Call.typed (kind : Ptr → FlagType) (c : Call) : Bool :=
  match c.declares with
  | none => true
  | some (a, tag) => (FlagType.ofTag tag).all fun type => type = kind a

def treeStep (fl : Floats) (kind : Ptr → FlagType) (t : Tree) : TreeAction → Option Tree
  | .call c malloc =>
    if c.typed kind then
      (c.run malloc t.registry).map fun r => { t with registry := r.2 }
    else none
  | .set f e c =>
    match t.registry.flags.lookup f with
    | none => none
    | some n => if n.handler = ⟨e, true⟩ then t.set fl f n.value e c else none

/-- Every array variable either has no buffer of the allocator, or one that is live and
its own. -/
structure OwnBuffers (kind : Ptr → FlagType) (t : Tree) : Prop where
  owned : ∀ a e, kind a = ⟨e, true⟩ → (t.array a e).cap = 0 ∨ Owned e.size (t.array a e)
  live : ∀ a e, kind a = ⟨e, true⟩ → (t.array a e).cap ≠ 0 →
    ∃ p ∈ t.buffers, (t.array a e).p = some p
  apart : ∀ a e b d p, kind a = ⟨e, true⟩ → kind b = ⟨d, true⟩ → (t.array a e).cap ≠ 0 →
    (t.array b d).cap ≠ 0 → (t.array a e).p = some p → (t.array b d).p = some p → a = b

/-- The trees that calls build and values are given to, over variables of the types
`kind`; the variables may hold heap arrays before they are registered. -/
def treeSystem (fl : Floats) (kind : Ptr → FlagType) : System Tree TreeAction where
  init t := t.registry = ⟨∅, ∅⟩ ∧ (∀ f, t.used f = false) ∧ t.freed = [] ∧ OwnBuffers kind t
  step := treeStep fl kind

/-! ### ppp_c_flags_command_destroy -/

/-- `ppp_c_flags_free` of a buffer. -/
def Tree.freeBuffer (t : Tree) : Option Ptr → Option Tree
  | none => some t
  | some p =>
    if p ∈ t.buffers then
      some { t with buffers := t.buffers.filter fun q => q ≠ p, freed := t.freed ++ [.buffer p] }
    else none

/-- The `switch (flag->_type)`. -/
def Tree.freeArray (t : Tree) (n : FlagNode) : Option Tree :=
  let e := n.type.elem
  let arrs := t.array n.value e
  if n.type.array = true ∧ arrs.cap ≠ 0 then
    (t.freeBuffer arrs.p).map fun t => t.setArray n.value e ⟨none, [], 0, 0, arrs.setValue⟩
  else some t

def Tree.freeFlag (t : Tree) (f : Ptr) : Option Tree :=
  match t.registry.flags.lookup f with
  | none => none
  | some n => (t.freeArray n).map fun t =>
    { t with
      registry := { t.registry with flags := t.registry.flags.erase f }
      freed := t.freed ++ [.node (.flag f)] }

def Tree.freeCommand (t : Tree) (c : Ptr) : Option Tree :=
  match t.registry.commands.lookup c with
  | none => none
  | some _ => some { t with
      registry := { t.registry with commands := t.registry.commands.erase c }
      freed := t.freed ++ [.node (.command c)] }

/-- The loop over the flags; the fuel bounds the number of its rounds. -/
def destroyFlags : ℕ → Option Ptr → Tree → Option Tree
  | _, none, t => some t
  | 0, some _, _ => none
  | fuel + 1, some flag, t =>
    match t.registry.flags.lookup flag with
    | none => none
    | some n => (t.freeFlag flag).bind (destroyFlags fuel n.next)

/-- `if (p) run(p)`. -/
def whenSome (run : Ptr → Tree → Option Tree) (p : Option Ptr) (t : Tree) : Option Tree :=
  match p with
  | none => some t
  | some p => run p t

/-- `ppp_c_flags_command_destroy` with a bound for the depth of the recursion. -/
def destroyFrom : ℕ → Ptr → Tree → Option Tree
  | 0, _, _ => none
  | fuel + 1, c, t => do
    let n ← t.registry.commands.lookup c
    let t ← whenSome (destroyFrom fuel) n.next t
    let n ← t.registry.commands.lookup c
    let t ← whenSome (destroyFrom fuel) n.child t
    let n ← t.registry.commands.lookup c
    let t ← destroyFlags t.registry.flags.keys.length n.flag t
    t.freeCommand c

/-- `ppp_c_flags_command_destroy`; a tree has no path longer than its commands. -/
def commandDestroy (c : Ptr) (t : Tree) : Option Tree :=
  destroyFrom t.registry.commands.keys.length c t

end LibeventHttpServe.Flags
