import YangValidation.Data

/-!
# The validation state and the tree primitives

A validation call reads and changes two things: the data tree in memory and the `unres_data`
queue of requests for the deferred resolver (leafref, instance-identifier, when and must). The
monad `VM` threads both and stops with a `Fault` on invalid memory.

`lyd_unlink` and `lyd_free` belong to the tree layer of the library (tree.c), which is not part
of this source; they are modelled from the spec's description of node deletion: unlink the node
from its sibling ring, release its owned children, then reclaim it. `lyd_unlink` follows the
doubly-linked ring discipline of the data model, in which the first sibling's `prev` is the last
sibling and the parent's `child` is the first.

Every action comes with the equation of its run, which later proofs use in place of its
definition.
-/

namespace YangValidation

/-! ## State and primitive actions -/

/-- `UNRES_*`, the kinds of request `unres_data_add` queues. -/
inductive UnresKind where
  | leafref
  | instid
  | when
  | must
  deriving DecidableEq, Repr

/-- What a validation call changes: the data tree in memory and the `unres_data` queue. -/
structure VState where
  heap : Heap
  unres : List (Ptr × UnresKind) := []
  deriving DecidableEq, Repr

/-- A validation step. -/
abbrev VM := StateT VState (Except Fault)

/-- Dereference a node. -/
def getNode (p : Ptr) : VM LydNode := do
  match (← get).heap.read? p with
  | some n => pure n
  | none => throw (.invalidRead p)

/-- Store a node's record. -/
def setNode (p : Ptr) (n : LydNode) : VM Unit := do
  let st ← get
  match st.heap.read? p with
  | some _ => set { st with heap := st.heap.write p n }
  | none => throw (.invalidWrite p)

/-- Change some fields of a node. -/
def modifyNode (p : Ptr) (f : LydNode → LydNode) : VM Unit := do
  setNode p (f (← getNode p))

/-- `LY_TREE_FOR(start, elem)`: the siblings from `start` on, with their records. -/
def treeFor (start : Option Ptr) : VM (List (Ptr × LydNode)) := do
  let h := (← get).heap
  StateT.lift (siblings h h.length start)

/-- `unres_data_add(unres, node, kind)`: append a request to the queue. -/
def unresDataAdd (p : Ptr) (k : UnresKind) : VM Unit :=
  modify fun st => { st with unres := st.unres ++ [(p, k)] }

/-! ## Collaborators

The functions of other parts of the library that the validator calls and this source does not
define. They are parameters of every validation step; the model assumes nothing about them beyond
their types. -/

/-- The collaborators of `validation.c`. -/
structure Env where
  /-- `lys_is_disabled(schema, 2) != NULL`: an if-feature disables the schema node. -/
  lysIsDisabled : Nat → Bool
  /-- `ly_check_mandatory(node, NULL)`: the first mandatory child schema node `node` lacks. -/
  lyCheckMandatory : Heap → Ptr → Option Nat
  /-- `resolve_applies_must(node)`: must conditions apply to `node`. -/
  resolveAppliesMust : Heap → Ptr → Bool
  /-- `lyp_check_status(...)` on a node's schema and the identity of its value fails. -/
  lypCheckStatus : Nat → Nat → Bool
  /-- `lyp_is_rpc(schema)`: the schema node is in an RPC's input or output. -/
  lypIsRpc : Nat → Bool
  /-- `lys_getnext(siter, siter->parent, siter->module, 0)`: the schema node declared after
  `siter` among the data nodes of its parent. -/
  lysGetnext : Nat → Option Nat
  /-- `resolve_unres_data_item(node, kind)` fails. -/
  resolveUnresDataItem : Heap → Ptr → UnresKind → Bool

/-! ## `lyd_unlink` and `lyd_free` -/

/-- `while (iter->prev != node) iter = iter->prev;`: the sibling whose `prev` is `p`. -/
def findPrevOf (h : Heap) (p : Ptr) : Nat → Ptr → Except Fault Ptr
  | 0, _ => .error .diverge
  | f + 1, i =>
    match h.read? i with
    | none => .error (.invalidRead i)
    | some m => if m.prev = p then .ok i else findPrevOf h p f m.prev

/-- Modelled from the spec: `lyd_unlink` (tree.c, not in this source) takes `p` out of its
sibling ring and out of its parent. The predecessor's `next` skips `p`; the successor's `prev`,
or the first sibling's when `p` is the last, takes `p->prev`; a parent whose first child is `p`
moves on to `p->next`; `p` is left alone in a ring of its own. -/
def lydUnlink (p : Ptr) : VM Unit := do
  let n ← getNode p
  let pr ← getNode n.prev
  if pr.next.isSome then modifyNode n.prev fun m => { m with next := n.next }
  match n.next with
  | some nx => modifyNode nx fun m => { m with prev := n.prev }
  | none =>
    let first ← match n.parent with
      | some q => do
        match (← getNode q).child with
        | some c => pure c
        | none => throw .nullDeref
      | none => do
        let h := (← get).heap
        StateT.lift (findPrevOf h p h.length n.prev)
    modifyNode first fun m => { m with prev := n.prev }
  if let some q := n.parent then
    let pq ← getNode q
    if pq.child = some p then modifyNode q fun m => { m with child := n.next }
  modifyNode p fun m => { m with parent := none, next := none, prev := p }

/-- The addresses of `p`'s subtree: `p` and, below a container or list, the subtrees of its
children in order. -/
def subtree (s : Schema) (h : Heap) : Nat → Ptr → Except Fault (List Ptr)
  | 0, _ => .error .diverge
  | f + 1, p =>
    match h.read? p with
    | none => .error (.invalidRead p)
    | some n =>
      if s.kind n.schema ∈ [.leaf, .leaflist, .anyxml] then .ok [p]
      else do
        let kids ← siblings h f n.child
        let subs ← kids.mapM fun c => subtree s h f c.1
        pure (p :: subs.flatten)

/-- Modelled from the spec: `lyd_free` (tree.c, not in this source) unlinks `p` from its ring and
releases it together with all its descendants. -/
def lydFree (s : Schema) (p : Ptr) : VM Unit := do
  let h := (← get).heap
  let sub ← StateT.lift (subtree s h h.length p)
  lydUnlink p
  modify fun st => { st with heap := sub.foldl Heap.dealloc st.heap }

/-! ## Running the actions -/

/-- The one inversion step for a sequence: both parts ran, through an intermediate state. -/
theorem run_bind_ok {α β : Type} {m : VM α} {f : α → VM β} {st st' : VState} {r : β}
    (h : (m >>= f).run st = .ok (r, st')) :
    ∃ a st₁, m.run st = .ok (a, st₁) ∧ (f a).run st₁ = .ok (r, st') := by
  rw [StateT.run_bind] at h
  rcases hm : m.run st with e | ⟨a, st₁⟩
  · rw [hm] at h; cases h
  · rw [hm] at h; exact ⟨a, st₁, rfl, h⟩

theorem getNode_run (p : Ptr) (st : VState) : (getNode p).run st =
    match st.heap.read? p with
    | some n => .ok (n, st)
    | none => .error (.invalidRead p) := by
  simp only [getNode, StateT.run_bind, StateT.run_get, pure_bind]
  split <;> rfl

theorem treeFor_run {o : Option Ptr} {st : VState} {R : List (Ptr × LydNode)}
    (h : siblings st.heap st.heap.length o = .ok R) : (treeFor o).run st = .ok (R, st) := by
  simp only [treeFor, StateT.run_bind, StateT.run_get, pure_bind, StateT.run_lift, h]; rfl

theorem setNode_run (p : Ptr) (n : LydNode) (st : VState) : (setNode p n).run st =
    match st.heap.read? p with
    | some _ => .ok ((), { st with heap := st.heap.write p n })
    | none => .error (.invalidWrite p) := by
  simp only [setNode, StateT.run_bind, StateT.run_get, pure_bind]
  split <;> rfl

theorem modifyNode_run (p : Ptr) (f : LydNode → LydNode) (st : VState) :
    (modifyNode p f).run st =
      match st.heap.read? p with
      | some n => .ok ((), { st with heap := st.heap.write p (f n) })
      | none => .error (.invalidRead p) := by
  simp only [modifyNode, StateT.run_bind, getNode_run]
  split
  · next n hn => simp [setNode_run, hn]
  · rfl

end YangValidation
