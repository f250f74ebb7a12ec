import YangValidation.TreeOps
import YangValidation.Filter.Compare

/-!
# The filter merger

`filter_merge(to, from)` absorbs the filter node `from` into `to` (same schema), so that `to`
selects what both selected. For a container or list:

* `from` without children selects everything: all of `to`'s children are freed;
* otherwise, when `to` has children, both sides are cut down to their *limiting sets* `s1` and
  `s2` (selection leaves and leaf-lists, anyxml without content, containers and lists). An empty
  `s1` means `to` already selects everything; an empty `s2` means `from` does, and `s1` is freed.
  Otherwise every member of `s2` looks for a counterpart of its schema in `s1`: equal containers
  or lists are merged recursively, a pure-selection `from` child replaces the `to` child (which is
  freed) and is moved over, and a `from` child with no counterpart is spliced onto the end of
  `to`'s children.

The sets `s1` and `s2` are `ly_set`s of pointers taken before the pairing loop, so the model keeps
them as lists of addresses and dereferences an entry each time the loop reads it. That is what
exposes the defect of this loop: an entry of `s1` freed at line 239 stays in `s1`, and the next
`from` child dereferences it (`filterMerge_reads_freed`).

The recursion is split as the code's own levels are: `filterMergeBody` is one call of
`filter_merge`, taking the recursive call as a parameter, and `filterMerge` ties the knot on fuel
(the depth of the trees).
-/

namespace YangValidation

variable (s : Schema)

/-! ## The limiting sets -/

/-- The test of the two `LY_TREE_FOR` loops that fill `s1` and `s2`: a selection leaf or
leaf-list (no value), an anyxml without content, or a container or list. -/
def isLimiting (d : LydNode) : Bool :=
  match s.kind d.schema with
  | .leaf | .leaflist => d.valueStr.isNone
  | .anyxml => !d.xmlChild
  | .container | .list => true
  | _ => false

/-- The limiting set of a child list, as the pointers `ly_set_add` stores. -/
def limitingSet (kids : List (Ptr × LydNode)) : List Ptr :=
  (kids.filter fun c => isLimiting s c.2).map (·.1)

/-! ## One level of `filter_merge` -/

/-- `while (to->child) lyd_free(to->child);` -/
def freeChildren (toNode : Ptr) : Nat → VM Unit
  | 0 => throw .diverge
  | f + 1 => do
    match (← getNode toNode).child with
    | none => pure ()
    | some c => do
      lydFree s c
      freeChildren toNode f

/-- Lines 269–277: unlink the `from` child `e2` and append it after the last child of `to`,
or make it `to`'s only child. -/
def spliceChild (toNode e2 : Ptr) : VM Unit := do
  lydUnlink e2
  match (← getNode toNode).child with
  | some c => do
    let last := (← getNode c).prev
    modifyNode last fun m => { m with next := some e2 }
    modifyNode e2 fun m => { m with prev := last }
    modifyNode c fun m => { m with prev := e2 }
  | none => modifyNode toNode fun m => { m with child := some e2 }
  modifyNode e2 fun m => { m with parent := some toNode }

/-- The inner loop `for (i = 0; i < s1->number; i++)`: look in `s1` for a counterpart of the
`from` child `e2`. It returns the `copy` flag and whether the loop stopped at a counterpart
(`i < s1->number`); `merge` is the recursive call of `filter_merge`. -/
def searchCounterpart (merge : Ptr → Ptr → VM Bool) (e2 : Ptr) :
    List Ptr → Bool → VM (Bool × Bool)
  | [], copy => pure (copy, false)
  | e1 :: rest, copy => do
    let n1 ← getNode e1
    let n2 ← getNode e2
    if n1.schema ≠ n2.schema then searchCounterpart merge e2 rest copy
    else match s.kind n2.schema with
      | .list | .container => do
        let c ← StateT.lift (filterCompare s (← get).heap e2 e1)
        if c = 0 then do
          let _ ← merge e1 e2
          pure (copy, true)
        else if n2.child.isNone then do
          lydFree s e1
          searchCounterpart merge e2 rest true
        else if n1.child.isNone then pure (copy, true)
        else searchCounterpart merge e2 rest copy
      | _ => pure (copy, true)

/-- The outer loop `for (j = 0; j < s2->number; j++)`: each `from` child that found no
counterpart, or replaced one, is moved to `to`. -/
def placeChildren (merge : Ptr → Ptr → VM Bool) (toNode : Ptr) (s1 : List Ptr) :
    List Ptr → VM Unit
  | [] => pure ()
  | e2 :: rest => do
    let (copy, found) ← searchCounterpart s merge e2 s1 false
    if copy || !found then spliceChild toNode e2
    placeChildren merge toNode s1 rest

/-- One call of `filter_merge(to, from)`, the recursive call being `merge`. It returns whether
the code returns `EXIT_SUCCESS` (the callers ignore it). -/
def filterMergeBody (merge : Ptr → Ptr → VM Bool) (toNode fromNode : Ptr) : VM Bool := do
  let nt ← getNode toNode
  let nf ← getNode fromNode
  if nt.schema ≠ nf.schema then pure false
  else match s.kind nt.schema with
    | .list | .container => do
      if nf.child.isNone then freeChildren s toNode (← get).heap.length
      else if nt.child.isSome then do
        let s1 := limitingSet s (← treeFor nt.child)
        let s2 := limitingSet s (← treeFor nf.child)
        if s1.isEmpty then pure ()
        else if s2.isEmpty then s1.forM (lydFree s)
        else placeChildren s merge toNode s1 s2
      pure true
    | _ => pure true

/-- `filter_merge(to, from)`, recursing at most `fuel` levels deep. -/
def filterMerge : Nat → Ptr → Ptr → VM Bool
  | 0, _, _ => throw .diverge
  | f + 1, toNode, fromNode => filterMergeBody s (filterMerge f) toNode fromNode

/-! ## Freed entries of `s1` -/

/-- The children of a node, as the pointers a walk visits. -/
def childPtrs (h : Heap) (p : Ptr) : Except Fault (List Ptr) := do
  let n ← h.deref p
  let kids ← siblings h h.length n.child
  pure (kids.map (·.1))

/-- `filter_merge(to, from)` on a heap, giving the heap it leaves. -/
def runMerge (h : Heap) (toNode fromNode : Ptr) : Except Fault Heap :=
  ((filterMerge s h.length toNode fromNode).run { heap := h }).map (·.2.heap)

/-- The schema of the examples: container `p` with a keyed list `l` (key leaf `k`) and a
container `c` (content-match leaf `kc`), and a leaf `y`. -/
def plSchema : Schema :=
  { nodes := [{ name := "p", nodetype := .container },
      { name := "l", nodetype := .list, parent := some 0, keys := [2] },
      { name := "k", nodetype := .leaf, parent := some 1 },
      { name := "c", nodetype := .container, parent := some 0 },
      { name := "kc", nodetype := .leaf, parent := some 3 },
      { name := "y", nodetype := .leaf, parent := some 0 }] }

/-- `to = p[l[k=1]]` at 0 and `from = p[l, l[k=2]]` at 3: `from` has a pure-selection `l`
followed by another `l`. -/
def listsHeap : Heap :=
  [some { schema := 0, child := some 1, prev := 0 },
   some { schema := 1, parent := some 0, prev := 1, child := some 2 },
   some { schema := 2, parent := some 1, prev := 2, valueStr := some 1 },
   some { schema := 0, child := some 4, prev := 3 },
   some { schema := 1, parent := some 3, next := some 5, prev := 5 },
   some { schema := 1, parent := some 3, prev := 4, child := some 6 },
   some { schema := 2, parent := some 5, prev := 6, valueStr := some 2 }]

/-- The pure-selection `l` of `from` frees `to`'s `l[k=1]` (node 1) at line 239 and is moved to
`to`; the next member of `s2`, `l[k=2]`, is then compared with `s1[0]`, the freed node 1. -/
theorem filterMerge_reads_freed :
    runMerge plSchema listsHeap 0 3 = .error (.invalidRead 1) := by
  decide

/-- `to = p[c[kc=1]]` at 0 and `from = p[c, y]` at 3, with `y` a selection leaf. -/
def containerHeap : Heap :=
  [some { schema := 0, child := some 1, prev := 0 },
   some { schema := 3, parent := some 0, prev := 1, child := some 2 },
   some { schema := 4, parent := some 1, prev := 2, valueStr := some 1 },
   some { schema := 0, child := some 4, prev := 3 },
   some { schema := 3, parent := some 3, next := some 5, prev := 5 },
   some { schema := 5, parent := some 3, prev := 4 }]

/-- After freeing `to`'s only child and splicing the pure-selection `c` into the emptied `to`,
the loop reads the freed `s1[0]` for the next `from` child `y`: no state is left to be
well formed. -/
theorem filterMerge_splice_then_freed :
    runMerge plSchema containerHeap 0 3 = .error (.invalidRead 1) := by
  decide

/-- `t = p[l[k=1], l]` at 0 and a disjoint copy of it at 4. -/
def selfHeap : Heap :=
  [some { schema := 0, child := some 1, prev := 0 },
   some { schema := 1, parent := some 0, next := some 3, prev := 3, child := some 2 },
   some { schema := 2, parent := some 1, prev := 2, valueStr := some 1 },
   some { schema := 1, parent := some 0, prev := 1 },
   some { schema := 0, child := some 5, prev := 4 },
   some { schema := 1, parent := some 4, next := some 7, prev := 7, child := some 6 },
   some { schema := 2, parent := some 5, prev := 6, valueStr := some 1 },
   some { schema := 1, parent := some 4, prev := 5 }]

/-- Merging `t` with its copy changes `t`: the copy's pure-selection `l` (node 7) frees `t`'s
`l[k=1]` (node 1), merges into `t`'s own pure-selection `l` (node 3), and is still moved over
because `copy` stays set, so `t`'s children go from `[1, 3]` to `[3, 7]`. -/
theorem filterMerge_copy_changes :
    childPtrs selfHeap 0 = .ok [1, 3] ∧
      ((runMerge plSchema selfHeap 0 4).bind fun h => childPtrs h 0) = .ok [3, 7] := by
  decide

end YangValidation
