import YangValidation.Filter.Merge

/-!
# Content validation

`lyv_data_content(node, options, unres)` runs the checks of a node that need its siblings, in
order, and stops at the first that decides the result:

1. the keys of a list instance come first, in declaration order (`lyv_keys`);
2. mandatory children are present;
3. no sibling instantiates another case of a choice enclosing the node's schema;
4. instances are unique: a second container, leaf or anyxml is an error, and so is a list or
   leaf-list instance equal to an already validated one. In filter mode duplicates are not
   errors but redundant selections: they are merged (`filter_merge`), freed, or the node is
   discarded;
5. neither the schema node, its non-instantiable ancestors nor its typedefs are obsolete;

and finally it queues the node's must conditions. Steps 1–5 run only while the node's `validity`
is set. A step that ends the call `throw`s its result in `Check`; `lyvDataContent` catches it.

`lyd_compare`, which decides equal list instances, is in tree.c and is modelled from the spec.
-/

namespace YangValidation

variable (s : Schema)

/-! ## `lyd_compare` and `lyv_keys` -/

/-- The values of a list instance's keys: for each key, the value of the first child that
instantiates it. -/
def keyValues (keys : List Nat) (kids : List (Ptr × LydNode)) : List (Option Nat) :=
  keys.map fun k => (kids.find? fun c => c.2.schema = k).bind (·.2.valueStr)

/-- Modelled from the spec: `lyd_compare(first, second, 1)` (tree.c, not in this source) is 0
for two equal instances of one schema, "structural equality over key values for List, value
equality for LeafList". A list without keys has no key values, and its instances are never
equal. The unique-statement combinations it also compares (line 623) are left out; the pass
results use only that it finds equal instances equal in both orders (`lydCompare_eq_zero_comm`),
reads no flag (`ClearsFlags.lydCompare`) and ends without fault on instances whose children form
rings. -/
def lydCompare (h : Heap) (first second : Ptr) : Except Fault Nat := do
  let n1 ← h.deref first
  let n2 ← h.deref second
  if n1.schema ≠ n2.schema then pure 1
  else match s.kind n1.schema with
    | .leaflist => pure (if n1.valueStr = n2.valueStr then 0 else 1)
    | .list => do
      let keys := (s.get n1.schema).keys
      let kids1 ← siblings h h.length n1.child
      let kids2 ← siblings h h.length n2.child
      pure (if keys ≠ [] ∧ keyValues keys kids1 = keyValues keys kids2 then 0 else 1)
    | _ => pure 0

/-- `lyd_compare` finds two instances equal in either order. -/
theorem lydCompare_eq_zero_comm {h : Heap} {p q : Ptr} (hc : lydCompare s h p q = .ok 0) :
    lydCompare s h q p = .ok 0 := by
  unfold lydCompare at hc ⊢
  cases hp : h.read? p <;> cases hq : h.read? q <;>
    simp only [Heap.deref, hp, hq, except_ok_bind, except_error_bind, reduceCtorEq] at hc ⊢
  rename_i np nq
  by_cases hs : np.schema = nq.schema
  · simp only [hs, ne_eq, not_true_eq_false, if_false] at hc ⊢
    split at hc
    · next hk =>
      simp only [hk, except_pure, Except.ok.injEq] at hc ⊢
      split at hc <;> simp_all
    · cases h1 : siblings h h.length np.child <;> cases h2 : siblings h h.length nq.child <;>
        simp only [h1, h2, except_ok_bind, except_error_bind, reduceCtorEq, except_pure,
          Except.ok.injEq] at hc ⊢
      split at hc
      · next hv => rw [if_pos ⟨hv.1, hv.2.symm⟩]
      · cases hc
    · rfl
  · simp [hs] at hc

/-- Lines 38–44: the report for key `k` of `listName` missing from its place, `LYE_MISSELEM`,
naming also the later child that holds the key, if there is one. -/
def missingKey (listName : String) (k : Nat) (rest : List (Ptr × LydNode)) : LyVErr :=
  match rest.find? (·.2.schema = k) with
  | some (p, _) => .keyMisplaced (s.get k).name listName p
  | none => .misselem (s.get k).name listName

/-- The loop of `lyv_keys` from key `keys[i]` on, `child` being the child expected to hold it. -/
def lyvKeysFrom (h : Heap) (listName : String) :
    List Nat → Option Ptr → Except Fault (Option LyVErr)
  | [], _ => pure none
  | k :: ks, child => do
    let here ← match child with
      | none => pure none
      | some c => do
        let nc ← h.deref c
        pure (if nc.schema = k then some nc.next else none)
    match here with
    | some next => lyvKeysFrom h listName ks next
    | none => do
      let rest ← siblings h h.length child
      pure (some (missingKey s listName k rest))

/-- `lyv_keys(list)`: the children of a list instance begin with its keys, in declaration
order. -/
def lyvKeys (h : Heap) (list : Ptr) : Except Fault (Option LyVErr) := do
  let nl ← h.deref list
  lyvKeysFrom s h (s.get nl.schema).name (s.get nl.schema).keys nl.child

/-! ## The steps -/

/-- A step of `lyv_data_content` that may end the call with its result. -/
abbrev Check := ExceptT VResult VM

/-- Run a read of the current heap. -/
def readHeap {α : Type} (f : Heap → Except Fault α) : VM α := do
  StateT.lift (f (← get).heap)

/-- A read of the current heap, inside a check. -/
def readC {α : Type} (f : Heap → Except Fault α) : Check α := ExceptT.lift (readHeap f)

/-- A computation that may fault, inside a check. -/
def liftC {α : Type} (e : Except Fault α) : Check α := ExceptT.lift (StateT.lift e)

/-- A check that went on from `c` goes on with what `c` returned. -/
theorem Check.run_bind_ok {α β : Type} {c : Check α} {f : α → Check β} {st st' : VState} {a : α}
    (h : c.run.run st = .ok (.ok a, st')) : (c >>= f).run.run st = (f a).run.run st' := by
  rw [ExceptT.run_bind, StateT.run_bind, h]; rfl

theorem Check.run_treeFor {o : Option Ptr} {st : VState} {R : List (Ptr × LydNode)}
    (h : siblings st.heap st.heap.length o = .ok R) :
    (liftM (treeFor o) : Check _).run.run st = .ok (.ok R, st) := by
  show (Except.ok <$> treeFor o).run st = _
  rw [StateT.run_map, treeFor_run h]; rfl

theorem Check.run_liftC {α : Type} {e : Except Fault α} {a : α} {st : VState} (h : e = .ok a) :
    (liftC e).run.run st = .ok (.ok a, st) := by
  subst h; rfl

/-- Keys, for a list instance outside filter, get and get-config data. -/
def keysCheck (options : LydOptions) (node schema : Nat) : Check Unit := do
  if s.kind schema = .list ∧ !(options.filter || options.get || options.getconfig) then
    match ← readC (lyvKeys s · node) with
    | some e => throw (.fail e)
    | none => pure ()

/-- Mandatory children, for a container or list instance outside filter, edit, get and
get-config data. -/
def mandatoryCheck (env : Env) (options : LydOptions) (node schema : Nat) : Check Unit := do
  if (s.kind schema = .container ∨ s.kind schema = .list) ∧
      !(options.filter || options.edit || options.get || options.getconfig) then
    match env.lyCheckMandatory (← get).heap node with
    | none => pure ()
    | some siter =>
      let parentName ← match (s.get siter).parent with
        | some p => pure (s.get p).name
        | none => (throw .nullDeref : VM String)
      if s.kind siter = .list ∨ s.kind siter = .leaflist then
        throw (.fail (.incount (s.get siter).name parentName))
      else throw (.fail (.misselem (s.get siter).name parentName))

/-- The first sibling of `node`: its parent's first child, or where the walk back along `prev`
stops. -/
def firstSiblingOf (node : Ptr) (n : LydNode) : VM (Option Ptr) := do
  match n.parent with
  | some q => pure (← getNode q).child
  | none => some <$> readHeap fun h => firstSibling h h.length node

/-- `for (siter = diter->schema->parent; siter; siter = siter->parent)`: whether a sibling
whose schema has the parent `si` lies under choice `ch` in a case other than `cs` (`none` for a
node placed directly under the choice). -/
def caseConflict (ch : Nat) (cs : Option Nat) : Nat → Option Nat → Except Fault Bool
  | _, none => pure false
  | 0, some _ => .error .diverge
  | f + 1, some si =>
    match (s.get si).nodetype with
    | .choice => if si = ch then pure true else caseConflict ch cs f (s.get si).parent
    | .case =>
      if (s.get si).parent ≠ some ch then caseConflict ch cs f (s.get si).parent
      else pure (cs ≠ some si)
    | _ => pure false

/-- The sibling loop at one level of the choice walk: some sibling other than `node` conflicts. -/
def anyCaseConflict (node ch : Nat) (cs : Option Nat) :
    List (Ptr × LydNode) → Except Fault Bool
  | [] => pure false
  | d :: ds =>
    if d.1 = node then anyCaseConflict node ch cs ds
    else do
      if ← caseConflict s ch cs s.nodes.length (s.get d.2.schema).parent then pure true
      else anyCaseConflict node ch cs ds

/-- `while (ch->parent && (ch->parent->nodetype & (LYS_CASE | LYS_CHOICE)))`: climb the choices
and cases above the node's schema; at each choice, no sibling may be in another case. -/
def choiceCheck (node : Ptr) (start : Option Ptr) : Nat → Nat → Check Unit
  | 0, _ => (throw .diverge : VM Unit)
  | f + 1, ch => do
    match (s.get ch).parent with
    | none => pure ()
    | some par =>
      if (s.get par).nodetype = .choice ∨ (s.get par).nodetype = .case then
        let (cs, ch') ← if (s.get par).nodetype = .choice then pure (none, par)
          else match (s.get par).parent with
            | some c => pure (some par, c)
            | none => (throw .nullDeref : VM (Option Nat × Nat))
        let sibs ← treeFor start
        if ← liftC (anyCaseConflict s node ch' cs sibs) then
          throw (.fail (.mcasedata (s.get ch').name))
        choiceCheck node start f ch'

/-- The parent name of `LYE_TOOMANY`: `schema->parent ? schema->parent->name : "data tree"`. -/
def parentNameOr (schema : Nat) : String :=
  match (s.get schema).parent with
  | some p => (s.get p).name
  | none => "data tree"

/-- Duplicates of a container, leaf or anyxml `node`, given the first sibling `diter` with its
schema. Outside filter mode it is an error; in filter mode the two are normalised. -/
def singleDuplicate (options : LydOptions) (node : Ptr) (n : LydNode) (diter : Ptr)
    (dn : LydNode) : Check Unit := do
  if options.filter then
    match s.kind n.schema with
    | .container => do
      if (← readC (filterCompare s · diter node)) = 0 then
        let _ ← filterMerge s (← get).heap.length diter node
        throw .discard
      else if dn.child.isNone then throw .discard
      else do
        if n.child.isNone then lydFree s diter
        throw .ok
    | .leaf =>
      if dn.valueStr.isNone ∧ n.valueStr.isSome then do
        lydFree s diter
        throw .ok
      else if n.valueStr.isNone ∨ dn.valueStr = n.valueStr then throw .discard
      else pure ()
    | .anyxml => throw .discard
    | _ => pure ()
  else throw (.fail (.toomany (s.get n.schema).name (parentNameOr s n.schema)))

/-- The loop `for (diter = start; diter; diter = diter->next)` over the list or leaf-list
instances from the first one on, skipping `node` and those still to be validated. -/
def scanInstances (options : LydOptions) (node : Ptr) (n : LydNode) :
    List (Ptr × LydNode) → Check Unit
  | [] => pure ()
  | (diter, dn) :: rest =>
    if dn.schema ≠ n.schema ∨ diter = node ∨ dn.validity then scanInstances options node n rest
    else if options.filter then do
      if (← readC (filterCompare s · diter node)) = 0 then
        let _ ← filterMerge s (← get).heap.length diter node
        throw .discard
      else if s.kind n.schema = .leaflist then
        if dn.valueStr.isNone then lydFree s diter
        else if n.valueStr.isNone then throw .discard
        else scanInstances options node n rest
      else scanInstances options node n rest
    else do
      if (← readC (lydCompare s · diter node)) = 0 then
        throw (.fail (.duplist (s.get n.schema).name))
      else scanInstances options node n rest

/-- Instance uniqueness. -/
def uniqueCheck (options : LydOptions) (node : Ptr) (n : LydNode) (start : Option Ptr) :
    Check Unit := do
  let k := s.kind n.schema
  if k = .container ∨ k = .leaf ∨ k = .anyxml then
    match (← treeFor start).find? (fun d => d.2.schema = n.schema ∧ d.1 ≠ node) with
    | none => pure ()
    | some (diter, dn) => singleDuplicate s options node n diter dn
  else if k = .list ∨ k = .leaflist then
    let first ← if options.get || options.getconfig then pure none
      else do pure (((← treeFor start).find? fun d => d.1 ≠ node ∧ d.2.schema = n.schema).map (·.1))
    scanInstances s options node n (← treeFor first)

/-- The do-while status loop: the schema node, then its ancestors up to the nearest container,
leaf, leaf-list or list; `true` when one of them is obsolete and obsolete data is refused. -/
def statusLoop (obsolete : Bool) : Nat → Nat → Except Fault Bool
  | 0, _ => .error .diverge
  | f + 1, si =>
    if (s.get si).status = .obsolete ∧ obsolete then pure true
    else match (s.get si).parent with
      | none => pure false
      | some p =>
        if s.kind p ∈ [.container, .leaf, .leaflist, .list] then pure false
        else statusLoop obsolete f p

/-- The `type.der` chain of a leaf's type: the first obsolete typedef on it. -/
def obsoleteTpdf : Nat → Option Nat → Except Fault (Option Nat)
  | _, none => pure none
  | 0, some _ => .error .diverge
  | f + 1, some t =>
    if (s.tpdf t).status = .obsolete then pure (some t) else obsoleteTpdf f (s.tpdf t).der

/-- Status of the schema node and its non-instantiable ancestors, of a leaf's typedefs, and of
an identity value. -/
def statusCheck (env : Env) (options : LydOptions) (n : LydNode) : Check Unit := do
  let name := (s.get n.schema).name
  if ← liftC (statusLoop s options.obsolete s.nodes.length n.schema) then
    throw (.fail (.obsdata name))
  if s.kind n.schema = .leaf ∨ s.kind n.schema = .leaflist then
    if options.obsolete then
      match ← liftC (obsoleteTpdf s s.tpdfs.length (s.get n.schema).typeDer) with
      | some t => throw (.fail (.obstype name (s.tpdf t).name))
      | none => pure ()
    if n.valueType = .ident ∧ env.lypCheckStatus n.schema n.ident then
      throw (.fail .instatus)

/-- The checks made while `node->validity` is set. -/
def validityChecks (env : Env) (options : LydOptions) (node : Ptr) (n : LydNode) : Check Unit := do
  if n.validity then
    keysCheck s options node n.schema
    mandatoryCheck s env options node n.schema
    let start ← firstSiblingOf node n
    if !options.filter then choiceCheck s node start s.nodes.length n.schema
    uniqueCheck s options node n start
    statusCheck s env options n

/-- `lyv_data_content(node, options, unres)`. -/
def lyvDataContent (env : Env) (options : LydOptions) (node : Ptr) : VM VResult := do
  let n ← getNode node
  match ← (validityChecks s env options node n).run with
  | .error r => pure r
  | .ok () => do
    if env.resolveAppliesMust (← get).heap node then unresDataAdd node .must
    pure .ok

/-! ## Choices in a shorthand case, and the early returns of filter mode -/

/-- Collaborators that never object: every feature enabled, no mandatory child missing, no must
condition, no status conflict, no RPC, no resolution failure. -/
def quietEnv : Env where
  lysIsDisabled _ := false
  lyCheckMandatory _ _ := none
  resolveAppliesMust _ _ := false
  lypCheckStatus _ _ := false
  lypIsRpc _ := false
  lysGetnext _ := none
  resolveUnresDataItem _ _ _ := false

/-- As `quietEnv`, with must conditions on every node. -/
def mustEnv : Env := { quietEnv with resolveAppliesMust := fun _ _ => true }

/-- Choice `ch` with a list `l` placed directly under it (a shorthand case), and a case `cs`
holding a list `l2`; `k` and `k2` are their keys. -/
def choiceSchema : Schema :=
  { nodes := [{ name := "ch", nodetype := .choice },
      { name := "l", nodetype := .list, parent := some 0, keys := [2] },
      { name := "k", nodetype := .leaf, parent := some 1 },
      { name := "cs", nodetype := .case, parent := some 0 },
      { name := "l2", nodetype := .list, parent := some 3, keys := [5] },
      { name := "k2", nodetype := .leaf, parent := some 4 }] }

/-- Two top-level instances `l[k=1]` (0) and `l[k=2]` (2) of the shorthand-case list, or, with
`schema` 4 and key 5, of the list in case `cs`. -/
def twoInstancesHeap (schema key : Nat) : Heap :=
  [some { schema := schema, next := some 2, prev := 2, child := some 1, validity := true },
   some { schema := key, parent := some 0, prev := 1, valueStr := some 1 },
   some { schema := schema, prev := 0, child := some 3, validity := true },
   some { schema := key, parent := some 2, prev := 3, valueStr := some 2 }]

/-- A second entry of a list placed directly under a choice conflicts with the first: the walk
from the sibling's schema reaches the choice itself, which counts as another case. The same two
entries in an explicit case pass. -/
theorem lyvDataContent_shorthand_conflict :
    ((lyvDataContent choiceSchema quietEnv {} 2).run { heap := twoInstancesHeap 1 2 }).map (·.1) =
        .ok (.fail (.mcasedata "ch")) ∧
      ((lyvDataContent choiceSchema quietEnv {} 2).run { heap := twoInstancesHeap 4 5 }).map (·.1) =
        .ok .ok := by
  decide

/-- An obsolete leaf `x`. -/
def obsoleteSchema : Schema :=
  { nodes := [{ name := "x", nodetype := .leaf, status := .obsolete }] }

/-- Top-level siblings: a selection `x` (0), validated, and a content-match `x = 1` (1). -/
def selThenValueHeap : Heap :=
  [some { schema := 0, next := some 1, prev := 1 },
   some { schema := 0, prev := 0, valueStr := some 1, validity := true }]

/-- In filter mode with obsolete data refused, the content-match `x` frees the selection `x` and
returns success at line 534: the obsolete schema is not reported and no must request is queued,
though must conditions apply. -/
theorem lyvDataContent_early_success :
    (obsoleteSchema.get 0).status = .obsolete ∧ mustEnv.resolveAppliesMust selThenValueHeap 1 ∧
      ((lyvDataContent obsoleteSchema mustEnv { filter := true, obsolete := true } 1).run
        { heap := selThenValueHeap }).map (fun r => (r.1, r.2.unres)) = .ok (.ok, []) := by
  decide

end YangValidation
