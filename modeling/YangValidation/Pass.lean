import YangValidation.Context

/-!
# Validation passes

The validator is driven by its callers (the parsers and `lyd_validate`), which call
`lyv_data_context` and `lyv_data_content` on the nodes of a tree, one at a time, sharing one
`unres_data` queue. What a caller does with the result is part of the system: a node that passes
has its `validity` cleared, and a node the filter normalisation discards (`EXIT_FAILURE` with no
error) is freed. `validationPass` is such a caller over any sequence of calls.

Over whole passes the sibling lists change: in filter mode nodes are merged, freed and
discarded. This module states what holds of the lists a pass leaves behind.
-/

namespace YangValidation

variable (s : Schema)

/-! ## The caller -/

/-- One call of a validation pass. -/
inductive VCall where
  | context (p : Ptr)
  | content (p : Ptr)
  deriving DecidableEq, Repr

/-- `lyv_data_content` on `p` as its callers use it: a node that passes has its `validity`
cleared, a discarded node is freed. -/
def contentStep (env : Env) (options : LydOptions) (p : Ptr) : VM VResult := do
  let r ← lyvDataContent s env options p
  match r with
  | .ok => modifyNode p fun n => { n with validity := false }
  | .discard => lydFree s p
  | .fail _ => pure ()
  pure r

/-- One call of a pass. -/
def passStep (env : Env) (options : LydOptions) : VCall → VM VResult
  | .context p => lyvDataContext s env options p
  | .content p => contentStep s env options p

/-- A validation pass: the calls in order, with their results. -/
def validationPass (env : Env) (options : LydOptions) : List VCall → VM (List VResult)
  | [] => pure []
  | c :: cs => do
    let r ← passStep s env options c
    let rs ← validationPass env options cs
    pure (r :: rs)

/-- The `(schema, value_str)` of the siblings from `start` on. -/
def siblingValues (h : Heap) (start : Ptr) : Except Fault (List (Nat × Option Nat)) :=
  (siblings h h.length (some start)).map (·.map fun c => (c.2.schema, c.2.valueStr))

/-! ## Filter passes -/

/-- The schema of the leaf example: a leaf `x`. -/
def leafSchema : Schema := { nodes := [{ name := "x", nodetype := .leaf }] }

/-- Top-level filter siblings `x = 1`, `x = 2`, `x = 2`, all still to validate. -/
def leavesHeap : Heap :=
  [some { schema := 0, next := some 1, prev := 2, valueStr := some 1, validity := true },
   some { schema := 0, next := some 2, prev := 0, valueStr := some 2, validity := true },
   some { schema := 0, prev := 1, valueStr := some 2, validity := true }]

/-- Validating the three leaves in document order keeps all of them: each is compared only with
the first other `x`, whose value differs, so the two `x = 2` survive side by side. -/
theorem filterPass_keeps_equal_leaves :
    ((validationPass leafSchema quietEnv { filter := true } [.content 0, .content 1, .content 2]).run
        { heap := leavesHeap }).map (fun r => (r.1, siblingValues r.2.heap 0)) =
      .ok ([.ok, .ok, .ok], .ok [(0, some 1), (0, some 2), (0, some 2)]) := by
  decide

/-- The schema of the leaf-list example: a leaf-list `x`. -/
def leafListSchema : Schema := { nodes := [{ name := "x", nodetype := .leaflist }] }

/-- Top-level filter siblings: a selection `x` (0) and a content-match `x = 1` (1). -/
def selValueHeap : Heap :=
  [some { schema := 0, next := some 1, prev := 1, validity := true },
   some { schema := 0, prev := 0, valueStr := some 1, validity := true }]

/-- With must conditions on the leaf-list `x`, the selection `x` passes (its scan skips the
unvalidated `x = 1`) and a must request is queued for it; validating `x = 1` then frees it, and
the request is left pointing at freed memory. -/
theorem filterPass_frees_queued :
    ((validationPass leafListSchema mustEnv { filter := true } [.content 0, .content 1]).run
        { heap := selValueHeap }).map (fun r => (r.2.unres, r.2.heap.read? 0)) =
      .ok ([(0, .must), (1, .must)], none) := by
  decide

/-- Top-level filter siblings `p[c, y]` (0) and `p[c[kc=1]]` (3) of the schema `plSchema`. -/
def twoFiltersHeap : Heap :=
  [some { schema := 0, next := some 3, prev := 3, child := some 1, validity := true },
   some { schema := 3, parent := some 0, next := some 2, prev := 2 },
   some { schema := 5, parent := some 0, prev := 1 },
   some { schema := 0, prev := 0, child := some 4, validity := true },
   some { schema := 3, parent := some 3, prev := 4, child := some 5 },
   some { schema := 4, parent := some 4, prev := 5, valueStr := some 1 }]

/-- The two `p` filters select the same content, so validating the first merges it into the
second: the pure-selection `c` frees `c[kc=1]` (node 4), and the merge then reads node 4 again for
`y`. -/
theorem filterPass_merge_reads_freed :
    (validationPass plSchema quietEnv { filter := true } [.content 0, .content 3]).run
        { heap := twoFiltersHeap } = .error (.invalidRead 4) := by
  decide

end YangValidation
