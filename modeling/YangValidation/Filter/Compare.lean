import YangValidation.Data
import Mathlib.Algebra.Order.Ring.Nat

/-!
# The filter comparator

`filter_compare(first, second)` decides whether two filter nodes of one schema select the same
data. Leaves and leaf-lists compare their values. Containers and lists compare their
*content-match* children, the leaf and leaf-list children that carry a value; selection children
(no value) do not constrain the match. The code does not compare the two sets of content-match
children directly. It counts, over the content-match children of `first`, the children of
`second` equal to each one (`c1`), returns 1 as soon as one has none, and compares that count with
the number of content-match children of `second` (`c2`).

Counting pairs is the same as comparing sets only when `first` has no two equal content-match
children (`filterCompare_eq`): a repeated child of `first` is counted twice. On such inputs the
comparator tells apart two nodes that select the same data, against its own contract, and only in
one argument order (`filterCompare_not_symm`); on nodes without repeated content-match children it
decides `sameSelection` and is symmetric (`filterCompare_symm`).
-/

namespace YangValidation

variable (s : Schema)

/-! ## The code -/

/-- A leaf or leaf-list node with a value: a content-match node of a filter. -/
def isContentMatch (d : LydNode) : Bool :=
  (s.kind d.schema == .leaf || s.kind d.schema == .leaflist) && d.valueStr.isSome

/-- The inner `LY_TREE_FOR` of the container case: how many of `second`'s children have the
schema and the value of `d1`. -/
def matchCount (d1 : LydNode) (kids2 : List (Ptr × LydNode)) : Nat :=
  kids2.countP fun c => c.2.schema == d1.schema && c.2.valueStr == d1.valueStr

/-- The outer `LY_TREE_FOR` of the container case: `c1`, the sum of `matchCount` over the
content-match children of `first`, or `none` where one of them has no match (`return 1`). -/
def pairCount (kids2 : List (Ptr × LydNode)) : List (Ptr × LydNode) → Option Nat
  | [] => some 0
  | (_, d1) :: rest =>
    if isContentMatch s d1 then
      if matchCount d1 kids2 = 0 then none
      else (pairCount kids2 rest).map (matchCount d1 kids2 + ·)
    else pairCount kids2 rest

/-- The container and list case of `filter_compare`, on the two child lists: `return 1` when a
content-match child of `first` has no match or when `c1 != c2`. -/
def compareChildren (kids1 kids2 : List (Ptr × LydNode)) : Nat :=
  match pairCount s kids2 kids1 with
  | none => 1
  | some c1 => if c1 ≠ (kids2.filter fun c => isContentMatch s c.2).length then 1 else 0

/-- `filter_compare(first, second)`: `0` when both filter nodes select the same data, `1`
otherwise. -/
def filterCompare (h : Heap) (first second : Ptr) : Except Fault Nat := do
  let n1 ← h.deref first
  let n2 ← h.deref second
  if n1.schema ≠ n2.schema then pure 1
  else match s.kind n1.schema with
    | .container | .list => do
      let kids1 ← siblings h h.length n1.child
      let kids2 ← siblings h h.length n2.child
      pure (compareChildren s kids1 kids2)
    | .leaf | .leaflist => pure (if n1.valueStr = n2.valueStr then 0 else 1)
    | _ => pure 0

/-! ## What it decides -/

/-- The schema and value a content-match node is compared by. -/
def cmKey (c : Ptr × LydNode) : Nat × Option Nat := (c.2.schema, c.2.valueStr)

/-- The `(schema, value_str)` pairs of the content-match nodes among `kids`. -/
def cms (kids : List (Ptr × LydNode)) : List (Nat × Option Nat) :=
  (kids.filter fun c => isContentMatch s c.2).map cmKey

/-- What `filter_compare` should decide: one schema, and the same value for leaves and
leaf-lists, the same set of content-match children for containers and lists. -/
def sameSelection (a b : LydNode) (ka kb : List (Ptr × LydNode)) : Bool :=
  a.schema == b.schema &&
    match s.kind a.schema with
    | .leaf | .leaflist => a.valueStr == b.valueStr
    | .container | .list => (cms s ka).all (· ∈ cms s kb) && (cms s kb).all (· ∈ cms s ka)
    | _ => true

theorem sameSelection_comm (a b : LydNode) (ka kb : List (Ptr × LydNode)) :
    sameSelection s a b ka kb = sameSelection s b a kb ka := by
  unfold sameSelection
  by_cases hab : a.schema = b.schema
  · rw [hab]
    cases s.kind b.schema <;> simp [Bool.and_comm, eq_comm]
  · rw [beq_false_of_ne hab, beq_false_of_ne (Ne.symm hab)]; rfl

/-- Content-match is decided by the key alone, so children with the key of a content-match
node are content-match nodes. -/
theorem isContentMatch_of_cmKey {d : LydNode} {c : Ptr × LydNode} (hd : isContentMatch s d)
    (hc : cmKey c = (d.schema, d.valueStr)) : isContentMatch s c.2 := by
  simp only [cmKey, Prod.mk.injEq] at hc
  simpa [isContentMatch, hc.1, hc.2] using hd

theorem matchCount_eq_count {d : LydNode} (hd : isContentMatch s d) (kids : List (Ptr × LydNode)) :
    matchCount d kids = (cms s kids).count (d.schema, d.valueStr) := by
  rw [cms, List.count_eq_countP, List.countP_map, List.countP_filter]
  refine List.countP_congr fun c _ => ?_
  have hkey : (c.2.schema == d.schema && c.2.valueStr == d.valueStr) = true ↔
      cmKey c = (d.schema, d.valueStr) := by
    simp [cmKey]
  rw [hkey]
  simp only [Function.comp_apply, Bool.and_eq_true, beq_iff_eq]
  exact ⟨fun hk => ⟨hk, isContentMatch_of_cmKey s hd hk⟩, fun hk => hk.1⟩

/-- `c1` is the sum, over the content-match keys of `first`, of how often `second` has each. -/
theorem pairCount_eq (kids2 : List (Ptr × LydNode)) : ∀ kids1 : List (Ptr × LydNode),
    pairCount s kids2 kids1 =
      if (cms s kids1).all (· ∈ cms s kids2) then
        some ((cms s kids1).map ((cms s kids2).count ·)).sum
      else none
  | [] => rfl
  | (p, d1) :: rest => by
    have ih := pairCount_eq kids2 rest
    by_cases hd : isContentMatch s d1
    · have hcms : cms s ((p, d1) :: rest) = (d1.schema, d1.valueStr) :: cms s rest := by
        simp [cms, hd, cmKey]
      rw [pairCount, if_pos hd, hcms, matchCount_eq_count s hd, ih]
      by_cases hm : (cms s kids2).count (d1.schema, d1.valueStr) = 0
      · have : (d1.schema, d1.valueStr) ∉ cms s kids2 := List.count_eq_zero.mp hm
        simp [hm, this]
      · have : (d1.schema, d1.valueStr) ∈ cms s kids2 :=
          List.count_pos_iff.mp (Nat.pos_of_ne_zero hm)
        by_cases hc : (cms s rest).all (· ∈ cms s kids2) <;> simp [hc, hm, this]
    · have hcms : cms s ((p, d1) :: rest) = cms s rest := by simp [cms, hd]
      rw [pairCount, if_neg hd, hcms, ih]

theorem countP_mem_cons {a : Nat × Option Nat} {t : List (Nat × Option Nat)} (ha : a ∉ t)
    (l : List (Nat × Option Nat)) : l.countP (· ∈ a :: t) = l.count a + l.countP (· ∈ t) := by
  induction l with
  | nil => rfl
  | cons y l ih =>
    rw [List.countP_cons, List.countP_cons, List.count_cons, ih]
    by_cases hy : y = a
    · subst hy; simp [ha]; omega
    · by_cases hyt : y ∈ t <;> simp [hy, hyt, Nat.add_assoc]

/-- Over distinct keys, summing how often `l₂` has each counts the elements of `l₂` that are
among them. -/
theorem sum_count_eq_countP (l₂ : List (Nat × Option Nat)) :
    ∀ {l₁ : List (Nat × Option Nat)}, l₁.Nodup → (l₁.map (l₂.count ·)).sum = l₂.countP (· ∈ l₁)
  | [], _ => by simp
  | a :: t, hnd => by
    rw [List.map_cons, List.sum_cons, sum_count_eq_countP l₂ hnd.of_cons,
      countP_mem_cons (List.nodup_cons.mp hnd).1]

/-- Counting pairs decides set equality when `first`'s content-match keys are distinct. -/
theorem compareChildren_eq {kids1 : List (Ptr × LydNode)} (kids2 : List (Ptr × LydNode))
    (hnd : (cms s kids1).Nodup) :
    compareChildren s kids1 kids2 =
      if (cms s kids1).all (· ∈ cms s kids2) && (cms s kids2).all (· ∈ cms s kids1) then 0 else 1 := by
  have hc2 : (kids2.filter fun c => isContentMatch s c.2).length = (cms s kids2).length := by
    simp [cms]
  have hcount : (cms s kids2).countP (· ∈ cms s kids1) = (cms s kids2).length ↔
      (cms s kids2).all (· ∈ cms s kids1) := by
    simp
  rw [compareChildren, pairCount_eq]
  by_cases hall : (cms s kids1).all (· ∈ cms s kids2)
  · rw [if_pos hall, sum_count_eq_countP (cms s kids2) hnd, hc2, hall, Bool.true_and]
    by_cases hc : (cms s kids2).countP (· ∈ cms s kids1) = (cms s kids2).length
    · simp [hc, hcount.mp hc]
    · simp [hc, mt hcount.mpr hc]
  · simp [hall]

/-- **What `filter_compare` computes.** When `first` has no two equal content-match children,
it returns 0 exactly on `sameSelection`. -/
theorem filterCompare_eq {h : Heap} {a b : Ptr} {na nb : LydNode} {ka kb : List (Ptr × LydNode)}
    (ha : h.read? a = some na) (hb : h.read? b = some nb)
    (hka : siblings h h.length na.child = .ok ka) (hkb : siblings h h.length nb.child = .ok kb)
    (hnd : (cms s ka).Nodup) :
    filterCompare s h a b = .ok (if sameSelection s na nb ka kb then 0 else 1) := by
  simp only [filterCompare, Heap.deref_of_read? ha, Heap.deref_of_read? hb, except_ok_bind,
    sameSelection]
  by_cases hs : na.schema = nb.schema
  · simp only [hs, ne_eq, not_true_eq_false, if_false, beq_self_eq_true, Bool.true_and]
    cases s.kind nb.schema <;> simp [hka, hkb, compareChildren_eq s kb hnd]
  · simp [hs]

/-- **Symmetry.** On nodes neither of which has two equal content-match children,
`filter_compare` decides `sameSelection` and gives the same answer in both argument orders. -/
theorem filterCompare_symm {h : Heap} {a b : Ptr} {na nb : LydNode} {ka kb : List (Ptr × LydNode)}
    (ha : h.read? a = some na) (hb : h.read? b = some nb)
    (hka : siblings h h.length na.child = .ok ka) (hkb : siblings h h.length nb.child = .ok kb)
    (hnda : (cms s ka).Nodup) (hndb : (cms s kb).Nodup) :
    filterCompare s h a b = .ok (if sameSelection s na nb ka kb then 0 else 1) ∧
      filterCompare s h a b = filterCompare s h b a := by
  refine ⟨filterCompare_eq s ha hb hka hkb hnda, ?_⟩
  rw [filterCompare_eq s ha hb hka hkb hnda, filterCompare_eq s hb ha hkb hka hndb,
    sameSelection_comm]

/-! ## Repeated content-match children

A container schema `c` with a leaf-list `x`. At 0 a `c` filter node with two children `x = 1`,
at 3 one with a single `x = 1` (value 1 stands for a dictionary string). -/

/-- The schema of the counterexample: container `c` with leaf-list `x`. -/
def cxSchema : Schema :=
  { nodes := [{ name := "c", nodetype := .container },
      { name := "x", nodetype := .leaflist, parent := some 0 }] }

/-- Two `c` filter nodes: `c[x=1, x=1]` at 0 and `c[x=1]` at 3. -/
def cxHeap : Heap :=
  [some { schema := 0, child := some 1, prev := 0 },
   some { schema := 1, parent := some 0, next := some 2, prev := 2, valueStr := some 1 },
   some { schema := 1, parent := some 0, prev := 1, valueStr := some 1 },
   some { schema := 0, child := some 4, prev := 3 },
   some { schema := 1, parent := some 3, prev := 4, valueStr := some 1 }]

/-- With `x = 1` twice in the first argument, `c1 = 2` exceeds `c2 = 1`. The nodes `c[x=1, x=1]`
and `c[x=1]`, as `filter_compare` reads them, select the same data, yet it returns 1 in this order
and 0 in the other. -/
theorem filterCompare_not_symm :
    ∃ n₀ n₃ k₀ k₃, cxHeap.read? 0 = some n₀ ∧ cxHeap.read? 3 = some n₃ ∧
      siblings cxHeap cxHeap.length n₀.child = .ok k₀ ∧
      siblings cxHeap cxHeap.length n₃.child = .ok k₃ ∧ sameSelection cxSchema n₀ n₃ k₀ k₃ = true ∧
      filterCompare cxSchema cxHeap 0 3 = .ok 1 ∧ filterCompare cxSchema cxHeap 3 0 = .ok 0 :=
  ⟨_, _, _, _, rfl, rfl, rfl, rfl, by decide, by decide, by decide⟩

end YangValidation
