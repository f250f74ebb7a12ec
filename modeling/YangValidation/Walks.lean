import YangValidation.Content

/-!
# The walks of `lyv_data_content`

`lyv_data_content` walks two sibling lists before it compares anything: the children of a list
instance, whose first entries must be the list's keys (`lyv_keys`), and the siblings of the node
itself, from the first one on. Both walks follow pointers, so what they see is a matter of the
tree's shape.

On the children of a well-formed list instance, `lyv_keys` never faults, and it succeeds exactly
when the children begin with the declared keys, in declaration order (`lyvKeys_iff_keys_first`);
otherwise `lyv_data_content` fails with the error `lyv_keys` logged. On a well-formed sibling
ring, the walk back along `prev` from node `k` takes exactly `k` steps to the first node, which
is also the parent's first child, so both ways the code computes `start` agree, and every scan
from `start` visits all siblings (`firstSibling_steps`).
-/

namespace YangValidation

variable (s : Schema)

/-! ## The keys of a list instance -/

/-- A list begins with another exactly when it is at least as long and agrees with it at every
position of the other. -/
theorem prefix_iff_getElem {l₁ l₂ : List Nat} :
    l₁ <+: l₂ ↔ l₁.length ≤ l₂.length ∧
      ∀ i (h₁ : i < l₁.length) (h₂ : i < l₂.length), l₁[i] = l₂[i] := by
  refine ⟨fun h => ⟨h.length_le, fun i h₁ _ => h.getElem h₁⟩, fun ⟨hle, heq⟩ => ?_⟩
  rw [List.prefix_iff_eq_take]
  exact List.ext_getElem (by simp [hle]) fun i h₁ h₂ => by
    rw [List.getElem_take]; exact heq i h₁ (by omega)

/-- Over children linked from `child`, the loop of `lyv_keys` from key `ks[0]` on ends without
fault, and it reports no error exactly when the children begin with the keys `ks`. -/
theorem lyvKeysFrom_linked (h : Heap) (listName : String) :
    ∀ (ks : List Nat) {q : Ptr} {C : List Ptr}, Linked h q C → C.length ≤ h.length →
      ∃ r, lyvKeysFrom s h listName ks C.head? = .ok r ∧
        (r = none ↔ ks <+: (records h C).map (·.2.schema))
  | [], _, _, _, _ => ⟨none, rfl, by simp⟩
  | k :: _, _, [], _, _ => ⟨some (missingKey s listName k []), by simp [lyvKeysFrom, siblings],
    by simp⟩
  | k :: ks, _, c :: C, hl@⟨n, hn, _, hnext, hC⟩, hlen => by
    have hrec : records h (c :: C) = (c, n) :: records h C := records_cons_of_read? C hn
    by_cases hk : n.schema = k
    · obtain ⟨r, hr, hiff⟩ := lyvKeysFrom_linked h listName ks hC (by simp at hlen; omega)
      refine ⟨r, ?_, by simp [hiff, hrec, hk]⟩
      simp [lyvKeysFrom, Heap.deref_of_read? hn, hk, hnext, hr]
    · have hs : siblings h h.length (some c) = .ok (records h (c :: C)) :=
        siblings_of_linked hl hlen
      refine ⟨some (missingKey s listName k (records h (c :: C))), ?_, by simp [hrec, Ne.symm hk]⟩
      simp [lyvKeysFrom, Heap.deref_of_read? hn, hk, hs]

/-- The children `kids` of an instance of schema node `i` begin with its keys: there are at least
as many children as keys, and the `j`-th child instantiates the `j`-th key. -/
def KeysFirst (i : Nat) (kids : List (Ptr × LydNode)) : Prop :=
  (s.get i).keys.length ≤ kids.length ∧
    ∀ j (hj : j < (s.get i).keys.length) (hk : j < kids.length),
      kids[j].2.schema = (s.get i).keys[j]

/-- What `lyv_data_content` does for a list instance with `validity` set, outside filter, get
and get-config data, when `lyv_keys` reports `e`: it fails with `e` and changes nothing. -/
theorem lyvDataContent_keys_error {env : Env} {options : LydOptions} {st : VState} {list : Ptr}
    {nl : LydNode} {e : LyVErr} (hl : st.heap.read? list = some nl) (hv : nl.validity = true)
    (hk : s.kind nl.schema = .list) (hf : options.filter = false) (hg : options.get = false)
    (hgc : options.getconfig = false) (he : lyvKeys s st.heap list = .ok (some e)) :
    (lyvDataContent s env options list).run st = .ok (.fail e, st) := by
  simp [lyvDataContent, validityChecks, keysCheck, readC, readHeap, getNode_run, hl, hv, hk, hf,
    hg, hgc, he]

/-- **The keys come first.** For a list instance `list` whose children form the ring `C`,
`lyv_keys` succeeds exactly when the children, in the order `next` follows from `list->child`,
begin with the declared keys. When they do not, `lyv_keys` reports an error without fault, and
`lyv_data_content` on the instance with `validity` set, outside filter, get and get-config data,
fails with that error. -/
theorem lyvKeys_iff_keys_first {st : VState} {list : Ptr} {nl : LydNode} {C : List Ptr}
    (hl : st.heap.read? list = some nl) (hC : Ring st.heap (some list) C) :
    (lyvKeys s st.heap list = .ok none ↔ KeysFirst s nl.schema (records st.heap C)) ∧
      (¬KeysFirst s nl.schema (records st.heap C) → ∃ e, lyvKeys s st.heap list = .ok (some e) ∧
        ∀ env options, options.filter = false → options.get = false →
          options.getconfig = false → nl.validity = true → s.kind nl.schema = .list →
          (lyvDataContent s env options list).run st = .ok (.fail e, st)) := by
  obtain ⟨nl', hl', hchild⟩ := hC.child_eq list rfl
  cases hl.symm.trans hl'
  obtain ⟨r, hr, hiff⟩ := lyvKeysFrom_linked s st.heap (s.get nl.schema).name
    (s.get nl.schema).keys hC.linked hC.length_le
  have hkeys : lyvKeys s st.heap list = .ok r := by
    simp [lyvKeys, Heap.deref_of_read? hl, hchild, hr]
  have hfirst : r = none ↔ KeysFirst s nl.schema (records st.heap C) := by
    simp only [hiff, prefix_iff_getElem, List.length_map, List.getElem_map, KeysFirst]
    exact ⟨fun ⟨hle, h⟩ => ⟨hle, fun i hi hc => (h i hi hc).symm⟩,
      fun ⟨hle, h⟩ => ⟨hle, fun i hi hc => (h i hi hc).symm⟩⟩
  rw [hkeys, Except.ok.injEq, hfirst]
  refine ⟨Iff.rfl, fun hne => ?_⟩
  · cases r with
    | none => exact absurd (hfirst.mp rfl) hne
    | some e =>
      exact ⟨e, rfl, fun _ _ hf hg hgc hv hk =>
        lyvDataContent_keys_error s hl hv hk hf hg hgc hkeys⟩

/-- A list `l` with the keys `k1` and `k2`, declared in this order. -/
def keysSchema : Schema :=
  { nodes := [{ name := "l", nodetype := .list, keys := [1, 2] },
      { name := "k1", nodetype := .leaf, parent := some 0 },
      { name := "k2", nodetype := .leaf, parent := some 0 }] }

/-- An instance of `l` (0), to validate, whose children are `k2` (1) and then `k1` (2). -/
def swappedKeysHeap : Heap :=
  [some { schema := 0, prev := 0, child := some 1, validity := true },
   some { schema := 2, parent := some 0, next := some 2, prev := 2, valueStr := some 2 },
   some { schema := 1, parent := some 0, prev := 1, valueStr := some 1 }]

/-- With its keys swapped, the instance of `l` fails `lyv_keys`, which finds `k1` at the second
child, and `lyv_data_content` fails with that error. -/
theorem lyvKeys_iff_keys_first_swapped :
    ∃ e, lyvKeys keysSchema swappedKeysHeap 0 = .ok (some e) ∧
      (lyvDataContent keysSchema quietEnv {} 0).run { heap := swappedKeysHeap } =
        .ok (.fail e, { heap := swappedKeysHeap }) :=
  let ⟨e, he, hc⟩ := (@lyvKeys_iff_keys_first keysSchema { heap := swappedKeysHeap } 0 _ [1, 2]
    rfl (by decide)).2 fun ⟨_, h⟩ => absurd (h 0 (by decide) (by decide)) (by decide)
  ⟨e, he, hc quietEnv {} rfl rfl rfl rfl rfl⟩

example : lyvKeys keysSchema swappedKeysHeap 0 = .ok (some (.keyMisplaced "k1" "l" 2)) := by
  decide

/-! ## The first sibling -/

/-- The walk to the first sibling of a node of a ring reaches the ring's first node, through the
parent or along `prev`. -/
theorem firstSiblingOf_ring {st : VState} {par : Option Ptr} {L : List Ptr} {p : Ptr}
    {n : LydNode} (hr : Ring st.heap par L) (hp : p ∈ L) (hn : st.heap.read? p = some n) :
    (firstSiblingOf p n).run st = .ok (L.head?, st) := by
  unfold firstSiblingOf
  rw [hr.parent_eq p hp n hn]
  cases par with
  | some q =>
    obtain ⟨nq, hq, hc⟩ := hr.child_eq q rfl
    simp [StateT.run_bind, getNode_run, hq, hc]
  | none =>
    obtain ⟨k, hk, rfl⟩ := List.getElem_of_mem hp
    have hfirst := hr.linked.firstSibling_getElem k hk st.heap.length
    rw [if_pos (by have := hr.length_le; omega)] at hfirst
    simp [readHeap, StateT.run_map, StateT.run_bind, hfirst, List.head?_eq_getElem?]

/-- **The walk to the first sibling.** From node `k` of a well-formed sibling list (linked in
order, the first node's `prev` pointing at the last, whose `next` is NULL), the loop
`for (start = node; start->prev->next; start = start->prev)` takes exactly `k` steps and stops
at the first node. When the list is the children of `par`, the node's parent has that same node as
its first child, so the two ways `lyv_data_content` computes `start` agree; and the scan
`LY_TREE_FOR(start, diter)` visits every sibling. -/
theorem firstSibling_steps {st : VState} {L : List Ptr} (hl : Linked st.heap (L.getLastD 0) L)
    (k : Nat) (hk : k < L.length) :
    (∀ f, firstSibling st.heap f L[k] = if k < f then .ok L[0] else .error .diverge) ∧
      ∀ par, Ring st.heap par L → ∀ n, st.heap.read? L[k] = some n →
        (∀ q, n.parent = some q → ∃ nq, st.heap.read? q = some nq ∧ nq.child = some L[0]) ∧
        (firstSiblingOf L[k] n).run st = .ok (some L[0], st) ∧
        (treeFor (some L[0])).run st = .ok (records st.heap L, st) := by
  have hhead : L.head? = some L[0] := List.head?_eq_getElem? L ▸ List.getElem?_eq_getElem _
  refine ⟨hl.firstSibling_getElem k hk, fun par hr n hn => ⟨fun q hq => ?_, ?_, ?_⟩⟩
  · rw [hr.parent_eq _ (List.getElem_mem hk) n hn] at hq
    rw [← hhead]
    exact hr.child_eq q hq
  · rw [← hhead]
    exact firstSiblingOf_ring hr (List.getElem_mem hk) hn
  · simp [treeFor, ← hhead, hr.siblings_head]

/-- The walk from the second child of `l` takes one step back to the first child, which is
`l`'s first child; with one unit of fuel it runs out. The scan from there visits both children. -/
theorem firstSibling_steps_keys :
    firstSibling swappedKeysHeap 2 2 = .ok 1 ∧ firstSibling swappedKeysHeap 1 2 = .error .diverge ∧
      (treeFor (some 1)).run { heap := swappedKeysHeap } =
        .ok (records swappedKeysHeap [1, 2], { heap := swappedKeysHeap }) :=
  let h := @firstSibling_steps { heap := swappedKeysHeap } [1, 2] (by decide) 1 (by decide)
  ⟨h.1 2, h.1 1, (h.2 (some 0) (by decide) _ rfl).2.2⟩

end YangValidation
