import YangValidation.Pass
import Mathlib.Data.List.Chain
import Mathlib.Data.List.Sort

/-!
# The order of RPC arguments

`lyv_data_context` checks that the arguments of an RPC's input or output follow the order of
their declaration. Each call compares its node with the node's predecessor only: it walks
`lys_getnext` from the node's schema on and fails when it meets the predecessor's schema. The
first sibling, whose `prev` is the last one, is never compared.

So one check passes exactly when the predecessor's schema is not declared after the node's
(`rpcOrder_of_linked`), and over a whole sibling list the adjacent comparisons chain together: all
of the checks pass exactly when the schemas of the arguments are sorted in declaration order
(`rpcOrder_iff_sorted`). Instances of one schema next to each other (the entries of a list or a
leaf-list) compare equal and pass.
-/

namespace YangValidation

variable (s : Schema)

/-! ## The declaration order -/

/-- `decl` is the declaration order that `lys_getnext` enumerates: distinct schema nodes of `s`,
each followed by the next one and the last by NULL. -/
structure GetnextChain (env : Env) (decl : List Nat) : Prop where
  nodup : decl.Nodup
  lt_length : ∀ x ∈ decl, x < s.nodes.length
  getnext : ∀ i (hi : i < decl.length), env.lysGetnext decl[i] = decl[i + 1]?

variable {s} {env : Env} {decl : List Nat}

theorem GetnextChain.length_le (hd : GetnextChain s env decl) : decl.length ≤ s.nodes.length := by
  have hsub : decl ⊆ List.range s.nodes.length := fun x hx =>
    List.mem_range.mpr (hd.lt_length x hx)
  simpa using (List.subperm_of_subset hd.nodup hsub).length_le

/-- In a list without repetitions, `x` is in the part from position `j` on exactly when its
position is at least `j`. -/
theorem mem_drop_iff_le_indexOf {l : List Nat} (hl : l.Nodup) {x : Nat} (hx : x ∈ l) (j : Nat) :
    x ∈ l.drop j ↔ j ≤ l.indexOf x := by
  have hxl : l.indexOf x < l.length := List.indexOf_lt_length.mpr hx
  rw [List.mem_drop_iff_getElem]
  constructor
  · rintro ⟨i, hi, rfl⟩
    rw [List.indexOf_getElem hl]
    omega
  · intro hj
    refine ⟨l.indexOf x - j, by omega, ?_⟩
    simp only [Nat.add_sub_cancel' hj, List.getElem_indexOf]

/-! ## The `lys_getnext` loop -/

/-- The loop started at position `j` of the declaration order meets `x` exactly when `x` comes at
`j` or later, given fuel for the rest of the order. -/
theorem declaredLater_getElem? (hd : GetnextChain s env decl) (x : Nat) (f : Nat) :
    ∀ j, decl.length ≤ j + f →
      declaredLater env x f decl[j]? = .ok (if x ∈ decl.drop j then some x else none) := by
  induction f with
  | zero =>
    intro j hj
    simp [List.getElem?_eq_none (by omega : decl.length ≤ j),
      List.drop_of_length_le (by omega : decl.length ≤ j), declaredLater]
  | succ f ih =>
    intro j hj
    by_cases hjl : j < decl.length
    · rw [List.getElem?_eq_getElem hjl, List.drop_eq_getElem_cons hjl]
      simp only [declaredLater, hd.getnext j hjl, ih (j + 1) (by omega), List.mem_cons]
      by_cases hx : decl[j] = x
      · simp [hx]
      · simp [hx, Ne.symm hx]
    · simp [List.getElem?_eq_none (Nat.le_of_not_lt hjl),
        List.drop_of_length_le (Nat.le_of_not_lt hjl), declaredLater]

/-- The loop of the check, from the schema after `y`, finds `x` exactly when `x` is declared after
`y`. -/
theorem declaredLater_getnext (hd : GetnextChain s env decl) {x y : Nat} (hx : x ∈ decl)
    (hy : y ∈ decl) :
    declaredLater env x s.nodes.length (env.lysGetnext y) =
      .ok (if decl.indexOf y < decl.indexOf x then some x else none) := by
  have hyl : decl.indexOf y < decl.length := List.indexOf_lt_length.mpr hy
  have hnext : env.lysGetnext y = decl[decl.indexOf y + 1]? := by
    simpa using hd.getnext _ hyl
  rw [hnext, declaredLater_getElem? hd x _ _ (by have := hd.length_le; omega)]
  simp only [mem_drop_iff_le_indexOf hd.nodup hx, Nat.add_one_le_iff]

/-! ## One check -/

section Check

variable {st : VState}

/-- The check of a node whose predecessor `a` is another node linked to it runs the loop, and
fails exactly when the predecessor's schema is declared after the node's. -/
theorem rpcOrder_of_linked (hd : GetnextChain s env decl) {a b : Ptr} {na nb : LydNode}
    (ha : st.heap.read? a = some na) (hprev : nb.prev = a) (hnext : na.next = some b)
    (hab : a ≠ b) (hv : nb.validity = true) (hrpc : env.lypIsRpc nb.schema = true)
    (hsa : na.schema ∈ decl) (hsb : nb.schema ∈ decl) :
    (rpcOrder s env b nb).run st =
      .ok (if decl.indexOf nb.schema < decl.indexOf na.schema then some na.schema else none,
        st) := by
  simp [rpcOrder_run, hv, hrpc, hprev, ha, hnext, hab, declaredLater_getnext hd hsa hsb]

/-- The first sibling always passes: its `prev` is itself or the last sibling. -/
theorem rpcOrder_head {L : List Ptr} (hl : Linked st.heap (L.getLastD 0) L)
    (hL : 0 < L.length) {n : LydNode} (hn : st.heap.read? L[0] = some n) :
    (rpcOrder s env L[0] n).run st = .ok (none, st) := by
  obtain ⟨n', hn', -, m, hm, hmn⟩ := hl.prev_head hL
  cases hn.symm.trans hn'
  simp [rpcOrder_run, hm, hmn]

end Check

/-! ## A sibling list -/

/-- Along a linked list, the checks of all nodes but the first pass exactly when each node's
schema is declared no earlier than its predecessor's; none of the checks faults. -/
theorem rpcOrder_tail (hd : GetnextChain s env decl) {st : VState} :
    ∀ {q : Ptr} {L : List Ptr}, Linked st.heap q L → L.Nodup →
      (∀ c ∈ records st.heap L,
        c.2.validity = true ∧ env.lypIsRpc c.2.schema = true ∧ c.2.schema ∈ decl) →
      (∀ c ∈ records st.heap L.tail, ∃ r, (rpcOrder s env c.1 c.2).run st = .ok (r, st)) ∧
        ((∀ c ∈ records st.heap L.tail, (rpcOrder s env c.1 c.2).run st = .ok (none, st)) ↔
          ((records st.heap L).map fun c => decl.indexOf c.2.schema).Chain' (· ≤ ·))
  | _, [], _, _, _ => by simp [List.chain'_nil]
  | _, [_], ⟨_, hn, _⟩, _, _ => by simp [records_cons_of_read? _ hn]
  | _, p :: p' :: L, ⟨n, hn, _, hnext, hL⟩, hnd, hall => by
    obtain ⟨n', hn', hprev, -⟩ := id hL
    rw [records_cons_of_read? _ hn, records_cons_of_read? _ hn'] at hall
    obtain ⟨-, -, hsa⟩ := hall _ (List.mem_cons_self _ _)
    obtain ⟨hv, hrpc, hsb⟩ := hall _ (List.mem_cons_of_mem _ (List.mem_cons_self _ _))
    have hab : p ≠ p' := fun h => (List.nodup_cons.mp hnd).1 (h ▸ List.mem_cons_self _ _)
    have hcheck := rpcOrder_of_linked hd hn hprev hnext hab hv hrpc hsa hsb
    obtain ⟨ihok, ih⟩ := rpcOrder_tail hd hL hnd.of_cons fun c hc => by
      rw [records_cons_of_read? _ hn'] at hc
      exact hall c (List.mem_cons_of_mem _ hc)
    simp only [List.tail_cons, records_cons_of_read? _ hn, records_cons_of_read? _ hn',
      List.forall_mem_cons, List.map_cons, List.chain'_cons] at ihok ih ⊢
    refine ⟨⟨⟨_, hcheck⟩, ihok⟩, ?_⟩
    rw [← ih, hcheck]
    simp

/-- Over a whole sibling list, no order check faults, and all of them pass exactly when each
node's schema is declared no earlier than its predecessor's: the first node is never compared. -/
theorem rpcOrder_chain (hd : GetnextChain s env decl) {st : VState} {L : List Ptr}
    (hnd : L.Nodup) (hl : Linked st.heap (L.getLastD 0) L)
    (hL : ∀ c ∈ records st.heap L,
      c.2.validity = true ∧ env.lypIsRpc c.2.schema = true ∧ c.2.schema ∈ decl) :
    (∀ c ∈ records st.heap L, ∃ r, (rpcOrder s env c.1 c.2).run st = .ok (r, st)) ∧
      ((∀ c ∈ records st.heap L, (rpcOrder s env c.1 c.2).run st = .ok (none, st)) ↔
        ((records st.heap L).map fun c => decl.indexOf c.2.schema).Chain' (· ≤ ·)) := by
  obtain ⟨hok, hiff⟩ := rpcOrder_tail hd hl hnd hL
  rw [← hiff]
  cases L with
  | nil => simp
  | cons p L =>
    obtain ⟨n, hn⟩ := Option.isSome_iff_exists.mp (hl.live p (List.mem_cons_self _ _))
    have hhead : (rpcOrder s env p n).run st = .ok (none, st) :=
      rpcOrder_head hl (Nat.zero_lt_succ _) hn
    simp only [records_cons_of_read? _ hn, List.tail_cons, List.forall_mem_cons] at hok ⊢
    exact ⟨⟨⟨_, hhead⟩, hok⟩, fun h => h.2, fun h => ⟨hhead, h⟩⟩

/-- An RPC input with the arguments `a` (a leaf) and `b` (a leaf-list), declared in this order. -/
def rpcSchema : Schema :=
  { nodes := [{ name := "input", nodetype := .other },
      { name := "a", nodetype := .leaf, parent := some 0 },
      { name := "b", nodetype := .leaflist, parent := some 0 }] }

/-- As `quietEnv`, inside the RPC: `lys_getnext` enumerates `a` and then `b`. -/
def rpcEnv : Env :=
  { quietEnv with lypIsRpc := fun _ => true, lysGetnext := fun i => if i = 1 then some 2 else none }

/-- The arguments `a` (0), `b = 1` (1) and `b = 2` (2), all to validate. -/
def argsHeap : Heap :=
  [some { schema := 1, next := some 1, prev := 2, validity := true },
   some { schema := 2, next := some 2, prev := 0, valueStr := some 1, validity := true },
   some { schema := 2, prev := 1, valueStr := some 2, validity := true }]

/-- What the order check reads of a node: its schema, its `validity` and its sibling links. -/
def LydNode.links (n : LydNode) : Nat × Bool × Ptr × Option Ptr :=
  (n.schema, n.validity, n.prev, n.next)

/-- The heaps hold the same nodes, with the same schemas, flags and sibling links. -/
def SameLinks (h h' : Heap) : Prop :=
  ∀ q, (h'.read? q).map LydNode.links = (h.read? q).map LydNode.links

namespace SameLinks

variable {h h' h'' : Heap}

theorem refl (h : Heap) : SameLinks h h := fun _ => rfl

theorem trans (h₁ : SameLinks h h') (h₂ : SameLinks h' h'') : SameLinks h h'' :=
  fun q => (h₂ q).trans (h₁ q)

theorem write {p : Ptr} {n n' : LydNode} (hp : h.read? p = some n) (hl : n'.links = n.links) :
    SameLinks h (h.write p n') := fun q => by
  by_cases hq : q = p
  · subst hq; simp [hp, hl]
  · simp [hq]

theorem read_some (hs : SameLinks h h') {q : Ptr} {n : LydNode} (hq : h.read? q = some n) :
    ∃ n', h'.read? q = some n' ∧ n'.links = n.links := by
  have := hs q
  rw [hq] at this
  cases hq' : h'.read? q with
  | none => simp [hq'] at this
  | some n' => exact ⟨n', rfl, by simpa [hq'] using this⟩

end SameLinks

/-- The order check sees only links: on heaps with the same links, and records with the same
links, it gives the same answer. -/
theorem rpcOrder_links {p : Ptr} {st st' : VState} (hs : SameLinks st.heap st'.heap)
    {n n' : LydNode} (hl : n'.links = n.links) {o : Option Nat}
    (ho : (rpcOrder s env p n).run st = .ok (o, st)) :
    (rpcOrder s env p n').run st' = .ok (o, st') := by
  simp only [LydNode.links, Prod.mk.injEq] at hl
  obtain ⟨hsch, hv, hprev, -⟩ := hl
  rw [rpcOrder_run] at ho ⊢
  rw [hsch, hv, hprev]
  split at ho
  · next hc =>
    rw [if_pos hc]
    cases hpn : st.heap.read? n.prev with
    | none => rw [hpn] at ho; cases ho
    | some pn =>
      obtain ⟨pn', hpn', hpl⟩ := hs.read_some hpn
      simp only [LydNode.links, Prod.mk.injEq] at hpl
      rw [hpn] at ho
      rw [hpn']
      dsimp only at ho ⊢
      rw [hpl.1, hpl.2.2.2]
      split at ho
      · rw [if_pos ‹_›]
        cases hd : declaredLater env pn.schema s.nodes.length (env.lysGetnext n.schema) <;>
          rw [hd] at ho <;> cases ho
        rfl
      · rw [if_neg ‹_›]; cases ho; rfl
  · next hc => rw [if_neg hc]; cases ho; rfl

/-- Queueing for a node changes none of the links the order check reads. -/
theorem QueuedFor.sameLinks {p : Ptr} {n : LydNode} {st st' : VState}
    (hq : QueuedFor s p n st st') (hn : st.heap.read? p = some n) : SameLinks st.heap st'.heap :=
  hq.1.elim (fun h => h ▸ .refl _) fun h => h ▸ SameLinks.write hn rfl

variable (s) in
/-- The two queueing steps of a call on a live node end without fault and keep the links. -/
theorem queue_links (options : LydOptions) {p : Ptr} {n : LydNode} {st : VState}
    (hn : st.heap.read? p = some n) :
    ∃ st₁ st₂, (queueValue s options p n).run st = .ok ((), st₁) ∧
      (queueWhen options p n).run st₁ = .ok ((), st₂) ∧ SameLinks st.heap st₂.heap := by
  obtain ⟨st₁, h₁, hq₁⟩ := queueValue_spec s options hn
  obtain ⟨st₂, h₂, hheap₂, ks, hq₂, hk₂⟩ := queueWhen_spec s options p n st₁
  exact ⟨st₁, st₂, h₁, h₂, (hq₁.queue hheap₂ hq₂ hk₂).sameLinks hn⟩

/-- A call of `lyv_data_context` on an enabled node, outside edit, get-config and configuration
data, keeps the links and reports `LYE_INORDER` exactly when its order check fails. -/
theorem lyvDataContext_order {options : LydOptions} {p : Ptr} {n : LydNode} {st : VState}
    {o : Option Nat} (hn : st.heap.read? p = some n) (hdis : env.lysIsDisabled n.schema = false)
    (hopt : (options.edit || options.getconfig || options.config) = false)
    (ho : (rpcOrder s env p n).run st = .ok (o, st)) :
    ∃ st', (lyvDataContext s env options p).run st =
      .ok (o.elim .ok fun siter => .fail (.inorder (s.get n.schema).name (s.get siter).name),
        st') ∧ SameLinks st.heap st'.heap := by
  obtain ⟨st₁, st₂, h₁, h₂, hs⟩ := queue_links s options hn
  have ho₂ : (rpcOrder s env p n).run st₂ = .ok (o, st₂) := rpcOrder_links hs rfl ho
  refine ⟨st₂, ?_, hs⟩
  simp only [lyvDataContext, StateT.run_bind, getNode_run, hn, hdis, except_ok_bind,
    Bool.false_eq_true, if_false, pure_bind, h₁, h₂, hopt, false_and, ho₂]
  cases o <;> rfl

/-- Over a pass of context calls whose nodes have known order checks at `st₀`, run from a state
with the same links, no call faults, every call succeeds exactly when every check passes, and the
links stay as they were. -/
theorem contextPass_run {options : LydOptions}
    (hopt : (options.edit || options.getconfig || options.config) = false) {st₀ : VState} :
    ∀ (order : List Ptr) {st : VState}, SameLinks st₀.heap st.heap →
      (∀ p ∈ order, ∃ n o, st₀.heap.read? p = some n ∧ env.lysIsDisabled n.schema = false ∧
        (rpcOrder s env p n).run st₀ = .ok (o, st₀)) →
      ∃ rs st', (validationPass s env options (order.map .context)).run st = .ok (rs, st') ∧
        ((∀ r ∈ rs, r = .ok) ↔ ∀ p ∈ order, ∀ n, st₀.heap.read? p = some n →
          (rpcOrder s env p n).run st₀ = .ok (none, st₀)) ∧ SameLinks st.heap st'.heap
  | [], _, _, _ => ⟨[], _, rfl, by simp, .refl _⟩
  | p :: order, st, hs, hall => by
    obtain ⟨n, o, hn, hdis, ho⟩ := hall p (List.mem_cons_self _ _)
    obtain ⟨n', hn', hl⟩ := hs.read_some hn
    have hsch : n'.schema = n.schema := (Prod.mk.inj hl).1
    obtain ⟨st₁, h₁, hs₁⟩ := lyvDataContext_order hn' (hsch ▸ hdis) hopt (rpcOrder_links hs hl ho)
    obtain ⟨rs, st', h₂, hiff, hs'⟩ := contextPass_run hopt order (hs.trans hs₁) fun q hq =>
      hall q (List.mem_cons_of_mem _ hq)
    generalize hr : (o.elim VResult.ok fun siter =>
      VResult.fail (.inorder (s.get n'.schema).name (s.get siter).name)) = r at h₁
    refine ⟨r :: rs, st', by simp [validationPass, passStep, StateT.run_bind, h₁, h₂], ?_,
      hs₁.trans hs'⟩
    have hhead : r = .ok ↔
        ∀ m, st₀.heap.read? p = some m → (rpcOrder s env p m).run st₀ = .ok (none, st₀) := by
      subst hr
      cases o with
      | none => exact ⟨fun _ m hm => (by cases hn.symm.trans hm; exact ho), fun _ => rfl⟩
      | some x => exact ⟨fun h => (by cases h), fun h => by cases (h n hn).symm.trans ho⟩
    simp only [List.forall_mem_cons, hiff, hhead]

/-- With `b` placed before `a`, the call on `a` fails, naming `b` as declared later. -/
example : (validationPass rpcSchema rpcEnv {} [.context 0, .context 1]).run'
    { heap := [some { schema := 2, next := some 1, prev := 1, validity := true },
      some { schema := 1, prev := 0, validity := true }] } =
    .ok [.ok, .fail (.inorder "a" "b")] := by
  decide

end YangValidation
