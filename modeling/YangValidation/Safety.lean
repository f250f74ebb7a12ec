import YangValidation.Outcome
import YangValidation.Order

/-!
# Validation outside filter mode never faults

Outside filter mode, a validation pass over the nodes of a well-formed sibling ring ends without
fault, whatever calls it makes and in whatever order: no call reads freed memory, dereferences
NULL or runs a loop past its bound (`validationPass_total`). Well-formed means what the loops of
the two functions walk: the siblings and the children of each form rings, the schema's cases sit
in choices, the node types' typedef chains stay in the schema, `ly_check_mandatory` names schema
nodes with a parent, and the order check of an RPC argument walks a declaration order of
`lys_getnext`.

The pass keeps the tree as it was up to cleared flags (`ClearsFlags`), so each call meets the
shape the pass started from. In filter mode the merge of duplicates reads nodes it has freed
(`filterPass_merge_reads_freed`).
-/

namespace YangValidation

variable {s : Schema}

/-- The `prev` of a node of a ring is a node of the ring. -/
theorem Ring.prev_mem {h : Heap} {par : Option Ptr} {L : List Ptr} (hr : Ring h par L) {p : Ptr}
    (hp : p ∈ L) {n : LydNode} (hn : h.read? p = some n) : n.prev ∈ L := by
  obtain ⟨k, hk, rfl⟩ := List.mem_iff_getElem.mp hp
  cases k with
  | zero =>
    obtain ⟨n₀, hn₀, hprev, -⟩ := hr.linked.prev_head hk
    cases hn.symm.trans hn₀
    exact hprev ▸ List.getElem_mem _
  | succ k =>
    obtain ⟨n₀, hn₀, hprev, -⟩ := hr.linked.getElem (k + 1) hk
    cases hn.symm.trans hn₀
    rw [List.getElem?_cons_succ, List.getElem?_eq_getElem (by omega)] at hprev
    exact Option.some.inj hprev ▸ List.getElem_mem _

/-- From a schema node of a declaration order, the loop of the order check ends without fault. -/
theorem declaredLater_total {env : Env} {decl : List Nat} (hd : GetnextChain s env decl) {y : Nat}
    (hy : y ∈ decl) (x : Nat) :
    ∃ o, declaredLater env x s.nodes.length (env.lysGetnext y) = .ok o := by
  have hyl : decl.indexOf y < decl.length := List.indexOf_lt_length.mpr hy
  have hnext : env.lysGetnext y = decl[decl.indexOf y + 1]? := by
    simpa using hd.getnext _ hyl
  exact ⟨_, hnext ▸ declaredLater_getElem? hd x _ _ (by have := hd.length_le; omega)⟩

/-- A call of `lyv_data_context` on a live node with a live predecessor ends without fault when the
order check of an RPC argument walks a declaration order. -/
theorem lyvDataContext_total {env : Env} (options : LydOptions) {st : VState} {p : Ptr}
    {n : LydNode} (hn : st.heap.read? p = some n) (hprev : (st.heap.read? n.prev).isSome)
    (hrpc : n.validity = true → env.lypIsRpc n.schema = true →
      ∃ decl, GetnextChain s env decl ∧ n.schema ∈ decl) :
    ∃ r st', (lyvDataContext s env options p).run st = .ok (r, st') := by
  obtain ⟨st₁, st₂, h₁, h₂, hs⟩ := queue_links s options hn
  have ho : ∃ o, (rpcOrder s env p n).run st₂ = .ok (o, st₂) := by
    rw [rpcOrder_run]
    split
    · next hc =>
      obtain ⟨pn, hpn⟩ := Option.isSome_iff_exists.mp hprev
      obtain ⟨pn', hpn', -⟩ := hs.read_some hpn
      simp only [hpn']
      split
      · obtain ⟨decl, hd, hx⟩ := hrpc hc.1 hc.2
        obtain ⟨o, ho⟩ := declaredLater_total hd hx pn'.schema
        exact ⟨o, by rw [ho]; rfl⟩
      · exact ⟨none, rfl⟩
    · exact ⟨none, rfl⟩
  obtain ⟨o, ho⟩ := ho
  simp only [lyvDataContext, StateT.run_bind, getNode_run, hn, except_ok_bind]
  split
  · exact ⟨_, _, rfl⟩
  · simp only [pure_bind, StateT.run_bind, h₁, h₂, except_ok_bind]
    split
    · exact ⟨_, _, rfl⟩
    · simp only [pure_bind, StateT.run_bind, ho, except_ok_bind]
      split <;> exact ⟨_, _, rfl⟩

/-! ## Passes -/

section Pass

variable {env : Env} {options : LydOptions} {h₀ : Heap} {par : Option Ptr} {L : List Ptr}
  (hf : options.filter = false) (hcase : s.CasesInChoices) (hr₀ : Ring h₀ par L)
  (hd₀ : DataNodes s h₀ L) (hkids₀ : ∀ p ∈ L, ∃ C, Ring h₀ (some p) C)
  (hmand : ∀ p ∈ L, ∀ si ∈ env.lyCheckMandatory h₀ p, (s.get si).parent ≠ none)
  (hmandFlags : ∀ h h', ClearsFlags h h' → env.lyCheckMandatory h' = env.lyCheckMandatory h)
  (htype : ∀ p ∈ L, ∀ n ∈ h₀.read? p, ∀ t ∈ (s.get n.schema).typeDer,
    t < s.tpdfs.length)
  (hrpc : ∀ p ∈ L, ∀ n ∈ h₀.read? p, env.lypIsRpc n.schema = true →
    ∃ decl, GetnextChain s env decl ∧ n.schema ∈ decl)
include hf hcase hr₀ hd₀ hkids₀ hmand hmandFlags htype hrpc

/-- A call on a node of `L`, from a heap the pass has reached, ends without fault in a heap the
pass reaches. -/
theorem passStep_total {st : VState} (hc : ClearsFlags h₀ st.heap) (c : VCall)
    (hcL : c.node ∈ L) :
    ∃ r st', (passStep s env options c).run st = .ok (r, st') ∧ ClearsFlags h₀ st'.heap := by
  cases c with
  | context p =>
    obtain ⟨n₀, hn₀⟩ := Option.isSome_iff_exists.mp (hr₀.live p hcL)
    obtain ⟨n, hn, he⟩ := hc.read_some hn₀
    have hs := LydNode.fields_of_unflagged he
    -- the order check reads the predecessor, a node of the ring
    obtain ⟨m₀, hm₀⟩ :=
      Option.isSome_iff_exists.mp (hr₀.live _ (hr₀.prev_mem hcL hn₀))
    obtain ⟨m, hm, -⟩ := hc.read_some hm₀
    obtain ⟨r, st', h⟩ := lyvDataContext_total options hn (by simp [hs.2.2.2.1, hm])
      fun _ hr => hs.1 ▸ hrpc p hcL n₀ hn₀ (hs.1 ▸ hr)
    exact ⟨r, st', h, hc.trans (lyvDataContext_clearsUnres h).clears⟩
  | content p =>
    obtain ⟨-, -, r, st', h, -⟩ := contentStep_decides hf hcase hr₀ hd₀ hkids₀ hmand
      hmandFlags htype hc hcL
    exact ⟨r, st', h, hc.trans (contentStep_clearsFlags hf h)⟩

theorem validationPass_total_from : ∀ (calls : List VCall) {st : VState},
    ClearsFlags h₀ st.heap → (∀ c ∈ calls, c.node ∈ L) →
      ∃ rs st', (validationPass s env options calls).run st = .ok (rs, st')
  | [], st, _, _ => ⟨[], st, rfl⟩
  | c :: calls, _, hc, hcalls => by
    obtain ⟨r, st₁, h₁, hc₁⟩ := passStep_total hf hcase hr₀ hd₀ hkids₀ hmand hmandFlags
      htype hrpc hc c (hcalls c (List.mem_cons_self _ _))
    obtain ⟨rs, st', h₂⟩ := validationPass_total_from calls hc₁
      fun c hc => hcalls c (List.mem_cons_of_mem _ hc)
    exact ⟨r :: rs, st', by
      simp only [validationPass, StateT.run_bind, h₁, h₂, except_ok_bind]
      rfl⟩

end Pass

/-- **Validation outside filter mode never faults.** Outside filter mode, in a schema whose cases
sit in choices, take a sibling ring `L` whose nodes instantiate schema nodes that are not cases and
whose children form rings, with `ly_check_mandatory` naming only schema nodes that have a parent
and reading no flag, the types of its leaves deriving from typedefs of the schema, and the schema
of each RPC argument in a declaration order of `lys_getnext`. Then any pass of `lyv_data_context`
and `lyv_data_content` calls on nodes of `L`, in any order, with the caller clearing the
`validity` of each node that passes, ends without fault. -/
theorem validationPass_total {env : Env} {options : LydOptions} {st : VState} {par : Option Ptr}
    {L : List Ptr} (hf : options.filter = false) (hcase : s.CasesInChoices)
    (hr : Ring st.heap par L) (hd : DataNodes s st.heap L)
    (hkids : ∀ p ∈ L, ∃ C, Ring st.heap (some p) C)
    (hmand : ∀ p ∈ L, ∀ si ∈ env.lyCheckMandatory st.heap p, (s.get si).parent ≠ none)
    (hmandFlags : ∀ h h', ClearsFlags h h' → env.lyCheckMandatory h' = env.lyCheckMandatory h)
    (htype : ∀ p ∈ L, ∀ n ∈ st.heap.read? p, ∀ t ∈ (s.get n.schema).typeDer,
      t < s.tpdfs.length)
    (hrpc : ∀ p ∈ L, ∀ n ∈ st.heap.read? p, env.lypIsRpc n.schema = true →
      ∃ decl, GetnextChain s env decl ∧ n.schema ∈ decl)
    {calls : List VCall} (hcalls : ∀ c ∈ calls, c.node ∈ L) :
    ∃ rs st', (validationPass s env options calls).run st = .ok (rs, st') :=
  validationPass_total_from hf hcase hr hd hkids hmand hmandFlags htype hrpc calls (.refl _) hcalls

/-- Context and content calls on the two instances of the shorthand-case list of `choiceSchema`
end without fault. -/
theorem validationPass_total_shorthand :
    ∃ rs st', (validationPass choiceSchema quietEnv {}
        [.context 0, .content 0, .context 2, .content 2]).run { heap := twoInstancesHeap 1 2 } =
      .ok (rs, st') :=
  @validationPass_total choiceSchema quietEnv {} { heap := twoInstancesHeap 1 2 } none [0, 2] rfl
    (by decide) (by decide) (by decide)
    (fun p hp => by
      simp only [List.mem_cons, List.mem_singleton, List.not_mem_nil, or_false] at hp
      rcases hp with rfl | rfl
      · exact ⟨[1], by decide⟩
      · exact ⟨[3], by decide⟩)
    (fun _ _ _ h => nomatch h) (fun _ _ _ => rfl) (by decide) (fun _ _ _ _ h => nomatch h) _
    (by decide)

end YangValidation
