import YangValidation.Uniqueness
import YangValidation.Choice

/-!
# Valid sibling lists after a pass

A parser validates a tree by calling `lyv_data_context` and `lyv_data_content` on its nodes in
whatever order it meets them, clearing the `validity` of each node that passes. Two checks of
`lyv_data_content` compare a node with its siblings: the choice check, against every sibling, and
the uniqueness check, against the siblings already validated. Neither compares a pair twice, and
the uniqueness check compares a pair only when the second of the two is validated; so what they
establish together is a property of whole passes.

Outside filter, get and get-config data, over any pass of both kinds of call on the nodes of one
sibling list that covers every node still to be validated, if every call succeeds then at the end
no two siblings are in conflict: they do not clash (`clash`), and they have a `caseClash` at no
choice, the rule the choice check enforces (`validationPass_compatible`). The calls of
`lyv_data_context` do not disturb this: they only clear flag bits of values (`ClearsUnres`).
-/

namespace YangValidation

variable (s : Schema)

/-- The node a call of a pass is about. -/
def VCall.node : VCall → Ptr
  | .context p | .content p => p

/-- The nodes of `L` instantiate schema nodes of `s`, none of them a case. -/
def DataNodes (h : Heap) (L : List Ptr) : Prop :=
  ∀ c ∈ records h L, c.2.schema < s.nodes.length ∧ s.kind c.2.schema ≠ .case

instance (h : Heap) (L : List Ptr) : Decidable (DataNodes s h L) :=
  inferInstanceAs (Decidable (∀ c ∈ records h L, c.2.schema < s.nodes.length ∧ s.kind c.2.schema ≠ .case))

/-- Siblings `p` and `q` may stand side by side: they do not clash, and they have a `caseClash` at
no choice, that is no choice reached from both schemas through choices and cases only holds them
outside one explicit case. -/
def Compatible (h : Heap) (p q : Ptr) : Prop :=
  clash s h p q = false ∧
    ∀ np ∈ h.read? p, ∀ nq ∈ h.read? q, ∀ c, ¬caseClash s c np.schema nq.schema

/-- No two validated nodes of `L` have a `caseClash` at a choice. -/
def ValidatedCaseFree (h : Heap) (L : List Ptr) : Prop :=
  ∀ p ∈ L, ∀ q ∈ L, p ≠ q → validated h p → validated h q →
    ∀ np ∈ h.read? p, ∀ nq ∈ h.read? q, ∀ c, ¬caseClash s c np.schema nq.schema

variable {s}

/-! ## Frames -/

theorem ClearsFlags.dataNodes {h h' : Heap} (hc : ClearsFlags h h') {L : List Ptr}
    (hd : DataNodes s h L) : DataNodes s h' L := fun c hc' => by
  obtain ⟨hcL, hcr⟩ := mem_records.mp hc'
  obtain ⟨n, hn, he⟩ := hc.read_some_back hcr
  rw [(LydNode.fields_of_unflagged he).1]
  exact hd (c.1, n) (mem_records.mpr ⟨hcL, hn⟩)

/-- Under a frame that keeps the validated nodes, the validated nodes stay free of case
conflicts. -/
theorem ValidatedCaseFree.of_clears {h h' : Heap} {L : List Ptr} (hu : ValidatedCaseFree s h L)
    (hc : ClearsFlags h h') (hv : ∀ q, validated h' q → validated h q) :
    ValidatedCaseFree s h' L := fun p hp q hq hpq hvp hvq np' hnp' nq' hnq' c => by
  obtain ⟨np, hnp, hep⟩ := hc.read_some_back hnp'
  obtain ⟨nq, hnq, heq⟩ := hc.read_some_back hnq'
  rw [(LydNode.fields_of_unflagged hep).1, (LydNode.fields_of_unflagged heq).1]
  exact hu p hp q hq hpq (hv p hvp) (hv q hvq) np hnp nq hnq c

/-! ## A content call -/

section Content

variable {env : Env} {options : LydOptions} {st : VState} {par : Option Ptr} {L : List Ptr}

/-- Outside filter mode, the checks of a node of `L` with `validity` set pass only when the choice
check found no sibling in conflict. -/
theorem validityChecks_caseFree {node : Ptr} {n : LydNode} (hf : options.filter = false)
    (hcase : s.CasesInChoices) (hr : Ring st.heap par L) (hd : DataNodes s st.heap L)
    (hnode : node ∈ L) (hn : st.heap.read? node = some n) (hv : n.validity = true) :
    Reads st (fun r => r = .ok () → ∀ c, ¬ConflictAt s node (records st.heap L) n.schema c)
      (validityChecks s env options node n) := by
  have hx := hd (node, n) (mem_records.mpr ⟨hnode, hn⟩)
  simp only [validityChecks, hf, hv, Bool.not_false, if_true, pure_bind]
  refine (reads_keysCheck s options node n.schema).bind (fun _ _ => ?_) fun _ _ h => by cases h
  refine (reads_mandatoryCheck s env options node n.schema).bind (fun _ _ => ?_)
    fun _ _ h => by cases h
  refine .lift_bind fun start st' hfs => ?_
  rw [monadLift_self, firstSiblingOf_ring hr hnode hn] at hfs
  cases hfs
  obtain ⟨r, hrun, hiff, -⟩ := @choiceCheck_run s hcase st node _ _ hr.siblings_head
    (fun c hc => (hd c hc).2) _ n.schema hx.1 hx.2
  have hchoice : Reads st (fun r => r = .ok () → ∀ c, ¬ConflictAt s node (records st.heap L)
      n.schema c) (choiceCheck s node L.head? s.nodes.length n.schema) := fun r' st'' h => by
    rw [hrun] at h
    cases h
    exact ⟨rfl, hiff.mp⟩
  refine ⟨rfl, hchoice.bind (fun _ hP => ?_) fun _ _ h => by cases h⟩
  -- the rest of the checks cannot undo what the choice check found
  exact (uniqueCheck_spec s hf hn).bind (fun _ _ => (reads_statusCheck s env options n).mono
    fun _ _ _ => hP rfl) fun _ _ _ => hP rfl

/-- A node of `L` that passes outside filter mode is in conflict with no sibling, so clearing its
`validity` keeps the validated siblings free of case conflicts. -/
theorem contentStep_caseFree {p : Ptr} {st' : VState} (hf : options.filter = false)
    (hcase : s.CasesInChoices) (hr : Ring st.heap par L) (hd : DataNodes s st.heap L) (hp : p ∈ L)
    (hu : ValidatedCaseFree s st.heap L)
    (h : (contentStep s env options p).run st = .ok (.ok, st')) : ValidatedCaseFree s st'.heap L := by
  obtain ⟨n, hn, x, hx, hres⟩ := contentStep_inv s hf h
  cases x with
  | error v => obtain ⟨⟨e, rfl⟩, he, -⟩ := hres; cases he
  | ok =>
    obtain ⟨-, hheap, -⟩ := hres
    have hread : ∀ q, q ≠ p → st'.heap.read? q = st.heap.read? q := fun q hq => by
      rw [hheap, Heap.read?_write_ne _ _ hq]
    have hother : ∀ q, q ≠ p → validated st'.heap q = validated st.heap q := fun q hq => by
      simp [validated, hread q hq]
    have hpr : st'.heap.read? p = some { n with validity := false } := by
      rw [hheap, Heap.read?_write_self hn]
    -- the pairs with `p`: `p` was validated before, or its choice check compared it with all
    have hwith : ∀ q ∈ L, q ≠ p → validated st.heap q → ∀ nq, st.heap.read? q = some nq →
        ∀ c, ¬caseClash s c n.schema nq.schema := fun q hq hqp hvq nq hnq c => by
      cases hv : n.validity
      · exact hu p hp q hq (Ne.symm hqp) (validated_iff.mpr ⟨n, hn, hv⟩) hvq n hn nq hnq c
      · have hok := (validityChecks_caseFree hf hcase hr hd hp hn hv _ _ hx).2 rfl c
        exact fun hcl => hok ⟨(q, nq), mem_records.mpr ⟨hq, hnq⟩, hqp, hcl⟩
    intro a ha b hb hab hva hvb na hna nb hnb c
    by_cases hap : a = p
    · subst hap
      rw [hpr] at hna; cases hna
      rw [hread b (Ne.symm hab)] at hnb
      exact hwith b hb (Ne.symm hab) (by rwa [← hother b (Ne.symm hab)]) nb hnb c
    · rw [hread a hap] at hna
      by_cases hbp : b = p
      · subst hbp
        rw [hpr] at hnb; cases hnb
        exact fun hcl => hwith a ha hap (by rwa [← hother a hap]) na hna c (caseClash_comm.mp hcl)
      · rw [hread b hbp] at hnb
        exact hu a ha b hb hab (by rwa [← hother a hap]) (by rwa [← hother b hbp]) na hna nb hnb c

end Content

/-! ## Passes -/

section Pass

variable {env : Env} {options : LydOptions} {par : Option Ptr} {L : List Ptr}

/-- Over a pass whose calls all succeed, the sibling list keeps its shape, the validated nodes
stay free of clashes and case conflicts, every node of a content call gets validated, and no node
gets back to be validated. -/
theorem validationPass_inv (hf : options.filter = false)
    (hg : (options.get || options.getconfig) = false) (hcase : s.CasesInChoices) :
    ∀ (calls : List VCall) {st : VState} {rs : List VResult} {st' : VState},
      Ring st.heap par L → DataNodes s st.heap L → ValidatedUnique s st.heap L →
      ValidatedCaseFree s st.heap L → (∀ c ∈ calls, c.node ∈ L) →
      (validationPass s env options calls).run st = .ok (rs, st') → (∀ r ∈ rs, r = .ok) →
      Ring st'.heap par L ∧ ValidatedUnique s st'.heap L ∧ ValidatedCaseFree s st'.heap L ∧
        (∀ p, .content p ∈ calls → validated st'.heap p) ∧
        ∀ q, validated st.heap q → validated st'.heap q
  | [], _, _, _, hr, _, hu, hc, _, h, _ => by
    cases h; exact ⟨hr, hu, hc, by simp, fun _ => id⟩
  | call :: calls, st, _, _, hr, hd, hu, hc, hcalls, h, hok => by
    obtain ⟨r, st₁, h₁, hrest⟩ := run_bind_ok h
    obtain ⟨rs, st₂, h₂, h₃⟩ := run_bind_ok hrest
    cases h₃
    obtain rfl : r = .ok := hok r (List.mem_cons_self _ _)
    -- one call: the invariant after it, and the node it validates
    have hstep : Ring st₁.heap par L ∧ DataNodes s st₁.heap L ∧ ValidatedUnique s st₁.heap L ∧
        ValidatedCaseFree s st₁.heap L ∧ (∀ p, call = .content p → validated st₁.heap p) ∧
        ∀ q, validated st.heap q → validated st₁.heap q := by
      cases call with
      | context p =>
        have hcu := lyvDataContext_clearsUnres h₁
        refine ⟨hcu.clears.ring hr, hcu.clears.dataNodes hd, fun a ha b hb hab hva hvb => ?_,
          hc.of_clears hcu.clears fun q => (hcu.validated_eq q).le, fun _ h => (by cases h),
          fun q => (hcu.validated_eq q).ge⟩
        rw [hcu.clears.clash]
        exact hu a ha b hb hab (by rwa [← hcu.validated_eq]) (by rwa [← hcu.validated_eq])
      | content p =>
        have hpL : p ∈ L := hcalls _ (List.mem_cons_self _ _)
        have hcf := contentStep_clearsFlags hf h₁
        obtain ⟨hvp, hu₁⟩ := contentStep_unique s hf hg hr hpL hu h₁
        exact ⟨hcf.ring hr, hcf.dataNodes hd, hu₁, contentStep_caseFree hf hcase hr hd hpL hc h₁,
          fun _ h => by cases h; exact hvp, fun q => hcf.validated⟩
    obtain ⟨hr₁, hd₁, hu₁, hc₁, hval₁, hmono₁⟩ := hstep
    obtain ⟨hr₂, hu₂, hc₂, hval₂, hmono₂⟩ := validationPass_inv hf hg hcase calls hr₁ hd₁ hu₁ hc₁
      (fun c hc => hcalls c (List.mem_cons_of_mem _ hc)) h₂ fun r hr => hok r (List.mem_cons_of_mem _ hr)
    refine ⟨hr₂, hu₂, hc₂, fun p hp => ?_, fun q hq => hmono₂ q (hmono₁ q hq)⟩
    rcases List.mem_cons.mp hp with hp | hp
    · exact hmono₂ p (hval₁ p hp.symm)
    · exact hval₂ p hp

/-- **Valid siblings after a pass.** Outside filter, get and get-config data, in a schema whose
cases sit in choices, let a parser call `lyv_data_context` and `lyv_data_content` on the nodes of
one sibling list `L`, whose nodes instantiate schema nodes that are not cases, in any order and
covering with a content call every node still to be validated, clearing the `validity` of each
node that passes. If every call succeeds and the validated siblings were compatible at the start,
then at the end `L` is still the sibling list and any two of its nodes are compatible: they do not
clash, and no choice reached from both schemas through choices and cases only holds them outside
one explicit case. -/
theorem validationPass_compatible (hf : options.filter = false) (hg : options.get = false)
    (hgc : options.getconfig = false) (hcase : s.CasesInChoices) {calls : List VCall}
    {st : VState} {rs : List VResult} {st' : VState} (hr : Ring st.heap par L)
    (hd : DataNodes s st.heap L) (hcalls : ∀ c ∈ calls, c.node ∈ L)
    (hrun : (validationPass s env options calls).run st = .ok (rs, st')) :
    (∀ p ∈ L, ∀ q ∈ L, p ≠ q → validated st.heap p → validated st.heap q →
        Compatible s st.heap p q) →
      (∀ p ∈ L, validated st.heap p = false → .content p ∈ calls) → (∀ r ∈ rs, r = .ok) →
      Ring st'.heap par L ∧ ∀ p ∈ L, ∀ q ∈ L, p ≠ q → Compatible s st'.heap p q := by
  intro hcomp hcover hok
  obtain ⟨hr', hu', hc', hval, hmono⟩ := validationPass_inv hf (by simp [hg, hgc]) hcase calls hr hd
    (fun p hp q hq hpq hvp hvq => (hcomp p hp q hq hpq hvp hvq).1)
    (fun p hp q hq hpq hvp hvq => (hcomp p hp q hq hpq hvp hvq).2) hcalls hrun hok
  have hdone : ∀ p ∈ L, validated st'.heap p = true := fun p hp => by
    cases hv : validated st.heap p
    · exact hval p (hcover p hp hv)
    · exact hmono p hv
  exact ⟨hr', fun p hp q hq hpq => ⟨hu' p hp q hq hpq (hdone p hp) (hdone q hq),
    hc' p hp q hq hpq (hdone p hp) (hdone q hq)⟩⟩

end Pass

/-- Two entries `l2[k2=1]` (0) and `l2[k2=2]` (2) of the list in case `cs` of `choiceSchema`, each
checked by `lyv_data_context` and then `lyv_data_content`: every call succeeds, and the two are
compatible at the end. -/
theorem validationPass_compatible_case :
    ∃ rs st', (validationPass choiceSchema quietEnv {}
        [.context 0, .content 0, .context 2, .content 2]).run { heap := twoInstancesHeap 4 5 } =
        .ok (rs, st') ∧ rs = [.ok, .ok, .ok, .ok] ∧
      Ring st'.heap none [0, 2] ∧ ∀ p ∈ [0, 2], ∀ q ∈ [0, 2], p ≠ q →
        Compatible choiceSchema st'.heap p q :=
  ⟨_, _, rfl, rfl, @validationPass_compatible choiceSchema quietEnv {} none [0, 2] rfl rfl rfl
    (by decide) [.context 0, .content 0, .context 2, .content 2] { heap := twoInstancesHeap 4 5 } _ _
    (by decide) (by decide) (by decide) rfl
    (fun p hp _ _ _ hvp _ => absurd hvp (by simp at hp; rcases hp with rfl | rfl <;> decide))
    (by decide) (by decide)⟩

end YangValidation
