import YangValidation.Frame
import YangValidation.Walks

/-!
# Instance uniqueness over content passes

Outside filter mode a parent holds at most one instance of a container, leaf or anyxml schema
node, and no two equal instances of a list or leaf-list. `lyv_data_content` enforces this one
node at a time, and its list scan skips the siblings whose `validity` is still set, so each pair
of list instances is compared only by whichever of the two is validated second. That the
hand-off works is a property of whole passes: over any order in which the caller validates the
dirty siblings, clearing the `validity` of each node that passes, if every call succeeds then
no two siblings clash at the end (`contentPass_unique`).

A pass changes the tree only in flags (`ClearsFlags`), which neither the sibling ring nor
`lyd_compare` reads; so a clash, once excluded, stays excluded.
-/

namespace YangValidation

variable (s : Schema)

/-! ## One content step -/

/-- A validated sibling of a ring, with its record, as the walk over the ring pairs them. -/
theorem mem_records_of_validated {h : Heap} {L : List Ptr} {q : Ptr} (hq : q ∈ L)
    (hv : validated h q) : ∃ n, (q, n) ∈ records h L ∧ n.validity = false := by
  obtain ⟨n, hn, hv⟩ := validated_iff.mp hv
  exact ⟨n, mem_records.mpr ⟨hq, hn⟩, hv⟩

/-- No two validated nodes of `L` clash. -/
def ValidatedUnique (h : Heap) (L : List Ptr) : Prop :=
  ∀ p ∈ L, ∀ q ∈ L, p ≠ q → validated h p → validated h q → clash s h p q = false

section Step

variable {env : Env} {options : LydOptions} {st : VState} {p : Ptr} {r : VResult} {st' : VState}

/-- **The hand-off.** A node that passes outside filter mode, and outside get and get-config
data, clashes with no validated sibling, so clearing its `validity` keeps the validated siblings
free of clashes. -/
theorem contentStep_unique (hf : options.filter = false)
    (hg : (options.get || options.getconfig) = false) {par : Option Ptr} {L : List Ptr}
    (hr : Ring st.heap par L) (hp : p ∈ L) (hu : ValidatedUnique s st.heap L)
    (h : (contentStep s env options p).run st = .ok (.ok, st')) :
    validated st'.heap p ∧ ValidatedUnique s st'.heap L := by
  have hsame := contentStep_clearsFlags hf h
  obtain ⟨n, hn, x, hx, hres⟩ := contentStep_inv s hf h
  obtain ⟨-, -, hvalid, hU⟩ := validityChecks_spec s hf hn x st hx
  cases x with
  | error v => obtain ⟨⟨e, rfl⟩, he, -⟩ := hres; cases he
  | ok =>
    obtain ⟨-, hheap, -⟩ := hres
    have hother : ∀ q, q ≠ p → validated st'.heap q = validated st.heap q := fun q hq => by
      simp [hheap, validated, hq]
    refine ⟨by simp [hheap, validated, hn], fun a ha b hb hab hva hvb => ?_⟩
    rw [hsame.clash]
    cases hv : n.validity
    · -- the node was validated already: so were all the others
      have hback : ∀ q, validated st'.heap q → validated st.heap q := fun q hq => by
        by_cases hqp : q = p
        · subst hqp; simp [validated, hn, hv]
        · rwa [← hother q hqp]
      exact hu a ha b hb hab (hback a hva) (hback b hvb)
    · -- the uniqueness check compared the node with every validated sibling
      have hok := hU hv L.head? (firstSiblingOf_ring hr hp hn) _ hr.siblings_head hg
      have hcheck : ∀ q ∈ L, q ≠ p → validated st.heap q → clash s st.heap q p = false :=
        fun q hq hqp hvq => by
          obtain ⟨m, hm, hmv⟩ := mem_records_of_validated hq hvq
          exact hok _ hm hqp hmv
      by_cases hap : a = p
      · subst hap
        rw [clash_comm]
        exact hcheck b hb (Ne.symm hab) (by rwa [← hother b (Ne.symm hab)])
      · by_cases hbp : b = p
        · subst hbp
          exact hcheck a ha hab (by rwa [← hother a hap])
        · exact hu a ha b hb hab (by rwa [← hother a hap]) (by rwa [← hother b hbp])

/-- On siblings free of clashes, no call fails with a duplicate error. -/
theorem contentStep_no_duplicate (hf : options.filter = false) {par : Option Ptr}
    {L : List Ptr} (hr : Ring st.heap par L) (hp : p ∈ L)
    (hu : ∀ a ∈ L, ∀ b ∈ L, a ≠ b → clash s st.heap a b = false)
    (h : (contentStep s env options p).run st = .ok (r, st')) :
    ∀ e, r = .fail e → e.isDuplicate = false := by
  obtain ⟨n, hn, x, hx, hres⟩ := contentStep_inv s hf h
  obtain ⟨-, -, hvalid, hU⟩ := validityChecks_spec s hf hn x st hx
  intro e he
  cases x with
  | ok => obtain ⟨rfl, -⟩ := hres; cases he
  | error v =>
    obtain ⟨-, rfl, -⟩ := hres
    cases hv : n.validity
    · cases hvalid hv
    · cases hd : e.isDuplicate
      · rfl
      · obtain ⟨c, hc, hcp, hcl⟩ :=
          hU hv _ (firstSiblingOf_ring hr hp hn) _ hr.siblings_head e he hd
        rw [mem_records] at hc
        simp [hu c.1 hc.1 p hp hcp] at hcl

end Step

/-! ## Passes -/

section Pass

variable {env : Env} {options : LydOptions} {par : Option Ptr} {L : List Ptr}

/-- A pass of successful content calls on nodes of a ring only clears flags, keeps the validated
nodes free of clashes, and validates every node it calls on. -/
theorem contentPass_validatedUnique (hf : options.filter = false)
    (hg : (options.get || options.getconfig) = false) :
    ∀ (order : List Ptr) {st : VState} {rs : List VResult} {st' : VState},
      Ring st.heap par L → ValidatedUnique s st.heap L → (∀ p ∈ order, p ∈ L) →
      (validationPass s env options (order.map .content)).run st = .ok (rs, st') →
      (∀ r ∈ rs, r = .ok) →
      ClearsFlags st.heap st'.heap ∧ ValidatedUnique s st'.heap L ∧
        ∀ p ∈ order, validated st'.heap p
  | [], _, _, _, _, hu, _, h, _ => by cases h; exact ⟨.refl _, hu, by simp⟩
  | p :: order, _, _, _, hr, hu, hord, h, hok => by
    obtain ⟨r, st₁, h₁, hrest⟩ := run_bind_ok h
    obtain ⟨rs, st₂, h₂, h₃⟩ := run_bind_ok hrest
    cases h₃
    obtain rfl : r = .ok := hok r (List.mem_cons_self _ _)
    have hs₁ := contentStep_clearsFlags hf h₁
    obtain ⟨hp₁, hu₁⟩ := contentStep_unique s hf hg hr (hord p (List.mem_cons_self _ _)) hu h₁
    obtain ⟨hs₂, hu₂, hall⟩ := contentPass_validatedUnique hf hg order (hs₁.ring hr) hu₁
      (fun q hq => hord q (List.mem_cons_of_mem _ hq)) h₂
      (fun r hr => hok r (List.mem_cons_of_mem _ hr))
    refine ⟨hs₁.trans hs₂, hu₂, fun q hq => ?_⟩
    rcases List.mem_cons.mp hq with rfl | hq
    · exact hs₂.validated hp₁
    · exact hall q hq

/-- A pass of content calls on nodes of a ring free of clashes reports no duplicate. -/
theorem contentPass_no_duplicate (hf : options.filter = false) :
    ∀ (order : List Ptr) {st : VState} {rs : List VResult} {st' : VState},
      Ring st.heap par L → (∀ a ∈ L, ∀ b ∈ L, a ≠ b → clash s st.heap a b = false) →
      (∀ p ∈ order, p ∈ L) →
      (validationPass s env options (order.map .content)).run st = .ok (rs, st') →
      ∀ r ∈ rs, ∀ e, r = .fail e → e.isDuplicate = false
  | [], _, _, _, _, _, _, h => by cases h; simp
  | p :: order, _, _, _, hr, hu, hord, h => by
    obtain ⟨r, st₁, h₁, hrest⟩ := run_bind_ok h
    obtain ⟨rs, st₂, h₂, h₃⟩ := run_bind_ok hrest
    cases h₃
    have hs₁ := contentStep_clearsFlags hf h₁
    intro r' hr'
    rcases List.mem_cons.mp hr' with rfl | hr'
    · exact contentStep_no_duplicate s hf hr (hord p (List.mem_cons_self _ _)) hu h₁
    · refine contentPass_no_duplicate hf order (hs₁.ring hr) (fun a ha b hb hab => ?_)
        (fun q hq => hord q (List.mem_cons_of_mem _ hq)) h₂ r' hr'
      rw [hs₁.clash]
      exact hu a ha b hb hab

/-- **Instance uniqueness over content passes.** Outside filter mode and outside get and
get-config data, let the caller run `lyv_data_content` on nodes of one sibling list `L`, in any
order and covering every node still to be validated, clearing the `validity` of each node that
passes. If no two validated siblings clash at the start and every call succeeds, then `L` is
still the sibling list and no two of its nodes clash at the end. And on siblings no two of which
clash, no call fails with `LYE_TOOMANY` or `LYE_DUPLIST`. -/
theorem contentPass_unique (hf : options.filter = false) (hg : options.get = false)
    (hgc : options.getconfig = false) {order : List Ptr} {st : VState} {rs : List VResult}
    {st' : VState} (hr : Ring st.heap par L) (horder : ∀ p ∈ order, p ∈ L)
    (hrun : (validationPass s env options (order.map .content)).run st = .ok (rs, st')) :
    ((∀ p ∈ L, ∀ q ∈ L, p ≠ q → validated st.heap p → validated st.heap q →
        clash s st.heap p q = false) →
      (∀ p ∈ L, validated st.heap p = false → p ∈ order) → (∀ r ∈ rs, r = .ok) →
      Ring st'.heap par L ∧ ∀ p ∈ L, ∀ q ∈ L, p ≠ q → clash s st'.heap p q = false) ∧
    ((∀ p ∈ L, ∀ q ∈ L, p ≠ q → clash s st.heap p q = false) →
      ∀ r ∈ rs, ∀ e, r = .fail e → e.isDuplicate = false) := by
  refine ⟨fun hu hcover hok => ?_, fun hu => contentPass_no_duplicate s hf order hr hu horder hrun⟩
  obtain ⟨hs, hu', hall⟩ :=
    contentPass_validatedUnique s hf (by simp [hg, hgc]) order hr hu horder hrun hok
  have hdone : ∀ p ∈ L, validated st'.heap p := fun p hp => by
    cases hv : validated st.heap p
    · exact hall p (hcover p hp hv)
    · exact hs.validated hv
  exact ⟨hs.ring hr, fun p hp q hq hpq => hu' p hp q hq hpq (hdone p hp) (hdone q hq)⟩

end Pass

/-- Top-level siblings `x = 1` (0) and `x = 2` (1) of the leaf-list `x`, both to validate. -/
def twoValuesHeap : Heap :=
  [some { schema := 0, next := some 1, prev := 1, valueStr := some 1, validity := true },
   some { schema := 0, prev := 0, valueStr := some 2, validity := true }]

/-- Validating the two distinct leaf-list entries in order: both pass, and they do not clash. -/
theorem contentPass_unique_twoValues :
    ∃ rs st', (validationPass leafListSchema quietEnv {} [.content 0, .content 1]).run
        { heap := twoValuesHeap } = .ok (rs, st') ∧ rs = [.ok, .ok] ∧
      Ring st'.heap none [0, 1] ∧ ∀ p ∈ [0, 1], ∀ q ∈ [0, 1], p ≠ q →
        clash leafListSchema st'.heap p q = false := by
  exact ⟨_, _, rfl, rfl, ((@contentPass_unique leafListSchema quietEnv {} none [0, 1] rfl rfl rfl
    [0, 1] { heap := twoValuesHeap } _ _ (by decide) (by decide) rfl).1 (by decide) (by decide)
    (by decide))⟩

end YangValidation
