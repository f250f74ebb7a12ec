import YangValidation.Queue

/-!
# What a pass outside filter mode changes

Outside filter mode a validation pass writes two things into the tree and nothing else:
`lyv_data_context` clears the flag bits of a leaf's `value_type` (line 358), and the caller clears
the `validity` of a node that passed `lyv_data_content`. So over any pass, every node stays where
it was, with its schema, its parent, child and sibling links, its value and its when flag, and a
flag is only ever cleared, never set (`validationPass_clearsFlags`).

`ClearsFlags h h'` is that relation between the heaps before and after, for one call and for a
whole pass alike. The checks of a later call read nothing it changes: the sibling walk,
`lyd_compare` and the shape of a sibling list are the same on both sides. The uniqueness and
compatibility results of the later modules carry this one relation through their passes.
-/

namespace YangValidation

variable (s : Schema)

/-! ## Clearing flags -/

/-- Node `p` is allocated and validated: its `validity` flag is clear. -/
def validated (h : Heap) (p : Ptr) : Bool := (h.read? p).any fun n => !n.validity

theorem validated_iff {h : Heap} {q : Ptr} :
    validated h q ↔ ∃ n, h.read? q = some n ∧ n.validity = false := by
  cases hq : h.read? q <;> simp [validated, hq]

/-- The record `n` with its `validity` flag and the flag bits of its value cleared. -/
def LydNode.unflagged (n : LydNode) : LydNode := { n with validity := false, valueUnres := false }

/-- Records equal up to the two flags have the same schema, links and value. -/
theorem LydNode.fields_of_unflagged {n n' : LydNode} (h : n'.unflagged = n.unflagged) :
    n'.schema = n.schema ∧ n'.parent = n.parent ∧ n'.next = n.next ∧ n'.prev = n.prev ∧
      n'.child = n.child ∧ n'.valueStr = n.valueStr :=
  ⟨congrArg (·.schema) h, congrArg (·.parent) h, congrArg (·.next) h, congrArg (·.prev) h,
    congrArg (·.child) h, congrArg (·.valueStr) h⟩

/-- `h'` is `h` with some `validity` flags and some flag bits of values cleared: the same nodes,
with the same schemas, links, values and when flags, and no flag set that was clear. -/
structure ClearsFlags (h h' : Heap) : Prop where
  length_eq : h'.length = h.length
  read_eq : ∀ p, (h'.read? p).map LydNode.unflagged = (h.read? p).map LydNode.unflagged
  flags_le : ∀ p n n', h.read? p = some n → h'.read? p = some n' →
    (n'.validity → n.validity) ∧ (n'.valueUnres → n.valueUnres)

theorem keyValues_unflagged (keys : List Nat) (kids : List (Ptr × LydNode)) :
    keyValues keys (kids.map fun c => (c.1, c.2.unflagged)) = keyValues keys kids := by
  simp [keyValues, List.find?_map, Option.bind_map, Function.comp_def, LydNode.unflagged]

namespace ClearsFlags

variable {h h' h'' : Heap}

theorem refl (h : Heap) : ClearsFlags h h :=
  ⟨rfl, fun _ => rfl, fun _ n n' hn hn' => by cases hn.symm.trans hn'; exact ⟨id, id⟩⟩

/-- A node of `h` is in `h'` with every field but the two flags unchanged. -/
theorem read_some (hc : ClearsFlags h h') {p : Ptr} {n : LydNode} (hp : h.read? p = some n) :
    ∃ n', h'.read? p = some n' ∧ n'.unflagged = n.unflagged := by
  have := hc.read_eq p
  rw [hp] at this
  cases h2 : h'.read? p with
  | none => simp [h2] at this
  | some n' => exact ⟨n', rfl, by simpa [h2] using this⟩

theorem read_none (hc : ClearsFlags h h') {p : Ptr} (hp : h.read? p = none) : h'.read? p = none := by
  have := hc.read_eq p
  rw [hp] at this
  simpa using this

theorem trans (h₁ : ClearsFlags h h') (h₂ : ClearsFlags h' h'') : ClearsFlags h h'' := by
  refine ⟨h₂.length_eq.trans h₁.length_eq, fun p => (h₂.read_eq p).trans (h₁.read_eq p),
    fun p n n'' hn hn'' => ?_⟩
  obtain ⟨n', hn', -⟩ := h₁.read_some hn
  obtain ⟨a₁, b₁⟩ := h₁.flags_le p n n' hn hn'
  obtain ⟨a₂, b₂⟩ := h₂.flags_le p n' n'' hn' hn''
  exact ⟨a₁ ∘ a₂, b₁ ∘ b₂⟩

/-- A node once validated stays validated. -/
theorem validated (hc : ClearsFlags h h') {p : Ptr} (hp : YangValidation.validated h p) :
    YangValidation.validated h' p := by
  obtain ⟨n, hn, hv⟩ := validated_iff.mp hp
  obtain ⟨n', hn', -⟩ := hc.read_some hn
  have := (hc.flags_le p n n' hn hn').1
  exact validated_iff.mpr ⟨n', hn', by cases h : n'.validity <;> simp_all⟩

/-- A node of `h'` was in `h`, with the same fields but the two flags. -/
theorem read_some_back (hc : ClearsFlags h h') {p : Ptr} {n' : LydNode}
    (hp : h'.read? p = some n') : ∃ n, h.read? p = some n ∧ n'.unflagged = n.unflagged := by
  cases hn : h.read? p with
  | none => rw [hc.read_none hn] at hp; cases hp
  | some n =>
    obtain ⟨m, hm, he⟩ := hc.read_some hn
    cases hp.symm.trans hm
    exact ⟨n, rfl, he⟩

/-- Writing to a live node a record that differs from it only in flags it clears. -/
theorem write {p : Ptr} {n n' : LydNode} (hp : h.read? p = some n) (he : n'.unflagged = n.unflagged)
    (hf : (n'.validity → n.validity) ∧ (n'.valueUnres → n.valueUnres)) :
    ClearsFlags h (h.write p n') := by
  refine ⟨Heap.length_write .., fun q => ?_, fun q m m' hm hm' => ?_⟩
  · by_cases hq : q = p
    · subst hq; simp [hp, he]
    · rw [Heap.read?_write_ne _ _ hq]
  · by_cases hq : q = p
    · subst hq
      rw [hp] at hm; cases hm
      rw [Heap.read?_write_self hp] at hm'; cases hm'
      exact hf
    · rw [Heap.read?_write_ne _ _ hq, hm] at hm'; cases hm'
      exact ⟨id, id⟩

/-- The walk visits the same nodes in both heaps. -/
theorem siblings (hc : ClearsFlags h h') : ∀ f o,
    (YangValidation.siblings h' f o).map (·.map fun c => (c.1, c.2.unflagged)) =
      (YangValidation.siblings h f o).map (·.map fun c => (c.1, c.2.unflagged))
  | 0, none | _ + 1, none | 0, some _ => rfl
  | f + 1, some p => by
    cases h1 : h.read? p with
    | none => simp [YangValidation.siblings, h1, hc.read_none h1]
    | some n =>
      obtain ⟨n', h2, hn⟩ := hc.read_some h1
      have hnext : n'.next = n.next := (LydNode.fields_of_unflagged hn).2.2.1
      have ih := hc.siblings f n.next
      simp only [YangValidation.siblings, h1, h2, hnext]
      revert ih
      cases YangValidation.siblings h f n.next <;> cases YangValidation.siblings h' f n.next <;>
        simp [Except.map, hn]

theorem siblings_keyValues (hc : ClearsFlags h h') (keys : List Nat) (o : Option Ptr) :
    (YangValidation.siblings h' h'.length o).map (keyValues keys) =
      (YangValidation.siblings h h.length o).map (keyValues keys) := by
  have := congrArg (Except.map (keyValues keys)) (hc.siblings h.length o)
  rw [hc.length_eq]
  revert this
  cases YangValidation.siblings h' h.length o <;> cases YangValidation.siblings h h.length o <;>
    simp [Except.map, keyValues_unflagged]

theorem lydCompare (hc : ClearsFlags h h') (p q : Ptr) :
    YangValidation.lydCompare s h' p q = YangValidation.lydCompare s h p q := by
  unfold YangValidation.lydCompare
  cases hp : h.read? p with
  | none => simp only [Heap.deref, hp, hc.read_none hp, except_error_bind]
  | some np =>
    obtain ⟨np', hp', hnp⟩ := hc.read_some hp
    cases hq : h.read? q with
    | none =>
      simp only [Heap.deref, hp, hp', hq, hc.read_none hq, except_ok_bind, except_error_bind]
    | some nq =>
      obtain ⟨nq', hq', hnq⟩ := hc.read_some hq
      obtain ⟨e1, -, -, -, e5, e3⟩ := LydNode.fields_of_unflagged hnp
      obtain ⟨e2, -, -, -, e6, e4⟩ := LydNode.fields_of_unflagged hnq
      simp only [Heap.deref, hp, hp', hq, hq', except_ok_bind, e1, e2, e3, e4, e5, e6]
      split
      · rfl
      · split
        · rfl
        · -- the instances are compared only through their key values
          have h1 := hc.siblings_keyValues (s.get np.schema).keys np.child
          have h2 := hc.siblings_keyValues (s.get np.schema).keys nq.child
          rw [except_bind_congr_map h1 fun v => YangValidation.siblings h' h'.length nq.child >>=
            fun kids2 => pure (if (s.get np.schema).keys ≠ [] ∧
              v = keyValues (s.get np.schema).keys kids2 then 0 else 1)]
          congr 1; funext kids1
          exact except_bind_congr_map h2 fun v => pure (if (s.get np.schema).keys ≠ [] ∧
            keyValues (s.get np.schema).keys kids1 = v then 0 else 1)
        · rfl

theorem clash (hc : ClearsFlags h h') (p q : Ptr) :
    YangValidation.clash s h' p q = YangValidation.clash s h p q := by
  unfold YangValidation.clash
  rw [hc.lydCompare s]
  cases hp : h.read? p with
  | none => simp [hc.read_none hp]
  | some np =>
    obtain ⟨np', hp', hnp⟩ := hc.read_some hp
    cases hq : h.read? q with
    | none => simp [hp', hc.read_none hq]
    | some nq =>
      obtain ⟨nq', hq', hnq⟩ := hc.read_some hq
      simp only [hp', hq', (LydNode.fields_of_unflagged hnp).1, (LydNode.fields_of_unflagged hnq).1]

theorem linked (hc : ClearsFlags h h') {q : Ptr} : ∀ {L : List Ptr}, Linked h q L → Linked h' q L
  | [], _ => trivial
  | _ :: _, ⟨n, hn, hprev, hnext, hL⟩ => by
    obtain ⟨n', hn', he⟩ := hc.read_some hn
    obtain ⟨-, -, enext, eprev, -⟩ := LydNode.fields_of_unflagged he
    exact ⟨n', hn', eprev.trans hprev, enext.trans hnext, hc.linked hL⟩

theorem ring (hc : ClearsFlags h h') {par : Option Ptr} {L : List Ptr} (hr : Ring h par L) :
    Ring h' par L where
  nodup := hr.nodup
  linked := hc.linked hr.linked
  parent_eq p hp n' hn' := by
    cases hn : h.read? p with
    | none => simp [hc.read_none hn] at hn'
    | some n =>
      obtain ⟨m, hm, he⟩ := hc.read_some hn
      cases hm.symm.trans hn'
      exact (LydNode.fields_of_unflagged he).2.1.trans (hr.parent_eq p hp n hn)
  child_eq q hq := by
    obtain ⟨n, hn, hch⟩ := hr.child_eq q hq
    obtain ⟨n', hn', he⟩ := hc.read_some hn
    exact ⟨n', hn', (LydNode.fields_of_unflagged he).2.2.2.2.1.trans hch⟩

end ClearsFlags

/-! ## The calls -/

/-- `h'` is `h` with some flag bits of values cleared, and every `validity` flag as it was. -/
structure ClearsUnres (h h' : Heap) : Prop where
  clears : ClearsFlags h h'
  validity_eq : ∀ p n n', h.read? p = some n → h'.read? p = some n' → n'.validity = n.validity

namespace ClearsUnres

variable {h h' : Heap}

theorem refl (h : Heap) : ClearsUnres h h :=
  ⟨.refl h, fun _ n n' hn hn' => by cases hn.symm.trans hn'; rfl⟩

/-- The nodes validated are the same. -/
theorem validated_eq (hc : ClearsUnres h h') (p : Ptr) :
    YangValidation.validated h' p = YangValidation.validated h p := by
  cases hp : h.read? p with
  | none => simp [YangValidation.validated, hp, hc.clears.read_none hp]
  | some n =>
    obtain ⟨n', hn', -⟩ := hc.clears.read_some hp
    simp [YangValidation.validated, hp, hn', hc.validity_eq p n n' hp hn']

end ClearsUnres

variable {s} in
/-- Queueing for a live node clears at most the flag bits of its value. -/
theorem QueuedFor.clearsUnres {node : Ptr} {n : LydNode} {st st' : VState}
    (hq : QueuedFor s node n st st') (hn : st.heap.read? node = some n) :
    ClearsUnres st.heap st'.heap := by
  rcases hq.1 with hh | hh <;> rw [hh]
  · exact .refl _
  refine ⟨.write hn rfl ⟨id, fun h => nomatch h⟩, fun q m m' hm hm' => ?_⟩
  by_cases hqn : q = node
  · subst hqn
    rw [hn] at hm; cases hm
    rw [Heap.read?_write_self hn] at hm'; cases hm'; rfl
  · rw [Heap.read?_write_ne _ _ hqn, hm] at hm'; cases hm'; rfl

variable {s}

/-- `lyv_data_context` only clears the flag bits of the node's value, whatever the options. -/
theorem lyvDataContext_clearsUnres {env : Env} {options : LydOptions} {node : Ptr} {st : VState}
    {r : VResult} {st' : VState} (h : (lyvDataContext s env options node).run st = .ok (r, st')) :
    ClearsUnres st.heap st'.heap :=
  let ⟨_, hn, hq⟩ := lyvDataContext_spec s h
  hq.clearsUnres hn

/-- Outside filter mode a content step clears at most the `validity` of its node. -/
theorem contentStep_clearsFlags {env : Env} {options : LydOptions} (hf : options.filter = false)
    {p : Ptr} {st : VState} {r : VResult} {st' : VState}
    (h : (contentStep s env options p).run st = .ok (r, st')) : ClearsFlags st.heap st'.heap := by
  obtain ⟨n, hn, x, -, hx⟩ := contentStep_inv s hf h
  cases x with
  | error v => obtain ⟨-, -, rfl⟩ := hx; exact .refl _
  | ok => rw [hx.2.1]; exact .write hn rfl ⟨fun h => (nomatch h), id⟩

/-! ## Passes -/

/-- **What a pass outside filter mode changes.** Over any pass of `lyv_data_context` and
`lyv_data_content` calls outside filter mode, with the caller clearing the `validity` of each node
that passes, every node stays allocated and keeps its schema, its parent, child and sibling links,
its value and its when flag; a `validity` flag or a flag bit of a value may be cleared, and none
is set. -/
theorem validationPass_clearsFlags {env : Env} {options : LydOptions}
    (hf : options.filter = false) :
    ∀ (calls : List VCall) {st : VState} {rs : List VResult} {st' : VState},
      (validationPass s env options calls).run st = .ok (rs, st') →
        ClearsFlags st.heap st'.heap
  | [], _, _, _, h => by cases h; exact .refl _
  | c :: cs, st, _, _, h => by
    obtain ⟨r, st₁, h₁, h₂⟩ := run_bind_ok h
    obtain ⟨rs, st₂, h₂, h₃⟩ := run_bind_ok h₂
    cases h₃
    have hstep : ClearsFlags st.heap st₁.heap := by
      cases c with
      | context p => exact (lyvDataContext_clearsUnres h₁).clears
      | content p => exact contentStep_clearsFlags hf h₁
    exact hstep.trans (validationPass_clearsFlags hf cs h₂)

/-- The pass of `validationPass_keeps_queue_sel`, with a context call first: what it leaves
clears flags of the tree it started from. -/
theorem validationPass_clearsFlags_sel :
    ∃ rs st', (validationPass leafListSchema mustEnv {} [.context 0, .content 0, .content 1]).run
        { heap := selValueHeap } = .ok (rs, st') ∧ ClearsFlags selValueHeap st'.heap :=
  ⟨_, _, rfl, @validationPass_clearsFlags leafListSchema mustEnv {} rfl
    [.context 0, .content 0, .content 1] { heap := selValueHeap } _ _ rfl⟩

end YangValidation
