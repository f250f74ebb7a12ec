import YangValidation.Accept
import Mathlib.Data.List.Pairwise

/-!
# The outcome of a content pass

A parser validates the nodes of a sibling list in the order it meets them, calling
`lyv_data_content` on each node still to be validated and clearing the `validity` of each node
that passes. The uniqueness check compares a node only with the siblings validated before it, so
which of two equal list instances is reported depends on the order. Whether the pass succeeds
does not: outside filter, get and get-config data, over any order that calls each node still to
be validated once, no call faults, and every call succeeds exactly when each such node passes its
own checks (`LocalValid`) and no two siblings conflict (`Compatible`) (`contentPass_accepts`).
The same holds of a whole tree validated bottom-up, its calls moving between the sibling rings
(`treePass_accepts`).

The theorem is stated over the heap at the start. A pass changes only `validity` flags
(`ClearsFlags`), and the frame carries what each call checks back to the start: the ring of the
node's children and the schemas of their keys (`ClearsFlags.keysFirst`), the schemas the choice
check compares (`ClearsFlags.conflictAt`), the clashes, and the node's own checks
(`LocalValid.congr_clears`), given that `ly_check_mandatory` does not read the flags.
-/

namespace YangValidation

variable {s : Schema}

/-! ## What the frame keeps -/

/-- A frame keeps the address and schema of every record the walk pairs a node with. -/
theorem ClearsFlags.records_schemas {h h' : Heap} (hc : ClearsFlags h h') :
    ∀ L : List Ptr, (records h' L).map (fun d => (d.1, d.2.schema)) =
      (records h L).map (fun d => (d.1, d.2.schema))
  | [] => rfl
  | p :: L => by
    cases hp : h.read? p with
    | none =>
      simp only [records, List.filterMap_cons, hp, hc.read_none hp, Option.map_none']
      exact hc.records_schemas L
    | some n =>
      obtain ⟨n', hn', he⟩ := hc.read_some hp
      rw [records_cons_of_read? L hp, records_cons_of_read? L hn', List.map_cons, List.map_cons,
        hc.records_schemas L, (LydNode.fields_of_unflagged he).1]

/-- Whether children begin with the keys depends on their schemas only. -/
theorem keysFirst_congr {i : Nat} {kids kids' : List (Ptr × LydNode)}
    (h : kids.map (·.2.schema) = kids'.map (·.2.schema)) :
    KeysFirst s i kids ↔ KeysFirst s i kids' := by
  have hlen : kids.length = kids'.length := by simpa using congrArg List.length h
  have hget : ∀ j (h₁ : j < kids.length) (h₂ : j < kids'.length),
      kids[j].2.schema = kids'[j].2.schema := fun j h₁ h₂ => by
    have := List.getElem_of_eq h (by simpa using h₁)
    rwa [List.getElem_map, List.getElem_map] at this
  constructor <;> rintro ⟨hle, hk⟩ <;> refine ⟨by omega, fun j hj h₂ => ?_⟩
  · rw [← hget j (by omega) h₂]; exact hk j hj (by omega)
  · rw [hget j h₂ (by omega)]; exact hk j hj (by omega)

theorem ClearsFlags.keysFirst {h h' : Heap} (hc : ClearsFlags h h') {i : Nat} (C : List Ptr) :
    KeysFirst s i (records h' C) ↔ KeysFirst s i (records h C) :=
  keysFirst_congr (by
    simpa [Function.comp_def] using congrArg (List.map Prod.snd) (hc.records_schemas C))

theorem ClearsFlags.conflictAt {h h' : Heap} (hc : ClearsFlags h h') {node : Ptr}
    {L : List Ptr} {x c : Nat} :
    ConflictAt s node (records h' L) x c ↔ ConflictAt s node (records h L) x c := by
  have key : ∀ R : List (Ptr × LydNode), ConflictAt s node R x c ↔
      ∃ y ∈ R.map (fun d => (d.1, d.2.schema)), y.1 ≠ node ∧ caseClash s c x y.2 := fun R =>
    ⟨fun ⟨d, hd, h₁, h₂⟩ => ⟨_, List.mem_map_of_mem _ hd, h₁, h₂⟩, fun ⟨_, hy, h₁, h₂⟩ => by
      obtain ⟨d, hd, rfl⟩ := List.mem_map.mp hy
      exact ⟨d, hd, h₁, h₂⟩⟩
  rw [key, key, hc.records_schemas L]

theorem Compatible.symm {h : Heap} {p q : Ptr} (hc : Compatible s h p q) : Compatible s h q p :=
  ⟨by rw [clash_comm]; exact hc.1,
    fun nq hnq np hnp c hcl => hc.2 np hnp nq hnq c (caseClash_comm.mp hcl)⟩

section Local

variable {env : Env} {options : LydOptions} {h : Heap} {p : Ptr}

/-- What a node requires by itself reads no flag of its record. -/
theorem LocalValid.of_unflagged {n n' : LydNode} (he : n'.unflagged = n.unflagged)
    (hv : LocalValid s env options h p n) : LocalValid s env options h p n' := by
  have hs := (LydNode.fields_of_unflagged he).1
  refine ⟨?_, ?_, ?_⟩
  · rw [hs]; exact hv.keys
  · rw [hs]; exact hv.mandatory
  · show StatusOk s env options n'.unflagged
    rw [he]
    exact hv.status

/-- What a node whose children form a ring requires by itself is kept by a frame, when
`ly_check_mandatory` does not read the flags. -/
theorem LocalValid.congr_clears {h' : Heap} (hc : ClearsFlags h h')
    (hmandFlags : env.lyCheckMandatory h' = env.lyCheckMandatory h) {n : LydNode}
    {C₀ : List Ptr} (hC₀ : Ring h (some p) C₀) :
    LocalValid s env options h' p n ↔ LocalValid s env options h p n := by
  -- both sides read the keys off the one ring of children
  have hkeys : ∀ {h₁ : Heap}, ClearsFlags h h₁ → ((∀ C, Ring h₁ (some p) C →
      KeysFirst s n.schema (records h₁ C)) ↔ KeysFirst s n.schema (records h C₀)) := fun hc₁ =>
    ⟨fun hk => (hc₁.keysFirst C₀).mp (hk C₀ (hc₁.ring hC₀)), fun hk C hC => by
      rw [← Ring.eq_of_parent (hc₁.ring hC₀) hC]; exact (hc₁.keysFirst C₀).mpr hk⟩
  constructor
  · exact fun ⟨hk, hm, hst⟩ => ⟨fun hl hg => (hkeys (.refl h)).mpr ((hkeys hc).mp (hk hl hg)),
      hmandFlags ▸ hm, hst⟩
  · exact fun ⟨hk, hm, hst⟩ => ⟨fun hl hg => (hkeys hc).mpr ((hkeys (.refl h)).mp (hk hl hg)),
      hmandFlags ▸ hm, hst⟩

end Local

variable (s) in
/-- Node `p` of the sibling list `L` of heap `h` passes its own checks and is compatible with
every other sibling. -/
def SiblingValid (env : Env) (options : LydOptions) (h : Heap) (L : List Ptr) (p : Ptr) : Prop :=
  (∀ n ∈ h.read? p, LocalValid s env options h p n) ∧ ∀ q ∈ L, q ≠ p → Compatible s h p q

/-! ## A call of the pass -/

section Pass

variable {env : Env} {options : LydOptions} {h₀ : Heap} {par : Option Ptr} {L : List Ptr}
  (hf : options.filter = false) (hg : (options.get || options.getconfig) = false)
  (hcase : s.CasesInChoices) (hr₀ : Ring h₀ par L) (hd₀ : DataNodes s h₀ L)
  (hkids₀ : ∀ p ∈ L, ∃ C, Ring h₀ (some p) C)
  (hmand : ∀ p ∈ L, ∀ si ∈ env.lyCheckMandatory h₀ p, (s.get si).parent ≠ none)
  (hmandFlags : ∀ h h', ClearsFlags h h' → env.lyCheckMandatory h' = env.lyCheckMandatory h)
  (htype : ∀ p ∈ L, ∀ n ∈ h₀.read? p, ∀ t ∈ (s.get n.schema).typeDer, t < s.tpdfs.length)
include hf hg hcase hr₀ hd₀ hkids₀ hmand hmandFlags htype

omit hg in
/-- A content call on a node of `L`, from a heap the pass has reached: it ends without fault,
and it succeeds exactly when the node, if still to be validated, satisfies `ContentValid` there;
then only the node's `validity` is cleared, and otherwise the heap is as it was. -/
theorem contentStep_decides {st : VState} (hc : ClearsFlags h₀ st.heap) {p : Ptr} (hp : p ∈ L) :
    ∃ n, st.heap.read? p = some n ∧ ∃ r st', (contentStep s env options p).run st = .ok (r, st') ∧
      (r = .ok ↔ (n.validity = true →
        ContentValid s env options st.heap p n (records st.heap L))) ∧
      (r = .ok → st'.heap = st.heap.write p { n with validity := false }) ∧
      (r ≠ .ok → st'.heap = st.heap) := by
  obtain ⟨n₀, hn₀⟩ := Option.isSome_iff_exists.mp (hr₀.live p hp)
  obtain ⟨n, hn, he⟩ := hc.read_some hn₀
  have hs := LydNode.fields_of_unflagged he
  have hr : Ring st.heap n.parent L := by
    rw [hs.2.1, hr₀.parent_eq p hp n₀ hn₀]; exact hc.ring hr₀
  obtain ⟨x, hx, hiff, hF⟩ := decides_validityChecks hf hcase hn hr hp (hc.dataNodes hd₀)
    (fun q hq => let ⟨C, hC⟩ := hkids₀ q hq; ⟨C, hc.ring hC⟩)
    (by rw [hmandFlags _ _ hc]; exact hmand p hp) (by rw [hs.1]; exact htype p hp n₀ hn₀)
  have hrun := lyvDataContent_run hn hx
  refine ⟨n, hn, ?_⟩
  cases x with
  | error v =>
    obtain ⟨e, rfl, -⟩ := hF
    refine ⟨.fail e, st, ?_, iff_of_false (nomatch ·) (fun h => nomatch hiff.mpr h), (nomatch ·),
      fun _ => rfl⟩
    simp only [contentStep, StateT.run_bind, hrun, except_ok_bind]
    rfl
  | ok u =>
    refine ⟨.ok, ⟨st.heap.write p { n with validity := false },
        st.unres ++ if env.resolveAppliesMust st.heap p then [(p, .must)] else []⟩, ?_,
      iff_of_true rfl (hiff.mp rfl), fun _ => rfl, fun h => absurd rfl h⟩
    simp only [contentStep, StateT.run_bind, hrun, except_ok_bind, modifyNode_run, hn]
    rfl

omit hf hg hcase hr₀ hd₀ hmand htype in
/-- A node valid among its siblings at the start passes whenever the pass reaches it. -/
theorem contentValid_of_siblingValid {st : VState} (hc : ClearsFlags h₀ st.heap) {p : Ptr}
    (hp : p ∈ L) {n : LydNode} (hn : st.heap.read? p = some n)
    (hv : SiblingValid s env options h₀ L p) :
    ContentValid s env options st.heap p n (records st.heap L) := by
  obtain ⟨n₀, hn₀, he⟩ := hc.read_some_back hn
  obtain ⟨C₀, hC₀⟩ := hkids₀ p hp
  have hs := (LydNode.fields_of_unflagged he).1
  refine ⟨(((LocalValid.congr_clears hc (hmandFlags _ _ hc) hC₀).mpr (hv.1 n₀ hn₀)).of_unflagged
    he), fun c hconf => ?_, fun d hd hdp hcl => absurd hcl ?_⟩
  · obtain ⟨d, hd, hdp, hcl⟩ := hc.conflictAt.mp hconf
    rw [mem_records] at hd
    exact (hv.2 d.1 hd.1 hdp).2 n₀ hn₀ d.2 hd.2 c (hs ▸ hcl)
  · rw [hc.clash, clash_comm, (hv.2 d.1 (mem_records.mp hd).1 hdp).1]
    decide

omit hf hcase hr₀ hd₀ hmand htype in
/-- A node that passes where the pass reached it is valid by itself at the start, has a
`caseClash` with no sibling, and clashes with no sibling validated before it. -/
theorem siblingOk_of_contentValid {st : VState} (hc : ClearsFlags h₀ st.heap) {p : Ptr}
    (hp : p ∈ L) {n : LydNode} (hn : st.heap.read? p = some n)
    (hv : ContentValid s env options st.heap p n (records st.heap L)) :
    (∀ n ∈ h₀.read? p, LocalValid s env options h₀ p n) ∧ ∀ q ∈ L, q ≠ p →
      (validated st.heap q → clash s h₀ p q = false) ∧
      ∀ np ∈ h₀.read? p, ∀ nq ∈ h₀.read? q, ∀ c, ¬caseClash s c np.schema nq.schema := by
  obtain ⟨n₀, hn₀, he⟩ := hc.read_some_back hn
  obtain ⟨C₀, hC₀⟩ := hkids₀ p hp
  have hs := (LydNode.fields_of_unflagged he).1
  refine ⟨fun m hm => ?_, fun q hq hqp => ⟨fun hvq => ?_, fun np hnp nq hnq c hcl => ?_⟩⟩
  · cases hn₀.symm.trans hm
    exact (LocalValid.congr_clears hc (hmandFlags _ _ hc) hC₀).mp
      (hv.toLocalValid.of_unflagged he.symm)
  · -- the uniqueness check saw the validated `q`
    cases hcl : clash s h₀ p q
    · rfl
    · obtain ⟨nq, hnq, hvq'⟩ := validated_iff.mp hvq
      have := (hv.unique (q, nq) (mem_records.mpr ⟨hq, hnq⟩) hqp
        (by rw [hc.clash, clash_comm, hcl])).2
      rw [hvq', hg] at this
      simp at this
  · -- the choice check saw every sibling
    cases hn₀.symm.trans hnp
    obtain ⟨nq', hnq', heq⟩ := hc.read_some hnq
    refine hv.choice c ⟨(q, nq'), mem_records.mpr ⟨hq, hnq'⟩, hqp, ?_⟩
    rw [hs, (LydNode.fields_of_unflagged heq).1]
    exact hcl

end Pass

variable (s) in
/-- The ring `L` under `par` is one whose checks end without fault: its nodes instantiate schema
nodes that are not cases, their children form rings, `ly_check_mandatory` names only schema nodes
with a parent, and the types of its leaves derive from typedefs of the schema. -/
structure RingOk (env : Env) (h : Heap) (par : Option Ptr) (L : List Ptr) : Prop where
  ring : Ring h par L
  dataNodes : DataNodes s h L
  kids : ∀ p ∈ L, ∃ C, Ring h (some p) C
  mand : ∀ p ∈ L, ∀ si ∈ env.lyCheckMandatory h p, (s.get si).parent ≠ none
  types : ∀ p ∈ L, ∀ n ∈ h.read? p, ∀ t ∈ (s.get n.schema).typeDer, t < s.tpdfs.length

/-! ## The pass

A parser meets the nodes of a tree level by level and validates them bottom-up, so the calls of a
pass move between the sibling rings of the tree. The rings `Rs` share no node; each call meets its
node's ring in a heap the pass has reached. -/

section Forest

variable {env : Env} {options : LydOptions} {h₀ : Heap} {Rs : List (Option Ptr × List Ptr)}
  (hf : options.filter = false) (hg : (options.get || options.getconfig) = false)
  (hcase : s.CasesInChoices)
  (hmandFlags : ∀ h h', ClearsFlags h h' → env.lyCheckMandatory h' = env.lyCheckMandatory h)
  (hRs : ∀ R ∈ Rs, RingOk s env h₀ R.1 R.2) (hdisj : (Rs.map Prod.snd).Pairwise List.Disjoint)
include hf hg hcase hmandFlags hRs hdisj

omit hf hg hcase hmandFlags hRs in
/-- A node lies in one ring of the family. -/
theorem ring_eq_of_mem {R R' : Option Ptr × List Ptr} (hR : R ∈ Rs) (hR' : R' ∈ Rs) {p : Ptr}
    (hp : p ∈ R.2) (hp' : p ∈ R'.2) : R.2 = R'.2 :=
  have hsymm : Symmetric (@List.Disjoint Ptr) := fun _ _ h _ ha hb => h hb ha
  Classical.byContradiction fun hne =>
    hdisj.forall hsymm (List.mem_map_of_mem _ hR) (List.mem_map_of_mem _ hR') hne hp hp'

omit hg hdisj in
/-- A content pass over nodes of the rings, from a heap the pass has reached, ends without
fault. -/
theorem contentPass_total : ∀ (order : List Ptr) {st : VState}, ClearsFlags h₀ st.heap →
    (∀ p ∈ order, ∃ R ∈ Rs, p ∈ R.2) →
      ∃ rs st', (validationPass s env options (order.map .content)).run st = .ok (rs, st')
  | [], st, _, _ => ⟨[], st, rfl⟩
  | p :: order, _, hc, hord => by
    obtain ⟨R, hR, hp⟩ := hord p (List.mem_cons_self _ _)
    have hok := hRs R hR
    obtain ⟨-, -, r, st₁, h₁, -⟩ := contentStep_decides hf hcase hok.ring hok.dataNodes hok.kids
      hok.mand hmandFlags hok.types hc hp
    obtain ⟨rs, st', h₂⟩ := contentPass_total order (hc.trans (contentStep_clearsFlags hf h₁))
      fun q hq => hord q (List.mem_cons_of_mem _ hq)
    exact ⟨r :: rs, st', by
      simp only [List.map_cons, validationPass, passStep, StateT.run_bind, h₁, h₂, except_ok_bind]
      rfl⟩

/-- The rest of a pass over the nodes still to be validated: every call succeeds exactly when
every node it calls is valid among its siblings at the start. -/
theorem contentPass_outcome : ∀ (rest : List Ptr) {st : VState}, ClearsFlags h₀ st.heap →
    rest.Nodup → (∀ p ∈ rest, ∃ R ∈ Rs, p ∈ R.2) →
    (∀ R ∈ Rs, ∀ q ∈ R.2, validated st.heap q = false ↔ q ∈ rest) →
    ∃ rs st', (validationPass s env options (rest.map .content)).run st = .ok (rs, st') ∧
      ((∀ r ∈ rs, r = .ok) ↔
        ∀ p ∈ rest, ∀ R ∈ Rs, p ∈ R.2 → SiblingValid s env options h₀ R.2 p)
  | [], st, _, _, _, _ => ⟨[], st, rfl, by simp⟩
  | p :: rest, st, hc, hnd, hord, hdirty => by
    obtain ⟨R, hR, hp⟩ := hord p (List.mem_cons_self _ _)
    have hok := hRs R hR
    have hord' : ∀ q ∈ rest, ∃ R ∈ Rs, q ∈ R.2 := fun q hq => hord q (List.mem_cons_of_mem _ hq)
    obtain ⟨n, hn, r, st₁, h₁, hiff, hheap, -⟩ := contentStep_decides hf hcase hok.ring
      hok.dataNodes hok.kids hok.mand hmandFlags hok.types hc hp
    have hvp : n.validity = true := by
      simpa [validated, hn] using (hdirty R hR p hp).mpr (List.mem_cons_self _ _)
    have hc₁ := hc.trans (contentStep_clearsFlags hf h₁)
    have hpass : ∀ rs st', (validationPass s env options (rest.map .content)).run st₁ =
        .ok (rs, st') → (validationPass s env options ((p :: rest).map .content)).run st =
          .ok (r :: rs, st') := fun rs st' h₂ => by
      simp only [List.map_cons, validationPass, passStep, StateT.run_bind, h₁, h₂, except_ok_bind]
      rfl
    -- `p` is valid among its siblings in every ring that holds it, that is in `R`
    have hsib : (∀ R' ∈ Rs, p ∈ R'.2 → SiblingValid s env options h₀ R'.2 p) ↔
        SiblingValid s env options h₀ R.2 p :=
      ⟨fun h => h R hR hp, fun h R' hR' hp' => ring_eq_of_mem hdisj hR hR' hp hp' ▸ h⟩
    rw [List.forall_mem_cons, hsib]
    by_cases hr : r = .ok
    · -- the node passed: now it is validated, and the others are as they were
      have hdirty₁ : ∀ R' ∈ Rs, ∀ q ∈ R'.2, validated st₁.heap q = false ↔ q ∈ rest :=
        fun R' hR' q hq => by
          by_cases hqp : q = p
          · subst hqp
            simp [validated, hheap hr, Heap.read?_write_self hn, (List.nodup_cons.mp hnd).1]
          · rw [show validated st₁.heap q = validated st.heap q by
              simp [validated, hheap hr, Heap.read?_write_ne _ _ hqp], hdirty R' hR' q hq,
              List.mem_cons]
            simp [hqp]
      obtain ⟨rs, st', h₂, hall⟩ := contentPass_outcome rest hc₁ (List.nodup_cons.mp hnd).2 hord'
        hdirty₁
      obtain ⟨hloc, hpairs⟩ := siblingOk_of_contentValid hg hok.kids hmandFlags hc hp hn
        (hiff.mp hr hvp)
      refine ⟨r :: rs, st', hpass rs st' h₂, ?_⟩
      rw [List.forall_mem_cons, hall]
      refine ⟨fun ⟨_, hrest⟩ => ⟨⟨hloc, fun q hq hqp => ?_⟩, hrest⟩, fun ⟨_, hrest⟩ => ⟨hr, hrest⟩⟩
      by_cases hqr : q ∈ rest
      · exact ((hrest q hqr R hR hq).2 p hp (Ne.symm hqp)).symm
      · -- a sibling that was not to be validated after `p` was validated before it
        refine ⟨(hpairs q hq hqp).1 ?_, (hpairs q hq hqp).2⟩
        cases hvq : validated st.heap q
        · exact absurd ((hdirty R hR q hq).mp hvq) (by simp [hqp, hqr])
        · rfl
    · -- the node failed: it is not valid, and the pass goes on from the same heap
      obtain ⟨rs, st', h₂⟩ := contentPass_total hf hcase hmandFlags hRs rest hc₁ hord'
      refine ⟨r :: rs, st', hpass rs st' h₂,
        iff_of_false (fun h => hr (h r (List.mem_cons_self _ _))) fun h => hr (hiff.mpr fun _ => ?_)⟩
      exact contentValid_of_siblingValid hok.kids hmandFlags hc hp hn h.1

end Forest

/-- Over a ring whose validated nodes are compatible, the nodes still to be validated are valid
among their siblings exactly when they pass their own checks and any two siblings are
compatible. -/
theorem siblingValid_iff {env : Env} {options : LydOptions} {h : Heap} {L order : List Ptr}
    (hclean : ∀ p ∈ L, ∀ q ∈ L, p ≠ q → validated h p → validated h q → Compatible s h p q)
    (hcover : ∀ p ∈ L, validated h p = false ↔ p ∈ order) :
    (∀ p ∈ order, p ∈ L → SiblingValid s env options h L p) ↔
      (∀ p ∈ order, p ∈ L → ∀ n ∈ h.read? p, LocalValid s env options h p n) ∧
        ∀ p ∈ L, ∀ q ∈ L, p ≠ q → Compatible s h p q := by
  refine ⟨fun hv => ⟨fun p hp hpL => (hv p hp hpL).1, fun p hp q hq hpq => ?_⟩,
    fun ⟨hloc, hcomp⟩ p hp hpL => ⟨hloc p hp hpL, fun q hq hqp => hcomp p hpL q hq (Ne.symm hqp)⟩⟩
  -- a pair with a node of the pass was checked there; the others were compatible already
  have hvalid : ∀ x ∈ L, x ∉ order → validated h x := fun x hx hxo => by
    cases hvx : validated h x
    · exact absurd ((hcover x hx).mp hvx) hxo
    · rfl
  by_cases hpo : p ∈ order
  · exact (hv p hpo hp).2 q hq (Ne.symm hpq)
  · by_cases hqo : q ∈ order
    · exact ((hv q hqo hq).2 p hp hpq).symm
    · exact hclean p hp q hq hpq (hvalid p hp hpo) (hvalid q hq hqo)

/-- **The outcome of a content pass does not depend on the order.** Outside filter, get and
get-config data, in a schema whose cases sit in choices, take a sibling ring `L` whose nodes
instantiate schema nodes that are not cases and whose children form rings, with
`ly_check_mandatory` naming only schema nodes that have a parent and reading no flag, and the
types of its leaves deriving from typedefs of the schema. Let the validated siblings be
compatible, and let the caller run `lyv_data_content` once on each node still to be validated, in
any order, clearing the `validity` of each node that passes. Then no call faults, and every call
succeeds exactly when each of these nodes passes its own checks and any two siblings are
compatible. -/
theorem contentPass_accepts {env : Env} {options : LydOptions} {st : VState} {par : Option Ptr}
    {L : List Ptr} (hf : options.filter = false) (hg : options.get = false)
    (hgc : options.getconfig = false) (hcase : s.CasesInChoices) (hr : Ring st.heap par L)
    (hd : DataNodes s st.heap L) (hkids : ∀ p ∈ L, ∃ C, Ring st.heap (some p) C)
    (hmand : ∀ p ∈ L, ∀ si ∈ env.lyCheckMandatory st.heap p, (s.get si).parent ≠ none)
    (hmandFlags : ∀ h h', ClearsFlags h h' → env.lyCheckMandatory h' = env.lyCheckMandatory h)
    (htype : ∀ p ∈ L, ∀ n ∈ st.heap.read? p, ∀ t ∈ (s.get n.schema).typeDer,
      t < s.tpdfs.length)
    (hclean : ∀ p ∈ L, ∀ q ∈ L, p ≠ q → validated st.heap p → validated st.heap q →
      Compatible s st.heap p q)
    {order : List Ptr} (hnodup : order.Nodup) (horder : ∀ p ∈ order, p ∈ L)
    (hcover : ∀ p ∈ L, validated st.heap p = false ↔ p ∈ order) :
    ∃ rs st', (validationPass s env options (order.map .content)).run st = .ok (rs, st') ∧
      ((∀ r ∈ rs, r = .ok) ↔
        (∀ p ∈ order, ∀ n ∈ st.heap.read? p, LocalValid s env options st.heap p n) ∧
          ∀ p ∈ L, ∀ q ∈ L, p ≠ q → Compatible s st.heap p q) := by
  have hRs : ∀ R ∈ [(par, L)], RingOk s env st.heap R.1 R.2 := fun R hR => by
    rw [List.mem_singleton.mp hR]; exact ⟨hr, hd, hkids, hmand, htype⟩
  obtain ⟨rs, st', hrun, hiff⟩ := contentPass_outcome hf (by simp [hg, hgc]) hcase hmandFlags hRs
    (by simp) order (.refl _) hnodup (fun p hp => ⟨_, List.mem_singleton_self _, horder p hp⟩)
    (by simpa using hcover)
  refine ⟨rs, st', hrun, hiff.trans ?_⟩
  simp only [List.mem_singleton, forall_eq]
  rw [siblingValid_iff hclean hcover]
  exact and_congr_left' ⟨fun h p hp => h p hp (horder p hp), fun h p hp _ => h p hp⟩

/-- The two instances of the shorthand-case list of `choiceSchema`, validated in reverse order:
the pass does not succeed, as the two are in one shorthand case. -/
theorem contentPass_accepts_shorthand :
    ∃ rs st', (validationPass choiceSchema quietEnv {} ([2, 0].map .content)).run
        { heap := twoInstancesHeap 1 2 } = .ok (rs, st') ∧ ∃ r ∈ rs, r ≠ .ok :=
  let ⟨rs, st', hrun, hiff⟩ := @contentPass_accepts choiceSchema quietEnv {}
    { heap := twoInstancesHeap 1 2 } none [0, 2] rfl rfl rfl (by decide) (by decide) (by decide)
    (fun p hp => by
      simp only [List.mem_cons, List.mem_singleton, List.not_mem_nil, or_false] at hp
      rcases hp with rfl | rfl
      · exact ⟨[1], by decide⟩
      · exact ⟨[3], by decide⟩)
    (fun _ _ _ h => nomatch h) (fun _ _ _ => rfl) (by decide)
    (fun p hp _ _ _ hvp => absurd hvp (by
      simp only [List.mem_cons, List.mem_singleton, List.not_mem_nil, or_false] at hp
      rcases hp with rfl | rfl <;> decide))
    [2, 0] (by decide) (by decide) (by decide)
  ⟨rs, st', hrun, Classical.byContradiction fun h =>
    ((hiff.mp fun r hr => Classical.byContradiction fun hne => h ⟨r, hr, hne⟩).2 0 (by decide) 2
      (by decide) (by decide)).2 _ rfl _ rfl 0 (by decide)⟩

/-- **Validating a tree.** Outside filter, get and get-config data, in a schema whose cases sit in
choices, take sibling rings `Rs` that share no node, each of them a ring whose checks end without
fault (`RingOk`), with `ly_check_mandatory` reading no flag, and in each ring let the validated
siblings be compatible. Let the caller run `lyv_data_content` once on each node still to be
validated, in any order across the rings (bottom-up, as a parser does, or any other), clearing the
`validity` of each node that passes. Then no call faults, and every call succeeds exactly when, in
every ring, each such node passes its own checks and any two siblings are compatible. -/
theorem treePass_accepts {env : Env} {options : LydOptions} {st : VState}
    {Rs : List (Option Ptr × List Ptr)} (hf : options.filter = false) (hg : options.get = false)
    (hgc : options.getconfig = false) (hcase : s.CasesInChoices)
    (hRs : ∀ R ∈ Rs, RingOk s env st.heap R.1 R.2)
    (hdisj : (Rs.map Prod.snd).Pairwise List.Disjoint)
    (hmandFlags : ∀ h h', ClearsFlags h h' → env.lyCheckMandatory h' = env.lyCheckMandatory h)
    (hclean : ∀ R ∈ Rs, ∀ p ∈ R.2, ∀ q ∈ R.2, p ≠ q → validated st.heap p →
      validated st.heap q → Compatible s st.heap p q)
    {order : List Ptr} (hnodup : order.Nodup) (horder : ∀ p ∈ order, ∃ R ∈ Rs, p ∈ R.2)
    (hcover : ∀ R ∈ Rs, ∀ p ∈ R.2, validated st.heap p = false ↔ p ∈ order) :
    ∃ rs st', (validationPass s env options (order.map .content)).run st = .ok (rs, st') ∧
      ((∀ r ∈ rs, r = .ok) ↔ ∀ R ∈ Rs,
        (∀ p ∈ order, p ∈ R.2 → ∀ n ∈ st.heap.read? p, LocalValid s env options st.heap p n) ∧
          ∀ p ∈ R.2, ∀ q ∈ R.2, p ≠ q → Compatible s st.heap p q) := by
  obtain ⟨rs, st', hrun, hiff⟩ := contentPass_outcome hf (by simp [hg, hgc]) hcase hmandFlags hRs
    hdisj order (.refl _) hnodup horder hcover
  refine ⟨rs, st', hrun, hiff.trans ⟨fun hv R hR => ?_, fun hv p hp R hR hpR => ?_⟩⟩
  · exact (siblingValid_iff (hclean R hR) (hcover R hR)).mp fun p hp hpR => hv p hp R hR hpR
  · exact (siblingValid_iff (hclean R hR) (hcover R hR)).mpr (hv R hR) p hp hpR

/-- The two entries of the list `l2` of `choiceSchema` (0 and 2) with their keys `k2 = 1` (1) and
`k2 = 2` (3), all four still to be validated. -/
def entriesHeap : Heap :=
  [some { schema := 4, next := some 2, prev := 2, child := some 1, validity := true },
   some { schema := 5, parent := some 0, prev := 1, valueStr := some 1, validity := true },
   some { schema := 4, prev := 0, child := some 3, validity := true },
   some { schema := 5, parent := some 2, prev := 3, valueStr := some 2, validity := true }]

/-- The entries and their keys validated bottom-up, each key before its entry: the pass moves
between the three rings of the tree and ends without fault. -/
theorem treePass_accepts_entries :
    ∃ rs st', (validationPass choiceSchema quietEnv {} ([1, 0, 3, 2].map .content)).run
        { heap := entriesHeap } = .ok (rs, st') :=
  have hvalid : ∀ R ∈ ([(none, [0, 2]), (some 0, [1]), (some 2, [3])] :
      List (Option Ptr × List Ptr)), ∀ p ∈ R.2, validated entriesHeap p = false := by decide
  let ⟨rs, st', hrun, _⟩ := @treePass_accepts choiceSchema quietEnv {} { heap := entriesHeap }
    [(none, [0, 2]), (some 0, [1]), (some 2, [3])] rfl rfl rfl (by decide)
    (by
      simp only [List.mem_cons, List.mem_singleton, List.not_mem_nil, or_false]
      rintro R (rfl | rfl | rfl)
      · refine ⟨by decide, by decide, fun p hp => ?_, fun _ _ _ h => (nomatch h), by decide⟩
        simp only [List.mem_cons, List.mem_singleton, List.not_mem_nil, or_false] at hp
        rcases hp with rfl | rfl
        · exact ⟨[1], by decide⟩
        · exact ⟨[3], by decide⟩
      · exact ⟨by decide, by decide, fun p hp => ⟨[], by rw [List.mem_singleton.mp hp]; decide⟩,
          fun _ _ _ h => (nomatch h), by decide⟩
      · exact ⟨by decide, by decide, fun p hp => ⟨[], by rw [List.mem_singleton.mp hp]; decide⟩,
          fun _ _ _ h => (nomatch h), by decide⟩)
    (by simp [List.Disjoint]) (fun _ _ _ => rfl)
    (fun R hR p hp _ _ _ hvp => absurd hvp (by rw [hvalid R hR p hp]; decide))
    [1, 0, 3, 2] (by decide) (by decide) (by decide)
  ⟨rs, st', hrun⟩

end YangValidation
