import YangValidation.Content

/-!
# The choice check

A `choice` lets a data tree hold the nodes of one of its `case`s only. `lyv_data_content` checks
this for each node it validates (lines 450–491): it climbs from the node's schema through the
choices and cases above it, and at each choice `ch` it walks up from the schema of every other
sibling, looking for `ch` or for a case of `ch` other than the node's own case `cs`.

What the two nested walks decide is a property of the schema tree alone. `branchOf s c x` is the
node just below choice `c` on the way up from `x`, when `c` is reached through choices and cases
only: the explicit case `x` lies in, or, in a shorthand case, `x` itself. Then:

* **The sibling walk** (`caseConflict_eq`) finds a conflict at `c` exactly when the sibling lies
  under `c` and not in the explicit case of the node (`caseClash`).
* **The check** (`choiceCheck_run`, `choiceCheck_spec`) reads only, never faults, and passes
  exactly when no sibling has a `caseClash` with the node at any choice above it; when it fails it
  names the innermost such choice.

`caseClash` is the rule the code enforces, and it is not the YANG rule that no two siblings lie in
different cases of a choice. Two nodes in one shorthand case clash, since the node's own `cs` is
NULL there and every sibling under `ch` counts as another case. And both climbs (lines 455 and
470–490) stop at any schema node that is neither a choice nor a case, such as a `uses` or an
`augment`: a node below one sees no choice above it (`not_caseClash_of_parent`).
-/

namespace YangValidation

variable (s : Schema)

/-! ## Where a schema node lies under a choice -/

/-- Climbing at most `f` parents from `x`: the node just below `c`, provided every node passed on
the way is a choice or a case. -/
def branchFrom (c : Nat) : Nat → Nat → Option Nat
  | 0, _ => none
  | f + 1, x =>
    match (s.get x).parent with
    | none => none
    | some p =>
      if p = c then some x
      else if s.kind p = .choice ∨ s.kind p = .case then branchFrom c f p else none

/-- The branch of `c` in which schema node `x` lies: the node just below `c` on the way up from
`x`, when `c` is reached through choices and cases only. -/
def branchOf (c x : Nat) : Option Nat := branchFrom s c (x + 1) x

/-- Schema nodes `x` and `y` both reach choice `c` through choices and cases only, and not in one
explicit case of it. -/
def caseClash (c x y : Nat) : Prop :=
  s.kind c = .choice ∧ ∃ a ∈ branchOf s c x, ∃ b ∈ branchOf s c y, ¬(a = b ∧ s.kind a = .case)

instance (c x y : Nat) : Decidable (caseClash s c x y) :=
  inferInstanceAs (Decidable (s.kind c = .choice ∧
    ∃ a ∈ branchOf s c x, ∃ b ∈ branchOf s c y, ¬(a = b ∧ s.kind a = .case)))

/-- Every case of the schema sits in a choice. -/
def Schema.CasesInChoices : Prop :=
  ∀ i < s.nodes.length, s.kind i = .case → ∃ c ∈ (s.get i).parent, s.kind c = .choice

instance : Decidable s.CasesInChoices :=
  inferInstanceAs (Decidable (∀ i < s.nodes.length,
    s.kind i = .case → ∃ c ∈ (s.get i).parent, s.kind c = .choice))

/-- At choice `c`, a sibling other than `node` among `R` has a `caseClash` with schema node
`x`. -/
def ConflictAt (node : Ptr) (R : List (Ptr × LydNode)) (x c : Nat) : Prop :=
  ∃ d ∈ R, d.1 ≠ node ∧ caseClash s c x d.2.schema

instance (node : Ptr) (R : List (Ptr × LydNode)) (x c : Nat) : Decidable (ConflictAt s node R x c) :=
  inferInstanceAs (Decidable (∃ d ∈ R, d.1 ≠ node ∧ caseClash s c x d.2.schema))

variable {s}

theorem branchFrom_congr {c : Nat} (f : Nat) : ∀ {g x : Nat},
    (∀ p, (s.get x).parent = some p → p < f ∧ p < g) →
      branchFrom s c (f + 1) x = branchFrom s c (g + 1) x := by
  induction f with
  | zero =>
    intro g x h
    cases hp : (s.get x).parent with
    | none => simp [branchFrom, hp]
    | some p => exact absurd (h p hp).1 (Nat.not_lt_zero p)
  | succ f ih =>
    intro g x h
    cases hp : (s.get x).parent with
    | none => simp [branchFrom, hp]
    | some p =>
      obtain ⟨hpf, hpg⟩ := h p hp
      obtain ⟨g, rfl⟩ : ∃ g', g = g' + 1 := ⟨g - 1, by omega⟩
      have hq : ∀ q, (s.get p).parent = some q → q < f ∧ q < g := fun q hq => by
        have := Schema.get_parent_lt hq; omega
      rw [branchFrom, branchFrom, hp]
      simp only [ih hq]

/-- Fuel beyond the parents of `x` changes nothing. -/
theorem branchFrom_eq_branchOf {c f x : Nat} (h : ∀ p, (s.get x).parent = some p → p < f) :
    branchFrom s c (f + 1) x = branchOf s c x :=
  branchFrom_congr f fun p hp => ⟨h p hp, Schema.get_parent_lt hp⟩

/-- One step up from `x`. -/
theorem branchOf_eq (c x : Nat) : branchOf s c x =
    match (s.get x).parent with
    | none => none
    | some p =>
      if p = c then some x
      else if s.kind p = .choice ∨ s.kind p = .case then branchOf s c p else none := by
  cases hp : (s.get x).parent with
  | none => simp [branchOf, branchFrom, hp]
  | some p =>
    obtain ⟨y, rfl⟩ : ∃ y, x = y + 1 := ⟨x - 1, by have := Schema.get_parent_lt hp; omega⟩
    have hq : ∀ q, (s.get p).parent = some q → q < y := fun q hq => by
      have := Schema.get_parent_lt hq; have := Schema.get_parent_lt hp; omega
    rw [branchOf, branchFrom, hp]
    simp only [← branchFrom_eq_branchOf hq]

/-- A choice that `x` lies under is above `x`. -/
theorem branchOf_lt {c a : Nat} : ∀ {x : Nat}, branchOf s c x = some a → c < x := by
  intro x
  induction x using Nat.strong_induction_on with
  | _ x ih =>
    intro h
    rw [branchOf_eq] at h
    split at h
    · cases h
    · next p hp =>
      have hpx := Schema.get_parent_lt hp
      split_ifs at h
      · omega
      · exact lt_trans (ih p hpx h) hpx

theorem branchOf_self (c : Nat) : branchOf s c c = none := by
  cases h : branchOf s c c
  · rfl
  · exact absurd (branchOf_lt h) (lt_irrefl c)

theorem caseClash_comm {c x y : Nat} : caseClash s c x y ↔ caseClash s c y x := by
  have h : ∀ x y, caseClash s c x y → caseClash s c y x := by
    rintro x y ⟨hc, a, ha, b, hb, hne⟩
    exact ⟨hc, b, hb, a, ha, fun ⟨hba, hk⟩ => hne ⟨hba.symm, hba ▸ hk⟩⟩
  exact ⟨h x y, h y x⟩

/-- Both climbs stop at a parent that is neither a choice nor a case, such as a `uses` or an
`augment`: a schema node below one clashes with no sibling at any choice. -/
theorem not_caseClash_of_parent {c x y p : Nat} (hp : (s.get x).parent = some p)
    (hk : s.kind p ≠ .choice) (hk' : s.kind p ≠ .case) : ¬caseClash s c x y := by
  rintro ⟨hc, a, ha, -⟩
  have hpc : p ≠ c := fun h => hk (h ▸ hc)
  rw [branchOf_eq, hp] at ha
  simp [hpc, hk, hk'] at ha

/-- `choice ch { case A { uses g { leaf x } } case B { leaf y } }`. -/
def usesSchema : Schema :=
  { nodes := [{ name := "ch", nodetype := .choice },
      { name := "A", nodetype := .case, parent := some 0 },
      { name := "g", nodetype := .other, parent := some 1 },
      { name := "x", nodetype := .leaf, parent := some 2 },
      { name := "B", nodetype := .case, parent := some 0 },
      { name := "y", nodetype := .leaf, parent := some 4 }] }

/- `x` and `y` lie in different cases of `ch`, yet neither climb reaches `ch` from `x`. -/
example : ¬caseClash usesSchema 0 3 5 ∧ ¬caseClash usesSchema 0 5 3 := by decide

/-! ## The sibling walk -/

variable (s) in
/-- **The sibling walk.** Started from the parent of schema node `x`, the walk at choice `ch`
reports a conflict exactly when `x` lies under `ch` and not in the case `cs`. -/
theorem caseConflict_eq {ch : Nat} (cs : Option Nat) (hch : s.kind ch = .choice) (f : Nat) :
    ∀ x, (∀ p, (s.get x).parent = some p → p < f) →
      (s.kind x = .case → (s.get x).parent ≠ some ch) →
      caseConflict s ch cs f (s.get x).parent =
        .ok (decide (∃ b ∈ branchOf s ch x, s.kind b = .case → cs ≠ some b)) := by
  induction f with
  | zero =>
    intro x hf _
    cases hp : (s.get x).parent with
    | none => simp [caseConflict, branchOf_eq ch x, hp]
    | some p => exact absurd (hf p hp) (Nat.not_lt_zero p)
  | succ f ih =>
    intro x hf hx
    rw [branchOf_eq]
    cases hp : (s.get x).parent with
    | none => simp [caseConflict]
    | some p =>
      have hrec := ih p fun q hq => by have := Schema.get_parent_lt hq; have := hf p hp; omega
      have hkp : s.kind p = (s.get p).nodetype := rfl
      simp only [caseConflict]
      split
      · next hk =>
        -- a choice: `ch` itself, or one the walk passes
        by_cases hpc : p = ch
        · have hkx : s.kind x ≠ .case := fun h => hx h (hp.trans (congrArg some hpc))
          simp [hpc, hkx]
        · simp only [if_neg hpc, if_pos (Or.inl (hkp.trans hk) : s.kind p = .choice ∨ _)]
          exact hrec fun h => absurd (h.symm.trans (hkp.trans hk)) (by decide)
      · next hk =>
        -- a case: one of `ch`, or one the walk passes
        have hpc : p ≠ ch := fun h => absurd ((hkp.trans hk).symm.trans (h ▸ hch)) (by decide)
        simp only [if_neg hpc, if_pos (Or.inr (hkp.trans hk) : _ ∨ s.kind p = .case)]
        split
        · next hpp => exact hrec fun _ => hpp
        · next hpp =>
          rw [not_not] at hpp
          simp [branchOf_eq ch p, hpp, hkp.trans hk]
      · next hk1 hk2 =>
        have hpc : p ≠ ch := fun h => hk1 (hkp.symm.trans (h ▸ hch))
        have hcc : ¬(s.kind p = .choice ∨ s.kind p = .case) := fun h => h.elim hk1 hk2
        simp [hpc, hcc]

variable (s) in
/-- The loop over the siblings at choice `ch`: some sibling other than `node` is in conflict. -/
theorem anyCaseConflict_eq (node : Ptr) {ch : Nat} (cs : Option Nat) (hch : s.kind ch = .choice) :
    ∀ R : List (Ptr × LydNode), (∀ d ∈ R, s.kind d.2.schema ≠ .case) →
      anyCaseConflict s node ch cs R = .ok (decide (∃ d ∈ R, d.1 ≠ node ∧
        ∃ b ∈ branchOf s ch d.2.schema, s.kind b = .case → cs ≠ some b))
  | [], _ => by simp [anyCaseConflict]
  | d :: R, hR => by
    have ih := anyCaseConflict_eq node cs hch R fun e he => hR e (List.mem_cons_of_mem _ he)
    have hd := caseConflict_eq s cs hch s.nodes.length d.2.schema
      (fun _ hp => Schema.get_parent_lt_length hp) fun h => absurd h (hR d (List.mem_cons_self _ _))
    by_cases hdn : d.1 = node
    · simp only [anyCaseConflict, hdn, ite_true, ih, List.exists_mem_cons_iff, ne_eq,
        not_true_eq_false, false_and, false_or]
    · simp only [anyCaseConflict, if_neg hdn, hd, except_ok_bind]
      by_cases hc : ∃ b ∈ branchOf s ch d.2.schema, s.kind b = .case → cs ≠ some b
      · simp only [hc, decide_True, if_true, except_pure]
        exact congrArg _ (decide_eq_true ⟨d, List.mem_cons_self _ _, hdn, hc⟩).symm
      · simp only [hc, decide_False, Bool.false_eq_true, if_false, ih, List.exists_mem_cons_iff,
          hdn, ne_eq, not_false_eq_true, true_and, false_or]

/-- What the sibling walk tests at choice `c`, `a` being the branch of `x` and `cs` the case the
code keeps for it (NULL in a shorthand case): a `caseClash` of `x` and `y`. -/
theorem levelConflict_iff {c x y a : Nat} {cs : Option Nat} (hc : s.kind c = .choice)
    (ha : branchOf s c x = some a) (hcs : cs = if s.kind a = .case then some a else none) :
    (∃ b ∈ branchOf s c y, s.kind b = .case → cs ≠ some b) ↔ caseClash s c x y := by
  simp only [caseClash, hc, true_and, ha, Option.mem_def, Option.some_inj, exists_eq_left']
  refine exists_congr fun b => and_congr_right fun _ => ?_
  subst hcs
  by_cases hab : a = b
  · subst hab; by_cases hk : s.kind a = .case <;> simp [hk]
  · by_cases hk : s.kind a = .case <;> simp [hk, hab]

/-! ## The loop over the choices above the node -/

/-- One turn of the loop at `x`, whose parent `par` is the choice `c0` or a case of `c0`: the
siblings are walked at `c0` with the node's case `cs`, and the loop stops there or goes on from
`c0`. -/
theorem choiceCheck_level {node : Ptr} {start : Option Ptr} {f x par c0 : Nat} {cs : Option Nat}
    {st : VState} {R : List (Ptr × LydNode)} {b : Bool} (hp : (s.get x).parent = some par)
    (hlev : (s.kind par = .choice ∧ cs = none ∧ c0 = par) ∨
      (s.kind par = .case ∧ cs = some par ∧ (s.get par).parent = some c0))
    (hR : siblings st.heap st.heap.length start = .ok R)
    (hb : anyCaseConflict s node c0 cs R = .ok b) :
    (choiceCheck s node start (f + 1) x).run.run st =
      if b then .ok (.error (.fail (.mcasedata (s.get c0).name)), st)
      else (choiceCheck s node start f c0).run.run st := by
  have hkp : s.kind par = (s.get par).nodetype := rfl
  rcases hlev with ⟨hk, rfl, rfl⟩ | ⟨hk, rfl, hc⟩
  · simp only [choiceCheck, hp, ← hkp, hk, true_or, if_true, pure_bind]
    rw [Check.run_bind_ok (Check.run_treeFor hR), Check.run_bind_ok (Check.run_liftC hb)]
    cases b <;> rfl
  · simp only [choiceCheck, hp, ← hkp, hk, reduceCtorEq, or_true, if_true, if_false, hc, pure_bind]
    rw [Check.run_bind_ok (Check.run_treeFor hR), Check.run_bind_ok (Check.run_liftC hb)]
    cases b <;> rfl

/-- Where the loop goes from `x`, whose parent `par` is a choice or a case: the choice `c0` it
checks, with the branch `a` of `x` at `c0` and the case `cs` the code keeps for it; `c0` is where
the loop goes on, and above `c0` the branches of `x` and of `c0` are the same. -/
theorem choiceLevel (hcase : s.CasesInChoices) {x par : Nat} (hk : s.kind x ≠ .case)
    (hp : (s.get x).parent = some par) (hpc : s.kind par = .choice ∨ s.kind par = .case) :
    ∃ a cs c0, ((s.kind par = .choice ∧ cs = none ∧ c0 = par) ∨
        (s.kind par = .case ∧ cs = some par ∧ (s.get par).parent = some c0)) ∧
      branchOf s c0 x = some a ∧ (cs = if s.kind a = .case then some a else none) ∧
      s.kind c0 = .choice ∧ c0 < x ∧
      ∀ c, s.kind c = .choice → c ≠ c0 → branchOf s c x = branchOf s c c0 := by
  have hpx := Schema.get_parent_lt hp
  rcases hpc with hch | hcs
  · refine ⟨x, none, par, .inl ⟨hch, rfl, rfl⟩, by simp [branchOf_eq par x, hp], by simp [hk],
      hch, hpx, fun c _ hc => ?_⟩
    rw [branchOf_eq c x, hp]
    simp [Ne.symm hc, hch]
  · obtain ⟨c0, hc0, hch⟩ := hcase par (Schema.get_parent_lt_length hp) hcs
    have hpc0 : par ≠ c0 := fun h => absurd (hcs.symm.trans (h ▸ hch)) (by decide)
    have hc0' : (s.get par).parent = some c0 := hc0
    refine ⟨par, some par, c0, .inr ⟨hcs, rfl, hc0'⟩, ?_, by simp [hcs], hch,
      lt_trans (Schema.get_parent_lt hc0') hpx, fun c hcc hc => ?_⟩
    · rw [branchOf_eq c0 x, hp]
      simp [hpc0, hcs, branchOf_eq c0 par, hc0']
    · have hpc : par ≠ c := fun h => absurd (hcs.symm.trans (h ▸ hcc)) (by decide)
      rw [branchOf_eq c x, hp]
      simp only [if_neg hpc, hcs, or_true, if_true]
      rw [branchOf_eq c par, hc0']
      simp [Ne.symm hc, hch]

theorem conflictAt_congr {node : Ptr} {R : List (Ptr × LydNode)} {x y c : Nat}
    (h : s.kind c = .choice → branchOf s c x = branchOf s c y) :
    ConflictAt s node R x c ↔ ConflictAt s node R y c := by
  unfold ConflictAt caseClash
  constructor <;> rintro ⟨d, hd, hdn, hc, hx⟩ <;> exact ⟨d, hd, hdn, hc, by rwa [h hc] at *⟩

/-- The loop from any schema node `x` that is not a case, given more fuel than `x`: it reads only
and never faults, passes exactly when no choice above `x` has a sibling in conflict, and otherwise
names the innermost such choice. -/
theorem choiceCheck_run (hcase : s.CasesInChoices) {st : VState} {node : Ptr}
    {start : Option Ptr} {R : List (Ptr × LydNode)}
    (hR : siblings st.heap st.heap.length start = .ok R)
    (hRk : ∀ d ∈ R, s.kind d.2.schema ≠ .case) (f : Nat) :
    ∀ x, x < f → s.kind x ≠ .case → ∃ r, (choiceCheck s node start f x).run.run st = .ok (r, st) ∧
      (r = .ok () ↔ ∀ c, ¬ConflictAt s node R x c) ∧
      ∀ v, r = .error v → ∃ c, ConflictAt s node R x c ∧ v = .fail (.mcasedata (s.get c).name) ∧
        ∀ c', ConflictAt s node R x c' → c' ≤ c := by
  induction f with
  | zero => intro x hx; exact absurd hx (Nat.not_lt_zero x)
  | succ f ih =>
    intro x hx hk
    -- no choice above `x`: no conflict, and the loop ends at once
    have hnone : (∀ c, s.kind c = .choice → branchOf s c x = none) →
        ∀ c, ¬ConflictAt s node R x c :=
      fun hb c ⟨_, _, _, hc, _, ha, _⟩ => by rw [hb c hc] at ha; cases ha
    cases hp : (s.get x).parent with
    | none =>
      exact ⟨_, by simp only [choiceCheck, hp]; rfl,
        iff_of_true rfl (hnone fun c _ => by rw [branchOf_eq, hp]), fun _ h => by cases h⟩
    | some par =>
      by_cases hpc : s.kind par = .choice ∨ s.kind par = .case
      · obtain ⟨a, cs, c0, hlev, ha, hcs, hc0, hlt, hup⟩ := choiceLevel hcase hk hp hpc
        have hlevel : (∃ d ∈ R, d.1 ≠ node ∧ ∃ b ∈ branchOf s c0 d.2.schema,
            s.kind b = .case → cs ≠ some b) ↔ ConflictAt s node R x c0 := by
          simp only [ConflictAt, levelConflict_iff hc0 ha hcs]
        rw [choiceCheck_level hp hlev hR (anyCaseConflict_eq s node cs hc0 R hRk)]
        by_cases hcon : ConflictAt s node R x c0
        · -- the loop stops at `c0`, the innermost choice in conflict
          refine ⟨.error (.fail (.mcasedata (s.get c0).name)),
            by rw [if_pos (decide_eq_true (hlevel.mpr hcon))], iff_of_false (fun h => nomatch h)
            fun h => h c0 hcon, fun v hv => ⟨c0, hcon, by cases hv; rfl, fun c' hc' => ?_⟩⟩
          by_cases hcc : c' = c0
          · exact hcc.le
          · obtain ⟨_, _, _, hk', a', ha', _⟩ := hc'
            rw [hup c' hk' hcc] at ha'
            exact (branchOf_lt ha').le
        · -- the loop goes on from `c0`, which sees the same conflicts above it
          rw [if_neg fun h => hcon (hlevel.mp (of_decide_eq_true h))]
          have hsame : ∀ c, ConflictAt s node R x c ↔ ConflictAt s node R c0 c := fun c => by
            by_cases hcc : c = c0
            · subst hcc
              refine iff_of_false hcon fun ⟨_, _, _, _, a', ha', _⟩ => ?_
              rw [branchOf_self] at ha'; cases ha'
            · exact conflictAt_congr fun hk' => hup c hk' hcc
          obtain ⟨r, hrun, hiff, herr⟩ := ih c0 (by omega) (by rw [hc0]; decide)
          simp only [hsame]
          exact ⟨r, hrun, hiff, herr⟩
      · have hkp : s.kind par = (s.get par).nodetype := rfl
        refine ⟨_, by simp only [choiceCheck, hp, ← hkp, if_neg hpc]; rfl,
          iff_of_true rfl (hnone fun c hc => ?_), fun _ h => by cases h⟩
        have hpc' : par ≠ c := fun h => hpc (.inl (h ▸ hc))
        rw [branchOf_eq, hp]
        simp only [if_neg hpc', if_neg hpc]

/-- **The choice check.** Let the siblings of `node` from `start` on be `R`, none of them an
instance of a case, in a schema whose cases sit in choices. As `lyv_data_content` runs it, from the
node's schema `x` (a node of the schema, not a case) with the schema's size as fuel, the choice
check reads only and never faults; it passes exactly when at no choice above `x` a sibling other
than `node` has a `caseClash` with `x`; and when it fails, it reports `LYE_MCASEDATA` naming the
innermost such choice. -/
theorem choiceCheck_spec (hcase : s.CasesInChoices) {st : VState} {node : Ptr}
    {start : Option Ptr} {R : List (Ptr × LydNode)}
    (hR : siblings st.heap st.heap.length start = .ok R)
    (hRk : ∀ d ∈ R, s.kind d.2.schema ≠ .case) {x : Nat} (hx : x < s.nodes.length)
    (hk : s.kind x ≠ .case) :
    ∃ r, (choiceCheck s node start s.nodes.length x).run.run st = .ok (r, st) ∧
      (r = .ok () ↔ ∀ c, ¬ConflictAt s node R x c) ∧
      ∀ v, r = .error v → ∃ c, ConflictAt s node R x c ∧ v = .fail (.mcasedata (s.get c).name) ∧
        ∀ c', ConflictAt s node R x c' → c' ≤ c :=
  choiceCheck_run hcase hR hRk _ x hx hk

/-- The two instances of the shorthand-case list `l` of `choiceSchema` in conflict: the check of
the second one fails. -/
theorem choiceCheck_spec_shorthand :
    ∃ r, (choiceCheck choiceSchema 2 (some 0) choiceSchema.nodes.length 1).run.run
        { heap := twoInstancesHeap 1 2 } = .ok (r, { heap := twoInstancesHeap 1 2 }) ∧
      r ≠ .ok () :=
  let ⟨r, hrun, hiff, _⟩ := choiceCheck_spec (R := records (twoInstancesHeap 1 2) [0, 2])
    (by decide) (by decide) (by decide) (by decide) (by decide)
  ⟨r, hrun, fun h => hiff.mp h 0 (by decide)⟩

end YangValidation
