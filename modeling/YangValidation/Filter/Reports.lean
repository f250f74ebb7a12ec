import YangValidation.Checks
import YangValidation.Pass

/-!
# What filter mode reports

In filter mode (`LYD_OPT_FILTER`) `lyv_data_content` skips the checks that judge the shape of the
data (keys, mandatory children, cases of a choice), and a duplicate is not an error but a
redundant selection, merged into its twin, freed or discarded. The only errors left are those of
the status check: an obsolete schema node (`LYE_OBSDATA`), an obsolete typedef (`LYE_OBSTYPE`)
and an identity value `lyp_check_status` refuses.

Filter mode changes the tree as it goes (`filter_merge`, `lyd_free`), so the judgement here
constrains no state: `Ends P c` says that every early return of `c`, run from any state, satisfies
`P`. As `Reads`, it has one rule per way a check is built.
-/

namespace YangValidation

variable (s : Schema)

/-! ## The judgement -/

/-- Run from any state, the check `c` ends the call only with a result satisfying `P`. -/
def Ends {α : Type} (P : VResult → Prop) (c : Check α) : Prop :=
  ∀ st v st', c.run.run st = .ok (.error v, st') → P v

namespace Ends

variable {α β : Type} {P : VResult → Prop}

theorem pure {a : α} : Ends P (Pure.pure a : Check α) :=
  fun _ _ _ h => by cases h

theorem throw {v : VResult} (h : P v) : Ends P (MonadExcept.throw v : Check α) :=
  fun _ _ _ hv => by cases hv; exact h

theorem bind {c : Check α} {f : α → Check β} (hc : Ends P c) (hf : ∀ a, Ends P (f a)) :
    Ends P (c >>= f) := fun st v st' h => by
  rw [ExceptT.run_bind] at h
  obtain ⟨a, st₁, h₁, h₂⟩ := run_bind_ok h
  cases a with
  | ok a => exact hf a st₁ v st' h₂
  | error w => cases h₂; exact hc st v st' h₁

/-- A step of the validation state, whatever it does to the tree, ends nothing. -/
theorem lift (m : VM α) : Ends P (ExceptT.lift m) := fun st v st' h => by
  simp only [ExceptT.run_lift, StateT.run_map] at h
  rcases h₁ : m.run st with e | ⟨a, st₁⟩ <;> rw [h₁] at h <;> cases h

theorem get : Ends P (MonadState.get : Check VState) :=
  fun _ _ _ h => by cases h

theorem ite {b : Prop} [Decidable b] {c d : Check α} (hc : Ends P c) (hd : Ends P d) :
    Ends P (if b then c else d) := by
  split <;> assumption

/-- A check that only reads, from every state, ends only as it reads. -/
theorem ite_neg {b : Prop} [Decidable b] {c d : Check α} (hb : ¬b) (hd : Ends P d) :
    Ends P (if b then c else d) := by
  rwa [if_neg hb]

theorem of_reads {c : Check α} {Q : LyVErr → Prop} (h : ∀ st, Reads st (FailsWith Q) c) :
    Ends (fun v => ∃ e, v = .fail e ∧ Q e) c :=
  fun st _ st' hv => (h st _ st' hv).2

end Ends

/-! ## The checks in filter mode -/

/-- The results of `lyv_data_content` in filter mode: success, a discard, or a status error. -/
def FilterReport : VResult → Prop
  | .fail e => e.isStatus = true
  | _ => True

/-- A content step of a pass returns what its call of `lyv_data_content` returned. -/
theorem contentStep_result {env : Env} {options : LydOptions} {p : Ptr} {st : VState}
    {r : VResult} {st' : VState} (h : (contentStep s env options p).run st = .ok (r, st')) :
    ∃ st₁, (lyvDataContent s env options p).run st = .ok (r, st₁) := by
  obtain ⟨r₁, st₁, h₁, h₂⟩ := run_bind_ok h
  refine ⟨st₁, ?_⟩
  cases r₁ <;> obtain ⟨_, _, -, h₃⟩ := run_bind_ok h₂ <;> cases h₃ <;> exact h₁

variable {env : Env} {options : LydOptions} {node : Ptr} {n : LydNode}
  (hfilter : options.filter = true)
include hfilter

theorem ends_keysCheck (schema : Nat) : Ends FilterReport (keysCheck s options node schema) :=
  .ite_neg (by simp [hfilter]) .pure

theorem ends_mandatoryCheck (schema : Nat) :
    Ends FilterReport (mandatoryCheck s env options node schema) :=
  .ite_neg (by simp [hfilter]) .pure

theorem ends_singleDuplicate (diter : Ptr) (dn : LydNode) :
    Ends FilterReport (singleDuplicate s options node n diter dn) := by
  rw [singleDuplicate, if_pos hfilter]
  split
  · -- a container: merged into its twin, or one of the two is dropped
    refine .bind (.lift _) fun _ => .ite (.bind .get fun _ => .bind (.lift _) fun _ =>
      .throw trivial) (.ite (.throw trivial) (.ite ?_ (.bind .pure fun _ => .throw trivial)))
    exact .bind (.lift _) fun _ => .throw trivial
  · exact .ite (.bind (.lift _) fun _ => .throw trivial) (.ite (.throw trivial) .pure)
  · exact .throw trivial
  · exact .pure

theorem ends_scanInstances :
    ∀ R, Ends FilterReport (scanInstances s options node n R)
  | [] => .pure
  | (diter, dn) :: rest => by
    have ih := ends_scanInstances rest
    rw [scanInstances, if_pos hfilter]
    refine .ite ih (.bind (.lift _) fun _ => .ite ?_ (.ite ?_ ih))
    · -- an equal instance: the node is merged into it and discarded
      exact .bind .get fun _ => .bind (.lift _) fun _ => .throw trivial
    · -- a leaf-list instance: a selection is freed, or the node discarded
      exact .ite (.lift _) (.ite (.throw trivial) ih)

theorem ends_uniqueCheck (start : Option Ptr) :
    Ends FilterReport (uniqueCheck s options node n start) := by
  have hscan : ∀ first, Ends FilterReport
      ((liftM (treeFor first) : Check _) >>= scanInstances s options node n) :=
    fun _ => .bind (.lift _) (ends_scanInstances s hfilter)
  refine .ite (.bind (.lift _) fun R => ?_)
    (.ite (.ite (.bind .pure hscan) (.bind (.lift _) fun _ => .bind .pure hscan)) .pure)
  split
  · exact .pure
  · exact ends_singleDuplicate s hfilter _ _

theorem ends_validityChecks :
    Ends FilterReport (validityChecks s env options node n) := by
  have hstatus : Ends FilterReport (statusCheck s env options n) := fun st v st' h => by
    obtain ⟨e, rfl, he⟩ := Ends.of_reads (fun _ => reads_statusCheck s env options n) st v st' h
    exact he
  refine .ite (.bind (ends_keysCheck s hfilter _) fun _ => .bind (ends_mandatoryCheck s hfilter _)
    fun _ => .bind (.lift _) fun _ => .ite_neg (by simp [hfilter]) ?_) .pure
  exact .bind .pure fun _ => .bind (ends_uniqueCheck s hfilter _) fun _ => hstatus

/-- In filter mode a call of `lyv_data_content` gives success, a discard or a status error. -/
theorem lyvDataContent_filterReport {st : VState} {r : VResult} {st' : VState}
    (h : (lyvDataContent s env options node).run st = .ok (r, st')) : FilterReport r := by
  obtain ⟨n, -, x, st₁, hx, hr⟩ := lyvDataContent_inv s h
  cases x with
  | error v => exact hr.1 ▸ ends_validityChecks s hfilter st v st₁ hx
  | ok => exact hr.1 ▸ trivial

/-- **Filter mode reports only status errors.** Over any pass of `lyv_data_content` calls in
filter mode, from any state, every call ends in success, in a discard or in a status error: never
in an error on keys, mandatory children, cases or duplicates. -/
theorem filterPass_reports :
    ∀ (ps : List Ptr) {st : VState} {rs : List VResult} {st' : VState},
      (validationPass s env options (ps.map .content)).run st = .ok (rs, st') →
        ∀ r ∈ rs, FilterReport r
  | [], _, _, _, h => by cases h; exact fun _ h => nomatch h
  | p :: ps, _, _, _, h => by
    obtain ⟨r, st₁, h₁, h₂⟩ := run_bind_ok h
    obtain ⟨rs, st₂, h₂, h₃⟩ := run_bind_ok h₂
    cases h₃
    obtain ⟨_, h₁⟩ := contentStep_result s h₁
    exact List.forall_mem_cons.mpr
      ⟨lyvDataContent_filterReport s hfilter h₁, filterPass_reports ps h₂⟩

omit hfilter

/-- Two filter leaves `x = 1` and `x = 2` of an obsolete leaf, with obsolete data refused: each
call reports the obsolete schema node. -/
theorem filterPass_reports_obsolete :
    ∃ rs st', (validationPass obsoleteSchema quietEnv { filter := true, obsolete := true }
        ([0, 2].map .content)).run { heap := leavesHeap } = .ok (rs, st') ∧
      rs = [.fail (.obsdata "x"), .fail (.obsdata "x")] ∧ ∀ r ∈ rs, FilterReport r :=
  ⟨_, _, rfl, rfl, @filterPass_reports obsoleteSchema quietEnv
    { filter := true, obsolete := true } rfl [0, 2] { heap := leavesHeap } _ _ rfl⟩

end YangValidation
