import YangValidation.Content

/-!
# What the content checks establish

Outside filter mode the checks of `lyv_data_content` only read: each leaves the memory and the
queue as they are, and ends the call only with an error (`EXIT_FAILURE` with the error code set),
never with the silent `EXIT_FAILURE` by which filter mode asks its caller to free the node.

`Reads st Q c` is the judgement of these proofs: run from the state `st`, the check `c` leaves
the state as it is and its outcome satisfies `Q`. It has one rule per way a check is built
(sequencing, a read of the heap, an early return), so a check's lemma follows the check's code.

Of the checks, only the uniqueness check can report a duplicate (`LYE_TOOMANY`, `LYE_DUPLIST`),
and it does so exactly when a sibling clashes with the node (`UniqueOutcome`): another instance
of the same container, leaf or anyxml, or an already validated list or leaf-list instance that
`lyd_compare` finds equal.
-/

namespace YangValidation

variable (s : Schema)

/-! ## The judgement -/

/-- Run from `st`, the check `c` leaves the state as it is and its outcome satisfies `Q`. -/
def Reads {α : Type} (st : VState) (Q : Except VResult α → Prop) (c : Check α) : Prop :=
  ∀ r st', c.run.run st = .ok (r, st') → st' = st ∧ Q r

/-- The outcomes of a check that ends the call only with an error satisfying `P`. -/
def FailsWith {α : Type} (P : LyVErr → Prop) : Except VResult α → Prop
  | .ok _ => True
  | .error v => ∃ e, v = .fail e ∧ P e

namespace Reads

variable {α β : Type} {st : VState}

theorem mono {c : Check α} {Q Q' : Except VResult α → Prop} (hc : Reads st Q c)
    (hQ : ∀ r, Q r → Q' r) : Reads st Q' c :=
  fun r st' h => (hc r st' h).imp_right (hQ r)

theorem bind {c : Check α} {f : α → Check β} {Q₁ : Except VResult α → Prop}
    {Q : Except VResult β → Prop} (hc : Reads st Q₁ c) (hok : ∀ a, Q₁ (.ok a) → Reads st Q (f a))
    (herr : ∀ v, Q₁ (.error v) → Q (.error v)) : Reads st Q (c >>= f) := by
  intro r st' h
  rw [ExceptT.run_bind] at h
  obtain ⟨a, st₁, h₁, h₂⟩ := run_bind_ok h
  obtain ⟨rfl, hQ₁⟩ := hc a st₁ h₁
  cases a with
  | ok a => exact hok a hQ₁ r st' h₂
  | error v => cases h₂; exact ⟨rfl, herr v hQ₁⟩

/-- Sequencing checks that end the call only with errors satisfying `P`. -/
theorem bind_fails {P : LyVErr → Prop} {c : Check α} {f : α → Check β}
    (hc : Reads st (FailsWith P) c) (hf : ∀ a, Reads st (FailsWith P) (f a)) :
    Reads st (FailsWith P) (c >>= f) :=
  hc.bind (fun a _ => hf a) fun _ h => h

theorem pure {a : α} {Q : Except VResult α → Prop} (h : Q (.ok a)) : Reads st Q (pure a) :=
  fun r st' hr => by cases hr; exact ⟨rfl, h⟩

theorem throw {v : VResult} {Q : Except VResult α → Prop} (h : Q (.error v)) :
    Reads st Q (throw v) :=
  fun r st' hr => by cases hr; exact ⟨rfl, h⟩

/-- An early return: what follows it never runs. -/
theorem throw_bind {v : VResult} {k : α → Check β} {Q : Except VResult β → Prop}
    (h : Q (.error v)) : Reads st Q (MonadExcept.throw v >>= k) :=
  (Reads.throw (Q := fun r => r = .error v) rfl).bind (fun _ h => by cases h)
    fun _ hv => by cases hv; exact h

theorem get {Q : Except VResult VState → Prop} (h : Q (.ok st)) :
    Reads st Q (MonadState.get : Check VState) :=
  fun r st' hr => by cases hr; exact ⟨rfl, h⟩

/-- A step of the validation state that keeps it, followed by a check. -/
theorem lift_bind {m : VM α} {g : α → Check β} {Q : Except VResult β → Prop}
    (hm : ∀ a st', m.run st = .ok (a, st') → st' = st ∧ Reads st Q (g a)) :
    Reads st Q (ExceptT.lift m >>= g) := by
  have hlift : Reads st (fun r => ∃ a, r = .ok a ∧ Reads st Q (g a)) (ExceptT.lift m) :=
    fun r st' h => by
      simp only [ExceptT.run_lift, StateT.run_map] at h
      rcases h₁ : m.run st with e | ⟨a, st₁⟩ <;> rw [h₁] at h <;> cases h
      exact ⟨(hm a st₁ h₁).1, a, rfl, (hm a st₁ h₁).2⟩
  exact hlift.bind (fun _ ⟨_, h, hg⟩ => by cases h; exact hg) fun _ ⟨_, h, _⟩ => by cases h

/-- A fault ends the run: a check that faults has no outcome to constrain. -/
theorem fault {e : Fault} {Q : Except VResult α → Prop} :
    Reads st Q (liftM (MonadExcept.throw e : VM α) : Check α) :=
  fun _ _ h => by cases h

theorem readC_bind {f : Heap → Except Fault α} {g : α → Check β} {Q : Except VResult β → Prop}
    (h : ∀ a, f st.heap = .ok a → Reads st Q (g a)) : Reads st Q (readC f >>= g) :=
  lift_bind fun a st' hr => by
    simp only [readHeap, StateT.run_bind, StateT.run_get, pure_bind] at hr
    cases hf : f st.heap <;> rw [hf] at hr <;> cases hr
    exact ⟨rfl, h _ hf⟩

theorem liftC_bind {e : Except Fault α} {g : α → Check β} {Q : Except VResult β → Prop}
    (h : ∀ a, e = .ok a → Reads st Q (g a)) : Reads st Q (liftC e >>= g) :=
  lift_bind fun a st' hr => by cases e <;> cases hr; exact ⟨rfl, h _ rfl⟩

theorem treeFor_bind {o : Option Ptr} {g : List (Ptr × LydNode) → Check β}
    {Q : Except VResult β → Prop}
    (h : ∀ R, siblings st.heap st.heap.length o = .ok R → Reads st Q (g R)) :
    Reads st Q (liftM (treeFor o) >>= g) :=
  lift_bind fun R st' hr => by
    simp only [monadLift_self, treeFor, StateT.run_bind, StateT.run_get, pure_bind] at hr
    cases hs : siblings st.heap st.heap.length o <;> rw [hs] at hr <;> cases hr
    exact ⟨rfl, h _ hs⟩

end Reads

/-! ## Errors that are not duplicates

Every check but the uniqueness check reads only, whatever the options, and reports errors of
its own: missing or misplaced keys, missing mandatory children, conflicting cases, obsolete or
unusable status. -/

/-- `LYE_TOOMANY` and `LYE_DUPLIST`, the errors of the instance-uniqueness check. -/
def LyVErr.isDuplicate : LyVErr → Bool
  | .toomany .. | .duplist .. => true
  | _ => false

/-- `LYE_OBSDATA`, `LYE_OBSTYPE` and the error of `lyp_check_status`, the errors of the status
check. -/
def LyVErr.isStatus : LyVErr → Bool
  | .obsdata .. | .obstype .. | .instatus => true
  | _ => false

theorem LyVErr.isDuplicate_of_isStatus {e : LyVErr} (h : e.isStatus = true) :
    e.isDuplicate = false := by
  cases e <;> first | rfl | cases h

theorem FailsWith.imp {α : Type} {P Q : LyVErr → Prop} (h : ∀ e, P e → Q e) :
    ∀ {r : Except VResult α}, FailsWith P r → FailsWith Q r
  | .ok _, _ => trivial
  | .error _, ⟨e, he, hp⟩ => ⟨e, he, h e hp⟩

variable {st : VState}

/-- `lyv_keys` reports only a missing or misplaced key. -/
theorem lyvKeysFrom_not_duplicate (h : Heap) (listName : String) :
    ∀ ks child e, lyvKeysFrom s h listName ks child = .ok (some e) → e.isDuplicate = false
  | [], _, _, hk => by cases hk
  | k :: ks, child, e, hk => by
    have hmiss : ∀ x : Except Fault (List (Ptr × LydNode)),
        (x >>= fun rest => pure (some (missingKey s listName k rest))) = .ok (some e) →
          e.isDuplicate = false := by
      rintro (_ | rest) hm <;> simp only [except_error_bind, except_ok_bind, except_pure,
        reduceCtorEq, Except.ok.injEq, Option.some.injEq] at hm
      subst hm
      unfold missingKey
      split <;> rfl
    rcases child with _ | c
    · exact hmiss _ hk
    · simp only [lyvKeysFrom] at hk
      cases hd : h.deref c with
      | error => simp [hd] at hk
      | ok nc =>
        by_cases hkc : nc.schema = k
        · simp only [hd, hkc, except_ok_bind, except_pure, if_true] at hk
          exact lyvKeysFrom_not_duplicate h listName ks _ e hk
        · simp only [hd, hkc, except_ok_bind, except_pure, if_false] at hk
          exact hmiss _ hk

theorem lyvKeys_not_duplicate {h : Heap} {list : Ptr} {e : LyVErr}
    (hk : lyvKeys s h list = .ok (some e)) : e.isDuplicate = false := by
  unfold lyvKeys at hk
  cases hd : h.deref list with
  | error => simp [hd] at hk
  | ok nl => simp only [hd, except_ok_bind] at hk; exact lyvKeysFrom_not_duplicate s h _ _ _ e hk

theorem reads_keysCheck (options : LydOptions) (node schema : Nat) :
    Reads st (FailsWith (·.isDuplicate = false)) (keysCheck s options node schema) := by
  unfold keysCheck
  split
  · refine .readC_bind fun e he => ?_
    split
    · exact .throw ⟨_, rfl, lyvKeys_not_duplicate s he⟩
    · exact .pure trivial
  · exact .pure trivial

theorem reads_mandatoryCheck (env : Env) (options : LydOptions) (node schema : Nat) :
    Reads st (FailsWith (·.isDuplicate = false)) (mandatoryCheck s env options node schema) := by
  have hreport : ∀ siter parentName, Reads st (FailsWith (·.isDuplicate = false))
      (if s.kind siter = .list ∨ s.kind siter = .leaflist then
        throw (.fail (.incount (s.get siter).name parentName))
      else throw (.fail (.misselem (s.get siter).name parentName)) : Check Unit) := by
    intros; split <;> exact .throw ⟨_, rfl, rfl⟩
  unfold mandatoryCheck
  split
  · refine .bind_fails (.get trivial) fun st₁ => ?_
    split
    · exact .pure trivial
    · simp only [pure_bind]
      split
      · exact hreport _ _
      · exact .bind_fails .fault fun _ => hreport _ _
  · exact .pure trivial

theorem reads_choiceCheck (node : Ptr) (start : Option Ptr) :
    ∀ f ch, Reads st (FailsWith (·.isDuplicate = false)) (choiceCheck s node start f ch)
  | 0, _ => .fault
  | f + 1, ch => by
    have hlevel : ∀ y : Option Nat × Nat, Reads st (FailsWith (·.isDuplicate = false))
        (do
          let sibs ← liftM (treeFor start)
          if ← liftC (anyCaseConflict s node y.2 y.1 sibs) then
            throw (.fail (.mcasedata (s.get y.2).name))
          choiceCheck s node start f y.2 : Check Unit) := fun y =>
      .treeFor_bind fun _ _ => .liftC_bind fun c _ => by
        split
        · exact .throw_bind ⟨_, rfl, rfl⟩
        · exact .bind_fails (.pure trivial) fun _ => reads_choiceCheck node start f _
    simp only [choiceCheck]
    split
    · exact .pure trivial
    · split
      · split
        · exact .bind_fails (.pure trivial) hlevel
        · split
          · exact .bind_fails (.pure trivial) hlevel
          · exact .bind_fails .fault hlevel
      · exact .pure trivial

/-- The status check reads only and reports only status errors. -/
theorem reads_statusCheck (env : Env) (options : LydOptions) (n : LydNode) :
    Reads st (FailsWith (·.isStatus = true)) (statusCheck s env options n) := by
  have hident : Reads st (FailsWith (·.isStatus = true))
      (if n.valueType = .ident ∧ env.lypCheckStatus n.schema n.ident then
        throw (.fail .instatus) else pure () : Check Unit) := by
    split
    · exact .throw ⟨_, rfl, rfl⟩
    · exact .pure trivial
  simp only [statusCheck, pure_bind]
  refine .liftC_bind fun b _ => ?_
  cases b
  case true => rw [if_pos rfl]; exact .throw_bind ⟨_, rfl, rfl⟩
  case false =>
    rw [if_neg Bool.false_ne_true]
    by_cases hk : s.kind n.schema = .leaf ∨ s.kind n.schema = .leaflist
    · rw [if_pos hk]
      by_cases ho : options.obsolete = true
      · rw [if_pos ho]
        refine .liftC_bind fun t _ => ?_
        cases t
        · exact hident
        · exact .throw_bind ⟨_, rfl, rfl⟩
      · rw [if_neg ho]; exact hident
    · rw [if_neg hk]; exact .pure trivial

/-! ## Instance uniqueness -/

/-- Siblings `p` and `q` that a valid tree may not hold both: two instances of one container,
leaf or anyxml, or two list or leaf-list instances that `lyd_compare` finds equal. -/
def clash (h : Heap) (p q : Ptr) : Bool :=
  match h.read? p, h.read? q with
  | some np, some nq =>
    np.schema == nq.schema &&
      match s.kind np.schema with
      | .container | .leaf | .anyxml => true
      | .list | .leaflist => lydCompare s h p q == .ok 0
      | _ => false
  | _, _ => false

section Clash

variable {h : Heap} {p q : Ptr} {np nq : LydNode}

theorem clash_schema_ne (hp : h.read? p = some np) (hq : h.read? q = some nq)
    (hs : np.schema ≠ nq.schema) : clash s h p q = false := by
  simp [clash, hp, hq, hs]

theorem clash_single (hp : h.read? p = some np) (hq : h.read? q = some nq)
    (hs : np.schema = nq.schema)
    (hk : s.kind nq.schema = .container ∨ s.kind nq.schema = .leaf ∨ s.kind nq.schema = .anyxml) :
    clash s h p q = true := by
  simp only [clash, hp, hq, hs, beq_self_eq_true, Bool.true_and]
  rcases hk with hk | hk | hk <;> simp [hk]

theorem clash_multi (hp : h.read? p = some np) (hq : h.read? q = some nq)
    (hs : np.schema = nq.schema) (hk : s.kind nq.schema = .list ∨ s.kind nq.schema = .leaflist) :
    clash s h p q = (lydCompare s h p q == .ok 0) := by
  simp only [clash, hp, hq, hs, beq_self_eq_true, Bool.true_and]
  rcases hk with hk | hk <;> simp [hk]

/-- A node of another kind (a choice, a case) clashes with nothing. -/
theorem clash_other (hq : h.read? q = some nq)
    (hk : ¬(s.kind nq.schema = .container ∨ s.kind nq.schema = .leaf ∨ s.kind nq.schema = .anyxml))
    (hk' : ¬(s.kind nq.schema = .list ∨ s.kind nq.schema = .leaflist)) :
    clash s h p q = false := by
  cases hp : h.read? p with
  | none => simp [clash, hp]
  | some np =>
    by_cases hs : np.schema = nq.schema
    · simp only [clash, hp, hq, hs, beq_self_eq_true, Bool.true_and]
      split <;> simp_all
    · exact clash_schema_ne s hp hq hs

theorem clash_comm : clash s h p q = clash s h q p := by
  cases hp : h.read? p with
  | none => simp [clash, hp]
  | some np =>
    cases hq : h.read? q with
    | none => simp [clash, hq]
    | some nq =>
      by_cases hs : np.schema = nq.schema
      · have hcmp : (lydCompare s h p q == .ok 0) = (lydCompare s h q p == .ok 0) := by
          rw [Bool.eq_iff_iff, beq_iff_eq, beq_iff_eq]
          exact ⟨lydCompare_eq_zero_comm s, lydCompare_eq_zero_comm s⟩
        simp only [clash, hp, hq, hs, beq_self_eq_true, Bool.true_and]
        split <;> first | rfl | exact hcmp
      · rw [clash_schema_ne s hp hq hs, clash_schema_ne s hq hp (Ne.symm hs)]

end Clash

/-- What the uniqueness check of `node` tells about the siblings `R` (all of them when `whole`
holds): success means that no validated sibling clashes with `node`, and a duplicate error that
some sibling does. -/
def UniqueOutcome (h : Heap) (node : Ptr) (R : List (Ptr × LydNode)) (whole : Prop) :
    Except VResult Unit → Prop
  | .ok _ => whole → ∀ c ∈ R, c.1 ≠ node → c.2.validity = false → clash s h c.1 node = false
  | .error v => ∀ e, v = .fail e → e.isDuplicate → ∃ c ∈ R, c.1 ≠ node ∧ clash s h c.1 node

/-- An outcome over part `T` of the siblings `R` holds over all of them when the others cannot
clash. -/
theorem UniqueOutcome.widen {h : Heap} {node : Ptr} {T R : List (Ptr × LydNode)} {w : Prop}
    {r : Except VResult Unit} (hr : UniqueOutcome s h node T True r) (hTR : ∀ c ∈ T, c ∈ R)
    (hout : ∀ c ∈ R, c ∈ T ∨ (c.1 ≠ node → c.2.validity = false → clash s h c.1 node = false)) :
    UniqueOutcome s h node R w r := by
  cases r with
  | ok => exact fun _ c hc => (hout c hc).elim (hr trivial c) id
  | error v =>
    intro e he hdup
    obtain ⟨c, hc, hcl⟩ := hr e he hdup
    exact ⟨c, hTR c hc, hcl⟩

/-- Outside filter mode the scan reads only, and it reports an already validated instance equal
to `node` exactly when there is one. -/
theorem scanInstances_spec {options : LydOptions} {node : Ptr} {n : LydNode}
    (hf : options.filter = false) (hn : st.heap.read? node = some n)
    (hk : s.kind n.schema = .list ∨ s.kind n.schema = .leaflist) :
    ∀ T : List (Ptr × LydNode), (∀ c ∈ T, st.heap.read? c.1 = some c.2) →
      Reads st (fun r => FailsWith (·.isDuplicate) r ∧ UniqueOutcome s st.heap node T True r)
        (scanInstances s options node n T)
  | [], _ => .pure ⟨trivial, fun _ c hc => by cases hc⟩
  | (d, dn) :: rest, hT => by
    have hd : st.heap.read? d = some dn := hT _ (List.mem_cons_self _ _)
    have ih := scanInstances_spec hf hn hk rest fun c hc => hT c (List.mem_cons_of_mem _ hc)
    have hcons : ∀ c ∈ (d, dn) :: rest, c ∈ rest ∨ c = (d, dn) := fun c hc =>
      (List.mem_cons.mp hc).symm
    by_cases hskip : dn.schema ≠ n.schema ∨ d = node ∨ dn.validity = true
    · simp only [scanInstances, if_pos hskip]
      refine ih.mono fun r ⟨hF, hU⟩ => ⟨hF, hU.widen s (fun c => List.mem_cons_of_mem _) ?_⟩
      refine fun c hc => (hcons c hc).imp_right fun hcd hcn hv => ?_
      subst hcd
      refine clash_schema_ne s hd hn fun hs => ?_
      rcases hskip with h | h | h
      · exact h hs
      · exact hcn h
      · exact Bool.false_ne_true (hv.symm.trans h)
    · simp only [scanInstances, if_neg hskip, hf, Bool.false_eq_true, if_false]
      simp only [not_or, ne_eq, not_not, Bool.not_eq_true] at hskip
      refine .readC_bind fun x hx => ?_
      have hclash : clash s st.heap d node = (x == 0) := by
        rw [clash_multi s hd hn hskip.1 hk, hx]
        simp
      split
      · exact .throw ⟨⟨_, rfl, rfl⟩, fun e he _ =>
          ⟨(d, dn), List.mem_cons_self _ _, hskip.2.1, by simp [hclash, *]⟩⟩
      · refine ih.mono fun r ⟨hF, hU⟩ => ⟨hF, hU.widen s (fun c => List.mem_cons_of_mem _) ?_⟩
        exact fun c hc => (hcons c hc).imp_right fun hcd _ _ => by subst hcd; simp [hclash, *]

/-- **The uniqueness check outside filter mode.** It reads only; a duplicate error names a
clashing sibling, and success means that no validated sibling clashes with `node`, unless get or
get-config data leave the list instances unchecked. -/
theorem uniqueCheck_spec {options : LydOptions} {node : Ptr} {n : LydNode} {start : Option Ptr}
    (hf : options.filter = false) (hn : st.heap.read? node = some n) :
    Reads st (fun r => FailsWith (·.isDuplicate) r ∧
        ∀ R, siblings st.heap st.heap.length start = .ok R →
          UniqueOutcome s st.heap node R ((options.get || options.getconfig) = false) r)
      (uniqueCheck s options node n start) := by
  simp only [uniqueCheck, pure_bind]
  split
  · next hk =>
    refine .treeFor_bind fun R hR => ?_
    split
    · next hnone =>
      refine .pure ⟨trivial, fun R' hR' _ c hc hcn _ => ?_⟩
      cases hR.symm.trans hR'
      have hc' := List.find?_eq_none.mp hnone c hc
      exact clash_schema_ne s (siblings_read? hR c hc) hn fun hs => hc' (by simp [hs, hcn])
    · next diter dn hsome =>
      have hmem := List.mem_of_find?_eq_some hsome
      have hd : dn.schema = n.schema ∧ diter ≠ node := by simpa using List.find?_some hsome
      simp only [singleDuplicate, hf, Bool.false_eq_true, if_false]
      refine .throw ⟨⟨_, rfl, rfl⟩, fun R' hR' e _ _ => ?_⟩
      cases hR.symm.trans hR'
      exact ⟨_, hmem, hd.2, clash_single s (siblings_read? hR _ hmem) hn hd.1 hk⟩
  · split
    · next hk' hk =>
      split
      · next hg =>
        refine .treeFor_bind fun T hT => ?_
        cases (show T = [] by simpa [siblings] using hT.symm)
        exact .pure ⟨trivial, fun R _ hg' => absurd hg (by simp [hg'])⟩
      · -- the scan from the first other instance sees every instance
        refine .treeFor_bind fun R hR => .treeFor_bind fun T hT => ?_
        obtain ⟨hTR, hcover⟩ := siblings_find? hR hT
        refine (scanInstances_spec s hf hn hk T fun c hc => siblings_read? hR c (hTR c hc)).mono
          fun r ⟨hF, hU⟩ => ⟨hF, fun R' hR' => ?_⟩
        cases hR.symm.trans hR'
        refine hU.widen s hTR fun c hc => (hcover c hc).imp_right fun hP hcn _ => ?_
        exact clash_schema_ne s (siblings_read? hR c hc) hn fun hs => by simp [hs, hcn] at hP
    · next hk' hk =>
      exact .pure ⟨trivial, fun R hR _ c hc _ _ =>
        clash_other s hn (by simpa using hk') (by simpa using hk)⟩

/-! ## The checks of a node -/

theorem firstSiblingOf_keeps {node : Ptr} {n : LydNode} {start : Option Ptr} {st' : VState}
    (h : (firstSiblingOf node n).run st = .ok (start, st')) : st' = st := by
  unfold firstSiblingOf at h
  split at h
  · obtain ⟨_, _, h₁, h₂⟩ := run_bind_ok h
    rw [getNode_run] at h₁
    split at h₁ <;> cases h₁
    cases h₂; rfl
  · simp only [StateT.run_map, readHeap, StateT.run_bind, StateT.run_get, pure_bind] at h
    cases hf : firstSibling st.heap st.heap.length node <;> rw [hf] at h <;> cases h
    rfl

/-- What the checks of `node`, whose record is `n`, establish when run from `st` outside filter
mode: they end the call only with an error, they pass a node already validated, and a duplicate
error, and success, are those of the uniqueness check over the walk from the first sibling. -/
def ChecksOutcome (st : VState) (options : LydOptions) (node : Ptr) (n : LydNode)
    (r : Except VResult Unit) : Prop :=
  FailsWith (fun _ => True) r ∧ (n.validity = false → r = .ok ()) ∧
    (n.validity = true → ∀ start, (firstSiblingOf node n).run st = .ok (start, st) →
      ∀ R, siblings st.heap st.heap.length start = .ok R →
        UniqueOutcome s st.heap node R ((options.get || options.getconfig) = false) r)

/-- **The checks of a node outside filter mode.** -/
theorem validityChecks_spec {env : Env} {options : LydOptions} {node : Ptr} {n : LydNode}
    (hf : options.filter = false) (hn : st.heap.read? node = some n) :
    Reads st (ChecksOutcome s st options node n) (validityChecks s env options node n) := by
  simp only [validityChecks, hf, Bool.not_false, if_true, pure_bind]
  split
  · next hv =>
    -- the other checks fail only with errors that are not duplicates
    have hother : ∀ v, FailsWith (·.isDuplicate = false) (.error v : Except VResult Unit) →
        ChecksOutcome s st options node n (.error v) := by
      rintro v ⟨e, rfl, he⟩
      exact ⟨⟨e, rfl, trivial⟩, fun h => by simp [hv] at h,
        fun _ _ _ _ _ e' he' hd => by cases he'; simp [he] at hd⟩
    refine (reads_keysCheck s options node n.schema).bind (fun _ _ => ?_) hother
    refine (reads_mandatoryCheck s env options node n.schema).bind (fun _ _ => ?_) hother
    refine .lift_bind fun start st' hfs => ?_
    rw [monadLift_self] at hfs
    obtain rfl := firstSiblingOf_keeps hfs
    refine ⟨rfl, (reads_choiceCheck s node start _ _).bind (fun _ _ => ?_) hother⟩
    refine (uniqueCheck_spec s hf hn).bind (fun _ ⟨_, hU⟩ => ?_) fun v ⟨hF, hU⟩ =>
      ⟨by obtain ⟨e, rfl, _⟩ := hF; exact ⟨e, rfl, trivial⟩, fun h => by simp [hv] at h,
        fun _ start' hfs' => by cases hfs.symm.trans hfs'; exact hU⟩
    refine (reads_statusCheck s env options n).mono fun r hr => ?_
    cases r with
    | ok => exact ⟨trivial, fun h => by simp [hv] at h,
        fun _ start' hfs' => by cases hfs.symm.trans hfs'; exact hU⟩
    | error v => exact hother v (hr.imp fun _ => LyVErr.isDuplicate_of_isStatus)
  · next hv => exact .pure ⟨trivial, fun _ => rfl, fun h => absurd h hv⟩

/-- **A call of `lyv_data_content`.** It reads the node and runs its checks; the result is the
check's early return, or success after perhaps queueing a must request for the node. -/
theorem lyvDataContent_inv {env : Env} {options : LydOptions} {node : Ptr} {r : VResult}
    {st' : VState} (h : (lyvDataContent s env options node).run st = .ok (r, st')) :
    ∃ n, st.heap.read? node = some n ∧ ∃ x st₁,
      (validityChecks s env options node n).run.run st = .ok (x, st₁) ∧
      match x with
      | .error v => r = v ∧ st' = st₁
      | .ok _ => r = .ok ∧ (st' = st₁ ∨ st' = { st₁ with unres := st₁.unres ++ [(node, .must)] }) := by
  obtain ⟨n, st₀, h₀, h⟩ := run_bind_ok h
  rw [getNode_run] at h₀
  split at h₀ <;> cases h₀
  obtain ⟨x, st₁, h₁, h⟩ := run_bind_ok h
  refine ⟨n, ‹_›, x, st₁, h₁, ?_⟩
  cases x with
  | error v => cases h; exact ⟨rfl, rfl⟩
  | ok =>
    simp only [StateT.run_bind, StateT.run_get, pure_bind] at h
    split at h
    · obtain ⟨_, _, h₂, h₃⟩ := run_bind_ok h
      cases h₂; cases h₃
      exact ⟨rfl, .inr rfl⟩
    · cases h; exact ⟨rfl, .inl rfl⟩

end YangValidation
