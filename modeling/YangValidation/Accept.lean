import YangValidation.Valid

/-!
# What `lyv_data_content` accepts

Outside filter mode the checks of `lyv_data_content` decide a property of the node and its
siblings, one check after another. This module states that property without the loops that
compute it (`ContentValid`) and shows that the code computes it: on a well-formed tree the call
returns without fault, and it succeeds exactly when the node is valid
(`lyvDataContent_accepts`). When it succeeds it has queued the node's must conditions, if they
apply; when it fails it has logged an error and changed nothing.

The declarative parts are:

* **keys**: the ring of a list instance's children begins with the list's keys (`KeysFirst`);
* **mandatory children**: `ly_check_mandatory` finds none missing;
* **choices**: at no choice reached from the node's schema through choices and cases only does a
  sibling reach it the same way outside the node's explicit case (`ConflictAt`);
* **uniqueness**: every sibling that `clash`es with the node is a list or leaf-list instance
  still to be validated, or one in get or get-config data (`UniqueOk`);
* **status**: with obsolete data refused, nothing on the node's status chain (`StatusChain`) and,
  for a leaf or leaf-list, on its type's `der` chain (`DerChain`) is obsolete, and an identity
  value passes `lyp_check_status` (`StatusOk`).

`Decides st P c` is the judgement of these proofs: run from `st`, the check `c` ends without
fault, leaves the state as it is, and passes exactly when `P` holds. Its rules follow the ways
a check is built, so the proof of each check follows that check's code.
-/

namespace YangValidation

variable (s : Schema)

/-! ## The status chains -/

/-- The schema nodes the do-while loop of the status check visits from `x`: `x`, then each
parent while that parent is not a container, leaf, leaf-list or list. -/
inductive StatusChain : Nat → Nat → Prop
  | self (x : Nat) : StatusChain x x
  | up {x p y : Nat} : (s.get x).parent = some p →
      s.kind p ∉ [.container, .leaf, .leaflist, .list] → StatusChain p y → StatusChain x y

/-- The typedefs on the `type.der` chain from `o`. -/
inductive DerChain : Option Nat → Nat → Prop
  | here (t : Nat) : DerChain (some t) t
  | next {t u : Nat} : DerChain (s.tpdf t).der u → DerChain (some t) u

variable {s}

/-- From a node with more fuel than its index, the status loop ends, and it reports `true`
exactly when obsolete data are refused and the chain holds an obsolete node. -/
theorem statusLoop_eq (obs : Bool) : ∀ f x, x < f → ∃ b, statusLoop s obs f x = .ok b ∧
    (b = true ↔ obs = true ∧ ∃ y, StatusChain s x y ∧ (s.get y).status = .obsolete)
  | 0, _, hx => absurd hx (Nat.not_lt_zero _)
  | f + 1, x, hx => by
    by_cases hobs : (s.get x).status = .obsolete ∧ obs = true
    · exact ⟨true, by simp only [statusLoop, if_pos hobs]; rfl,
        iff_of_true rfl ⟨hobs.2, x, .self x, hobs.1⟩⟩
    -- past `x`, an obsolete node of the chain is on the chain from the parent
    have hstop : obs = true → ∀ y, StatusChain s x y → (s.get y).status = .obsolete →
        ∃ p, (s.get x).parent = some p ∧ s.kind p ∉ [.container, .leaf, .leaflist, .list] ∧
          StatusChain s p y := by
      rintro ho y (_ | ⟨hp, hk, hy⟩) hy'
      · exact absurd ⟨hy', ho⟩ hobs
      · exact ⟨_, hp, hk, hy⟩
    cases hp : (s.get x).parent with
    | none =>
      refine ⟨false, by simp only [statusLoop, if_neg hobs, hp]; rfl,
        iff_of_false Bool.false_ne_true fun ⟨ho, y, hy, hy'⟩ => ?_⟩
      obtain ⟨p, hp', -⟩ := hstop ho y hy hy'
      cases hp.symm.trans hp'
    | some p =>
      by_cases hk : s.kind p ∈ [.container, .leaf, .leaflist, .list]
      · refine ⟨false, by simp only [statusLoop, if_neg hobs, hp, if_pos hk]; rfl,
          iff_of_false Bool.false_ne_true fun ⟨ho, y, hy, hy'⟩ => ?_⟩
        obtain ⟨p', hp', hk', -⟩ := hstop ho y hy hy'
        cases hp.symm.trans hp'
        exact hk' hk
      · obtain ⟨b, hb, hiff⟩ := statusLoop_eq obs f p
          (by have := Schema.get_parent_lt hp; omega)
        refine ⟨b, by simp only [statusLoop, if_neg hobs, hp, if_neg hk, hb], hiff.trans ?_⟩
        refine and_congr_right fun ho => ⟨fun ⟨y, hy, hy'⟩ => ⟨y, .up hp hk hy, hy'⟩,
          fun ⟨y, hy, hy'⟩ => ?_⟩
        obtain ⟨p', hp', -, hy⟩ := hstop ho y hy hy'
        cases hp.symm.trans hp'
        exact ⟨y, hy, hy'⟩

/-- From a typedef of the schema (or none), the `der` walk ends, and it finds no obsolete
typedef exactly when the chain holds none. -/
theorem obsoleteTpdf_eq : ∀ f o, (∀ t ∈ o, t < f) → ∃ r, obsoleteTpdf s f o = .ok r ∧
    (r = none ↔ ∀ t, DerChain s o t → (s.tpdf t).status ≠ .obsolete)
  | _, none, _ => ⟨none, by cases ‹Nat› <;> rfl, iff_of_true rfl fun _ h => nomatch h⟩
  | 0, some t, ht => absurd (ht t rfl) (Nat.not_lt_zero _)
  | f + 1, some t, ht => by
    by_cases hobs : (s.tpdf t).status = .obsolete
    · exact ⟨some t, by simp only [obsoleteTpdf, if_pos hobs]; rfl,
        iff_of_false (nomatch ·) fun h => h t (.here t) hobs⟩
    · obtain ⟨r, hr, hiff⟩ := obsoleteTpdf_eq f (s.tpdf t).der fun u hu =>
        by have := Schema.tpdf_der_lt hu; have := ht t rfl; omega
      refine ⟨r, by simp only [obsoleteTpdf, if_neg hobs, hr], hiff.trans
        ⟨fun h u hu => ?_, fun h u hu => h u (.next hu)⟩⟩
      cases hu with
      | here => exact hobs
      | next hu => exact h u hu

/-! ## The judgement -/

/-- A read of the heap that ends with `a` returns it and changes nothing. -/
theorem Check.run_readC {α : Type} {f : Heap → Except Fault α} {a : α} {st : VState}
    (h : f st.heap = .ok a) : (readC f).run.run st = .ok (.ok a, st) := by
  simp only [readC, ExceptT.run_lift, readHeap, StateT.run_map, StateT.run_bind, StateT.run_get,
    pure_bind, StateT.run_lift, h]
  rfl

/-- Run from `st`, the check `c` ends without fault, leaves the state as it is, and passes
exactly when `P` holds; when it does not pass, it ends the call with an error. -/
def Decides (st : VState) (P : Prop) (c : Check Unit) : Prop :=
  ∃ r, c.run.run st = .ok (r, st) ∧ (r = .ok () ↔ P) ∧ FailsWith (fun _ => True) r

namespace Decides

variable {st : VState} {P Q : Prop}

theorem congr {c : Check Unit} (hc : Decides st P c) (h : P ↔ Q) : Decides st Q c :=
  let ⟨r, hr, hiff, hF⟩ := hc
  ⟨r, hr, hiff.trans h, hF⟩

theorem pure : Decides st True (pure ()) :=
  ⟨.ok (), rfl, iff_of_true rfl trivial, trivial⟩

theorem fail (e : LyVErr) : Decides st False (throw (.fail e)) :=
  ⟨.error (.fail e), rfl, iff_of_false (nomatch ·) id, e, rfl, trivial⟩

/-- An early return with an error: what follows it never runs. -/
theorem fail_bind {α : Type} (e : LyVErr) {k : α → Check Unit} :
    Decides st False (throw (.fail e) >>= k) :=
  ⟨.error (.fail e), rfl, iff_of_false (nomatch ·) id, e, rfl, trivial⟩

/-- A step that ends with `a` and keeps the state, followed by a check. -/
theorem bind_ok {α : Type} {c : Check α} {f : α → Check Unit} {a : α}
    (hc : c.run.run st = .ok (.ok a, st)) (hf : Decides st P (f a)) : Decides st P (c >>= f) := by
  obtain ⟨r, hr, h⟩ := hf
  exact ⟨r, (Check.run_bind_ok hc).trans hr, h⟩

theorem pure_bind {f : Unit → Check Unit} (hf : Decides st P (f ())) :
    Decides st P ((Pure.pure () : Check Unit) >>= f) :=
  bind_ok rfl hf

theorem get_bind {f : VState → Check Unit} (hf : Decides st P (f st)) :
    Decides st P ((MonadState.get : Check VState) >>= f) :=
  bind_ok rfl hf

/-- Two checks in sequence: the second runs only when the first passes. -/
theorem seq {c d : Check Unit} (hc : Decides st P c) (hd : P → Decides st Q d) :
    Decides st (P ∧ Q) (c >>= fun _ => d) := by
  obtain ⟨r, hr, hiff, hF⟩ := hc
  cases r with
  | ok u =>
    obtain ⟨r', hr', hiff', hF'⟩ := hd (hiff.mp rfl)
    exact ⟨r', (Check.run_bind_ok hr).trans hr', hiff'.trans (and_iff_right (hiff.mp rfl)).symm,
      hF'⟩
  | error v =>
    refine ⟨.error v, ?_, iff_of_false (nomatch ·) (fun h : P ∧ Q => nomatch hiff.mpr h.1), hF⟩
    rw [ExceptT.run_bind, StateT.run_bind, hr]
    rfl

/-- A choice between two checks. -/
theorem ite_else {b : Prop} [Decidable b] {c d : Check Unit} (hc : b → Decides st P c)
    (hd : ¬b → Decides st Q d) : Decides st ((b → P) ∧ (¬b → Q)) (if b then c else d) := by
  by_cases hb : b
  · rw [if_pos hb]; exact (hc hb).congr ⟨fun h => ⟨fun _ => h, (absurd hb ·)⟩, fun h => h.1 hb⟩
  · rw [if_neg hb]; exact (hd hb).congr ⟨fun h => ⟨(absurd · hb), fun _ => h⟩, fun h => h.2 hb⟩

/-- A check made only when `b` holds. -/
theorem ite {b : Prop} [Decidable b] {c : Check Unit} (hc : b → Decides st P c) :
    Decides st (b → P) (if b then c else Pure.pure ()) := by
  by_cases hb : b
  · rw [if_pos hb]; exact (hc hb).congr (imp_iff_right hb).symm
  · rw [if_neg hb]; exact Decides.pure.congr (iff_of_true trivial fun h => absurd h hb)

end Decides

/-! ## The status check -/

variable (s) in
/-- The status of node `n` as the status check sees it: with obsolete data refused, nothing on
the status chain of its schema, nor, for a leaf or leaf-list, on its type's `der` chain, is
obsolete; and an identity value passes `lyp_check_status`. -/
def StatusOk (env : Env) (options : LydOptions) (n : LydNode) : Prop :=
  (options.obsolete = true → ∀ y, StatusChain s n.schema y → (s.get y).status ≠ .obsolete) ∧
    (s.kind n.schema = .leaf ∨ s.kind n.schema = .leaflist →
      (options.obsolete = true →
        ∀ t, DerChain s (s.get n.schema).typeDer t → (s.tpdf t).status ≠ .obsolete) ∧
      ¬(n.valueType = .ident ∧ env.lypCheckStatus n.schema n.ident = true))

/-- Given the node's schema and, for a typed leaf, a typedef of the schema, the status check
ends without fault and passes exactly when the status is right. -/
theorem decides_statusCheck {env : Env} {options : LydOptions} {n : LydNode} {st : VState}
    (hx : n.schema < s.nodes.length)
    (htype : ∀ t ∈ (s.get n.schema).typeDer, t < s.tpdfs.length) :
    Decides st (StatusOk s env options n) (statusCheck s env options n) := by
  obtain ⟨b, hb, hbiff⟩ := statusLoop_eq (s := s) options.obsolete _ _ hx
  obtain ⟨r, hr, hriff⟩ := obsoleteTpdf_eq (s := s) _ _ htype
  have hident : Decides st (¬(n.valueType = .ident ∧ env.lypCheckStatus n.schema n.ident = true))
      (if n.valueType = .ident ∧ env.lypCheckStatus n.schema n.ident = true then
        throw (.fail .instatus) else pure PUnit.unit) :=
    .ite fun _ => .fail _
  simp only [statusCheck]
  refine .bind_ok (Check.run_liftC hb) ?_
  cases b
  case true =>
    rw [if_pos rfl]
    exact (Decides.fail_bind _).congr
      (iff_of_false id fun h => let ⟨ho, y, hy, hy'⟩ := hbiff.mp rfl; h.1 ho y hy hy')
  case false =>
    have hchain : options.obsolete = true → ∀ y, StatusChain s n.schema y →
        (s.get y).status ≠ .obsolete :=
      fun ho y hy hy' => Bool.false_ne_true (hbiff.mpr ⟨ho, y, hy, hy'⟩)
    rw [if_neg Bool.false_ne_true]
    cases r with
    | some t =>
      refine (Decides.pure_bind (.ite fun _ => .ite_else
        (fun _ => .bind_ok (Check.run_liftC hr) (.fail_bind _)) fun _ => .pure_bind hident)).congr ?_
      have hder : ¬∀ t, DerChain s (s.get n.schema).typeDer t → (s.tpdf t).status ≠ .obsolete :=
        fun h => nomatch hriff.mpr h
      exact ⟨fun h => ⟨hchain, fun hk => ⟨fun ho => ((h hk).1 ho).elim, (h hk).2 (h hk).1⟩⟩,
        fun ⟨_, h⟩ hk => ⟨fun ho => hder ((h hk).1 ho), fun _ => (h hk).2⟩⟩
    | none =>
      refine (Decides.pure_bind (.ite fun _ => .ite_else
        (fun _ => .bind_ok (Check.run_liftC hr) (.pure_bind hident)) fun _ =>
          .pure_bind hident)).congr ?_
      have hder := hriff.mp rfl
      exact ⟨fun h => ⟨hchain, fun hk => ⟨fun _ => hder,
          fun hi => (h hk).2 (fun ho => (h hk).1 ho hi) hi⟩⟩,
        fun ⟨_, h⟩ hk => ⟨fun _ => (h hk).2, fun _ => (h hk).2⟩⟩

/-! ## Keys and mandatory children -/

/-- A sibling list is fixed by its first node: the `next` links give the rest. -/
theorem Linked.eq_of_head {h : Heap} : ∀ {q q' : Ptr} {L L' : List Ptr}, Linked h q L →
    Linked h q' L' → L.head? = L'.head? → L = L'
  | _, _, [], [], _, _, _ => rfl
  | _, _, [], _ :: _, _, _, he => nomatch he
  | _, _, _ :: _, [], _, _, he => nomatch he
  | _, _, _ :: _, _ :: _, ⟨_, hn, _, hnext, hL⟩, ⟨_, hn', _, hnext', hL'⟩, he => by
    cases he
    cases hn.symm.trans hn'
    rw [Linked.eq_of_head hL hL' (hnext.symm.trans hnext')]

/-- The children of a node form at most one ring. -/
theorem Ring.eq_of_parent {h : Heap} {q : Ptr} {C C' : List Ptr} (hr : Ring h (some q) C)
    (hr' : Ring h (some q) C') : C = C' := by
  obtain ⟨n, hn, hc⟩ := hr.child_eq q rfl
  obtain ⟨n', hn', hc'⟩ := hr'.child_eq q rfl
  cases hn.symm.trans hn'
  exact hr.linked.eq_of_head hr'.linked (hc.symm.trans hc')

/-- Over the ring `C` of its children, `lyv_keys` on a list instance ends without fault, and it
reports nothing exactly when the children begin with the keys. -/
theorem lyvKeys_ring {h : Heap} {node : Ptr} {n : LydNode} {C : List Ptr}
    (hn : h.read? node = some n) (hC : Ring h (some node) C) :
    ∃ r, lyvKeys s h node = .ok r ∧ (r = none ↔ KeysFirst s n.schema (records h C)) := by
  obtain ⟨_, hn', hchild⟩ := hC.child_eq node rfl
  cases hn.symm.trans hn'
  obtain ⟨r, hr, hiff⟩ := lyvKeysFrom_linked s h (s.get n.schema).name (s.get n.schema).keys
    hC.linked hC.length_le
  refine ⟨r, by simp [lyvKeys, Heap.deref_of_read? hn, hchild, hr], hiff.trans ?_⟩
  simp only [prefix_iff_getElem, List.length_map, List.getElem_map, KeysFirst]
  exact and_congr_right fun _ => forall₃_congr fun _ _ _ => eq_comm

variable {env : Env} {options : LydOptions} {st : VState} {node : Ptr} {n : LydNode}

theorem decides_keysCheck (hf : options.filter = false) (hn : st.heap.read? node = some n)
    {C : List Ptr} (hC : Ring st.heap (some node) C) :
    Decides st (s.kind n.schema = .list → (options.get || options.getconfig) = false →
        KeysFirst s n.schema (records st.heap C))
      (keysCheck s options node n.schema) := by
  obtain ⟨r, hr, hiff⟩ := lyvKeys_ring (s := s) hn hC
  unfold keysCheck
  refine (Decides.ite fun _ => .bind_ok (Check.run_readC hr)
    (?_ : Decides st (r = none) _)).congr (by rw [hiff]; simp [hf])
  cases r with
  | none => exact Decides.pure.congr (iff_of_true trivial rfl)
  | some e => exact (Decides.fail e).congr (iff_of_false id (nomatch ·))

theorem decides_mandatoryCheck (hf : options.filter = false) {x : Nat}
    (hmand : ∀ si ∈ env.lyCheckMandatory st.heap node, (s.get si).parent ≠ none) :
    Decides st ((s.kind x = .container ∨ s.kind x = .list) →
        (options.edit || options.get || options.getconfig) = false →
        env.lyCheckMandatory st.heap node = none)
      (mandatoryCheck s env options node x) := by
  unfold mandatoryCheck
  refine (Decides.ite fun _ => .get_bind
    (?_ : Decides st (env.lyCheckMandatory st.heap node = none) _)).congr (by simp [hf])
  cases hm : env.lyCheckMandatory st.heap node with
  | none => exact Decides.pure.congr (iff_of_true trivial rfl)
  | some si =>
    obtain ⟨p, hp⟩ := Option.ne_none_iff_exists'.mp (hmand si hm)
    refine (?_ : Decides st False _).congr (iff_of_false id (nomatch ·))
    simp only [hp]
    exact .bind_ok rfl (by split <;> exact .fail _)

/-! ## Instance uniqueness -/

variable (s) in
/-- Every sibling among `R` that clashes with `node` is one the uniqueness check lets pass: a
list or leaf-list instance still to be validated, or, in get and get-config data, any list or
leaf-list instance. -/
def UniqueOk (options : LydOptions) (h : Heap) (node : Ptr) (R : List (Ptr × LydNode)) : Prop :=
  ∀ d ∈ R, d.1 ≠ node → clash s h d.1 node = true →
    (s.kind d.2.schema = .list ∨ s.kind d.2.schema = .leaflist) ∧
      (d.2.validity = true ∨ (options.get || options.getconfig) = true)

theorem clash_schema_eq {h : Heap} {p q : Ptr} {np nq : LydNode} (hp : h.read? p = some np)
    (hq : h.read? q = some nq) (hc : clash s h p q = true) : np.schema = nq.schema :=
  Classical.byContradiction fun hs => by rw [clash_schema_ne s hp hq hs] at hc; cases hc

/-- Outside filter mode, over instances whose comparison with `node` ends, the scan ends without
fault and passes exactly when no validated instance among them equals `node`. -/
theorem decides_scanInstances (hf : options.filter = false) (hn : st.heap.read? node = some n)
    (hk : s.kind n.schema = .list ∨ s.kind n.schema = .leaflist) :
    ∀ T : List (Ptr × LydNode), (∀ c ∈ T, st.heap.read? c.1 = some c.2) →
      (∀ c ∈ T, c.2.schema = n.schema → ∃ k, lydCompare s st.heap c.1 node = .ok k) →
      Decides st (∀ c ∈ T, c.1 ≠ node → c.2.validity = false → clash s st.heap c.1 node = false)
        (scanInstances s options node n T)
  | [], _, _ => Decides.pure.congr (iff_of_true trivial fun _ h => nomatch h)
  | (d, dn) :: rest, hT, hcmp => by
    have hd : st.heap.read? d = some dn := hT _ (List.mem_cons_self _ _)
    have ih := decides_scanInstances hf hn hk rest (fun c hc => hT c (List.mem_cons_of_mem _ hc))
      fun c hc => hcmp c (List.mem_cons_of_mem _ hc)
    rw [List.forall_mem_cons]
    by_cases hskip : dn.schema ≠ n.schema ∨ d = node ∨ dn.validity = true
    · simp only [scanInstances, if_pos hskip]
      refine ih.congr (and_iff_right fun hdn hv => clash_schema_ne s hd hn fun hs => ?_).symm
      rcases hskip with h | h | h
      · exact h hs
      · exact hdn h
      · exact Bool.false_ne_true (hv.symm.trans h)
    · simp only [scanInstances, if_neg hskip, hf, Bool.false_eq_true, if_false]
      simp only [not_or, ne_eq, not_not, Bool.not_eq_true] at hskip
      obtain ⟨k, hcmpk⟩ := hcmp _ (List.mem_cons_self _ _) hskip.1
      have hclash : clash s st.heap d node = (k == 0) := by
        rw [clash_multi s hd hn hskip.1 hk, hcmpk]
        simp
      refine .bind_ok (Check.run_readC hcmpk) ?_
      by_cases hk0 : k = 0
      · rw [if_pos hk0]
        refine (Decides.fail _).congr (iff_of_false id fun h => ?_)
        have := h.1 hskip.2.1 hskip.2.2
        simp [hclash, hk0] at this
      · rw [if_neg hk0]
        exact ih.congr (and_iff_right fun _ _ => by simp [hclash, hk0]).symm

/-- Outside filter mode, over siblings whose comparison with `node` ends, the uniqueness check
ends without fault and passes exactly when `UniqueOk` holds. -/
theorem decides_uniqueCheck (hf : options.filter = false) (hn : st.heap.read? node = some n)
    {start : Option Ptr} {R : List (Ptr × LydNode)}
    (hR : siblings st.heap st.heap.length start = .ok R)
    (hcmp : ∀ c ∈ R, c.2.schema = n.schema → ∃ k, lydCompare s st.heap c.1 node = .ok k) :
    Decides st (UniqueOk s options st.heap node R) (uniqueCheck s options node n start) := by
  have hread := siblings_read? hR
  have hsame : ∀ c ∈ R, clash s st.heap c.1 node = true → c.2.schema = n.schema :=
    fun c hc => clash_schema_eq (hread c hc) hn
  simp only [uniqueCheck, pure_bind]
  split
  · next hk =>
    refine .bind_ok (Check.run_treeFor hR) ?_
    split
    · next hnone =>
      refine Decides.pure.congr (iff_of_true trivial fun c hc hcn hcl => ?_)
      have := List.find?_eq_none.mp hnone c hc
      simp [hsame c hc hcl, hcn] at this
    · next diter dn hsome =>
      have hmem := List.mem_of_find?_eq_some hsome
      have hd : dn.schema = n.schema ∧ diter ≠ node := by simpa using List.find?_some hsome
      simp only [singleDuplicate, hf, Bool.false_eq_true, if_false]
      refine (Decides.fail _).congr (iff_of_false id fun h => ?_)
      have hmulti := (h _ hmem hd.2 (clash_single s (hread _ hmem) hn hd.1 hk)).1
      rw [hd.1] at hmulti
      rcases hk with hk | hk | hk <;> rw [hk] at hmulti <;> simp at hmulti
  · split
    · next hk' hk =>
      split
      · next hg =>
        -- get and get-config data: the scan starts nowhere
        refine .bind_ok (Check.run_treeFor (R := []) (by simp [siblings])) ?_
        refine (decides_scanInstances hf hn hk [] (fun _ h => nomatch h) fun _ h => nomatch h).congr
          (iff_of_true (fun _ h => nomatch h) fun c hc _ hcl => ⟨?_, .inr hg⟩)
        rw [hsame c hc hcl]
        exact hk
      · next hg =>
        -- the scan from the first other instance sees every instance
        let P := fun d : Ptr × LydNode => decide (d.1 ≠ node ∧ d.2.schema = n.schema)
        obtain ⟨T, hT⟩ : ∃ T, siblings st.heap st.heap.length ((R.find? P).map (·.1)) = .ok T := by
          cases hfind : R.find? P with
          | none => exact ⟨[], by simp [siblings]⟩
          | some c =>
            obtain ⟨-, A, B, rfl, -⟩ := List.find?_eq_some.mp hfind
            exact ⟨_, siblings_suffix A hR⟩
        obtain ⟨hTR, hcover⟩ := siblings_find? hR hT
        refine .bind_ok (Check.run_treeFor hR) (.bind_ok (Check.run_treeFor hT) ?_)
        refine (decides_scanInstances hf hn hk T (fun c hc => hread c (hTR c hc))
          fun c hc => hcmp c (hTR c hc)).congr ⟨fun h c hc hcn hcl => ⟨?_, ?_⟩, fun h c hc hcn hv => ?_⟩
        · rw [hsame c hc hcl]; exact hk
        · cases hv : c.2.validity
          · rcases hcover c hc with hcT | hP
            · rw [h c hcT hcn hv] at hcl; cases hcl
            · simp [P, hcn, hsame c hc hcl] at hP
          · exact .inl rfl
        · cases hcl : clash s st.heap c.1 node
          · rfl
          · rcases (h c (hTR c hc) hcn hcl).2 with h' | h'
            · rw [hv] at h'; cases h'
            · simp at hg; simp [hg] at h'
    · next hk' hk =>
      exact Decides.pure.congr (iff_of_true trivial fun c hc _ hcl => absurd hcl (by
        rw [clash_other s hn (by simpa using hk') (by simpa using hk)]; decide))

/-! ## The node -/

/-- `lyd_compare` ends on two nodes whose children form rings. -/
theorem lydCompare_ok {h : Heap} {p q : Ptr} {Cp Cq : List Ptr} (hCp : Ring h (some p) Cp)
    (hCq : Ring h (some q) Cq) : ∃ k, lydCompare s h p q = .ok k := by
  obtain ⟨np, hp, hcp⟩ := hCp.child_eq p rfl
  obtain ⟨nq, hq, hcq⟩ := hCq.child_eq q rfl
  simp only [lydCompare, Heap.deref_of_read? hp, Heap.deref_of_read? hq, except_ok_bind]
  split
  · exact ⟨_, rfl⟩
  · split
    · exact ⟨_, rfl⟩
    · rw [hcp, hcq, hCp.siblings_head, hCq.siblings_head]
      exact ⟨_, rfl⟩
    · exact ⟨_, rfl⟩

/-- A step of the validation state run inside a check. -/
theorem Check.run_lift {α : Type} {m : VM α} {a : α} {st st' : VState}
    (h : m.run st = .ok (a, st')) : (liftM m : Check α).run.run st = .ok (.ok a, st') := by
  show (Except.ok <$> m).run st = _
  rw [StateT.run_map, h]
  rfl

variable (s) in
/-- What the checks of `lyv_data_content` require of `node`, whose record is `n`, by itself: its
keys come first, it lacks no mandatory child, and its status is right. -/
structure LocalValid (env : Env) (options : LydOptions) (h : Heap) (node : Ptr) (n : LydNode) :
    Prop where
  keys : s.kind n.schema = .list → (options.get || options.getconfig) = false →
    ∀ C, Ring h (some node) C → KeysFirst s n.schema (records h C)
  mandatory : s.kind n.schema = .container ∨ s.kind n.schema = .list →
    (options.edit || options.get || options.getconfig) = false → env.lyCheckMandatory h node = none
  status : StatusOk s env options n

variable (s) in
/-- What the checks of `lyv_data_content` require of `node`, whose record is `n`, outside filter
mode, given its siblings `R` from the first on: what it requires of the node by itself, and that
no sibling is in conflict with it at a choice (`ConflictAt`) or a duplicate the uniqueness check
refuses. -/
structure ContentValid (env : Env) (options : LydOptions) (h : Heap) (node : Ptr) (n : LydNode)
    (R : List (Ptr × LydNode)) extends LocalValid s env options h node n : Prop where
  choice : ∀ c, ¬ConflictAt s node R n.schema c
  unique : UniqueOk s options h node R

/-- A call whose checks end without fault: it returns their early result and changes nothing, or
succeeds after queueing the node's must request if must conditions apply. -/
theorem lyvDataContent_run (hn : st.heap.read? node = some n) {x : Except VResult Unit}
    (hx : (validityChecks s env options node n).run.run st = .ok (x, st)) :
    (lyvDataContent s env options node).run st = .ok (match x with
      | .error v => (v, st)
      | .ok _ => (.ok, { st with unres := st.unres ++
          if env.resolveAppliesMust st.heap node then [(node, .must)] else [] })) := by
  simp only [lyvDataContent, StateT.run_bind, getNode_run, hn, except_ok_bind, hx]
  cases x with
  | error v => rfl
  | ok u =>
    simp only [StateT.run_bind, StateT.run_get, except_ok_bind, except_pure]
    cases env.resolveAppliesMust st.heap node
    · simp only [Bool.false_eq_true, if_false, List.append_nil]; rfl
    · rfl

section Node

variable {L : List Ptr} (hf : options.filter = false) (hcase : s.CasesInChoices)
  (hn : st.heap.read? node = some n) (hr : Ring st.heap n.parent L) (hnode : node ∈ L)
  (hd : DataNodes s st.heap L) (hkids : ∀ p ∈ L, ∃ C, Ring st.heap (some p) C)
  (hmand : ∀ si ∈ env.lyCheckMandatory st.heap node, (s.get si).parent ≠ none)
  (htype : ∀ t ∈ (s.get n.schema).typeDer, t < s.tpdfs.length)
include hf hcase hn hr hnode hd hkids hmand htype

/-- The checks of a node of a well-formed tree end without fault, and they pass exactly when the
node is valid or has no checks to make. -/
theorem decides_validityChecks :
    Decides st (n.validity = true → ContentValid s env options st.heap node n (records st.heap L))
      (validityChecks s env options node n) := by
  obtain ⟨C, hC⟩ := hkids node hnode
  have hnd := hd (node, n) (mem_records.mpr ⟨hnode, hn⟩)
  have hchoice : Decides st (∀ c, ¬ConflictAt s node (records st.heap L) n.schema c)
      (choiceCheck s node L.head? s.nodes.length n.schema) := by
    obtain ⟨r, hrun, hiff, herr⟩ := choiceCheck_run hcase hr.siblings_head
      (fun c hc => (hd c hc).2) _ _ hnd.1 hnd.2
    refine ⟨r, hrun, hiff, ?_⟩
    cases r with
    | ok => trivial
    | error v => obtain ⟨c, -, rfl, -⟩ := herr v rfl; exact ⟨_, rfl, trivial⟩
  have hcmp : ∀ c ∈ records st.heap L, c.2.schema = n.schema →
      ∃ k, lydCompare s st.heap c.1 node = .ok k := fun c hc _ =>
    let ⟨_, hc'⟩ := hkids c.1 (mem_records.mp hc).1
    lydCompare_ok hc' hC
  simp only [validityChecks, hf, Bool.not_false, if_true]
  refine (Decides.ite fun _ => (decides_keysCheck hf hn hC).seq fun _ =>
    (decides_mandatoryCheck hf hmand).seq fun _ =>
    .bind_ok (Check.run_lift (firstSiblingOf_ring hr hnode hn)) <| hchoice.seq fun _ =>
    (decides_uniqueCheck hf hn hr.siblings_head hcmp).seq fun _ =>
    decides_statusCheck hnd.1 htype).congr (imp_congr_right fun _ => ?_)
  refine ⟨fun ⟨hk, hm, hc, hu, hs⟩ => ⟨⟨fun hl hg C' hC' => ?_, hm, hs⟩, hc, hu⟩,
    fun ⟨⟨hk, hm, hs⟩, hc, hu⟩ => ⟨fun hl hg => hk hl hg C hC, hm, hc, hu, hs⟩⟩
  rw [← Ring.eq_of_parent hC hC']
  exact hk hl hg

/-- **What `lyv_data_content` accepts.** Outside filter mode, on a node `node` of a well-formed
sibling ring `L` (its nodes instantiate schema nodes that are not cases, in a schema whose cases
sit in choices, and the children of each form a ring), with `ly_check_mandatory` naming only
schema nodes that have a parent and the node's type deriving from a typedef of the schema, the
call ends without fault. It succeeds exactly when the node, if its `validity` is set, satisfies
`ContentValid`; then it has queued the node's must conditions if they apply, and changed nothing
else. Otherwise it has logged an error and changed nothing. -/
theorem lyvDataContent_accepts :
    ∃ r st', (lyvDataContent s env options node).run st = .ok (r, st') ∧
      (r = .ok ↔ (n.validity = true →
        ContentValid s env options st.heap node n (records st.heap L))) ∧
      (r = .ok → st' = { st with unres := st.unres ++
        if env.resolveAppliesMust st.heap node then [(node, .must)] else [] }) ∧
      (r ≠ .ok → (∃ e, r = .fail e) ∧ st' = st) := by
  obtain ⟨x, hx, hiff, hF⟩ := decides_validityChecks hf hcase hn hr hnode hd hkids hmand htype
  have hrun := lyvDataContent_run hn hx
  cases x with
  | error v =>
    obtain ⟨e, rfl, -⟩ := hF
    exact ⟨.fail e, st, hrun, iff_of_false (nomatch ·) (fun h => nomatch hiff.mpr h), (nomatch ·),
      fun _ => ⟨⟨e, rfl⟩, rfl⟩⟩
  | ok u => exact ⟨.ok, _, hrun, iff_of_true rfl (hiff.mp rfl), fun _ => rfl, fun h => absurd rfl h⟩

end Node

/-- The list instance of `swappedKeysHeap`, alone at the top of its tree with its two key
children in the wrong order, is refused: the call fails and changes nothing. -/
theorem lyvDataContent_accepts_swapped :
    ∃ r, (lyvDataContent keysSchema quietEnv {} 0).run { heap := swappedKeysHeap } =
      .ok (r, { heap := swappedKeysHeap }) ∧ r ≠ .ok :=
  let ⟨r, _, hrun, hiff, _, herr⟩ := @lyvDataContent_accepts keysSchema quietEnv {}
    { heap := swappedKeysHeap } 0 _ [0] rfl (by decide) rfl (by decide) (by decide) (by decide)
    (fun p hp => ⟨[1, 2], by rw [List.mem_singleton.mp hp]; decide⟩) (fun _ h => nomatch h)
    (fun _ h => nomatch h)
  have hne : r ≠ .ok := fun h =>
    absurd (((hiff.mp h rfl).keys rfl rfl [1, 2] (by decide)).2 0 (by decide) (by decide))
      (by decide)
  ⟨r, (herr hne).2 ▸ hrun, hne⟩

end YangValidation
