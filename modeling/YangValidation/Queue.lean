import YangValidation.Checks
import YangValidation.Pass

/-!
# The queue over passes outside filter mode

The requests a pass queues in `unres_data` are resolved after the pass, through the node
pointers they hold. Outside filter mode nothing in a pass frees a node: `lyv_data_context` only
clears flag bits and queues requests for the node it checks, `lyv_data_content` only reads and
queues a must request for its node, and never asks its caller to free the node. So every node
stays allocated over the whole pass and every request refers to a live node
(`validationPass_keeps_queue`). In filter mode the duplicate elimination frees nodes whose
requests are already queued (`filterPass_frees_queued`).
-/

namespace YangValidation

variable (s : Schema)

/-! ## Growing the queue without freeing -/

/-- `st'` follows `st` without freeing: every live node stays live, and the queue only grows, by
requests for nodes live in `st'`. -/
def Grows (st st' : VState) : Prop :=
  (∀ p, (st.heap.read? p).isSome → (st'.heap.read? p).isSome) ∧
    ∃ new, st'.unres = st.unres ++ new ∧ ∀ e ∈ new, (st'.heap.read? e.1).isSome

theorem Grows.refl (st : VState) : Grows st st := ⟨fun _ => id, [], by simp, by simp⟩

theorem Grows.trans {st₁ st₂ st₃ : VState} (h₁ : Grows st₁ st₂) (h₂ : Grows st₂ st₃) :
    Grows st₁ st₃ := by
  obtain ⟨hl₁, new₁, hq₁, hn₁⟩ := h₁
  obtain ⟨hl₂, new₂, hq₂, hn₂⟩ := h₂
  refine ⟨fun p hp => hl₂ p (hl₁ p hp), new₁ ++ new₂, by rw [hq₂, hq₁, List.append_assoc], ?_⟩
  intro e he
  rcases List.mem_append.mp he with he | he
  · exact hl₂ _ (hn₁ e he)
  · exact hn₂ e he

theorem modifyNode_unres {p : Ptr} {f : LydNode → LydNode} {st : VState} {r : Unit}
    {st' : VState} (h : (modifyNode p f).run st = .ok (r, st')) : st'.unres = st.unres := by
  rw [modifyNode_run] at h
  split at h <;> cases h
  rfl

variable {s} in
/-- Queueing for a live node frees nothing and grows the queue by requests for that node. -/
theorem QueuedFor.grows {node : Ptr} {n : LydNode} {st st' : VState}
    (hq : QueuedFor s node n st st') (hn : st.heap.read? node = some n) : Grows st st' := by
  obtain ⟨hheap, ks, hks, -⟩ := hq
  have hlive : ∀ p, (st.heap.read? p).isSome → (st'.heap.read? p).isSome := fun p hp =>
    hheap.elim (fun h => h ▸ hp) fun h => h ▸ Heap.isSome_read?_write _ hn hp
  refine ⟨hlive, _, hks, fun e he => ?_⟩
  obtain ⟨k, -, rfl⟩ := List.mem_map.mp he
  exact hlive node (by simp [hn])

/-- `lyv_data_context` frees nothing, and queues requests only for the node it checks, which it
has read. -/
theorem lyvDataContext_grows (env : Env) (options : LydOptions) (node : Ptr) {st : VState}
    {r : VResult} {st' : VState} (h : (lyvDataContext s env options node).run st = .ok (r, st')) :
    Grows st st' :=
  let ⟨_, hn, hq⟩ := lyvDataContext_spec s h
  hq.grows hn

/-- **A content step outside filter mode.** The checks read only. After an error the state is as
it was; after success the node's `validity` is cleared and a must request for it may be
queued. -/
theorem contentStep_inv {env : Env} {options : LydOptions} {p : Ptr} {st : VState} {r : VResult}
    {st' : VState} (hf : options.filter = false)
    (h : (contentStep s env options p).run st = .ok (r, st')) :
    ∃ n, st.heap.read? p = some n ∧ ∃ x,
      (validityChecks s env options p n).run.run st = .ok (x, st) ∧
      match x with
      | .error v => (∃ e, v = .fail e) ∧ r = v ∧ st' = st
      | .ok _ => r = .ok ∧ st'.heap = st.heap.write p { n with validity := false } ∧
          (st'.unres = st.unres ∨ st'.unres = st.unres ++ [(p, .must)]) := by
  obtain ⟨r₁, st₁, h₁, h₂⟩ := run_bind_ok h
  obtain ⟨n, hn, x, st₂, hx, hr⟩ := lyvDataContent_inv s h₁
  obtain ⟨rfl, hF, -, -⟩ := validityChecks_spec s hf hn x st₂ hx
  refine ⟨n, hn, x, hx, ?_⟩
  dsimp only at h₂
  cases x with
  | error v =>
    obtain ⟨rfl, rfl⟩ := hr
    obtain ⟨e, rfl, -⟩ := hF
    cases h₂
    exact ⟨⟨e, rfl⟩, rfl, rfl⟩
  | ok =>
    obtain ⟨rfl, hst⟩ := hr
    obtain ⟨_, st₃, h₃, h₄⟩ := run_bind_ok h₂
    cases h₄
    rw [modifyNode_run] at h₃
    rcases hst with rfl | rfl <;> simp only [hn] at h₃ <;> cases h₃
    · exact ⟨rfl, rfl, .inl rfl⟩
    · exact ⟨rfl, rfl, .inr rfl⟩

/-! ## Passes -/

/-- Outside filter mode a step of a pass frees nothing and queues requests only for live
nodes. -/
theorem passStep_grows {env : Env} {options : LydOptions} (hf : options.filter = false)
    (c : VCall) {st : VState} {r : VResult} {st' : VState}
    (h : (passStep s env options c).run st = .ok (r, st')) : Grows st st' := by
  cases c with
  | context p => exact lyvDataContext_grows s env options p h
  | content p =>
    obtain ⟨n, hn, x, -, hx⟩ := contentStep_inv s hf h
    cases x with
    | error v => obtain ⟨-, -, rfl⟩ := hx; exact .refl _
    | ok =>
      obtain ⟨-, hheap, hq⟩ := hx
      have hlive : ∀ q, (st.heap.read? q).isSome → (st'.heap.read? q).isSome := fun q hq => by
        rw [hheap]; exact Heap.isSome_read?_write _ hn hq
      rcases hq with hq | hq
      · exact ⟨hlive, [], by simp [hq], by simp⟩
      · exact ⟨hlive, [(p, .must)], hq, by simpa using hlive p (by simp [hn])⟩

theorem validationPass_grows {env : Env} {options : LydOptions} (hf : options.filter = false) :
    ∀ (calls : List VCall) {st : VState} {rs : List VResult} {st' : VState},
      (validationPass s env options calls).run st = .ok (rs, st') → Grows st st'
  | [], _, _, _, h => by cases h; exact .refl _
  | c :: cs, _, _, _, h => by
    obtain ⟨r, st₁, h₁, h₂⟩ := run_bind_ok h
    obtain ⟨rs, st₂, h₂, h₃⟩ := run_bind_ok h₂
    cases h₃
    exact (passStep_grows s hf c h₁).trans (validationPass_grows hf cs h₂)

/-- **Queued requests stay valid outside filter mode.** Over any pass of `lyv_data_context` and
`lyv_data_content` calls outside filter mode, no node is freed, and every request in the queue at
the end refers to an allocated node when every request in it at the start did. -/
theorem validationPass_keeps_queue {env : Env} {options : LydOptions}
    (hf : options.filter = false) (calls : List VCall) {st : VState} {rs : List VResult}
    {st' : VState} (hrun : (validationPass s env options calls).run st = .ok (rs, st'))
    (hq : ∀ e ∈ st.unres, (st.heap.read? e.1).isSome) :
    (∀ p, (st.heap.read? p).isSome → (st'.heap.read? p).isSome) ∧
      ∀ e ∈ st'.unres, (st'.heap.read? e.1).isSome := by
  obtain ⟨hl, new, hnew, hlive⟩ := validationPass_grows s hf calls hrun
  refine ⟨hl, fun e he => ?_⟩
  rw [hnew, List.mem_append] at he
  exact he.elim (fun he => hl _ (hq e he)) (hlive e)

/-- The pass of `filterPass_frees_queued` outside filter mode: both must requests are queued,
and both nodes stay allocated. -/
theorem validationPass_keeps_queue_sel :
    ∃ rs st', (validationPass leafListSchema mustEnv {} [.content 0, .content 1]).run
        { heap := selValueHeap } = .ok (rs, st') ∧ st'.unres = [(0, .must), (1, .must)] ∧
      ∀ e ∈ st'.unres, (st'.heap.read? e.1).isSome :=
  ⟨_, _, rfl, rfl, (@validationPass_keeps_queue leafListSchema mustEnv {} rfl
    [.content 0, .content 1] { heap := selValueHeap } _ _ rfl (by simp)).2⟩

end YangValidation
