import YangValidation.Content

/-!
# Context validation and value resolution

`lyv_data_context(node, options, unres)` holds the per-node checks that need no siblings
except the node's predecessor: the schema node is enabled by its if-features, leafref and
instance-identifier values and when conditions are queued for the deferred resolver, state data
is refused where only configuration is allowed, and the arguments of an RPC follow the order of
their declaration. `lyv_data_value` resolves a leafref or instance-identifier value at once.

Neither function frees a node: the only write is the clearing of the flag bits of a leaf's
`value_type`. What a call of `lyv_data_context` does to the state is said once, by
`lyvDataContext_spec`: it has read the node, at most cleared the flag bits of its value, and queued
for it requests that fit its record (`QueuedFor`). The frame, queue and request results of the
later modules are read off this one lemma.
-/

namespace YangValidation

variable (s : Schema)

/-- `lyv_data_value(node, options)`: resolve a leafref without a target, or an
instance-identifier whose target is required, unless the data is a filter, an edit or a reply.
It returns whether the code returns `EXIT_SUCCESS`. -/
def lyvDataValue (env : Env) (options : LydOptions) (node : Ptr) : VM Bool := do
  let n ← getNode node
  let k := s.kind n.schema
  if !(k = .leaf ∨ k = .leaflist) then pure true
  else
    let typed := options.filter || options.edit || options.get || options.getconfig
    match (s.get n.schema).typeBase with
    | .leafref =>
      if !n.leafrefSet ∧ !typed then
        pure !(env.resolveUnresDataItem (← get).heap node .leafref)
      else pure true
    | .inst =>
      if !typed ∧ (s.get n.schema).instReq > -1 then
        pure !(env.resolveUnresDataItem (← get).heap node .instid)
      else pure true
    | _ => pure true

/-- The RPC order loop: `lys_getnext` from the node's schema on; `some siter` when the
predecessor's schema `prevSchema` is declared after the node's. -/
def declaredLater (env : Env) (prevSchema : Nat) : Nat → Option Nat → Except Fault (Option Nat)
  | _, none => pure none
  | 0, some _ => .error .diverge
  | f + 1, some siter =>
    if siter = prevSchema then pure (some siter)
    else declaredLater env prevSchema f (env.lysGetnext siter)

/-- Lines 355–371: outside filter, edit, get and get-config data, clear the flag bits of a leaf's
`value_type` and queue a leafref or instance-identifier value for resolution. -/
def queueValue (options : LydOptions) (node : Ptr) (n : LydNode) : VM Unit := do
  let k := s.kind n.schema
  if (k = .leaf ∨ k = .leaflist) ∧
      !(options.filter || options.edit || options.get || options.getconfig) then
    modifyNode node fun m => { m with valueUnres := false }
    match n.valueType with
    | .leafref => unresDataAdd node .leafref
    | .inst => unresDataAdd node .instid
    | _ => pure ()

/-- Lines 373–378: queue the node's when conditions, for data whose type evaluates them. -/
def queueWhen (options : LydOptions) (node : Ptr) (n : LydNode) : VM Unit :=
  if (!options.typed || options.config) ∧ n.whenStatus then unresDataAdd node .when else pure ()

/-- Lines 386–401: an RPC argument placed after one declared later; the schema node that its
predecessor instantiates. -/
def rpcOrder (env : Env) (node : Ptr) (n : LydNode) : VM (Option Nat) := do
  if n.validity ∧ env.lypIsRpc n.schema then
    let pn ← getNode n.prev
    if n.prev ≠ node ∧ pn.next.isSome then
      StateT.lift (declaredLater env pn.schema s.nodes.length (env.lysGetnext n.schema))
    else pure none
  else pure none

/-- `lyv_data_context(node, options, unres)`. -/
def lyvDataContext (env : Env) (options : LydOptions) (node : Ptr) : VM VResult := do
  let n ← getNode node
  let name := (s.get n.schema).name
  if env.lysIsDisabled n.schema then return .fail (.inelem name)
  queueValue s options node n
  queueWhen options node n
  if (options.edit || options.getconfig || options.config) ∧ (s.get n.schema).configR then
    return .fail (.inelem name)
  match ← rpcOrder s env node n with
  | some siter => return .fail (.inorder name (s.get siter).name)
  | none => return .ok

/-! ## What a call does to the state -/

/-- What a node `n` needs for a request of kind `k` from `lyv_data_context`: a leaf or leaf-list
whose value is a leafref or an instance-identifier, or the when flag. `lyv_data_context` queues no
must request. -/
def Fits (n : LydNode) : UnresKind → Prop
  | .leafref => (s.kind n.schema = .leaf ∨ s.kind n.schema = .leaflist) ∧ n.valueType = .leafref
  | .instid => (s.kind n.schema = .leaf ∨ s.kind n.schema = .leaflist) ∧ n.valueType = .inst
  | .when => n.whenStatus = true
  | .must => False

/-- From `st` to `st'`, the calls for `node`, whose record is `n`, have at most cleared the flag
bits of its value, and have queued for it only requests that fit `n`. -/
def QueuedFor (node : Ptr) (n : LydNode) (st st' : VState) : Prop :=
  (st'.heap = st.heap ∨ st'.heap = st.heap.write node { n with valueUnres := false }) ∧
    ∃ ks : List UnresKind, st'.unres = st.unres ++ ks.map (Prod.mk node) ∧ ∀ k ∈ ks, Fits s n k

variable {s}

theorem QueuedFor.refl (node : Ptr) (n : LydNode) (st : VState) : QueuedFor s node n st st :=
  ⟨.inl rfl, [], by simp, by simp⟩

/-- A queueing step that leaves the heap alone extends what was done before it. -/
theorem QueuedFor.queue {node : Ptr} {n : LydNode} {st₁ st₂ st₃ : VState}
    (h₁ : QueuedFor s node n st₁ st₂) (hheap : st₃.heap = st₂.heap) {ks : List UnresKind}
    (hq : st₃.unres = st₂.unres ++ ks.map (Prod.mk node)) (hk : ∀ k ∈ ks, Fits s n k) :
    QueuedFor s node n st₁ st₃ := by
  obtain ⟨hh, ks₁, hq₁, hk₁⟩ := h₁
  refine ⟨hheap ▸ hh, ks₁ ++ ks, by simp [hq, hq₁], fun k hk' => ?_⟩
  exact (List.mem_append.mp hk').elim (hk₁ k) (hk k)

variable (s)

/-- Queueing a value from the record `n` of a live node: the call ends without fault, after
clearing the flag bits of the value and queueing a request that fits `n`, or doing nothing. -/
theorem queueValue_spec (options : LydOptions) {node : Ptr} {n : LydNode} {st : VState}
    (hn : st.heap.read? node = some n) :
    ∃ st', (queueValue s options node n).run st = .ok ((), st') ∧ QueuedFor s node n st st' := by
  simp only [queueValue]
  split_ifs with hk
  · simp only [StateT.run_bind, modifyNode_run, hn, except_ok_bind]
    split
    · next hv => exact ⟨_, rfl, .inr rfl, [.leafref], rfl, by simpa [Fits, hv] using hk.1⟩
    · next hv => exact ⟨_, rfl, .inr rfl, [.instid], rfl, by simpa [Fits, hv] using hk.1⟩
    · exact ⟨_, rfl, .inr rfl, [], by simp, by simp⟩
  · exact ⟨st, rfl, .refl node n st⟩

/-- Queueing a when condition: the heap is left alone, and a when request is queued only for a
node flagged `LYD_WHEN`. -/
theorem queueWhen_spec (options : LydOptions) (node : Ptr) (n : LydNode) (st : VState) :
    ∃ st', (queueWhen options node n).run st = .ok ((), st') ∧ st'.heap = st.heap ∧
      ∃ ks : List UnresKind, st'.unres = st.unres ++ ks.map (Prod.mk node) ∧
        ∀ k ∈ ks, Fits s n k := by
  unfold queueWhen
  split
  · next hw => exact ⟨_, rfl, rfl, [.when], rfl, by simpa [Fits] using hw.2⟩
  · exact ⟨st, rfl, rfl, [], by simp, by simp⟩

variable {env : Env}

/-- The run of the order check: for a node with `validity` set in an RPC, read the predecessor and,
unless the node is the first sibling, run the loop. It changes nothing. -/
theorem rpcOrder_run (p : Ptr) (n : LydNode) (st : VState) :
    (rpcOrder s env p n).run st =
      if n.validity = true ∧ env.lypIsRpc n.schema = true then
        match st.heap.read? n.prev with
        | some pn =>
          if n.prev ≠ p ∧ pn.next.isSome = true then
            declaredLater env pn.schema s.nodes.length (env.lysGetnext n.schema) >>=
              fun o => .ok (o, st)
          else .ok (none, st)
        | none => .error (.invalidRead n.prev)
      else .ok (none, st) := by
  unfold rpcOrder
  split
  · cases hp : st.heap.read? n.prev with
    | none => simp [StateT.run_bind, getNode_run, hp]
    | some pn =>
      simp only [StateT.run_bind, getNode_run, hp, except_ok_bind]
      split <;> rfl
  · rfl

theorem rpcOrder_state {p : Ptr} {n : LydNode} {st st' : VState} {o : Option Nat}
    (h : (rpcOrder s env p n).run st = .ok (o, st')) : st' = st := by
  rw [rpcOrder_run] at h
  split at h
  · split at h
    · split at h
      · cases hd : declaredLater env _ s.nodes.length (env.lysGetnext n.schema) <;>
          rw [hd] at h <;> cases h
        rfl
      · cases h; rfl
    · cases h
  · cases h; rfl

/-- **What `lyv_data_context` changes.** A call that ends without fault has read `node`, and has
at most cleared the flag bits of its value and queued for it requests that fit its record. -/
theorem lyvDataContext_spec {options : LydOptions} {node : Ptr} {st : VState} {r : VResult}
    {st' : VState} (h : (lyvDataContext s env options node).run st = .ok (r, st')) :
    ∃ n, st.heap.read? node = some n ∧ QueuedFor s node n st st' := by
  cases hn : st.heap.read? node with
  | none => simp [lyvDataContext, StateT.run_bind, getNode_run, hn] at h
  | some n =>
    refine ⟨n, rfl, ?_⟩
    obtain ⟨st₁, h₁, hq₁⟩ := queueValue_spec s options hn
    obtain ⟨st₂, h₂, hheap₂, ks, hq₂, hk₂⟩ := queueWhen_spec s options node n st₁
    have hq := hq₁.queue hheap₂ hq₂ hk₂
    simp only [lyvDataContext, StateT.run_bind, getNode_run, hn, except_ok_bind] at h
    split at h
    · cases h; exact .refl node n st
    · simp only [pure_bind, StateT.run_bind, h₁, h₂, except_ok_bind] at h
      split at h
      · cases h; exact hq
      · obtain ⟨o, st₃, h₃, h₄⟩ := run_bind_ok h
        cases rpcOrder_state s h₃
        split at h₄ <;> cases h₄ <;> exact hq

end YangValidation
