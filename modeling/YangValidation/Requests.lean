import YangValidation.Accept

/-!
# What the queued requests ask of their nodes

The requests a pass leaves in `unres_data` are served after it by `resolve_unres_data_item`,
through the node each one names. A request fits its node when the resolver can serve it there:
leafref and instance-identifier resolution is asked for a leaf or leaf-list whose value has that
type (as `lyv_data_value` asks for it at once), a when request for a node flagged `LYD_WHEN`, and a
must request for a node to which must conditions apply.

`lyv_data_context` queues the first three only under those conditions (lines 355–378: `Fits`,
`lyvDataContext_spec`) and `lyv_data_content` the fourth (line 665). Outside filter mode a pass
changes nothing a request depends on, so every request in the queue keeps fitting its node over
the whole pass (`validationPass_queueServed`). In filter mode the node of a request may be freed
(`filterPass_frees_queued`).
-/

namespace YangValidation

variable (s : Schema)

/-! ## Requests that fit their node -/

/-- Clearing flags keeps what a request needs of its node. -/
@[simp] theorem fits_unflagged (n : LydNode) (k : UnresKind) :
    Fits s n.unflagged k = Fits s n k := by
  cases k <;> rfl

/-- The resolver can serve the request `e` in the heap `h`: its node is live and fits it, or, for a
must request, must conditions apply to it. -/
def Serves (env : Env) (h : Heap) : Ptr × UnresKind → Prop
  | (p, .must) => (h.read? p).isSome ∧ env.resolveAppliesMust h p = true
  | (p, k) => ∃ n, h.read? p = some n ∧ Fits s n k

/-- Every request in the queue can be served. -/
def QueueServed (env : Env) (st : VState) : Prop :=
  ∀ e ∈ st.unres, Serves s env st.heap e

variable {s} {env : Env}

/-- A request stays served while flags are cleared, when `resolve_applies_must` does not read
them. -/
theorem Serves.of_clears {h h' : Heap} (hc : ClearsFlags h h')
    (hmust : env.resolveAppliesMust h' = env.resolveAppliesMust h) :
    ∀ {e : Ptr × UnresKind}, Serves s env h e → Serves s env h' e
  | (p, .must), ⟨hp, ha⟩ => by
    obtain ⟨n, hn⟩ := Option.isSome_iff_exists.mp hp
    obtain ⟨n', hn', -⟩ := hc.read_some hn
    exact ⟨by simp [hn'], hmust ▸ ha⟩
  | (_, .leafref), ⟨n, hn, hk⟩ | (_, .instid), ⟨n, hn, hk⟩
  | (_, .when), ⟨n, hn, hk⟩ => by
    obtain ⟨n', hn', he⟩ := hc.read_some hn
    exact ⟨n', hn', by rwa [← fits_unflagged, he, fits_unflagged]⟩

/-- The requests fitting `n`, queued for `p` live with `n`'s unflagged fields, are served. -/
theorem Serves.of_fits {h : Heap} {p : Ptr} {n n' : LydNode} (hn' : h.read? p = some n')
    (he : n'.unflagged = n.unflagged) : ∀ {k : UnresKind}, Fits s n k → Serves s env h (p, k)
  | .leafref, hk | .instid, hk | .when, hk =>
    ⟨n', hn', by rwa [← fits_unflagged, he, fits_unflagged]⟩
  | .must, hk => hk.elim

/-! ## A content call -/

/-- Outside filter mode a content step queues at most a must request for its node, and only when
must conditions apply to it. -/
theorem contentStep_queues {options : LydOptions} (hf : options.filter = false) {p : Ptr}
    {st : VState} {r : VResult} {st' : VState}
    (h : (contentStep s env options p).run st = .ok (r, st')) :
    ∃ ks : List UnresKind, st'.unres = st.unres ++ ks.map (Prod.mk p) ∧
      ∀ k ∈ ks, k = .must ∧ Serves s env st.heap (p, k) := by
  obtain ⟨r₁, st₁, h₁, h₂⟩ := run_bind_ok h
  obtain ⟨n, hn, x, st₂, hx, -⟩ := lyvDataContent_inv s h₁
  obtain ⟨hst, hF, -, -⟩ := validityChecks_spec s hf hn x st₂ hx
  subst st₂
  rw [lyvDataContent_run hn hx] at h₁
  cases x with
  | error v =>
    obtain ⟨e, rfl, -⟩ := hF
    cases h₁
    obtain ⟨_, _, h₃, h₄⟩ := run_bind_ok h₂
    cases h₃; cases h₄
    exact ⟨[], by simp, by simp⟩
  | ok =>
    cases h₁
    obtain ⟨_, _, h₃, h₄⟩ := run_bind_ok h₂
    cases h₄
    refine ⟨if env.resolveAppliesMust st.heap p then [.must] else [], ?_, ?_⟩
    · rw [modifyNode_unres h₃]
      split <;> simp
    · split <;> simp_all [Serves]

/-! ## Passes -/

/-- The queue stays served across a step that clears flags and queues requests served in the heap
it leaves. -/
theorem QueueServed.step {st st' : VState} (hs : QueueServed s env st)
    (hc : ClearsFlags st.heap st'.heap)
    (hmust : env.resolveAppliesMust st'.heap = env.resolveAppliesMust st.heap)
    {new : List (Ptr × UnresKind)} (hq : st'.unres = st.unres ++ new)
    (hnew : ∀ e ∈ new, Serves s env st'.heap e) : QueueServed s env st' := by
  intro e he
  rw [hq, List.mem_append] at he
  exact he.elim (fun he => (hs e he).of_clears hc hmust) (hnew e)

section Pass

variable {options : LydOptions} (hf : options.filter = false)
  (hmust : ∀ h h', ClearsFlags h h' → env.resolveAppliesMust h' = env.resolveAppliesMust h)
include hf hmust

theorem passStep_queueServed (c : VCall) {st : VState} {r : VResult} {st' : VState}
    (h : (passStep s env options c).run st = .ok (r, st')) (hs : QueueServed s env st) :
    QueueServed s env st' := by
  cases c with
  | context p =>
    have hc := (lyvDataContext_clearsUnres h).clears
    obtain ⟨n, hn, -, ks, hq, hk⟩ := lyvDataContext_spec s h
    obtain ⟨n', hn', he⟩ := hc.read_some hn
    refine hs.step hc (hmust _ _ hc) hq fun e he' => ?_
    obtain ⟨k, hk', rfl⟩ := List.mem_map.mp he'
    exact Serves.of_fits hn' he (hk k hk')
  | content p =>
    have hc := contentStep_clearsFlags hf h
    obtain ⟨ks, hq, hk⟩ := contentStep_queues hf h
    refine hs.step hc (hmust _ _ hc) hq fun e he' => ?_
    obtain ⟨k, hk', rfl⟩ := List.mem_map.mp he'
    exact (hk k hk').2.of_clears hc (hmust _ _ hc)

/-- **The resolver is handed only requests it can serve.** Over any pass of `lyv_data_context` and
`lyv_data_content` calls outside filter mode, when `resolve_applies_must` does not read the flags
a pass clears, every request the queue holds at the end fits its node, if every request it held at
the start did: a leafref or instance-identifier request names a live leaf or leaf-list whose value
has that type, a when request a live node flagged `LYD_WHEN`, and a must request a live node to
which must conditions apply. -/
theorem validationPass_queueServed :
    ∀ (calls : List VCall) {st : VState} {rs : List VResult} {st' : VState},
      (validationPass s env options calls).run st = .ok (rs, st') →
        QueueServed s env st → QueueServed s env st'
  | [], _, _, _, h => by cases h; exact id
  | c :: cs, _, _, _, h => by
    obtain ⟨r, st₁, h₁, h₂⟩ := run_bind_ok h
    obtain ⟨rs, st₂, h₂, h₃⟩ := run_bind_ok h₂
    cases h₃
    exact fun hs => validationPass_queueServed cs h₂ (passStep_queueServed hf hmust c h₁ hs)

end Pass

/-- The pass of `validationPass_clearsFlags_sel`, from an empty queue: the two must requests it
queues are served. -/
theorem validationPass_queueServed_sel :
    ∃ rs st', (validationPass leafListSchema mustEnv {} [.context 0, .content 0, .content 1]).run
        { heap := selValueHeap } = .ok (rs, st') ∧ st'.unres = [(0, .must), (1, .must)] ∧
      QueueServed leafListSchema mustEnv st' :=
  ⟨_, _, rfl, rfl, @validationPass_queueServed leafListSchema mustEnv {} rfl (fun _ _ _ => rfl)
    [.context 0, .content 0, .content 1] { heap := selValueHeap } _ _ rfl (fun _ h => nomatch h)⟩

end YangValidation
