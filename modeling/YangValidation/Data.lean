import YangValidation.Schema
import Mathlib.Data.List.Nodup

/-!
# Data trees in memory

A data tree is a graph of `struct lyd_node` records linked by pointers: `parent`, `child` (the
first child), and the sibling ring `next`/`prev` in which the first sibling's `prev` points at the
last one and the last one's `next` is NULL. The validator walks these rings, frees nodes in filter
mode and splices children from one node to another, so the model keeps the pointers: a heap maps
addresses to records, and a freed record is gone.

Reading a freed node is undefined behaviour in C; here it is the fault `invalidRead`, so a run
that touches freed memory does not produce a result. A walk that does not end (a cyclic `next`
chain) is the fault `diverge`; every walk gets the heap's size as fuel, which is enough on a
well-formed tree.

The pure view of a ring is the list of its addresses, and `Linked` says that the pointers
realise that list. The walks of the code are computed on that list by `siblings_of_linked` and
`Linked.firstSibling_getElem`.
-/

namespace YangValidation

/-! ## Nodes and the heap -/

/-- An address of a data node; `NULL` is `none : Option Ptr`. -/
abbrev Ptr := Nat

/-- A data node: `struct lyd_node` with the fields of `lyd_node_leaf_list` and
`lyd_node_anyxml` that the validator reads. -/
structure LydNode where
  /-- The `lys_node` it instantiates. -/
  schema : Nat
  /-- Set by the producer when the node needs (re)validation. -/
  validity : Bool := false
  /-- `when_status & LYD_WHEN`: an unevaluated when condition is attached. -/
  whenStatus : Bool := false
  parent : Option Ptr := none
  next : Option Ptr := none
  prev : Ptr
  child : Option Ptr := none
  /-- `value_str` of a leaf or leaf-list as its entry in the string dictionary, so that
  `ly_strequal(a, b, 1)` is equality; `none` marks a selection node in a filter. -/
  valueStr : Option Nat := none
  /-- `value_type` without the flag bits. -/
  valueType : LyDataType := .other
  /-- The flag bits of `value_type` above `LY_DATA_TYPE_MASK`. -/
  valueUnres : Bool := false
  /-- `value.leafref != NULL`. -/
  leafrefSet : Bool := false
  /-- `value.ident`, the identity of an identityref value. -/
  ident : Nat := 0
  /-- `lyd_node_anyxml.value->child != NULL`: the anyxml carries content. -/
  xmlChild : Bool := false
  deriving DecidableEq, Repr

/-- Memory: address `p` holds `some n` while the node is allocated, `none` once it is freed. -/
abbrev Heap := List (Option LydNode)

/-- What makes a run of the model stop without a result. -/
inductive Fault where
  /-- Reading a freed (or never allocated) node. -/
  | invalidRead (p : Ptr)
  /-- Writing a freed (or never allocated) node. -/
  | invalidWrite (p : Ptr)
  /-- Dereferencing NULL. -/
  | nullDeref
  /-- A walk along pointers that does not end. -/
  | diverge
  deriving DecidableEq, Repr

/-- Outcomes of the model are compared, so that fixed runs can be decided. -/
instance exceptDecidableEq {ε α : Type} [DecidableEq ε] [DecidableEq α] :
    DecidableEq (Except ε α)
  | .ok a, .ok b => if h : a = b then isTrue (h ▸ rfl) else isFalse fun e => h (by cases e; rfl)
  | .error a, .error b =>
    if h : a = b then isTrue (h ▸ rfl) else isFalse fun e => h (by cases e; rfl)
  | .ok _, .error _ => isFalse fun e => by cases e
  | .error _, .ok _ => isFalse fun e => by cases e

@[simp] theorem except_ok_bind {ε α β : Type} (a : α) (f : α → Except ε β) :
    ((Except.ok a : Except ε α) >>= f) = f a := rfl

@[simp] theorem except_error_bind {ε α β : Type} (e : ε) (f : α → Except ε β) :
    ((Except.error e : Except ε α) >>= f) = .error e := rfl

@[simp] theorem except_pure {ε α : Type} (a : α) : (pure a : Except ε α) = .ok a := rfl

/-- A computation that reads the outcome of `x` only through `f` cannot tell `x` from an outcome
`y` with the same image. -/
theorem except_bind_congr_map {ε α β γ : Type} {f : α → β} {x y : Except ε α}
    (hxy : x.map f = y.map f) (k : β → Except ε γ) :
    (x >>= fun a => k (f a)) = (y >>= fun a => k (f a)) := by
  cases x <;> cases y <;> simp only [Except.map, Except.ok.injEq, Except.error.injEq,
    reduceCtorEq] at hxy <;> simp [hxy]

namespace Heap

/-- Dereference `p`. -/
def read? (h : Heap) (p : Ptr) : Option LydNode := (h[p]?).join

/-- Dereference `p`, faulting on freed memory. -/
def deref (h : Heap) (p : Ptr) : Except Fault LydNode :=
  match h.read? p with
  | some n => .ok n
  | none => .error (.invalidRead p)

@[simp] theorem deref_of_read? {h : Heap} {p : Ptr} {n : LydNode} (hp : h.read? p = some n) :
    h.deref p = .ok n := by
  simp [deref, hp]

/-- Store a record at `p`. -/
def write (h : Heap) (p : Ptr) (n : LydNode) : Heap := h.set p (some n)

/-- `free(p)`. -/
def dealloc (h : Heap) (p : Ptr) : Heap := h.set p none

theorem lt_length_of_read? {h : Heap} {p : Ptr} {n : LydNode} (hp : h.read? p = some n) :
    p < h.length := by
  by_contra hc
  simp [read?, List.getElem?_eq_none (Nat.le_of_not_lt hc)] at hp

@[simp] theorem read?_write_self {h : Heap} {p : Ptr} {n m : LydNode} (hp : h.read? p = some m) :
    (h.write p n).read? p = some n := by
  simp [read?, write, lt_length_of_read? hp]

@[simp] theorem read?_write_ne (h : Heap) {p q : Ptr} (n : LydNode) (hq : q ≠ p) :
    (h.write p n).read? q = h.read? q := by
  simp [read?, write, List.getElem?_set_ne (Ne.symm hq)]

/-- Writing a live node frees nothing. -/
theorem isSome_read?_write {h : Heap} {p q : Ptr} {m : LydNode} (n : LydNode)
    (hp : h.read? p = some m) (hq : (h.read? q).isSome) : ((h.write p n).read? q).isSome := by
  by_cases hqp : q = p
  · subst hqp; simp [hp]
  · simpa [hqp] using hq

@[simp] theorem read?_dealloc_self (h : Heap) (p : Ptr) : (h.dealloc p).read? p = none := by
  by_cases hp : p < h.length <;> simp [read?, dealloc, List.getElem?_set, hp]

@[simp] theorem read?_dealloc_ne (h : Heap) {p q : Ptr} (hq : q ≠ p) :
    (h.dealloc p).read? q = h.read? q := by
  simp [read?, dealloc, List.getElem?_set_ne (Ne.symm hq)]

@[simp] theorem length_write (h : Heap) (p : Ptr) (n : LydNode) : (h.write p n).length = h.length :=
  List.length_set ..

@[simp] theorem length_dealloc (h : Heap) (p : Ptr) : (h.dealloc p).length = h.length :=
  List.length_set ..

/-- A list of distinct live addresses is no longer than the heap. -/
theorem length_le_of_nodup {h : Heap} {L : List Ptr} (hL : L.Nodup)
    (hlive : ∀ p ∈ L, (h.read? p).isSome) : L.length ≤ h.length := by
  have hsub : L ⊆ List.range h.length := fun p hp => by
    obtain ⟨n, hn⟩ := Option.isSome_iff_exists.mp (hlive p hp)
    exact List.mem_range.mpr (lt_length_of_read? hn)
  simpa using (List.subperm_of_subset hL hsub).length_le

end Heap

/-! ## The sibling walk -/

/-- The nodes `LY_TREE_FOR(start, elem)` visits, each with the record it holds: `start`,
`start->next`, … up to NULL. -/
def siblings (h : Heap) : Nat → Option Ptr → Except Fault (List (Ptr × LydNode))
  | _, none => .ok []
  | 0, some _ => .error .diverge
  | f + 1, some p =>
    match h.read? p with
    | none => .error (.invalidRead p)
    | some n => (siblings h f n.next).map ((p, n) :: ·)

section Walk

variable {h : Heap}

/-- A walk that visits `c` first starts at `c`, finds `c`'s record there, and goes on from
`c.next`. -/
theorem siblings_eq_cons {f : Nat} {o : Option Ptr} {c : Ptr × LydNode} {R : List (Ptr × LydNode)}
    (hs : siblings h f o = .ok (c :: R)) :
    ∃ f', f = f' + 1 ∧ o = some c.1 ∧ h.read? c.1 = some c.2 ∧ siblings h f' c.2.next = .ok R := by
  match f, o, hs with
  | f + 1, some p, hs =>
    simp only [siblings] at hs
    split at hs
    · cases hs
    · next n hn =>
      cases hr : siblings h f n.next with
      | error => rw [hr] at hs; cases hs
      | ok R' => rw [hr] at hs; cases hs; exact ⟨f, rfl, rfl, hn, hr⟩

theorem siblings_eq_nil {f : Nat} {o : Option Ptr} (hs : siblings h f o = .ok []) : o = none := by
  match f, o, hs with
  | _, none, _ => rfl
  | f + 1, some p, hs =>
    simp only [siblings] at hs
    split at hs
    · cases hs
    · cases hr : siblings h f _ <;> rw [hr] at hs <;> cases hs

/-- The walk pairs each node it visits with the record the node holds. -/
theorem siblings_read? : ∀ {f : Nat} {o : Option Ptr} {R : List (Ptr × LydNode)},
    siblings h f o = .ok R → ∀ c ∈ R, h.read? c.1 = some c.2
  | _, _, [], _, _, hc => by cases hc
  | _, _, d :: R, hs, c, hc => by
    obtain ⟨f', -, -, hd, hR⟩ := siblings_eq_cons hs
    rcases List.mem_cons.mp hc with rfl | hc
    · exact hd
    · exact siblings_read? hR c hc

/-- More fuel does not change a walk that ends. -/
theorem siblings_mono : ∀ {f f' : Nat} {o : Option Ptr} {R : List (Ptr × LydNode)},
    siblings h f o = .ok R → f ≤ f' → siblings h f' o = .ok R
  | _, _, o, [], hs, _ => by rw [siblings_eq_nil hs]; cases ‹Nat› <;> rfl
  | _, f' + 1, _, c :: R, hs, hf => by
    obtain ⟨g, rfl, rfl, hc, hR⟩ := siblings_eq_cons hs
    simp only [siblings, hc, siblings_mono hR (by omega : g ≤ f')]
    rfl
  | _, 0, _, c :: R, hs, hf => by
    obtain ⟨g, rfl, -⟩ := siblings_eq_cons hs; omega

/-- The walk from a node it visited visits the rest of the walk. -/
theorem siblings_suffix : ∀ {f : Nat} {o : Option Ptr} (A : List (Ptr × LydNode))
    {c : Ptr × LydNode} {B : List (Ptr × LydNode)},
    siblings h f o = .ok (A ++ c :: B) → siblings h f (some c.1) = .ok (c :: B)
  | _, _, [], _, _, hs => by
    obtain ⟨_, -, rfl, -⟩ := siblings_eq_cons hs; exact hs
  | _, _, d :: A, _, _, hs => by
    obtain ⟨g, rfl, -, -, hR⟩ := siblings_eq_cons hs
    exact siblings_mono (siblings_suffix A hR) (Nat.le_succ g)

/-- The walk from the first visited node satisfying `P` visits a part of the walk that holds
every visited node satisfying `P`. -/
theorem siblings_find? {f : Nat} {o : Option Ptr} {R T : List (Ptr × LydNode)}
    {P : Ptr × LydNode → Bool} (hR : siblings h f o = .ok R)
    (hT : siblings h f ((R.find? P).map (·.1)) = .ok T) :
    (∀ c ∈ T, c ∈ R) ∧ ∀ c ∈ R, c ∈ T ∨ P c = false := by
  cases hfind : R.find? P with
  | none =>
    rw [hfind] at hT
    cases (show T = [] by simpa [siblings] using hT.symm)
    exact ⟨fun c hc => (List.not_mem_nil c hc).elim,
      fun c hc => .inr (by simpa using List.find?_eq_none.mp hfind c hc)⟩
  | some c₀ =>
    obtain ⟨-, A, B, rfl, hA⟩ := List.find?_eq_some.mp hfind
    rw [hfind, Option.map_some', siblings_suffix A hR] at hT
    cases hT
    refine ⟨fun c hc => List.mem_append_right _ hc, fun c hc => ?_⟩
    rcases List.mem_append.mp hc with hc | hc
    · exact .inr (by simpa using hA c hc)
    · exact .inl hc

end Walk

/-- `Linked h q L`: the nodes `L` are live and linked in this order, each `next` pointing at the
following one (the last at NULL) and each `prev` at the preceding one, the first one's at `q`. -/
def Linked (h : Heap) (q : Ptr) : List Ptr → Prop
  | [] => True
  | p :: L => ∃ n, h.read? p = some n ∧ n.prev = q ∧ n.next = L.head? ∧ Linked h p L

/-- The records of the live nodes among `L`, as the walk pairs them. -/
def records (h : Heap) (L : List Ptr) : List (Ptr × LydNode) :=
  L.filterMap fun p => (h.read? p).map (Prod.mk p)

@[simp] theorem records_nil (h : Heap) : records h [] = [] := rfl

@[simp] theorem mem_records {h : Heap} {L : List Ptr} {c : Ptr × LydNode} :
    c ∈ records h L ↔ c.1 ∈ L ∧ h.read? c.1 = some c.2 := by
  obtain ⟨q, n⟩ := c
  simp only [records, List.mem_filterMap, Option.map_eq_some', Prod.mk.injEq]
  constructor
  · rintro ⟨a, ha, m, hm, rfl, rfl⟩; exact ⟨ha, hm⟩
  · rintro ⟨hq, hn⟩; exact ⟨q, hq, n, hn, rfl, rfl⟩

theorem records_cons_of_read? {h : Heap} {p : Ptr} {n : LydNode} (L : List Ptr)
    (hp : h.read? p = some n) : records h (p :: L) = (p, n) :: records h L := by
  simp [records, hp]

theorem Linked.live {h : Heap} {q : Ptr} : ∀ {L : List Ptr}, Linked h q L →
    ∀ p ∈ L, (h.read? p).isSome
  | [], _, _, hp => by simp at hp
  | p :: L, ⟨n, hn, _, _, hL⟩, r, hr => by
    rcases List.mem_cons.mp hr with rfl | hr
    · simp [hn]
    · exact hL.live r hr

/-- On a linked list the walk visits exactly its nodes, given enough fuel. -/
theorem siblings_of_linked {h : Heap} {q : Ptr} :
    ∀ {L : List Ptr} {f : Nat}, Linked h q L → L.length ≤ f →
      siblings h f L.head? = .ok (records h L)
  | [], _, _, _ => by simp [siblings]
  | p :: L, f + 1, ⟨n, hn, _, hnext, hL⟩, hf => by
    have ih := siblings_of_linked hL (f := f) (by simpa using hf)
    simp only [List.head?_cons, siblings, hn, hnext, ih, records_cons_of_read? L hn]
    rfl
  | _ :: _, 0, _, hf => by simp at hf

/-- Node `k` of a linked list: its `prev` is node `k - 1` (or `q` for the first) and its `next`
is node `k + 1` (or NULL for the last). -/
theorem Linked.getElem {h : Heap} {q : Ptr} : ∀ {L : List Ptr}, Linked h q L →
    ∀ k (hk : k < L.length),
      ∃ n, h.read? L[k] = some n ∧ some n.prev = (q :: L)[k]? ∧ n.next = L[k + 1]?
  | [], _, _, hk => absurd hk (Nat.not_lt_zero _)
  | p :: L, ⟨n, hn, hprev, hnext, _⟩, 0, _ => ⟨n, hn, by simp [hprev], by cases L <;> simp_all⟩
  | p :: L, ⟨_, _, _, _, hL⟩, k + 1, hk => by
    simpa using hL.getElem k (by simpa using hk)

/-! ## The walk back to the first sibling -/

/-- `for (start = node; start->prev->next; start = start->prev);`: walk back along `prev` until
the predecessor is the last sibling (its `next` is NULL). -/
def firstSibling (h : Heap) : Nat → Ptr → Except Fault Ptr
  | 0, _ => .error .diverge
  | f + 1, p =>
    match h.read? p with
    | none => .error (.invalidRead p)
    | some n =>
      match h.read? n.prev with
      | none => .error (.invalidRead n.prev)
      | some m => if m.next.isSome then firstSibling h f n.prev else .ok p

section Back

variable {h : Heap} {L : List Ptr}

/-- In a list whose first node points back at the last one, the last one's `next` is NULL. -/
theorem Linked.prev_head (hl : Linked h (L.getLastD 0) L) (hL : 0 < L.length) :
    ∃ n, h.read? L[0] = some n ∧ n.prev = L[L.length - 1] ∧
      ∃ m, h.read? n.prev = some m ∧ m.next = none := by
  obtain ⟨n, hn, hprev, -⟩ := hl.getElem 0 hL
  obtain ⟨m, hm, -, hlast⟩ := hl.getElem (L.length - 1) (by omega)
  have hnl : n.prev = L[L.length - 1] := by
    rw [List.getElem?_cons_zero] at hprev
    rw [Option.some.inj hprev, List.getLastD_eq_getLast?, List.getLast?_eq_getElem?,
      List.getElem?_eq_getElem (by omega : L.length - 1 < L.length), Option.getD_some]
  refine ⟨n, hn, hnl, m, hnl ▸ hm, ?_⟩
  rw [hlast]; exact List.getElem?_eq_none (by omega)

/-- From node `k` of a list whose first node points back at the last one, the backward walk takes
`k` steps and stops at the first node: given more than `k` units of fuel it returns the first
node, given fewer it runs out. -/
theorem Linked.firstSibling_getElem (hl : Linked h (L.getLastD 0) L) :
    ∀ k (hk : k < L.length) f,
      firstSibling h f L[k] = if k < f then .ok L[0] else .error .diverge
  | _, _, 0 => rfl
  | 0, hk, f + 1 => by
    obtain ⟨n, hn, -, m, hm, hmn⟩ := hl.prev_head hk
    simp only [firstSibling, hn, hm, hmn, Option.isSome_none, Bool.false_eq_true, if_false,
      Nat.zero_lt_succ, if_true]
  | k + 1, hk, f + 1 => by
    obtain ⟨n, hn, hprev, -⟩ := hl.getElem (k + 1) hk
    obtain ⟨m, hm, -, hnext⟩ := hl.getElem k (by omega)
    have hnk : n.prev = L[k] := by
      rw [List.getElem?_cons_succ, List.getElem?_eq_getElem (by omega : k < L.length)] at hprev
      exact Option.some.inj hprev
    have hmk : m.next.isSome := by rw [hnext, List.getElem?_eq_getElem hk]; rfl
    simp only [firstSibling, hn, hnk, hm, hmk, if_true, hl.firstSibling_getElem k (by omega) f]
    simp only [Nat.add_lt_add_iff_right]

end Back

/-! ## Sibling rings -/

/-- `Ring h par L`: the distinct nodes `L` form one sibling ring hanging under `par`. The first
node's `prev` is the last node, every node's `parent` is `par`, and `par`'s `child` is the first
node. -/
structure Ring (h : Heap) (par : Option Ptr) (L : List Ptr) : Prop where
  nodup : L.Nodup
  linked : Linked h (L.getLastD 0) L
  parent_eq : ∀ p ∈ L, ∀ n, h.read? p = some n → n.parent = par
  child_eq : ∀ q, par = some q → ∃ n, h.read? q = some n ∧ n.child = L.head?

namespace Ring

variable {h : Heap} {par : Option Ptr} {L : List Ptr}

theorem live (hr : Ring h par L) : ∀ p ∈ L, (h.read? p).isSome := hr.linked.live

theorem length_le (hr : Ring h par L) : L.length ≤ h.length :=
  Heap.length_le_of_nodup hr.nodup hr.live

/-- `LY_TREE_FOR` from the first node of a ring visits the whole ring. -/
theorem siblings_head (hr : Ring h par L) : siblings h h.length L.head? = .ok (records h L) :=
  siblings_of_linked hr.linked hr.length_le

end Ring

/-! ## Deciding the shape of a ring

`Linked` and `Ring` are decided on a given heap, so that the shape of a fixed tree is checked by
`decide`. -/

instance decidableLinked (h : Heap) : ∀ q L, Decidable (Linked h q L)
  | _, [] => isTrue trivial
  | q, p :: L =>
    haveI := decidableLinked h p L
    decidable_of_iff (∃ n ∈ h.read? p, n.prev = q ∧ n.next = L.head? ∧ Linked h p L) Iff.rfl

instance decidableRing (h : Heap) (par : Option Ptr) (L : List Ptr) : Decidable (Ring h par L) :=
  decidable_of_iff (L.Nodup ∧ Linked h (L.getLastD 0) L ∧
      (∀ p ∈ L, ∀ n ∈ h.read? p, n.parent = par) ∧ ∀ q ∈ par, ∃ n ∈ h.read? q, n.child = L.head?)
    ⟨fun ⟨a, b, c, d⟩ => ⟨a, b, c, d⟩, fun ⟨a, b, c, d⟩ => ⟨a, b, c, d⟩⟩

end YangValidation
