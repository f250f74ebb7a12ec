import Mathlib.Data.List.Basic

/-!
# Schema trees, validation options and errors

The validator of `validation.c` reads a schema tree it never changes: every data node points at
the `lys_node` it instantiates, and the checks walk that node's `parent` chain (through `choice`
and `case` statements), its list keys and the `type.der` chain of its typedefs.

A `lys_node *` is an index into `Schema.nodes` and a `lys_tpdf *` an index into `Schema.tpdfs`, so
pointer comparisons such as `diter->schema == schema` are comparisons of indices. The schema carries
the invariant that makes its pointer chains finite: a parent (and a derived-from typedef) has a
smaller index than the node itself, so no walk up the tree can cycle.

The module also fixes the flags of the `options` argument and the `LYE_*` errors the checks log.
-/

namespace YangValidation

/-! ## Schema nodes -/

/-- Schema node kinds, the values of `lys_node.nodetype` that the validator tells apart. -/
inductive LysNodeType where
  | container
  | choice
  | leaf
  | leaflist
  | list
  | anyxml
  | case
  /-- Every other kind (`uses`, `grouping`, `rpc`, `input`, `output`, `notif`, `augment`). -/
  | other
  deriving DecidableEq, Repr, Inhabited

/-- `LYS_STATUS_*`, the `status` statement of a schema node or typedef. -/
inductive LysStatus where
  | current
  | deprecated
  | obsolete
  deriving DecidableEq, Repr, Inhabited

/-- `LY_TYPE_*`, the base types of a leaf's value that the validator tests. -/
inductive LyDataType where
  | leafref
  | inst
  | ident
  | other
  deriving DecidableEq, Repr, Inhabited

/-- A typedef (`struct lys_tpdf`): its name, its status and the typedef its own type derives
from (`type.der`, `none` for a built-in type). -/
structure LysTpdf where
  name : String
  status : LysStatus := .current
  der : Option Nat := none
  deriving DecidableEq, Repr, Inhabited

/-- A schema node (`struct lys_node` with the fields of `lys_node_list` and `lys_node_leaf` the
validator reads). -/
structure LysNode where
  name : String
  nodetype : LysNodeType
  parent : Option Nat := none
  status : LysStatus := .current
  /-- `flags & LYS_CONFIG_R`: instances are state (read-only) data. -/
  configR : Bool := false
  /-- `lys_node_list.keys`, in declaration order. -/
  keys : List Nat := []
  /-- `lys_node_leaf.type.base`. -/
  typeBase : LyDataType := .other
  /-- `lys_node_leaf.type.info.inst.req`. -/
  instReq : Int := 0
  /-- `lys_node_leaf.type.der`. -/
  typeDer : Option Nat := none
  deriving DecidableEq, Repr, Inhabited

/-- A schema tree: its nodes and typedefs, addressed by index. Parents and derived-from typedefs
come before the nodes that point at them, so every chain of `parent` or `der` links ends. -/
structure Schema where
  nodes : List LysNode
  tpdfs : List LysTpdf := []
  parent_lt : ∀ i (hi : i < nodes.length), nodes[i].parent.all (· < i) = true := by decide
  der_lt : ∀ i (hi : i < tpdfs.length), tpdfs[i].der.all (· < i) = true := by decide

namespace Schema

/-- Dereference a `lys_node *`. -/
def get (s : Schema) (i : Nat) : LysNode := s.nodes.getD i default

/-- Dereference a `lys_tpdf *`. -/
def tpdf (s : Schema) (i : Nat) : LysTpdf := s.tpdfs.getD i default

/-- The `nodetype` of the node at `i`. -/
def kind (s : Schema) (i : Nat) : LysNodeType := (s.get i).nodetype

variable {s : Schema} {i : Nat}

/-- A parent comes before its child, so every walk up the schema tree ends. -/
theorem get_parent_lt {p : Nat} (h : (s.get i).parent = some p) : p < i := by
  rw [get, List.getD_eq_getElem?_getD] at h
  by_cases hi : i < s.nodes.length
  · have := s.parent_lt i hi
    rw [List.getElem?_eq_getElem hi, Option.getD_some] at h
    simpa [h] using this
  · rw [List.getElem?_eq_none (by omega)] at h
    cases h

/-- A parent is a node of the schema. -/
theorem get_parent_lt_length {p : Nat} (h : (s.get i).parent = some p) : p < s.nodes.length := by
  by_cases hi : i < s.nodes.length
  · exact lt_trans (get_parent_lt h) hi
  · rw [get, List.getD_eq_getElem?_getD, List.getElem?_eq_none (by omega)] at h
    cases h

/-- A typedef derives from one that comes before it, so every `type.der` chain ends. -/
theorem tpdf_der_lt {t : Nat} (h : (s.tpdf i).der = some t) : t < i := by
  rw [tpdf, List.getD_eq_getElem?_getD] at h
  by_cases hi : i < s.tpdfs.length
  · have := s.der_lt i hi
    rw [List.getElem?_eq_getElem hi, Option.getD_some] at h
    simpa [h] using this
  · rw [List.getElem?_eq_none (by omega)] at h
    cases h

end Schema

/-! ## Options -/

/-- The `LYD_OPT_*` flags of the `options` argument that the validator tests. -/
structure LydOptions where
  config : Bool := false
  get : Bool := false
  getconfig : Bool := false
  edit : Bool := false
  filter : Bool := false
  /-- Any of `LYD_OPT_RPC`, `LYD_OPT_RPCREPLY`, `LYD_OPT_NOTIF`: the rest of `LYD_OPT_TYPEMASK`. -/
  rpcNotif : Bool := false
  obsolete : Bool := false
  deriving DecidableEq, Repr

namespace LydOptions

/-- `options & LYD_OPT_TYPEMASK`: some data type is named. -/
def typed (o : LydOptions) : Bool :=
  o.config || o.get || o.getconfig || o.edit || o.filter || o.rpcNotif

end LydOptions

/-! ## Errors and results -/

/-- The validation errors `LOGVAL` reports, with the names it prints. -/
inductive LyVErr where
  /-- `LYE_INELEM`: a disabled or misplaced element. -/
  | inelem (name : String)
  /-- `LYE_INORDER`: an RPC argument after one declared later. -/
  | inorder (name later : String)
  /-- `LYE_MISSELEM`: a missing key or mandatory child. -/
  | misselem (name parent : String)
  /-- `LYE_MISSELEM` for a key that `lyv_keys` then finds later among the children (the second
  message, `LYE_SPEC` "Invalid position of the key element.", names that child). -/
  | keyMisplaced (name parent : String) (child : Nat)
  /-- `LYE_INCOUNT`: too few instances of a mandatory list or leaf-list. -/
  | incount (name parent : String)
  /-- `LYE_MCASEDATA`: data of two cases of one choice. -/
  | mcasedata (choice : String)
  /-- `LYE_TOOMANY`: a second instance of a container, leaf or anyxml. -/
  | toomany (name parent : String)
  /-- `LYE_DUPLIST`: two equal list or leaf-list instances. -/
  | duplist (name : String)
  /-- `LYE_OBSDATA`: an instance of an obsolete schema node. -/
  | obsdata (name : String)
  /-- `LYE_OBSTYPE`: a leaf whose type derives from an obsolete typedef. -/
  | obstype (name tpdf : String)
  /-- The error `lyp_check_status` logs for an identity value. -/
  | instatus
  /-- `resolve_unres_data_item` could not resolve a leafref or instance-identifier. -/
  | unresolved
  deriving DecidableEq, Repr

/-- What a check returns to its caller. `EXIT_FAILURE` without a logged error is the filter
mode's request to remove the node, so it gets its own outcome. -/
inductive VResult where
  /-- `EXIT_SUCCESS`. -/
  | ok
  /-- `EXIT_FAILURE` with no error logged: the caller removes the node. -/
  | discard
  /-- `EXIT_FAILURE` after `LOGVAL`. -/
  | fail (e : LyVErr)
  deriving DecidableEq, Repr

end YangValidation
