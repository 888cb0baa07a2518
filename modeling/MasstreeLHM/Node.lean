import Mathlib.Algebra.Group.Nat.Defs
import MasstreeLHM.DirectoryMeta
import MasstreeLHM.Kpermuter

/-!
# Nodes and the node heap

`leaf<P>`, `internode<P>` and `node_base<P>` of `masstree_struct.hh`.  Node addresses are natural
numbers handed out in increasing order; the heap never reuses one, because the pool only recycles
memory when a thread quiesces, which no namespace operation does.  What `deallocate_rcu` receives is
logged in `retired`.

Of the version word a node keeps the root and the deleted bit.  The lock bit and the change counters
serve concurrent readers; `mark_split` and `mark_deleted` clear the root bit when the node is
unlocked, and since nobody reads the bit in between, the model clears it at once, as
`singlethreaded_nodeversion` does.

A `Slot` is what a leaf keeps at one position, with the type of its contents as a parameter: the
namespace and the table of strings use the same nodes with different contents.  A `Heap` is a total
function on addresses with the number of addresses that have been handed out, so that a write is a
pointwise change, and every operation on it has a simp lemma that reads a node behind it.
-/

namespace MasstreeLHM

/-- A node address. -/
abbrev Ptr := ℕ

/-- `nodeparams<LW, IW>`. -/
structure NodeParams where
  leafWidth : ℕ
  internodeWidth : ℕ
  three_le_leafWidth : 3 ≤ leafWidth
  one_le_internodeWidth : 1 ≤ internodeWidth

/-- One position of a leaf: its `ikey0_` slice, and what is stored under it (the namespace
table keeps `keylenx_` and `lv_` there). -/
structure Slot (β : Type) where
  ikey : ℕ
  body : β
deriving Repr, DecidableEq, Inhabited

/-- `modstate_`. -/
inductive Modstate where
  | insert
  | remove
  | deletedLayer
deriving Repr, DecidableEq, Inhabited

/-- `leaf<P>`. -/
structure Leaf (β : Type) where
  isRoot : Bool
  deleted : Bool
  modstate : Modstate
  permutation : Kpermuter
  slots : List (Slot β)
  next : Option Ptr
  prev : Option Ptr
  parent : Option Ptr
  directoryMeta : Option DirectoryMeta
deriving Repr, Inhabited

/-- `internode<P>`: `keys` is `ikey0_[0 .. nkeys_)` and `children` is `child_[0 .. nkeys_]`. -/
structure Internode where
  isRoot : Bool
  deleted : Bool
  height : ℕ
  keys : List ℕ
  children : List (Option Ptr)
  parent : Option Ptr
  directoryMeta : Option DirectoryMeta
deriving Repr, Inhabited

/-- `node_base<P>`. -/
inductive Node (β : Type) where
  | leaf (l : Leaf β)
  | internode (n : Internode)
deriving Repr

instance {β : Type} : Inhabited (Node β) := ⟨.internode default⟩

variable {β : Type}

namespace Leaf

/-- `size`. -/
def size (l : Leaf β) : ℕ := l.permutation.size

/-- The contents of position `p`. -/
def slot [Inhabited β] (l : Leaf β) (p : ℕ) : Slot β := l.slots.getD p default

/-- `ikey_bound`: position 0 holds the lower bound of the leaf. -/
def ikeyBound [Inhabited β] (l : Leaf β) : ℕ := (l.slot 0).ikey

/-- The live positions' contents in key order. -/
def entries [Inhabited β] (l : Leaf β) : List (Slot β) := l.permutation.live.map l.slot

/-- Store `s` at position `p`: `assign`, and the later writes to `lv_[p]` and `keylenx_[p]`. -/
def assign (l : Leaf β) (p : ℕ) (s : Slot β) : Leaf β := { l with slots := l.slots.set p s }

/-- `leaf::make`: an empty leaf; its positions are uninitialised memory. -/
def make [Inhabited β] (P : NodeParams) : Leaf β :=
  { isRoot := false, deleted := false, modstate := .insert,
    permutation := Kpermuter.makeEmpty P.leafWidth,
    slots := List.replicate P.leafWidth default,
    next := none, prev := none, parent := none, directoryMeta := none }

/-- `make_root` and, with a record, `make_root_with_meta`. -/
def makeRoot [Inhabited β] (P : NodeParams) (m : Option DirectoryMeta) : Leaf β :=
  { (Leaf.make P : Leaf β) with isRoot := true, directoryMeta := m,
                                slots := List.replicate P.leafWidth ⟨0, default⟩ }

end Leaf

namespace Internode

/-- `size`. -/
def size (n : Internode) : ℕ := n.keys.length

/-- `child_[i]`. -/
def child (n : Internode) (i : ℕ) : Option Ptr := n.children.getD i none

end Internode

namespace Node

/-- `isleaf`. -/
def isLeaf : Node β → Bool
  | .leaf _ => true
  | .internode _ => false

/-- `parent`. -/
def parent : Node β → Option Ptr
  | .leaf l => l.parent
  | .internode n => n.parent

/-- `set_parent`. -/
def setParent (p : Option Ptr) : Node β → Node β
  | .leaf l => .leaf { l with parent := p }
  | .internode n => .internode { n with parent := p }

/-- `is_root`. -/
def isRoot : Node β → Bool
  | .leaf l => l.isRoot
  | .internode n => n.isRoot

/-- `deleted`. -/
def deleted : Node β → Bool
  | .leaf l => l.deleted
  | .internode n => n.deleted

/-- `mark_deleted`, with its effect at unlock. -/
def markDeleted : Node β → Node β
  | .leaf l => .leaf { l with deleted := true, isRoot := false }
  | .internode n => .internode { n with deleted := true, isRoot := false }

/-- `directory_meta`; `none` when `has_directory_meta` is false. -/
def directoryMeta : Node β → Option DirectoryMeta
  | .leaf l => l.directoryMeta
  | .internode n => n.directoryMeta

/-- Overwrite the metadata record behind a root. -/
def setDirectoryMeta (m : Option DirectoryMeta) : Node β → Node β
  | .leaf l => .leaf { l with directoryMeta := m }
  | .internode n => .internode { n with directoryMeta := m }

/-- `height_`; a leaf has height 0. -/
def height : Node β → ℕ
  | .leaf _ => 0
  | .internode n => n.height

/-- The node as a leaf. -/
def toLeaf [Inhabited β] : Node β → Leaf β
  | .leaf l => l
  | .internode _ => default

/-- The node as an internode. -/
def toInternode : Node β → Internode
  | .leaf _ => default
  | .internode n => n

section

variable (p : Option Ptr) (n : Node β)

@[simp] lemma parent_setParent : (n.setParent p).parent = p := by cases n <;> rfl

@[simp] lemma isLeaf_setParent : (n.setParent p).isLeaf = n.isLeaf := by cases n <;> rfl

@[simp] lemma isRoot_setParent : (n.setParent p).isRoot = n.isRoot := by cases n <;> rfl

@[simp] lemma deleted_setParent : (n.setParent p).deleted = n.deleted := by cases n <;> rfl

@[simp] lemma height_setParent : (n.setParent p).height = n.height := by cases n <;> rfl

@[simp] lemma directoryMeta_setParent : (n.setParent p).directoryMeta = n.directoryMeta := by
  cases n <;> rfl

@[simp] lemma setParent_setParent (q : Option Ptr) :
    (n.setParent p).setParent q = n.setParent q := by cases n <;> rfl

@[simp] lemma keys_setParent : (n.setParent p).toInternode.keys = n.toInternode.keys := by
  cases n <;> rfl

@[simp] lemma children_setParent :
    (n.setParent p).toInternode.children = n.toInternode.children := by
  cases n <;> rfl

end

@[simp] lemma isLeaf_leaf (l : Leaf β) : (Node.leaf l).isLeaf = true := rfl

@[simp] lemma isLeaf_internode (n : Internode) : (Node.internode n : Node β).isLeaf = false := rfl

@[simp] lemma parent_leaf (l : Leaf β) : (Node.leaf l).parent = l.parent := rfl

@[simp] lemma parent_internode (n : Internode) :
    (Node.internode n : Node β).parent = n.parent := rfl

@[simp] lemma isRoot_leaf (l : Leaf β) : (Node.leaf l).isRoot = l.isRoot := rfl

@[simp] lemma isRoot_internode (n : Internode) :
    (Node.internode n : Node β).isRoot = n.isRoot := rfl

@[simp] lemma deleted_leaf (l : Leaf β) : (Node.leaf l).deleted = l.deleted := rfl

@[simp] lemma deleted_internode (n : Internode) :
    (Node.internode n : Node β).deleted = n.deleted := rfl

@[simp] lemma height_leaf (l : Leaf β) : (Node.leaf l).height = 0 := rfl

@[simp] lemma height_internode (n : Internode) :
    (Node.internode n : Node β).height = n.height := rfl

@[simp] lemma directoryMeta_leaf (l : Leaf β) :
    (Node.leaf l).directoryMeta = l.directoryMeta := rfl

@[simp] lemma directoryMeta_internode (n : Internode) :
    (Node.internode n : Node β).directoryMeta = n.directoryMeta := rfl

@[simp] lemma toInternode_internode (n : Internode) :
    (Node.internode n : Node β).toInternode = n := rfl

@[simp] lemma toLeaf_leaf [Inhabited β] (l : Leaf β) : (Node.leaf l).toLeaf = l := rfl

end Node

/-- The nodes allocated so far, and those handed to `deallocate_rcu`. -/
@[ext]
structure Heap (β : Type) where
  node : Ptr → Node β
  size : ℕ
  retired : List Ptr

namespace Heap

/-- Overwrite a node. -/
def set (h : Heap β) (a : Ptr) (n : Node β) : Heap β :=
  { h with node := fun b => if b = a then n else h.node b }

/-- `pool_allocate`: the new node's address is the old size. -/
def alloc (h : Heap β) (n : Node β) : Heap β :=
  { node := fun b => if b = h.size then n else h.node b, size := h.size + 1,
    retired := h.retired }

/-- `deallocate_rcu`. -/
def retire (h : Heap β) (a : Ptr) : Heap β := { h with retired := a :: h.retired }

/-- `a->set_parent(p)`. -/
def setParent (h : Heap β) (a : Ptr) (p : Option Ptr) : Heap β :=
  h.set a ((h.node a).setParent p)

/-- The node at `a`, as a leaf. -/
def leaf [Inhabited β] (h : Heap β) (a : Ptr) : Leaf β := (h.node a).toLeaf

/-- The node at `a`, as an internode. -/
def internode (h : Heap β) (a : Ptr) : Internode := (h.node a).toInternode

section

variable (h : Heap β) (a b : Ptr)

@[simp] lemma node_set (n : Node β) : (h.set a n).node b = if b = a then n else h.node b := rfl

@[simp] lemma size_set (n : Node β) : (h.set a n).size = h.size := rfl

@[simp] lemma retired_set (n : Node β) : (h.set a n).retired = h.retired := rfl

@[simp] lemma node_alloc (n : Node β) :
    (h.alloc n).node b = if b = h.size then n else h.node b := rfl

@[simp] lemma size_alloc (n : Node β) : (h.alloc n).size = h.size + 1 := rfl

@[simp] lemma retired_alloc (n : Node β) : (h.alloc n).retired = h.retired := rfl

@[simp] lemma node_retire : (h.retire a).node b = h.node b := rfl

@[simp] lemma size_retire : (h.retire a).size = h.size := rfl

@[simp] lemma retired_retire : (h.retire a).retired = a :: h.retired := rfl

@[simp] lemma node_setParent (p : Option Ptr) :
    (h.setParent a p).node b = if b = a then (h.node a).setParent p else h.node b := rfl

@[simp] lemma size_setParent (p : Option Ptr) : (h.setParent a p).size = h.size := rfl

@[simp] lemma retired_setParent (p : Option Ptr) : (h.setParent a p).retired = h.retired := rfl

end

end Heap

end MasstreeLHM
