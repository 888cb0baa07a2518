import MasstreeLHM.Node
import MasstreeLHM.Search

/-!
# Reaching a leaf, and splitting

`node_base::reach_leaf`, `leaf::split_into`, `internode::split_into` and `tcursor::make_split`.  A
loop of the source that follows pointers takes fuel here and answers `none` when the fuel runs out;
`none` also stands for the retry loops that can only spin when nobody else runs, and for following a
null pointer.  The fuel is the number of allocated nodes, and the invariant of `Invariant.lean`
shows that it always suffices.

* `reachLeaf` — climb from a pointer to the root of its layer, then descend to a leaf.
* `Leaf.splitPoint` — where a leaf is cut.  Slots with one slice stay together, so `adjustMid` moves
  the split point to the nearer end of a run of equal slices.
* `splitLeaf`, `Internode.splitInto` — the two halves, and the separator that goes up.
* `linkSplit` — one round of the loop over the ancestors: hang the right half in, and split the
  ancestor if it is full.
* `makeSplit` — all of `make_split`, the loop being `ascend`.
-/

namespace MasstreeLHM

variable {β : Type}

/-! ## Descending a layer -/

/-- The first loop of `reach_leaf`: climb from a possibly stale root until the root bit is set.
A node without parent and without the bit is its own `maybe_parent`, and the loop spins. -/
def climbToRoot (h : Heap β) : ℕ → Ptr → Option Ptr
  | 0, _ => none
  | fuel + 1, a =>
      if (h.node a).isRoot then some a else climbToRoot h fuel ((h.node a).parent.getD a)

/-- The second loop of `reach_leaf`: follow the separators down to a leaf.  A null child makes
the source retry from the start, forever when nobody else runs. -/
def descend (h : Heap β) (x : ℕ) : ℕ → Ptr → Option Ptr
  | 0, _ => none
  | fuel + 1, a =>
      match h.node a with
      | .leaf _ => some a
      | .internode n =>
          match n.child (upper x n.keys) with
          | none => none
          | some c => descend h x fuel c

/-- `reach_leaf`: the leaf of the layer responsible for `x`. -/
def reachLeaf (h : Heap β) (a : Ptr) (x : ℕ) : Option Ptr :=
  (climbToRoot h (h.size + 1) a).bind fun r => descend h x (h.size + 1) r

/-! ## Splitting a leaf -/

section

variable [Inhabited β]

/-- The slot at position `i` after inserting `ka` at position `kxI`. -/
def Leaf.slotAfterInsert (l : Leaf β) (kxI : ℕ) (ka : Slot β) (i : ℕ) : Slot β :=
  if i < kxI then l.slot (l.permutation.get i)
  else if i = kxI then ka
  else l.slot (l.permutation.get (i - 1))

/-- `ikey_after_insert`. -/
def Leaf.ikeyAfterInsert (l : Leaf β) (kxI : ℕ) (ka : Slot β) (i : ℕ) : ℕ :=
  (l.slotAfterInsert kxI ka i).ikey

/-- The search of `leaf::split_into` for a split point that keeps equal slices together.  `key`
is `ikey_after_insert`; `left` is the source's `midl + 1`, so that a negative `midl` is 0. -/
def adjustMid (key : ℕ → ℕ) (width midIkey : ℕ) : ℕ → ℕ → ℕ → Option ℕ
  | 0, _, _ => none
  | fuel + 1, left, midr =>
      if midr ≤ width ∧ midIkey ≠ key midr then some midr
      else if 1 ≤ left ∧ midIkey ≠ key (left - 1) then some left
      else adjustMid key width midIkey fuel (left - 1) (midr + 1)

/-- The split point of `leaf::split_into`. -/
def Leaf.splitPoint (P : NodeParams) (l : Leaf β) (kxI : ℕ) (ka : Slot β) : Option ℕ :=
  let width := l.size
  let mid :=
    if kxI = 0 ∧ l.prev = none then 1
    else if kxI = width ∧ l.next = none then width
    else P.leafWidth / 2 + 1
  let key := l.ikeyAfterInsert kxI ka
  if key mid = key (mid - 1) then adjustMid key width (key mid) (width + 1) (mid - 1) (mid + 1)
  else some mid

/-- The slots `leaf::split_into` moves to the new right leaf, the new one included. -/
def Leaf.movedSlots (l : Leaf β) (kxI : ℕ) (ka : Slot β) (mid : ℕ) : List (Slot β) :=
  (List.range (l.size + 1 - mid)).map fun j => l.slotAfterInsert kxI ka (mid + j)

/-- The right leaf as `leaf::split_into` fills it: a new key among the moved ones has its slot
but is not live yet.  `make_split` has copied the version of the left leaf into it. -/
def Leaf.splitRight (P : NodeParams) (l : Leaf β) (n : Ptr) (kxI : ℕ) (ka : Slot β)
    (mid : ℕ) : Leaf β :=
  let moved := l.movedSlots kxI ka mid
  let perm := Kpermuter.makeSorted P.leafWidth moved.length
  { (Leaf.make P : Leaf β) with
    isRoot := l.isRoot
    permutation := if mid ≤ kxI then perm.removeToBack (kxI - mid) else perm
    slots := moved ++ List.replicate (P.leafWidth - moved.length) default
    next := l.next
    prev := some n }

/-- The permutation `make_split` leaves in the left leaf: shrunk to the items that stay, with
the free slot of a leaf that was not full moved to the back again. -/
def Leaf.trimmed (P : NodeParams) (l : Leaf β) (moved : ℕ) : Kpermuter :=
  let perml := l.permutation.setSize (l.size - moved)
  if l.size ≠ P.leafWidth then perml.exchange perml.size (P.leafWidth - 1) else perml

/-- The left leaf after the split. -/
def Leaf.splitLeft (P : NodeParams) (l : Leaf β) (nr : Ptr) (moved : ℕ) : Leaf β :=
  { l with isRoot := false, permutation := l.trimmed P moved, next := some nr }

/-- Where a cursor stands: its leaf, and its key's position in the permutation and slot. -/
structure Position where
  n : Ptr
  i : ℕ
  p : ℕ
deriving Repr, DecidableEq

/-- Overwrite a leaf. -/
def Heap.setLeaf (h : Heap β) (a : Ptr) (l : Leaf β) : Heap β := h.set a (.leaf l)

/-- `btree_leaflink::link_split` as far as the right neighbour is concerned; the two halves get
their links in `splitLeft` and `splitRight`. -/
def Heap.setPrev (h : Heap β) (a : Option Ptr) (p : Option Ptr) : Heap β :=
  match a with
  | none => h
  | some a => h.setLeaf a { h.leaf a with prev := p }

end

/-! ## Splitting internodes -/

/-- `internode::split_into`: the left and right halves, the separator pushed up, and the
position where the caller still has to insert, if the new child belongs to the left half. -/
structure InternodeSplit where
  leftKeys : List ℕ
  leftChildren : List (Option Ptr)
  rightKeys : List ℕ
  rightChildren : List (Option Ptr)
  splitIkey : ℕ
  kp : Option ℕ

/-- `internode::split_into` at position `p`, key `ka`, child `value`. -/
def Internode.splitInto (P : NodeParams) (n : Internode) (p ka : ℕ) (value : Ptr)
    (splitType : ℕ) : InternodeSplit :=
  let width := P.internodeWidth
  let mid := if splitType = 2 then width else (width + 1) / 2
  if p < mid then
    { leftKeys := n.keys.take (mid - 1)
      leftChildren := n.children.take mid
      rightKeys := n.keys.drop mid
      rightChildren := n.children.drop mid
      splitIkey := n.keys.getD (mid - 1) 0
      kp := some p }
  else if p = mid then
    { leftKeys := n.keys.take mid
      leftChildren := n.children.take (mid + 1)
      rightKeys := n.keys.drop mid
      rightChildren := some value :: n.children.drop (mid + 1)
      splitIkey := ka
      kp := none }
  else
    { leftKeys := n.keys.take mid
      leftChildren := n.children.take (mid + 1)
      rightKeys := (n.keys.take p).drop (mid + 1) ++ ka :: n.keys.drop p
      rightChildren := (n.children.take (p + 1)).drop (mid + 1) ++
        some value :: n.children.drop (p + 1)
      splitIkey := n.keys.getD mid 0
      kp := none }

/-- `shift_up(kp + 1, kp, size() - kp); assign(kp, ikey, child); ++nkeys_`. -/
def Internode.insertChild (n : Internode) (kp ikey : ℕ) (child : Ptr) : Internode :=
  { n with keys := n.keys.take kp ++ ikey :: n.keys.drop kp
           children := n.children.take (kp + 1) ++ some child :: n.children.drop (kp + 1) }

/-- `child_[i]->set_parent(p)` for every child in the list. -/
def Heap.setParents (h : Heap β) (cs : List (Option Ptr)) (p : Ptr) : Heap β :=
  { h with node := fun b => if some b ∈ cs then (h.node b).setParent (some p) else h.node b }

/-- Overwrite an internode. -/
def Heap.setInternode (h : Heap β) (a : Ptr) (n : Internode) : Heap β := h.set a (.internode n)

section

variable (h : Heap β) (a b : Ptr)

@[simp] lemma Heap.node_setInternode (n : Internode) :
    (h.setInternode a n).node b = if b = a then .internode n else h.node b := rfl

@[simp] lemma Heap.size_setInternode (n : Internode) : (h.setInternode a n).size = h.size := rfl

@[simp] lemma Heap.retired_setInternode (n : Internode) :
    (h.setInternode a n).retired = h.retired := rfl

@[simp] lemma Heap.node_setLeaf (l : Leaf β) :
    (h.setLeaf a l).node b = if b = a then .leaf l else h.node b := rfl

@[simp] lemma Heap.size_setLeaf (l : Leaf β) : (h.setLeaf a l).size = h.size := rfl

@[simp] lemma Heap.retired_setLeaf (l : Leaf β) : (h.setLeaf a l).retired = h.retired := rfl

@[simp] lemma Heap.node_setParents (cs : List (Option Ptr)) (p : Ptr) :
    (h.setParents cs p).node b
      = if some b ∈ cs then (h.node b).setParent (some p) else h.node b := rfl

@[simp] lemma Heap.size_setParents (cs : List (Option Ptr)) (p : Ptr) :
    (h.setParents cs p).size = h.size := rfl

@[simp] lemma Heap.retired_setParents (cs : List (Option Ptr)) (p : Ptr) :
    (h.setParents cs p).retired = h.retired := rfl

end

/-- A split that still has to be recorded one level up: `child` is the new right sibling of
`n`, and `ikey` separates them. -/
structure Pending where
  n : Ptr
  child : Ptr
  ikey : ℕ
deriving Repr, DecidableEq

/-- A new internode over the two halves of a split: the new root of the layer (carrying on the
metadata of the old one), or a node filling a gap in height below `p`. -/
def Internode.makeAbove (s : Pending) (height : ℕ) (p : Option Ptr)
    (m : Option DirectoryMeta) : Internode :=
  { isRoot := p.isNone, deleted := false, height := height, keys := [s.ikey],
    children := [some s.n, some s.child], parent := p, directoryMeta := m }

/-- One round of the loop of `make_split`: hang the right half of a split below the parent of
the left half, splitting the parent if it is full. -/
def linkSplit (P : NodeParams) (h : Heap β) (s : Pending) (height splitType : ℕ) :
    Heap β × Option Pending :=
  match (h.node s.n).parent with
  | none =>
      let nn := h.size
      let h := h.alloc (.internode
        (Internode.makeAbove s (height + 1) none (h.node s.n).directoryMeta))
      ((h.setParent s.child (some nn)).setParent s.n (some nn), none)
  | some p =>
      let ip := h.internode p
      let kp := upper s.ikey ip.keys
      if height + 1 < ip.height then
        let nn := h.size
        let h := h.alloc (.internode (Internode.makeAbove s (height + 1) (some p) none))
        let h := h.setInternode p { ip with children := ip.children.set kp (some nn) }
        ((h.setParent s.child (some nn)).setParent s.n (some nn), none)
      else if P.internodeWidth ≤ ip.size then
        let r := ip.splitInto P kp s.ikey s.child splitType
        let nc := h.size
        let h := h.alloc (.internode
          { isRoot := false, deleted := ip.deleted, height := height + 1, keys := r.rightKeys,
            children := r.rightChildren, parent := none, directoryMeta := none })
        let h := h.setParents r.rightChildren nc
        let ip := { ip with isRoot := false, keys := r.leftKeys, children := r.leftChildren }
        match r.kp with
        | some kp =>
            ((h.setInternode p (ip.insertChild kp s.ikey s.child)).setParent s.child (some p),
              some ⟨p, nc, r.splitIkey⟩)
        | none => (h.setInternode p ip, some ⟨p, nc, r.splitIkey⟩)
      else
        ((h.setInternode p (ip.insertChild kp s.ikey s.child)).setParent s.child (some p), none)

/-- The loop of `make_split` over the ancestors of the split leaf. -/
def ascend (P : NodeParams) (splitType : ℕ) : ℕ → ℕ → Heap β → Pending → Option (Heap β)
  | 0, _, _, _ => none
  | fuel + 1, height, h, s =>
      match linkSplit P h s height splitType with
      | (h, none) => some h
      | (h, some s) => ascend P splitType fuel (height + 1) h s

variable [Inhabited β]

/-- The leaf part of a split: the two halves, the separator, and where the new key goes.  The
source strips the moved items from the left leaf only after the parent has been updated, so that
readers find them throughout; no step in between reads them. -/
def splitLeaf (P : NodeParams) (h : Heap β) (n : Ptr) (kxI : ℕ) (ka : Slot β) (mid : ℕ) :
    Heap β × Pending × Position × ℕ :=
  let l := h.leaf n
  let nr := h.size
  let r := l.splitRight P n kxI ka mid
  let left := l.splitLeft P nr r.size
  let splitType := if kxI < mid then 0 else if mid = l.size then 2 else 1
  let (left, pos) :=
    if kxI < mid then (left.assign left.permutation.back ka, ⟨n, kxI, left.permutation.back⟩)
    else (left, ⟨nr, kxI - left.size, kxI - left.size⟩)
  let h := ((h.alloc (.leaf r)).setPrev l.next (some nr)).setLeaf n left
  (h, ⟨n, nr, r.ikeyBound⟩, pos, splitType)

/-- `make_split`: make room for `ka` at position `kxI` of leaf `n` when it is full, or when the
only free slot is the one that holds the leaf's lower bound. -/
def makeSplit (P : NodeParams) (h : Heap β) (n : Ptr) (kxI : ℕ) (ka : Slot β) :
    Option (Heap β × Position) :=
  let l := h.leaf n
  let perm := l.permutation.exchange l.size (P.leafWidth - 1)
  if l.size < P.leafWidth ∧ perm.back ≠ 0 then
    some (h.setLeaf n ({ l with permutation := perm }.assign perm.back ka), ⟨n, kxI, perm.back⟩)
  else
    match l.splitPoint P kxI ka with
    | none => none
    | some mid =>
        let (h, s, pos, splitType) := splitLeaf P h n kxI ka mid
        (ascend P splitType (h.size + 1) 0 h s).map fun h => (h, pos)

end MasstreeLHM
