import MasstreeLHM.Split

/-!
# Tidying the root of a layer

The part of `gc_layer` that works on the nodes of a layer, and what it calls in
`masstree_struct.hh`.  The locks are always free, so `try_lock` succeeds and no loop is repeated for
it.

`gcRoot` is the loop, with its `goto`s as returns.  It climbs to the root first.  A leaf is left
alone if it holds something, and a leaf without metadata that is empty is removed with its layer.
Of an internode with one separator `shiftOnlyChild` makes one without, if its first child is an
empty leaf; then the only child takes its place, by `Node.makeLayerRoot` where there is no metadata,
and else by a copy, `Leaf.cloneRootWithMeta` or `Heap.copyRoot`.

Leaves that are copied go through `assign_initialize`, whose result is the parameter `copy`: the
nodes of a layer do not depend on what the slots hold besides their slices.
-/

namespace MasstreeLHM

variable {β : Type}

/-- `make_layer_root`. -/
def Node.makeLayerRoot : Node β → Node β
  | .leaf l => .leaf { l with parent := none, isRoot := true }
  | .internode n => .internode { n with parent := none, isRoot := true }

/-- `leaf::clone_root_with_meta`; `slots` is what `assign_initialize` makes of the live
positions. -/
def Leaf.cloneRootWithMeta (src : Leaf β) (m : DirectoryMeta) (slots : List (Slot β)) : Leaf β :=
  { isRoot := true, deleted := false, modstate := src.modstate, permutation := src.permutation,
    slots := slots, next := src.next, prev := src.prev, parent := none, directoryMeta := some m }

/-- The copy made by `internode::clone_root_with_meta`. -/
def Internode.cloneRootWithMeta (src : Internode) (m : DirectoryMeta) : Internode :=
  { isRoot := true, deleted := false, height := src.height, keys := src.keys,
    children := src.children, parent := none, directoryMeta := some m }

/-- `internode::clone_root_with_meta`, with its children moved below the copy. -/
def Heap.copyRoot (h : Heap β) (m : DirectoryMeta) (src : Internode) : Heap β :=
  (h.alloc (.internode (src.cloneRootWithMeta m))).setParents src.children h.size

/-- The normal form of a root with one separator and an empty first leaf that has no neighbours:
the second child moves to the front.  `none` is the jump to `unlock_layer`. -/
def shiftOnlyChild (h : Heap β) (a : Ptr) (n : Internode) : Option (Heap β × Internode) :=
  if n.size = 1 then
    match n.child 0, n.child 1 with
    | some left, some right =>
        match h.node left with
        | .internode _ => none
        | .leaf l =>
            if l.size = 0 ∧ l.prev = none ∧ l.next = none then
              let n := { n with keys := [], children := [some right] }
              let h := (h.set left (h.node left).markDeleted).setInternode a n
              some ((h.setParent right (some a)).retire left, n)
            else none
    | _, _ => some (h, n)
  else some (h, n)

/-- What the loop of `gc_layer` leaves: the pointer in the slot of the layer, whether the slot is to
be removed, and the leaf that has been copied. -/
structure GcRoot (β : Type) where
  heap : Heap β
  layer : Ptr
  remove : Bool
  cloned : Option Ptr

/-- The loop of `gc_layer` and what follows it, for a slot that points to `a`. -/
def gcRoot (copy : Ptr → Leaf β → List (Slot β)) : ℕ → Heap β → Ptr → Option (GcRoot β)
  | 0, _, _ => none
  | fuel + 1, h, a =>
      match h.node a with
      | .leaf l =>
          if l.isRoot = false then gcRoot copy fuel h (l.parent.getD a)
          else if 0 < l.size ∨ l.directoryMeta ≠ none then some ⟨h, a, false, none⟩
          else
            some ⟨(h.set a (.leaf { l with modstate := .deletedLayer })).retire a, a, true, none⟩
      | .internode n =>
          if n.isRoot = false then gcRoot copy fuel h (n.parent.getD a)
          else if 1 < n.size then some ⟨h, a, false, none⟩
          else
            match shiftOnlyChild h a n with
            | none => some ⟨h, a, false, none⟩
            | some (h, n) =>
                match n.child 0 with
                | none => some ⟨h, a, false, none⟩
                | some c =>
                    match n.directoryMeta, h.node c with
                    | some m, .leaf lc =>
                        if lc.prev ≠ none ∨ lc.next ≠ none then some ⟨h, a, false, none⟩
                        else
                          let nr := h.size
                          let h := h.alloc (.leaf (lc.cloneRootWithMeta m (copy c lc)))
                          let h := h.setInternode a { n with isRoot := false, parent := some nr }
                          some ⟨(h.retire c).retire a, nr, false, some c⟩
                    | some m, .internode nc =>
                        let nr := h.size
                        let h := h.copyRoot m nc
                        let h := h.setInternode a { n with isRoot := false, parent := some nr }
                        some ⟨(h.retire c).retire a, nr, false, none⟩
                    | none, _ =>
                        let h := h.set c (h.node c).makeLayerRoot
                        let h := h.setInternode a { n with isRoot := false, parent := some c }
                        gcRoot copy fuel (h.retire a) c

end MasstreeLHM
