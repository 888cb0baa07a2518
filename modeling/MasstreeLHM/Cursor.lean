import MasstreeLHM.Split

/-!
# Cursor operations inside one layer

`masstree_get.hh`, `masstree_insert.hh` and `masstree_remove.hh`, for keys of exactly one slice: the
namespace only builds cursors with eight-byte keys, so none of them ever descends into another
layer, registers a `gc_layer` callback, or needs `make_new_layer`.

A search ends in a `Cursor`.  The searches of the source share their code and differ in what they
compare, so `findWith` takes the comparison.  An insertion is in two steps, as in the source:
`makeRoom` gives the key a slot, splitting the leaf if it is full, and `finishInsert` makes the slot
live.  In between the caller writes the contents.

A removal is `finishRemove`.  When the last slot of a leaf has gone, `removeLeaf` takes the leaf out
of its layer: it unlinks it from the list of leaves, unhooks it from its parent, goes on upwards
while a parent is left without a key (`unhook`), and redirects the separator above (`redirect`).
-/

namespace MasstreeLHM

variable {β : Type} [Inhabited β]

/-- The position a search stops at: the leaf, and `kx_` (`p` is missing for `-1`). -/
structure Cursor where
  n : Ptr
  i : ℕ
  p : Option ℕ
deriving Repr, DecidableEq

/-- `find_locked`, `find_locked_edge` and `find_unlocked_edge` differ in the comparison `cmp` of
the searched key with a slot.  Landing on a deleted leaf or layer makes them retry forever. -/
def findWith (cmp : Slot β → ℤ) (h : Heap β) (root : Ptr) (x : ℕ) : Option Cursor :=
  match reachLeaf h root x with
  | none => none
  | some n =>
      let l := h.leaf n
      if l.deleted ∨ l.modstate = .deletedLayer then none
      else
        let kx := lowerBy (fun p => cmp (l.slot p)) l.permutation.live
        some ⟨n, kx.1, kx.2⟩

/-! ## Inserting -/

/-- The block shared by `find_insert`, `create_layer_with_meta` and `attach_existing_layer`
after a search without hit: give the key `ka` a slot in the leaf, or split.  The slot is not
live yet. -/
def makeRoom (P : NodeParams) (h : Heap β) (c : Cursor) (ka : Slot β) :
    Option (Heap β × Position) :=
  let l : Leaf β := { h.leaf c.n with modstate := .insert }
  let h := h.setLeaf c.n l
  let p := l.permutation.back
  -- position 0 holds the lower bound of the leaf and is not reused for another key
  if l.size < P.leafWidth ∧ (p ≠ 0 ∨ l.prev = none ∨ l.ikeyBound = ka.ikey) then
    some (h.setLeaf c.n (l.assign p ka), ⟨c.n, c.i, p⟩)
  else makeSplit P h c.n c.i ka

/-- Store the final contents of the cursor's slot. -/
def writeSlot (h : Heap β) (pos : Position) (s : Slot β) : Heap β :=
  h.setLeaf pos.n ((h.leaf pos.n).assign pos.p s)

/-- `finish_insert`: make the cursor's slot live. -/
def finishInsert (h : Heap β) (pos : Position) : Heap β :=
  let l := h.leaf pos.n
  h.setLeaf pos.n { l with permutation := l.permutation.insertFromBack pos.i }

/-! ## Removing -/

/-- `redirect`: keys that were routed to the removed first child of `n` go to its left
neighbour, so the separators of the ancestors move up to `replacement`. -/
def redirect (ikey replacement : ℕ) : ℕ → Heap β → Ptr → Option (Heap β)
  | 0, _, _ => none
  | fuel + 1, h, n =>
      match (h.node n).parent with
      | none => none
      | some p =>
          let ip := h.internode p
          let kp := upper ikey ip.keys
          let h := if 0 < kp then
              h.setInternode p { ip with keys := ip.keys.set (kp - 1) replacement }
            else h
          if kp = 0 ∨ (kp = 1 ∧ ip.child 0 = none) then redirect ikey replacement fuel h p
          else some h

/-- The internode `p` after child `kp` has been replaced, or dropped together with its
separator (`shift_down`). -/
def Internode.replaceChild (p : Internode) (kp : ℕ) (replacement : Option Ptr) : Internode :=
  if replacement = none ∧ 0 < kp then
    { p with keys := p.keys.eraseIdx (kp - 1), children := p.children.eraseIdx kp }
  else { p with children := p.children.set kp replacement }

/-- Give the replacement, if there is one, its new parent. -/
def Heap.adopt (h : Heap β) (c : Option Ptr) (p : Ptr) : Heap β :=
  match c with
  | none => h
  | some c => h.setParent c (some p)

/-- The loop of `remove_leaf`: unhook `n` from its parent, putting `replacement` in its place,
and go on upwards while the parent is left without a key. -/
def unhook (ikey : ℕ) : ℕ → Heap β → Ptr → Option Ptr → Option (Heap β)
  | 0, _, _, _ => none
  | fuel + 1, h, n, replacement =>
      match (h.node n).parent with
      | none => none
      | some p =>
          let ip := h.internode p
          let kp := upper ikey ip.keys
          let ip' := ip.replaceChild kp replacement
          let h := (h.setInternode p ip').adopt replacement p
          let redirected :=
            if kp ≤ 1 ∧ 0 < ip'.size ∧ ip'.child 0 = none then
              redirect ikey (ip'.keys.getD 0 0) (h.size + 1) h p
            else some h
          match redirected with
          | none => none
          | some h =>
              if 0 < ip'.size ∨ ip'.isRoot then some h
              else
                let dead : Internode :=
                  { ip' with deleted := true, isRoot := false,
                             children := ip'.children.set 0 none }
                unhook ikey fuel ((h.setInternode p dead).retire p) p (ip'.child 0)

/-- `btree_leaflink::unlink`. -/
def unlinkLeaf (h : Heap β) (n : Ptr) : Heap β :=
  let l := h.leaf n
  let h := h.setPrev l.next l.prev
  match l.prev with
  | none => h
  | some a => h.setLeaf a { h.leaf a with next := l.next }

/-- `remove_leaf`, called on a leaf without live slots.  The leftmost leaf of a layer stays;
since the prefix of the cursor is empty, no `gc_layer` callback is registered for it. -/
def removeLeaf (h : Heap β) (n : Ptr) : Option (Heap β) :=
  let l := h.leaf n
  match l.prev with
  | none => some h
  | some _ =>
      let h := (h.set n (h.node n).markDeleted).retire n
      let h := unlinkLeaf h n
      unhook l.ikeyBound (h.size + 1) h n none

/-- `finish_remove`: drop position `i` of leaf `n`, and the leaf if it was the last one. -/
def finishRemove (h : Heap β) (n : Ptr) (i : ℕ) : Option (Heap β) :=
  let l := h.leaf n
  let l := { l with modstate := .remove, permutation := l.permutation.remove i }
  let h := h.setLeaf n l
  if l.size = 0 then removeLeaf h n else some h

end MasstreeLHM
