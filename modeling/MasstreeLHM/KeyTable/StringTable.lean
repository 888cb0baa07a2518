import MasstreeLHM.KeyTable.Runs

/-!
# A table of byte strings

The cursors over whole keys: they shift their key by a slice for every layer they enter.  A removal
that empties a layer registers a `gc_layer` callback, which runs at some later time.  No two cursors
are in use at once, so no lock is waited for and no version has changed.

`StringTable` has the nodes with their string bags, the pointer `root_` and the callbacks that have
not run yet.  `findUnlocked` is the search of `get`, which changes nothing; `findLocked` repairs
stale layer pointers on its way and keeps the position of the cursor.

The calls are those of the source: `StringTable.put` is `find_insert`, a value and `finish(1)`,
`StringTable.probe` the same with `finish(0)`, `StringTable.remove` ends with `finish(-1)`, and
`StringTable.gcLayer` is a callback.  Where two keys share a slice, `find_insert` goes through
`make_new_layer`, which has a file of its own.
-/

namespace MasstreeLHM.KeyTable

variable {V : Type} [Inhabited V]

/-- `basic_table`, and the `gc_layer` callbacks that have not run yet. -/
structure StringTable (V : Type) where
  heap : Heap (Cell V)
  stores : Ptr → SuffixStore
  root : Ptr
  callbacks : List (Ptr × Bytes)

/-- `nodeparams<15, 15>`, the parameters of the tables of byte strings. -/
def stringTableParams : NodeParams := ⟨15, 15, by decide, by decide⟩

/-- A cursor where a search has ended: `n_` and `kx_`, `state_`, and its key, as the part it has
been shifted over and the rest. -/
structure KeyCursor where
  stop : Cursor
  state : ℤ
  shifted : Bytes
  rest : Bytes

/-! ## Searching -/

/-- `leaf::ksuf_matches`. -/
def ksufMatches (h : Heap (Cell V)) (stores : Ptr → SuffixStore) (n : Ptr) (p : ℕ) (k : Bytes) :
    ℤ :=
  let keylenx := ((h.leaf n).slot p).body.keylenx
  if keylenx < ksufKeylenx then 1
  else if keylenx = layerKeylenx then -8
  else if (stores n).get p = some (k.drop 8) then 1 else 0

/-- `lv_[p]` is written. -/
def setLv (h : Heap (Cell V)) (n : Ptr) (p : ℕ) (lv : LeafValue V) : Heap (Cell V) :=
  let l := h.leaf n
  h.setLeaf n (l.assign p ⟨(l.slot p).ikey, { (l.slot p).body with lv := lv }⟩)

/-- `reach_leaf` and `bound_type::lower`.  Landing on a deleted leaf makes a search retry
forever. -/
def lower (h : Heap (Cell V)) (root : Ptr) (k : Bytes) : Option Cursor :=
  match reachLeaf h root (slice k) with
  | none => none
  | some n =>
      let l := h.leaf n
      if l.deleted then none
      else
        let kx := lowerBy (fun p => compareKey k (l.slot p)) l.permutation.live
        some ⟨n, kx.1, kx.2⟩

/-- `find_unlocked`, and the value that `get` reads. -/
def findUnlocked (h : Heap (Cell V)) (stores : Ptr → SuffixStore) :
    ℕ → Ptr → Bytes → Option (Option V)
  | 0, _, _ => none
  | fuel + 1, root, k =>
      match lower h root k with
      | none => none
      | some c =>
          match c.p with
          | none => some none
          | some p =>
              let state := ksufMatches h stores c.n p k
              match ((h.leaf c.n).slot p).body.lv with
              | .layer n => if state < 0 then findUnlocked h stores fuel n (k.drop 8) else none
              | .value v => if state < 0 then none else some (if state = 0 then none else some v)

/-- `find_locked` from `root`, with `root_` for the retries.  A layer pointer that is no root any
more is replaced by its parent on the way. -/
def findLocked (stores : Ptr → SuffixStore) (root_ : Ptr) :
    ℕ → Heap (Cell V) → Ptr → Bytes → Bytes → Option (Heap (Cell V) × KeyCursor)
  | 0, _, _, _, _ => none
  | fuel + 1, h, root, shifted, k =>
      match lower h root k with
      | none => none
      | some c =>
          let state := c.p.elim 0 fun p => ksufMatches h stores c.n p k
          if state < 0 then
            match c.p.map fun p => (p, ((h.leaf c.n).slot p).body.lv) with
            | some (p, .layer n) =>
                if (h.node n).isRoot then findLocked stores root_ fuel h n
                  (shifted ++ k.take 8) (k.drop 8)
                else
                  let n := (h.node n).parent.getD n
                  findLocked stores root_ fuel (setLv h c.n p (.layer n)) n
                    (shifted ++ k.take 8) (k.drop 8)
            | _ => none
          else if (h.leaf c.n).modstate = .deletedLayer then
            findLocked stores root_ fuel h root_ [] (shifted ++ k)
          else some (h, ⟨c, state, shifted, k⟩)

/-- The value in the slot of a cursor. -/
def valueAt (h : Heap (Cell V)) (n : Ptr) (p : ℕ) : Option V :=
  match ((h.leaf n).slot p).body.lv with
  | .value v => some v
  | .layer _ => none

namespace StringTable

/-- The nodes, with the pointer `root_`. -/
def layers (t : StringTable V) : Layers V := ⟨t.heap, t.stores, [t.root]⟩

/-- `basic_table::initialize`. -/
def init (P : NodeParams) (sz : ℕ) : Option (StringTable V) :=
  (SuffixStore.make sz P.leafWidth 0).map fun st =>
    ⟨(Layers.empty : Layers V).heap.alloc (.leaf (Leaf.makeRoot P none)), fun _ => st, 0, []⟩

/-- `fix_root`. -/
def fixRoot (t : StringTable V) : StringTable V :=
  if (t.heap.node t.root).isRoot then t else { t with
    root := (t.heap.node t.root).parent.getD t.root }

/-- `basic_table::get`. -/
def get (t : StringTable V) (k : Bytes) : Option (Option V) :=
  findUnlocked t.heap t.stores (k.length + 1) t.root k

/-- `find_locked` by a cursor that has just been made. -/
def find (t : StringTable V) (root : Ptr) (k : Bytes) : Option (StringTable V × KeyCursor) :=
  (findLocked t.stores root (k.length + 1) t.heap root [] k).map fun r =>
    ({ t with heap := r.1 }, r.2)

/-! ## Inserting -/

/-- `find_insert`: the cursor's slot, and whether it was there. -/
def findInsert (P : NodeParams) (sz : ℕ) (t : StringTable V) (k : Bytes) :
    Option (StringTable V × Position × Bool) := do
  let t := t.fixRoot
  let (t, c) ← t.find t.root k
  match c.stop.p with
  | some p =>
      if c.state ≠ 0 then return (t, ⟨c.stop.n, c.stop.i, p⟩, true)
      else
        let (s, pos, _) ← makeNewLayer P sz t.layers c.stop.n p c.rest
        return ({ t with heap := s.heap, stores := s.stores }, pos, false)
  | none =>
      let (h, pos) ← makeRoom P t.heap c.stop (assigned c.rest)
      let stores ← makeRoomStores P sz t.heap t.stores c.stop c.rest
      return ({ t with heap := h, stores := stores }, pos, false)

/-- `find_insert`, an assignment to `value()`, and `finish(1)`; `f` makes the new value of the old
one. -/
def put (P : NodeParams) (sz : ℕ) (t : StringTable V) (k : Bytes) (f : Option V → V) :
    Option (Option V × StringTable V) := do
  let (t, pos, found) ← t.findInsert P sz k
  let old ← if found then (valueAt t.heap pos.n pos.p).map some else some none
  let h := setLv t.heap pos.n pos.p (.value (f old))
  return (old, { t with heap := if found then h else finishInsert h pos })

/-- `find_insert` and `finish(0)`. -/
def probe (P : NodeParams) (sz : ℕ) (t : StringTable V) (k : Bytes) :
    Option (Option V × StringTable V) := do
  let (t, pos, found) ← t.findInsert P sz k
  let old ← if found then (valueAt t.heap pos.n pos.p).map some else some none
  return (old, t)

/-! ## Removing -/

/-- `finish_remove` by a cursor of `root`, with the callback that `remove_leaf` registers for the
last leaf of a layer. -/
def finishRemove (t : StringTable V) (root n : Ptr) (i : ℕ) (shifted : Bytes) :
    Option (StringTable V) :=
  let l := t.heap.leaf n
  let emptied := (l.permutation.remove i).size = 0 ∧ l.prev = none ∧ l.next = none ∧ shifted ≠ []
  (MasstreeLHM.finishRemove t.heap n i).map fun h =>
    { t with heap := h, callbacks := (if emptied then [(root, shifted)] else []) ++ t.callbacks }

/-- `find_locked` and `finish(-1)`. -/
def remove (t : StringTable V) (k : Bytes) : Option (Option V × StringTable V) := do
  let t := t.fixRoot
  let (t, c) ← t.find t.root k
  match c.stop.p with
  | some p =>
      if c.state = 1 then
        let old ← valueAt t.heap c.stop.n p
        let t ← t.finishRemove t.root c.stop.n c.stop.i c.shifted
        return (some old, t)
      else return (none, t)
  | none => return (none, t)

/-- `find_locked` and `finish(0)`. -/
def read (t : StringTable V) (k : Bytes) : Option (Option V × StringTable V) := do
  let t := t.fixRoot
  let (t, c) ← t.find t.root k
  match c.stop.p with
  | some p =>
      if c.state = 1 then
        let old ← valueAt t.heap c.stop.n p
        return (some old, t)
      else return (none, t)
  | none => return (none, t)

/-- `gc_layer` on the slot at position `i` of leaf `n`, and what the callback does with its
answer. -/
def gcSlot (t : StringTable V) (root n : Ptr) (i : ℕ) (c : KeyCursor) : Option (StringTable V) :=
  let p := (t.heap.leaf n).permutation.get i
  match ((t.heap.leaf n).slot p).body.lv with
  | .value _ => none
  | .layer a => do
      -- without metadata no leaf is copied
      let g ← gcRoot (fun _ l => l.slots) (2 * t.heap.size + 2) t.heap a
      if g.remove then ({ t with heap := g.heap } : StringTable V).finishRemove root n i c.shifted
      else return { t with heap := setLv g.heap n p (.layer g.layer) }

/-- `gc_layer_rcu_callback`. -/
def gcLayer (t : StringTable V) (root : Ptr) (key : Bytes) : Option (StringTable V) := do
  let root ← climbToRoot t.heap (t.heap.size + 1) root
  if (t.heap.node root).deleted then return t
  else
    let (t, c) ← t.find root key
    let l := t.heap.leaf c.stop.n
    -- the cursor may stand at a value of the same slice, in front of the layer
    let i := c.stop.i + if c.stop.p.isSome then 1 else 0
    let slot := l.slot (l.permutation.get i)
    if (keyOf c.rest).hasSuffix ∨ l.size ≤ i ∨ slot.ikey ≠ slice c.rest ∨
      isLayer slot = false then return t
    else t.gcSlot root c.stop.n i c

end StringTable

end MasstreeLHM.KeyTable
