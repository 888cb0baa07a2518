import MasstreeLHM.KeyTable.StringTable
import MasstreeLHM.Optimistic.Runs
import MasstreeLHM.Words.Nodeversion

/-!
# A leaf that threads share

`find_unlocked`, `find_locked` and what the operations behind them do to the leaf that they have
arrived at, one load or store at a time.  A search loads a stable version, the permutation, the
words of the slots that the binary search compares, `lv_`, `keylenx_` once more and the suffix;
whether all this belongs together is only found out afterwards, by `has_changed`.  What is stored
into a leaf is stored by the thread that has locked it.

Other nodes are not modelled.  A critical section is told what it finds there: the neighbours of the
leaf, the node that a layer pointer is set to, and what `gc_layer` makes of the layer.  A suffix is
loaded at one go, and `ksuf_` is the bag that it is in.

While `gc_layer` shortens a layer it also locks leaves below the root internode: an emptied left
leaf, which it marks as deleted, and the only child of the root, which becomes the root of the layer
or, in a directory, is copied into a new one.  These critical sections are not steps here.
-/

namespace MasstreeLHM.KeyTable.Shared

variable {V : Type} [Inhabited V]

/-- A leaf in shared memory.  The flags of `v_` are in `version`. -/
structure SharedLeaf (V : Type) where
  version : Nodeversion
  leaf : Leaf (Cell V)

/-- One word is stored. -/
inductive LeafStore (V : Type) where
  | mark (m : Nodeversion.Mark)
  | modstate (m : Modstate)
  | ikey (p x : ℕ)
  | keylenx (p x : ℕ)
  | ksuf (p : ℕ) (s : Bytes)
  | lv (p : ℕ) (lv : LeafValue V)
  | permutation (q : Kpermuter)

namespace LeafStore

/-- It sets bits of `v_`. -/
def isMark : LeafStore V → Bool
  | mark _ => true
  | _ => false

/-- The leaf after a store. -/
def onLeaf (l : Leaf (Cell V)) : LeafStore V → Leaf (Cell V)
  | mark _ => l
  | modstate m => { l with modstate := m }
  | ikey p x => l.assign p { l.slot p with ikey := x }
  | keylenx p x => l.assign p { l.slot p with body := { (l.slot p).body with keylenx := x } }
  | ksuf p s => l.assign p { l.slot p with body := { (l.slot p).body with ksuf := s } }
  | lv p v => l.assign p { l.slot p with body := { (l.slot p).body with lv := v } }
  | permutation q => { l with permutation := q }

/-- A store, with the assertion of the marks that the version is locked. -/
def apply (s : SharedLeaf V) : LeafStore V → Option (SharedLeaf V)
  | mark m => (m.apply s.version).map fun v => { s with version := v }
  | st => some { s with leaf := st.onLeaf s.leaf }

end LeafStore

/-! ## Critical sections -/

/-- What a critical section finds outside of the leaf: `prev_` and `next_`; the node that a layer
pointer is set to (`maybe_parent` of the layer, or the first node of a new one); the nodes that
`gc_layer` sets it to, one after another, and whether the layer is gone. -/
structure Surroundings where
  prev : Option Ptr
  next : Option Ptr
  layer : Ptr
  relinked : List Ptr
  gone : Bool

/-- A cursor's calls: `find_unlocked`; `find_locked` and `finish(0)`; `find_insert`, an assignment
to `value()` and `finish(1)`; `find_insert` and `finish(0)`; `find_locked` and `finish(-1)`;
`gc_layer` and what the callback does with its answer. -/
inductive LeafCall (V : Type) where
  | get
  | read
  | put (f : Option V → V)
  | probe
  | remove
  | gcLayer

namespace LeafCall

/-- It starts with `find_unlocked`. -/
def isGet : LeafCall V → Bool
  | get => true
  | _ => false

end LeafCall

/-- `leaf::assign`. -/
def assignWords (p : ℕ) (k : Bytes) : List (LeafStore V) :=
  .lv p default :: .ikey p (slice k) ::
    if (keyOf k).hasSuffix then [.keylenx p ksufKeylenx, .ksuf p (k.drop 8)] else
      [.keylenx p k.length]

/-- The assignment to `value()` and `finish_insert`, if there is a value. -/
def finishWords (q : Kpermuter) (i p : ℕ) : Option V → List (LeafStore V)
  | none => []
  | some v => [.lv p (.value v), .permutation (q.insertFromBack i)]

/-- `make_split`, as far as the leaf is concerned.  The item that goes into the new leaf is made
live there. -/
def splitWords (P : NodeParams) (l : Leaf (Cell V)) (i : ℕ) (k : Bytes) (v : Option V) :
    Option (List (LeafStore V)) :=
  let q := l.permutation.exchange l.size (P.leafWidth - 1)
  if l.size < P.leafWidth ∧ q.back ≠ 0 then
    some (.permutation q :: (assignWords q.back k ++ finishWords q i q.back v))
  else
    (l.splitPoint P i (assigned k)).map fun mid =>
      let q := l.trimmed P (l.splitRight P 0 i (assigned k) mid).size
      .mark .split :: .permutation q ::
        if i < mid then assignWords q.back k ++ finishWords q i q.back v else []

/-- The part of `find_insert` behind a search without hit, and `finish`. -/
def insertWords (P : NodeParams) (l : Leaf (Cell V)) (i : ℕ) (k : Bytes) (v : Option V) :
    Option (List (LeafStore V)) :=
  let p := l.permutation.back
  let room :=
    if l.size < P.leafWidth ∧ (p ≠ 0 ∨ l.prev = none ∨ l.ikeyBound = slice k) then
      some (assignWords p k ++ finishWords l.permutation i p v)
    else splitWords P l i k v
  room.map fun ws => if l.modstate = .insert then ws else .mark .insert :: .modstate .insert :: ws

/-- `make_new_layer`: the slot gets a layer in the place of its suffix. -/
def newLayerWords (p : ℕ) (n : Ptr) : List (LeafStore V) :=
  [.mark .insert, .lv p (.layer n), .keylenx p layerKeylenx]

/-- `finish_remove`, and `mark_deleted` of `remove_leaf`. -/
def removeWords (l : Leaf (Cell V)) (i : ℕ) : List (LeafStore V) :=
  let q := l.permutation.remove i
  let ws := .permutation q :: if q.size = 0 ∧ l.prev ≠ none then [.mark .deleted] else []
  if l.modstate = .insert then .mark .insert :: .modstate .remove :: ws else ws

/-- `gc_layer` on the slot behind the cursor, and `finish_remove` if the layer is gone. -/
def gcWords (a : Surroundings) (l : Leaf (Cell V)) (k : Bytes) (kx : ℕ × Option ℕ) :
    List (LeafStore V) :=
  let i := kx.1 + if kx.2.isSome then 1 else 0
  let p := l.permutation.get i
  if (keyOf k).hasSuffix ∨ l.size ≤ i ∨ (l.slot p).ikey ≠ slice k ∨
    isLayer (l.slot p) = false then []
  else a.relinked.map (fun n => .lv p (.layer n)) ++ if a.gone then removeWords l i else []

/-- The value in a slot. -/
def valueOf (s : Slot (Cell V)) : Option V :=
  match s.body.lv with
  | .value v => some v
  | .layer _ => none

/-- What a call does with the slot `p` that its search has found. -/
def foundWords (a : Surroundings) (k : Bytes) (kx : ℕ × Option ℕ) (p : ℕ) (state : ℤ)
    (l : Leaf (Cell V)) :
    LeafCall V → List (LeafStore V)
  | .get => []
  | .read => []
  | .put f =>
      if state = 0 then newLayerWords p a.layer else [.lv p (.value (f (valueOf (l.slot p))))]
  | .probe => if state = 0 then newLayerWords p a.layer else []
  | .remove => if state = 0 then [] else removeWords l kx.1
  | .gcLayer => gcWords a l k kx

/-- What a call does when its search has found no slot. -/
def missedWords (P : NodeParams) (a : Surroundings) (k : Bytes) (kx : ℕ × Option ℕ)
    (l : Leaf (Cell V)) :
    LeafCall V → Option (List (LeafStore V))
  | .get => some []
  | .read => some []
  | .put f => insertWords P l kx.1 k (some (f none))
  | .probe => insertWords P l kx.1 k none
  | .remove => some []
  | .gcLayer => some (gcWords a l k kx)

/-- What is stored in the critical section that a search ends in, when nothing has changed in
between: it has found the slot `p` of `kx`, or none, and `state` is the result of `ksuf_matches`.
A layer is entered after its pointer has been updated, and in a deleted layer the search starts
again. -/
def sectionWords (P : NodeParams) (a : Surroundings) (c : LeafCall V) (k : Bytes)
    (kx : ℕ × Option ℕ) (state : ℤ) (l : Leaf (Cell V)) : Option (List (LeafStore V)) :=
  let l := { l with prev := a.prev, next := a.next }
  match kx.2 with
  | some p =>
      if state < 0 then some [.lv p (.layer a.layer)]
      else if l.modstate = .deletedLayer then some []
      else some (foundWords a k kx p state l c)
  | none => if l.modstate = .deletedLayer then some [] else missedWords P a k kx l c

/-! ## Searches -/

/-- What a search loads next: the permutation; the permutation again, since `lower` of `find_locked`
loads its own; `ikey0_` and `keylenx_` of the slot in the middle between `l` and `r`; `lv_`;
`keylenx_` in `ksuf_matches`; the suffix. -/
inductive Load (V : Type) where
  | permutation
  | again
  | ikey (perm : Kpermuter) (l r : ℕ)
  | keylenx (perm : Kpermuter) (l r x : ℕ)
  | lv (i p : ℕ)
  | kind (i p : ℕ) (lv : LeafValue V)
  | ksuf (i p : ℕ) (lv : LeafValue V)
  | done (kx : ℕ × Option ℕ) (state : ℤ) (lv : Option (LeafValue V))

/-- A search that has arrived at the leaf: `ka_`, `v_`, and the permutation that is looked at again
when the leaf is locked. -/
structure Search (V : Type) where
  call : LeafCall V
  k : Bytes
  v : Nodeversion
  first : Kpermuter
  load : Load V

/-- The top of the loop of `key_lower_bound_by`. -/
def between (perm : Kpermuter) (l r : ℕ) : Load V :=
  if l < r then .ikey perm l r else .done (l, none) 0 none

/-- The next load of a search. -/
def Search.next (s : Search V) (l : Leaf (Cell V)) : Option (Search V) :=
  match s.load with
  | .permutation =>
      some { s with first := l.permutation
                    load := if s.call.isGet then between l.permutation 0 l.size else .again }
  | .again => some { s with load := between l.permutation 0 l.size }
  | .ikey perm a b =>
      some { s with load := .keylenx perm a b (l.slot (perm.get ((a + b) / 2))).ikey }
  | .keylenx perm a b x =>
      let m := (a + b) / 2
      let p := perm.get m
      let cmp := (keyOf s.k).compareIkey x (l.slot p).body.keylenx
      some { s with load := if cmp < 0 then between perm a m
                            else if cmp = 0 then .lv m p
                            else between perm (m + 1) b }
  | .lv i p => some { s with load := .kind i p (l.slot p).body.lv }
  | .kind i p lv =>
      let keylenx := (l.slot p).body.keylenx
      some { s with load := if keylenx < ksufKeylenx then .done (i, some p) 1 (some lv)
                            else if keylenx = layerKeylenx then .done (i, some p) (-8) (some lv)
                            else .ksuf i p lv }
  | .ksuf i p lv =>
      some { s with
        load := .done (i, some p) (if (l.slot p).body.ksuf = s.k.drop 8 then 1 else 0) (some lv) }
  | .done _ _ _ => none

/-! ## Threads -/

/-- What a thread has to do with the leaf: nothing, a search, or a critical section with what is
still to be stored. -/
inductive LeafThread (V : Type) where
  | idle
  | searching (s : Search V)
  | writing (todo : List (LeafStore V))

/-- A leaf and the threads. -/
structure LeafSystem (ι V : Type) where
  shared : SharedLeaf V
  threads : ι → LeafThread V

/-- A step of a thread. -/
inductive LeafEvent (ι V : Type) where
  /-- A search arrives at the leaf with a stable version. -/
  | stable (i : ι) (c : LeafCall V) (k : Bytes)
  /-- It loads a word. -/
  | load (i : ι)
  /-- It leaves the leaf without having locked it: `find_unlocked` looks at `has_changed`, as does
  `find_locked` in front of a layer. -/
  | hasChanged (i : ι)
  /-- `find_locked` has locked the leaf, and looks whether it has changed. -/
  | lock (i : ι) (a : Surroundings)
  /-- `gc_layer` on the slot that leads to the leaf has locked it. -/
  | collect (i : ι)
  /-- The thread in the critical section stores the next word. -/
  | store (i : ι)
  /-- It releases the lock. -/
  | unlock (i : ι)

/-- A critical section ends. -/
def LeafEvent.isUnlock {ι V : Type} : LeafEvent ι V → Bool
  | .unlock _ => true
  | _ => false

namespace LeafSystem

variable {ι : Type} [DecidableEq ι]

/-- Thread `i` goes on with `t`. -/
def become (s : LeafSystem ι V) (i : ι) (t : LeafThread V) : LeafSystem ι V :=
  { s with threads := Function.update s.threads i t }

/-- `find_locked` behind its search. -/
def lockFor (P : NodeParams) (a : Surroundings) (sh : SharedLeaf V) (r : Search V)
    (kx : ℕ × Option ℕ) (state : ℤ) : Option (SharedLeaf V × List (LeafStore V)) :=
  sh.version.lock.bind fun v =>
    let todo :=
      if v.hasChanged r.v = true ∨ sh.leaf.permutation ≠ r.first then some []
      else sectionWords P a r.call r.k kx state sh.leaf
    todo.map fun todo => ({ sh with version := v }, todo)

/-- One step.  The critical sections that a leaf below a root internode goes through in `gc_layer`
are left out. -/
def step (P : NodeParams) (s : LeafSystem ι V) : LeafEvent ι V → Option (LeafSystem ι V)
  | .stable i c k =>
      match s.threads i with
      | .idle =>
          if s.shared.version.test Nodeversion.dirtyMask ∨ s.shared.version.deleted then none
          else some (s.become i (.searching ⟨c, k, s.shared.version, default, .permutation⟩))
      | _ => none
  | .load i =>
      match s.threads i with
      | .searching r => (r.next s.shared.leaf).map fun r => s.become i (.searching r)
      | _ => none
  | .hasChanged i =>
      match s.threads i with
      | .searching ⟨c, _, v, _, .done _ state _⟩ =>
          if c.isGet ∨ (state < 0 ∧ s.shared.version.hasChanged v = false) then
            some (s.become i .idle) else none
      | _ => none
  | .lock i a =>
      match s.threads i with
      | .searching ⟨c, k, v, first, .done kx state lv⟩ =>
          if c.isGet then none
          else (lockFor P a s.shared ⟨c, k, v, first, .done kx state lv⟩ kx state).map fun r =>
            { shared := r.1, threads := Function.update s.threads i (.writing r.2) }
      | _ => none
  | .collect i =>
      match s.threads i with
      | .idle => s.shared.version.lock.map fun v =>
          let l := s.shared.leaf
          let todo :=
            if v.isRoot ∧ l.size = 0 ∧ l.directoryMeta = none then [.modstate .deletedLayer] else []
          { shared := ⟨v, l⟩, threads := Function.update s.threads i (.writing todo) }
      | _ => none
  | .store i =>
      match s.threads i with
      | .writing (st :: todo) => (st.apply s.shared).map fun sh =>
          { shared := sh, threads := Function.update s.threads i (.writing todo) }
      | _ => none
  | .unlock i =>
      match s.threads i with
      | .writing [] => s.shared.version.unlock.map fun v =>
          { shared := { s.shared with version := v }, threads := Function.update s.threads i .idle }
      | _ => none

end LeafSystem

end MasstreeLHM.KeyTable.Shared
