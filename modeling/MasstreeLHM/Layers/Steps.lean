import MasstreeLHM.Layers.Collapse
import MasstreeLHM.Layers.Metadata
import MasstreeLHM.Reach

/-!
# Runs on the layers of a table

What the operations of a Masstree table do to its nodes: they start at a pointer held by `root_` or
by a layer slot, descend to a leaf, and add, rewrite or remove one item there; new layers are
allocated, held pointers are moved to the parent, the metadata of a root is overwritten, and a
`gc_layer` callback tidies a layer.  What the slots hold besides their slice does not matter for the
shape of the layers, so it is left open here, and so is the order of the keys of one slice.

A `Forest` is the heap with the pointers into it, and `Forest.Step` has a constructor for each of
these operations.  A pointer is `Held` when a cursor may start from it now and after other
operations; it need not be a root.  `Forest.Ok` is the invariant.

**`Step.ok`** is the step lemma, one case for each constructor by the specification of its
operation, and **`Reachable.ok`** the run.  Tables with any values and namespaces are instances.
-/

namespace MasstreeLHM

variable {β : Type} [Inhabited β] {P : NodeParams}

/-- The order of the slices alone. -/
def ikeyLe (s t : Slot β) : Prop := s.ikey ≤ t.ikey

/-- The nodes of a table, and the pointers into its layers that `root_` and the slots hold. -/
structure Forest (β : Type) where
  heap : Heap β
  roots : List Ptr

namespace Forest

/-- No node yet. -/
def empty : Forest β := ⟨⟨fun _ => default, 0, []⟩, []⟩

/-- A search for `x` from `r` has stopped at `c`, and `ka` is a key of that slice.  A leaf without a
second free slot has items of another slice: a slice has fewer kinds of keys than a leaf has
slots. -/
structure Stops (P : NodeParams) (s : Forest β) (r x : ℕ) (c : Cursor) (ka : Slot β) : Prop where
  root : r ∈ s.roots
  lt : x < ikeyLimit
  reach : reachLeaf s.heap r x = some c.n
  le_size : c.i ≤ (s.heap.leaf c.n).size
  before : ∀ t ∈ (s.heap.leaf c.n).entries.take c.i, t.ikey ≤ x
  after : ∀ t ∈ (s.heap.leaf c.n).entries.drop c.i, x ≤ t.ikey
  key : ka.ikey = x
  other : P.leafWidth ≤ (s.heap.leaf c.n).size + 1 →
    ∃ t ∈ (s.heap.leaf c.n).entries, t.ikey ≠ x

/-- Allocate leaves. -/
def allocLeaves (s : Forest β) (ls : List (Leaf β)) : Forest β :=
  ls.foldl (fun s l => ⟨s.heap.alloc (.leaf l), s.heap.size :: s.roots⟩) s

/-- The slots of a leaf are rewritten, each under its slice. -/
structure SameIkeys (l : Leaf β) (slots : List (Slot β)) (st : Modstate) : Prop where
  slots : slots.map Slot.ikey = l.slots.map Slot.ikey
  modstate : st ≠ .deletedLayer

/-- One step of an operation. -/
inductive Step (P : NodeParams) : Forest β → Forest β → Prop
  /-- new layers: `initialize`, `make_new_layer` -/
  | alloc (s : Forest β) (ls : List (Leaf β)) (hl : ∀ l ∈ ls, l.Fresh P ikeyLe) :
      Step P s (s.allocLeaves ls)
  /-- `fix_root`, and the same for a layer slot -/
  | maybeParent (s : Forest β) (r : Ptr) (hr : r ∈ s.roots) :
      Step P s ⟨s.heap, (s.heap.node r).parent.getD r :: s.roots⟩
  /-- a pointer is overwritten, or its slot removed -/
  | forget (s : Forest β) (roots : List Ptr) (hr : roots ⊆ s.roots) : Step P s ⟨s.heap, roots⟩
  /-- `find_insert` followed by `finish(0)` -/
  | makeRoom (s : Forest β) (r x : ℕ) (c : Cursor) (ka : Slot β) (h : Heap β) (pos : Position)
      (hs : s.Stops P r x c ka) (hm : makeRoom P s.heap c ka = some (h, pos)) :
      Step P s ⟨h, s.roots⟩
  /-- `find_insert` followed by `finish(1)`, `create_layer_with_meta`, `attach_existing_layer` -/
  | insert (s : Forest β) (r x : ℕ) (c : Cursor) (ka sl : Slot β) (h : Heap β) (pos : Position)
      (ls : List (Leaf β)) (hs : s.Stops P r x c ka)
      (hm : MasstreeLHM.makeRoom P s.heap c ka = some (h, pos)) (hl : ∀ l ∈ ls, l.Fresh P ikeyLe)
      (hx : sl.ikey = x) :
      Step P s ⟨finishInsert (writeSlot (allocLeaves ⟨h, s.roots⟩ ls).heap pos sl) pos,
        (allocLeaves ⟨h, s.roots⟩ ls).roots⟩
  /-- a value, a suffix or a layer pointer is overwritten -/
  | rewrite (s : Forest β) (r x : ℕ) (n : Ptr) (slots : List (Slot β)) (st : Modstate)
      (hr : r ∈ s.roots) (hx : x < ikeyLimit) (hn : reachLeaf s.heap r x = some n)
      (hs : SameIkeys (s.heap.leaf n) slots st) :
      Step P s ⟨s.heap.setLeaf n { s.heap.leaf n with slots := slots, modstate := st }, s.roots⟩
  /-- `finish_remove` -/
  | remove (s : Forest β) (r x : ℕ) (n : Ptr) (i : ℕ) (h : Heap β) (hr : r ∈ s.roots)
      (hx : x < ikeyLimit) (hn : reachLeaf s.heap r x = some n) (hi : i < (s.heap.leaf n).size)
      (hf : finishRemove s.heap n i = some h) : Step P s ⟨h, s.roots⟩
  /-- the metadata of a root is overwritten -/
  | setMeta (s : Forest β) (a : Ptr) (m : DirectoryMeta) : Step P s ⟨s.heap.setMeta a m, s.roots⟩
  /-- `gc_layer`; the layer hangs in one slot, which gets the new pointer -/
  | gcLayer (s : Forest β) (r : Ptr) (copy : Ptr → Leaf β → List (Slot β)) (g : GcRoot β)
      (hr : r ∈ s.roots) (hc : Copies P ikeyLe copy)
      (hg : gcRoot copy (2 * s.heap.size + 2) s.heap r = some g) :
      Step P s ⟨g.heap, (if g.remove then [] else [g.layer]) ++ s.roots.filter fun r' =>
        climbToRoot s.heap (s.heap.size + 1) r' ≠ climbToRoot s.heap (s.heap.size + 1) r⟩

/-- The states of all runs. -/
def Reachable (P : NodeParams) (s : Forest β) : Prop := Relation.ReflTransGen (Step P) empty s

end Forest

/-! ## What holds in every run -/

/-- Nothing is there. -/
def Ghost.empty : Ghost := ⟨fun _ => False, fun _ => False, id, id, fun _ => 0, fun _ => 0⟩

lemma HeapInv.empty (R : Slot β → Slot β → Prop) :
    HeapInv P R (⟨fun _ => default, 0, []⟩ : Heap β) Ghost.empty := by
  have hk : ∀ {a}, ¬ Ghost.empty.Known (⟨fun _ => default, 0, []⟩ : Heap β) a := fun h0 =>
    absurd h0.1 (Nat.not_lt_zero _)
  exact ⟨⟨fun h0 => h0.elim, fun h0 => h0.elim, fun h0 => absurd h0 hk, fun h0 => absurd h0 hk,
    fun h0 => absurd h0 hk, fun h0 => absurd h0 hk, fun h0 => absurd h0 (Nat.not_lt_zero _),
    fun h0 => absurd h0 hk, fun h0 => h0.elim, fun h0 => h0.elim, fun h0 => h0.elim,
    fun h0 => h0.elim, fun h0 => absurd h0 List.not_mem_nil⟩, fun _ _ h0 => h0.elim,
    fun _ _ h0 => h0.elim⟩

/-- A pointer that a cursor may start from, now and after other operations: a node that something
leads to, and the leftmost leaf of its layer if it is a leaf. -/
structure Held (h : Heap β) (G : Ghost) (r : Ptr) : Prop where
  known : G.Known h r
  leaf : (h.node r).isLeaf = true → G.fam r = r

namespace Held

variable {h h' : Heap β} {G G' : Ghost} {r f : Ptr} {R : Slot β → Slot β → Prop}
  {new : Ptr → Prop}

lemma startable (hr : Held h G r) (hI : HeapInv P R h G) : (h.node r).startable := by
  cases hn : h.node r with
  | internode n => trivial
  | leaf l =>
      have hleaf := hr.leaf (by rw [hn]; rfl)
      have hlive := (hI.tree.fam_spec hr.known).1
      rw [hleaf] at hlive
      exact (hI.leaves r { l with parent := none } hlive (by rw [hn]; rfl)).first.mpr hleaf

omit [Inhabited β] in
lemma frame (hr : Held h G r) (hF : Frame h G h' G') : Held h' G' r :=
  ⟨hF.known hr.known, fun h0 => (hF.fam r hr.known.1).trans
    (hr.leaf ((hF.isLeaf r hr.known.1).symm.trans h0))⟩

omit [Inhabited β] in
lemma parent (hr : Held h G r) (hT : TreeInv h G G.exact) :
    Held h G ((h.node r).parent.getD r) := by
  cases hp : (h.node r).parent with
  | none => exact hr
  | some p =>
      obtain ⟨h1, -, -, h4⟩ := hT.up hr.known hp
      exact ⟨h1, fun h0 => absurd (h4.symm.trans h0) (by simp)⟩

omit [Inhabited β] in
lemma alloc_leaf (hr : Held h G r) (l : Leaf β) : Held (h.alloc (.leaf l)) (G.alloc h.size) r := by
  have hfam : (G.alloc h.size).fam r = G.fam r := if_neg hr.known.1.ne
  refine ⟨⟨Nat.lt_succ_of_lt hr.known.1, hr.known.2⟩, ?_⟩
  rw [node_alloc_leaf hr.known.1, hfam]
  exact hr.leaf

lemma collapsed (hr : Held h G r) (hC : Collapsed P R h G f h' G' new) (hf : G.fam r ≠ f) :
    Held h' G' r :=
  ⟨hC.known hr.known hf, fun h0 => (hC.fam r hr.known.1).trans
    (hr.leaf ((hC.isLeaf r hr.known.1).symm.trans h0))⟩

/-- The root of a layer. -/
lemma of_top (hI : HeapInv P R h G) (hr : G.live r) (htop : r = G.top (G.fam r)) : Held h G r := by
  refine ⟨hI.tree.known hr, fun h0 => ?_⟩
  obtain ⟨-, -, -, -, hlo, -⟩ := hI.tree.top_spec (hI.tree.known hr)
  rw [← htop] at hlo
  cases hn : h.node r with
  | internode n => simp [hn] at h0
  | leaf l =>
      have hl : (h.node r).leafData = some { l with parent := none } := by rw [hn]; rfl
      refine (hI.leaves r _ hr hl).first.mp ?_
      change l.prev = none
      cases hprev : l.prev with
      | none => rfl
      | some m =>
          obtain ⟨h1, -, h3, -⟩ := (hI.chain r _ hr hl).prev_some m hprev
          have := hI.tree.range h1
          omega

/-- The leaf that a descent from a held pointer ends in. -/
lemma reach (hr : Held h G r) (hI : HeapInv P R h G) {x : ℕ} {n : Ptr} (hx : x < ikeyLimit)
    (hn : reachLeaf h r x = some n) :
    G.live n ∧ G.fam n = G.fam r ∧ G.lo n ≤ x ∧ x < G.hi n ∧ h.node n = .leaf (h.leaf n) := by
  obtain ⟨b, h1, h2, h3, h4, h5⟩ := hI.tree.reachLeaf_spec hr.known (hr.startable hI) hx
  obtain rfl : b = n := by simpa [h1] using hn
  refine ⟨h2, h4, h5.1, h5.2, ?_⟩
  cases hl : h.node b with
  | leaf l => simp [Heap.leaf, hl]
  | internode i => simp [hl] at h3

/-- Tidying a layer keeps the pointers into the others. -/
lemma gcLayer {roots : List Ptr} (hI : HeapInv P R h G) (hroots : ∀ r ∈ roots, Held h G r)
    (hr : r ∈ roots) {copy : Ptr → Leaf β → List (Slot β)} (hc : Copies P R copy) {g : GcRoot β}
    (hg : gcRoot copy (2 * h.size + 2) h r = some g) :
    ∃ G', HeapInv P R g.heap G' ∧
    ∀ r' ∈ (if g.remove then [] else [g.layer]) ++ roots.filter fun r' =>
      climbToRoot h (h.size + 1) r' ≠ climbToRoot h (h.size + 1) r, Held g.heap G' r' := by
  obtain ⟨g', G', h1, h2⟩ := gcRoot_spec hc hI (hroots r hr).known ((hroots r hr).startable hI)
  obtain rfl : g = g' := by simpa [hg] using h1
  -- pointers that climb to another root belong to other layers
  have hother : ∀ r' ∈ roots.filter (fun r' => climbToRoot h (h.size + 1) r' ≠
      climbToRoot h (h.size + 1) r), r' ∈ roots ∧ G.fam r' ≠ G.fam r := by
    intro r' hr'
    obtain ⟨h3, h4⟩ := List.mem_filter.mp hr'
    refine ⟨h3, fun h5 => ?_⟩
    rw [decide_eq_true_eq] at h4
    rw [hI.tree.climbToRoot_eq _ (hroots r' h3).known ((hroots r' h3).startable hI) (by omega),
      hI.tree.climbToRoot_eq _ (hroots r hr).known ((hroots r hr).startable hI) (by omega),
      h5] at h4
    exact h4 rfl
  rcases h2 with hK | hD
  · refine ⟨G', hK.collapsed.heap, fun r' hr' => ?_⟩
    rw [hK.remove] at hr'
    rcases List.mem_cons.mp hr' with rfl | hr'
    · exact .of_top hK.collapsed.heap hK.live hK.top
    · obtain ⟨h3, h4⟩ := hother r' hr'
      exact (hroots r' h3).collapsed hK.collapsed h4
  · refine ⟨G', hD.collapsed.heap, fun r' hr' => ?_⟩
    rw [hD.remove] at hr'
    obtain ⟨h3, h4⟩ := hother r' hr'
    exact (hroots r' h3).collapsed hD.collapsed h4

end Held

/-- **The invariant of a run.** -/
def Forest.Ok (P : NodeParams) (s : Forest β) (G : Ghost) : Prop :=
  HeapInv P ikeyLe s.heap G ∧ ∀ r ∈ s.roots, Held s.heap G r

namespace Forest

variable {s : Forest β} {G : Ghost}

lemma empty_ok : (empty : Forest β).Ok P Ghost.empty :=
  ⟨HeapInv.empty _, fun _ hr => absurd hr List.not_mem_nil⟩

/-- Operations inside a layer keep the held pointers. -/
lemma Ok.frame (hs : s.Ok P G) {h' : Heap β} {G' : Ghost} (hI : HeapInv P ikeyLe h' G')
    (hF : Frame s.heap G h' G') : (⟨h', s.roots⟩ : Forest β).Ok P G' :=
  ⟨hI, fun r hr => (hs.2 r hr).frame hF⟩

lemma Ok.alloc (hs : s.Ok P G) {l : Leaf β} (hl : l.Fresh P ikeyLe) :
    (⟨s.heap.alloc (.leaf l), s.heap.size :: s.roots⟩ : Forest β).Ok P (G.alloc s.heap.size) := by
  refine ⟨hs.1.alloc_leaf hl, fun r hr => ?_⟩
  rcases List.mem_cons.mp hr with rfl | hr
  · exact ⟨(hs.1.alloc_leaf hl).tree.known (Or.inl rfl), fun _ => if_pos rfl⟩
  · exact (hs.2 r hr).alloc_leaf l

lemma Ok.allocLeaves {ls : List (Leaf β)} : ∀ {s : Forest β} {G : Ghost}, s.Ok P G →
    (∀ l ∈ ls, l.Fresh P ikeyLe) → ∃ G', (s.allocLeaves ls).Ok P G' ∧
      ∀ {f pos x Bf Af l₀}, Room P s.heap G f pos x Bf Af l₀ →
        Room P (s.allocLeaves ls).heap G' f pos x Bf Af l₀ := by
  induction ls with
  | nil => exact fun {s G} hs _ => ⟨G, hs, fun h0 => h0⟩
  | cons l ls ih =>
      intro s G hs hl
      obtain ⟨G', h1, h2⟩ := ih (hs.alloc (hl l List.mem_cons_self))
        (fun l' hl' => hl l' (List.mem_cons_of_mem _ hl'))
      exact ⟨G', h1, fun h0 => h2 (h0.alloc_leaf hs.1.tree.live_lt)⟩

/-- The leaf that a descent from a held pointer ends in. -/
lemma Ok.reach (hs : s.Ok P G) {r x : ℕ} {n : Ptr} (hr : r ∈ s.roots) (hx : x < ikeyLimit)
    (hn : reachLeaf s.heap r x = some n) :
    G.live n ∧ G.fam n = G.fam r ∧ G.lo n ≤ x ∧ x < G.hi n ∧
      s.heap.node n = .leaf (s.heap.leaf n) :=
  (hs.2 r hr).reach hs.1 hx hn

/-- Making room where a search has stopped. -/
lemma Ok.makeRoom (hs : s.Ok P G) {r x : ℕ} {c : Cursor} {ka : Slot β} {h : Heap β}
    {pos : Position} (hc : s.Stops P r x c ka)
    (hm : MasstreeLHM.makeRoom P s.heap c ka = some (h, pos)) :
    ∃ G' l, (⟨h, s.roots⟩ : Forest β).Ok P G' ∧
      Room P h G' (G.fam c.n) pos x (fun t => t.ikey ≤ x) (fun t => x ≤ t.ikey) l := by
  obtain ⟨h1, -, h3, h4, h5⟩ := hs.reach hc.root hc.lt hc.reach
  obtain ⟨h', G', pos', l', heq, hI, hF, -, hroom, -⟩ := makeRoom_spec (fun _ _ h0 => h0) hs.1 h1 h5
    h3 h4 hc.le_size hc.key hc.before hc.after (fun _ h0 => h0) (fun _ h0 => h0) hc.other
  rw [hm, Option.some.injEq, Prod.mk.injEq] at heq
  obtain ⟨rfl, rfl⟩ := heq
  exact ⟨G', l', hs.frame hI hF, hroom⟩

/-- Rewriting the slots of a leaf, each under its slice. -/
lemma Ok.rewrite (hs : s.Ok P G) {n : Ptr} {l : Leaf β} (hn : G.live n)
    (hl : s.heap.node n = .leaf l) {slots : List (Slot β)} {st : Modstate}
    (hsame : SameIkeys l slots st) :
    (⟨s.heap.setLeaf n { l with slots := slots, modstate := st }, s.roots⟩ : Forest β).Ok P G := by
  have hok := hs.1.leaves n { l with parent := none } hn (by rw [hl]; rfl)
  set l' : Leaf β := { l with slots := slots, modstate := st } with hl'
  have hslot : ∀ q, (l'.slot q).ikey = (l.slot q).ikey := by
    intro q
    have hget : ∀ xs : List (Slot β), (xs.getD q default).ikey
        = ((xs.map Slot.ikey)[q]?).getD (default : Slot β).ikey := by
      intro xs
      rw [List.getD_eq_getElem?_getD, List.getElem?_map]
      cases xs[q]? <;> rfl
    change (slots.getD q default).ikey = (l.slots.getD q default).ikey
    rw [hget, hget, hsame.slots]
  have hlen : slots.length = l.slots.length := by
    have h0 := congrArg List.length hsame.slots
    simpa using h0
  have hok' : LeafOk P ikeyLe G n { l' with parent := none } := by
    refine hok.rewrite rfl hlen rfl hsame.modstate hslot fun p q h0 => ?_
    change (l'.slot p).ikey ≤ (l'.slot q).ikey
    rw [hslot, hslot]
    exact h0
  have hlinks : l.SameLinks l' := ⟨rfl, rfl, rfl, rfl, Iff.rfl⟩
  exact hs.frame (hs.1.setLeaf hl hlinks rfl rfl fun _ => hok')
    ((SameTree.setLeaf hl hlinks).frame G)

/-- Tidying a layer that hangs in one slot. -/
lemma Ok.gcLayer (hs : s.Ok P G) {r : Ptr} (hr : r ∈ s.roots)
    {copy : Ptr → Leaf β → List (Slot β)} (hc : Copies P ikeyLe copy) {g : GcRoot β}
    (hg : gcRoot copy (2 * s.heap.size + 2) s.heap r = some g) :
    ∃ G', (⟨g.heap, (if g.remove then [] else [g.layer]) ++ s.roots.filter fun r' =>
      climbToRoot s.heap (s.heap.size + 1) r' ≠ climbToRoot s.heap (s.heap.size + 1) r⟩ :
        Forest β).Ok P G' :=
  Held.gcLayer hs.1 hs.2 hr hc hg

/-- **Every step keeps the invariant.** -/
lemma Step.ok {s s' : Forest β} (h : Step P s s') {G : Ghost} (hs : s.Ok P G) :
    ∃ G', s'.Ok P G' := by
  cases h with
  | alloc ls hl =>
      obtain ⟨G', h1, -⟩ := hs.allocLeaves hl
      exact ⟨G', h1⟩
  | maybeParent r hr =>
      refine ⟨G, hs.1, fun r' hr' => ?_⟩
      rcases List.mem_cons.mp hr' with rfl | hr'
      · exact (hs.2 r hr).parent hs.1.tree
      · exact hs.2 r' hr'
  | forget roots hr => exact ⟨G, hs.1, fun r hr' => hs.2 r (hr hr')⟩
  | makeRoom r x c ka h pos hc hm =>
      obtain ⟨G', -, h1, -⟩ := hs.makeRoom hc hm
      exact ⟨G', h1⟩
  | insert r x c ka sl h pos ls hc hm hl hx =>
      obtain ⟨G₁, l, h1, hroom⟩ := hs.makeRoom hc hm
      obtain ⟨G₂, h2, hmove⟩ := h1.allocLeaves hl
      obtain ⟨hI, hF, -⟩ := finishInsert_spec (s := sl) h2.1 (hmove hroom) hx
        (fun t ht => by rw [ikeyLe, hx]; exact ht) (fun t ht => by rw [ikeyLe, hx]; exact ht)
      exact ⟨G₂, h2.frame hI hF⟩
  | rewrite r x n slots st hr hx hn hsame =>
      obtain ⟨h1, -, -, -, h2⟩ := hs.reach hr hx hn
      exact ⟨G, hs.rewrite h1 h2 hsame⟩
  | remove r x n i h hr hx hn hi hf =>
      obtain ⟨h1, -, -, -, h2⟩ := hs.reach hr hx hn
      obtain ⟨h', G', heq, hI, hF, -⟩ := finishRemove_entries hs.1 h1 h2 hi
      obtain rfl : h = h' := by simpa [hf] using heq
      exact ⟨G', hs.frame hI hF⟩
  | setMeta a m =>
      refine ⟨G, hs.1.setMeta, fun r hr => ?_⟩
      have hsh := SameShape.setMeta (h := s.heap) (a := a) (m := m)
      exact ⟨hsh.known.mpr (hs.2 r hr).known, fun h0 =>
        (hs.2 r hr).leaf ((hsh.isLeaf r).symm.trans h0)⟩
  | gcLayer r copy g hr hc hg => exact hs.gcLayer hr hc hg

/-- **The invariant holds in every run.** -/
theorem Reachable.ok {s : Forest β} (h : s.Reachable P) : ∃ G, s.Ok P G := by
  induction h with
  | refl => exact ⟨_, empty_ok⟩
  | tail _ hstep ih =>
      obtain ⟨G, hs⟩ := ih
      exact hstep.ok hs

end Forest

end MasstreeLHM
