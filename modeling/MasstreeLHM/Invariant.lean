import MasstreeLHM.Cursor
import MasstreeLHM.Separators

/-!
# The invariant of a node heap

A heap holds any number of layers, each a B+tree of internodes over a chain of leaves.  The
invariant is stated with a ghost description of the heap:

* `live` — the nodes that are part of some layer (neither retired nor still to be linked);
* `gone` — dead nodes that nothing leads to any more: what a replaced root, or a layer that has
  been collected, leaves behind;
* `fam` — the layer a node belongs or belonged to, named by the address of its leftmost leaf,
  which never changes;
* `top` — the current root of a layer;
* `lo`, `hi` — the range of slices a live node is responsible for.

Every condition is local to a node and its neighbours.  In the middle of a split or of a removal
a few nodes are excused from it; `Excused` says which, and `exact` is the state with no excuse.
The three parts are separate because the operations touch them separately: `TreeInv` is about
parents, children and separators, `LeafInv` about the inside of leaves, `ChainInv` about the
list of leaves.
-/

namespace MasstreeLHM

open Separators

variable {β : Type}

/-- Slices are 64-bit values. -/
def ikeyLimit : ℕ := 2 ^ 64

/-- The ghost description of a heap. -/
structure Ghost where
  live : Ptr → Prop
  gone : Ptr → Prop
  fam : Ptr → Ptr
  top : Ptr → Ptr
  lo : Ptr → ℕ
  hi : Ptr → ℕ

/-- A node of some layer, live or dead. -/
def Ghost.Known (G : Ghost) (h : Heap β) (a : Ptr) : Prop := a < h.size ∧ ¬ G.gone a

/-- Which nodes are excused in the middle of an operation: the upper end that the parent of a
node still counts with, children that are already dead, nodes not yet linked to a parent, and
former roots that have lost the root bit but not yet got a parent. -/
structure Excused where
  view : Ptr → ℕ
  hole : Ptr → Prop
  loose : Ptr → Prop
  unrooted : Ptr → Prop

/-- Nothing is excused. -/
def Ghost.exact (G : Ghost) : Excused :=
  ⟨G.hi, fun _ => False, fun _ => False, fun _ => False⟩

/-- A node a cursor may start from: an internode or a leftmost leaf. -/
def Node.startable : Node β → Prop
  | .leaf l => l.prev = none
  | .internode _ => True

/-- A leaf without its parent pointer, the only field that changes above the leaves. -/
def Node.leafData : Node β → Option (Leaf β)
  | .leaf l => some { l with parent := none }
  | .internode _ => none

/-! ## Parents, children and separators -/

/-- What holds of the child of `a` that is responsible for `[l, u)`. -/
def SegOk (h : Heap β) (G : Ghost) (X : Excused) (a : Ptr) : ℕ × Option Ptr × ℕ → Prop
  | (l, none, u) => l = u
  | (l, some c, u) =>
      (G.live c ∨ X.hole c) ∧ ¬ X.loose c ∧ (h.node c).parent = some a ∧
        G.lo c = l ∧ X.view c = u ∧ l < u

/-- The links of an internode.  Only the first child may be null, and then the range in front
of the first separator is empty; this never happens at the left edge of the layer. -/
structure LinkInv (h : Heap β) (G : Ghost) (X : Excused) (a : Ptr) (n : Internode) : Prop where
  length : n.children.length = n.keys.length + 1
  tail : ∀ c ∈ n.children.tail, c ≠ none
  head : n.child 0 = none → n.keys ≠ [] ∧ 0 < G.lo a
  segs : ∀ s ∈ segs (G.lo a) n.keys n.children (G.hi a), SegOk h G X a s

/-- The tree part of the invariant. -/
structure TreeInv (h : Heap β) (G : Ghost) (X : Excused) : Prop where
  known : ∀ {a}, G.live a → G.Known h a
  gone_lt : ∀ {a}, G.gone a → a < h.size
  up : ∀ {a p}, G.Known h a → (h.node a).parent = some p →
    G.Known h p ∧ G.fam p = G.fam a ∧ (h.node a).height < (h.node p).height ∧
      (h.node p).isLeaf = false
  top_eq : ∀ {a}, G.Known h a → ¬ X.loose a → (h.node a).parent = none → a = G.top (G.fam a)
  top_spec : ∀ {a}, G.Known h a → G.live (G.top (G.fam a)) ∧ ¬ X.loose (G.top (G.fam a)) ∧
    G.fam (G.top (G.fam a)) = G.fam a ∧ (h.node (G.top (G.fam a))).parent = none ∧
    G.lo (G.top (G.fam a)) = 0 ∧ X.view (G.top (G.fam a)) = ikeyLimit
  fam_spec : ∀ {a}, G.Known h a → G.live (G.fam a) ∧ G.fam (G.fam a) = G.fam a ∧
    (h.node (G.fam a)).isLeaf = true
  height_lt : ∀ {a}, a < h.size → (h.node a).height < h.size
  root_bit : ∀ {a}, G.Known h a → ¬ X.loose a → (h.node a).startable →
    ((h.node a).isRoot = true → (h.node a).parent = none) ∧
      ((h.node a).parent = none → ¬ X.unrooted a → (h.node a).isRoot = true)
  range : ∀ {a}, G.live a → G.lo a < G.hi a ∧ G.hi a ≤ ikeyLimit
  linked : ∀ {a p}, G.live a → ¬ X.loose a → (h.node a).parent = some p →
    G.live p ∧ some a ∈ (h.internode p).children
  link : ∀ {a n}, G.live a → h.node a = .internode n → LinkInv h G X a n
  not_deleted : ∀ {a}, G.live a → (h.node a).deleted = false
  retired_dead : ∀ {a}, a ∈ h.retired → a < h.size ∧ ¬ G.live a

/-! ## Leaves -/

section Leaves

variable [Inhabited β]

/-- The inside of a leaf.  `R` is the order of the slots, by slice first. -/
structure LeafOk (P : NodeParams) (R : Slot β → Slot β → Prop) (G : Ghost) (a : Ptr)
    (l : Leaf β) : Prop where
  perm : l.permutation.WF P.leafWidth
  slots : l.slots.length = P.leafWidth
  sorted : l.entries.Pairwise R
  within : ∀ s ∈ l.entries, G.lo a ≤ s.ikey ∧ s.ikey < G.hi a
  modstate : l.modstate ≠ .deletedLayer
  first : l.prev = none ↔ G.fam a = a
  bound : l.prev ≠ none → l.ikeyBound = G.lo a

/-- The leaf part of the invariant. -/
def LeafInv (P : NodeParams) (R : Slot β → Slot β → Prop) (h : Heap β) (G : Ghost) : Prop :=
  ∀ a l, G.live a → (h.node a).leafData = some l → LeafOk P R G a l

/-- The links of a leaf to its neighbours. -/
structure ChainOk (h : Heap β) (G : Ghost) (a : Ptr) (l : Leaf β) : Prop where
  next_some : ∀ m, l.next = some m → G.live m ∧ G.fam m = G.fam a ∧ G.lo m = G.hi a ∧
    ∃ lm, (h.node m).leafData = some lm ∧ lm.prev = some a
  next_none : l.next = none → G.hi a = ikeyLimit
  prev_some : ∀ m, l.prev = some m → G.live m ∧ G.fam m = G.fam a ∧ G.hi m = G.lo a ∧
    ∃ lm, (h.node m).leafData = some lm ∧ lm.next = some a
  prev_none : l.prev = none → G.lo a = 0

/-- The chain part of the invariant. -/
def ChainInv (h : Heap β) (G : Ghost) : Prop :=
  ∀ a l, G.live a → (h.node a).leafData = some l → ChainOk h G a l

/-- **The invariant of a heap between operations.** -/
structure HeapInv (P : NodeParams) (R : Slot β → Slot β → Prop) (h : Heap β) (G : Ghost) :
    Prop where
  tree : TreeInv h G G.exact
  leaves : LeafInv P R h G
  chain : ChainInv h G

/-- A live slot `s` of layer `f`. -/
def Entry (h : Heap β) (G : Ghost) (f : Ptr) (s : Slot β) : Prop :=
  ∃ a l, G.live a ∧ G.fam a = f ∧ (h.node a).leafData = some l ∧ s ∈ l.entries

end Leaves

/-! ## Small facts about nodes -/

@[simp] lemma Node.startable_internode (n : Internode) :
    (Node.internode n : Node β).startable := trivial

@[simp] lemma Node.startable_leaf (l : Leaf β) : (Node.leaf l).startable ↔ l.prev = none := Iff.rfl

@[simp] lemma Node.startable_setParent (p : Option Ptr) (n : Node β) :
    (n.setParent p).startable ↔ n.startable := by
  cases n <;> rfl

@[simp] lemma Node.leafData_internode (n : Internode) :
    (Node.internode n : Node β).leafData = none := rfl

@[simp] lemma Node.leafData_leaf_eq (l : Leaf β) :
    (Node.leaf l).leafData = some { l with parent := none } := rfl

@[simp] lemma Node.leafData_setParent (p : Option Ptr) (n : Node β) :
    (n.setParent p).leafData = n.leafData := by
  cases n <;> rfl

lemma Node.leafData_leaf {n : Node β} {l : Leaf β} (h : n.leafData = some l) :
    n.isLeaf = true ∧ n.height = 0 := by
  cases n with
  | leaf l' => exact ⟨rfl, rfl⟩
  | internode n => simp [Node.leafData] at h

lemma Node.exists_leafData {n : Node β} (h : n.isLeaf = true) : ∃ l, n.leafData = some l := by
  cases n with
  | leaf l => exact ⟨_, rfl⟩
  | internode n => simp [Node.isLeaf] at h

lemma Node.exists_internode {n : Node β} (h : n.isLeaf = false) : ∃ i, n = .internode i := by
  cases n with
  | leaf l => simp [Node.isLeaf] at h
  | internode n => exact ⟨n, rfl⟩

lemma Node.startable_of_internode {n : Node β} (h : n.isLeaf = false) : n.startable := by
  cases n with
  | leaf l => simp [Node.isLeaf] at h
  | internode n => trivial

lemma Node.internode_of_setParent {n : Node β} {p : Option Ptr} {m' : Internode}
    (h : n.setParent p = .internode m') :
    ∃ m, n = .internode m ∧ m'.keys = m.keys ∧ m'.children = m.children := by
  cases n with
  | leaf l => simp [Node.setParent] at h
  | internode m =>
      obtain rfl : _ = m' := by simpa [Node.setParent] using h
      exact ⟨m, rfl, rfl, rfl⟩

lemma Heap.internode_eq {h : Heap β} {a : Ptr} {n : Internode} (hn : h.node a = .internode n) :
    h.internode a = n := by
  simp [Heap.internode, hn, Node.toInternode]

/-- Two states of a node that differ only in the links above the leaves: the parent pointer, and
the root bit, keys and children of an internode. -/
structure Node.Like (n n' : Node β) : Prop where
  leafData : n'.leafData = n.leafData
  height : n'.height = n.height
  deleted : n'.deleted = n.deleted
  directoryMeta : n'.directoryMeta = n.directoryMeta

namespace Node.Like

lemma refl (n : Node β) : Like n n := ⟨rfl, rfl, rfl, rfl⟩

lemma setParent (n : Node β) (p : Option Ptr) : Like n (n.setParent p) := by
  constructor <;> simp

lemma internode {n n' : Internode} (hh : n'.height = n.height) (hd : n'.deleted = n.deleted)
    (hm : n'.directoryMeta = n.directoryMeta) :
    Like (Node.internode n : Node β) (.internode n') :=
  ⟨rfl, hh, hd, hm⟩

lemma isLeaf {n n' : Node β} (hl : Like n n') : n'.isLeaf = n.isLeaf := by
  have := hl.leafData
  cases n <;> cases n' <;> simp_all

lemma startable {n n' : Node β} (hl : Like n n') : n'.startable ↔ n.startable := by
  have := hl.leafData
  cases n <;> cases n' <;> simp_all

end Node.Like

section

variable [Inhabited β]

/-- `leaf` reads what `leafData` describes. -/
lemma Heap.leaf_of_leafData {h : Heap β} {a : Ptr} {l : Leaf β}
    (hl : (h.node a).leafData = some l) : { h.leaf a with parent := none } = l := by
  cases hn : h.node a with
  | leaf l' => simpa [Heap.leaf, hn, Node.toLeaf, Node.leafData] using hl
  | internode n => simp [hn, Node.leafData] at hl

lemma Leaf.entries_parent (l : Leaf β) (p : Option Ptr) :
    ({ l with parent := p } : Leaf β).entries = l.entries := rfl

end

/-! ## Cutting an internode at a child -/

namespace LinkInv

variable {h : Heap β} {G : Ghost} {X : Excused} {a : Ptr} {n : Internode}

lemma seg_le (hn : LinkInv h G X a n) : ∀ s ∈ Separators.segs (G.lo a) n.keys n.children (G.hi a),
    s.1 ≤ s.2.2 := by
  rintro ⟨l, c, u⟩ hs
  cases c with
  | none => exact (hn.segs _ hs).le
  | some c => exact (hn.segs _ hs).2.2.2.2.2.le

/-- Only the first range of an internode can be empty. -/
lemma seg_tail_lt (hn : LinkInv h G X a n) :
    ∀ s ∈ (Separators.segs (G.lo a) n.keys n.children (G.hi a)).tail, s.1 < s.2.2 := by
  rintro ⟨l, c, u⟩ hs
  cases c with
  | some c => exact (hn.segs _ (List.mem_of_mem_tail hs)).2.2.2.2.2
  | none =>
      exfalso
      obtain ⟨d, ds, hch⟩ := List.exists_cons_of_length_eq_add_one hn.length
      cases hk : n.keys with
      | nil => simp [hch, hk] at hs
      | cons k ks =>
          simp only [hch, hk, segs_cons, List.tail_cons] at hs
          have hlen : ds.length = ks.length + 1 := by simpa [hch, hk] using hn.length
          obtain ⟨k₁, k₂, c₁, c₂, -, hcs, -⟩ := exists_cut hlen hs
          exact hn.tail none (by simp [hch, hcs]) rfl

/-- The separators are strictly increasing and lie inside the range of the node. -/
lemma sorted (hn : LinkInv h G X a n) :
    n.keys.Pairwise (· < ·) ∧ ∀ k ∈ n.keys, G.lo a ≤ k ∧ k < G.hi a :=
  sorted_of_segs hn.length hn.seg_le hn.seg_tail_lt

/-- The search for a point of the range at a cut finds the child at the cut. -/
lemma upper_cut (hn : LinkInv h G X a n) {k₁ k₂ : List ℕ} (hk : n.keys = k₁ ++ k₂) {x : ℕ}
    (hl : downTo (G.lo a) k₁ ≤ x) (hu : x < upTo (G.hi a) k₂) : upper x n.keys = k₁.length := by
  have hs := hn.sorted
  rw [hk] at hs ⊢
  obtain ⟨h1, h2, -, -⟩ := cut_bounds hs.1 hs.2
  exact upper_append hs.1 (fun k hk => (h1 k hk).trans hl) (fun k hk => hu.trans_le (h2 k hk))

/-- **A linked child, the cut at it, and the searches that find it.** -/
lemma cut_child (hn : LinkInv h G X a n) {c : Ptr} (hc : some c ∈ n.children) :
    ∃ k₁ k₂ c₁ c₂, n.keys = k₁ ++ k₂ ∧ n.children = c₁ ++ some c :: c₂ ∧
      c₁.length = k₁.length ∧ downTo (G.lo a) k₁ = G.lo c ∧ upTo (G.hi a) k₂ = X.view c ∧
      SegOk h G X a (G.lo c, some c, X.view c) ∧ G.lo a ≤ G.lo c ∧ X.view c ≤ G.hi a ∧
      ∀ x, G.lo c ≤ x → x < X.view c → upper x n.keys = k₁.length := by
  obtain ⟨l, u, hm⟩ := exists_mem_segs (G.lo a) (G.hi a) hn.length hc
  have hseg := hn.segs _ hm
  have hl : G.lo c = l := hseg.2.2.2.1
  have hu : X.view c = u := hseg.2.2.2.2.1
  obtain ⟨k₁, k₂, c₁, c₂, hk, hcs, hlen, hd, hup⟩ := exists_cut hn.length hm
  have hs := hn.sorted
  rw [hk] at hs
  obtain ⟨-, -, hb1, hb2⟩ := cut_bounds hs.1 hs.2
  subst hl hu
  refine ⟨k₁, k₂, c₁, c₂, hk, hcs, hlen, hd, hup, hseg, hd ▸ hb1, hup ▸ hb2, ?_⟩
  intro x hx1 hx2
  exact hn.upper_cut hk (by rw [hd]; exact hx1) (by rw [hup]; exact hx2)

/-- The position of a linked child is found by searching for its lower end. -/
lemma upper_lo (hn : LinkInv h G X a n) {c : Ptr} {c₁ c₂ : List (Option Ptr)}
    (hc : n.children = c₁ ++ some c :: c₂) : upper (G.lo c) n.keys = c₁.length := by
  have hlen := hn.length
  rw [hc, List.length_append, List.length_cons] at hlen
  have hk : n.keys = n.keys.take c₁.length ++ n.keys.drop c₁.length := by simp
  have hl : c₁.length = (n.keys.take c₁.length).length := by simp; omega
  have hsegs := hn.segs
  rw [hc, hk, segs_around _ _ _ _ _ _ _ hl] at hsegs
  obtain ⟨-, -, -, h4, -, h6⟩ := hsegs _ (List.mem_append_right _ List.mem_cons_self)
  rw [hn.upper_cut hk h4.ge (h4 ▸ h6), ← hl]

/-- A child is linked only once. -/
lemma child_notMem (hn : LinkInv h G X a n) {c : Ptr} {c₁ c₂ : List (Option Ptr)}
    (hc : n.children = c₁ ++ some c :: c₂) : some c ∉ c₁ ∧ some c ∉ c₂ := by
  have hpos := hn.upper_lo hc
  constructor
  · intro hm
    obtain ⟨d₁, d₂, rfl⟩ := List.append_of_mem hm
    have := hn.upper_lo (show n.children = d₁ ++ some c :: (d₂ ++ some c :: c₂) by simp [hc])
    simp only [List.length_append, List.length_cons] at hpos
    omega
  · intro hm
    obtain ⟨d₁, d₂, rfl⟩ := List.append_of_mem hm
    have := hn.upper_lo (show n.children = (c₁ ++ some c :: d₁) ++ some c :: d₂ by simp [hc])
    simp only [List.length_append, List.length_cons] at this
    omega

/-- The search for any point of the node finds a child responsible for it. -/
lemma route (hn : LinkInv h G X a n) {x : ℕ} (hl : G.lo a ≤ x) (hu : x < G.hi a) :
    ∃ c, n.child (upper x n.keys) = some c ∧ some c ∈ n.children ∧ G.lo c ≤ x ∧ x < X.view c := by
  obtain ⟨l, c, u, hm, h1, h2⟩ := exists_seg_of_mem hn.length hl hu
  have hseg := hn.segs _ hm
  cases c with
  | none => exact absurd hseg (by simp only [SegOk]; omega)
  | some c =>
      obtain ⟨k₁, k₂, c₁, c₂, hk, hcs, hlen, hd, hup⟩ := exists_cut hn.length hm
      have hupper := hn.upper_cut hk (x := x) (by omega) (by omega)
      refine ⟨c, ?_, by simp [hcs], ?_, ?_⟩
      · rw [Internode.child, hupper, hcs, ← hlen]
        simp
      · rw [hseg.2.2.2.1]; exact h1
      · rw [hseg.2.2.2.2.1]; exact h2

end LinkInv

lemma TreeInv.live_lt {h : Heap β} {G : Ghost} {X : Excused} (hT : TreeInv h G X) {a : Ptr}
    (ha : G.live a) : a < h.size := (hT.known ha).1

/-- A child of a live internode. -/
lemma TreeInv.child_live {h : Heap β} {G : Ghost} (hT : TreeInv h G G.exact) {a c : Ptr}
    {n : Internode} (ha : G.live a)
    (hn : h.node a = .internode n) (hc : some c ∈ n.children) :
    G.live c ∧ (h.node c).parent = some a ∧ G.fam c = G.fam a ∧
      (h.node c).height < (h.node a).height := by
  obtain ⟨-, -, -, -, -, -, -, -, -, hseg, -⟩ := (hT.link ha hn).cut_child hc
  have hl : G.live c := hseg.1.resolve_right id
  have hup := hT.up (hT.known hl) hseg.2.2.1
  exact ⟨hl, hseg.2.2.1, hup.2.1.symm, hup.2.2.1⟩

end MasstreeLHM
