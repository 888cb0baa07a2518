import MasstreeLHM.LinkSplit

/-!
# Leaves under changes elsewhere

The leaf and chain parts of the invariant, and the entries of a layer, read only the leaves and
their ranges.  They survive a change above the leaves, and a change inside a leaf keeps the tree
part.

So the parts of the invariant can be proved one at a time.  `SameTree` are two heaps that differ in
the contents of leaves and in the links between them, and **`SameTree.treeInv`** keeps the tree
part.  `Above` is a change above the leaves: `Above.leafInv`, `Above.chainInv` and `Above.entry`
keep the rest.

**`HeapInv.setLeaf`** is the rule for the most frequent step, replacing the contents of one leaf: it
asks for the new leaf what the invariant says about a leaf, and nothing about the others.
`entry_setLeaf` says which entries the layer has then.
-/

namespace MasstreeLHM

open Separators

variable {β : Type} {h h' : Heap β} {G G' : Ghost}

/-! ## What the tree part of the invariant sees -/

/-- Two heaps that look alike to the tree part of the invariant. -/
structure SameShape (h h' : Heap β) : Prop where
  size : h'.size = h.size
  retired : h'.retired = h.retired
  parent : ∀ a, (h'.node a).parent = (h.node a).parent
  isLeaf : ∀ a, (h'.node a).isLeaf = (h.node a).isLeaf
  height : ∀ a, (h'.node a).height = (h.node a).height
  isRoot : ∀ a, (h'.node a).isRoot = (h.node a).isRoot
  deleted : ∀ a, (h'.node a).deleted = (h.node a).deleted
  startable : ∀ a, (h'.node a).startable ↔ (h.node a).startable
  internode : ∀ a n', h'.node a = .internode n' →
    ∃ n, h.node a = .internode n ∧ n'.keys = n.keys ∧ n'.children = n.children

namespace SameShape

variable (hs : SameShape h h')
include hs

lemma children {a : Ptr} (ha : (h.node a).isLeaf = false) :
    (h'.internode a).children = (h.internode a).children := by
  obtain ⟨n', hn'⟩ := Node.exists_internode ((hs.isLeaf a).trans ha)
  obtain ⟨n, hn, -, hc⟩ := hs.internode a n' hn'
  rw [Heap.internode_eq hn, Heap.internode_eq hn', hc]

lemma known {a : Ptr} : G.Known h' a ↔ G.Known h a := by
  rw [Ghost.Known, Ghost.Known, hs.size]

lemma treeInv {X : Excused} (hT : TreeInv h G X) : TreeInv h' G X := by
  refine ⟨fun ha => hs.known.mpr (hT.known ha), ?_, ?_, ?_, ?_, ?_, ?_, ?_,
    hT.range, ?_, ?_, ?_, ?_⟩
  · intro a ha
    rw [hs.size]
    exact hT.gone_lt ha
  · intro a p ha hp
    rw [hs.known] at ha ⊢
    rw [hs.parent] at hp
    rw [hs.height, hs.height, hs.isLeaf]
    exact hT.up ha hp
  · intro a ha hx hp
    rw [hs.known] at ha
    rw [hs.parent] at hp
    exact hT.top_eq ha hx hp
  · intro a ha
    rw [hs.known] at ha
    rw [hs.parent]
    exact hT.top_spec ha
  · intro a ha
    rw [hs.known] at ha
    rw [hs.isLeaf]
    exact hT.fam_spec ha
  · intro a ha
    rw [hs.size] at ha ⊢
    rw [hs.height]
    exact hT.height_lt ha
  · intro a ha hx hst
    rw [hs.known] at ha
    rw [hs.startable] at hst
    rw [hs.isRoot, hs.parent]
    exact hT.root_bit ha hx hst
  · intro a p ha hx hp
    rw [hs.parent] at hp
    obtain ⟨h1, h2⟩ := hT.linked ha hx hp
    rw [hs.children (hT.up (hT.known ha) hp).2.2.2]
    exact ⟨h1, h2⟩
  · intro a n' ha hn'
    obtain ⟨n, hn, hk, hc⟩ := hs.internode a n' hn'
    refine (hT.link ha hn).congr hk hc rfl rfl ?_
    rintro l c u - ⟨h1, h2, h3, h4⟩
    exact ⟨h1, h2, by rw [hs.parent]; exact h3, h4⟩
  · intro a ha
    rw [hs.deleted]
    exact hT.not_deleted ha
  · intro a ha
    rw [hs.retired] at ha
    rw [hs.size]
    exact hT.retired_dead ha

end SameShape

/-! ## Changes inside leaves keep the tree -/

/-- Two states of a leaf that differ in its contents and neighbours only. -/
structure Leaf.SameLinks (l l' : Leaf β) : Prop where
  parent : l'.parent = l.parent
  isRoot : l'.isRoot = l.isRoot
  deleted : l'.deleted = l.deleted
  directoryMeta : l'.directoryMeta = l.directoryMeta
  prev : l'.prev = none ↔ l.prev = none

/-- A heap with other leaf contents: the tree part of the invariant does not see the change. -/
structure SameTree (h h' : Heap β) : Prop where
  size : h'.size = h.size
  retired : h'.retired = h.retired
  node : ∀ a, h'.node a = h.node a ∨
    ∃ l l', h.node a = .leaf l ∧ h'.node a = .leaf l' ∧ l.SameLinks l'

namespace SameTree

lemma setLeaf {a : Ptr} {l l' : Leaf β} (hn : h.node a = .leaf l) (hl : l.SameLinks l') :
    SameTree h (h.setLeaf a l') := by
  refine ⟨rfl, rfl, fun b => ?_⟩
  by_cases hb : b = a
  · exact Or.inr ⟨l, l', hb ▸ hn, by simp [hb], hl⟩
  · exact Or.inl (by simp [hb])

variable (hs : SameTree h h')
include hs

lemma parent (a : Ptr) : (h'.node a).parent = (h.node a).parent := by
  rcases hs.node a with h1 | ⟨l, l', h1, h2, h3⟩
  · rw [h1]
  · simp [h1, h2, h3.parent]

lemma isLeaf (a : Ptr) : (h'.node a).isLeaf = (h.node a).isLeaf := by
  rcases hs.node a with h1 | ⟨l, l', h1, h2, h3⟩
  · rw [h1]
  · simp [h1, h2]

lemma height (a : Ptr) : (h'.node a).height = (h.node a).height := by
  rcases hs.node a with h1 | ⟨l, l', h1, h2, h3⟩
  · rw [h1]
  · simp [h1, h2]

lemma isRoot (a : Ptr) : (h'.node a).isRoot = (h.node a).isRoot := by
  rcases hs.node a with h1 | ⟨l, l', h1, h2, h3⟩
  · rw [h1]
  · simp [h1, h2, h3.isRoot]

lemma deleted (a : Ptr) : (h'.node a).deleted = (h.node a).deleted := by
  rcases hs.node a with h1 | ⟨l, l', h1, h2, h3⟩
  · rw [h1]
  · simp [h1, h2, h3.deleted]

lemma directoryMeta (a : Ptr) : (h'.node a).directoryMeta = (h.node a).directoryMeta := by
  rcases hs.node a with h1 | ⟨l, l', h1, h2, h3⟩
  · rw [h1]
  · simp [h1, h2, h3.directoryMeta]

lemma startable (a : Ptr) : (h'.node a).startable ↔ (h.node a).startable := by
  rcases hs.node a with h1 | ⟨l, l', h1, h2, h3⟩
  · rw [h1]
  · simp [h1, h2, h3.prev]

lemma internode {a : Ptr} {n : Internode} : h'.node a = .internode n ↔ h.node a = .internode n := by
  rcases hs.node a with h1 | ⟨l, l', h1, h2, h3⟩
  · rw [h1]
  · simp [h1, h2]

lemma internode_eq {a : Ptr} (ha : (h.node a).isLeaf = false) : h'.internode a = h.internode a := by
  obtain ⟨n, hn⟩ := Node.exists_internode ha
  rw [Heap.internode_eq hn, Heap.internode_eq (hs.internode.mpr hn)]

lemma shape : SameShape h h' :=
  ⟨hs.size, hs.retired, hs.parent, hs.isLeaf, hs.height, hs.isRoot, hs.deleted, hs.startable,
    fun _ n' hn' => ⟨n', hs.internode.mp hn', rfl, rfl⟩⟩

/-- **The tree part of the invariant does not look into leaves.** -/
lemma treeInv {X : Excused} (hT : TreeInv h G X) : TreeInv h' G X := hs.shape.treeInv hT

end SameTree

/-! ## Changes above the leaves keep the leaves -/

/-- A live leaf of the new heap is a live leaf of the old one. -/
lemma Above.old_leaf {φ : Ptr} (hA : Above φ h G h' G') (hlt : ∀ {a}, G'.live a → a < h'.size)
    {a : Ptr} {l : Leaf β} (ha : G'.live a) (hl : (h'.node a).leafData = some l) :
    a < h.size ∧ G.live a ∧ (h.node a).leafData = some l ∧ (h.node a).isLeaf = true := by
  have hsz : a < h.size := by
    by_contra hn
    have := (hA.new_node a (hlt ha) (Nat.not_lt.mp hn)).1
    rw [(Node.leafData_leaf hl).1] at this
    cases this
  have hd := hA.leafData a hsz
  rw [hl] at hd
  exact ⟨hsz, (hA.live a hsz).mp ha, hd.symm, (Node.leafData_leaf hd.symm).1⟩

lemma Above.chainInv {φ : Ptr} (hA : Above φ h G h' G') (hlt : ∀ {a}, G.live a → a < h.size)
    (hlt' : ∀ {a}, G'.live a → a < h'.size) (hC : ChainInv h G) : ChainInv h' G' := by
  intro a l ha hl
  obtain ⟨h1, h2, h3, h4⟩ := hA.old_leaf hlt' ha hl
  have hold := hC a l h2 h3
  refine ⟨?_, ?_, ?_, ?_⟩
  · intro m hm
    obtain ⟨g1, g2, g3, lm, g4, g5⟩ := hold.next_some m hm
    have hms := hlt g1
    rw [hA.live m hms, hA.fam m hms, hA.lo m hms, hA.fam a h1, hA.hi a h1 h4, hA.leafData m hms]
    exact ⟨g1, g2, g3, lm, g4, g5⟩
  · rw [hA.hi a h1 h4]
    exact hold.next_none
  · intro m hm
    obtain ⟨g1, g2, g3, lm, g4, g5⟩ := hold.prev_some m hm
    have hms := hlt g1
    rw [hA.live m hms, hA.fam m hms, hA.lo a h1, hA.fam a h1,
      hA.hi m hms (Node.leafData_leaf g4).1, hA.leafData m hms]
    exact ⟨g1, g2, g3, lm, g4, g5⟩
  · rw [hA.lo a h1]
    exact hold.prev_none

section

variable [Inhabited β] {P : NodeParams} {R : Slot β → Slot β → Prop}

lemma LeafOk.congr {a : Ptr} {l : Leaf β} (hl : LeafOk P R G a l) (hlo : G'.lo a = G.lo a)
    (hhi : G'.hi a = G.hi a) (hfam : G'.fam a = G.fam a) : LeafOk P R G' a l where
  perm := hl.perm
  slots := hl.slots
  sorted := hl.sorted
  within := by rw [hlo, hhi]; exact hl.within
  modstate := hl.modstate
  first := by rw [hfam]; exact hl.first
  bound := by rw [hlo]; exact hl.bound

namespace Above

variable {φ : Ptr} (hA : Above φ h G h' G')
include hA

lemma leafInv (hlt : ∀ {a}, G'.live a → a < h'.size) (hL : LeafInv P R h G) :
    LeafInv P R h' G' := by
  intro a l ha hl
  obtain ⟨h1, h2, h3, h4⟩ := hA.old_leaf hlt ha hl
  exact (hL a l h2 h3).congr (hA.lo a h1) (hA.hi a h1 h4) (hA.fam a h1)

lemma entry (hlt : ∀ {a}, G.live a → a < h.size) (hlt' : ∀ {a}, G'.live a → a < h'.size)
    (f : Ptr) (s : Slot β) : Entry h' G' f s ↔ Entry h G f s := by
  constructor
  · rintro ⟨a, l, h1, h2, h3, h4⟩
    obtain ⟨g1, g2, g3, -⟩ := hA.old_leaf hlt' h1 h3
    exact ⟨a, l, g2, (hA.fam a g1).symm.trans h2, g3, h4⟩
  · rintro ⟨a, l, h1, h2, h3, h4⟩
    have g1 := hlt h1
    exact ⟨a, l, (hA.live a g1).mpr h1, (hA.fam a g1).trans h2, (hA.leafData a g1).trans h3, h4⟩

end Above

/-- **Replacing the contents of one leaf.** -/
lemma HeapInv.setLeaf {a : Ptr} {l l' : Leaf β} (hI : HeapInv P R h G) (hn : h.node a = .leaf l)
    (hl : l.SameLinks l') (hnext : l'.next = l.next) (hprev : l'.prev = l.prev)
    (hok : G.live a → LeafOk P R G a { l' with parent := none }) :
    HeapInv P R (h.setLeaf a l') G where
  tree := (SameTree.setLeaf hn hl).treeInv hI.tree
  leaves := by
    intro b lb hb hlb
    by_cases hba : b = a
    · subst hba
      obtain rfl : _ = lb := by simpa using hlb
      exact hok hb
    · exact hI.leaves b lb hb (by simpa [hba] using hlb)
  chain := by
    -- the links of every leaf are what they were
    have hlink : ∀ b lb, ((h.setLeaf a l').node b).leafData = some lb →
        ∃ lb', (h.node b).leafData = some lb' ∧ lb'.next = lb.next ∧ lb'.prev = lb.prev := by
      intro b lb hlb
      by_cases hba : b = a
      · subst hba
        obtain rfl : _ = lb := by simpa using hlb
        exact ⟨{ l with parent := none }, by rw [hn]; rfl, hnext.symm, hprev.symm⟩
      · exact ⟨lb, by simpa [hba] using hlb, rfl, rfl⟩
    have hlink' : ∀ b lb, (h.node b).leafData = some lb →
        ∃ lb', ((h.setLeaf a l').node b).leafData = some lb' ∧ lb'.next = lb.next ∧
          lb'.prev = lb.prev := by
      intro b lb hlb
      by_cases hba : b = a
      · subst hba
        obtain rfl : _ = lb := by simpa [hn] using hlb
        exact ⟨{ l' with parent := none }, by simp, hnext, hprev⟩
      · exact ⟨lb, by simpa [hba] using hlb, rfl, rfl⟩
    intro b lb hb hlb
    obtain ⟨lb', hlb', e1, e2⟩ := hlink b lb hlb
    have hold := hI.chain b lb' hb hlb'
    refine ⟨?_, by rw [← e1]; exact hold.next_none, ?_, by rw [← e2]; exact hold.prev_none⟩
    · intro m hm
      obtain ⟨g1, g2, g3, lm, g4, g5⟩ := hold.next_some m (e1.trans hm)
      obtain ⟨lm', g6, -, g7⟩ := hlink' m lm g4
      exact ⟨g1, g2, g3, lm', g6, g7.trans g5⟩
    · intro m hm
      obtain ⟨g1, g2, g3, lm, g4, g5⟩ := hold.prev_some m (e2.trans hm)
      obtain ⟨lm', g6, g7, -⟩ := hlink' m lm g4
      exact ⟨g1, g2, g3, lm', g6, g7.trans g5⟩

/-- The entries of a layer, those of one live leaf apart. -/
lemma entry_iff_leaf {a : Ptr} {l : Leaf β} (ha : G.live a) (hn : h.node a = .leaf l) (f : Ptr)
    (s : Slot β) : Entry h G f s ↔
      (f = G.fam a ∧ s ∈ l.entries) ∨
        ∃ b lb, b ≠ a ∧ G.live b ∧ G.fam b = f ∧ (h.node b).leafData = some lb ∧
          s ∈ lb.entries := by
  constructor
  · rintro ⟨b, lb, h1, h2, h3, h4⟩
    by_cases hba : b = a
    · subst hba
      obtain rfl : _ = lb := by simpa [hn] using h3
      exact Or.inl ⟨h2.symm, h4⟩
    · exact Or.inr ⟨b, lb, hba, h1, h2, h3, h4⟩
  · rintro (⟨rfl, h4⟩ | ⟨b, lb, -, h1, h2, h3, h4⟩)
    · exact ⟨a, { l with parent := none }, ha, rfl, by rw [hn]; rfl, h4⟩
    · exact ⟨b, lb, h1, h2, h3, h4⟩

/-- The entries after replacing the contents of one live leaf. -/
lemma entry_setLeaf {a : Ptr} {l' : Leaf β} (ha : G.live a) (f : Ptr) (s : Slot β) :
    Entry (h.setLeaf a l') G f s ↔
      (f = G.fam a ∧ s ∈ l'.entries) ∨
        ∃ b lb, b ≠ a ∧ G.live b ∧ G.fam b = f ∧ (h.node b).leafData = some lb ∧
          s ∈ lb.entries := by
  rw [entry_iff_leaf ha (l := l') (by simp)]
  have hb : ∀ b, b ≠ a → (h.setLeaf a l').node b = h.node b := fun b hb => by simp [hb]
  constructor
  · rintro (h1 | ⟨b, lb, hba, h1, h2, h3, h4⟩)
    · exact Or.inl h1
    · exact Or.inr ⟨b, lb, hba, h1, h2, hb b hba ▸ h3, h4⟩
  · rintro (h1 | ⟨b, lb, hba, h1, h2, h3, h4⟩)
    · exact Or.inl h1
    · exact Or.inr ⟨b, lb, hba, h1, h2, (hb b hba).symm ▸ h3, h4⟩

end

end MasstreeLHM
