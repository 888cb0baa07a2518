import MasstreeLHM.Remove

/-!
# Nodes that are gone

Once the slot of a layer has its new pointer, nothing leads to the nodes that are no longer part of
the layer.  The invariant says nothing about them, so they may be forgotten, and changed.

`Ghost.forget` takes the dead nodes of one layer out of the ghost, and `Ghost.dropLayer` a whole
layer.  `SameKnown` are two heaps that differ in nodes which the ghost does not know.  For each of
the three there is a lemma about `TreeInv` and one about `HeapInv` (`HeapInv.forget`,
`HeapInv.dropLayer`, `HeapInv.sameKnown`), and the entries of the layers that are left stay.

Forgetting is needed because the source changes a node after it has replaced it: the old root of a
collapsed layer loses its root bit and gets the new root as its parent.
-/

namespace MasstreeLHM

open Separators

variable {β : Type}

section Gone

variable {h h' : Heap β} {G : Ghost}

/-- Forget the dead nodes of layer `f` among the first `n` nodes. -/
def Ghost.forget (G : Ghost) (f : Ptr) (n : ℕ) : Ghost :=
  { G with gone := fun a => G.gone a ∨ (a < n ∧ G.fam a = f ∧ ¬ G.live a) }

/-- Forget layer `f`. -/
def Ghost.dropLayer (G : Ghost) (f : Ptr) (n : ℕ) : Ghost :=
  { G with live := fun a => G.live a ∧ G.fam a ≠ f
           gone := fun a => G.gone a ∨ (a < n ∧ G.fam a = f) }

/-- What nothing leads to may change. -/
structure SameKnown (h h' : Heap β) (G : Ghost) : Prop where
  size : h'.size = h.size
  node : ∀ a, ¬ G.gone a → h'.node a = h.node a
  height : ∀ a, (h'.node a).height = (h.node a).height
  isLeaf : ∀ a, (h'.node a).isLeaf = (h.node a).isLeaf
  retired : ∀ a ∈ h'.retired, a < h.size ∧ ¬ G.live a

lemma TreeInv.forget (hT : TreeInv h G G.exact) (f : Ptr) :
    TreeInv h (G.forget f h.size) (G.forget f h.size).exact := by
  have hk : ∀ {a}, (G.forget f h.size).Known h a → G.Known h a := fun ha =>
    ⟨ha.1, fun h0 => ha.2 (Or.inl h0)⟩
  have hlive : ∀ {a}, G.live a → (G.forget f h.size).Known h a := fun ha =>
    ⟨hT.live_lt ha, fun h0 => h0.elim (hT.known ha).2 fun h1 => h1.2.2 ha⟩
  refine ⟨hlive, ?_, ?_, fun ha => hT.top_eq (hk ha), fun ha => hT.top_spec (hk ha),
    fun ha => hT.fam_spec (hk ha), hT.height_lt, fun ha => hT.root_bit (hk ha), hT.range, hT.linked,
    ?_, hT.not_deleted, hT.retired_dead⟩
  · rintro a (h0 | h0)
    · exact hT.gone_lt h0
    · exact h0.1
  · intro a p ha hp
    obtain ⟨h1, h2, h3⟩ := hT.up (hk ha) hp
    refine ⟨⟨h1.1, ?_⟩, h2, h3⟩
    rintro (h0 | ⟨-, hf, hd⟩)
    · exact h1.2 h0
    · -- in layer `f` only live nodes are known, and their parents are live
      have ha' : G.live a := by
        by_contra h0
        exact ha.2 (Or.inr ⟨ha.1, h2.symm.trans hf, h0⟩)
      exact hd (hT.linked ha' id hp).1
  · intro a n ha hn
    exact (hT.link ha hn).congr rfl rfl rfl rfl fun l c u _ hs => hs

lemma TreeInv.dropLayer (hT : TreeInv h G G.exact) (f : Ptr) :
    TreeInv h (G.dropLayer f h.size) (G.dropLayer f h.size).exact := by
  have hk : ∀ {a}, (G.dropLayer f h.size).Known h a ↔ G.Known h a ∧ G.fam a ≠ f := by
    intro a
    constructor
    · exact fun ha => ⟨⟨ha.1, fun h0 => ha.2 (Or.inl h0)⟩, fun h0 => ha.2 (Or.inr ⟨ha.1, h0⟩)⟩
    · exact fun ha => ⟨ha.1.1, fun h0 => h0.elim ha.1.2 fun h1 => ha.2 h1.2⟩
  refine ⟨fun ha => hk.mpr ⟨hT.known ha.1, ha.2⟩, ?_, ?_, ?_, ?_, ?_, hT.height_lt, ?_,
    fun ha => hT.range ha.1, ?_, ?_, fun ha => hT.not_deleted ha.1, ?_⟩
  · rintro a (h0 | h0)
    · exact hT.gone_lt h0
    · exact h0.1
  · intro a p ha hp
    obtain ⟨ha, hf⟩ := hk.mp ha
    obtain ⟨h1, h2, h3⟩ := hT.up ha hp
    exact ⟨hk.mpr ⟨h1, by rw [h2]; exact hf⟩, h2, h3⟩
  · exact fun ha => hT.top_eq (hk.mp ha).1
  · intro a ha
    obtain ⟨ha, hf⟩ := hk.mp ha
    obtain ⟨h1, h2, h3, h4⟩ := hT.top_spec ha
    exact ⟨⟨h1, fun h0 => hf (h3.symm.trans h0)⟩, h2, h3, h4⟩
  · intro a ha
    obtain ⟨ha, hf⟩ := hk.mp ha
    obtain ⟨h1, h2, h3⟩ := hT.fam_spec ha
    exact ⟨⟨h1, fun h0 => hf (h2.symm.trans h0)⟩, h2, h3⟩
  · exact fun ha => hT.root_bit (hk.mp ha).1
  · intro a p ha _ hp
    obtain ⟨h1, h2⟩ := hT.linked ha.1 id hp
    exact ⟨⟨h1, by rw [(hT.up (hT.known ha.1) hp).2.1]; exact ha.2⟩, h2⟩
  · intro a n ha hn
    refine (hT.link ha.1 hn).congr rfl rfl rfl rfl ?_
    rintro l c u hc ⟨h1, h2⟩
    obtain ⟨h3, -, h4, -⟩ := hT.child_live ha.1 hn hc
    exact ⟨Or.inl ⟨h3, by rw [h4]; exact ha.2⟩, h2⟩
  · intro a ha
    obtain ⟨h1, h2⟩ := hT.retired_dead ha
    exact ⟨h1, fun h0 => h2 h0.1⟩

lemma TreeInv.sameKnown (hT : TreeInv h G G.exact) (hs : SameKnown h h' G) :
    TreeInv h' G G.exact := by
  have hk : ∀ {a}, G.Known h' a → G.Known h a := fun ha => ⟨hs.size ▸ ha.1, ha.2⟩
  have hk' : ∀ {a}, G.Known h a → G.Known h' a := fun ha => ⟨hs.size.symm ▸ ha.1, ha.2⟩
  have hlive : ∀ {a}, G.live a → h'.node a = h.node a := fun ha => hs.node _ (hT.known ha).2
  refine ⟨fun ha => hk' (hT.known ha), fun ha => hs.size.symm ▸ hT.gone_lt ha, ?_,
    ?_, ?_, ?_, ?_, ?_, hT.range, ?_, ?_, ?_, ?_⟩
  · intro a p ha hp
    rw [hs.node a ha.2] at hp
    obtain ⟨h1, h2, h3, h4⟩ := hT.up (hk ha) hp
    rw [hs.node a ha.2, hs.node p h1.2]
    exact ⟨hk' h1, h2, h3, h4⟩
  · intro a ha hl hp
    rw [hs.node a ha.2] at hp
    exact hT.top_eq (hk ha) hl hp
  · intro a ha
    have h0 := hT.top_spec (hk ha)
    rw [hlive h0.1]
    exact h0
  · intro a ha
    have h0 := hT.fam_spec (hk ha)
    rw [hlive h0.1]
    exact h0
  · intro a ha
    rw [hs.size] at ha ⊢
    rw [hs.height]
    exact hT.height_lt ha
  · intro a ha hl hst
    rw [hs.node a ha.2] at hst ⊢
    exact hT.root_bit (hk ha) hl hst
  · intro a p ha hl hp
    rw [hlive ha] at hp
    obtain ⟨h1, h2⟩ := hT.linked ha hl hp
    rw [Heap.internode, hlive h1]
    exact ⟨h1, h2⟩
  · intro a n ha hn
    rw [hlive ha] at hn
    refine (hT.link ha hn).congr rfl rfl rfl rfl ?_
    rintro l c u - ⟨h1, h2, h3, h4⟩
    exact ⟨h1, h2, by rw [hlive (h1.resolve_right id)]; exact h3, h4⟩
  · intro a ha
    rw [hlive ha]
    exact hT.not_deleted ha
  · intro a ha
    rw [hs.size]
    exact hs.retired a ha

end Gone

section Gone

variable {h h' : Heap β} {G : Ghost} [Inhabited β] {P : NodeParams} {R : Slot β → Slot β → Prop}

lemma HeapInv.forget (hI : HeapInv P R h G) (f : Ptr) : HeapInv P R h (G.forget f h.size) :=
  ⟨hI.tree.forget f, fun a l ha hl => (hI.leaves a l ha hl).congr rfl rfl rfl,
    fun a l ha hl => ⟨(hI.chain a l ha hl).next_some, (hI.chain a l ha hl).next_none,
      (hI.chain a l ha hl).prev_some, (hI.chain a l ha hl).prev_none⟩⟩

lemma HeapInv.dropLayer (hI : HeapInv P R h G) (f : Ptr) :
    HeapInv P R h (G.dropLayer f h.size) := by
  refine ⟨hI.tree.dropLayer f, fun a l ha hl => (hI.leaves a l ha.1 hl).congr rfl rfl rfl, ?_⟩
  intro a l ha hl
  obtain ⟨h1, h2, h3, h4⟩ := hI.chain a l ha.1 hl
  refine ⟨fun m hm => ?_, h2, fun m hm => ?_, h4⟩
  · obtain ⟨g1, g2, g3⟩ := h1 m hm
    exact ⟨⟨g1, by rw [g2]; exact ha.2⟩, g2, g3⟩
  · obtain ⟨g1, g2, g3⟩ := h3 m hm
    exact ⟨⟨g1, by rw [g2]; exact ha.2⟩, g2, g3⟩

lemma HeapInv.sameKnown (hI : HeapInv P R h G) (hs : SameKnown h h' G) : HeapInv P R h' G := by
  have hlive : ∀ {a}, G.live a → h'.node a = h.node a := fun ha => hs.node _ (hI.tree.known ha).2
  refine ⟨hI.tree.sameKnown hs, ?_, ?_⟩
  · intro a l ha hl
    rw [hlive ha] at hl
    exact hI.leaves a l ha hl
  · intro a l ha hl
    rw [hlive ha] at hl
    obtain ⟨h1, h2, h3, h4⟩ := hI.chain a l ha hl
    refine ⟨fun m hm => ?_, h2, fun m hm => ?_, h4⟩
    · obtain ⟨g1, g2⟩ := h1 m hm
      rw [hlive g1]
      exact ⟨g1, g2⟩
    · obtain ⟨g1, g2⟩ := h3 m hm
      rw [hlive g1]
      exact ⟨g1, g2⟩

lemma entry_sameKnown (hI : HeapInv P R h G) (hs : SameKnown h h' G) (f : Ptr) (s : Slot β) :
    Entry h' G f s ↔ Entry h G f s := by
  have hlive : ∀ {a}, G.live a → h'.node a = h.node a := fun ha => hs.node _ (hI.tree.known ha).2
  constructor
  · rintro ⟨a, l, h1, h2, h3, h4⟩
    exact ⟨a, l, h1, h2, hlive h1 ▸ h3, h4⟩
  · rintro ⟨a, l, h1, h2, h3, h4⟩
    exact ⟨a, l, h1, h2, (hlive h1).symm ▸ h3, h4⟩

lemma entry_dropLayer (f n g : Ptr) (s : Slot β) :
    Entry h (G.dropLayer f n) g s ↔ g ≠ f ∧ Entry h G g s := by
  constructor
  · rintro ⟨a, l, h1, h2, h3, h4⟩
    have h2 : G.fam a = g := h2
    exact ⟨h2 ▸ h1.2, a, l, h1.1, h2, h3, h4⟩
  · rintro ⟨hg, a, l, h1, h2, h3, h4⟩
    exact ⟨a, l, ⟨h1, by rw [h2]; exact hg⟩, h2, h3, h4⟩

end Gone

end MasstreeLHM
