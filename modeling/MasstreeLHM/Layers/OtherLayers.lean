import MasstreeLHM.Layers.Contents
import MasstreeLHM.Layers.Steps

/-!
# The other layers

A descent reads the nodes of one layer only, and `gc_layer` in a table without metadata writes the
nodes of one layer only: a descent in another layer ends where it did.

`climbToRoot_congr` and `descend_congr` compare the two halves of a descent in two heaps that agree
on the nodes of one layer; **`reachLeaf_congr`** is the whole descent.  They ask for the invariant
in one of the heaps only, since the path is determined there.

**`HeapInv.gcRoot_other`** says which nodes `gc_layer` writes, by the steps of its loop as in
`Layers/Collapse`, and `Collapsed.live_leaf` that a live leaf of another layer stays one.  A cursor
that stands in the layer above keeps its place while `gc_layer` works below it.
-/

namespace MasstreeLHM

variable {β : Type} {h h' : Heap β} {G G' : Ghost} {f : Ptr}

namespace TreeInv

variable (hT : TreeInv h G G.exact) (hsame : ∀ b, G.Known h b → G.fam b = f → h'.node b = h.node b)
include hT hsame

lemma climbToRoot_congr : ∀ (fuel : ℕ) {a : Ptr}, G.Known h a → G.fam a = f →
    climbToRoot h' fuel a = climbToRoot h fuel a
  | 0, _, _, _ => rfl
  | fuel + 1, a, ha, hf => by
      rw [climbToRoot, climbToRoot, hsame a ha hf]
      cases hp : (h.node a).parent with
      | none => rw [Option.getD_none, climbToRoot_congr fuel ha hf]
      | some p =>
          obtain ⟨h1, h2, -⟩ := hT.up ha hp
          rw [Option.getD_some, climbToRoot_congr fuel h1 (h2.trans hf)]

lemma descend_congr {x : ℕ} : ∀ (fuel : ℕ) {a : Ptr}, G.live a → G.fam a = f →
    descend h' x fuel a = descend h x fuel a
  | 0, _, _, _ => rfl
  | fuel + 1, a, ha, hf => by
      rw [descend, descend, hsame a (hT.known ha) hf]
      cases hn : h.node a with
      | leaf l => rfl
      | internode n =>
          simp only
          cases hc : n.child (upper x n.keys) with
          | none => rfl
          | some c =>
              have hmem : some c ∈ n.children := by
                rw [Internode.child, List.getD_eq_getElem?_getD] at hc
                cases hg : n.children[upper x n.keys]? with
                | none => simp [hg] at hc
                | some o =>
                    rw [hg, Option.getD_some] at hc
                    exact hc ▸ List.mem_of_getElem? hg
              obtain ⟨h1, -, h3, -⟩ := hT.child_live ha hn hmem
              exact descend_congr fuel h1 (h3.trans hf)

/-- **A descent in an untouched layer.** -/
lemma reachLeaf_congr (hsize : h'.size = h.size) {a : Ptr} {x : ℕ} (ha : G.Known h a)
    (hs : (h.node a).startable) (hf : G.fam a = f) : reachLeaf h' a x = reachLeaf h a x := by
  obtain ⟨h1, -, h3, -⟩ := hT.top_spec ha
  rw [reachLeaf, reachLeaf, hsize, hT.climbToRoot_congr hsame _ ha hf,
    hT.climbToRoot_eq _ ha hs (by omega)]
  exact hT.descend_congr hsame _ h1 (h3.trans hf)

end TreeInv

section

variable [Inhabited β] {P : NodeParams} {R : Slot β → Slot β → Prop} {copy : Ptr →
  Leaf β → List (Slot β)}

/-- The loop of `gc_layer` at the root of layer `f`. -/
lemma Tidied.gcRoot_other : ∀ (fuel : ℕ) {h' : Heap β} {G' : Ghost} {a : Ptr} {g : GcRoot β},
    Tidied P R h G f h' G' a → NoMetadata h' → gcRoot copy fuel h' a = some g →
    g.heap.size = h'.size ∧ ∀ b < h.size, G.fam b ≠ f → g.heap.node b = h'.node b
  | 0, _, _, _, _, _, _, hg => by cases hg
  | fuel + 1, h', G', a, g, hT, hno, hg => by
      have hroot := hT.isRoot
      have hne : ∀ b < h.size, G.fam b ≠ f → b ≠ a := by
        rintro b hb hf rfl
        exact hf ((hT.collapsed.fam b hb).symm.trans hT.fam)
      have hkeep : some (⟨h', a, false, none⟩ : GcRoot β) = some g →
          g.heap.size = h'.size ∧ ∀ b < h.size, G.fam b ≠ f → g.heap.node b = h'.node b := by
        intro h0
        cases h0
        exact ⟨rfl, fun _ _ _ => rfl⟩
      rw [gcRoot] at hg
      cases hn : h'.node a with
      | leaf l =>
          rw [hn] at hroot hg
          change l.isRoot = true at hroot
          simp only at hg
          rw [if_neg (by simp [hroot])] at hg
          split_ifs at hg
          · exact hkeep hg
          · cases hg
            exact ⟨rfl, fun b hb hf => by simp [hne b hb hf]⟩
      | internode n =>
          rw [hn] at hroot hg
          change n.isRoot = true at hroot
          simp only [hroot, Bool.true_eq_false, if_false] at hg
          split_ifs at hg with h1
          · exact hkeep hg
          · rcases hT.shiftOnlyChild_eq hn with h2 | ⟨h2, h3⟩
            · rw [h2] at hg
              exact hkeep hg
            · rw [h3] at hg
              have hk : n.keys = [] := by
                by_contra h4
                exact h1 (h2 h4)
              have hlink := hT.collapsed.heap.tree.link hT.live hn
              have hlen := hlink.length
              rw [hk] at hlen
              obtain ⟨o, hch⟩ := List.length_eq_one_iff.mp hlen
              have hm : n.directoryMeta = none := by
                have := hno a
                rwa [hn] at this
              cases o with
              | none => exact absurd hk (hlink.head (by simp [Internode.child, hch])).1
              | some c =>
                  have hchild : n.child 0 = some c := by simp [Internode.child, hch]
                  simp only [hchild, hm] at hg
                  have hp : n.parent = none := by simpa [hn] using hT.parent
                  obtain ⟨-, -, hcf, -⟩ := hT.collapsed.heap.tree.only_child hT.live hn hk hch hp
                  obtain ⟨-, G'', hT'⟩ := hT.promote hn hk hch hm
                  rw [hm] at hT'
                  have hno' : NoMetadata (((h'.set c (h'.node c).makeLayerRoot).setInternode a
                      { n with isRoot := false, parent := some c }).retire a) := by
                    refine ContentsFrom.noMetadata (ContentsFrom.retire ?_ a) hno
                    exact ((ContentsFrom.refl h').makeLayerRoot c).setInternode a (Or.inl hm)
                  rw [hm] at hno'
                  obtain ⟨g1, g2⟩ := gcRoot_other fuel hT' hno' hg
                  refine ⟨g1, fun b hb hf => ?_⟩
                  have hbc : b ≠ c := by
                    rintro rfl
                    exact hf ((hT.collapsed.fam b hb).symm.trans (hcf.trans hT.fam))
                  rw [g2 b hb hf]
                  simp [hne b hb hf, hbc]

/-- **`gc_layer` in a table without metadata** writes the nodes of its layer only. -/
lemma HeapInv.gcRoot_other (hI : HeapInv P R h G) (hno : NoMetadata h) {a : Ptr} {g : GcRoot β}
    (ha : G.Known h a) (hs : (h.node a).startable)
    (hg : gcRoot copy (2 * h.size + 2) h a = some g) :
    g.heap.size = h.size ∧ ∀ b < h.size, G.fam b ≠ G.fam a → g.heap.node b = h.node b := by
  obtain ⟨j, hj, heq⟩ := gcRoot_climb copy hI.tree h.size ha hs (by omega)
  have h0 := heq (2 * h.size + 2 - j)
  rw [Nat.sub_add_cancel (by omega), hg] at h0
  exact Tidied.gcRoot_other _ (Tidied.refl hI ha) hno h0.symm

/-- A live leaf of another layer stays one. -/
lemma Collapsed.live_leaf {new : Ptr → Prop} (hC : Collapsed P R h G f h' G' new)
    (hI : HeapInv P R h G) (hsize : h'.size = h.size) (hsame : ∀ b < h.size, G.fam b ≠ f →
      h'.node b = h.node b) {b : Ptr}
    (hb : G.live b) (hleaf : (h.node b).isLeaf = true) (hf : G.fam b ≠ f) : G'.live b := by
  -- the descent to the lower bound of the leaf, from the root of its layer
  have hk := hI.tree.known hb
  obtain ⟨h1, -, h3, -⟩ := hI.tree.top_spec hk
  have htop := (Held.of_top hI h1 (by rw [h3])).startable hI
  have hlo := hI.tree.range hb
  obtain ⟨c, g1, g2, g3, g4, g5, g6⟩ := hI.tree.reachLeaf_spec (hI.tree.known h1) htop
    (x := G.lo b) (by omega)
  obtain rfl := hI.tree.leaf_unique g2 hb g3 hleaf (g4.trans h3) ⟨g5, g6⟩ ⟨le_rfl, hlo.1⟩
  have hsame' : ∀ a, G.Known h a → G.fam a = G.fam c → h'.node a = h.node a := fun a ha hfa =>
    hsame a ha.1 (hfa ▸ hf)
  rw [← hI.tree.reachLeaf_congr hsame' hsize (hI.tree.known h1) htop h3] at g1
  have hf' : G.fam (G.top (G.fam c)) ≠ f := by rwa [h3]
  obtain ⟨d, e1, e2, -⟩ := hC.heap.tree.reachLeaf_spec (x := G.lo c)
    (hC.known (hI.tree.known h1) hf') (by rw [hsame _ (hI.tree.live_lt h1) hf']; exact htop)
      (by omega)
  obtain rfl : d = c := by simpa [e1] using g1
  exact e2

end

end MasstreeLHM
