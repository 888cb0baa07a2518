import MasstreeLHM.Reach
import MasstreeLHM.Shift

/-!
# Removing from a layer

`finish_remove` drops an item of a leaf, and with its last item the leaf: it is unlinked from its
neighbours, and `Shift.lean` takes it out of the tree.  The left neighbour takes over its range.

**`kill_leaf`** starts the loop of `remove_leaf`: a leaf that is marked deleted is a hole in its
parent.  `unlink` changes leaves only (`sameTree_unlinkLeaf`), so the tree does not see it.  Behind
the loop the leaves are looked at once: `shift_leaf` says that only the range of the left neighbour
has grown, and `leafInv_remove`, `chainInv_remove` and `entry_remove` follow from what each old leaf
has become.

**`removeLeaf_spec`** and **`finishRemove_spec`** are the specifications.  The latter says that one
item goes out of a layer, that all others and all other layers stay, and that metadata stays with
the root; the leftmost leaf of a layer stays even when it is empty.
-/

namespace MasstreeLHM

open Separators

variable {β : Type} {h : Heap β} {G : Ghost} [Inhabited β] {P : NodeParams}
  {R : Slot β → Slot β → Prop} {n a : Ptr} {l : Leaf β}

/-- The left neighbour of a leaf. -/
lemma HeapInv.prev_leaf (hI : HeapInv P R h G) (hn : G.live n) (hl : h.node n = .leaf l)
    (ha : l.prev = some a) : G.live a ∧ a ≠ n ∧ G.fam a = G.fam n ∧ G.hi a = G.lo n ∧
      ∃ la, h.node a = .leaf la ∧ la.next = some n := by
  obtain ⟨h1, h2, h3, la, h4, h5⟩ :=
    (hI.chain n { l with parent := none } hn (by rw [hl]; rfl)).prev_some a ha
  refine ⟨h1, ?_, h2, h3, ?_⟩
  · rintro rfl
    have := (hI.tree.range hn).1
    omega
  · cases hna : h.node a with
    | leaf la' =>
        rw [hna] at h4
        obtain rfl : _ = la := by simpa using h4
        exact ⟨la', rfl, h5⟩
    | internode i => simp [hna] at h4

/-- A leaf with a left neighbour has a positive lower bound, and its first slot keeps it. -/
lemma HeapInv.bound_leaf (hI : HeapInv P R h G) (hn : G.live n) (hl : h.node n = .leaf l)
    (ha : l.prev = some a) : 0 < G.lo n ∧ l.ikeyBound = G.lo n ∧ G.fam n ≠ n := by
  obtain ⟨h1, -, -, h2, -⟩ := hI.prev_leaf hn hl ha
  have hok := hI.leaves n { l with parent := none } hn (by rw [hl]; rfl)
  have hprev : l.prev ≠ none := by simp [ha]
  have := (hI.tree.range h1).1
  exact ⟨by omega, hok.bound hprev, fun h0 => hprev (hok.first.mpr h0)⟩

/-! ## The dead leaf -/

/-- The leaf after `mark_deleted`. -/
def Leaf.dead (l : Leaf β) : Leaf β := { l with deleted := true, isRoot := false }

/-- **A leaf that is marked deleted is a hole in its parent.** -/
lemma HeapInv.kill_leaf (hI : HeapInv P R h G) (hn : G.live n) (hl : h.node n = .leaf l)
    (ha : l.prev = some a) :
    DropInv ((h.set n (.leaf l.dead)).retire n) (G.kill n) n none (G.lo n) (G.hi n) := by
  have hT := hI.tree
  obtain ⟨hpos, -, hfam⟩ := hI.bound_leaf hn hl ha
  have hnode : ∀ c, ((h.set n (.leaf l.dead)).retire n).node c
      = if c = n then .leaf l.dead else h.node c := fun _ => rfl
  have hparent : ∀ c, (((h.set n (.leaf l.dead)).retire n).node c).parent = (h.node c).parent := by
    intro c
    rw [hnode]
    split_ifs with h0
    · rw [h0, hl]; rfl
    · rfl
  have hheight : ∀ c, (((h.set n (.leaf l.dead)).retire n).node c).height = (h.node c).height := by
    intro c
    rw [hnode]
    split_ifs with h0
    · rw [h0, hl]; rfl
    · rfl
  have hleaf : ∀ c, (((h.set n (.leaf l.dead)).retire n).node c).isLeaf = (h.node c).isLeaf := by
    intro c
    rw [hnode]
    split_ifs with h0
    · rw [h0, hl]; rfl
    · rfl
  have hint : ∀ {q}, (h.node q).isLeaf = false → q ≠ n := by
    rintro q hq rfl
    rw [hl] at hq
    cases hq
  refine ⟨⟨fun hc => hT.known hc.1, hT.gone_lt, ?_, ?_, ?_, ?_, ?_, ?_, fun hc => hT.range hc.1, ?_,
    ?_, ?_, ?_⟩, fun h0 => h0.2 rfl, hT.known hn, ?_, ?_, hpos, (hT.range hn).1, rfl, fun _ => rfl,
    ?_⟩
  · intro c q hc hq
    rw [hparent] at hq
    rw [hheight, hheight, hleaf]
    exact hT.up hc hq
  · intro c hc _ hq
    rw [hparent] at hq
    exact hT.top_eq hc id hq
  · intro c hc
    obtain ⟨g1, -, g3, g4, g5, g6⟩ := hT.top_spec hc
    refine ⟨⟨g1, ?_⟩, by simp [Ghost.drop], g3, (hparent _).trans g4, g5, g6⟩
    intro h0
    have h0 : G.top (G.fam c) = n := h0
    rw [h0] at g5
    omega
  · intro c hc
    obtain ⟨g1, g2, g3⟩ := hT.fam_spec hc
    refine ⟨⟨g1, ?_⟩, g2, (hleaf _).trans g3⟩
    intro h0
    have h0 : G.fam c = n := h0
    rw [h0] at g2
    exact hfam g2
  · intro c hc
    rw [hheight]
    exact hT.height_lt hc
  · intro c hc _ hst
    rw [hparent]
    by_cases hcn : c = n
    · rw [hcn, hnode, if_pos rfl] at hst
      simp [Leaf.dead, ha] at hst
    · rw [hnode, if_neg hcn] at hst ⊢
      exact hT.root_bit hc id hst
  · intro c q hc _ hq
    rw [hparent] at hq
    obtain ⟨g1, g2⟩ := hT.linked hc.1 id hq
    have hqn := hint (hT.up (hT.known hc.1) hq).2.2.2
    exact ⟨⟨g1, hqn⟩, by rw [Heap.internode, hnode, if_neg hqn]; exact g2⟩
  · rintro c m ⟨hc, hcn⟩ hm
    rw [hnode, if_neg hcn] at hm
    refine (hT.link hc hm).congr rfl rfl rfl rfl ?_
    rintro x d u - ⟨g1, -, g3, g4⟩
    refine ⟨?_, by simp [Ghost.drop], (hparent d).trans g3, g4⟩
    by_cases hdn : d = n
    · exact Or.inr hdn
    · exact Or.inl ⟨g1.resolve_right id, hdn⟩
  · rintro c ⟨hc, hcn⟩
    rw [hnode, if_neg hcn]
    exact hT.not_deleted hc
  · intro c hc
    rcases List.mem_cons.mp hc with rfl | hc
    · exact ⟨hT.live_lt hn, fun h0 => h0.2 rfl⟩
    · exact ⟨(hT.retired_dead hc).1, fun h0 => (hT.retired_dead hc).2 h0.1⟩
  · cases hp : (h.node n).parent with
    | none =>
        -- the root of a layer starts at 0
        have g5 := (hT.top_spec (hT.known hn)).2.2.2.2.1
        rw [← hT.top_eq (hT.known hn) id hp] at g5
        omega
    | some p =>
        obtain ⟨g1, g2⟩ := hT.linked hn id hp
        have hpn := hint (hT.up (hT.known hn) hp).2.2.2
        exact ⟨p, (hparent n).trans hp, ⟨g1, hpn⟩,
          by rw [Heap.internode, hnode, if_neg hpn]; exact g2⟩
  · rintro d x ⟨m, hm, -⟩
    rw [hnode, if_pos rfl] at hm
    cases hm
  · rintro c ⟨⟩

/-! ## Unlinking it from its neighbours -/

/-- The heap after `unlink`, node by node. -/
lemma HeapInv.node_unlinkLeaf (hI : HeapInv P R h G) (hn : G.live n) (hl : h.node n = .leaf l)
    (ha : l.prev = some a) (c : Ptr) :
    (unlinkLeaf ((h.set n (.leaf l.dead)).retire n) n).node c =
      if c = n then .leaf l.dead
      else if c = a then .leaf { h.leaf a with next := l.next }
      else if some c = l.next then .leaf { h.leaf c with prev := some a }
      else h.node c := by
  obtain ⟨-, han, -, h2, la, hla, -⟩ := hI.prev_leaf hn hl ha
  have hleaf : ((h.set n (.leaf l.dead)).retire n).leaf n = l.dead := by
    simp [Heap.leaf, Heap.node_retire]
  rw [unlinkLeaf, hleaf]
  have hdn : l.dead.next = l.next := rfl
  have hdp : l.dead.prev = some a := ha
  simp only [hdn, hdp]
  cases hm : l.next with
  | none =>
      simp only [Heap.setPrev, Heap.node_setLeaf, Heap.leaf, Heap.node_retire, Heap.node_set, han,
        if_false]
      split_ifs <;> simp_all
  | some m =>
      obtain ⟨-, hmn, -, h3, -⟩ := hI.next_leaf hn hl hm
      have ham : a ≠ m := by
        rintro rfl
        have := (hI.tree.range hn).1
        have := (hI.tree.range (hI.prev_leaf hn hl ha).1).1
        omega
      simp only [Heap.setPrev, Heap.node_setLeaf, Heap.leaf, Heap.node_retire, Heap.node_set, han,
        if_false, ham, Option.some.injEq, hmn]
      split_ifs <;> simp_all

omit [Inhabited β] in
lemma DropInv.sameTree {h' : Heap β} {b e : ℕ} {r : Option Ptr} (hd : DropInv h G n r b e)
    (hs : SameTree h h') : DropInv h' G n r b e := by
  refine ⟨hs.treeInv hd.tree, hd.dead, hs.shape.known.mpr hd.known, ?_, ?_, hd.pos, hd.lt_end,
    hd.hi, hd.whole, ?_⟩
  · obtain ⟨p, h1, h2, h3⟩ := hd.parent
    refine ⟨p, (hs.parent n).trans h1, h2, ?_⟩
    rw [hs.internode_eq (hd.tree.up hd.known h1).2.2.2]
    exact h3
  · rintro d x ⟨m, hm, hc⟩
    exact hd.leaves d x ⟨m, hs.internode.mp hm, hc⟩
  · intro c hc
    obtain ⟨h1, h2, h3, h4, h5⟩ := hd.rest c hc
    exact ⟨h1, h2, h3, (hs.parent c).trans h4, by rw [hs.startable, hs.isRoot]; exact h5⟩

lemma size_unlinkLeaf (h : Heap β) (n : Ptr) : (unlinkLeaf h n).size = h.size := by
  rw [unlinkLeaf]
  cases (h.leaf n).next <;> cases (h.leaf n).prev <;> rfl

lemma retired_unlinkLeaf (h : Heap β) (n : Ptr) : (unlinkLeaf h n).retired = h.retired := by
  rw [unlinkLeaf]
  cases (h.leaf n).next <;> cases (h.leaf n).prev <;> rfl

lemma HeapInv.sameTree_unlinkLeaf (hI : HeapInv P R h G) (hn : G.live n) (hl : h.node n = .leaf l)
    (ha : l.prev = some a) : SameTree ((h.set n (.leaf l.dead)).retire n)
      (unlinkLeaf ((h.set n (.leaf l.dead)).retire n) n) := by
  refine ⟨size_unlinkLeaf _ _, retired_unlinkLeaf _ _, fun c => ?_⟩
  rw [hI.node_unlinkLeaf hn hl ha, Heap.node_retire, Heap.node_set]
  obtain ⟨-, -, -, -, la, hla, -⟩ := hI.prev_leaf hn hl ha
  split_ifs with h1 h2 h3
  · exact Or.inl rfl
  · refine Or.inr ⟨la, _, h2 ▸ hla, rfl, ?_⟩
    rw [Heap.leaf, hla]
    exact ⟨rfl, rfl, rfl, rfl, Iff.rfl⟩
  · obtain ⟨-, -, -, -, lm, hlm, hp⟩ := hI.next_leaf hn hl h3.symm
    refine Or.inr ⟨lm, _, hlm, rfl, ?_⟩
    rw [Heap.leaf, hlm]
    exact ⟨rfl, rfl, rfl, rfl, by simp [hp]⟩
  · exact Or.inl rfl

/-! ## The leaves after a removal -/

section Removed

variable {h' : Heap β} {G' : Ghost}

/-- The ranges of the leaves that are left: only the left neighbour's range grows. -/
lemma HeapInv.shift_leaf (hI : HeapInv P R h G) (hn : G.live n) (hl : h.node n = .leaf l)
    (ha : l.prev = some a)
    (hU : Unhooked (unlinkLeaf ((h.set n (.leaf l.dead)).retire n) n) h' (G.kill n) G' (G.fam n)
      (G.lo n) (G.hi n)) {c : Ptr} (hc : G.live c) (hcn : c ≠ n)
    (hleaf : (h.node c).isLeaf = true) :
    G'.lo c = G.lo c ∧ G'.hi c = if c = a then G.hi n else G.hi c := by
  have hT := hI.tree
  obtain ⟨ha1, han, hfa, hhi, la, hla, -⟩ := hI.prev_leaf hn hl ha
  have hrange := hT.range hn
  have hc' := hT.range hc
  have ha' := hT.range ha1
  rw [hU.lo, hU.hi]
  change (if G.fam c = G.fam n then moveTo _ _ (G.lo c) else G.lo c) = _ ∧
    (if G.fam c = G.fam n then moveTo _ _ (G.hi c) else G.hi c) = _
  by_cases hfc : G.fam c = G.fam n
  · rw [if_pos hfc, if_pos hfc]
    constructor
    · refine moveTo_of_ne fun h0 => hcn ?_
      exact hT.leaf_unique hc hn hleaf (by rw [hl]; rfl) hfc ⟨h0.le, h0 ▸ hc'.1⟩
        ⟨le_rfl, hrange.1⟩
    · split_ifs with hca
      · rw [hca, hhi, moveTo_left]
      · -- a leaf that ends where `n` starts is the left neighbour
        refine moveTo_of_ne fun h0 => hca ?_
        exact hT.leaf_unique hc ha1 hleaf (by rw [hla]; rfl) (hfc.trans hfa.symm)
          (x := G.lo n - 1) ⟨by omega, by omega⟩ ⟨by omega, by omega⟩
  · have hca : c ≠ a := by
      rintro rfl
      exact hfc hfa
    rw [if_neg hfc, if_neg hfc, if_neg hca]
    exact ⟨rfl, rfl⟩

/-- The leaves that are left, with their links before and after. -/
lemma HeapInv.leafData_unlinkLeaf (hI : HeapInv P R h G) (hn : G.live n) (hl : h.node n = .leaf l)
    (ha : l.prev = some a) {c : Ptr} (hcn : c ≠ n) {lc : Leaf β} :
    ((unlinkLeaf ((h.set n (.leaf l.dead)).retire n) n).node c).leafData = some lc ↔
      ∃ l₀, (h.node c).leafData = some l₀ ∧
        lc = { l₀ with next := if c = a then l.next else l₀.next
                       prev := if some c = l.next then some a else l₀.prev } := by
  obtain ⟨-, -, -, h2, la, hla, -⟩ := hI.prev_leaf hn hl ha
  rw [hI.node_unlinkLeaf hn hl ha, if_neg hcn]
  by_cases hca : c = a
  · have hcm : some c ≠ l.next := by
      intro h0
      obtain ⟨-, -, -, h3, -⟩ := hI.next_leaf hn hl h0.symm
      have := (hI.tree.range hn).1
      have := (hI.tree.range (hI.prev_leaf hn hl ha).1).1
      rw [hca] at h3
      omega
    rw [if_pos hca, hca, Heap.leaf, hla]
    simp [← hca, hcm, eq_comm]
  · rw [if_neg hca]
    by_cases hcm : some c = l.next
    · obtain ⟨-, -, -, -, lm, hlm, -⟩ := hI.next_leaf hn hl hcm.symm
      rw [if_pos hcm, Heap.leaf, hlm]
      simp [hca, hcm, eq_comm]
    · rw [if_neg hcm]
      simp [hca, hcm, eq_comm]

variable (hI : HeapInv P R h G) (hn : G.live n) (hl : h.node n = .leaf l) (ha : l.prev = some a)
  (hU : Unhooked (unlinkLeaf ((h.set n (.leaf l.dead)).retire n) n) h' (G.kill n) G' (G.fam n)
    (G.lo n) (G.hi n))
include hI hn hl ha hU

/-- A leaf of the new heap is a leaf of the old one. -/
lemma HeapInv.old_leaf {c : Ptr} {lc : Leaf β} (hc : G'.live c)
    (hlc : (h'.node c).leafData = some lc) : G.live c ∧ c ≠ n ∧ ∃ l₀,
      (h.node c).leafData = some l₀ ∧
        lc = { l₀ with next := if c = a then l.next else l₀.next
                       prev := if some c = l.next then some a else l₀.prev } := by
  obtain ⟨h1, h2⟩ := hU.live c hc
  rw [hU.leafData] at hlc
  exact ⟨h1, h2, (hI.leafData_unlinkLeaf hn hl ha h2).mp hlc⟩

/-- An old leaf other than the removed one is still there. -/
lemma HeapInv.new_leaf {c : Ptr} {l₀ : Leaf β} (hc : G.live c) (hcn : c ≠ n)
    (hlc : (h.node c).leafData = some l₀) : G'.live c ∧ (h'.node c).leafData
      = some { l₀ with next := if c = a then l.next else l₀.next
                       prev := if some c = l.next then some a else l₀.prev } := by
  have hdata := (hI.leafData_unlinkLeaf hn hl ha hcn).mpr ⟨l₀, hlc, rfl⟩
  exact ⟨hU.leaves c ⟨hc, hcn⟩ (Node.leafData_leaf hdata).1, (hU.leafData c).trans hdata⟩

lemma HeapInv.leafInv_remove : LeafInv P R h' G' := by
  intro c lc hc hlc
  obtain ⟨h1, h2, l₀, h3, rfl⟩ := hI.old_leaf hn hl ha hU hc hlc
  obtain ⟨e1, e2⟩ := hI.shift_leaf hn hl ha hU h1 h2 (Node.leafData_leaf h3).1
  obtain ⟨-, -, -, hhi, -⟩ := hI.prev_leaf hn hl ha
  have hok := hI.leaves c l₀ h1 h3
  have hrange := (hI.tree.range hn).1
  have hprev : (if some c = l.next then some a else l₀.prev) = none ↔ l₀.prev = none := by
    split_ifs with h0
    · obtain ⟨-, -, -, -, lm, hlm, hp⟩ := hI.next_leaf hn hl h0.symm
      obtain rfl : _ = l₀ := by simpa [hlm] using h3
      simp [hp]
    · rfl
  refine ⟨hok.perm, hok.slots, hok.sorted, ?_, hok.modstate, ?_, ?_⟩
  · intro s hs
    obtain ⟨g1, g2⟩ := hok.within s hs
    rw [e1, e2]
    refine ⟨g1, ?_⟩
    split_ifs with hca
    · rw [hca, hhi] at g2
      omega
    · exact g2
  · rw [hU.fam]
    exact hprev.trans hok.first
  · intro h0
    rw [e1]
    exact hok.bound (fun h4 => h0 (hprev.mpr h4))

lemma HeapInv.chainInv_remove : ChainInv h' G' := by
  intro c lc hc hlc
  obtain ⟨h1, h2, l₀, h3, rfl⟩ := hI.old_leaf hn hl ha hU hc hlc
  obtain ⟨e1, e2⟩ := hI.shift_leaf hn hl ha hU h1 h2 (Node.leafData_leaf h3).1
  obtain ⟨ha1, han, hfa, hhi, la, hla, hlan⟩ := hI.prev_leaf hn hl ha
  have hold := hI.chain c l₀ h1 h3
  have hchain := hI.chain n { l with parent := none } hn (by rw [hl]; rfl)
  have hrange := (hI.tree.range hn).1
  have hfam : G'.fam = G.fam := hU.fam
  refine ⟨?_, ?_, ?_, ?_⟩
  · intro m hm
    simp only at hm
    by_cases hca : c = a
    · -- the left neighbour of `n` gets its right neighbour
      rw [if_pos hca] at hm
      obtain ⟨g1, g2, g3, g4, lm, g5, g6⟩ := hI.next_leaf hn hl hm
      obtain ⟨g7, g8⟩ := hI.new_leaf hn hl ha hU g1 g2
        (show (h.node m).leafData = some { lm with parent := none } by rw [g5]; rfl)
      obtain ⟨f1, -⟩ := hI.shift_leaf hn hl ha hU g1 g2 (by rw [g5]; rfl)
      rw [hfam, f1, e2, if_pos hca, hca]
      exact ⟨g7, g3.trans hfa.symm, g4, _, g8, by simp [hm]⟩
    · rw [if_neg hca] at hm
      obtain ⟨g1, g2, g3, lm, g4, g5⟩ := hold.next_some m hm
      have hmn : m ≠ n := by
        rintro rfl
        obtain rfl : _ = lm := by simpa [hl] using g4
        exact hca (by simpa [ha] using g5.symm)
      have hml : some m ≠ l.next := by
        intro h0
        obtain ⟨-, -, -, -, lm', h5, h6⟩ := hI.next_leaf hn hl h0.symm
        obtain rfl : _ = lm := by simpa [h5] using g4
        exact h2 (by simpa [h6] using g5.symm)
      obtain ⟨g7, g8⟩ := hI.new_leaf hn hl ha hU g1 hmn g4
      obtain ⟨f1, -⟩ := hI.shift_leaf hn hl ha hU g1 hmn (Node.leafData_leaf g4).1
      rw [hfam, f1, e2, if_neg hca]
      exact ⟨g7, g2, g3, _, g8, by simpa [hml] using g5⟩
  · intro h0
    simp only at h0
    rw [e2]
    split_ifs at h0 ⊢ with hca
    · exact hchain.next_none h0
    · exact hold.next_none h0
  · intro m hm
    simp only at hm
    by_cases hcm : some c = l.next
    · rw [if_pos hcm] at hm
      obtain rfl := Option.some.inj hm
      obtain ⟨-, -, g3, g4, -⟩ := hI.next_leaf hn hl hcm.symm
      obtain ⟨g7, g8⟩ := hI.new_leaf hn hl ha hU ha1 han
        (show (h.node a).leafData = some { la with parent := none } by rw [hla]; rfl)
      obtain ⟨-, f2⟩ := hI.shift_leaf hn hl ha hU ha1 han (by rw [hla]; rfl)
      rw [hfam, f2, e1, if_pos rfl]
      exact ⟨g7, hfa.trans g3.symm, g4.symm, _, g8, by simp [hcm]⟩
    · rw [if_neg hcm] at hm
      obtain ⟨g1, g2, g3, lm, g4, g5⟩ := hold.prev_some m hm
      have hmn : m ≠ n := by
        rintro rfl
        obtain rfl : _ = lm := by simpa [hl] using g4
        exact hcm g5.symm
      have hma : m ≠ a := by
        rintro rfl
        obtain rfl : _ = lm := by simpa [hla] using g4
        exact h2 (by simpa [hlan] using g5.symm)
      obtain ⟨g7, g8⟩ := hI.new_leaf hn hl ha hU g1 hmn g4
      obtain ⟨-, f2⟩ := hI.shift_leaf hn hl ha hU g1 hmn (Node.leafData_leaf g4).1
      rw [hfam, f2, e1, if_neg hma]
      exact ⟨g7, g2, g3, _, g8, by simpa [hma] using g5⟩
  · intro h0
    simp only at h0
    rw [e1]
    split_ifs at h0
    exact hold.prev_none h0

lemma HeapInv.entry_remove (hempty : l.entries = []) (f : Ptr) (s : Slot β) :
    Entry h' G' f s ↔ Entry h G f s := by
  constructor
  · rintro ⟨c, lc, h1, h2, h3, h4⟩
    obtain ⟨g1, -, l₀, g3, rfl⟩ := hI.old_leaf hn hl ha hU h1 h3
    exact ⟨c, l₀, g1, by rw [hU.fam] at h2; exact h2, g3, h4⟩
  · rintro ⟨c, lc, h1, h2, h3, h4⟩
    have hcn : c ≠ n := by
      rintro rfl
      obtain rfl : _ = lc := by simpa [hl] using h3
      change s ∈ l.entries at h4
      rw [hempty] at h4
      cases h4
    obtain ⟨g1, g2⟩ := hI.new_leaf hn hl ha hU h1 hcn h3
    exact ⟨c, _, g1, by rw [hU.fam]; exact h2, g2, h4⟩

lemma HeapInv.frame_remove : Frame h G h' G' := by
  have hs := hI.sameTree_unlinkLeaf hn hl ha
  have hnode : ∀ c, (((h.set n (.leaf l.dead)).retire n).node c).isLeaf = (h.node c).isLeaf ∧
      (((h.set n (.leaf l.dead)).retire n).node c).directoryMeta = (h.node c).directoryMeta := by
    intro c
    rw [Heap.node_retire, Heap.node_set]
    split_ifs with h0
    · rw [h0, hl]
      exact ⟨rfl, rfl⟩
    · exact ⟨rfl, rfl⟩
  have hleaf : ∀ c, (h'.node c).isLeaf = (h.node c).isLeaf := by
    intro c
    rw [← (hnode c).1, ← hs.isLeaf c]
    have := hU.leafData c
    cases h1 : h'.node c <;>
      cases h2 : (unlinkLeaf ((h.set n (.leaf l.dead)).retire n) n).node c <;> simp_all
  have hsize : h'.size = h.size := hU.size.trans hs.size
  refine ⟨hsize.ge, hU.gone, fun c _ => hleaf c, fun c _ => congrFun hU.fam c, ?_, ?_⟩
  · exact fun c hc => ⟨c, ⟨hsize ▸ hc.1, hU.gone ▸ hc.2⟩, congrFun hU.fam c⟩
  · intro c _
    rw [hU.directoryMeta, hs.directoryMeta, (hnode _).2]
    exact congrArg (fun t => (h.node t).directoryMeta) (congrFun hU.top (G.fam c))

end Removed

/-! ## The specifications -/

/-- **`remove_leaf`** on an empty leaf. -/
lemma removeLeaf_spec (hI : HeapInv P R h G) (hn : G.live n) (hl : h.node n = .leaf l)
    (hempty : l.entries = []) :
    ∃ h' G', removeLeaf h n = some h' ∧ HeapInv P R h' G' ∧ Frame h G h' G' ∧
      ∀ f s, Entry h' G' f s ↔ Entry h G f s := by
  have hleaf : h.leaf n = l := by simp [Heap.leaf, hl]
  rw [removeLeaf, hleaf]
  cases ha : l.prev with
  | none => exact ⟨h, G, rfl, hI, .refl _ _, fun _ _ => Iff.rfl⟩
  | some a =>
      have hd := (hI.kill_leaf hn hl ha).sameTree (hI.sameTree_unlinkLeaf hn hl ha)
      have hmark : (h.node n).markDeleted = .leaf l.dead := by rw [hl]; rfl
      simp only [hmark]
      rw [(hI.bound_leaf hn hl ha).2.1]
      obtain ⟨h', G', heq, hU, -⟩ := unhook_spec
        ((unlinkLeaf ((h.set n (.leaf l.dead)).retire n) n).size + 1) hd (by omega)
      exact ⟨h', G', heq, ⟨hU.tree, hI.leafInv_remove hn hl ha hU, hI.chainInv_remove hn hl ha hU⟩,
        hI.frame_remove hn hl ha hU, hI.entry_remove hn hl ha hU hempty⟩

/-- A leaf without one of its slots. -/
lemma LeafOk.removeSlot {l' : Leaf β} (hok : LeafOk P R G n { l with parent := none }) {i : ℕ}
    (hi : i < l.size)
    (hl' : l' = { l with modstate := .remove, permutation := l.permutation.remove i }) :
    l'.entries = l.entries.eraseIdx i ∧ LeafOk P R G n { l' with parent := none } := by
  have hw : l.permutation.WF P.leafWidth := hok.perm
  have hent : l'.entries = l.entries.eraseIdx i := by
    rw [Leaf.entries, hl', hw.live_remove hi, Leaf.entries, List.eraseIdx_map]
    rfl
  subst hl'
  refine ⟨hent, hw.remove hi, hok.slots, ?_, ?_, by simp, hok.first, hok.bound⟩
  · rw [Leaf.entries_parent, hent]
    exact (show l.entries.Pairwise R from hok.sorted).sublist (List.eraseIdx_sublist _ _)
  · intro t ht
    rw [Leaf.entries_parent, hent] at ht
    exact hok.within t (List.mem_of_mem_eraseIdx ht)

/-- **`finish_remove`**, item by item of the leaf. -/
lemma finishRemove_entries (hI : HeapInv P R h G) (hn : G.live n) (hl : h.node n = .leaf l) {i : ℕ}
    (hi : i < l.size) :
    ∃ h' G', finishRemove h n i = some h' ∧ HeapInv P R h' G' ∧ Frame h G h' G' ∧
      ∀ f t, Entry h' G' f t ↔ (f = G.fam n ∧ t ∈ l.entries.eraseIdx i) ∨
        ∃ b lb, b ≠ n ∧ G.live b ∧ G.fam b = f ∧ (h.node b).leafData = some lb ∧
        t ∈ lb.entries := by
  have hok := hI.leaves n { l with parent := none } hn (by rw [hl]; rfl)
  have hw : l.permutation.WF P.leafWidth := hok.perm
  set l' : Leaf β := { l with modstate := .remove, permutation := l.permutation.remove i } with hl'
  obtain ⟨hent, hok'⟩ := hok.removeSlot hi hl'
  have hsame : l.SameLinks l' := ⟨rfl, rfl, rfl, rfl, Iff.rfl⟩
  have hI₁ : HeapInv P R (h.setLeaf n l') G := hI.setLeaf hl hsame rfl rfl (fun _ => hok')
  have hF₁ := (SameTree.setLeaf hl hsame).frame G
  have hE₁ : ∀ f t, Entry (h.setLeaf n l') G f t ↔ (f = G.fam n ∧ t ∈ l'.entries) ∨
      ∃ b lb, b ≠ n ∧ G.live b ∧ G.fam b = f ∧ (h.node b).leafData = some lb ∧ t ∈ lb.entries :=
    entry_setLeaf hn
  rw [hent] at hE₁
  have hleaf : h.leaf n = l := by simp [Heap.leaf, hl]
  rw [finishRemove, hleaf]
  simp only [← hl']
  split_ifs with h0
  · obtain ⟨h', G', heq, hI', hF', hE'⟩ := removeLeaf_spec hI₁ hn (l := l') (by simp)
      (by
        rw [← List.length_eq_zero_iff, Leaf.entries_length (hw.remove hi)]
        exact h0)
    exact ⟨h', G', heq, hI', hF₁.trans hF', fun f t => (hE' f t).trans (hE₁ f t)⟩
  · exact ⟨_, G, rfl, hI₁, hF₁, hE₁⟩

/-- **`finish_remove`** takes one item out of a layer. -/
lemma finishRemove_spec (hirr : ∀ s, ¬ R s s) (hI : HeapInv P R h G) (hn : G.live n)
    (hl : h.node n = .leaf l) {i : ℕ} {s : Slot β} (hs : l.entries[i]? = some s) :
    ∃ h' G', finishRemove h n i = some h' ∧ HeapInv P R h' G' ∧ Frame h G h' G' ∧
      ∀ f t, Entry h' G' f t ↔ Entry h G f t ∧ ¬ (f = G.fam n ∧ t = s) := by
  have hok := hI.leaves n { l with parent := none } hn (by rw [hl]; rfl)
  have hw : l.permutation.WF P.leafWidth := hok.perm
  have hi : i < l.size := by
    have := (List.getElem?_eq_some_iff.mp hs).1
    rwa [Leaf.entries_length hw] at this
  have hnodup : l.entries.Nodup := by
    refine List.Pairwise.imp ?_ (show l.entries.Pairwise R from hok.sorted)
    rintro t u hr rfl
    exact hirr t hr
  have hmem : ∀ t, t ∈ l.entries.eraseIdx i ↔ t ∈ l.entries ∧ t ≠ s := by
    intro t
    rw [List.mem_eraseIdx_iff_getElem?]
    constructor
    · rintro ⟨j, hji, hj⟩
      refine ⟨List.mem_of_getElem? hj, ?_⟩
      rintro rfl
      have hlt := (List.getElem?_eq_some_iff.mp hj).1
      exact hji ((List.getElem?_inj hlt hnodup).mp (hj.trans hs.symm))
    · rintro ⟨hm, hne⟩
      obtain ⟨j, hj⟩ := List.getElem?_of_mem hm
      refine ⟨j, ?_, hj⟩
      rintro rfl
      exact hne (by simpa [hs] using hj.symm)
  obtain ⟨h', G', heq, hI', hF', hE⟩ := finishRemove_entries hI hn hl hi
  refine ⟨h', G', heq, hI', hF', fun f t => ?_⟩
  rw [hE, entry_iff_leaf hn hl, hmem]
  constructor
  · rintro (⟨rfl, h1, h2⟩ | ⟨b, lb, h1, h2, h3, h4, h5⟩)
    · exact ⟨Or.inl ⟨rfl, h1⟩, fun h0 => h2 h0.2⟩
    · refine ⟨Or.inr ⟨b, lb, h1, h2, h3, h4, h5⟩, ?_⟩
      -- another leaf of the layer has another range
      rintro ⟨rfl, rfl⟩
      exact h1 (hI.tree.leaf_unique h2 hn (Node.leafData_leaf h4).1 (by rw [hl]; rfl) h3
        ((hI.leaves b lb h2 h4).within t h5)
        (hok.within t (List.mem_of_getElem? hs)))
  · rintro ⟨⟨rfl, h1⟩ | h1, h2⟩
    · exact Or.inl ⟨rfl, h1, fun h0 => h2 ⟨rfl, h0⟩⟩
    · exact Or.inr h1

end MasstreeLHM
