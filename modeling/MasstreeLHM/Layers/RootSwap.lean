import MasstreeLHM.AddedNode
import MasstreeLHM.Layers.GcRoot
import MasstreeLHM.Layers.Gone

/-!
# Another root for a layer

The root of a layer is replaced by its only child, or by a copy of itself.

`RootNode` is an internode that is the root of a layer of which all nodes are live; it is the
situation that both changes start from.  In the first one the child gets the root bit and loses its
parent, and the old root dies with the child as its parent.  `Promoted` is the heap then, and what
it says of single nodes has one lemma for each field (`Promoted.parent_other`, `Promoted.top_spec`,
`Promoted.link`).  The child has the whole range already (`TreeInv.only_child`), so no separator is
touched.

In the second one a copy of the root joins the layer, which the old root leaves
(`RootNode.addsNode`), and the children move below the copy.  **`HeapInv.promote`** and
**`HeapInv.copyRoot`** keep the invariant, and `entry_promote` and `entry_copyRoot` the items.
-/

namespace MasstreeLHM

open Separators

variable {β : Type}

/-! ## The root of a layer -/

section Root

variable {h : Heap β} {G : Ghost} {c : Ptr} {n : Internode}

/-- An internode that is the root of a layer, of which all nodes are live. -/
structure RootNode (h : Heap β) (G : Ghost) (c : Ptr) (n : Internode) : Prop where
  tree : TreeInv h G G.exact
  live : G.live c
  node : h.node c = .internode n
  parent : n.parent = none
  all : ∀ b, G.Known h b → G.fam b = G.fam c → G.live b

namespace RootNode

variable (hr : RootNode h G c n)

include hr

lemma top : c = G.top (G.fam c) :=
  hr.tree.top_eq (hr.tree.known hr.live) id (by rw [hr.node]; exact hr.parent)

lemma child {b : Ptr} (hb : some b ∈ n.children) : G.live b ∧ (h.node b).parent = some c ∧
    G.fam b = G.fam c ∧ (h.node b).height < (h.node c).height :=
  hr.tree.child_live hr.live hr.node hb

/-- Nothing but the children of the root hangs below it. -/
lemma mem_children {b : Ptr} (hb : G.live b) (hpb : (h.node b).parent = some c) :
    some b ∈ n.children := by
  have hmem := (hr.tree.linked hb id hpb).2
  rwa [Heap.internode_eq hr.node] at hmem

lemma parent_ne {b p : Ptr} (hb : G.Known h b) (hpb : (h.node b).parent = some p)
    (hbn : some b ∉ n.children) : p ≠ c := by
  rintro rfl
  exact hbn (hr.mem_children (hr.all b hb (hr.tree.up hb hpb).2.1.symm) hpb)

/-- No child is the root. -/
lemma child_ne {b : Ptr} (hb : some b ∈ n.children) : b ≠ c := by
  rintro rfl
  exact lt_irrefl _ (hr.child hb).2.2.2

end RootNode

end Root

/-! ## A child takes the place of the root -/

section Promote

variable {h h' : Heap β} {G : Ghost} {a c : Ptr} {n : Internode}

/-- The ghost after the root `a` has been replaced by its child `c`. -/
def Ghost.promote (G : Ghost) (a c : Ptr) : Ghost :=
  { G with live := fun b => G.live b ∧ b ≠ a
           gone := fun b => G.gone b ∨ b = a
           top := fun f => if f = G.fam a then c else G.top f }

/-- The heap after the root `a` has been replaced by its child `c`. -/
structure Promoted (h h' : Heap β) (a c : Ptr) (n : Internode) : Prop where
  size : h'.size = h.size
  retired : h'.retired = a :: h.retired
  node : ∀ b, h'.node b = if b = a then .internode { n with isRoot := false, parent := some c }
    else if b = c then (h.node c).makeLayerRoot else h.node b

@[simp] lemma Node.parent_makeLayerRoot (n : Node β) : n.makeLayerRoot.parent = none := by
  cases n <;> rfl

@[simp] lemma Node.isRoot_makeLayerRoot (n : Node β) : n.makeLayerRoot.isRoot = true := by
  cases n <;> rfl

@[simp] lemma Node.height_makeLayerRoot (n : Node β) : n.makeLayerRoot.height = n.height := by
  cases n <;> rfl

@[simp] lemma Node.isLeaf_makeLayerRoot (n : Node β) : n.makeLayerRoot.isLeaf = n.isLeaf := by
  cases n <;> rfl

@[simp] lemma Node.deleted_makeLayerRoot (n : Node β) : n.makeLayerRoot.deleted = n.deleted := by
  cases n <;> rfl

@[simp] lemma Node.children_makeLayerRoot (n : Node β) :
    n.makeLayerRoot.toInternode.children = n.toInternode.children := by
  cases n <;> rfl

lemma Node.internode_of_makeLayerRoot {n : Node β} {m' : Internode}
    (h : n.makeLayerRoot = .internode m') :
    ∃ m, n = .internode m ∧ m'.keys = m.keys ∧ m'.children = m.children := by
  cases n with
  | leaf l => simp [Node.makeLayerRoot] at h
  | internode m =>
      obtain rfl : _ = m' := by simpa [Node.makeLayerRoot] using h
      exact ⟨m, rfl, rfl, rfl⟩

lemma Node.leafData_makeLayerRoot {n : Node β} {l' : Leaf β}
    (h : n.makeLayerRoot.leafData = some l') :
    ∃ l, n.leafData = some l ∧ l' = { l with isRoot := true } := by
  cases n with
  | leaf l =>
      obtain rfl : _ = l' := by simpa [Node.makeLayerRoot] using h
      exact ⟨_, rfl, rfl⟩
  | internode m => simp [Node.makeLayerRoot] at h

/-- The only child of a root has the whole range. -/
lemma TreeInv.only_child (hT : TreeInv h G G.exact) (ha : G.live a) (hn : h.node a = .internode n)
    (hk : n.keys = []) (hc : n.children = [some c]) (hp : n.parent = none) :
    G.live c ∧ c ≠ a ∧ G.fam c = G.fam a ∧ (h.node c).parent = some a ∧ G.lo c = 0 ∧
      G.hi c = ikeyLimit ∧ a = G.top (G.fam a) := by
  have htop : a = G.top (G.fam a) := hT.top_eq (hT.known ha) id (by rw [hn]; exact hp)
  obtain ⟨-, -, -, -, h5, h6⟩ := hT.top_spec (hT.known ha)
  rw [← htop] at h5 h6
  obtain ⟨h1, h2, h3, h4⟩ := hT.child_live ha hn (c := c) (by simp [hc])
  have hs : SegOk h G G.exact a (G.lo a, some c, G.hi a) :=
    (hT.link ha hn).segs _ (by simp [hk, hc])
  refine ⟨h1, ?_, h3, h2, hs.2.2.2.1.trans h5, hs.2.2.2.2.1.trans h6, htop⟩
  rintro rfl
  exact lt_irrefl _ h4

namespace Promoted

lemma known_iff (hP : Promoted h h' a c n) {b : Ptr} : (G.promote a c).Known h' b ↔
    G.Known h b ∧ b ≠ a := by
  rw [Ghost.Known, hP.size]
  constructor
  · exact fun h0 => ⟨⟨h0.1, fun h1 => h0.2 (Or.inl h1)⟩, fun h1 => h0.2 (Or.inr h1)⟩
  · exact fun h0 => ⟨h0.1.1, fun h1 => h1.elim h0.1.2 h0.2⟩

lemma node_other (hP : Promoted h h' a c n) {b : Ptr} (hba : b ≠ a) (hbc : b ≠ c) :
    h'.node b = h.node b := by
  rw [hP.node, if_neg hba, if_neg hbc]

lemma height_eq (hP : Promoted h h' a c n) (hn : h.node a = .internode n) (b : Ptr) :
    (h'.node b).height = (h.node b).height := by
  rw [hP.node]
  split_ifs with h1 h2
  · rw [h1, hn]; rfl
  · rw [h2, Node.height_makeLayerRoot]
  · rfl

lemma isLeaf_eq (hP : Promoted h h' a c n) (hn : h.node a = .internode n) (b : Ptr) :
    (h'.node b).isLeaf = (h.node b).isLeaf := by
  rw [hP.node]
  split_ifs with h1 h2
  · rw [h1, hn]; rfl
  · rw [h2, Node.isLeaf_makeLayerRoot]
  · rfl

lemma not_deleted (hP : Promoted h h' a c n) (hT : TreeInv h G G.exact) {b : Ptr}
    (hb : (G.promote a c).live b) : (h'.node b).deleted = false := by
  rw [hP.node, if_neg hb.2]
  split_ifs with h3
  · rw [Node.deleted_makeLayerRoot, ← h3]
    exact hT.not_deleted hb.1
  · exact hT.not_deleted hb.1

variable (hr : RootNode h G a n) (hc : n.children = [some c]) (hP : Promoted h h' a c n)

include hr hc hP

lemma node_child : h'.node c = (h.node c).makeLayerRoot := by
  rw [hP.node, if_neg (hr.child_ne (hc ▸ List.mem_singleton_self _)), if_pos rfl]

lemma parent_child : (h'.node c).parent = none := by
  rw [hP.node_child hr hc, Node.parent_makeLayerRoot]

/-- The parent of another node has not changed, and is not the old root. -/
lemma parent_other {b p : Ptr} (hb : G.Known h b) (hba : b ≠ a)
    (hpb : (h'.node b).parent = some p) : b ≠ c ∧ (h.node b).parent = some p ∧ p ≠ a := by
  have hbc : b ≠ c := by
    rintro rfl
    rw [hP.parent_child hr hc] at hpb
    cases hpb
  rw [hP.node_other hba hbc] at hpb
  refine ⟨hbc, hpb, hr.parent_ne hb hpb ?_⟩
  rw [hc, List.mem_singleton, Option.some.injEq]
  exact hbc

lemma top_eq {b : Ptr} (hb : G.Known h b) (hba : b ≠ a) (hpb : (h'.node b).parent = none) :
    b = (G.promote a c).top (G.fam b) := by
  by_cases hbc : b = c
  · have hcf := (hr.child (hc ▸ List.mem_singleton_self _)).2.2.1
    rw [hbc]
    exact (if_pos hcf).symm
  · rw [hP.node_other hba hbc] at hpb
    have htop := hr.tree.top_eq hb id hpb
    refine htop.trans (if_neg fun hfb => hba ?_).symm
    rw [htop, hfb, ← hr.top]

lemma top_spec (hk : n.keys = []) {b : Ptr} (hb : G.Known h b) :
    let t := (G.promote a c).top (G.fam b)
    (G.promote a c).live t ∧ G.fam t = G.fam b ∧ (h'.node t).parent = none ∧ G.lo t = 0 ∧
      G.hi t = ikeyLimit := by
  intro t
  obtain ⟨hcl, hca, hcf, -, hclo, hchi, -⟩ :=
    hr.tree.only_child hr.live hr.node hk hc hr.parent
  by_cases hfb : G.fam b = G.fam a
  · have ht : t = c := if_pos hfb
    rw [ht]
    exact ⟨⟨hcl, hca⟩, hcf.trans hfb.symm, hP.parent_child hr hc, hclo, hchi⟩
  · have ht : t = G.top (G.fam b) := if_neg hfb
    obtain ⟨h1, -, h3, h4, h5, h6⟩ := hr.tree.top_spec hb
    have hta : G.top (G.fam b) ≠ a := fun h0 => hfb (by rw [← h3, h0])
    have htc : G.top (G.fam b) ≠ c := fun h0 => hfb (by rw [← h3, h0, hcf])
    rw [ht, hP.node_other hta htc]
    exact ⟨⟨h1, hta⟩, h3, h4, h5, h6⟩

lemma linked {b p : Ptr} (hb : (G.promote a c).live b) (hpb : (h'.node b).parent = some p) :
    (G.promote a c).live p ∧ some b ∈ (h'.internode p).children := by
  obtain ⟨-, hpb, hpa⟩ := hP.parent_other hr hc (hr.tree.known hb.1) hb.2 hpb
  obtain ⟨h1, h2⟩ := hr.tree.linked hb.1 id hpb
  refine ⟨⟨h1, hpa⟩, ?_⟩
  rw [Heap.internode, hP.node, if_neg hpa]
  split_ifs with h3
  · rw [Node.children_makeLayerRoot, ← h3]
    exact h2
  · exact h2

lemma link {b : Ptr} {m' : Internode} (hb : (G.promote a c).live b)
    (hm' : h'.node b = .internode m') :
    LinkInv h' (G.promote a c) (G.promote a c).exact b m' := by
  obtain ⟨m, hm, hmk, hmc⟩ : ∃ m, h.node b = .internode m ∧ m'.keys = m.keys ∧
      m'.children = m.children := by
    rw [hP.node, if_neg hb.2] at hm'
    split_ifs at hm' with h3
    · rw [h3]
      exact Node.internode_of_makeLayerRoot hm'
    · exact ⟨m', hm', rfl, rfl⟩
  refine (hr.tree.link hb.1 hm).congr hmk hmc rfl rfl ?_
  intro l d u hd hseg
  obtain ⟨-, -, h3, h4⟩ := hseg
  obtain ⟨g1, g2, -, -⟩ := hr.tree.child_live hb.1 hm hd
  have hda : d ≠ a := by
    rintro rfl
    rw [hr.node] at g2
    exact absurd (g2.symm.trans hr.parent) (by simp)
  have hdc : d ≠ c := by
    rintro rfl
    have hpd := (hr.child (hc ▸ List.mem_singleton_self _)).2.1
    exact hb.2 (Option.some.inj (hpd.symm.trans g2)).symm
  exact ⟨Or.inl ⟨g1, hda⟩, id, by rw [hP.node_other hda hdc]; exact h3, h4⟩

end Promoted

lemma TreeInv.promote (hT : TreeInv h G G.exact) (ha : G.live a) (hn : h.node a = .internode n)
    (hk : n.keys = []) (hc : n.children = [some c]) (hp : n.parent = none)
    (hall : ∀ b, G.Known h b → G.fam b = G.fam a → G.live b) (hP : Promoted h h' a c n) :
    TreeInv h' (G.promote a c) (G.promote a c).exact := by
  have hr : RootNode h G a n := ⟨hT, ha, hn, hp, hall⟩
  have hknown : ∀ {b}, (G.promote a c).Known h' b ↔ G.Known h b ∧ b ≠ a := hP.known_iff
  refine ⟨fun hb => hknown.mpr ⟨hT.known hb.1, hb.2⟩, ?_, ?_, ?_, ?_, ?_, ?_, ?_,
    fun hb => hT.range hb.1, fun hb _ => hP.linked hr hc hb, hP.link hr hc, hP.not_deleted hT,
    ?_⟩
  · rintro b (hb | rfl)
    · exact hP.size.symm ▸ hT.gone_lt hb
    · exact hP.size.symm ▸ hT.live_lt ha
  · intro b p hb hpb
    obtain ⟨hb, hba⟩ := hknown.mp hb
    obtain ⟨-, hpb, hpa⟩ := hP.parent_other hr hc hb hba hpb
    obtain ⟨h1, h2, h3, h4⟩ := hT.up hb hpb
    rw [hP.height_eq hn, hP.height_eq hn, hP.isLeaf_eq hn]
    exact ⟨hknown.mpr ⟨h1, hpa⟩, h2, h3, h4⟩
  · intro b hb _ hpb
    obtain ⟨hb, hba⟩ := hknown.mp hb
    exact hP.top_eq hr hc hb hba hpb
  · intro b hb
    obtain ⟨h1, h2⟩ := hP.top_spec hr hc hk (hknown.mp hb).1
    exact ⟨h1, id, h2⟩
  · intro b hb
    obtain ⟨hb, -⟩ := hknown.mp hb
    obtain ⟨h1, h2, h3⟩ := hT.fam_spec hb
    refine ⟨⟨h1, fun h0 => ?_⟩, h2, (hP.isLeaf_eq hn _).trans h3⟩
    rw [show G.fam b = a from h0, hn] at h3
    cases h3
  · intro b hb
    rw [hP.size] at hb ⊢
    rw [hP.height_eq hn]
    exact hT.height_lt hb
  · intro b hb _ hst
    obtain ⟨hb, hba⟩ := hknown.mp hb
    by_cases hbc : b = c
    · rw [hbc, hP.node_child hr hc]
      simp
    · rw [hP.node_other hba hbc] at hst ⊢
      exact hT.root_bit hb id hst
  · intro b hb
    rw [hP.retired, List.mem_cons] at hb
    rw [hP.size]
    rcases hb with rfl | hb
    · exact ⟨hT.live_lt ha, fun h0 => h0.2 rfl⟩
    · exact ⟨(hT.retired_dead hb).1, fun h0 => (hT.retired_dead hb).2 h0.1⟩

lemma promoted_self (h : Heap β) (a c : Ptr) (n : Internode) :
    Promoted h (((h.set c (h.node c).makeLayerRoot).setInternode a
      { n with isRoot := false, parent := some c }).retire a) a c n :=
  ⟨rfl, rfl, fun b => by simp only [Heap.node_retire, Heap.node_setInternode, Heap.node_set]⟩

lemma Promoted.leafData (hP : Promoted h h' a c n) {b : Ptr}
    {l' : Leaf β} (hl' : (h'.node b).leafData = some l') :
    b ≠ a ∧ ∃ l, (h.node b).leafData = some l ∧ (l' = l ∨ l' = { l with isRoot := true }) := by
  rw [hP.node] at hl'
  split_ifs at hl' with h1 h2
  · simp at hl'
  · obtain ⟨l, h3, h4⟩ := Node.leafData_makeLayerRoot hl'
    exact ⟨h1, l, h2 ▸ h3, Or.inr h4⟩
  · exact ⟨h1, l', hl', Or.inl rfl⟩

lemma Promoted.leafData_of (hn : h.node a = .internode n) (hP : Promoted h h' a c n) {b : Ptr}
    {l : Leaf β} (hl : (h.node b).leafData = some l) :
    b ≠ a ∧ ∃ l', (h'.node b).leafData = some l' ∧ (l' = l ∨ l' = { l with isRoot := true }) := by
  have hba : b ≠ a := by
    rintro rfl
    simp [hn] at hl
  refine ⟨hba, ?_⟩
  rw [hP.node, if_neg hba]
  split_ifs with h2
  · subst h2
    cases hb : h.node b with
    | leaf l₀ =>
        obtain rfl : _ = l := by simpa [hb] using hl
        exact ⟨_, rfl, Or.inr rfl⟩
    | internode m => simp [hb] at hl
  · exact ⟨l, hl, Or.inl rfl⟩

section

variable [Inhabited β] {P : NodeParams} {R : Slot β → Slot β → Prop}

/-- **The only child of a root becomes the root.** -/
lemma HeapInv.promote (hI : HeapInv P R h G) (ha : G.live a) (hn : h.node a = .internode n)
    (hk : n.keys = []) (hc : n.children = [some c]) (hp : n.parent = none)
    (hall : ∀ b, G.Known h b → G.fam b = G.fam a → G.live b) (hP : Promoted h h' a c n) :
    HeapInv P R h' (G.promote a c) := by
  refine ⟨hI.tree.promote ha hn hk hc hp hall hP, ?_, ?_⟩
  · intro b l' hb hl'
    obtain ⟨-, l, hl, h0⟩ := hP.leafData hl'
    have hok := hI.leaves b l hb.1 hl
    rcases h0 with rfl | rfl
    · exact hok.congr rfl rfl rfl
    · exact ⟨hok.perm, hok.slots, hok.sorted, hok.within, hok.modstate, hok.first, hok.bound⟩
  · intro b l' hb hl'
    obtain ⟨-, l, hl, h0⟩ := hP.leafData hl'
    obtain ⟨h1, h2, h3, h4⟩ := hI.chain b l hb.1 hl
    have hnext : l'.next = l.next := by rcases h0 with rfl | rfl <;> rfl
    have hprev : l'.prev = l.prev := by rcases h0 with rfl | rfl <;> rfl
    refine ⟨fun m hm => ?_, fun h0 => h2 (hnext ▸ h0), fun m hm => ?_, fun h0 => h4 (hprev ▸ h0)⟩
    · obtain ⟨g1, g2, g3, lm, g4, g5⟩ := h1 m (hnext ▸ hm)
      obtain ⟨hma, lm', g6, g7⟩ := hP.leafData_of hn g4
      exact ⟨⟨g1, hma⟩, g2, g3, lm', g6, by rcases g7 with rfl | rfl <;> exact g5⟩
    · obtain ⟨g1, g2, g3, lm, g4, g5⟩ := h3 m (hprev ▸ hm)
      obtain ⟨hma, lm', g6, g7⟩ := hP.leafData_of hn g4
      exact ⟨⟨g1, hma⟩, g2, g3, lm', g6, by rcases g7 with rfl | rfl <;> exact g5⟩

lemma entry_promote (hn : h.node a = .internode n) (hP : Promoted h h' a c n) (g : Ptr)
    (s : Slot β) : Entry h' (G.promote a c) g s ↔ Entry h G g s := by
  constructor
  · rintro ⟨b, l', h1, h2, h3, h4⟩
    obtain ⟨-, l, h5, h6⟩ := hP.leafData h3
    exact ⟨b, l, h1.1, h2, h5, by rcases h6 with rfl | rfl <;> exact h4⟩
  · rintro ⟨b, l, h1, h2, h3, h4⟩
    obtain ⟨hba, l', h5, h6⟩ := hP.leafData_of hn h3
    exact ⟨b, l', ⟨h1, hba⟩, h2, h5, by rcases h6 with rfl | rfl <;> exact h4⟩

end

end Promote

/-! ## A copy takes the place of the root -/

section Copy

variable {h : Heap β} {G : Ghost} {c : Ptr} {n : Internode} (m : DirectoryMeta)

/-- The ghost after the root `c` has been replaced by the copy `nr`. -/
def Ghost.copyRoot (G : Ghost) (c nr : Ptr) : Ghost where
  live b := b = nr ∨ (G.live b ∧ b ≠ c)
  gone b := G.gone b ∨ b = c
  fam b := if b = nr then G.fam c else G.fam b
  top f := if f = G.fam c then nr else G.top f
  lo b := if b = nr then 0 else G.lo b
  hi b := if b = nr then ikeyLimit else G.hi b

namespace RootNode

variable (hr : RootNode h G c n)

include hr

omit hr in
/-- The heap after copying the root, in its old nodes. -/
lemma node_copyRoot {b : Ptr} (hb : b < h.size) : (h.copyRoot m n).node b =
    if some b ∈ n.children then (h.node b).setParent (some h.size) else h.node b := by
  simp only [Heap.copyRoot, Heap.node_setParents, Heap.node_alloc, if_neg hb.ne]

omit hr in
lemma node_copyRoot_like {b : Ptr} (hb : b < h.size) :
    Node.Like (h.node b) ((h.copyRoot m n).node b) := by
  rw [node_copyRoot m hb]
  split_ifs
  · exact .setParent _ _
  · exact .refl _

lemma node_copyRoot_new :
    (h.copyRoot m n).node h.size = .internode (n.cloneRootWithMeta m) := by
  have hnew : some h.size ∉ n.children := fun h0 => lt_irrefl _ (hr.tree.live_lt (hr.child h0).1)
  simp only [Heap.copyRoot, Heap.node_setParents, Heap.node_alloc, if_neg hnew, if_true]

omit hr in
lemma parent_copyRoot {b : Ptr} (hb : b < h.size) (hbn : some b ∉ n.children) :
    ((h.copyRoot m n).node b).parent = (h.node b).parent := by
  rw [node_copyRoot m hb, if_neg hbn]

lemma parent_copyRoot_child {b : Ptr} (hb : some b ∈ n.children) :
    ((h.copyRoot m n).node b).parent = some h.size := by
  rw [node_copyRoot m (hr.tree.live_lt (hr.child hb).1), if_pos hb, Node.parent_setParent]

/-- The copy joins the layer, which the old root leaves. -/
lemma addsNode : AddsNode h G c (· = c) (h.copyRoot m n) (G.copyRoot c h.size) where
  size := rfl
  retired := rfl
  live _ := Iff.rfl
  gone _ := Iff.rfl
  dropped := by
    rintro a rfl
    exact ⟨hr.tree.live_lt hr.live, by rw [hr.node]; rfl⟩
  fam a ha := if_neg ha.ne
  fam_new := if_pos rfl
  lo a ha := if_neg ha.ne
  height a ha := (node_copyRoot_like m ha).height
  isLeaf a ha := (node_copyRoot_like m ha).isLeaf
  deleted a ha := (node_copyRoot_like m ha).deleted
  height_new := by
    have hlt := hr.tree.height_lt (hr.tree.live_lt hr.live)
    rw [hr.node] at hlt
    rw [hr.node_copyRoot_new]
    exact hlt.le
  deleted_new := by rw [hr.node_copyRoot_new]; rfl

lemma copyRoot_up {b p : Ptr} (hb : (G.copyRoot c h.size).Known (h.copyRoot m n) b)
    (hpb : ((h.copyRoot m n).node b).parent = some p) :
    (G.copyRoot c h.size).Known (h.copyRoot m n) p ∧
      (G.copyRoot c h.size).fam p = (G.copyRoot c h.size).fam b ∧
      ((h.copyRoot m n).node b).height < ((h.copyRoot m n).node p).height ∧
      ((h.copyRoot m n).node p).isLeaf = false := by
  have hA := hr.addsNode m
  rcases (hA.known_iff hr.tree).mp hb with rfl | ⟨hb, -⟩
  · rw [hr.node_copyRoot_new] at hpb
    cases hpb
  · by_cases hbn : some b ∈ n.children
    · rw [hr.parent_copyRoot_child m hbn] at hpb
      obtain rfl := Option.some.inj hpb
      obtain ⟨-, -, h3, h4⟩ := hr.child hbn
      rw [hr.node] at h4
      rw [hA.fam_new, hA.fam b hb.1, hA.height b hb.1, hr.node_copyRoot_new]
      exact ⟨(hA.known_iff hr.tree).mpr (Or.inl rfl), h3.symm, h4, rfl⟩
    · rw [parent_copyRoot m hb.1 hbn] at hpb
      exact hA.up hr.tree hb hpb (hr.parent_ne hb hpb hbn)

lemma copyRoot_top_eq {b : Ptr} (hb : (G.copyRoot c h.size).Known (h.copyRoot m n) b)
    (hpb : ((h.copyRoot m n).node b).parent = none) :
    b = (G.copyRoot c h.size).top ((G.copyRoot c h.size).fam b) := by
  have hA := hr.addsNode m
  rcases (hA.known_iff hr.tree).mp hb with rfl | ⟨hb, hbc⟩
  · exact (if_pos hA.fam_new).symm
  · by_cases hbn : some b ∈ n.children
    · rw [hr.parent_copyRoot_child m hbn] at hpb
      cases hpb
    · rw [parent_copyRoot m hb.1 hbn] at hpb
      have htop := hr.tree.top_eq hb id hpb
      rw [hA.fam b hb.1]
      refine htop.trans (if_neg fun hfb => hbc ?_).symm
      rw [htop, hfb, ← hr.top]

lemma copyRoot_top_spec {b : Ptr} (hb : G.Known h b) :
    let t := (G.copyRoot c h.size).top (G.fam b)
    (G.copyRoot c h.size).live t ∧ (G.copyRoot c h.size).fam t = G.fam b ∧
      ((h.copyRoot m n).node t).parent = none ∧ (G.copyRoot c h.size).lo t = 0 ∧
      (G.copyRoot c h.size).hi t = ikeyLimit := by
  intro t
  have hA := hr.addsNode m
  by_cases hfb : G.fam b = G.fam c
  · have ht : t = h.size := if_pos hfb
    rw [ht, hr.node_copyRoot_new]
    exact ⟨Or.inl rfl, hA.fam_new.trans hfb.symm, rfl, if_pos rfl, if_pos rfl⟩
  · have ht : t = G.top (G.fam b) := if_neg hfb
    obtain ⟨h1, -, h3, -⟩ := hr.tree.top_spec hb
    have hlt := hr.tree.live_lt h1
    have hnc : some (G.top (G.fam b)) ∉ n.children := fun h0 =>
      hfb (h3.symm.trans (hr.child h0).2.2.1)
    rw [ht]
    obtain ⟨g1, -, g3⟩ := hA.top_spec (G.copyRoot c h.size).exact hr.tree hb
      (fun h0 => hfb (by rw [← h3, h0])) id (parent_copyRoot m hlt hnc) (if_neg hlt.ne)
    exact ⟨g1, g3⟩

lemma copyRoot_root_bit {b : Ptr} (hb : (G.copyRoot c h.size).Known (h.copyRoot m n) b)
    (hst : ((h.copyRoot m n).node b).startable) :
    (((h.copyRoot m n).node b).isRoot = true → ((h.copyRoot m n).node b).parent = none) ∧
      (((h.copyRoot m n).node b).parent = none → ((h.copyRoot m n).node b).isRoot = true) := by
  rcases ((hr.addsNode m).known_iff hr.tree).mp hb with rfl | ⟨hb, -⟩
  · rw [hr.node_copyRoot_new]
    exact ⟨fun _ => rfl, fun _ => rfl⟩
  · rw [node_copyRoot m hb.1] at hst ⊢
    split_ifs at hst ⊢ with hbn
    · have hbit := hr.tree.root_bit hb id ((Node.startable_setParent _ _).mp hst)
      have hpb := (hr.child hbn).2.1
      simp only [Node.isRoot_setParent, Node.parent_setParent]
      refine ⟨fun h3 => ?_, fun h3 => by cases h3⟩
      rw [hbit.1 h3] at hpb
      cases hpb
    · exact (hr.tree.root_bit hb id hst).imp_right fun h0 h1 => h0 h1 id

lemma copyRoot_linked {b p : Ptr} (hb : (G.copyRoot c h.size).live b)
    (hpb : ((h.copyRoot m n).node b).parent = some p) :
    (G.copyRoot c h.size).live p ∧ some b ∈ ((h.copyRoot m n).internode p).children := by
  rcases (hr.addsNode m).live_cases hr.tree hb with rfl | ⟨hlt, hb, -⟩
  · rw [hr.node_copyRoot_new] at hpb
    cases hpb
  · by_cases hbn : some b ∈ n.children
    · rw [hr.parent_copyRoot_child m hbn] at hpb
      obtain rfl := Option.some.inj hpb
      rw [Heap.internode_eq (hr.node_copyRoot_new m)]
      exact ⟨Or.inl rfl, hbn⟩
    · rw [parent_copyRoot m hlt hbn] at hpb
      obtain ⟨h1, h2⟩ := hr.tree.linked hb id hpb
      refine ⟨Or.inr ⟨h1, hr.parent_ne (hr.tree.known hb) hpb hbn⟩, ?_⟩
      rw [Heap.internode, node_copyRoot m (hr.tree.live_lt h1)]
      split_ifs
      · rw [Node.children_setParent]
        exact h2
      · exact h2

/-- The copy has the links of the old root. -/
lemma copyRoot_link_new : LinkInv (h.copyRoot m n) (G.copyRoot c h.size)
    (G.copyRoot c h.size).exact h.size (n.cloneRootWithMeta m) := by
  obtain ⟨-, -, -, -, hlo, hhi⟩ := hr.tree.top_spec (hr.tree.known hr.live)
  rw [← hr.top] at hlo hhi
  refine (hr.tree.link hr.live hr.node).congr rfl rfl ((if_pos rfl).trans hlo.symm)
    ((if_pos rfl).trans hhi.symm) ?_
  intro l d u hd hseg
  have hlt := hr.tree.live_lt (hr.child hd).1
  exact (hr.addsNode m).segOk hr.tree (hr.child hd).1 hseg (hr.child_ne hd) id
    (hr.parent_copyRoot_child m hd) (if_neg hlt.ne)

lemma copyRoot_link {b : Ptr} {n' : Internode} (hb : (G.copyRoot c h.size).live b)
    (hn' : (h.copyRoot m n).node b = .internode n') :
    LinkInv (h.copyRoot m n) (G.copyRoot c h.size) (G.copyRoot c h.size).exact b n' := by
  have hA := hr.addsNode m
  rcases hA.live_cases hr.tree hb with rfl | ⟨hlt, hb, hbc⟩
  · obtain rfl : n.cloneRootWithMeta m = n' := by simpa [hr.node_copyRoot_new] using hn'
    exact hr.copyRoot_link_new m
  · obtain ⟨n₀, hn₀, hk, hch⟩ : ∃ n₀, h.node b = .internode n₀ ∧ n'.keys = n₀.keys ∧
        n'.children = n₀.children := by
      rw [node_copyRoot m hlt] at hn'
      split_ifs at hn'
      · exact Node.internode_of_setParent hn'
      · exact ⟨n', hn', rfl, rfl⟩
    refine (hr.tree.link hb hn₀).congr hk hch (hA.lo b hlt) (if_neg hlt.ne) ?_
    intro l d u hd hseg
    obtain ⟨g1, g2, -, -⟩ := hr.tree.child_live hb hn₀ hd
    have hdlt := hr.tree.live_lt g1
    have hdn : some d ∉ n.children := fun h0 =>
      hbc (Option.some.inj (g2.symm.trans (hr.child h0).2.1))
    have hdc : d ≠ c := by
      rintro rfl
      rw [hr.node] at g2
      exact absurd (g2.symm.trans hr.parent) (by simp)
    exact hA.segOk hr.tree g1 hseg hdc id ((parent_copyRoot m hdlt hdn).trans g2) (if_neg hdlt.ne)

end RootNode

lemma TreeInv.copyRoot (hT : TreeInv h G G.exact) (hc : G.live c) (hn : h.node c = .internode n)
    (hp : n.parent = none) (hall : ∀ b, G.Known h b → G.fam b = G.fam c → G.live b) :
    TreeInv (h.copyRoot m n) (G.copyRoot c h.size) (G.copyRoot c h.size).exact := by
  have hr : RootNode h G c n := ⟨hT, hc, hn, hp, hall⟩
  have hA := hr.addsNode m
  exact {
    known := hA.known hT
    gone_lt := fun ha => Nat.lt_succ_of_lt (hA.gone_lt hT ha)
    up := hr.copyRoot_up m
    top_eq := fun ha _ => hr.copyRoot_top_eq m ha
    top_spec := by
      intro a ha
      obtain ⟨b, hb, hab⟩ := hA.exists_fam hT (hT.known hc) ha
      rw [hab]
      obtain ⟨g1, g2⟩ := hr.copyRoot_top_spec m hb
      exact ⟨g1, id, g2⟩
    fam_spec := hA.fam_spec hT (hT.known hc)
    height_lt := hA.height_lt hT
    root_bit := fun ha _ hst => (hr.copyRoot_root_bit m ha hst).imp_right fun h0 h1 _ => h0 h1
    range := by
      rintro b (rfl | hb)
      · exact ⟨by simp [Ghost.copyRoot, ikeyLimit], (if_pos rfl).le⟩
      · have hlt := hT.live_lt hb.1
        rw [hA.lo b hlt, show (G.copyRoot c h.size).hi b = G.hi b from if_neg hlt.ne]
        exact hT.range hb.1
    linked := fun ha _ => hr.copyRoot_linked m ha
    link := hr.copyRoot_link m
    not_deleted := hA.not_deleted hT
    retired_dead := hA.retired_dead hT }

lemma leafData_copyRoot (h : Heap β) (n : Internode) {b : Ptr} (hb : b < h.size) :
    ((h.copyRoot m n).node b).leafData = (h.node b).leafData := by
  simp only [Heap.copyRoot, Heap.node_setParents, Heap.node_alloc, if_neg hb.ne]
  split_ifs
  · rw [Node.leafData_setParent]
  · rfl

lemma leafData_copyRoot_new (h : Heap β) (n : Internode) :
    ((h.copyRoot m n).node h.size).leafData = none := by
  simp only [Heap.copyRoot, Heap.node_setParents, Heap.node_alloc, if_true]
  split_ifs <;> rfl

section

variable [Inhabited β] {P : NodeParams} {R : Slot β → Slot β → Prop}

/-- **An internode root is replaced by a copy.** -/
lemma HeapInv.copyRoot (hI : HeapInv P R h G) (hc : G.live c) (hn : h.node c = .internode n)
    (hp : n.parent = none) (hall : ∀ b, G.Known h b → G.fam b = G.fam c → G.live b) :
    HeapInv P R (h.copyRoot m n) (G.copyRoot c h.size) := by
  have hold : ∀ {b l}, (G.copyRoot c h.size).live b →
      ((h.copyRoot m n).node b).leafData = some l →
      G.live b ∧ b < h.size ∧ (h.node b).leafData = some l := by
    rintro b l (rfl | hb) hl
    · rw [leafData_copyRoot_new] at hl
      cases hl
    · have hlt := hI.tree.live_lt hb.1
      exact ⟨hb.1, hlt, (leafData_copyRoot m h n hlt).symm.trans hl⟩
  have hnew : ∀ {b l}, G.live b → (h.node b).leafData = some l →
      (G.copyRoot c h.size).live b ∧ ((h.copyRoot m n).node b).leafData = some l := by
    intro b l hb hl
    refine ⟨Or.inr ⟨hb, ?_⟩, (leafData_copyRoot m h n (hI.tree.live_lt hb)).trans hl⟩
    rintro rfl
    simp [hn] at hl
  have hfam : ∀ {b}, G.live b → (G.copyRoot c h.size).fam b = G.fam b := fun hb =>
    if_neg (hI.tree.live_lt hb).ne
  have hlo : ∀ {b}, G.live b → (G.copyRoot c h.size).lo b = G.lo b := fun hb =>
    if_neg (hI.tree.live_lt hb).ne
  have hhi : ∀ {b}, G.live b → (G.copyRoot c h.size).hi b = G.hi b := fun hb =>
    if_neg (hI.tree.live_lt hb).ne
  refine ⟨hI.tree.copyRoot m hc hn hp hall, ?_, ?_⟩
  · intro b l hb hl
    obtain ⟨h1, -, h2⟩ := hold hb hl
    exact (hI.leaves b l h1 h2).congr (hlo h1) (hhi h1) (hfam h1)
  · intro b l hb hl
    obtain ⟨h1, -, h2⟩ := hold hb hl
    obtain ⟨e1, e2, e3, e4⟩ := hI.chain b l h1 h2
    refine ⟨fun k hk => ?_, by rw [hhi h1]; exact e2, fun k hk => ?_, by rw [hlo h1]; exact e4⟩
    · obtain ⟨g1, g2, g3, lk, g4, g5⟩ := e1 k hk
      rw [hfam g1, hfam h1, hlo g1, hhi h1]
      exact ⟨(hnew g1 g4).1, g2, g3, lk, (hnew g1 g4).2, g5⟩
    · obtain ⟨g1, g2, g3, lk, g4, g5⟩ := e3 k hk
      rw [hfam g1, hfam h1, hhi g1, hlo h1]
      exact ⟨(hnew g1 g4).1, g2, g3, lk, (hnew g1 g4).2, g5⟩

lemma entry_copyRoot (hT : TreeInv h G G.exact) (hn : h.node c = .internode n) (g : Ptr)
    (s : Slot β) : Entry (h.copyRoot m n) (G.copyRoot c h.size) g s ↔ Entry h G g s := by
  constructor
  · rintro ⟨b, l, rfl | h1, h2, h3, h4⟩
    · rw [leafData_copyRoot_new] at h3
      cases h3
    · have hlt := hT.live_lt h1.1
      exact ⟨b, l, h1.1, (if_neg hlt.ne).symm.trans h2,
        (leafData_copyRoot m h n hlt).symm.trans h3, h4⟩
  · rintro ⟨b, l, h1, h2, h3, h4⟩
    have hlt := hT.live_lt h1
    refine ⟨b, l, Or.inr ⟨h1, ?_⟩, (if_neg hlt.ne).trans h2,
      (leafData_copyRoot m h n hlt).trans h3, h4⟩
    rintro rfl
    simp [hn] at h3

end

end Copy

end MasstreeLHM
