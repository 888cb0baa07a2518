import MasstreeLHM.Layers.RootSwap

/-!
# Collapsing a layer

`gc_layer` tidies the root of a layer that has shrunk: an internode with a single child is replaced
by that child, or by a copy of it that carries on the metadata of the layer, and an empty leaf
without metadata makes the whole layer go.  What is replaced stays in memory, but nothing leads to
it any more: the slot that held the old root gets the new one.

`Tidied` is the state in the middle of the loop: the pointer at hand is the root of its layer, and
the layer has the items that it had.  `Collapsed` says that the other layers are not touched.  Each
branch of the loop has a lemma from `Tidied`: `keep`, **`promote`**, **`copyRoot`**, **`cloneLeaf`**
and **`drop`**.

`gcRoot_top` is the loop from a root, by induction on its fuel, and `gcRoot_climb` the way up to the
root before it.  **`gcRoot_spec`** is both together, from any pointer into the layer: the layer is
kept, tidied as far as the loop goes, or it has gone.
-/

namespace MasstreeLHM

open Separators

variable {β : Type}

/-! ## The loop -/

section Loop

variable [Inhabited β] {P : NodeParams} {R : Slot β → Slot β → Prop}
  {copy : Ptr → Leaf β → List (Slot β)} {h h' : Heap β} {G G' : Ghost} {f a : Ptr}
  {new : Ptr → Prop}

/-- What the copies of slots have to keep: the order of the items. -/
def Copies (P : NodeParams) (R : Slot β → Slot β → Prop) (copy : Ptr → Leaf β → List (Slot β)) :
    Prop :=
  ∀ (c : Ptr) (l : Leaf β) (m : DirectoryMeta), l.permutation.WF P.leafWidth →
    l.slots.length = P.leafWidth → l.entries.Pairwise R →
    (copy c l).length = P.leafWidth ∧ (l.cloneRootWithMeta m (copy c l)).entries.Pairwise R ∧
      (l.cloneRootWithMeta m (copy c l)).entries.map Slot.ikey = l.entries.map Slot.ikey

/-- What tidying layer `f` does to the other layers: nothing.  `new` are the layers there may be in
its place. -/
structure Collapsed (P : NodeParams) (R : Slot β → Slot β → Prop) (h : Heap β) (G : Ghost) (f : Ptr)
    (h' : Heap β) (G' : Ghost) (new : Ptr → Prop) : Prop where
  heap : HeapInv P R h' G'
  size_le : h.size ≤ h'.size
  isLeaf : ∀ b < h.size, (h'.node b).isLeaf = (h.node b).isLeaf
  fam : ∀ b < h.size, G'.fam b = G.fam b
  known : ∀ {b}, G.Known h b → G.fam b ≠ f → G'.Known h' b
  new_fam : ∀ {b}, G'.Known h' b → new (G'.fam b) ∨
    ∃ c, G.Known h c ∧ G.fam c ≠ f ∧ G'.fam b = G.fam c
  directoryMeta : ∀ {b}, G.Known h b → G.fam b ≠ f →
    (h'.node (G'.top (G.fam b))).directoryMeta = (h.node (G.top (G.fam b))).directoryMeta
  entry : ∀ {g}, g ≠ f → g < h.size → ∀ s, Entry h' G' g s ↔ Entry h G g s

/-- Layer `f` in the middle of the loop: `a` is its root, and its items are what they were. -/
structure Tidied (P : NodeParams) (R : Slot β → Slot β → Prop) (h : Heap β) (G : Ghost) (f : Ptr)
    (h' : Heap β) (G' : Ghost) (a : Ptr) : Prop where
  collapsed : Collapsed P R h G f h' G' (· = f)
  live : G'.live a
  fam : G'.fam a = f
  top : a = G'.top f
  rest : ∀ b, G'.live b → G.live b ∧ (b ≠ a → h'.node b = h.node b)
  items : ∀ s, Entry h' G' f s ↔ Entry h G f s
  info : ∀ m, (h.node (G.top f)).directoryMeta = some m → (h'.node a).directoryMeta = some m

lemma Collapsed.refl (hI : HeapInv P R h G) (f : Ptr) : Collapsed P R h G f h G (· = f) where
  heap := hI
  size_le := le_rfl
  isLeaf _ _ := rfl
  fam _ _ := rfl
  known hb _ := hb
  new_fam {b} hb := (eq_or_ne (G.fam b) f).imp id fun h0 => ⟨b, hb, h0, rfl⟩
  directoryMeta _ _ := rfl
  entry _ _ _ := Iff.rfl

lemma Tidied.refl (hI : HeapInv P R h G) (ha : G.Known h a) :
    Tidied P R h G (G.fam a) h G (G.top (G.fam a)) := by
  obtain ⟨h1, -, h3, -⟩ := hI.tree.top_spec ha
  exact ⟨.refl hI _, h1, h3, rfl, fun _ hb => ⟨hb, fun _ => rfl⟩, fun _ => Iff.rfl, fun _ h0 => h0⟩

/-- A leaf with the whole range is the only one of its layer. -/
lemma HeapInv.whole_leaf (hI : HeapInv P R h G) {l : Leaf β} (ha : G.live a)
    (hn : h.node a = .leaf l) (hlo : G.lo a = 0) (hhi : G.hi a = ikeyLimit) :
    l.prev = none ∧ l.next = none ∧ ∀ s, Entry h G (G.fam a) s ↔ s ∈ l.entries := by
  have hchain := hI.chain a { l with parent := none } ha (by rw [hn]; rfl)
  refine ⟨?_, ?_,
    fun s => ⟨?_, fun h0 => ⟨a, { l with parent := none }, ha, rfl, by rw [hn]; rfl, h0⟩⟩⟩
  · cases h0 : l.prev with
    | none => rfl
    | some k =>
        obtain ⟨h1, -, h3, -⟩ := hchain.prev_some k h0
        have := hI.tree.range h1
        omega
  · cases h0 : l.next with
    | none => rfl
    | some k =>
        obtain ⟨h1, -, h3, -⟩ := hchain.next_some k h0
        have := hI.tree.range h1
        omega
  · rintro ⟨b, lb, h1, h2, h3, h4⟩
    obtain ⟨h5, h6⟩ := (hI.leaves b lb h1 h3).within s h4
    obtain rfl := hI.tree.leaf_unique h1 ha (Node.leafData_leaf h3).1 (by rw [hn]; rfl) h2
      ⟨h5, h6⟩ (by rw [hlo, hhi]; exact ⟨Nat.zero_le _, h6.trans_le (hI.tree.range h1).2⟩)
    obtain rfl : _ = lb := by simpa [hn] using h3
    exact h4

namespace Tidied

variable (hT : Tidied P R h G f h' G' a)
include hT

lemma parent : (h'.node a).parent = none := by
  have h0 := hT.collapsed.heap.tree.top_spec (hT.collapsed.heap.tree.known hT.live)
  rw [hT.fam, ← hT.top] at h0
  exact h0.2.2.2.1

lemma range : G'.lo a = 0 ∧ G'.hi a = ikeyLimit := by
  have h0 := hT.collapsed.heap.tree.top_spec (hT.collapsed.heap.tree.known hT.live)
  rw [hT.fam, ← hT.top] at h0
  exact h0.2.2.2.2

lemma startable : (h'.node a).startable := by
  cases hn : h'.node a with
  | internode n => trivial
  | leaf l => exact (hT.collapsed.heap.whole_leaf hT.live hn hT.range.1 hT.range.2).1

lemma isRoot : (h'.node a).isRoot = true :=
  (hT.collapsed.heap.tree.root_bit (hT.collapsed.heap.tree.known hT.live) id hT.startable).2
    hT.parent id

/-- A root leaf is the only leaf of its layer. -/
lemma root_leaf {l : Leaf β} (hn : h'.node a = .leaf l) :
    l.isRoot = true ∧ l.prev = none ∧ l.next = none ∧ l.parent = none ∧
      ∀ s, Entry h G f s ↔ s ∈ l.entries := by
  obtain ⟨h1, h2, h3⟩ := hT.collapsed.heap.whole_leaf hT.live hn hT.range.1 hT.range.2
  have hroot := hT.isRoot
  have hpar := hT.parent
  rw [hn] at hroot hpar
  rw [hT.fam] at h3
  exact ⟨hroot, h1, h2, hpar, fun s => (hT.items s).symm.trans (h3 s)⟩

end Tidied

namespace Collapsed

variable {h'' : Heap β} {G'' : Ghost}

lemma trans (h₁ : Collapsed P R h G f h' G' (· = f)) (h₂ : Collapsed P R h' G' f h'' G'' new) :
    Collapsed P R h G f h'' G'' new where
  heap := h₂.heap
  size_le := h₁.size_le.trans h₂.size_le
  isLeaf b hb := (h₂.isLeaf b (hb.trans_le h₁.size_le)).trans (h₁.isLeaf b hb)
  fam b hb := (h₂.fam b (hb.trans_le h₁.size_le)).trans (h₁.fam b hb)
  known {b} hb hf := h₂.known (h₁.known hb hf) (by rw [h₁.fam b hb.1]; exact hf)
  new_fam {b} hb := by
    rcases h₂.new_fam hb with h0 | ⟨c, hc, hcf, hbc⟩
    · exact Or.inl h0
    · rcases h₁.new_fam hc with h0 | ⟨d, hd, hdf, hcd⟩
      · exact absurd h0 hcf
      · exact Or.inr ⟨d, hd, hdf, hbc.trans hcd⟩
  directoryMeta {b} hb hf := by
    have hfam := h₁.fam b hb.1
    have h0 := h₂.directoryMeta (h₁.known hb hf) (by rw [hfam]; exact hf)
    rw [hfam] at h0
    exact h0.trans (h₁.directoryMeta hb hf)
  entry {g} hg hlt s := (h₂.entry hg (hlt.trans_le h₁.size_le) s).trans (h₁.entry hg hlt s)

lemma sameKnown (hC : Collapsed P R h G f h' G' new) (hs : SameKnown h' h'' G') :
    Collapsed P R h G f h'' G' new where
  heap := hC.heap.sameKnown hs
  size_le := hs.size.symm ▸ hC.size_le
  isLeaf b hb := (hs.isLeaf b).trans (hC.isLeaf b hb)
  fam := hC.fam
  known {b} hb hf := ⟨hs.size.symm ▸ (hC.known hb hf).1, (hC.known hb hf).2⟩
  new_fam {b} hb := hC.new_fam ⟨hs.size ▸ hb.1, hb.2⟩
  directoryMeta {b} hb hf := by
    have h0 := hC.known hb hf
    have h1 := (hC.heap.tree.top_spec h0).1
    rw [hC.fam b hb.1] at h1
    rw [hs.node _ (hC.heap.tree.known h1).2]
    exact hC.directoryMeta hb hf
  entry {g} hg hlt s := (entry_sameKnown hC.heap hs g s).trans (hC.entry hg hlt s)

lemma forget (hI : HeapInv P R h G) (f : Ptr) :
    Collapsed P R h G f h (G.forget f h.size) (· = f) where
  heap := hI.forget f
  size_le := le_rfl
  isLeaf _ _ := rfl
  fam _ _ := rfl
  known hb hf := ⟨hb.1, fun h0 => h0.elim hb.2 fun h1 => hf h1.2.1⟩
  new_fam {b} hb := (eq_or_ne (G.fam b) f).imp id fun h0 =>
    ⟨b, ⟨hb.1, fun h1 => hb.2 (Or.inl h1)⟩, h0, rfl⟩
  directoryMeta _ _ := rfl
  entry _ _ _ := Iff.rfl

lemma dropLayer (hI : HeapInv P R h G) (f : Ptr) :
    Collapsed P R h G f h (G.dropLayer f h.size) (fun _ => False) where
  heap := hI.dropLayer f
  size_le := le_rfl
  isLeaf _ _ := rfl
  fam _ _ := rfl
  known hb hf := ⟨hb.1, fun h0 => h0.elim hb.2 fun h1 => hf h1.2⟩
  new_fam {b} hb := Or.inr ⟨b, ⟨hb.1, fun h1 => hb.2 (Or.inl h1)⟩,
    fun h0 => hb.2 (Or.inr ⟨hb.1, h0⟩), rfl⟩
  directoryMeta _ _ := rfl
  entry {g} hg _ s := by
    rw [entry_dropLayer]
    exact and_iff_right hg

/-- A new layer in the place of layer `f`. -/
lemma replace (hI : HeapInv P R h G) {l : Leaf β} (hl : l.Fresh P R) (f : Ptr) :
    Collapsed P R h G f (h.alloc (.leaf l)) ((G.alloc h.size).dropLayer f (h.size + 1))
      (· = h.size) where
  heap := (hI.alloc_leaf hl).dropLayer f
  size_le := Nat.le_succ _
  isLeaf b hb := by rw [node_alloc_leaf hb]
  fam b hb := if_neg hb.ne
  known {b} hb hbf := by
    have hfam : (G.alloc h.size).fam b = G.fam b := if_neg hb.1.ne
    refine ⟨Nat.lt_succ_of_lt hb.1, fun h0 => h0.elim hb.2 fun h1 => hbf ?_⟩
    rw [← hfam]
    exact h1.2
  new_fam {b} hb := by
    by_cases hbs : b = h.size
    · exact Or.inl (if_pos hbs)
    · have hlt : b < h.size := lt_of_le_of_ne (Nat.lt_succ_iff.mp hb.1) hbs
      have hfam : (G.alloc h.size).fam b = G.fam b := if_neg hbs
      exact Or.inr ⟨b, ⟨hlt, fun h0 => hb.2 (Or.inl h0)⟩,
        fun h0 => hb.2 (Or.inr ⟨hb.1, hfam.trans h0⟩), hfam⟩
  directoryMeta {b} hb _ := by
    have h1 := hI.tree.live_lt (hI.tree.fam_spec hb).1
    have h2 := hI.tree.live_lt (hI.tree.top_spec hb).1
    have htop : (G.alloc h.size).top (G.fam b) = G.top (G.fam b) := if_neg h1.ne
    change (_ : Node β).directoryMeta = _
    rw [show ((G.alloc h.size).dropLayer f (h.size + 1)).top (G.fam b) = G.top (G.fam b) from htop,
      node_alloc_leaf h2]
  entry {g} hg hlt s := by
    rw [entry_dropLayer, entry_alloc_leaf hI.tree.live_lt, and_iff_right hg]
    exact or_iff_right fun h0 => hlt.ne h0.1

lemma promote (hI : HeapInv P R h G) {c : Ptr} {n : Internode} (ha : G.live a)
    (hn : h.node a = .internode n) (hk : n.keys = []) (hc : n.children = [some c])
    (hp : n.parent = none) (hall : ∀ b, G.Known h b → G.fam b = G.fam a → G.live b)
    (hP : Promoted h h' a c n) :
    Collapsed P R h G (G.fam a) h' (G.promote a c) (· = G.fam a) where
  heap := hI.promote ha hn hk hc hp hall hP
  size_le := hP.size.ge
  isLeaf b _ := by
    rw [hP.node]
    split_ifs with h1 h2
    · rw [h1, hn]; rfl
    · rw [h2, Node.isLeaf_makeLayerRoot]
    · rfl
  fam _ _ := rfl
  known {b} hb hbf := ⟨hP.size.symm ▸ hb.1, fun h0 => h0.elim hb.2 fun h1 => hbf (by rw [h1])⟩
  new_fam {b} hb := (eq_or_ne (G.fam b) (G.fam a)).imp id fun h0 =>
    ⟨b, ⟨hP.size ▸ hb.1, fun h1 => hb.2 (Or.inl h1)⟩, h0, rfl⟩
  directoryMeta {b} hb hbf := by
    obtain ⟨-, -, h3, -⟩ := hI.tree.top_spec hb
    obtain ⟨-, -, hcf, -⟩ := hI.tree.only_child ha hn hk hc hp
    have hta : G.top (G.fam b) ≠ a := fun h0 => hbf (by rw [← h3, h0])
    have htc : G.top (G.fam b) ≠ c := fun h0 => hbf (by rw [← h3, h0, hcf])
    have htop : (G.promote a c).top (G.fam b) = G.top (G.fam b) := if_neg hbf
    rw [htop, hP.node, if_neg hta, if_neg htc]
  entry {g} _ _ s := entry_promote hn hP g s

lemma copyRoot (hI : HeapInv P R h G) {c : Ptr} {n : Internode} (m : DirectoryMeta)
    (hc : G.live c) (hn : h.node c = .internode n) (hp : n.parent = none)
    (hall : ∀ b, G.Known h b → G.fam b = G.fam c → G.live b) :
    Collapsed P R h G (G.fam c) (h.copyRoot m n) (G.copyRoot c h.size) (· = G.fam c) where
  heap := hI.copyRoot m hc hn hp hall
  size_le := Nat.le_succ _
  isLeaf b hb := by
    simp only [Heap.copyRoot, Heap.node_setParents, Heap.node_alloc, if_neg hb.ne]
    split_ifs <;> simp
  fam b hb := if_neg hb.ne
  known {b} hb hbf := ⟨Nat.lt_succ_of_lt hb.1, fun h0 => h0.elim hb.2 fun h1 => hbf (by rw [h1])⟩
  new_fam {b} hb := by
    by_cases hbs : b = h.size
    · exact Or.inl (if_pos hbs)
    · have hlt : b < h.size := lt_of_le_of_ne (Nat.lt_succ_iff.mp hb.1) hbs
      have hfam : (G.copyRoot c h.size).fam b = G.fam b := if_neg hbs
      exact (eq_or_ne (G.fam b) (G.fam c)).imp (fun h0 => hfam.trans h0) fun h0 =>
        ⟨b, ⟨hlt, fun h1 => hb.2 (Or.inl h1)⟩, h0, hfam⟩
  directoryMeta {b} hb hbf := by
    have h2 := hI.tree.live_lt (hI.tree.top_spec hb).1
    have htop : (G.copyRoot c h.size).top (G.fam b) = G.top (G.fam b) := if_neg hbf
    rw [htop]
    simp only [Heap.copyRoot, Heap.node_setParents, Heap.node_alloc, if_neg h2.ne]
    split_ifs <;> simp
  entry {g} _ _ s := entry_copyRoot m hI.tree hn g s

end Collapsed

/-- The layer is there, tidied up to what the loop could do. -/
structure KeptLayer (P : NodeParams) (R : Slot β → Slot β → Prop)
    (copy : Ptr → Leaf β → List (Slot β)) (h : Heap β) (G : Ghost) (f : Ptr) (r : GcRoot β)
    (G' : Ghost) : Prop where
  collapsed : Collapsed P R h G f r.heap G' (· = G'.fam r.layer)
  live : G'.live r.layer
  top : r.layer = G'.top (G'.fam r.layer)
  remove : r.remove = false
  info : ∀ m, (h.node (G.top f)).directoryMeta = some m →
    (r.heap.node r.layer).directoryMeta = some m
  items : (r.cloned = none ∧ G'.fam r.layer = f ∧ ∀ s, Entry r.heap G' f s ↔ Entry h G f s) ∨
    ∃ c l m, r.cloned = some c ∧ h.size ≤ G'.fam r.layer ∧ G.live c ∧ h.node c = .leaf l ∧
      (∀ s, Entry h G f s ↔ s ∈ l.entries) ∧
      r.heap.node r.layer = .leaf (l.cloneRootWithMeta m (copy c l)) ∧
      ∀ s, Entry r.heap G' (G'.fam r.layer) s ↔
        s ∈ (l.cloneRootWithMeta m (copy c l)).entries

/-- The layer has been removed. -/
structure DroppedLayer (P : NodeParams) (R : Slot β → Slot β → Prop) (h : Heap β) (G : Ghost)
    (f : Ptr) (r : GcRoot β) (G' : Ghost) : Prop where
  collapsed : Collapsed P R h G f r.heap G' (fun _ => False)
  remove : r.remove = true
  cloned : r.cloned = none
  empty : ∀ s, ¬ Entry h G f s
  info : (h.node (G.top f)).directoryMeta = none

omit [Inhabited β] in
/-- The copy of the child, made from the old root or from the child that took its place: the two
heaps differ at the nodes that have gone. -/
lemma sameKnown_copyRoot {h₁ : Heap β} {c : Ptr} {n nc : Internode} (m : DirectoryMeta)
    (hP : Promoted h h₁ a c n) (hnc : h.node c = .internode nc) (hca : c ≠ a) (has : a < h.size)
    (hcs : c < h.size) (hna : some a ∉ nc.children) (hcc : some c ∉ nc.children) (hga : G.gone a)
    (hgc : G.gone c)
    (hret : ∀ b, b = a ∨ b = c ∨ b ∈ h.retired → b < h.size + 1 ∧ ¬ G.live b) :
    SameKnown (h₁.copyRoot m { nc with parent := none, isRoot := true })
      ((((h.copyRoot m nc).setInternode a
        { n with isRoot := false, parent := some h.size }).retire c).retire a) G := by
  have hsize : h₁.size = h.size := hP.size
  have hn₁ : h₁.node c = .internode { nc with parent := none, isRoot := true } := by
    rw [hP.node, if_neg hca, if_pos rfl, hnc]
    rfl
  set h₂ := (((h.copyRoot m nc).setInternode a
    { n with isRoot := false, parent := some h.size }).retire c).retire a with hh₂
  set h₃ := h₁.copyRoot m { nc with parent := none, isRoot := true } with hh₃
  have hnode : ∀ b, b ≠ a → b ≠ c → h₂.node b = h₃.node b := by
    intro b hba hbc
    have h0 : h₁.node b = h.node b := by rw [hP.node, if_neg hba, if_neg hbc]
    simp only [hh₂, hh₃, Heap.copyRoot, Heap.node_retire, Heap.node_setInternode,
      Heap.node_setParents, Heap.node_alloc, if_neg hba, hsize, h0]
    rfl
  have hnode_a : h₂.node a = .internode { n with isRoot := false, parent := some h.size } := by
    simp [hh₂]
  have hold_a : h₃.node a = .internode { n with isRoot := false, parent := some c } := by
    simp only [hh₃, Heap.copyRoot, Heap.node_setParents, Heap.node_alloc, hsize, if_neg has.ne]
    rw [if_neg hna, hP.node, if_pos rfl]
  have hnode_c : h₂.node c = .internode nc := by
    simp only [hh₂, Heap.copyRoot, Heap.node_retire, Heap.node_setInternode, Heap.node_setParents,
      Heap.node_alloc, if_neg hca, if_neg hcs.ne, hnc, if_neg hcc]
  have hold_c : h₃.node c = .internode { nc with parent := none, isRoot := true } := by
    simp only [hh₃, Heap.copyRoot, Heap.node_setParents, Heap.node_alloc, hsize, if_neg hcs.ne]
    rw [if_neg hcc, hn₁]
  refine ⟨?_, ?_, ?_, ?_, ?_⟩
  · change h.size + 1 = h₁.size + 1
    rw [hsize]
  · exact fun b hb => hnode b (fun h0 => hb (h0 ▸ hga)) fun h0 => hb (h0 ▸ hgc)
  · intro b
    by_cases hba : b = a
    · rw [hba, hnode_a, hold_a]; rfl
    · by_cases hbc : b = c
      · rw [hbc, hnode_c, hold_c]; rfl
      · rw [hnode b hba hbc]
  · intro b
    by_cases hba : b = a
    · rw [hba, hnode_a, hold_a]; rfl
    · by_cases hbc : b = c
      · rw [hbc, hnode_c, hold_c]; rfl
      · rw [hnode b hba hbc]
  · intro b hb
    have hb : b = a ∨ b = c ∨ b ∈ h.retired := by simpa [hh₂, Heap.copyRoot] using hb
    exact (hret b hb).imp (fun h0 => h0.trans_eq (congrArg (· + 1) hsize.symm)) id

namespace Tidied

variable {n : Internode} {c : Ptr} (hT : Tidied P R h G f h' G' a)

include hT

/-- Nothing to do. -/
lemma keep : KeptLayer P R copy h G f ⟨h', a, false, none⟩ G' := by
  refine ⟨?_, hT.live, ?_, rfl, hT.info, Or.inl ⟨rfl, hT.fam, hT.items⟩⟩
  · rw [hT.fam]
    exact hT.collapsed
  · rw [hT.fam]
    exact hT.top

/-- Forget what nothing leads to. -/
lemma forget : Tidied P R h G f h' (G'.forget f h'.size) a :=
  ⟨hT.collapsed.trans (.forget hT.collapsed.heap f), hT.live, hT.fam, hT.top, hT.rest, hT.items,
    hT.info⟩

omit hT [Inhabited β] in
lemma live_of_forget {b : Ptr} (hb : (G'.forget f h'.size).Known h' b)
    (hf : (G'.forget f h'.size).fam b = f) : (G'.forget f h'.size).live b := by
  by_contra h0
  exact hb.2 (Or.inr ⟨hb.1, hf, h0⟩)

/-- **A root without metadata gives way to its only child.** -/
lemma promote (hn : h'.node a = .internode n) (hk : n.keys = []) (hc : n.children = [some c])
    (hm : n.directoryMeta = none) :
    (h'.node c).height < n.height ∧ ∃ G'', Tidied P R h G f
      (((h'.set c (h'.node c).makeLayerRoot).setInternode a
        { n with isRoot := false, parent := some c }).retire a) G'' c := by
  have hp : n.parent = none := by simpa [hn] using hT.parent
  have hT₁ := hT.forget
  have hI₁ := hT₁.collapsed.heap
  obtain ⟨hcl, hca, hcf, -⟩ := hI₁.tree.only_child hT₁.live hn hk hc hp
  have hheight := (hT.collapsed.heap.tree.child_live hT.live hn (c := c) (by simp [hc])).2.2.2
  rw [hn] at hheight
  have hP := promoted_self h' a c n
  have hall : ∀ b, (G'.forget f h'.size).Known h' b →
      (G'.forget f h'.size).fam b = (G'.forget f h'.size).fam a →
        (G'.forget f h'.size).live b := fun b hb hf => live_of_forget hb (hf.trans hT₁.fam)
  have hC := Collapsed.promote hI₁ hT₁.live hn hk hc hp hall hP
  rw [hT₁.fam] at hC
  refine ⟨hheight, _, hT₁.collapsed.trans hC, ⟨hcl, hca⟩, hcf.trans hT₁.fam, ?_, ?_, ?_, ?_⟩
  · exact (if_pos hT₁.fam.symm).symm
  · intro b hb
    refine ⟨(hT.rest b hb.1).1, fun hbc => ?_⟩
    rw [hP.node, if_neg hb.2, if_neg hbc]
    exact (hT.rest b hb.1).2 hb.2
  · exact fun s => (entry_promote hn hP f s).trans (hT₁.items s)
  · intro m h0
    have := hT.info m h0
    rw [hn] at this
    exact absurd (hm.symm.trans this) (by simp)

variable (copy) in
/-- **A root with metadata gives way to a copy of its only child**, an internode. -/
lemma copyRoot (hn : h'.node a = .internode n) (hk : n.keys = []) (hc : n.children = [some c])
    {nc : Internode} (hnc : h'.node c = .internode nc) {m : DirectoryMeta}
    (hm : n.directoryMeta = some m) :
    ∃ G'', KeptLayer P R copy h G f ⟨(((h'.copyRoot m nc).setInternode a
      { n with isRoot := false, parent := some h'.size }).retire c).retire a, h'.size, false,
        none⟩ G'' := by
  have hp : n.parent = none := by simpa [hn] using hT.parent
  have hT₁ := hT.forget
  have hI₁ := hT₁.collapsed.heap
  obtain ⟨hcl, hca, hcf, hcp, -⟩ := hI₁.tree.only_child hT₁.live hn hk hc hp
  have hall : ∀ b, (G'.forget f h'.size).Known h' b →
      (G'.forget f h'.size).fam b = (G'.forget f h'.size).fam a →
        (G'.forget f h'.size).live b := fun b hb hf => live_of_forget hb (hf.trans hT₁.fam)
  -- first the child itself becomes the root, and then its copy
  have hP := promoted_self h' a c n
  have hC := Collapsed.promote hI₁ hT₁.live hn hk hc hp hall hP
  set h₁ := ((h'.set c (h'.node c).makeLayerRoot).setInternode a
    { n with isRoot := false, parent := some c }).retire a with hh₁
  set G₁ := (G'.forget f h'.size).promote a c with hG₁
  set nc₁ : Internode := { nc with parent := none, isRoot := true } with hnc₁
  have hn₁ : h₁.node c = .internode nc₁ := by
    rw [hP.node, if_neg hca, if_pos rfl, hnc]
    rfl
  have hcf₁ : G₁.fam c = f := hcf.trans hT₁.fam
  have hall₁ : ∀ b, G₁.Known h₁ b → G₁.fam b = G₁.fam c → G₁.live b := by
    intro b hb hbf
    have hba : b ≠ a := fun h0 => hb.2 (Or.inr h0)
    exact ⟨live_of_forget ⟨hP.size ▸ hb.1, fun h0 => hb.2 (Or.inl h0)⟩ (hbf.trans hcf₁), hba⟩
  have hlive₁ : G₁.live c := ⟨hcl, hca⟩
  have hC₁ := Collapsed.copyRoot hC.heap m hlive₁ hn₁ rfl hall₁
  rw [hT₁.fam] at hC
  rw [hcf₁] at hC₁
  have hC₂ := hT₁.collapsed.trans (hC.trans hC₁)
  have hsize : h₁.size = h'.size := hP.size
  have hcs : c < h'.size := hT.collapsed.heap.tree.live_lt hcl
  have has : a < h'.size := hT.collapsed.heap.tree.live_lt hT.live
  have hnr : some a ∉ nc.children := by
    intro h0
    obtain ⟨-, h1, -⟩ := hT.collapsed.heap.tree.child_live hcl hnc h0
    rw [hn] at h1
    exact absurd (hp.symm.trans h1) (by simp)
  have hcc : some c ∉ nc.children := fun h0 =>
    lt_irrefl _ (hT.collapsed.heap.tree.child_live hcl hnc h0).2.2.2
  -- the two heaps differ at the nodes that nothing leads to
  set h₂ := (((h'.copyRoot m nc).setInternode a
    { n with isRoot := false, parent := some h'.size }).retire c).retire a with hh₂
  have hS : SameKnown (h₁.copyRoot m nc₁) h₂ (G₁.copyRoot c h₁.size) := by
    refine sameKnown_copyRoot m hP hnc hca has hcs hnr hcc (Or.inl (Or.inr rfl)) (Or.inr rfl) ?_
    intro b hb
    change b < h'.size + 1 ∧ ¬ (b = h₁.size ∨ (((G'.live b) ∧ b ≠ a) ∧ b ≠ c))
    rw [hsize]
    rcases hb with rfl | rfl | hb
    · exact ⟨has.trans (Nat.lt_succ_self _), fun h0 => h0.elim has.ne fun h1 => h1.1.2 rfl⟩
    · exact ⟨hcs.trans (Nat.lt_succ_self _), fun h0 => h0.elim hcs.ne fun h1 => h1.2 rfl⟩
    · obtain ⟨h1, h2⟩ := hT.collapsed.heap.tree.retired_dead hb
      exact ⟨h1.trans (Nat.lt_succ_self _), fun h0 => h0.elim h1.ne fun h1 => h2 h1.1.1⟩
  have hfam : (G₁.copyRoot c h₁.size).fam h'.size = f := by
    rw [← hsize]
    exact (if_pos rfl).trans hcf₁
  have hnew : h₂.node h'.size = .internode (nc.cloneRootWithMeta m) := by
    have hnot : some h'.size ∉ nc.children := fun h0 =>
      lt_irrefl _ (hT.collapsed.heap.tree.live_lt
        (hT.collapsed.heap.tree.child_live hcl hnc h0).1)
    simp only [hh₂, Heap.copyRoot, Heap.node_retire, Heap.node_setInternode, Heap.node_setParents,
      Heap.node_alloc, if_neg has.ne', if_neg hnot, if_true]
  refine ⟨G₁.copyRoot c h₁.size, ?_, ?_, ?_, rfl, ?_, Or.inl ⟨rfl, hfam, fun s => ?_⟩⟩
  · simp only [hfam]
    exact hC₂.sameKnown hS
  · exact Or.inl hsize.symm
  · simp only [hfam]
    exact hsize.symm.trans (if_pos hcf₁.symm).symm
  · intro m' h0
    have h1 := hT.info m' h0
    rw [hn] at h1
    simp only
    rw [hnew, ← h1]
    exact hm.symm
  · simp only
    rw [entry_sameKnown hC₁.heap hS, entry_copyRoot m hC.heap.tree hn₁, entry_promote hn hP]
    exact hT₁.items s

/-- **A root with metadata gives way to a copy of its only child**, a leaf. -/
lemma cloneLeaf (hR : Copies P R copy) (hn : h'.node a = .internode n) (hk : n.keys = [])
    (hc : n.children = [some c]) {lc : Leaf β} (hlc : h'.node c = .leaf lc) {m : DirectoryMeta}
    (hm : n.directoryMeta = some m) :
    lc.prev = none ∧ lc.next = none ∧ ∃ G'', KeptLayer P R copy h G f
      ⟨(((h'.alloc (.leaf (lc.cloneRootWithMeta m (copy c lc)))).setInternode a
        { n with isRoot := false, parent := some h'.size }).retire c).retire a, h'.size, false,
          some c⟩ G'' := by
  have hI := hT.collapsed.heap
  have hp : n.parent = none := by simpa [hn] using hT.parent
  obtain ⟨hcl, hca, hcf, -, hlo, hhi, -⟩ := hI.tree.only_child hT.live hn hk hc hp
  obtain ⟨hold, hsame⟩ := hT.rest c hcl
  have hok := hI.leaves c { lc with parent := none } hcl (by rw [hlc]; rfl)
  obtain ⟨hprev, hnext, hwhole⟩ := hI.whole_leaf hcl hlc hlo hhi
  refine ⟨hprev, hnext, ?_⟩
  obtain ⟨hlen, hsorted, hikey⟩ := hR c lc m hok.perm hok.slots hok.sorted
  set lr := lc.cloneRootWithMeta m (copy c lc) with hlr
  have hfresh : lr.Fresh P R := by
    refine ⟨rfl, rfl, hnext, hprev, rfl, hok.modstate, hok.perm, hlen, hsorted, ?_⟩
    intro s hs
    have h0 : s.ikey ∈ lc.entries.map Slot.ikey := hikey ▸ List.mem_map_of_mem hs
    obtain ⟨t, ht, hts⟩ := List.mem_map.mp h0
    rw [← hts, ← hhi]
    exact (hok.within t ht).2
  have hC := Collapsed.replace hI hfresh f
  set G₁ := (G'.alloc h'.size).dropLayer f (h'.size + 1) with hG₁
  set h₂ := (((h'.alloc (.leaf lr)).setInternode a
    { n with isRoot := false, parent := some h'.size }).retire c).retire a with hh₂
  have has : a < h'.size := hI.tree.live_lt hT.live
  have hcs : c < h'.size := hI.tree.live_lt hcl
  have hgone_a : G₁.gone a :=
    Or.inr ⟨Nat.lt_succ_of_lt has, (if_neg has.ne).trans hT.fam⟩
  have hS : SameKnown (h'.alloc (.leaf lr)) h₂ G₁ := by
    refine ⟨rfl, ?_, ?_, ?_, ?_⟩
    · intro b hb
      have hba : b ≠ a := fun h0 => hb (h0 ▸ hgone_a)
      simp only [hh₂, Heap.node_retire, Heap.node_setInternode, if_neg hba]
    · intro b
      simp only [hh₂, Heap.node_retire, Heap.node_setInternode]
      split_ifs with h0
      · rw [h0, node_alloc_leaf has, hn]; rfl
      · rfl
    · intro b
      simp only [hh₂, Heap.node_retire, Heap.node_setInternode]
      split_ifs with h0
      · rw [h0, node_alloc_leaf has, hn]; rfl
      · rfl
    · intro b hb
      have hb : b = a ∨ b = c ∨ b ∈ h'.retired := by simpa [hh₂] using hb
      change b < h'.size + 1 ∧ ¬ ((b = h'.size ∨ G'.live b) ∧ _ ≠ f)
      rcases hb with rfl | rfl | hb
      · exact ⟨Nat.lt_succ_of_lt has, fun h0 => h0.2 ((if_neg has.ne).trans hT.fam)⟩
      · exact ⟨Nat.lt_succ_of_lt hcs,
          fun h0 => h0.2 ((if_neg hcs.ne).trans (hcf.trans hT.fam))⟩
      · obtain ⟨h1, h2⟩ := hI.tree.retired_dead hb
        exact ⟨Nat.lt_succ_of_lt h1, fun h0 => h0.1.elim h1.ne h2⟩
  have hnew : h₂.node h'.size = .leaf lr := by
    simp only [hh₂, Heap.node_retire, Heap.node_setInternode, if_neg has.ne', Heap.node_alloc,
      if_true]
  have hfam : G₁.fam h'.size = h'.size := if_pos rfl
  have hsf : h'.size ≠ f := by
    rw [← hT.fam]
    exact (hI.tree.live_lt (hI.tree.fam_spec (hI.tree.known hT.live)).1).ne'
  have hitems : ∀ s, Entry h G f s ↔ s ∈ lc.entries := by
    rw [hcf, hT.fam] at hwhole
    exact fun s => (hT.items s).symm.trans (hwhole s)
  refine ⟨G₁, ?_, ?_, ?_, rfl, ?_, Or.inr ⟨c, lc, m, rfl, ?_, hold,
    (hsame hca).symm.trans hlc, hitems, hnew, fun s => ?_⟩⟩
  · simp only [hfam]
    exact (hT.collapsed.trans hC).sameKnown hS
  · exact ⟨Or.inl rfl, fun h0 => hsf (hfam.symm.trans h0)⟩
  · simp only [hfam]
    exact (if_pos rfl : (G'.alloc h'.size).top h'.size = h'.size).symm
  · intro m' h0
    have h1 := hT.info m' h0
    rw [hn] at h1
    simp only
    rw [hnew, ← h1]
    exact hm.symm
  · rw [hfam]
    exact hT.collapsed.size_le
  · simp only [hfam]
    rw [entry_sameKnown hC.heap hS, entry_dropLayer, entry_alloc_leaf hI.tree.live_lt]
    constructor
    · rintro ⟨-, h0 | ⟨b, lb, h1, h2, h3, h4⟩⟩
      · exact h0.2
      · have h5 := hI.tree.live_lt (hI.tree.fam_spec (hI.tree.known h1)).1
        exact absurd h2 h5.ne
    · exact fun h0 => ⟨hsf, Or.inl ⟨rfl, h0⟩⟩

/-- **An empty layer without metadata is removed.** -/
lemma drop {l : Leaf β} (hn : h'.node a = .leaf l) (hsize : l.size = 0)
    (hm : l.directoryMeta = none) :
    ∃ G'', DroppedLayer P R h G f
      ⟨(h'.set a (.leaf { l with modstate := .deletedLayer })).retire a, a, true, none⟩ G'' := by
  have hI := hT.collapsed.heap
  have has : a < h'.size := hI.tree.live_lt hT.live
  have hok := hI.leaves a { l with parent := none } hT.live (by rw [hn]; rfl)
  have hC := Collapsed.dropLayer hI f
  have hS : SameKnown h' ((h'.set a (.leaf { l with modstate := .deletedLayer })).retire a)
      (G'.dropLayer f h'.size) := by
    refine ⟨rfl, ?_, ?_, ?_, ?_⟩
    · intro b hb
      have hba : b ≠ a := fun h0 => hb (Or.inr ⟨h0 ▸ has, h0 ▸ hT.fam⟩)
      simp only [Heap.node_retire, Heap.node_set, if_neg hba]
    · intro b
      simp only [Heap.node_retire, Heap.node_set]
      split_ifs with h0
      · rw [h0, hn]; rfl
      · rfl
    · intro b
      simp only [Heap.node_retire, Heap.node_set]
      split_ifs with h0
      · rw [h0, hn]; rfl
      · rfl
    · intro b hb
      have hb : b = a ∨ b ∈ h'.retired := by simpa using hb
      rcases hb with rfl | hb
      · exact ⟨has, fun h0 => h0.2 hT.fam⟩
      · exact ⟨(hI.tree.retired_dead hb).1, fun h0 => (hI.tree.retired_dead hb).2 h0.1⟩
  refine ⟨_, (hT.collapsed.trans hC).sameKnown hS, rfl, rfl, fun s hs => ?_, ?_⟩
  · obtain ⟨-, -, -, -, hitems⟩ := hT.root_leaf hn
    have h0 : l.entries = [] := List.eq_nil_of_length_eq_zero
      ((Leaf.entries_length hok.perm).trans hsize)
    rw [hitems, h0] at hs
    cases hs
  · cases h0 : (h.node (G.top f)).directoryMeta with
    | none => rfl
    | some m =>
        have h1 := hT.info m h0
        rw [hn] at h1
        exact absurd (hm.symm.trans h1) (by simp)

/-- A root with one separator has two children, and the first is not the only leaf. -/
lemma shiftOnlyChild_eq (hn : h'.node a = .internode n) :
    shiftOnlyChild h' a n = none ∨
      (n.keys ≠ [] → 1 < n.size) ∧ shiftOnlyChild h' a n = some (h', n) := by
  have hI := hT.collapsed.heap
  have hlink := hI.tree.link hT.live hn
  rw [shiftOnlyChild]
  by_cases h1 : n.size = 1
  swap
  · refine Or.inr ⟨fun h0 => ?_, if_neg h1⟩
    have := List.length_pos_of_ne_nil h0
    change 1 < n.keys.length
    change n.keys.length ≠ 1 at h1
    omega
  left
  obtain ⟨k, hk⟩ : ∃ k, n.keys = [k] := List.length_eq_one_iff.mp h1
  have hlen := hlink.length
  rw [hk] at hlen
  obtain ⟨o₀, o₁, hch⟩ := List.length_eq_two.mp hlen
  have hsegs := hlink.segs
  rw [hk, hch] at hsegs
  -- neither child is null: a root has nothing to its left
  obtain ⟨c₀, rfl⟩ : ∃ c₀, o₀ = some c₀ := by
    cases o₀ with
    | none =>
        have := (hlink.head (by simp [Internode.child, hch])).2
        rw [hT.range.1] at this
        exact absurd this (lt_irrefl 0)
    | some c₀ => exact ⟨c₀, rfl⟩
  obtain ⟨c₁, rfl⟩ : ∃ c₁, o₁ = some c₁ := by
    cases o₁ with
    | none => exact absurd rfl (hlink.tail none (by simp [hch]))
    | some c₁ => exact ⟨c₁, rfl⟩
  have h0 : n.child 0 = some c₀ := by simp [Internode.child, hch]
  have h2 : n.child 1 = some c₁ := by simp [Internode.child, hch]
  rw [if_pos h1, h0, h2]
  simp only
  cases hl : h'.node c₀ with
  | internode i => rfl
  | leaf l =>
      simp only
      rw [if_neg]
      rintro ⟨-, -, hnext⟩
      have hs := hsegs (G'.lo a, some c₀, k) (by simp)
      have hlive : G'.live c₀ := hs.1.resolve_right id
      have hlast := (hI.chain c₀ { l with parent := none } hlive (by rw [hl]; rfl)).next_none hnext
      have hs₁ := hsegs (k, some c₁, G'.hi a) (by simp)
      have hk1 : G'.hi c₀ = k := hs.2.2.2.2.1
      have hk2 : k < G'.hi a := hs₁.2.2.2.2.2
      rw [hT.range.2] at hk2
      omega

end Tidied

/-- **What the loop makes of a root.** -/
lemma gcRoot_top (hR : Copies P R copy) : ∀ (fuel : ℕ) {h' : Heap β} {G' : Ghost} {a : Ptr},
    Tidied P R h G f h' G' a → (h'.node a).height < fuel →
    ∃ r G'', gcRoot copy fuel h' a = some r ∧
      (KeptLayer P R copy h G f r G'' ∨ DroppedLayer P R h G f r G'')
  | 0, _, _, _, _, hf => absurd hf (by omega)
  | fuel + 1, h', G', a, hT, hf => by
      have hkeep : ∃ r G'', some (⟨h', a, false, none⟩ : GcRoot β) = some r ∧
          (KeptLayer P R copy h G f r G'' ∨ DroppedLayer P R h G f r G'') :=
        ⟨_, G', rfl, Or.inl hT.keep⟩
      have hroot := hT.isRoot
      rw [gcRoot]
      cases hn : h'.node a with
      | leaf l =>
          rw [hn] at hroot
          change l.isRoot = true at hroot
          simp only
          rw [if_neg (by simp [hroot])]
          split_ifs with h0
          · exact hkeep
          · rw [not_or, not_lt, Nat.le_zero, not_not] at h0
            obtain ⟨G'', hD⟩ := hT.drop hn h0.1 h0.2
            exact ⟨_, G'', rfl, Or.inr hD⟩
      | internode n =>
          rw [hn] at hroot hf
          change n.isRoot = true at hroot
          simp only [hroot, Bool.true_eq_false, if_false]
          split_ifs with h1
          · exact hkeep
          · rcases hT.shiftOnlyChild_eq hn with h2 | ⟨h2, h3⟩
            · rw [h2]
              exact hkeep
            · rw [h3]
              simp only
              have hk : n.keys = [] := by
                by_contra h4
                exact h1 (h2 h4)
              have hlink := hT.collapsed.heap.tree.link hT.live hn
              have hlen := hlink.length
              rw [hk] at hlen
              obtain ⟨o, hch⟩ := List.length_eq_one_iff.mp hlen
              cases o with
              | none => exact absurd hk (hlink.head (by simp [Internode.child, hch])).1
              | some c =>
                  have hchild : n.child 0 = some c := by simp [Internode.child, hch]
                  rw [hchild]
                  simp only
                  cases hm : n.directoryMeta with
                  | none =>
                      obtain ⟨hlt, G'', hT'⟩ := hT.promote hn hk hch hm
                      rw [hm] at hT'
                      simp only
                      refine gcRoot_top hR fuel hT' ?_
                      have hca : c ≠ a := by
                        rintro rfl
                        rw [hn] at hlt
                        exact lt_irrefl _ hlt
                      simp only [Heap.node_retire, Heap.node_setInternode,
                        if_neg hca, Heap.node_set, if_true, Node.height_makeLayerRoot]
                      exact hlt.trans_le (Nat.lt_succ_iff.mp hf)
                  | some m =>
                      cases hc : h'.node c with
                      | leaf lc =>
                          obtain ⟨hprev, hnext, G'', hK⟩ := hT.cloneLeaf hR hn hk hch hc hm
                          simp only [hprev, hnext, ne_eq, not_true_eq_false, or_self, if_false]
                          rw [hm] at hK
                          exact ⟨_, G'', rfl, Or.inl hK⟩
                      | internode nc =>
                          obtain ⟨G'', hK⟩ := hT.copyRoot copy hn hk hch hc hm
                          rw [hm] at hK
                          exact ⟨_, G'', rfl, Or.inl hK⟩

variable (copy) in
omit [Inhabited β] in
/-- The loop climbs to the root first. -/
lemma gcRoot_climb (hT : TreeInv h G G.exact) : ∀ (k : ℕ) {a : Ptr}, G.Known h a →
    (h.node a).startable → h.size ≤ (h.node a).height + k → ∃ j ≤ k, ∀ fuel,
      gcRoot copy (fuel + j) h a = gcRoot copy fuel h (G.top (G.fam a))
  | 0, a, ha, _, hk => absurd (hT.height_lt ha.1) (by omega)
  | k + 1, a, ha, hs, hk => by
      have hbit := hT.root_bit ha id hs
      cases hr : (h.node a).isRoot with
      | true =>
          refine ⟨0, Nat.zero_le _, fun fuel => ?_⟩
          rw [← hT.top_eq ha id (hbit.1 hr)]
          rfl
      | false =>
          cases hp : (h.node a).parent with
          | none => exact absurd (hbit.2 hp id) (by simp [hr])
          | some p =>
              obtain ⟨hps, hfam, hh, hint⟩ := hT.up ha hp
              obtain ⟨j, hj, heq⟩ := gcRoot_climb hT k hps (Node.startable_of_internode hint)
                (by omega)
              refine ⟨j + 1, by omega, fun fuel => ?_⟩
              rw [← hfam, ← heq fuel, ← Nat.add_assoc, gcRoot]
              cases hn : h.node a with
              | leaf l =>
                  rw [hn] at hr hp
                  change l.isRoot = false at hr
                  change l.parent = some p at hp
                  simp only [hr, if_true, hp, Option.getD_some]
              | internode n =>
                  rw [hn] at hr hp
                  change n.isRoot = false at hr
                  change n.parent = some p at hp
                  simp only [hr, if_true, hp, Option.getD_some]

/-- **`gc_layer` on the nodes of a layer**, from any pointer into it. -/
theorem gcRoot_spec (hR : Copies P R copy) (hI : HeapInv P R h G) (ha : G.Known h a)
    (hs : (h.node a).startable) :
    ∃ r G', gcRoot copy (2 * h.size + 2) h a = some r ∧
      (KeptLayer P R copy h G (G.fam a) r G' ∨ DroppedLayer P R h G (G.fam a) r G') := by
  obtain ⟨j, hj, heq⟩ := gcRoot_climb copy hI.tree h.size ha hs (by omega)
  have htop := hI.tree.height_lt (hI.tree.live_lt (hI.tree.top_spec ha).1)
  obtain ⟨r, G', h1, h2⟩ := gcRoot_top hR (2 * h.size + 2 - j) (Tidied.refl hI ha) (by omega)
  refine ⟨r, G', ?_, h2⟩
  rw [← h1, ← heq, Nat.sub_add_cancel (by omega)]

end Loop

end MasstreeLHM
