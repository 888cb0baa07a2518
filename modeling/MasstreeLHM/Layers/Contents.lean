import MasstreeLHM.Cursor
import MasstreeLHM.Layers.GcRoot

/-!
# What an operation leaves in the leaves

Linking a split, unlinking a leaf and tidying a root rearrange the nodes of a layer, but they do not
look into the leaves: whatever the heap is like, a leaf that is there afterwards has the permutation
and the slots it had before, and no metadata comes from nowhere.

`ContentsFrom` is this relation between two heaps.  It asks nothing of the first one, no invariant
and no ghost, so it can be followed through the code statement by statement: there is a lemma for
each kind of write (`ContentsFrom.set`, `setParent`, `setInternode`, `alloc_internode`, `setLeaf`),
and the loops are by induction on their fuel.

**`linkSplit`**, **`ascend`**, **`removeLeaf`** and **`gcRoot`** are the results.  The last one is
for a table without metadata, where no leaf is copied.
-/

namespace MasstreeLHM

variable {β : Type} {h₀ h h' : Heap β} {a : Ptr}

/-- The metadata record is that of some node. -/
def FromHeap (h : Heap β) (m : Option DirectoryMeta) : Prop :=
  m = none ∨ ∃ b, m = (h.node b).directoryMeta

/-- The leaves and the metadata of `h'` are those of `h`, up to leaves that hold nothing. -/
structure ContentsFrom (h h' : Heap β) : Prop where
  leaf : ∀ a l', h'.node a = .leaf l' → l'.permutation.live = [] ∨
    ∃ l, h.node a = .leaf l ∧ l'.permutation = l.permutation ∧ l'.slots = l.slots
  info : ∀ a, FromHeap h (h'.node a).directoryMeta

lemma fromHeap_internode (h : Heap β) (a : Ptr) : FromHeap h (h.internode a).directoryMeta := by
  rw [Heap.internode]
  cases hn : h.node a with
  | leaf l => exact Or.inl rfl
  | internode n => exact Or.inr ⟨a, by rw [hn]; rfl⟩

namespace ContentsFrom

lemma refl (h : Heap β) : ContentsFrom h h :=
  ⟨fun _ l hl => Or.inr ⟨l, hl, rfl, rfl⟩, fun a => Or.inr ⟨a, rfl⟩⟩

section

variable (hc : ContentsFrom h₀ h)
include hc

lemma fromHeap {m : Option DirectoryMeta} (hm : FromHeap h m) : FromHeap h₀ m := by
  rcases hm with rfl | ⟨b, rfl⟩
  · exact Or.inl rfl
  · exact hc.info b

lemma internode (a : Ptr) : FromHeap h₀ (h.internode a).directoryMeta :=
  hc.fromHeap (fromHeap_internode h a)

/-- A change of one node. -/
lemma set (a : Ptr) {n : Node β} (hm : FromHeap h₀ n.directoryMeta)
    (hn : ∀ l', n = .leaf l' → l'.permutation.live = [] ∨
      ∃ l, h.node a = .leaf l ∧ l'.permutation = l.permutation ∧ l'.slots = l.slots) :
    ContentsFrom h₀ (h.set a n) := by
  refine ⟨fun b l hl => ?_, fun b => ?_⟩
  · rw [Heap.node_set] at hl
    split_ifs at hl with hb
    · rcases hn l hl with h0 | ⟨l', hl', e1, e2⟩
      · exact Or.inl h0
      · rw [hb]
        rcases hc.leaf a l' hl' with h0 | ⟨l₀, hl₀, e3, e4⟩
        · exact Or.inl (by rw [e1]; exact h0)
        · exact Or.inr ⟨l₀, hl₀, e1.trans e3, e2.trans e4⟩
    · exact hc.leaf b l hl
  · rw [Heap.node_set]
    split_ifs
    · exact hm
    · exact hc.info b

lemma setParent (a : Ptr) (p : Option Ptr) : ContentsFrom h₀ (h.setParent a p) := by
  refine hc.set a (by rw [Node.directoryMeta_setParent]; exact hc.info a) fun l' hl' => ?_
  cases hn : h.node a with
  | leaf l =>
      rw [hn] at hl'
      cases hl'
      exact Or.inr ⟨l, rfl, rfl, rfl⟩
  | internode n =>
      rw [hn] at hl'
      cases hl'

lemma adopt (c : Option Ptr) (p : Ptr) : ContentsFrom h₀ (h.adopt c p) := by
  cases c with
  | none => exact hc
  | some c => exact hc.setParent c _

lemma setParents (cs : List (Option Ptr)) (p : Ptr) : ContentsFrom h₀ (h.setParents cs p) := by
  have key : ∀ b, (h.setParents cs p).node b = (h.setParent b (some p)).node b ∨
      (h.setParents cs p).node b = h.node b := by
    intro b
    rw [Heap.node_setParents, Heap.node_setParent, if_pos rfl]
    split_ifs
    · exact Or.inl rfl
    · exact Or.inr rfl
  refine ⟨fun b l hl => ?_, fun b => ?_⟩
  · rcases key b with h0 | h0
    · exact (hc.setParent b (some p)).leaf b l (h0 ▸ hl)
    · exact hc.leaf b l (h0 ▸ hl)
  · rcases key b with h0 | h0
    · rw [h0]
      exact (hc.setParent b (some p)).info b
    · rw [h0]
      exact hc.info b

lemma setInternode (a : Ptr) {n : Internode} (hn : FromHeap h₀ n.directoryMeta) :
    ContentsFrom h₀ (h.setInternode a n) :=
  hc.set a hn fun _ h0 => by cases h0

lemma alloc_internode {n : Internode} (hn : FromHeap h₀ n.directoryMeta) :
    ContentsFrom h₀ (h.alloc (.internode n)) := by
  have hs := hc.set h.size (n := .internode n) hn fun _ h0 => by cases h0
  exact ⟨hs.leaf, hs.info⟩

lemma retire (a : Ptr) : ContentsFrom h₀ (h.retire a) := ⟨hc.leaf, hc.info⟩

lemma markDeleted (a : Ptr) : ContentsFrom h₀ (h.set a (h.node a).markDeleted) := by
  have hm := hc.info a
  cases hn : h.node a with
  | leaf l =>
      rw [hn] at hm
      refine hc.set a hm fun l' hl' => ?_
      cases hl'
      exact Or.inr ⟨l, hn, rfl, rfl⟩
  | internode n =>
      rw [hn] at hm
      exact hc.set a hm fun _ h0 => by cases h0

lemma makeLayerRoot (a : Ptr) : ContentsFrom h₀ (h.set a (h.node a).makeLayerRoot) := by
  have hm := hc.info a
  cases hn : h.node a with
  | leaf l =>
      rw [hn] at hm
      refine hc.set a hm fun l' hl' => ?_
      cases hl'
      exact Or.inr ⟨l, hn, rfl, rfl⟩
  | internode n =>
      rw [hn] at hm
      exact hc.set a hm fun _ h0 => by cases h0

end

section Leaves

variable [Inhabited β] (hc : ContentsFrom h₀ h)
include hc

/-- A leaf that keeps its permutation, its slots and its metadata. -/
lemma setLeaf (a : Ptr) {l : Leaf β} (hp : l.permutation = (h.leaf a).permutation)
    (hs : l.slots = (h.leaf a).slots) (hm : l.directoryMeta = (h.leaf a).directoryMeta) :
    ContentsFrom h₀ (h.setLeaf a l) := by
  have hi := hc.info a
  rw [Heap.leaf] at hp hs hm
  cases hn : h.node a with
  | leaf l₀ =>
      rw [hn] at hp hs hm hi
      refine hc.set a (by rw [Node.directoryMeta_leaf, hm]; exact hi) fun l' hl' => ?_
      cases hl'
      exact Or.inr ⟨l₀, hn, hp, hs⟩
  | internode n =>
      rw [hn] at hp hs hm
      refine hc.set a (Or.inl hm) fun l' hl' => ?_
      cases hl'
      exact Or.inl (by rw [hp]; rfl)

omit [Inhabited β] in
/-- The same leaf put in the place of another one. -/
lemma setLeaf_both (a : Ptr) {l : Leaf β} (hm : l.directoryMeta = (h₀.node a).directoryMeta) :
    ContentsFrom (h₀.setLeaf a l) (h.setLeaf a l) := by
  have hinfo : ∀ {m}, FromHeap h₀ m → FromHeap (h₀.setLeaf a l) m := by
    rintro m (rfl | ⟨b, rfl⟩)
    · exact Or.inl rfl
    · refine Or.inr ⟨b, ?_⟩
      rw [Heap.node_setLeaf]
      split_ifs with hb
      · rw [hb, ← hm]
        rfl
      · rfl
  refine ⟨fun b l' hl' => ?_, fun b => ?_⟩
  · rw [Heap.node_setLeaf] at hl' ⊢
    split_ifs at hl' ⊢ with hb
    · exact Or.inr ⟨l', hl', rfl, rfl⟩
    · exact hc.leaf b l' hl'
  · rw [Heap.node_setLeaf]
    split_ifs
    · exact hinfo (by rw [Node.directoryMeta_leaf, hm]; exact Or.inr ⟨a, rfl⟩)
    · exact hinfo (hc.info b)

lemma setPrev (a p : Option Ptr) : ContentsFrom h₀ (h.setPrev a p) := by
  cases a with
  | none => exact hc
  | some a => exact hc.setLeaf a rfl rfl rfl

lemma unlinkLeaf (n : Ptr) : ContentsFrom h₀ (unlinkLeaf h n) := by
  rw [MasstreeLHM.unlinkLeaf]
  have hc' := hc.setPrev (h.leaf n).next (h.leaf n).prev
  simp only
  split
  · exact hc'
  · refine hc'.setLeaf _ ?_ ?_ ?_ <;> rfl

end Leaves

/-! ## Linking a split -/

/-- **One round of `make_split`** leaves the leaves alone. -/
lemma linkSplit (P : NodeParams) (hc : ContentsFrom h₀ h) (s : Pending) (height t : ℕ) :
    ContentsFrom h₀ (linkSplit P h s height t).1 := by
  rw [MasstreeLHM.linkSplit]
  cases (h.node s.n).parent with
  | none => exact ((hc.alloc_internode (hc.info s.n)).setParent _ _).setParent _ _
  | some p =>
      have hip := hc.internode p
      simp only
      split_ifs
      · refine (((hc.alloc_internode ?_).setInternode p ?_).setParent _ _).setParent _ _
        · exact Or.inl rfl
        · exact hip
      · split
        · refine (((hc.alloc_internode ?_).setParents _ _).setInternode p ?_).setParent _ _
          · exact Or.inl rfl
          · exact hip
        · refine ((hc.alloc_internode ?_).setParents _ _).setInternode p ?_
          · exact Or.inl rfl
          · exact hip
      · refine (hc.setInternode p ?_).setParent _ _
        exact hip

/-- **The loop of `make_split`** leaves the leaves alone. -/
lemma ascend (P : NodeParams) (t : ℕ) : ∀ (fuel height : ℕ) {h : Heap β} {s : Pending},
    ContentsFrom h₀ h → ascend P t fuel height h s = some h' → ContentsFrom h₀ h'
  | 0, _, _, _, _, he => by cases he
  | fuel + 1, height, h, s, hc, he => by
      have hl := hc.linkSplit P s height t
      rw [MasstreeLHM.ascend] at he
      split at he
      · next h₁ h1 =>
          rw [h1] at hl
          cases he
          exact hl
      · next h₁ s₁ h1 =>
          rw [h1] at hl
          exact ascend P t fuel (height + 1) hl he

/-! ## Unlinking a leaf -/

lemma redirect (ikey replacement : ℕ) : ∀ (fuel : ℕ) {h : Heap β} {n : Ptr},
    ContentsFrom h₀ h → redirect ikey replacement fuel h n = some h' → ContentsFrom h₀ h'
  | 0, _, _, _, he => by cases he
  | fuel + 1, h, n, hc, he => by
      rw [MasstreeLHM.redirect] at he
      split at he
      · cases he
      · next p hp =>
          have hs : ContentsFrom h₀ (if 0 < upper ikey (h.internode p).keys then
              h.setInternode p { h.internode p with
                keys := (h.internode p).keys.set (upper ikey (h.internode p).keys - 1) replacement }
              else h) := by
            split_ifs
            · exact hc.setInternode p (hc.internode p)
            · exact hc
          simp only at he
          by_cases hstop : upper ikey (h.internode p).keys = 0 ∨
              (upper ikey (h.internode p).keys = 1 ∧ (h.internode p).child 0 = none)
          · rw [if_pos hstop] at he
            exact redirect ikey replacement fuel hs he
          · rw [if_neg hstop] at he
            cases he
            exact hs

lemma unhook (ikey : ℕ) : ∀ (fuel : ℕ) {h : Heap β} {n : Ptr} {c : Option Ptr},
    ContentsFrom h₀ h → unhook ikey fuel h n c = some h' → ContentsFrom h₀ h'
  | 0, _, _, _, _, he => by cases he
  | fuel + 1, h, n, c, hc, he => by
      rw [MasstreeLHM.unhook] at he
      split at he
      · cases he
      · next p hp =>
          have hip : FromHeap h₀ ((h.internode p).replaceChild (upper ikey (h.internode p).keys)
              c).directoryMeta := by
            rw [Internode.replaceChild]
            split_ifs <;> exact hc.internode p
          have hs := (hc.setInternode p hip).adopt c p
          simp only at he
          split at he
          · cases he
          · next h₁ h1 =>
              have hs₁ : ContentsFrom h₀ h₁ := by
                split_ifs at h1
                · exact redirect _ _ _ hs h1
                · cases h1
                  exact hs
              split_ifs at he
              · cases he
                exact hs₁
              · refine unhook ikey fuel ((hs₁.setInternode p ?_).retire p) he
                exact hip

variable [Inhabited β]

/-- **`remove_leaf`** leaves the leaves alone. -/
lemma removeLeaf {n : Ptr} (hc : ContentsFrom h₀ h) (he : removeLeaf h n = some h') :
    ContentsFrom h₀ h' := by
  rw [MasstreeLHM.removeLeaf] at he
  split at he
  · cases he
    exact hc
  · exact unhook _ _ (((hc.markDeleted n).retire n).unlinkLeaf n) he

end ContentsFrom

/-! ## Tidying a root -/

/-- No node has metadata. -/
def NoMetadata (h : Heap β) : Prop := ∀ a, (h.node a).directoryMeta = none

lemma NoMetadata.setLeaf {l : Leaf β} (hn : NoMetadata h) (hm : l.directoryMeta = none) (a : Ptr) :
    NoMetadata (h.setLeaf a l) := by
  intro b
  rw [Heap.node_setLeaf]
  split_ifs
  · exact hm
  · exact hn b

lemma NoMetadata.alloc {l : Leaf β} (hn : NoMetadata h) (hm : l.directoryMeta = none) :
    NoMetadata (h.alloc (.leaf l)) :=
  hn.setLeaf hm h.size

lemma ContentsFrom.noMetadata (hc : ContentsFrom h h') (hn : NoMetadata h) : NoMetadata h' := by
  intro a
  rcases hc.info a with h0 | ⟨b, h0⟩
  · exact h0
  · exact h0.trans (hn b)

lemma ContentsFrom.shiftOnlyChild {n n' : Internode} (hc : ContentsFrom h₀ h)
    (hn : FromHeap h₀ n.directoryMeta) (he : shiftOnlyChild h a n = some (h', n')) :
    ContentsFrom h₀ h' ∧ n'.directoryMeta = n.directoryMeta := by
  rw [MasstreeLHM.shiftOnlyChild] at he
  split at he
  · split at he
    · next left right _ _ =>
        split at he
        · cases he
        · split_ifs at he
          obtain ⟨rfl, rfl⟩ : _ = h' ∧ _ = n' := by simpa using he
          refine ⟨((((hc.markDeleted left).setInternode a ?_).setParent right _).retire left), rfl⟩
          exact hn
    · obtain ⟨rfl, rfl⟩ : h = h' ∧ n = n' := by simpa using he
      exact ⟨hc, rfl⟩
  · obtain ⟨rfl, rfl⟩ : h = h' ∧ n = n' := by simpa using he
    exact ⟨hc, rfl⟩

/-- **`gc_layer` in a table without metadata** copies no leaf, and leaves the leaves alone. -/
lemma ContentsFrom.gcRoot (copy : Ptr → Leaf β → List (Slot β)) (hno : NoMetadata h₀) :
    ∀ (fuel : ℕ) {h : Heap β} {a : Ptr} {g : GcRoot β}, ContentsFrom h₀ h →
      gcRoot copy fuel h a = some g → ContentsFrom h₀ g.heap ∧ g.cloned = none
  | 0, _, _, _, _, he => by cases he
  | fuel + 1, h, a, g, hc, he => by
      rw [MasstreeLHM.gcRoot] at he
      cases hn : h.node a with
      | leaf l =>
          rw [hn] at he
          simp only at he
          split_ifs at he
          · exact gcRoot copy hno fuel hc he
          · cases he
            exact ⟨hc, rfl⟩
          · cases he
            refine ⟨(hc.set a ?_ fun l' hl' => ?_).retire a, rfl⟩
            · have := hc.info a
              rw [hn] at this
              exact this
            · cases hl'
              exact Or.inr ⟨l, hn, rfl, rfl⟩
      | internode n =>
          have hmeta : FromHeap h₀ n.directoryMeta := by
            have := hc.info a
            rwa [hn] at this
          rw [hn] at he
          simp only at he
          split_ifs at he
          · exact gcRoot copy hno fuel hc he
          · cases he
            exact ⟨hc, rfl⟩
          · split at he
            · cases he
              exact ⟨hc, rfl⟩
            · next h₁ n₁ h1 =>
                obtain ⟨hc₁, hm₁⟩ := hc.shiftOnlyChild hmeta h1
                have hnone : n₁.directoryMeta = none := by
                  rw [hm₁]
                  rcases hmeta with h0 | ⟨b, h0⟩
                  · exact h0
                  · exact h0.trans (hno b)
                split at he
                · cases he
                  exact ⟨hc₁, rfl⟩
                · next c _ =>
                    rw [hnone] at he
                    simp only at he
                    refine gcRoot copy hno fuel (((hc₁.makeLayerRoot c).setInternode a ?_).retire a)
                      he
                    exact Or.inl rfl

end MasstreeLHM
