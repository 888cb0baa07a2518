import MasstreeLHM.Leaves

/-!
# Rewriting the metadata of a node

The trailing `directory_meta` of a node may be overwritten in place.  Nothing else looks at it, so
the invariant stays.

`Heap.setMeta` is the write through the pointer that `directory_meta()` returns.  `node_setMeta`
reads a node behind it.  The tree part of the invariant sees two heaps of the same shape
(`SameShape.setMeta`), and a leaf of the new heap is one of the old heap but for its record
(`leafData_setMeta`, `leafData_setMeta_of`), which gives the parts about leaves and about their
list.

**`HeapInv.setMeta`** is the result, and `entry_setMeta` says that the layers hold what they held.
A rename of a directory uses both when it writes the new name to the root of the layer that it has
moved.
-/

namespace MasstreeLHM

variable {β : Type}

namespace Node

variable (m : Option DirectoryMeta) (n : Node β)

@[simp] lemma parent_setDirectoryMeta : (n.setDirectoryMeta m).parent = n.parent := by
  cases n <;> rfl

@[simp] lemma isLeaf_setDirectoryMeta : (n.setDirectoryMeta m).isLeaf = n.isLeaf := by
  cases n <;> rfl

@[simp] lemma height_setDirectoryMeta : (n.setDirectoryMeta m).height = n.height := by
  cases n <;> rfl

@[simp] lemma isRoot_setDirectoryMeta : (n.setDirectoryMeta m).isRoot = n.isRoot := by
  cases n <;> rfl

@[simp] lemma deleted_setDirectoryMeta : (n.setDirectoryMeta m).deleted = n.deleted := by
  cases n <;> rfl

@[simp] lemma startable_setDirectoryMeta : (n.setDirectoryMeta m).startable ↔ n.startable := by
  cases n <;> rfl

@[simp] lemma directoryMeta_setDirectoryMeta : (n.setDirectoryMeta m).directoryMeta = m := by
  cases n <;> rfl

lemma leafData_setDirectoryMeta : (n.setDirectoryMeta m).leafData
    = n.leafData.map fun l => { l with directoryMeta := m } := by
  cases n <;> rfl

end Node

/-- `*directory_meta() = m` at node `a`. -/
def Heap.setMeta (h : Heap β) (a : Ptr) (m : DirectoryMeta) : Heap β :=
  h.set a ((h.node a).setDirectoryMeta (some m))

variable {h : Heap β} {G : Ghost} {a : Ptr} {m : DirectoryMeta}

lemma node_setMeta (b : Ptr) : (h.setMeta a m).node b = h.node b ∨
    (h.setMeta a m).node b = (h.node b).setDirectoryMeta (some m) := by
  by_cases hb : b = a
  · exact Or.inr (by simp [Heap.setMeta, hb])
  · exact Or.inl (by simp [Heap.setMeta, hb])

lemma SameShape.setMeta : SameShape h (h.setMeta a m) where
  size := rfl
  retired := rfl
  parent b := by rcases node_setMeta (h := h) (a := a) (m := m) b with h0 | h0 <;> simp [h0]
  isLeaf b := by rcases node_setMeta (h := h) (a := a) (m := m) b with h0 | h0 <;> simp [h0]
  height b := by rcases node_setMeta (h := h) (a := a) (m := m) b with h0 | h0 <;> simp [h0]
  isRoot b := by rcases node_setMeta (h := h) (a := a) (m := m) b with h0 | h0 <;> simp [h0]
  deleted b := by rcases node_setMeta (h := h) (a := a) (m := m) b with h0 | h0 <;> simp [h0]
  startable b := by rcases node_setMeta (h := h) (a := a) (m := m) b with h0 | h0 <;> simp [h0]
  internode b n' hn' := by
    rcases node_setMeta (h := h) (a := a) (m := m) b with h0 | h0
    · exact ⟨n', h0.symm.trans hn', rfl, rfl⟩
    · rw [h0] at hn'
      cases hb : h.node b with
      | leaf l => simp [hb, Node.setDirectoryMeta] at hn'
      | internode n =>
          rw [hb] at hn'
          obtain rfl := Node.internode.inj hn'
          exact ⟨n, rfl, rfl, rfl⟩

/-- A leaf of the heap with the new metadata. -/
lemma leafData_setMeta {b : Ptr} {l : Leaf β} (hl : ((h.setMeta a m).node b).leafData = some l) :
    ∃ l', (h.node b).leafData = some l' ∧ l = { l' with directoryMeta := l.directoryMeta } := by
  by_cases hb : b = a
  · subst hb
    simp only [Heap.setMeta, Heap.node_set, if_pos, Node.leafData_setDirectoryMeta,
      Option.map_eq_some_iff] at hl
    obtain ⟨l', hl', rfl⟩ := hl
    exact ⟨l', hl', rfl⟩
  · exact ⟨l, by simpa [Heap.setMeta, hb] using hl, rfl⟩

/-- A leaf of the old heap has a counterpart in the new one. -/
lemma leafData_setMeta_of {b : Ptr} {l : Leaf β} (hl : (h.node b).leafData = some l) :
    ∃ o, ((h.setMeta a m).node b).leafData = some { l with directoryMeta := o } := by
  by_cases hb : b = a
  · subst hb
    exact ⟨some m, by simp [Heap.setMeta, Node.leafData_setDirectoryMeta, hl]⟩
  · exact ⟨l.directoryMeta, by simp [Heap.setMeta, hb, hl]⟩

variable [Inhabited β] {P : NodeParams} {R : Slot β → Slot β → Prop}

/-- **The invariant does not see the metadata.** -/
lemma HeapInv.setMeta (hI : HeapInv P R h G) : HeapInv P R (h.setMeta a m) G where
  tree := SameShape.setMeta.treeInv hI.tree
  leaves := by
    intro b l hb hl
    obtain ⟨l', hl', hll⟩ := leafData_setMeta hl
    have hok := hI.leaves b l' hb hl'
    rw [hll]
    exact ⟨hok.perm, hok.slots, hok.sorted, hok.within, hok.modstate, hok.first, hok.bound⟩
  chain := by
    intro b l hb hl
    obtain ⟨l', hl', hll⟩ := leafData_setMeta hl
    have hok := hI.chain b l' hb hl'
    rw [hll]
    refine ⟨?_, hok.next_none, ?_, hok.prev_none⟩
    · intro c hc
      obtain ⟨h1, h2, h3, lc, h4, h5⟩ := hok.next_some c hc
      obtain ⟨o, h6⟩ := leafData_setMeta_of (a := a) (m := m) h4
      exact ⟨h1, h2, h3, _, h6, h5⟩
    · intro c hc
      obtain ⟨h1, h2, h3, lc, h4, h5⟩ := hok.prev_some c hc
      obtain ⟨o, h6⟩ := leafData_setMeta_of (a := a) (m := m) h4
      exact ⟨h1, h2, h3, _, h6, h5⟩

lemma entry_setMeta (f : Ptr) (sl : Slot β) : Entry (h.setMeta a m) G f sl ↔ Entry h G f sl := by
  constructor
  · rintro ⟨b, l, h1, h2, h3, h4⟩
    obtain ⟨l', h5, h6⟩ := leafData_setMeta h3
    rw [h6] at h4
    exact ⟨b, l', h1, h2, h5, h4⟩
  · rintro ⟨b, l, h1, h2, h3, h4⟩
    obtain ⟨o, h5⟩ := leafData_setMeta_of (a := a) (m := m) h3
    exact ⟨b, _, h1, h2, h5, h4⟩

end MasstreeLHM
