import MasstreeLHM.Leaves

/-!
# Splitting a leaf

`leaf::split_into` cuts the sequence of the leaf's items, with the new one in its place, at a point
where the slices differ.  The items stay where they are or move to the new right leaf; the new item
gets a free slot on its side.

`Leaf.itemsWith` is that sequence.  `splitPoint_spec` finds the point inside it, and
**`splitRight_spec`** and **`splitLeft_spec`** say that the two leaves have the two parts of the
sequence as their items.

The heap is looked at from two sides.  For the tree, `LeafDivided` says that a node has joined the
layer and that nothing else has changed but a root bit, and **`LeafDivided.splitInv`** that the
split is then pending.  For the leaves, `Halves` says what the two halves keep of the leaf, and
`leafInv_divideLeaf` and `chainInv_divideLeaf` are the invariants of the leaves, with a lemma for
each of the leaves whose neighbours have changed.
-/

namespace MasstreeLHM

open Separators

/-! ## The split point -/

/-- The search for a split point finds a place where the slices differ. -/
lemma adjustMid_spec {key : ℕ → ℕ} {width m : ℕ}
    (hmono : ∀ i j, i ≤ j → j ≤ width → key i ≤ key j) (hne : key 0 < key width) :
    ∀ fuel left midr, left < midr → left ≤ width →
      (∀ j, left ≤ j → j < midr → j ≤ width → key j = m) → left + (width + 1 - midr) < fuel →
      ∃ mid, adjustMid key width m fuel left midr = some mid ∧ 1 ≤ mid ∧ mid ≤ width ∧
        key (mid - 1) < key mid
  | 0, left, midr, _, _, _, hf => absurd hf (Nat.not_lt_zero _)
  | fuel + 1, left, midr, hlt, hlw, heq, hf => by
      rw [adjustMid]
      split_ifs with h1 h2
      · have hprev := heq (midr - 1) (by omega) (by omega) (by omega)
        have hle := hmono (midr - 1) midr (by omega) h1.1
        exact ⟨midr, rfl, by omega, h1.1, by omega⟩
      · have hat := heq left le_rfl hlt hlw
        have hle := hmono (left - 1) left (by omega) hlw
        exact ⟨left, rfl, h2.1, hlw, by omega⟩
      · have heq' : ∀ j, left - 1 ≤ j → j < midr + 1 → j ≤ width → key j = m := by
          intro j hj1 hj2 hj3
          by_cases hjl : left ≤ j
          · by_cases hjm : j < midr
            · exact heq j hjl hjm hj3
            · obtain rfl : j = midr := by omega
              by_contra h0
              exact h1 ⟨hj3, fun h3 => h0 h3.symm⟩
          · obtain rfl : j = left - 1 := by omega
            by_contra h0
            exact h2 ⟨by omega, fun h3 => h0 h3.symm⟩
        -- otherwise all slices would be equal
        have hroom : 0 < left ∨ midr ≤ width := by
          by_contra h0
          have e0 := heq 0 (by omega) (by omega) (by omega)
          have e1 := heq width (by omega) (by omega) le_rfl
          omega
        exact adjustMid_spec hmono hne fuel (left - 1) (midr + 1) (by omega) (by omega) heq'
          (by omega)

variable {β : Type}

/-! ## The tree after the leaf part of a split -/

/-- What the leaf part of a split does to the nodes, as far as the tree can see it. -/
structure LeafDivided (h h' : Heap β) (n : Ptr) : Prop where
  size : h'.size = h.size + 1
  retired : h'.retired = h.retired
  left : ∃ l l', h.node n = .leaf l ∧ h'.node n = .leaf l' ∧ l'.parent = l.parent ∧
    l'.isRoot = false ∧ l'.deleted = l.deleted ∧ l'.directoryMeta = l.directoryMeta ∧
    l'.prev = l.prev
  right : ∃ r, h'.node h.size = .leaf r ∧ r.parent = none ∧ r.deleted = false ∧ r.prev ≠ none
  other : ∀ a < h.size, a ≠ n → h'.node a = h.node a ∨
    ∃ l l', h.node a = .leaf l ∧ h'.node a = .leaf l' ∧ l.SameLinks l'

namespace LeafDivided

variable {h h' : Heap β} {n : Ptr} {G : Ghost} {k : ℕ}

/-- The tree with the old nodes except for the root bit of `n`. -/
lemma like (hd : LeafDivided h h' n) {a : Ptr} (ha : a < h.size) :
    (h'.node a).parent = (h.node a).parent ∧ (h'.node a).height = (h.node a).height ∧
      (h'.node a).isLeaf = (h.node a).isLeaf ∧ (h'.node a).deleted = (h.node a).deleted ∧
      ((h'.node a).startable ↔ (h.node a).startable) ∧
      (h'.node a).directoryMeta = (h.node a).directoryMeta ∧
      (a ≠ n → (h'.node a).isRoot = (h.node a).isRoot) ∧
      (∀ i, h'.node a = .internode i ↔ h.node a = .internode i) := by
  by_cases han : a = n
  · obtain ⟨l, l', h1, h2, h3, h4, h5, h6, h7⟩ := hd.left
    subst han
    simp [h1, h2, h3, h5, h6, h7]
  · rcases hd.other a ha han with h1 | ⟨l, l', h1, h2, h3⟩
    · simp [h1]
    · simp [h1, h2, h3.parent, h3.deleted, h3.prev, h3.directoryMeta, h3.isRoot]

/-- The right half joins the layer of `n`. -/
lemma addsNode (hd : LeafDivided h h' n) :
    AddsNode h G n (fun _ => False) h' (G.divide n h.size k) := by
  obtain ⟨r, hr, -, hrd, -⟩ := hd.right
  exact {
    size := hd.size
    retired := hd.retired
    live := fun a => by simp [Ghost.divide]
    gone := fun a => (or_iff_left id).symm
    dropped := fun a h0 => h0.elim
    fam := fun a ha => if_neg ha.ne
    fam_new := if_pos rfl
    lo := fun a ha => if_neg ha.ne
    height := fun a ha => (hd.like ha).2.1
    isLeaf := fun a ha => (hd.like ha).2.2.1
    deleted := fun a ha => (hd.like ha).2.2.2.1
    height_new := by rw [hr]; exact Nat.zero_le _
    deleted_new := by rw [hr]; exact hrd }

lemma root_bit (hd : LeafDivided h h' n) (hT : TreeInv h G G.exact) {a : Ptr} (ha : G.Known h a)
    (hst : (h'.node a).startable) :
    ((h'.node a).isRoot = true → (h'.node a).parent = none) ∧
      ((h'.node a).parent = none → a ≠ n → (h'.node a).isRoot = true) := by
  obtain ⟨-, l', -, hl', -, hroot, -⟩ := hd.left
  obtain ⟨h1, -, -, -, h5, -, h7, -⟩ := hd.like ha.1
  rw [h5] at hst
  rw [h1]
  have hbit := hT.root_bit ha id hst
  by_cases han : a = n
  · subst han
    rw [hl', Node.isRoot_leaf, hroot]
    exact ⟨fun h0 => absurd h0 (by simp), fun _ h0 => absurd rfl h0⟩
  · rw [h7 han]
    exact ⟨hbit.1, fun h0 _ => hbit.2 h0 id⟩

lemma linked (hd : LeafDivided h h' n) (hT : TreeInv h G G.exact) {a q : Ptr} (ha : G.live a)
    (hq : (h'.node a).parent = some q) :
    (G.divide n h.size k).live q ∧ some a ∈ (h'.internode q).children := by
  rw [(hd.like (hT.live_lt ha)).1] at hq
  obtain ⟨h1, h2⟩ := hT.linked ha id hq
  obtain ⟨i, hi⟩ := Node.exists_internode (hT.up (hT.known ha) hq).2.2.2
  rw [Heap.internode_eq hi] at h2
  refine ⟨Or.inr h1, ?_⟩
  rw [Heap.internode_eq (((hd.like (hT.live_lt h1)).2.2.2.2.2.2.2 i).mpr hi)]
  exact h2

lemma link (hd : LeafDivided h h' n) (hT : TreeInv h G G.exact) {a : Ptr} {i : Internode}
    (ha : (G.divide n h.size k).live a) (hi : h'.node a = .internode i) :
    LinkInv h' (G.divide n h.size k) ((G.divide n h.size k).split n h.size) a i := by
  have hA := hd.addsNode (G := G) (k := k)
  rcases hA.live_cases hT ha with rfl | ⟨hlt, ha, -⟩
  · obtain ⟨r, hr, -⟩ := hd.right
    rw [hr] at hi
    cases hi
  · obtain ⟨l, -, hl, -⟩ := hd.left
    have hi' := ((hd.like hlt).2.2.2.2.2.2.2 i).mp hi
    have han : a ≠ n := by
      rintro rfl
      rw [hl] at hi'
      cases hi'
    refine (hT.link ha hi').congr rfl rfl (hA.lo a hlt) (Ghost.hi_divide hlt han) ?_
    intro l c u hc hseg
    have hclt := hT.live_lt (hT.child_live ha hi' hc).1
    exact hA.segOk hT (hT.child_live ha hi' hc).1 hseg id hclt.ne
      ((hd.like hclt).1.trans hseg.2.2.1) (Ghost.view_divide hclt)

lemma treeInv (hd : LeafDivided h h' n) (hT : TreeInv h G G.exact) (hn : G.live n)
    (hk : G.lo n < k) (hk' : k < G.hi n) :
    TreeInv h' (G.divide n h.size k) ((G.divide n h.size k).split n h.size) := by
  have hA := hd.addsNode (G := G) (k := k)
  have hnk := hT.known hn
  have hold : ∀ {a}, (G.divide n h.size k).Known h' a → a ≠ h.size → G.Known h a := fun ha hne =>
    (((hA.known_iff hT).mp ha).resolve_left hne).1
  exact {
    known := hA.known hT
    gone_lt := fun ha => by rw [hd.size]; exact Nat.lt_succ_of_lt (hA.gone_lt hT ha)
    up := by
      intro a q ha hq
      by_cases has : a = h.size
      · obtain ⟨r, hr, hrp, -⟩ := hd.right
        rw [has, hr, Node.parent_leaf, hrp] at hq
        cases hq
      · have ha := hold ha has
        exact hA.up hT ha ((hd.like ha.1).1 ▸ hq) id
    top_eq := by
      intro a ha hloose hpa
      have ha := hold ha hloose
      rw [hA.fam a ha.1]
      exact hT.top_eq ha id ((hd.like ha.1).1 ▸ hpa)
    top_spec := by
      intro a ha
      obtain ⟨b, hb, hab⟩ := hA.exists_fam hT hnk ha
      have hlt := hT.live_lt (hT.top_spec hb).1
      rw [hab]
      exact hA.top_spec _ hT hb id hlt.ne (hd.like hlt).1 (Ghost.view_divide hlt)
    fam_spec := hA.fam_spec hT hnk
    height_lt := hA.height_lt hT
    root_bit := fun ha hloose => hd.root_bit hT (hold ha hloose)
    range := Ghost.range_divide hT hn hk hk'
    linked := fun ha hloose => hd.linked hT (ha.resolve_left hloose)
    link := hd.link hT
    not_deleted := hA.not_deleted hT
    retired_dead := hA.retired_dead hT }

/-- **After its leaf part, a split is pending.** -/
lemma splitInv (hd : LeafDivided h h' n) (hT : TreeInv h G G.exact) (hn : G.live n)
    (hk : G.lo n < k) (hk' : k < G.hi n) :
    SplitInv h' (G.divide n h.size k) ⟨n, h.size, k⟩ := by
  obtain ⟨l, l', -, hl', -, hroot, -⟩ := hd.left
  obtain ⟨r, hr, hrp, -, hrprev⟩ := hd.right
  have hns := hT.live_lt hn
  exact {
    tree := hd.treeInv hT hn hk hk'
    live_n := Or.inr hn
    live_child := Or.inl rfl
    ne := hns.ne'
    fam_child := (if_pos rfl).trans (if_neg hns.ne).symm
    hi_n := Ghost.hi_divide_self hns
    lo_child := if_pos rfl
    height_child := by rw [hr, hl']; rfl
    bit_n := by rw [hl']; exact hroot
    bit_child := by rw [hr]; exact fun h0 => absurd h0 hrprev
    parent_child := by rw [hr]; exact hrp }

end LeafDivided
variable [Inhabited β] {P : NodeParams}

/-! ## The items of a leaf that is split -/

namespace Leaf

/-- The items of the leaf with the new one in its place. -/
def itemsWith (l : Leaf β) (kxI : ℕ) (ka : Slot β) : List (Slot β) :=
  l.entries.take kxI ++ ka :: l.entries.drop kxI

lemma entries_length {W : ℕ} {l : Leaf β} (hw : l.permutation.WF W) :
    l.entries.length = l.size := by
  simp [entries, hw.length_live, size]

lemma entries_getElem? {W : ℕ} {l : Leaf β} (hw : l.permutation.WF W) {i : ℕ} (hi : i < l.size) :
    l.entries[i]? = some (l.slot (l.permutation.get i)) := by
  rw [entries, List.getElem?_map, hw.get_eq_live hi]
  rfl

lemma itemsWith_length {W : ℕ} {l : Leaf β} (hw : l.permutation.WF W) {kxI : ℕ} (hi : kxI ≤ l.size)
    (ka : Slot β) : (l.itemsWith kxI ka).length = l.size + 1 := by
  simp only [itemsWith, List.length_append, List.length_take, List.length_cons, List.length_drop,
    entries_length hw]
  omega

/-- `slotAfterInsert` reads that sequence. -/
lemma itemsWith_getElem? {W : ℕ} {l : Leaf β} (hw : l.permutation.WF W) {kxI : ℕ}
    (hi : kxI ≤ l.size) (ka : Slot β) {j : ℕ} (hj : j ≤ l.size) :
    (l.itemsWith kxI ka)[j]? = some (l.slotAfterInsert kxI ka j) := by
  have hlen := entries_length hw
  have htake : (l.entries.take kxI).length = kxI := by simp [hlen, hi]
  rw [itemsWith, slotAfterInsert]
  split_ifs with h1 h2
  · rw [List.getElem?_append_left (by omega), List.getElem?_take_of_lt h1,
      entries_getElem? hw (by omega)]
  · subst h2
    rw [List.getElem?_append_right (by omega), htake, Nat.sub_self, List.getElem?_cons_zero]
  · rw [List.getElem?_append_right (by omega), htake, List.getElem?_cons, if_neg (by omega),
      List.getElem?_drop, show kxI + (j - kxI - 1) = j - 1 by omega,
      entries_getElem? hw (by omega)]

lemma movedSlots_eq {W : ℕ} {l : Leaf β} (hw : l.permutation.WF W) {kxI : ℕ} (hi : kxI ≤ l.size)
    (ka : Slot β) {mid : ℕ} (hmid : mid ≤ l.size) :
    l.movedSlots kxI ka mid = (l.itemsWith kxI ka).drop mid := by
  have hlen := itemsWith_length hw hi ka
  refine List.ext_getElem? fun j => ?_
  rw [movedSlots, List.getElem?_map, List.getElem?_drop]
  by_cases hj : mid + j ≤ l.size
  · rw [itemsWith_getElem? hw hi ka hj, List.getElem?_range (by omega)]
    rfl
  · rw [List.getElem?_eq_none (by simp; omega), List.getElem?_eq_none (by omega)]
    rfl

/-- The split point lies inside the sequence, and the slices differ there. -/
lemma splitPoint_spec {l : Leaf β} (hw : l.permutation.WF P.leafWidth) {kxI : ℕ}
    (hi : kxI ≤ l.size) {ka : Slot β} (hfull : P.leafWidth ≤ l.size + 1)
    (hmono : ((l.itemsWith kxI ka).map Slot.ikey).Pairwise (· ≤ ·))
    (hne : ∃ s ∈ l.itemsWith kxI ka, ∃ t ∈ l.itemsWith kxI ka, s.ikey < t.ikey) :
    ∃ mid, l.splitPoint P kxI ka = some mid ∧ 1 ≤ mid ∧ mid ≤ l.size ∧
      (∀ s ∈ (l.itemsWith kxI ka).take mid, s.ikey < l.ikeyAfterInsert kxI ka mid) ∧
      (∀ s ∈ (l.itemsWith kxI ka).drop mid, l.ikeyAfterInsert kxI ka mid ≤ s.ikey) := by
  have h3 := P.three_le_leafWidth
  have hsz : l.size ≤ P.leafWidth := hw.size_le
  have hlen := itemsWith_length hw hi ka
  have hkey : ∀ j, j ≤ l.size → ((l.itemsWith kxI ka).map Slot.ikey)[j]?
      = some (l.ikeyAfterInsert kxI ka j) := by
    intro j hj
    rw [List.getElem?_map, itemsWith_getElem? hw hi ka hj]
    rfl
  have hm : ∀ i j, i ≤ j → j ≤ l.size →
      l.ikeyAfterInsert kxI ka i ≤ l.ikeyAfterInsert kxI ka j := by
    intro i j hij hj
    rcases Nat.eq_or_lt_of_le hij with rfl | hij
    · exact le_rfl
    · obtain ⟨hi1, e1⟩ := List.getElem?_eq_some_iff.mp (hkey i (by omega))
      obtain ⟨hj1, e2⟩ := List.getElem?_eq_some_iff.mp (hkey j hj)
      have := List.pairwise_iff_getElem.mp hmono i j hi1 hj1 hij
      rw [e1, e2] at this
      exact this
  have hpos : ∀ {j s}, (l.itemsWith kxI ka)[j]? = some s →
      j ≤ l.size ∧ l.ikeyAfterInsert kxI ka j = s.ikey := by
    intro j s hjs
    have hj := (List.getElem?_eq_some_iff.mp hjs).1
    have hjl : j ≤ l.size := by omega
    have := itemsWith_getElem? hw hi ka hjl
    rw [hjs, Option.some.injEq] at this
    exact ⟨hjl, by rw [ikeyAfterInsert, ← this]⟩
  have hends : l.ikeyAfterInsert kxI ka 0 < l.ikeyAfterInsert kxI ka l.size := by
    obtain ⟨s, hs, t, ht, hst⟩ := hne
    obtain ⟨j, e1⟩ := List.mem_iff_getElem?.mp hs
    obtain ⟨k, e2⟩ := List.mem_iff_getElem?.mp ht
    obtain ⟨hj, e1⟩ := hpos e1
    obtain ⟨hk, e2⟩ := hpos e2
    have g1 := hm 0 j (by omega) hj
    have g2 := hm k l.size hk le_rfl
    omega
  -- a strict step in the sequence separates the two sides
  suffices h0 : ∃ mid, l.splitPoint P kxI ka = some mid ∧ 1 ≤ mid ∧ mid ≤ l.size ∧
      l.ikeyAfterInsert kxI ka (mid - 1) < l.ikeyAfterInsert kxI ka mid by
    obtain ⟨mid, g1, g2, g3, g4⟩ := h0
    refine ⟨mid, g1, g2, g3, ?_, ?_⟩
    · intro s hs
      obtain ⟨j, hj⟩ := List.mem_iff_getElem?.mp hs
      rw [List.getElem?_take] at hj
      split_ifs at hj with hjm
      obtain ⟨-, e⟩ := hpos hj
      have := hm j (mid - 1) (by omega) (by omega)
      omega
    · intro s hs
      obtain ⟨j, hj⟩ := List.mem_iff_getElem?.mp hs
      rw [List.getElem?_drop] at hj
      obtain ⟨hjl, e⟩ := hpos hj
      have := hm mid (mid + j) (by omega) hjl
      omega
  simp only [splitPoint]
  set mid := if kxI = 0 ∧ l.prev = none then 1
    else if kxI = l.size ∧ l.next = none then l.size else P.leafWidth / 2 + 1 with hmid
  have hmid1 : 1 ≤ mid ∧ mid ≤ l.size := by
    rw [hmid]
    split_ifs <;> omega
  split_ifs with heq
  · refine adjustMid_spec hm hends _ _ _ (by omega) (by omega) ?_ (by omega)
    intro j hj1 hj2 hj3
    rcases (show j = mid - 1 ∨ j = mid by omega) with rfl | rfl
    · exact heq.symm
    · rfl
  · refine ⟨mid, rfl, hmid1.1, hmid1.2, ?_⟩
    have := hm (mid - 1) mid (by omega) hmid1.2
    omega

/-! ## The two halves -/

section

variable {l : Leaf β} {kxI mid : ℕ}

lemma itemsWith_cut_left (ka : Slot β) (h : kxI < mid) (hi : kxI ≤ l.entries.length) :
    (l.itemsWith kxI ka).take mid
        = (l.entries.take (mid - 1)).take kxI ++ ka :: (l.entries.take (mid - 1)).drop kxI ∧
      (l.itemsWith kxI ka).drop mid = l.entries.drop (mid - 1) := by
  obtain ⟨j, rfl⟩ : ∃ j, mid = kxI + (j + 1) := ⟨mid - kxI - 1, by omega⟩
  have hlen : (l.entries.take kxI).length = kxI := by simp [hi]
  rw [itemsWith, show kxI + (j + 1) - 1 = kxI + j by omega]
  constructor
  · rw [List.take_append, hlen, List.take_of_length_le (by omega), Nat.add_sub_cancel_left,
      List.take_succ_cons, List.take_take, min_eq_left (by omega), List.drop_take,
      Nat.add_sub_cancel_left]
  · rw [List.drop_append, hlen, List.drop_eq_nil_of_le (by omega), Nat.add_sub_cancel_left,
      List.drop_succ_cons, List.drop_drop, List.nil_append]

lemma itemsWith_cut_right (ka : Slot β) (h : mid ≤ kxI) (hi : kxI ≤ l.entries.length) :
    (l.itemsWith kxI ka).take mid = l.entries.take mid ∧
      (l.itemsWith kxI ka).drop mid
        = (l.entries.drop mid).take (kxI - mid) ++ ka :: (l.entries.drop mid).drop (kxI - mid) := by
  have hlen : (l.entries.take kxI).length = kxI := by simp [hi]
  rw [itemsWith]
  constructor
  · rw [List.take_append_of_le_length (by omega), List.take_take, min_eq_left h]
  · rw [List.drop_append_of_le_length (by omega), List.drop_take, List.drop_drop,
      show mid + (kxI - mid) = kxI by omega]

end

/-- Reading the slots of a leaf whose first slots are `moved`. -/
lemma map_slot_range {l : Leaf β} {moved rest : List (Slot β)} (hs : l.slots = moved ++ rest) :
    (List.range moved.length).map l.slot = moved := by
  refine List.ext_getElem? fun j => ?_
  rw [List.getElem?_map]
  by_cases hj : j < moved.length
  · rw [List.getElem?_range hj]
    simp [slot, hs, List.getD_eq_getElem?_getD, List.getElem?_append_left hj, hj]
  · simp [hj]

/-- **The right leaf of a split.** -/
lemma splitRight_spec {l : Leaf β} (hw : l.permutation.WF P.leafWidth) {kxI mid : ℕ} (n : Ptr)
    (ka : Slot β) (hi : kxI ≤ l.size) (hmid : 1 ≤ mid) (hmid' : mid ≤ l.size) :
    let r := l.splitRight P n kxI ka mid
    r.permutation.WF P.leafWidth ∧ r.slots.length = P.leafWidth ∧
      r.ikeyBound = l.ikeyAfterInsert kxI ka mid ∧
      (kxI < mid → r.entries = l.entries.drop (mid - 1) ∧ r.size = l.size - (mid - 1)) ∧
      (mid ≤ kxI → r.entries = l.entries.drop mid ∧ r.size = l.size - mid ∧
        r.permutation.back = kxI - mid ∧ r.slot (kxI - mid) = ka) := by
  intro r
  have hE := entries_length hw
  have hsz : l.size ≤ P.leafWidth := hw.size_le
  have hmoved := movedSlots_eq hw hi ka hmid'
  have hlen : (l.movedSlots kxI ka mid).length = l.size + 1 - mid := by simp [movedSlots]
  set moved := l.movedSlots kxI ka mid with hm
  have hslots : r.slots = moved ++ List.replicate (P.leafWidth - moved.length) default := rfl
  have hmap := map_slot_range hslots
  have hWF : (Kpermuter.makeSorted P.leafWidth moved.length).WF P.leafWidth :=
    .makeSorted (by omega)
  have hbound : r.ikeyBound = l.ikeyAfterInsert kxI ka mid := by
    have h0 : moved[0]? = some (l.slotAfterInsert kxI ka mid) := by
      rw [hmoved, List.getElem?_drop, Nat.add_zero, itemsWith_getElem? hw hi ka hmid']
    rw [Leaf.ikeyBound, slot, hslots, List.getD_eq_getElem?_getD,
      List.getElem?_append_left (by omega), h0]
    rfl
  refine ⟨?_, ?_, hbound, ?_, ?_⟩
  · change (if mid ≤ kxI then _ else _ : Kpermuter).WF _
    split_ifs with h1
    · exact hWF.removeToBack (by change _ < moved.length; omega)
    · exact hWF
  · rw [hslots]
    simp
    omega
  · intro h1
    have hperm : r.permutation = Kpermuter.makeSorted P.leafWidth moved.length :=
      if_neg (Nat.not_le.mpr h1)
    refine ⟨?_, ?_⟩
    · rw [entries, hperm, Kpermuter.live_makeSorted, hmap, hmoved,
        (itemsWith_cut_left ka h1 (by omega)).2]
    · rw [size, hperm]
      change moved.length = _
      omega
  · intro h1
    have hperm : r.permutation
        = (Kpermuter.makeSorted P.leafWidth moved.length).removeToBack (kxI - mid) := if_pos h1
    have hlt : kxI - mid < (Kpermuter.makeSorted P.leafWidth moved.length).size := by
      change _ < moved.length
      omega
    have hcut := (itemsWith_cut_right (l := l) ka h1 (by omega)).2
    have htl : ((l.entries.drop mid).take (kxI - mid)).length = kxI - mid := by
      simp
      omega
    refine ⟨?_, ?_, ?_, ?_⟩
    · rw [entries, hperm, hWF.live_removeToBack hlt, Kpermuter.live_makeSorted,
        ← List.eraseIdx_map, hmap, hmoved, hcut, List.eraseIdx_append_of_length_le (by omega), htl,
        Nat.sub_self, List.eraseIdx_cons_zero, List.take_append_drop]
    · rw [size, hperm]
      change moved.length - 1 = _
      omega
    · rw [hperm, Kpermuter.WF.back_removeToBack]
      have hlt' : kxI - mid < moved.length := hlt
      simp [Kpermuter.get, Kpermuter.makeSorted, List.getD_eq_getElem?_getD,
        List.getElem?_append_left, hlt']
    · have h0 : moved[kxI - mid]? = some ka := by
        rw [hmoved, hcut, List.getElem?_append_right (by omega), htl, Nat.sub_self]
        rfl
      rw [slot, hslots, List.getD_eq_getElem?_getD, List.getElem?_append_left hlt, h0]
      rfl

omit [Inhabited β] in
/-- The items that stay in the left leaf. -/
lemma live_trimmed {l : Leaf β} (hw : l.permutation.WF P.leafWidth) (moved : ℕ) :
    (l.trimmed P moved).live = l.permutation.live.take (l.size - moved) := by
  have hlive := Kpermuter.WF.live_setSize l.permutation (n := l.size - moved) (Nat.sub_le _ _)
  have hsz : l.size ≤ P.leafWidth := hw.size_le
  rw [trimmed]
  split_ifs with h1
  · rw [Kpermuter.WF.live_exchange _ le_rfl (by change l.size - moved ≤ _; omega), hlive]
  · exact hlive

/-- **The left leaf of a split.** -/
lemma splitLeft_spec {l : Leaf β} (hw : l.permutation.WF P.leafWidth) (nr : Ptr) (moved : ℕ) :
    let left := l.splitLeft P nr moved
    left.permutation.WF P.leafWidth ∧ left.size = l.size - moved ∧
      left.entries = l.entries.take (l.size - moved) ∧
      (l.size - moved < P.leafWidth → left.permutation.back ∉ left.permutation.live) ∧
      (l.size = P.leafWidth → left.permutation.back = l.permutation.get (P.leafWidth - 1)) ∧
      (l.size ≠ P.leafWidth → left.permutation.back = l.permutation.get (l.size - moved)) := by
  intro left
  have hsz : l.size ≤ P.leafWidth := hw.size_le
  have hset : (l.permutation.setSize (l.size - moved)).WF P.leafWidth := hw.setSize (by omega)
  have hlive := Kpermuter.WF.live_setSize l.permutation (n := l.size - moved) (Nat.sub_le _ _)
  have key : left.permutation.WF P.leafWidth ∧ left.permutation.size = l.size - moved ∧
      left.permutation.live = l.permutation.live.take (l.size - moved) ∧
      (l.size = P.leafWidth → left.permutation.back = l.permutation.get (P.leafWidth - 1)) ∧
      (l.size ≠ P.leafWidth → left.permutation.back = l.permutation.get (l.size - moved)) := by
    change (l.trimmed P moved).WF _ ∧ _ ∧ (l.trimmed P moved).live = _ ∧
      (_ → (l.trimmed P moved).back = _) ∧ (_ → (l.trimmed P moved).back = _)
    rw [trimmed]
    split_ifs with h1
    · have hlt : (l.permutation.setSize (l.size - moved)).size < P.leafWidth := by
        change l.size - moved < _
        omega
      refine ⟨hset.exchange hlt (by omega), ?_, ?_, fun h0 => absurd h0 h1, fun _ => ?_⟩
      · change (if l.size ≠ P.leafWidth then _ else _ : Kpermuter).size = _
        rw [if_pos h1]
        rfl
      · rw [Kpermuter.WF.live_exchange _ le_rfl (by change l.size - moved ≤ _; omega), hlive]
      · rw [hset.back_exchange hlt]
        rfl
    · refine ⟨hset, ?_, hlive, fun h0 => ?_, fun h0 => absurd h0 h1⟩
      · change (if l.size ≠ P.leafWidth then _ else _ : Kpermuter).size = _
        rw [if_neg h1]
        rfl
      · rw [not_not] at h1
        have h3 := P.three_le_leafWidth
        rw [Kpermuter.back, List.getLastD_eq_getLast?, List.getLast?_eq_getElem?, Kpermuter.get,
          List.getD_eq_getElem?_getD]
        change (l.permutation.order[l.permutation.order.length - 1]?).getD 0 = _
        rw [hw.length_order]
  obtain ⟨h1, h2, h3, h4, h5⟩ := key
  refine ⟨h1, h2, ?_, fun h0 => h1.back_notMem_live (h2 ▸ h0), h4, h5⟩
  rw [entries, h3, entries, List.map_take]
  rfl

end Leaf

variable {R : Slot β → Slot β → Prop} {h : Heap β} {G : Ghost}

/-! ## The heap after the leaf part of a split -/

/-- The heap with the two halves in it, the right one in the chain behind the left one. -/
def divideLeaf (h : Heap β) (n : Ptr) (next : Option Ptr) (left right : Leaf β) : Heap β :=
  ((h.alloc (.leaf right)).setPrev next (some h.size)).setLeaf n left

/-- What the halves `left` and `right` of the leaf `l` at `n` keep of it. -/
structure Halves (l : Leaf β) (n nr : Ptr) (left right : Leaf β) : Prop where
  left_parent : left.parent = l.parent
  left_isRoot : left.isRoot = false
  left_deleted : left.deleted = l.deleted
  left_meta : left.directoryMeta = l.directoryMeta
  left_prev : left.prev = l.prev
  left_next : left.next = some nr
  right_parent : right.parent = none
  right_deleted : right.deleted = false
  right_prev : right.prev = some n
  right_next : right.next = l.next
  entries : left.entries ++ right.entries = l.entries

section

variable {n k : ℕ} {l left right : Leaf β}

/-- The right neighbour of the leaf. -/
lemma HeapInv.next_leaf (hI : HeapInv P R h G) (hn : G.live n) (hl : h.node n = .leaf l) {m : Ptr}
    (hm : l.next = some m) : G.live m ∧ m ≠ n ∧ G.fam m = G.fam n ∧ G.lo m = G.hi n ∧
      ∃ lm, h.node m = .leaf lm ∧ lm.prev = some n := by
  obtain ⟨h1, h2, h3, lm, h4, h5⟩ :=
    (hI.chain n { l with parent := none } hn (by rw [hl]; rfl)).next_some m hm
  refine ⟨h1, ?_, h2, h3, ?_⟩
  · rintro rfl
    have := (hI.tree.range hn).1
    omega
  · cases hnm : h.node m with
    | leaf lm' =>
        rw [hnm] at h4
        obtain rfl : _ = lm := by simpa using h4
        exact ⟨lm', rfl, h5⟩
    | internode i => simp [hnm] at h4

/-- The heap with the two halves, node by node. -/
lemma node_divideLeaf (hI : HeapInv P R h G) (hn : G.live n) (hl : h.node n = .leaf l)
    (left right : Leaf β) (a : Ptr) :
    (divideLeaf h n l.next left right).node a =
      if a = n then .leaf left
      else if a = h.size then .leaf right
      else if some a = l.next then .leaf { h.leaf a with prev := some h.size }
      else h.node a := by
  have hns := (hI.tree.live_lt hn).ne
  cases hm : l.next with
  | none =>
      simp only [divideLeaf, Heap.setPrev, Heap.node_setLeaf, Heap.node_alloc]
      split_ifs <;> simp_all
  | some m =>
      obtain ⟨h1, h2, -⟩ := hI.next_leaf hn hl hm
      have hms := (hI.tree.live_lt h1).ne
      simp only [divideLeaf, Heap.setPrev, Heap.node_setLeaf, Heap.node_alloc]
      split_ifs <;> simp_all [Heap.leaf]

lemma size_divideLeaf (h : Heap β) (n : Ptr) (next : Option Ptr) (left right : Leaf β) :
    (divideLeaf h n next left right).size = h.size + 1 := by
  cases next <;> rfl

lemma retired_divideLeaf (h : Heap β) (n : Ptr) (next : Option Ptr) (left right : Leaf β) :
    (divideLeaf h n next left right).retired = h.retired := by
  cases next <;> rfl

lemma leafDivided (hI : HeapInv P R h G) (hn : G.live n) (hl : h.node n = .leaf l)
    (hh : Halves l n h.size left right) :
    LeafDivided h (divideLeaf h n l.next left right) n := by
  have hnode := node_divideLeaf hI hn hl left right
  have hns := (hI.tree.live_lt hn).ne
  refine ⟨size_divideLeaf _ _ _ _ _, retired_divideLeaf _ _ _ _ _, ?_, ?_, ?_⟩
  · exact ⟨l, left, hl, by rw [hnode, if_pos rfl], hh.left_parent, hh.left_isRoot,
      hh.left_deleted, hh.left_meta, hh.left_prev⟩
  · exact ⟨right, by rw [hnode, if_neg hns.symm, if_pos rfl], hh.right_parent, hh.right_deleted,
      by simp [hh.right_prev]⟩
  · intro a ha han
    rw [hnode, if_neg han, if_neg ha.ne]
    split_ifs with h1
    · obtain ⟨-, -, -, -, lm, h2, h3⟩ := hI.next_leaf hn hl h1.symm
      refine Or.inr ⟨lm, _, h2, rfl, ?_⟩
      rw [Heap.leaf, h2]
      exact ⟨rfl, rfl, rfl, rfl, by simp [h3]⟩
    · exact Or.inl rfl

/-- The leaves of the divided heap: the halves, the right neighbour, and the others. -/
lemma leafData_divideLeaf (hI : HeapInv P R h G) (hn : G.live n) (hl : h.node n = .leaf l)
    {a : Ptr} {la : Leaf β} (hla : ((divideLeaf h n l.next left right).node a).leafData = some la) :
    (a = n ∧ la = { left with parent := none }) ∨
    (a = h.size ∧ a ≠ n ∧ la = { right with parent := none }) ∨
    (a ≠ n ∧ a ≠ h.size ∧ l.next = some a ∧ ∃ lo, (h.node a).leafData = some lo ∧
      la = { lo with prev := some h.size }) ∨
    (a ≠ n ∧ a ≠ h.size ∧ l.next ≠ some a ∧ (h.node a).leafData = some la) := by
  rw [node_divideLeaf hI hn hl] at hla
  split_ifs at hla with h1 h2 h3
  · exact Or.inl ⟨h1, by simpa using hla.symm⟩
  · exact Or.inr (Or.inl ⟨h2, h1, by simpa using hla.symm⟩)
  · obtain ⟨-, -, -, -, lm, h4, -⟩ := hI.next_leaf hn hl h3.symm
    refine Or.inr
      (Or.inr (Or.inl ⟨h1, h2, h3.symm, { lm with parent := none }, by rw [h4]; rfl, ?_⟩))
    rw [Heap.leaf, h4] at hla
    simpa using hla.symm
  · exact Or.inr (Or.inr (Or.inr ⟨h1, h2, fun h0 => h3 h0.symm, hla⟩))

lemma leafInv_divideLeaf (hI : HeapInv P R h G) (hn : G.live n) (hl : h.node n = .leaf l)
    (hleft : LeafOk P R (G.divide n h.size k) n { left with parent := none })
    (hright : LeafOk P R (G.divide n h.size k) h.size { right with parent := none }) :
    LeafInv P R (divideLeaf h n l.next left right) (G.divide n h.size k) := by
  have hold : ∀ {a la}, a ≠ n → a ≠ h.size → (G.divide n h.size k).live a →
      (h.node a).leafData = some la → LeafOk P R (G.divide n h.size k) a la := by
    intro a la h1 h2 ha hla
    exact (hI.leaves a la (ha.resolve_left h2) hla).congr (if_neg h2)
      (by simp [Ghost.divide, h1, h2]) (if_neg h2)
  intro a la ha hla
  rcases leafData_divideLeaf hI hn hl hla with ⟨rfl, rfl⟩ | ⟨rfl, -, rfl⟩ |
    ⟨h1, h2, h3, lo, h4, rfl⟩ | ⟨h1, h2, -, h4⟩
  · exact hleft
  · exact hright
  · have hok := hold h1 h2 ha h4
    obtain ⟨-, -, -, -, lm, h5, h6⟩ := hI.next_leaf hn hl h3
    have hprev : lo.prev ≠ none := by
      rw [h5] at h4
      obtain rfl : _ = lo := by simpa using h4
      simp [h6]
    exact ⟨hok.perm, hok.slots, hok.sorted, hok.within, hok.modstate,
      iff_of_false (by simp) (fun h0 => hprev (hok.first.mpr h0)), fun _ => hok.bound hprev⟩
  · exact hold h1 h2 ha h4

section Chain

variable (hI : HeapInv P R h G) (hn : G.live n) (hl : h.node n = .leaf l)
  (hh : Halves l n h.size left right)

include hI hn hl

lemma leafData_divideLeaf_left : ((divideLeaf h n l.next left right).node n).leafData
    = some { left with parent := none } := by
  rw [node_divideLeaf hI hn hl, if_pos rfl]; rfl

lemma leafData_divideLeaf_right : ((divideLeaf h n l.next left right).node h.size).leafData
    = some { right with parent := none } := by
  rw [node_divideLeaf hI hn hl, if_neg (hI.tree.live_lt hn).ne', if_pos rfl]; rfl

variable (left right) in
/-- The right neighbour of the divided leaf. -/
lemma leafData_divideLeaf_next {m : Ptr} (hm : l.next = some m) :
    ∃ lm, h.node m = .leaf lm ∧ lm.prev = some n ∧
      ((divideLeaf h n l.next left right).node m).leafData
        = some { lm with parent := none, prev := some h.size } := by
  obtain ⟨h1, h2, -, -, lm, h5, h6⟩ := hI.next_leaf hn hl hm
  refine ⟨lm, h5, h6, ?_⟩
  rw [node_divideLeaf hI hn hl, if_neg h2, if_neg (hI.tree.live_lt h1).ne, if_pos hm.symm,
    Heap.leaf, h5]
  rfl

include hh

/-- The links of an old leaf, which may be the left half or the right neighbour. -/
lemma exists_leafData_divideLeaf {m : Ptr} {lm : Leaf β} (hm : G.live m)
    (hlm : (h.node m).leafData = some lm) :
    ∃ lm', ((divideLeaf h n l.next left right).node m).leafData = some lm' ∧
      (m ≠ n → lm'.next = lm.next) ∧ (l.next ≠ some m → lm'.prev = lm.prev) := by
  by_cases hmn : m = n
  · subst hmn
    refine ⟨_, leafData_divideLeaf_left hI hn hl, fun h0 => absurd rfl h0, fun _ => ?_⟩
    obtain rfl : _ = lm := by simpa [hl] using hlm
    exact hh.left_prev
  · by_cases hml : l.next = some m
    · obtain ⟨lm', h5, -, h6⟩ :=
        leafData_divideLeaf_next left right hI hn hl hml
      obtain rfl : _ = lm := by simpa [h5] using hlm
      exact ⟨_, h6, fun _ => rfl, fun h0 => absurd hml h0⟩
    · refine ⟨lm, ?_, fun _ => rfl, fun _ => rfl⟩
      rw [node_divideLeaf hI hn hl, if_neg hmn, if_neg (hI.tree.live_lt hm).ne,
        if_neg (fun h0 => hml h0.symm)]
      exact hlm

/-- What an old leaf other than `n` knows of its right neighbour. -/
lemma next_divideLeaf {a m : Ptr} {la : Leaf β} (han : a ≠ n) (ha : G.live a)
    (hla : (h.node a).leafData = some la) (hm : la.next = some m) :
    (G.divide n h.size k).live m ∧
      (G.divide n h.size k).fam m = (G.divide n h.size k).fam a ∧
      (G.divide n h.size k).lo m = (G.divide n h.size k).hi a ∧
      ∃ lm, ((divideLeaf h n l.next left right).node m).leafData = some lm ∧
        lm.prev = some a := by
  obtain ⟨h1, h2, h3, lm, h4, h5⟩ := (hI.chain a la ha hla).next_some m hm
  obtain ⟨lm', h6, -, h7⟩ := exists_leafData_divideLeaf hI hn hl hh h1 h4
  have hlta := hI.tree.live_lt ha
  have hltm := hI.tree.live_lt h1
  refine ⟨Or.inr h1, (if_neg hltm.ne).trans (h2.trans (if_neg hlta.ne).symm),
    (if_neg hltm.ne).trans (h3.trans (Ghost.hi_divide hlta han).symm), lm', h6, (h7 ?_).trans h5⟩
  intro h0
  obtain ⟨-, -, -, -, lm'', h8, h9⟩ := hI.next_leaf hn hl h0
  obtain rfl : _ = lm := by simpa [h8] using h4
  exact han (by simpa [h9] using h5.symm)

/-- What an old leaf knows of its left neighbour, if that one is not divided. -/
lemma prev_divideLeaf {a m : Ptr} {la : Leaf β} (ha : G.live a)
    (hla : (h.node a).leafData = some la) (hm : la.prev = some m) (hmn : m ≠ n) :
    (G.divide n h.size k).live m ∧
      (G.divide n h.size k).fam m = (G.divide n h.size k).fam a ∧
      (G.divide n h.size k).hi m = (G.divide n h.size k).lo a ∧
      ∃ lm, ((divideLeaf h n l.next left right).node m).leafData = some lm ∧
        lm.next = some a := by
  obtain ⟨h1, h2, h3, lm, h4, h5⟩ := (hI.chain a la ha hla).prev_some m hm
  obtain ⟨lm', h6, h7, -⟩ := exists_leafData_divideLeaf hI hn hl hh h1 h4
  have hlta := hI.tree.live_lt ha
  have hltm := hI.tree.live_lt h1
  exact ⟨Or.inr h1, (if_neg hltm.ne).trans (h2.trans (if_neg hlta.ne).symm),
    (Ghost.hi_divide hltm hmn).trans (h3.trans (if_neg hlta.ne).symm), lm', h6, (h7 hmn).trans h5⟩

lemma chainOk_left : ChainOk (divideLeaf h n l.next left right) (G.divide n h.size k) n
    { left with parent := none } := by
  have hns := hI.tree.live_lt hn
  have hla : (h.node n).leafData = some { l with parent := none } := by rw [hl]; rfl
  refine ⟨fun m hm => ?_, fun h0 => ?_, fun m hm => ?_, fun h0 => ?_⟩
  · obtain rfl : h.size = m := by simpa [hh.left_next] using hm
    exact ⟨Or.inl rfl, (if_pos rfl).trans (if_neg hns.ne).symm,
      (if_pos rfl).trans (Ghost.hi_divide_self hns).symm, _, leafData_divideLeaf_right hI hn hl,
      hh.right_prev⟩
  · simp [hh.left_next] at h0
  · refine prev_divideLeaf hI hn hl hh hn hla (hh.left_prev ▸ hm) ?_
    rintro rfl
    have hlo := ((hI.chain m _ hn hla).prev_some m (hh.left_prev ▸ hm)).2.2.1
    have hrange := (hI.tree.range hn).1
    omega
  · exact (if_neg hns.ne).trans ((hI.chain n _ hn hla).prev_none (hh.left_prev ▸ h0))

lemma chainOk_right : ChainOk (divideLeaf h n l.next left right) (G.divide n h.size k) h.size
    { right with parent := none } := by
  have hns := hI.tree.live_lt hn
  have hhi : (G.divide n h.size k).hi h.size = G.hi n := if_pos rfl
  have hfam : (G.divide n h.size k).fam h.size = G.fam n := if_pos rfl
  have hchain := hI.chain n { l with parent := none } hn (by rw [hl]; rfl)
  refine ⟨fun m hm => ?_, fun h0 => ?_, fun m hm => ?_, fun h0 => ?_⟩
  · have hnext : l.next = some m := hh.right_next ▸ hm
    obtain ⟨g1, -, g3, g4, -⟩ := hI.next_leaf hn hl hnext
    obtain ⟨lm, -, -, h6⟩ := leafData_divideLeaf_next left right hI hn hl hnext
    have hltm := hI.tree.live_lt g1
    rw [hfam, hhi]
    exact ⟨Or.inr g1, (if_neg hltm.ne).trans g3, (if_neg hltm.ne).trans g4, _, h6, rfl⟩
  · rw [hhi]
    exact hchain.next_none (hh.right_next ▸ h0)
  · obtain rfl : n = m := by simpa [hh.right_prev] using hm
    exact ⟨Or.inr hn, (if_neg hns.ne).trans hfam.symm,
      (Ghost.hi_divide_self hns).trans (if_pos rfl).symm, _, leafData_divideLeaf_left hI hn hl,
      hh.left_next⟩
  · simp [hh.right_prev] at h0

/-- The right neighbour has the right half in front of it now. -/
lemma chainOk_neighbour {a : Ptr} {lo : Leaf β} (ha : G.live a) (han : a ≠ n)
    (hnext : l.next = some a) (hlo : (h.node a).leafData = some lo) :
    ChainOk (divideLeaf h n l.next left right) (G.divide n h.size k) a
      { lo with prev := some h.size } := by
  have hlt := hI.tree.live_lt ha
  refine ⟨fun m hm => next_divideLeaf hI hn hl hh han ha hlo hm, fun h0 => ?_, fun m hm => ?_,
    fun h0 => ?_⟩
  · exact (Ghost.hi_divide hlt han).trans ((hI.chain a lo ha hlo).next_none h0)
  · obtain rfl : h.size = m := by simpa using hm
    obtain ⟨-, -, g3, g4, -⟩ := hI.next_leaf hn hl hnext
    exact ⟨Or.inl rfl, (if_pos rfl).trans (g3.symm.trans (if_neg hlt.ne).symm),
      (if_pos rfl).trans (g4.symm.trans (if_neg hlt.ne).symm), _,
      leafData_divideLeaf_right hI hn hl, hh.right_next.trans hnext⟩
  · simp at h0

lemma chainOk_other {a : Ptr} {la : Leaf β} (ha : G.live a) (han : a ≠ n)
    (hnext : l.next ≠ some a) (hla : (h.node a).leafData = some la) :
    ChainOk (divideLeaf h n l.next left right) (G.divide n h.size k) a la := by
  have hlt := hI.tree.live_lt ha
  have hold := hI.chain a la ha hla
  refine ⟨fun m hm => next_divideLeaf hI hn hl hh han ha hla hm, fun h0 => ?_, fun m hm => ?_,
    fun h0 => ?_⟩
  · exact (Ghost.hi_divide hlt han).trans (hold.next_none h0)
  · refine prev_divideLeaf hI hn hl hh ha hla hm ?_
    rintro rfl
    obtain ⟨-, -, -, lm, g4, g5⟩ := hold.prev_some m hm
    obtain rfl : _ = lm := by simpa [hl] using g4
    exact hnext g5
  · exact (if_neg hlt.ne).trans (hold.prev_none h0)

lemma chainInv_divideLeaf :
    ChainInv (divideLeaf h n l.next left right) (G.divide n h.size k) := by
  intro a la ha hla
  rcases leafData_divideLeaf hI hn hl hla with ⟨rfl, rfl⟩ | ⟨rfl, -, rfl⟩ |
    ⟨h1, h2, h3, lo, h4, rfl⟩ | ⟨h1, h2, h3, h4⟩
  · exact chainOk_left hI hn hl hh
  · exact chainOk_right hI hn hl hh
  · exact chainOk_neighbour hI hn hl hh (ha.resolve_left h2) h1 h3 h4
  · exact chainOk_other hI hn hl hh (ha.resolve_left h2) h1 h3 h4

end Chain

lemma entry_divideLeaf (hI : HeapInv P R h G) (hn : G.live n) (hl : h.node n = .leaf l)
    (hh : Halves l n h.size left right) (f : Ptr) (s : Slot β) :
    Entry (divideLeaf h n l.next left right) (G.divide n h.size k) f s ↔ Entry h G f s := by
  have hns := hI.tree.live_lt hn
  have hnode := node_divideLeaf hI hn hl left right
  constructor
  · rintro ⟨a, la, ha, hf, hla, hs⟩
    have hln : (h.node n).leafData = some { l with parent := none } := by rw [hl]; rfl
    rcases leafData_divideLeaf hI hn hl hla with ⟨rfl, rfl⟩ | ⟨rfl, -, rfl⟩ |
      ⟨h1, h2, h3, lo, h4, rfl⟩ | ⟨h1, h2, h3, h4⟩
    · refine ⟨a, _, hn, (if_neg hns.ne).symm.trans hf, hln, ?_⟩
      change s ∈ l.entries
      rw [← hh.entries]
      exact List.mem_append_left _ hs
    · refine ⟨n, _, hn, (if_pos rfl).symm.trans hf, hln, ?_⟩
      change s ∈ l.entries
      rw [← hh.entries]
      exact List.mem_append_right _ hs
    · exact ⟨a, lo, ha.resolve_left h2, (if_neg h2).symm.trans hf, h4, hs⟩
    · exact ⟨a, la, ha.resolve_left h2, (if_neg h2).symm.trans hf, h4, hs⟩
  · rintro ⟨a, la, ha, hf, hla, hs⟩
    have hlt := hI.tree.live_lt ha
    by_cases han : a = n
    · subst han
      obtain rfl : _ = la := by simpa [hl] using hla
      have hs' : s ∈ left.entries ++ right.entries := by rw [hh.entries]; exact hs
      rcases List.mem_append.mp hs' with h1 | h1
      · exact ⟨a, { left with parent := none }, Or.inr ha, (if_neg hns.ne).trans hf,
          by rw [hnode, if_pos rfl]; rfl, h1⟩
      · exact ⟨h.size, { right with parent := none }, Or.inl rfl, (if_pos rfl).trans hf,
          by rw [hnode, if_neg hns.ne', if_pos rfl]; rfl, h1⟩
    · by_cases hal : l.next = some a
      · obtain ⟨-, -, -, -, lm, h5, -⟩ := hI.next_leaf hn hl hal
        obtain rfl : _ = la := by simpa [h5] using hla
        refine ⟨a, { lm with parent := none, prev := some h.size }, Or.inr ha,
          (if_neg hlt.ne).trans hf, ?_, hs⟩
        rw [hnode, if_neg han, if_neg hlt.ne, if_pos hal.symm, Heap.leaf, h5]
        rfl
      · refine ⟨a, la, Or.inr ha, (if_neg hlt.ne).trans hf, ?_, hs⟩
        rw [hnode, if_neg han, if_neg hlt.ne, if_neg (fun h0 => hal h0.symm)]
        exact hla

end

end MasstreeLHM
