import MasstreeLHM.LeafSplit

/-!
# Inserting into a layer

After a search without hit the cursor makes room for the key in the leaf it found, splitting the
leaf if there is none, and later makes the new item live.  Between the two steps the tree is in
order, with an item more that is not live; `Room` says what the second step relies on.

`Vacant` is a free slot of a leaf that may be made live at a position: the items before it come
first in the order, and writing the slot does not change the lower bound, which a leaf keeps in slot
0.  That slot is why a leaf with one free slot may have to be split too (`split_cases`).

`LeafCut` is a leaf that is split at a point, with the new item on the left or on the right of it.
**`split_halves`** has both sides, from `left_ok`, `right_ok`, `new_left` and `new_right`.
**`makeSplit_spec`** adds the loop over the ancestors, **`makeRoom_spec`** the case without a split,
and **`finishInsert_spec`** makes the item live.  The last section allocates the leaf of a new
layer.
-/

namespace MasstreeLHM

open Separators
variable {β : Type} {h h' h'' : Heap β} {G G' G'' : Ghost}

/-- What an operation inside some layers leaves alone: old nodes stay what they are and in their
layer, no layer appears, and every layer keeps its metadata. -/
structure Frame (h : Heap β) (G : Ghost) (h' : Heap β) (G' : Ghost) : Prop where
  size_le : h.size ≤ h'.size
  gone : G'.gone = G.gone
  isLeaf : ∀ a < h.size, (h'.node a).isLeaf = (h.node a).isLeaf
  fam : ∀ a < h.size, G'.fam a = G.fam a
  new_fam : ∀ a, G'.Known h' a → ∃ b, G.Known h b ∧ G'.fam a = G.fam b
  directoryMeta : ∀ a, G.Known h a → (h'.node (G'.top (G.fam a))).directoryMeta
    = (h.node (G.top (G.fam a))).directoryMeta

namespace Frame

lemma refl (h : Heap β) (G : Ghost) : Frame h G h G :=
  ⟨le_rfl, rfl, fun _ _ => rfl, fun _ _ => rfl, fun a ha => ⟨a, ha, rfl⟩, fun _ _ => rfl⟩

lemma known (hF : Frame h G h' G') {a : Ptr} (ha : G.Known h a) : G'.Known h' a :=
  ⟨ha.1.trans_le hF.size_le, by rw [hF.gone]; exact ha.2⟩

lemma trans (h₁ : Frame h G h' G') (h₂ : Frame h' G' h'' G'') : Frame h G h'' G'' where
  size_le := h₁.size_le.trans h₂.size_le
  gone := h₂.gone.trans h₁.gone
  isLeaf a ha := (h₂.isLeaf a (ha.trans_le h₁.size_le)).trans (h₁.isLeaf a ha)
  fam a ha := (h₂.fam a (ha.trans_le h₁.size_le)).trans (h₁.fam a ha)
  new_fam a ha := by
    obtain ⟨b, hb, hfb⟩ := h₂.new_fam a ha
    obtain ⟨c, hc, hfc⟩ := h₁.new_fam b hb
    exact ⟨c, hc, hfb.trans hfc⟩
  directoryMeta a ha := by
    have := h₂.directoryMeta a (h₁.known ha)
    rw [h₁.fam a ha.1] at this
    exact this.trans (h₁.directoryMeta a ha)

end Frame

lemma SameTree.frame (hs : SameTree h h') (G : Ghost) : Frame h G h' G where
  size_le := hs.size.ge
  gone := rfl
  isLeaf a _ := hs.isLeaf a
  fam _ _ := rfl
  new_fam a ha := ⟨a, hs.shape.known.mp ha, rfl⟩
  directoryMeta _ _ := hs.directoryMeta _

lemma Above.frame {φ : Ptr} (hA : Above φ h G h' G') : Frame h G h' G' where
  size_le := hA.size_le
  gone := hA.gone
  isLeaf _ ha := hA.isLeaf ha
  fam := hA.fam
  new_fam a ha := by
    by_cases has : a < h.size
    · exact ⟨a, ⟨has, hA.gone ▸ ha.2⟩, hA.fam a has⟩
    · exact (hA.new_node a ha.1 (Nat.not_lt.mp has)).2
  directoryMeta := hA.directoryMeta

lemma LeafDivided.frame {n : Ptr} (hd : LeafDivided h h' n) (hT : TreeInv h G G.exact)
    (hn : G.live n) (k : ℕ) : Frame h G h' (G.divide n h.size k) where
  size_le := by rw [hd.size]; exact Nat.le_succ _
  gone := rfl
  isLeaf a ha := (hd.like ha).2.2.1
  fam a ha := if_neg ha.ne
  new_fam a ha := by
    by_cases has : a = h.size
    · exact ⟨n, hT.known hn, if_pos has⟩
    · have hlt := ha.1
      rw [hd.size] at hlt
      exact ⟨a, ⟨lt_of_le_of_ne (Nat.lt_succ_iff.mp hlt) has, ha.2⟩, if_neg has⟩
  directoryMeta a ha := (hd.like (hT.live_lt (hT.top_spec ha).1)).2.2.2.2.2.1

/-! ## Room for a new item -/

variable [Inhabited β] {P : NodeParams} {R : Slot β → Slot β → Prop}

/-- Slot `p` of a leaf is free, and may be made live at position `i` for slice `x`: the items
before it satisfy `Bf`, those behind it `Af`, and writing the slot does not destroy the lower
bound of the leaf. -/
structure Vacant (P : NodeParams) (i p x : ℕ) (Bf Af : Slot β → Prop) (l : Leaf β) : Prop where
  size_lt : l.size < P.leafWidth
  back : l.permutation.back = p
  le_size : i ≤ l.size
  before : ∀ s ∈ l.entries.take i, Bf s
  after : ∀ s ∈ l.entries.drop i, Af s
  keep : p ≠ 0 ∨ l.prev = none ∨ l.ikeyBound = x

/-- The cursor position `pos` is a vacant slot of the leaf of layer `f` responsible for `x`. -/
structure Room (P : NodeParams) (h : Heap β) (G : Ghost) (f : Ptr) (pos : Position) (x : ℕ)
    (Bf Af : Slot β → Prop) (l : Leaf β) : Prop where
  live : G.live pos.n
  fam : G.fam pos.n = f
  leaf : h.node pos.n = .leaf l
  lo : G.lo pos.n ≤ x
  hi : x < G.hi pos.n
  vacant : Vacant P pos.i pos.p x Bf Af l

namespace Leaf

lemma slot_assign {l : Leaf β} {p q : ℕ} {s : Slot β} (hq : q < l.slots.length) :
    (l.assign p s).slot q = if q = p then s else l.slot q := by
  simp only [slot, assign, List.getD_eq_getElem?_getD, List.getElem?_set]
  by_cases hqp : q = p
  · subst hqp
    simp [hq]
  · rw [if_neg (Ne.symm hqp), if_neg hqp]

lemma slot_assign_cases (l : Leaf β) (p q : ℕ) (s : Slot β) :
    (l.assign p s).slot q = l.slot q ∨ (q = p ∧ (l.assign p s).slot q = s) := by
  by_cases hq : q < l.slots.length
  · rw [slot_assign hq]
    split_ifs with h
    · exact Or.inr ⟨h, rfl⟩
    · exact Or.inl rfl
  · refine Or.inl ?_
    simp only [slot, assign, List.getD_eq_getElem?_getD, List.getElem?_set]
    split_ifs with h1 h2
    · exact absurd (h1 ▸ h2) hq
    · rw [List.getElem?_eq_none (Nat.not_lt.mp hq)]
    · rfl

lemma entries_assign {l : Leaf β} {p : ℕ} {s : Slot β} (hp : p ∉ l.permutation.live)
    (hlt : ∀ q ∈ l.permutation.live, q < l.slots.length) :
    (l.assign p s).entries = l.entries := by
  refine List.map_congr_left fun q hq => ?_
  rw [slot_assign (hlt q hq), if_neg]
  rintro rfl
  exact hp hq

end Leaf

/-- Slots may be rewritten, as long as their order cannot tell. -/
lemma LeafOk.rewrite {a : Ptr} {l l' : Leaf β} (hl : LeafOk P R G a l)
    (hperm : l'.permutation = l.permutation) (hslots : l'.slots.length = l.slots.length)
    (hprev : l'.prev = l.prev) (hmod : l'.modstate ≠ .deletedLayer)
    (hikey : ∀ q, (l'.slot q).ikey = (l.slot q).ikey)
    (hR : ∀ p q, R (l.slot p) (l.slot q) → R (l'.slot p) (l'.slot q)) : LeafOk P R G a l' := by
  refine ⟨hperm ▸ hl.perm, hslots.trans hl.slots, ?_, ?_, hmod, hprev ▸ hl.first, ?_⟩
  · have hs := hl.sorted
    rw [Leaf.entries, List.pairwise_map] at hs ⊢
    rw [hperm]
    exact hs.imp (hR _ _)
  · intro s hs
    rw [Leaf.entries, hperm] at hs
    obtain ⟨q, hq, rfl⟩ := List.mem_map.mp hs
    rw [hikey]
    exact hl.within _ (List.mem_map_of_mem hq)
  · intro h0
    rw [hprev] at h0
    exact (hikey 0).trans (hl.bound h0)

/-- A free slot may be written, as long as the lower bound of the leaf survives. -/
lemma LeafOk.assign {a : Ptr} {l : Leaf β} (hl : LeafOk P R G a l) {p : ℕ} {s : Slot β}
    (hp : p ∉ l.permutation.live) (hkeep : p ≠ 0 ∨ l.prev = none ∨ l.ikeyBound = s.ikey) :
    LeafOk P R G a (l.assign p s) := by
  have hlt : ∀ q ∈ l.permutation.live, q < l.slots.length := fun q hq => by
    rw [hl.slots]
    exact hl.perm.live_lt hq
  have hent := Leaf.entries_assign (s := s) hp hlt
  refine ⟨hl.perm, by simpa [Leaf.assign] using hl.slots, by rw [hent]; exact hl.sorted,
    by rw [hent]; exact hl.within, hl.modstate, hl.first, ?_⟩
  intro hprev
  have h3 := P.three_le_leafWidth
  have hbound := hl.bound hprev
  rw [Leaf.ikeyBound, Leaf.slot_assign (by rw [hl.slots]; omega)]
  split_ifs with h0
  · rcases hkeep with h1 | h1 | h1
    · exact absurd h0.symm h1
    · exact absurd h1 hprev
    · rw [← h1, hbound]
  · exact hbound

/-- Replacing the contents of a leaf without changing its items. -/
lemma HeapInv.rewrite_leaf {n : Ptr} {l : Leaf β} (hI : HeapInv P R h G) (hn : G.live n)
    (hl : h.node n = .leaf l) (l' : Leaf β) (hs : l.SameLinks l') (hnext : l'.next = l.next)
    (hprev : l'.prev = l.prev) (hok : LeafOk P R G n { l' with parent := none })
    (hent : l'.entries = l.entries) :
    HeapInv P R (h.setLeaf n l') G ∧ Frame h G (h.setLeaf n l') G ∧
      ∀ f s, Entry (h.setLeaf n l') G f s ↔ Entry h G f s := by
  refine ⟨hI.setLeaf hl hs hnext hprev (fun _ => hok), (SameTree.setLeaf hl hs).frame G, ?_⟩
  intro f s
  rw [entry_setLeaf hn, entry_iff_leaf hn hl, hent]

/-! ## Splitting a full leaf -/

section

variable {n i x : ℕ} {ka : Slot β} {l : Leaf β} {Bf Af : Slot β → Prop}

/-- The sequence of items, the new one included, is sorted by slice. -/
lemma itemsWith_sorted (hR : ∀ s t, R s t → s.ikey ≤ t.ikey) (hs : l.entries.Pairwise R)
    (hbf : ∀ s ∈ l.entries.take i, s.ikey ≤ ka.ikey)
    (haf : ∀ s ∈ l.entries.drop i, ka.ikey ≤ s.ikey) :
    ((l.itemsWith i ka).map Slot.ikey).Pairwise (· ≤ ·) := by
  rw [List.pairwise_map, Leaf.itemsWith, List.pairwise_append]
  have hle : l.entries.Pairwise fun s t => s.ikey ≤ t.ikey := hs.imp (fun h => hR _ _ h)
  refine ⟨hle.sublist (List.take_sublist _ _), List.pairwise_cons.mpr
    ⟨haf, hle.sublist (List.drop_sublist _ _)⟩, ?_⟩
  intro s hs t ht
  rcases List.mem_cons.mp ht with rfl | ht
  · exact hbf s hs
  · exact (hbf s hs).trans (haf t ht)

omit [Inhabited β] in
/-- A leaf is split only if it is full, or if its one free slot keeps the lower bound. -/
lemma split_cases (hw : l.permutation.WF P.leafWidth)
    (hno : l.size < P.leafWidth → l.permutation.back = 0)
    (hcond : ¬ (l.size < P.leafWidth ∧
      (l.permutation.exchange l.size (P.leafWidth - 1)).back ≠ 0)) :
    l.size = P.leafWidth ∨
      (l.size + 1 = P.leafWidth ∧ l.permutation.get (P.leafWidth - 1) = 0) := by
  have h3 := P.three_le_leafWidth
  have hsz : l.size ≤ P.leafWidth := hw.size_le
  by_cases hlt : l.size < P.leafWidth
  · rw [not_and, not_not] at hcond
    have e1 := hcond hlt
    have e2 := hno hlt
    rw [hw.back_exchange hlt] at e1
    rw [hw.back_eq_get] at e2
    -- two positions hold slot 0, so they are the same
    have := hw.get_inj hlt (by omega) (e1.trans e2.symm)
    exact Or.inr ⟨by omega, e2⟩
  · exact Or.inl (by omega)

/-- The leaf `l` of `n` is split at `mid`, with the new item `ka` at position `i`. -/
structure LeafCut (P : NodeParams) (R : Slot β → Slot β → Prop) (G : Ghost) (n : Ptr) (i mid : ℕ)
    (ka : Slot β) (l : Leaf β) : Prop where
  ok : LeafOk P R G n { l with parent := none }
  pos_le : i ≤ l.size
  lo_le : G.lo n ≤ ka.ikey
  full : l.size = P.leafWidth ∨
    (l.size + 1 = P.leafWidth ∧ l.permutation.get (P.leafWidth - 1) = 0)
  one_le : 1 ≤ mid
  mid_le : mid ≤ l.size
  lt : ∀ s ∈ (l.itemsWith i ka).take mid, s.ikey < l.ikeyAfterInsert i ka mid
  ge : ∀ s ∈ (l.itemsWith i ka).drop mid, l.ikeyAfterInsert i ka mid ≤ s.ikey

namespace LeafCut

variable {G : Ghost} {mid nr : ℕ} (hcut : LeafCut P R G n i mid ka l)

include hcut

lemma wf : l.permutation.WF P.leafWidth := hcut.ok.perm

lemma pos_le_length : i ≤ l.entries.length := hcut.pos_le.trans (Leaf.entries_length hcut.wf).ge

/-- On which side the items are, if the new one stays on the left. -/
lemma cut_left (h0 : i < mid) :
    (l.itemsWith i ka).take mid
        = (l.entries.take (mid - 1)).take i ++ ka :: (l.entries.take (mid - 1)).drop i ∧
      (l.itemsWith i ka).drop mid = l.entries.drop (mid - 1) :=
  Leaf.itemsWith_cut_left ka h0 hcut.pos_le_length

/-- On which side they are, if it goes to the right. -/
lemma cut_right (h0 : mid ≤ i) :
    (l.itemsWith i ka).take mid = l.entries.take mid ∧
      (l.itemsWith i ka).drop mid
        = (l.entries.drop mid).take (i - mid) ++ ka :: (l.entries.drop mid).drop (i - mid) :=
  Leaf.itemsWith_cut_right ka h0 hcut.pos_le_length

/-- What goes to the right half starts at the separator. -/
lemma right_entries : (l.splitRight P n i ka mid).entries.Sublist l.entries ∧
    ∀ s ∈ (l.splitRight P n i ka mid).entries, l.ikeyAfterInsert i ka mid ≤ s.ikey := by
  obtain ⟨-, -, -, r4, r5⟩ :=
    Leaf.splitRight_spec hcut.wf n ka hcut.pos_le hcut.one_le hcut.mid_le
  rcases Nat.lt_or_ge i mid with h0 | h0
  · rw [(r4 h0).1]
    refine ⟨List.drop_sublist _ _, fun s hs => hcut.ge s ?_⟩
    rw [(hcut.cut_left h0).2]
    exact hs
  · rw [(r5 h0).1]
    refine ⟨List.drop_sublist _ _, fun s hs => hcut.ge s ?_⟩
    rw [(hcut.cut_right h0).2]
    rw [← List.take_append_drop (i - mid) (l.entries.drop mid)] at hs
    rcases List.mem_append.mp hs with h1 | h1
    · exact List.mem_append_left _ h1
    · exact List.mem_append_right _ (List.mem_cons_of_mem _ h1)

lemma right_ok (hfam : G.fam n ≠ nr) :
    LeafOk P R (G.divide n nr (l.ikeyAfterInsert i ka mid)) nr
      { l.splitRight P n i ka mid with parent := none } := by
  obtain ⟨r1, r2, r3, -⟩ := Leaf.splitRight_spec hcut.wf n ka hcut.pos_le hcut.one_le hcut.mid_le
  have hlo : (G.divide n nr (l.ikeyAfterInsert i ka mid)).lo nr = l.ikeyAfterInsert i ka mid :=
    if_pos rfl
  have hhi : (G.divide n nr (l.ikeyAfterInsert i ka mid)).hi nr = G.hi n := if_pos rfl
  have hfam' : (G.divide n nr (l.ikeyAfterInsert i ka mid)).fam nr = G.fam n := if_pos rfl
  refine ⟨r1, r2, hcut.ok.sorted.sublist hcut.right_entries.1, ?_,
    by simp [Leaf.splitRight, Leaf.make], ?_, fun _ => r3.trans hlo.symm⟩
  · intro s hs
    rw [hlo, hhi]
    exact ⟨hcut.right_entries.2 s hs,
      (hcut.ok.within s (hcut.right_entries.1.subset hs)).2⟩
  · rw [hfam']
    exact iff_of_false (by simp [Leaf.splitRight]) hfam

/-- The left half, with what comes before the separator. -/
lemma left_ok (hnr : nr ≠ n) {c : ℕ} (hc : l.size - (l.splitRight P n i ka mid).size = c)
    (hsub : ∀ s ∈ l.entries.take c, s ∈ (l.itemsWith i ka).take mid) :
    LeafOk P R (G.divide n nr (l.ikeyAfterInsert i ka mid)) n
      { l.splitLeft P nr (l.splitRight P n i ka mid).size with parent := none } := by
  obtain ⟨l1, -, l3, -⟩ := Leaf.splitLeft_spec hcut.wf nr (l.splitRight P n i ka mid).size
  have hlo : (G.divide n nr (l.ikeyAfterInsert i ka mid)).lo n = G.lo n := if_neg hnr.symm
  have hhi : (G.divide n nr (l.ikeyAfterInsert i ka mid)).hi n = l.ikeyAfterInsert i ka mid :=
    (if_neg hnr.symm).trans (if_pos rfl)
  have hfam : (G.divide n nr (l.ikeyAfterInsert i ka mid)).fam n = G.fam n := if_neg hnr.symm
  subst hc
  refine ⟨l1, hcut.ok.slots, ?_, ?_, hcut.ok.modstate, ?_, ?_⟩
  · change (l.splitLeft P nr (l.splitRight P n i ka mid).size).entries.Pairwise R
    rw [l3]
    exact hcut.ok.sorted.sublist (List.take_sublist _ _)
  · intro s hs
    change s ∈ (l.splitLeft P nr (l.splitRight P n i ka mid).size).entries at hs
    rw [l3] at hs
    rw [hlo, hhi]
    exact ⟨(hcut.ok.within s (List.mem_of_mem_take hs)).1, hcut.lt s (hsub s hs)⟩
  · rw [hfam]
    exact hcut.ok.first
  · rw [hlo]
    exact hcut.ok.bound

/-- Slot 0 keeps the lower bound of the leaf, and is not what the split sets free on the left. -/
lemma keeps_bound (h0 : i < mid) :
    let left := l.splitLeft P nr (l.splitRight P n i ka mid).size
    left.permutation.back ≠ 0 ∨ left.prev = none := by
  intro left
  have hw := hcut.wf
  have hsz : l.size ≤ P.leafWidth := hw.size_le
  have hmid' := hcut.mid_le
  have hone := hcut.one_le
  obtain ⟨-, -, -, r4, -⟩ := Leaf.splitRight_spec hw n ka hcut.pos_le hcut.one_le hcut.mid_le
  obtain ⟨-, e2⟩ := r4 h0
  obtain ⟨-, -, -, -, l5, l6⟩ := Leaf.splitLeft_spec hw nr (l.splitRight P n i ka mid).size
  have hka_mem : ka ∈ (l.itemsWith i ka).take mid := by
    rw [(hcut.cut_left h0).1]
    exact List.mem_append_right _ List.mem_cons_self
  have hxk := hcut.lt ka hka_mem
  have hlo := hcut.lo_le
  by_cases hprev : l.prev = none
  · exact Or.inr hprev
  · refine Or.inl fun hb0 => ?_
    rcases hcut.full with hf | ⟨hf, hget⟩
    · -- the last item would be the one at the lower bound, and go to the right
      have e3 := l5 hf
      have hlast : l.entries[P.leafWidth - 1]? = some (l.slot 0) := by
        rw [Leaf.entries_getElem? hw (by omega), ← e3]
        exact congrArg (fun q => some (l.slot q)) hb0
      have hmem : l.slot 0 ∈ (l.itemsWith i ka).drop mid := by
        rw [(hcut.cut_left h0).2]
        refine List.mem_of_getElem? (i := P.leafWidth - 1 - (mid - 1)) ?_
        rw [List.getElem?_drop, show mid - 1 + (P.leafWidth - 1 - (mid - 1)) = P.leafWidth - 1
          by omega]
        exact hlast
      have h1 := hcut.ge _ hmem
      have h2 : (l.slot 0).ikey = G.lo n := hcut.ok.bound hprev
      omega
    · have e3 := l6 (by omega)
      have := hw.get_inj (by omega) (by omega) ((e3.symm.trans hb0).trans hget.symm)
      omega

/-- The new item stays on the left, in a vacant slot. -/
lemma new_left (hnr : nr ≠ n) {Bf Af : Slot β → Prop} (hbf : ∀ s ∈ l.entries.take i, Bf s)
    (haf : ∀ s ∈ l.entries.drop i, Af s) (h0 : i < mid) :
    let right := l.splitRight P n i ka mid
    let left := l.splitLeft P nr right.size
    LeafOk P R (G.divide n nr (l.ikeyAfterInsert i ka mid)) n
        { left.assign left.permutation.back ka with parent := none } ∧
      (left.assign left.permutation.back ka).entries ++ right.entries = l.entries ∧
      Vacant P i left.permutation.back ka.ikey Bf Af (left.assign left.permutation.back ka) := by
  intro right left
  have hw := hcut.wf
  have hsz : l.size ≤ P.leafWidth := hw.size_le
  have hmid' := hcut.mid_le
  obtain ⟨-, -, -, r4, -⟩ := Leaf.splitRight_spec hw n ka hcut.pos_le hcut.one_le hcut.mid_le
  obtain ⟨e1, e2⟩ := r4 h0
  obtain ⟨l1, l2, l3, l4, -⟩ := Leaf.splitLeft_spec hw nr right.size
  change right.size = _ at e2
  have hc : l.size - right.size = mid - 1 := by omega
  rw [hc] at l2 l3 l4
  have hsize : left.size = mid - 1 := l2
  have hok := hcut.left_ok hnr hc (fun s hs => by
    rw [(hcut.cut_left h0).1]
    rw [← List.take_append_drop i (l.entries.take (mid - 1))] at hs
    rcases List.mem_append.mp hs with h1 | h1
    · exact List.mem_append_left _ h1
    · exact List.mem_append_right _ (List.mem_cons_of_mem _ h1))
  have hback := l4 (by omega)
  have hkeep : left.permutation.back ≠ 0 ∨ left.prev = none := hcut.keeps_bound h0
  have hent : (left.assign left.permutation.back ka).entries = left.entries :=
    Leaf.entries_assign hback (fun q hq => by
      have := l1.live_lt hq
      have hs : left.slots.length = P.leafWidth := hcut.ok.slots
      omega)
  refine ⟨hok.assign hback (hkeep.imp_right Or.inl), ?_, ?_⟩
  · rw [hent, l3]
    change _ ++ (l.splitRight P n i ka mid).entries = _
    rw [e1, List.take_append_drop]
  · refine ⟨by change left.size < _; omega, rfl, by change i ≤ left.size; omega, ?_, ?_,
      hkeep.imp_right Or.inl⟩
    · rw [hent, l3, List.take_take, min_eq_left (by omega)]
      exact hbf
    · rw [hent, l3, List.drop_take]
      exact fun s hs => haf s (List.mem_of_mem_take hs)

/-- The new item goes to the right half. -/
lemma new_right (hnr : nr ≠ n) {Bf Af : Slot β → Prop} (hbf : ∀ s ∈ l.entries.take i, Bf s)
    (haf : ∀ s ∈ l.entries.drop i, Af s) (h0 : mid ≤ i) :
    let right := l.splitRight P n i ka mid
    let left := l.splitLeft P nr right.size
    LeafOk P R (G.divide n nr (l.ikeyAfterInsert i ka mid)) n { left with parent := none } ∧
      left.entries ++ right.entries = l.entries ∧ left.size = mid ∧
      Vacant P (i - mid) (i - mid) ka.ikey Bf Af right := by
  intro right left
  have hsz : l.size ≤ P.leafWidth := hcut.wf.size_le
  have hmid' := hcut.mid_le
  have hone := hcut.one_le
  have hi := hcut.pos_le
  obtain ⟨-, -, -, -, r5⟩ :=
    Leaf.splitRight_spec hcut.wf n ka hcut.pos_le hcut.one_le hcut.mid_le
  obtain ⟨e1, e2, e3, e4⟩ := r5 h0
  obtain ⟨-, l2, l3, -⟩ := Leaf.splitLeft_spec hcut.wf nr right.size
  change right.size = _ at e2
  have hc : l.size - right.size = mid := by omega
  rw [hc] at l2 l3
  have hok := hcut.left_ok hnr hc (fun s hs => by
    rw [(hcut.cut_right h0).1]
    exact hs)
  refine ⟨hok, ?_, l2, ?_⟩
  · rw [l3]
    change _ ++ (l.splitRight P n i ka mid).entries = _
    rw [e1, List.take_append_drop]
  · refine ⟨by omega, e3, by omega, ?_, ?_, ?_⟩
    · change ∀ s ∈ ((l.splitRight P n i ka mid).entries).take _, Bf s
      rw [e1, ← List.drop_take]
      exact fun s hs => hbf s (List.mem_of_mem_drop hs)
    · change ∀ s ∈ ((l.splitRight P n i ka mid).entries).drop _, Af s
      rw [e1, List.drop_drop, show mid + (i - mid) = i by omega]
      exact haf
    · by_cases hz : i - mid = 0
      · rw [hz] at e4
        exact Or.inr (Or.inr (congrArg Slot.ikey e4))
      · exact Or.inl hz

end LeafCut

/-- **The halves of a split leaf** are leaves for the two parts of the range, and the new item
has a vacant slot on its side. -/
lemma split_halves {G : Ghost} {mid nr : ℕ} (hok : LeafOk P R G n { l with parent := none })
    (hnr : nr ≠ n) (hfam : G.fam n ≠ nr) (hi : i ≤ l.size) (hxlo : G.lo n ≤ x)
    (hka : ka.ikey = x) (hbf : ∀ s ∈ l.entries.take i, Bf s) (haf : ∀ s ∈ l.entries.drop i, Af s)
    (hfull : l.size = P.leafWidth ∨
      (l.size + 1 = P.leafWidth ∧ l.permutation.get (P.leafWidth - 1) = 0))
    (hmid : 1 ≤ mid) (hmid' : mid ≤ l.size)
    (hlt : ∀ s ∈ (l.itemsWith i ka).take mid, s.ikey < l.ikeyAfterInsert i ka mid)
    (hge : ∀ s ∈ (l.itemsWith i ka).drop mid, l.ikeyAfterInsert i ka mid ≤ s.ikey) :
    let right := l.splitRight P n i ka mid
    let left := l.splitLeft P nr right.size
    let G' := G.divide n nr (l.ikeyAfterInsert i ka mid)
    right.ikeyBound = l.ikeyAfterInsert i ka mid ∧
    LeafOk P R G' nr { right with parent := none } ∧
    (i < mid → x < l.ikeyAfterInsert i ka mid ∧
      LeafOk P R G' n { left.assign left.permutation.back ka with parent := none } ∧
      (left.assign left.permutation.back ka).entries ++ right.entries = l.entries ∧
      Vacant P i left.permutation.back x Bf Af (left.assign left.permutation.back ka)) ∧
    (mid ≤ i → l.ikeyAfterInsert i ka mid ≤ x ∧ LeafOk P R G' n { left with parent := none } ∧
      left.entries ++ right.entries = l.entries ∧ left.size = mid ∧
      Vacant P (i - mid) (i - mid) x Bf Af right) := by
  subst hka
  have hcut : LeafCut P R G n i mid ka l := ⟨hok, hi, hxlo, hfull, hmid, hmid', hlt, hge⟩
  refine ⟨(Leaf.splitRight_spec hcut.wf n ka hi hmid hmid').2.2.1, hcut.right_ok hfam,
    fun h0 => ⟨hlt ka ?_, hcut.new_left hnr hbf haf h0⟩,
    fun h0 => ⟨hge ka ?_, hcut.new_right hnr hbf haf h0⟩⟩
  · rw [(hcut.cut_left h0).1]
    exact List.mem_append_right _ List.mem_cons_self
  · rw [(hcut.cut_right h0).2]
    exact List.mem_append_right _ List.mem_cons_self

omit [Inhabited β] in
/-- A leaf below a change keeps everything but its parent. -/
lemma Above.leaf_node {φ : Ptr} (hA : Above φ h G h' G') {a : Ptr} (ha : a < h.size)
    (hl : h.node a = .leaf l) :
    ∃ q, h'.node a = .leaf { l with parent := q } := by
  have hd := hA.leafData a ha
  rw [hl] at hd
  cases hn : h'.node a with
  | leaf l' =>
      rw [hn] at hd
      simp only [Node.leafData_leaf_eq, Option.some.injEq] at hd
      refine ⟨l'.parent, ?_⟩
      have : l' = { ({ l' with parent := none } : Leaf β) with parent := l'.parent } := rfl
      rw [this, hd]
  | internode m => simp [hn] at hd

/-- The leaf part of a split, followed by the loop over the ancestors. -/
lemma ascend_divideLeaf {left right : Leaf β} {k : ℕ} (t : ℕ) (hI : HeapInv P R h G)
    (hn : G.live n) (hl : h.node n = .leaf l) (hh : Halves l n h.size left right)
    (hleft : LeafOk P R (G.divide n h.size k) n { left with parent := none })
    (hright : LeafOk P R (G.divide n h.size k) h.size { right with parent := none })
    (hk : G.lo n < k) (hk' : k < G.hi n) :
    ∃ h' G', ascend P t ((divideLeaf h n l.next left right).size + 1) 0
        (divideLeaf h n l.next left right) ⟨n, h.size, k⟩ = some h' ∧
      HeapInv P R h' G' ∧ Frame h G h' G' ∧ (∀ f, f ≠ G.fam n → G'.top f = G.top f) ∧
      (∀ f s, Entry h' G' f s ↔ Entry h G f s) ∧
      (G'.live n ∧ G'.fam n = G.fam n ∧ G'.lo n = G.lo n ∧ G'.hi n = k ∧
        ∃ q, h'.node n = .leaf { left with parent := q }) ∧
      (G'.live h.size ∧ G'.fam h.size = G.fam n ∧ G'.lo h.size = k ∧ G'.hi h.size = G.hi n ∧
        ∃ q, h'.node h.size = .leaf { right with parent := q }) := by
  have hd := leafDivided hI hn hl hh
  have hS := hd.splitInv hI.tree hn hk hk'
  have hnode := node_divideLeaf hI hn hl left right
  have hns := hI.tree.live_lt hn
  have hnode_n : (divideLeaf h n l.next left right).node n = .leaf left := by
    rw [hnode, if_pos rfl]
  have hnode_r : (divideLeaf h n l.next left right).node h.size = .leaf right := by
    rw [hnode, if_neg hns.ne', if_pos rfl]
  have hsz := size_divideLeaf h n l.next left right
  obtain ⟨h', G', heq, hT, hA⟩ := hS.ascend_spec P t ((divideLeaf h n l.next left right).size + 1)
    (show _ = 0 by simp [hnode_n]) (fun a ha => hS.tree.height_lt ha) (by omega)
  refine ⟨h', G', heq, ⟨hT, hA.leafInv hT.live_lt (leafInv_divideLeaf hI hn hl hleft hright),
    hA.chainInv hS.tree.live_lt hT.live_lt (chainInv_divideLeaf hI hn hl hh)⟩,
    (hd.frame hI.tree hn k).trans hA.frame, ?_, ?_, ?_, ?_⟩
  · intro f hf
    refine hA.top f ?_
    have hfam : (G.divide n h.size k).fam n = G.fam n := if_neg hns.ne
    rwa [hfam]
  · intro f s
    rw [hA.entry hS.tree.live_lt hT.live_lt, entry_divideLeaf hI hn hl hh]
  · have hlt : n < (divideLeaf h n l.next left right).size := by
      rw [hsz]; exact hns.trans (Nat.lt_succ_self _)
    rw [hA.live n hlt, hA.fam n hlt, hA.lo n hlt, hA.hi n hlt (by simp [hnode_n])]
    refine ⟨Or.inr hn, if_neg hns.ne, if_neg hns.ne, ?_, hA.leaf_node hlt hnode_n⟩
    simp [Ghost.divide, hns.ne]
  · have hlt : h.size < (divideLeaf h n l.next left right).size := by
      rw [hsz]; exact Nat.lt_succ_self _
    rw [hA.live _ hlt, hA.fam _ hlt, hA.lo _ hlt, hA.hi _ hlt (by simp [hnode_r])]
    exact ⟨Or.inl rfl, if_pos rfl, if_pos rfl, if_pos rfl, hA.leaf_node hlt hnode_r⟩

omit [Inhabited β] in
lemma Vacant.setParent [Inhabited β] {p : ℕ} (hv : Vacant P i p x Bf Af l) (q : Option Ptr) :
    Vacant P i p x Bf Af { l with parent := q } :=
  ⟨hv.size_lt, hv.back, hv.le_size, hv.before, hv.after, hv.keep⟩

/-- The left half as a split leaves it: with the new item in a free slot if it belongs there. -/
def Leaf.leftHalf (P : NodeParams) (l : Leaf β) (n nr : Ptr) (i : ℕ) (ka : Slot β) (mid : ℕ) :
    Leaf β :=
  let left := l.splitLeft P nr (l.splitRight P n i ka mid).size
  if i < mid then left.assign left.permutation.back ka else left

/-- Where the cursor stands after a split. -/
def Leaf.splitPosition (P : NodeParams) (l : Leaf β) (n nr : Ptr) (i : ℕ) (ka : Slot β) (mid : ℕ) :
    Position :=
  let left := l.splitLeft P nr (l.splitRight P n i ka mid).size
  if i < mid then ⟨n, i, left.permutation.back⟩ else ⟨nr, i - left.size, i - left.size⟩

/-- **The cursor's slot after a split has the new item.** -/
lemma Leaf.splitPosition_spec {mid : ℕ} (hw : l.permutation.WF P.leafWidth)
    (hslots : l.slots.length = P.leafWidth) (hi : i ≤ l.size) (hmid : 1 ≤ mid)
    (hmid' : mid ≤ l.size) (n nr : Ptr) (ka : Slot β) :
    (i < mid → (l.splitPosition P n nr i ka mid).n = n ∧
      (l.leftHalf P n nr i ka mid).slot (l.splitPosition P n nr i ka mid).p = ka) ∧
    (mid ≤ i → l.splitPosition P n nr i ka mid = ⟨nr, i - mid, i - mid⟩ ∧
      (l.splitRight P n i ka mid).slot (i - mid) = ka) := by
  have hsz : l.size ≤ P.leafWidth := hw.size_le
  obtain ⟨-, -, -, -, r5⟩ := Leaf.splitRight_spec hw n ka hi hmid hmid'
  obtain ⟨l1, l2, -⟩ := Leaf.splitLeft_spec hw nr (l.splitRight P n i ka mid).size
  constructor
  · intro h0
    simp only [Leaf.splitPosition, Leaf.leftHalf, if_pos h0]
    refine ⟨trivial, ?_⟩
    rw [Leaf.slot_assign, if_pos rfl]
    change _ < l.slots.length
    rw [hslots]
    exact l1.back_lt (by omega)
  · intro h0
    obtain ⟨-, e2, -, e4⟩ := r5 h0
    change (l.splitRight P n i ka mid).size = _ at e2
    have hsize : (l.splitLeft P nr (l.splitRight P n i ka mid).size).size = mid := by
      rw [l2]
      omega
    refine ⟨?_, e4⟩
    rw [Leaf.splitPosition]
    simp only [if_neg (Nat.not_lt.mpr h0), hsize]

/-- **What the halves of a split hold** when the new item is live. -/
lemma Leaf.itemsWith_halves {mid : ℕ} (hw : l.permutation.WF P.leafWidth)
    (hslots : l.slots.length = P.leafWidth) (hi : i ≤ l.size) (hmid : 1 ≤ mid)
    (hmid' : mid ≤ l.size) (n nr : Ptr) (ka s : Slot β) :
    (i < mid → (l.leftHalf P n nr i ka mid).itemsWith i s = (l.itemsWith i s).take mid ∧
      (l.splitRight P n i ka mid).entries = (l.itemsWith i s).drop mid) ∧
    (mid ≤ i → (l.leftHalf P n nr i ka mid).entries = (l.itemsWith i s).take mid ∧
      (l.splitRight P n i ka mid).itemsWith (i - mid) s = (l.itemsWith i s).drop mid) := by
  have hsz : l.size ≤ P.leafWidth := hw.size_le
  have hE := Leaf.entries_length hw
  obtain ⟨-, -, -, r4, r5⟩ := Leaf.splitRight_spec hw n ka hi hmid hmid'
  obtain ⟨l1, l2, l3, l4, -⟩ := Leaf.splitLeft_spec hw nr (l.splitRight P n i ka mid).size
  constructor
  · intro h0
    obtain ⟨e1, e2⟩ := r4 h0
    obtain ⟨c1, c2⟩ := Leaf.itemsWith_cut_left (l := l) s h0 (by omega)
    rw [show l.size - (l.splitRight P n i ka mid).size = mid - 1 by omega] at l3 l4
    refine ⟨?_, by rw [e1, c2]⟩
    rw [Leaf.leftHalf, if_pos h0, c1, Leaf.itemsWith, Leaf.entries_assign (l4 (by omega)), l3]
    intro q hq
    change _ < l.slots.length
    rw [hslots]
    exact l1.live_lt hq
  · intro h0
    obtain ⟨e1, e2, -⟩ := r5 h0
    obtain ⟨c1, c2⟩ := Leaf.itemsWith_cut_right (l := l) s h0 (by omega)
    rw [show l.size - (l.splitRight P n i ka mid).size = mid by omega] at l3
    refine ⟨?_, ?_⟩
    · rw [Leaf.leftHalf, if_neg (Nat.not_lt.mpr h0), l3, c1]
    · rw [c2, Leaf.itemsWith, e1]

/-- The search for a split point succeeds where the slices are not all the same. -/
lemma Leaf.splitPoint_of_ne (hR : ∀ s t, R s t → s.ikey ≤ t.ikey)
    (hw : l.permutation.WF P.leafWidth) (hs : l.entries.Pairwise R) (hi : i ≤ l.size)
    (hfull : P.leafWidth ≤ l.size + 1) (hbf : ∀ s ∈ l.entries.take i, s.ikey ≤ ka.ikey)
    (haf : ∀ s ∈ l.entries.drop i, ka.ikey ≤ s.ikey) (hne : ∃ s ∈ l.entries, s.ikey ≠ ka.ikey) :
    ∃ mid, l.splitPoint P i ka = some mid ∧ 1 ≤ mid ∧ mid ≤ l.size ∧
      (∀ s ∈ (l.itemsWith i ka).take mid, s.ikey < l.ikeyAfterInsert i ka mid) ∧
      (∀ s ∈ (l.itemsWith i ka).drop mid, l.ikeyAfterInsert i ka mid ≤ s.ikey) := by
  obtain ⟨s₀, hs₀, hs₀x⟩ := hne
  have hka_mem : ka ∈ l.itemsWith i ka := List.mem_append_right _ List.mem_cons_self
  have hs₀_mem : s₀ ∈ l.itemsWith i ka := by
    rw [← List.take_append_drop i l.entries] at hs₀
    rcases List.mem_append.mp hs₀ with h1 | h1
    · exact List.mem_append_left _ h1
    · exact List.mem_append_right _ (List.mem_cons_of_mem _ h1)
  refine Leaf.splitPoint_spec hw hi hfull (itemsWith_sorted hR hs hbf haf) ?_
  rcases Nat.lt_or_gt_of_ne hs₀x with h1 | h1
  · exact ⟨s₀, hs₀_mem, ka, hka_mem, h1⟩
  · exact ⟨ka, hka_mem, s₀, hs₀_mem, h1⟩

/-- **A split**: the search for a split point succeeds, and the heap has the two halves, with room
for the new item on its side. -/
lemma makeSplit_halves (hR : ∀ s t, R s t → s.ikey ≤ t.ikey) (hI : HeapInv P R h G) (hn : G.live n)
    (hl : h.node n = .leaf l) (hxlo : G.lo n ≤ x) (hxhi : x < G.hi n) (hi : i ≤ l.size)
    (hka : ka.ikey = x) (hbf : ∀ s ∈ l.entries.take i, Bf s) (haf : ∀ s ∈ l.entries.drop i, Af s)
    (hBf : ∀ s, Bf s → s.ikey ≤ x) (hAf : ∀ s, Af s → x ≤ s.ikey)
    (hne : ∃ s ∈ l.entries, s.ikey ≠ x)
    (hfull : l.size = P.leafWidth ∨
      (l.size + 1 = P.leafWidth ∧ l.permutation.get (P.leafWidth - 1) = 0)) :
    ∃ mid h' G', l.splitPoint P i ka = some mid ∧ 1 ≤ mid ∧ mid ≤ l.size ∧
      (∀ s ∈ (l.itemsWith i ka).take mid, s.ikey < l.ikeyAfterInsert i ka mid) ∧
      (∀ s ∈ (l.itemsWith i ka).drop mid, l.ikeyAfterInsert i ka mid ≤ s.ikey) ∧
      ((splitLeaf P h n i ka mid).2.1 = ⟨n, h.size, l.ikeyAfterInsert i ka mid⟩ ∧
        (splitLeaf P h n i ka mid).2.2.1 = l.splitPosition P n h.size i ka mid ∧
        ascend P (splitLeaf P h n i ka mid).2.2.2 ((splitLeaf P h n i ka mid).1.size + 1) 0
          (splitLeaf P h n i ka mid).1 (splitLeaf P h n i ka mid).2.1 = some h') ∧
      HeapInv P R h' G' ∧ Frame h G h' G' ∧ (∀ f, f ≠ G.fam n → G'.top f = G.top f) ∧
      (∀ f s, Entry h' G' f s ↔ Entry h G f s) ∧
      (G'.live n ∧ G'.fam n = G.fam n ∧ G'.lo n = G.lo n ∧
        ∃ q, h'.node n = .leaf { l.leftHalf P n h.size i ka mid with parent := q }) ∧
      (∃ q, h'.node h.size = .leaf { l.splitRight P n i ka mid with parent := q }) ∧
      ∃ l', Room P h' G' (G.fam n) (l.splitPosition P n h.size i ka mid) x Bf Af l' := by
  have hok := hI.leaves n { l with parent := none } hn (by rw [hl]; rfl)
  have hw : l.permutation.WF P.leafWidth := hok.perm
  have hleaf : h.leaf n = l := by rw [Heap.leaf, hl]; rfl
  obtain ⟨mid, hsp, hmid, hmid', hlt, hge⟩ := Leaf.splitPoint_of_ne hR hw hok.sorted hi (by omega)
    (fun s hs => hka ▸ hBf s (hbf s hs)) (fun s hs => hka ▸ hAf s (haf s hs)) (hka ▸ hne)
  have hns := hI.tree.live_lt hn
  have hfam : G.fam n ≠ h.size := (hI.tree.live_lt (hI.tree.fam_spec (hI.tree.known hn)).1).ne
  obtain ⟨hbound, hright, hcl, hcr⟩ := split_halves hok hns.ne' hfam hi hxlo hka hbf haf hfull
    hmid hmid' hlt hge
  -- the separator lies inside the range of the leaf
  have hwithin : ∀ s ∈ l.itemsWith i ka, G.lo n ≤ s.ikey ∧ s.ikey < G.hi n := by
    intro s hs
    rcases List.mem_append.mp hs with h1 | h1
    · exact hok.within s (List.mem_of_mem_take h1)
    · rcases List.mem_cons.mp h1 with rfl | h1
      · omega
      · exact hok.within s (List.mem_of_mem_drop h1)
  have hlen := Leaf.itemsWith_length hw hi ka
  have hk : G.lo n < l.ikeyAfterInsert i ka mid := by
    obtain ⟨s, hs⟩ : ∃ s, s ∈ (l.itemsWith i ka).take mid :=
      List.exists_mem_of_length_pos (by simp; omega)
    exact (hwithin s (List.mem_of_mem_take hs)).1.trans_lt (hlt s hs)
  have hk' : l.ikeyAfterInsert i ka mid < G.hi n := by
    obtain ⟨s, hs⟩ : ∃ s, s ∈ (l.itemsWith i ka).drop mid :=
      List.exists_mem_of_length_pos (by simp; omega)
    exact (hge s hs).trans_lt (hwithin s (List.mem_of_mem_drop hs)).2
  refine ⟨mid, ?_⟩
  simp only [splitLeaf, hleaf, hbound, Leaf.leftHalf, Leaf.splitPosition]
  by_cases him : i < mid
  · obtain ⟨hx, hleft, hent, hvac⟩ := hcl him
    have hh : Halves l n h.size ((l.splitLeft P h.size _).assign _ ka)
        (l.splitRight P n i ka mid) :=
      ⟨rfl, rfl, rfl, rfl, rfl, rfl, rfl, rfl, rfl, rfl, hent⟩
    obtain ⟨h', G', heq, hI', hF, htop, hE, ⟨g1, g0, g2, g3, q, g4⟩, -, -, -, -, q', g5⟩ :=
      ascend_divideLeaf (if i < mid then 0 else if mid = l.size then 2 else 1) hI hn hl hh hleft
        hright hk hk'
    simp only [if_pos him] at heq ⊢
    exact ⟨h', G', hsp, hmid, hmid', hlt, hge, ⟨trivial, trivial, heq⟩, hI', hF, htop, hE,
      ⟨g1, g0, g2, q, g4⟩, ⟨q', g5⟩, _, g1, g0, g4, by rw [g2]; exact hxlo, by rw [g3]; exact hx,
      hvac.setParent q⟩
  · obtain ⟨hx, hleft, hent, hsize, hvac⟩ := hcr (Nat.not_lt.mp him)
    have hh : Halves l n h.size (l.splitLeft P h.size _) (l.splitRight P n i ka mid) :=
      ⟨rfl, rfl, rfl, rfl, rfl, rfl, rfl, rfl, rfl, rfl, hent⟩
    obtain ⟨h', G', heq, hI', hF, htop, hE, ⟨f1, f0, f2, -, q, f4⟩, ⟨g1, g0, g2, g3, q', g4⟩⟩ :=
      ascend_divideLeaf (if i < mid then 0 else if mid = l.size then 2 else 1) hI hn hl hh hleft
        hright hk hk'
    simp only [if_neg him] at heq ⊢
    refine ⟨h', G', hsp, hmid, hmid', hlt, hge, ⟨trivial, trivial, heq⟩, hI', hF, htop, hE,
      ⟨f1, f0, f2, q, f4⟩, ⟨q', g4⟩, _, g1, g0, g4, by rw [g2]; exact hx, by rw [g3]; exact hxhi,
      ?_⟩
    simp only [hsize]
    exact hvac.setParent q'

/-- **`make_split` makes room for the new item.** -/
lemma makeSplit_spec (hR : ∀ s t, R s t → s.ikey ≤ t.ikey) (hI : HeapInv P R h G) (hn : G.live n)
    (hl : h.node n = .leaf l) (hxlo : G.lo n ≤ x) (hxhi : x < G.hi n) (hi : i ≤ l.size)
    (hka : ka.ikey = x) (hbf : ∀ s ∈ l.entries.take i, Bf s) (haf : ∀ s ∈ l.entries.drop i, Af s)
    (hBf : ∀ s, Bf s → s.ikey ≤ x) (hAf : ∀ s, Af s → x ≤ s.ikey)
    (hne : P.leafWidth ≤ l.size + 1 → ∃ s ∈ l.entries, s.ikey ≠ x)
    (hno : l.size < P.leafWidth → l.permutation.back = 0) :
    ∃ h' G' pos l', makeSplit P h n i ka = some (h', pos) ∧ HeapInv P R h' G' ∧
      Frame h G h' G' ∧ (∀ f, f ≠ G.fam n → G'.top f = G.top f) ∧
      Room P h' G' (G.fam n) pos x Bf Af l' ∧
      ∀ f s, Entry h' G' f s ↔ Entry h G f s := by
  have hok := hI.leaves n { l with parent := none } hn (by rw [hl]; rfl)
  have hw : l.permutation.WF P.leafWidth := hok.perm
  have hleaf : h.leaf n = l := by rw [Heap.leaf, hl]; rfl
  simp only [makeSplit, hleaf]
  split_ifs with hcond
  · -- another free slot than slot 0 exists
    have hswap : (l.permutation.exchange l.size (P.leafWidth - 1)).WF P.leafWidth :=
      hw.exchange hcond.1 (by omega)
    have hlive : (l.permutation.exchange l.size (P.leafWidth - 1)).live = l.permutation.live :=
      Kpermuter.WF.live_exchange _ le_rfl (by change l.size ≤ _; omega)
    set l₁ : Leaf β := { l with permutation := l.permutation.exchange l.size (P.leafWidth - 1) }
      with hl₁
    have hent : l₁.entries = l.entries := by
      rw [Leaf.entries, hlive]
      rfl
    have hok₁ : LeafOk P R G n { l₁ with parent := none } :=
      ⟨hswap, hok.slots, by change l₁.entries.Pairwise R; rw [hent]; exact hok.sorted,
        by change ∀ s ∈ l₁.entries, _; rw [hent]; exact hok.within, hok.modstate, hok.first,
        hok.bound⟩
    have hback : l₁.permutation.back ∉ l₁.permutation.live := hswap.back_notMem_live hcond.1
    have hent' : (l₁.assign l₁.permutation.back ka).entries = l₁.entries :=
      Leaf.entries_assign hback (fun q hq => by
        have := hswap.live_lt hq
        have hs : l₁.slots.length = P.leafWidth := hok.slots
        omega)
    obtain ⟨hI', hF, hE⟩ := hI.rewrite_leaf hn hl (l₁.assign l₁.permutation.back ka)
      ⟨rfl, rfl, rfl, rfl, Iff.rfl⟩ rfl rfl (hok₁.assign hback (Or.inl hcond.2)) (hent'.trans hent)
    refine ⟨_, G, ⟨n, i, l₁.permutation.back⟩, l₁.assign l₁.permutation.back ka, rfl, hI', hF,
      fun _ _ =>
        rfl, ⟨hn, rfl, by simp [Heap.node_setLeaf, l₁], hxlo, hxhi, hcond.1, rfl, hi, ?_, ?_,
          Or.inl hcond.2⟩, hE⟩
    · rw [hent', hent]; exact hbf
    · rw [hent', hent]; exact haf
  · have hfull := split_cases hw hno hcond
    obtain ⟨mid, h', G', hsp, -, -, -, -, ⟨-, hpos, heq⟩, hI', hF, htop, hE, -, -, l', hroom⟩ :=
      makeSplit_halves hR hI hn hl hxlo hxhi hi hka hbf haf hBf hAf (hne (by omega)) hfull
    refine ⟨h', G', _, l', ?_, hI', hF, htop, hroom, hE⟩
    simp only [hsp]
    rw [heq, ← hpos]
    rfl

omit [Inhabited β] in
lemma Heap.setLeaf_setLeaf (h : Heap β) (a : Ptr) (l l' : Leaf β) :
    (h.setLeaf a l).setLeaf a l' = h.setLeaf a l' := by
  refine Heap.ext (funext fun b => ?_) rfl rfl
  simp only [Heap.node_setLeaf]
  split_ifs <;> rfl

/-- **A search without hit is followed by making room.** -/
lemma makeRoom_spec (hR : ∀ s t, R s t → s.ikey ≤ t.ikey) (hI : HeapInv P R h G) {c : Cursor}
    (hn : G.live c.n) (hl : h.node c.n = .leaf l) (hxlo : G.lo c.n ≤ x) (hxhi : x < G.hi c.n)
    (hi : c.i ≤ l.size) (hka : ka.ikey = x) (hbf : ∀ s ∈ l.entries.take c.i, Bf s)
    (haf : ∀ s ∈ l.entries.drop c.i, Af s) (hBf : ∀ s, Bf s → s.ikey ≤ x)
    (hAf : ∀ s, Af s → x ≤ s.ikey)
    (hne : P.leafWidth ≤ l.size + 1 → ∃ s ∈ l.entries, s.ikey ≠ x) :
    ∃ h' G' pos l', makeRoom P h c ka = some (h', pos) ∧ HeapInv P R h' G' ∧
      Frame h G h' G' ∧ (∀ f, f ≠ G.fam c.n → G'.top f = G.top f) ∧
      Room P h' G' (G.fam c.n) pos x Bf Af l' ∧
      ∀ f s, Entry h' G' f s ↔ Entry h G f s := by
  have hok := hI.leaves c.n { l with parent := none } hn (by rw [hl]; rfl)
  have hleaf : h.leaf c.n = l := by rw [Heap.leaf, hl]; rfl
  simp only [makeRoom, hleaf]
  set l₁ : Leaf β := { l with modstate := .insert } with hl₁
  have hok₁ : LeafOk P R G c.n { l₁ with parent := none } :=
    ⟨hok.perm, hok.slots, hok.sorted, hok.within, by simp [hl₁], hok.first, hok.bound⟩
  obtain ⟨hI₁, hF₁, hE₁⟩ := hI.rewrite_leaf hn hl l₁ ⟨rfl, rfl, rfl, rfl, Iff.rfl⟩ rfl rfl hok₁ rfl
  have hl₁' : (h.setLeaf c.n l₁).node c.n = .leaf l₁ := by simp
  split_ifs with hcond
  · have hback : l₁.permutation.back ∉ l₁.permutation.live := hok₁.perm.back_notMem_live hcond.1
    have hent : (l₁.assign l₁.permutation.back ka).entries = l₁.entries :=
      Leaf.entries_assign hback (fun q hq => by
        have := hok₁.perm.live_lt hq
        have hs : l₁.slots.length = P.leafWidth := hok.slots
        omega)
    obtain ⟨hI₂, hF₂, hE₂⟩ := hI₁.rewrite_leaf hn hl₁' (l₁.assign l₁.permutation.back ka)
      ⟨rfl, rfl, rfl, rfl, Iff.rfl⟩ rfl rfl (hok₁.assign hback hcond.2) hent
    refine ⟨_, G, ⟨c.n, c.i, l₁.permutation.back⟩, l₁.assign l₁.permutation.back ka, rfl, hI₂,
      hF₁.trans hF₂, fun _ _ =>
        rfl, ⟨hn, rfl, by simp [l₁], hxlo, hxhi, hcond.1, rfl, hi, ?_, ?_, ?_⟩, fun f s =>
          (hE₂ f s).trans (hE₁ f s)⟩
    · rw [hent]; exact hbf
    · rw [hent]; exact haf
    · by_cases hb0 : l₁.permutation.back = 0
      · refine Or.inr (Or.inr ?_)
        have h3 := P.three_le_leafWidth
        have hs : l₁.slots.length = P.leafWidth := hok.slots
        rw [Leaf.ikeyBound, hb0, Leaf.slot_assign (by omega), if_pos rfl, hka]
      · exact Or.inl hb0
  · obtain ⟨h', G', pos, l', heq, hI', hF, htop, hroom, hE⟩ :=
      makeSplit_spec hR hI₁ hn hl₁' hxlo hxhi hi
      hka hbf haf hBf hAf hne (fun hlt => by
        by_contra hb0
        exact hcond ⟨hlt, Or.inl hb0⟩)
    exact ⟨h', G', pos, l', heq, hI', hF₁.trans hF, htop, hroom,
      fun f s => (hE f s).trans (hE₁ f s)⟩

/-- The leaf with the item `s`, in slot `p`, live at position `i`. -/
def Leaf.inserted (l : Leaf β) (i p : ℕ) (s : Slot β) : Leaf β :=
  { l.assign p s with permutation := l.permutation.insertFromBack i }

lemma finishInsert_writeSlot {pos : Position} (hl : h.node pos.n = .leaf l) (s : Slot β) :
    finishInsert (writeSlot h pos s) pos = h.setLeaf pos.n (l.inserted pos.i pos.p s) := by
  simp only [finishInsert, writeSlot, Heap.leaf, hl, Node.toLeaf_leaf, Heap.node_setLeaf, if_true,
    Heap.setLeaf_setLeaf]
  rfl

/-- **The items of the leaf when the new one is live.** -/
lemma Vacant.entries_inserted {p : ℕ} (hv : Vacant P i p x Bf Af l)
    (hw : l.permutation.WF P.leafWidth) (hslots : l.slots.length = P.leafWidth) (s : Slot β) :
    (l.inserted i p s).permutation.live = l.permutation.live.take i ++ p ::
      l.permutation.live.drop i ∧
      (l.inserted i p s).slot p = s ∧ (l.inserted i p s).entries = l.itemsWith i s := by
  have hlive : (l.inserted i p s).permutation.live
      = l.permutation.live.take i ++ p :: l.permutation.live.drop i := by
    rw [← hv.back]
    exact hw.live_insertFromBack hv.le_size hv.size_lt
  have hp : p < l.slots.length := by
    rw [hslots, ← hv.back]
    exact hw.back_lt (Nat.zero_lt_of_lt hv.size_lt)
  have hnew : (l.inserted i p s).slot p = s := by
    change (l.assign p s).slot p = s
    rw [Leaf.slot_assign hp, if_pos rfl]
  have hold : l.permutation.live.map (l.inserted i p s).slot = l.entries :=
    Leaf.entries_assign (l := l) (hv.back ▸ hw.back_notMem_live hv.size_lt) (fun q hq => by
      rw [hslots]
      exact hw.live_lt hq)
  refine ⟨hlive, hnew, ?_⟩
  rw [Leaf.entries, hlive, List.map_append, List.map_cons, hnew, List.map_take, List.map_drop, hold]
  rfl

/-- Writing the slice that a slot has already keeps the lower bound. -/
lemma Leaf.ikeyBound_inserted {p : ℕ} {s : Slot β} (hs : (l.slot p).ikey = s.ikey) (i : ℕ) :
    (l.inserted i p s).ikeyBound = l.ikeyBound := by
  change ((l.assign p s).slot 0).ikey = (l.slot 0).ikey
  rcases Leaf.slot_assign_cases l p 0 s with h | ⟨h0, h⟩
  · rw [h]
  · rw [h, h0, hs]

/-- **Making the new item live.** -/
lemma finishInsert_spec {f₀ : Ptr} {pos : Position} {s : Slot β} (hI : HeapInv P R h G)
    (hroom : Room P h G f₀ pos x Bf Af l) (hs : s.ikey = x) (hBf : ∀ t, Bf t → R t s)
    (hAf : ∀ t, Af t → R s t) :
    HeapInv P R (finishInsert (writeSlot h pos s) pos) G ∧
      Frame h G (finishInsert (writeSlot h pos s) pos) G ∧
      ∀ f t, Entry (finishInsert (writeSlot h pos s) pos) G f t ↔
        Entry h G f t ∨ (f = f₀ ∧ t = s) := by
  obtain ⟨hn, hfam, hl, hlo, hhi, hvac⟩ := hroom
  obtain ⟨hlt, hback, hi, hbf, haf, hkeep⟩ := id hvac
  have hok := hI.leaves pos.n { l with parent := none } hn (by rw [hl]; rfl)
  have hw : l.permutation.WF P.leafWidth := hok.perm
  have hslots : l.slots.length = P.leafWidth := hok.slots
  set l' : Leaf β := l.inserted pos.i pos.p s with hl'
  have hnot : pos.p ∉ l.permutation.live := hback ▸ hw.back_notMem_live hlt
  have hent : l'.entries = l.entries.take pos.i ++ s :: l.entries.drop pos.i :=
    (hvac.entries_inserted hw hslots s).2.2
  have hmem : ∀ t, t ∈ l'.entries ↔ t ∈ l.entries ∨ t = s := by
    intro t
    rw [hent, List.mem_append, List.mem_cons]
    conv_rhs => rw [← List.take_append_drop pos.i l.entries, List.mem_append]
    tauto
  have hok' : LeafOk P R G pos.n { l' with parent := none } := by
    refine ⟨hw.insertFromBack hi hlt, ?_, ?_, ?_, hok.modstate, hok.first, ?_⟩
    · change (l.slots.set pos.p s).length = _
      rw [List.length_set, hslots]
    · change l'.entries.Pairwise R
      have hsorted : l.entries.Pairwise R := hok.sorted
      rw [hent, List.pairwise_append]
      refine ⟨hsorted.sublist (List.take_sublist _ _), List.pairwise_cons.mpr
        ⟨fun t ht => hAf t (haf t ht), hsorted.sublist (List.drop_sublist _ _)⟩, ?_⟩
      intro t ht u hu
      rcases List.mem_cons.mp hu with rfl | hu
      · exact hBf t (hbf t ht)
      · rw [← List.take_append_drop pos.i l.entries, List.pairwise_append] at hsorted
        exact hsorted.2.2 t ht u hu
    · intro t ht
      rcases (hmem t).mp ht with h1 | rfl
      · exact hok.within t h1
      · omega
    · exact (hok.assign (s := s) hnot (by rw [hs]; exact hkeep)).bound
  have hsame : l.SameLinks l' := ⟨rfl, rfl, rfl, rfl, Iff.rfl⟩
  rw [finishInsert_writeSlot hl]
  refine ⟨hI.setLeaf hl hsame rfl rfl (fun _ => hok'), (SameTree.setLeaf hl hsame).frame G, ?_⟩
  intro f t
  rw [entry_setLeaf hn, entry_iff_leaf hn hl, hmem, and_or_left, or_right_comm, hfam]

end

/-! ## A new layer -/

/-- The ghost with a new layer of one leaf. -/
def Ghost.alloc (G : Ghost) (nn : Ptr) : Ghost where
  live a := a = nn ∨ G.live a
  gone := G.gone
  fam a := if a = nn then nn else G.fam a
  top f := if f = nn then nn else G.top f
  lo a := if a = nn then 0 else G.lo a
  hi a := if a = nn then ikeyLimit else G.hi a

/-- A leaf that is a layer of its own. -/
structure Leaf.Fresh (P : NodeParams) (R : Slot β → Slot β → Prop) (l : Leaf β) : Prop where
  isRoot : l.isRoot = true
  deleted : l.deleted = false
  next : l.next = none
  prev : l.prev = none
  parent : l.parent = none
  modstate : l.modstate ≠ .deletedLayer
  perm : l.permutation.WF P.leafWidth
  slots : l.slots.length = P.leafWidth
  sorted : l.entries.Pairwise R
  within : ∀ s ∈ l.entries, s.ikey < ikeyLimit

lemma Leaf.entries_makeRoot (m : Option DirectoryMeta) :
    (Leaf.makeRoot P m : Leaf β).entries = [] := by
  simp [Leaf.entries, Leaf.makeRoot, Leaf.make, Kpermuter.live, Kpermuter.makeEmpty]

lemma Leaf.Fresh.makeRoot (m : Option DirectoryMeta) : (Leaf.makeRoot P m : Leaf β).Fresh P R := by
  refine ⟨rfl, rfl, rfl, rfl, rfl, by simp [Leaf.makeRoot, Leaf.make], .makeEmpty _,
    by simp [Leaf.makeRoot], ?_, ?_⟩ <;> rw [Leaf.entries_makeRoot]
  · exact List.Pairwise.nil
  · simp

section

variable {l : Leaf β}

omit [Inhabited β] in
lemma node_alloc_leaf {a : Ptr} (ha : a < h.size) : (h.alloc (.leaf l)).node a = h.node a := by
  rw [Heap.node_alloc, if_neg ha.ne]

lemma TreeInv.alloc_leaf (hT : TreeInv h G G.exact) (hl : l.Fresh P R) :
    TreeInv (h.alloc (.leaf l)) (G.alloc h.size) (G.alloc h.size).exact := by
  set h' := h.alloc (.leaf l) with hh'
  have hnode : ∀ {a}, a < h.size → h'.node a = h.node a := node_alloc_leaf
  have hnew : h'.node h.size = .leaf l := by simp [hh']
  have hfam : ∀ {a}, a < h.size → (G.alloc h.size).fam a = G.fam a := fun ha => if_neg ha.ne
  have hlo : ∀ {a}, a < h.size → (G.alloc h.size).lo a = G.lo a := fun ha => if_neg ha.ne
  have hhi : ∀ {a}, a < h.size → (G.alloc h.size).hi a = G.hi a := fun ha => if_neg ha.ne
  have hfam' : (G.alloc h.size).fam h.size = h.size := if_pos rfl
  have htop' : (G.alloc h.size).top h.size = h.size := if_pos rfl
  have htop : ∀ {a}, G.Known h a → (G.alloc h.size).top (G.fam a) = G.top (G.fam a) := fun ha =>
    if_neg (hT.live_lt (hT.fam_spec ha).1).ne
  have hcase : ∀ {a}, (G.alloc h.size).Known h' a → G.Known h a ∨ a = h.size := fun ha =>
    (Nat.lt_succ_iff_lt_or_eq.mp ha.1).imp_left fun h0 => ⟨h0, ha.2⟩
  have hsucc : ∀ {a}, a < h.size → a < h'.size := fun ha => Nat.lt_succ_of_lt ha
  have hknown : ∀ {a}, G.Known h a → (G.alloc h.size).Known h' a := fun ha => ⟨hsucc ha.1, ha.2⟩
  refine ⟨?_, fun ha => hsucc (hT.gone_lt ha), ?_, ?_, ?_, ?_, ?_, ?_, ?_, ?_, ?_, ?_, ?_⟩
  · rintro a (rfl | ha)
    · exact ⟨Nat.lt_succ_self _, fun h0 => lt_irrefl _ (hT.gone_lt h0)⟩
    · exact hknown (hT.known ha)
  · intro a q ha hq
    rcases hcase ha with ha | rfl
    · rw [hnode ha.1] at hq
      obtain ⟨h1, h2, h3, h4⟩ := hT.up ha hq
      rw [hnode ha.1, hnode h1.1, hfam ha.1, hfam h1.1]
      exact ⟨hknown h1, h2, h3, h4⟩
    · rw [hnew, Node.parent_leaf, hl.parent] at hq
      cases hq
  · intro a ha _ hp
    rcases hcase ha with ha | rfl
    · rw [hnode ha.1] at hp
      rw [hfam ha.1, htop ha]
      exact hT.top_eq ha id hp
    · rw [hfam', htop']
  · intro a ha
    rcases hcase ha with ha | rfl
    · obtain ⟨h1, -, h3, h4, h5, h6⟩ := hT.top_spec ha
      have hlt := hT.live_lt h1
      rw [hfam ha.1, htop ha, hfam hlt, hnode hlt, hlo hlt]
      exact ⟨Or.inr h1, id, h3, h4, h5, (hhi hlt).trans h6⟩
    · rw [hfam', htop', hfam', hnew]
      exact ⟨Or.inl rfl, id, rfl, hl.parent, if_pos rfl, if_pos rfl⟩
  · intro a ha
    rcases hcase ha with ha | rfl
    · obtain ⟨h1, h2, h3⟩ := hT.fam_spec ha
      rw [hfam ha.1, hfam (hT.live_lt h1), hnode (hT.live_lt h1)]
      exact ⟨Or.inr h1, h2, h3⟩
    · rw [hfam', hfam', hnew]
      exact ⟨Or.inl rfl, rfl, rfl⟩
  · intro a ha
    rcases Nat.lt_succ_iff_lt_or_eq.mp ha with ha | rfl
    · rw [hnode ha]
      exact hsucc (hT.height_lt ha)
    · rw [hnew]
      exact Nat.succ_pos _
  · intro a ha _ hst
    rcases hcase ha with ha | rfl
    · rw [hnode ha.1] at hst ⊢
      exact hT.root_bit ha id hst
    · rw [hnew]
      exact ⟨fun _ => hl.parent, fun _ _ => hl.isRoot⟩
  · rintro a (rfl | ha)
    · rw [show (G.alloc h.size).lo h.size = 0 from if_pos rfl,
        show (G.alloc h.size).hi h.size = ikeyLimit from if_pos rfl]
      exact ⟨by decide, le_rfl⟩
    · rw [hlo (hT.live_lt ha), hhi (hT.live_lt ha)]
      exact hT.range ha
  · rintro a q (rfl | ha) _ hq
    · rw [hnew, Node.parent_leaf, hl.parent] at hq
      cases hq
    · rw [hnode (hT.live_lt ha)] at hq
      obtain ⟨h1, h2⟩ := hT.linked ha id hq
      rw [Heap.internode, hnode (hT.live_lt h1)]
      exact ⟨Or.inr h1, h2⟩
  · rintro a n (rfl | ha) hn
    · rw [hnew] at hn
      cases hn
    · rw [hnode (hT.live_lt ha)] at hn
      refine (hT.link ha hn).congr rfl rfl (hlo (hT.live_lt ha)) (hhi (hT.live_lt ha)) ?_
      rintro l c u - ⟨h1, -, h3, h4, h5, h6⟩
      have hc := h1.resolve_right id
      have hlt := hT.live_lt hc
      exact ⟨Or.inl (Or.inr hc), id, by rw [hnode hlt]; exact h3, (hlo hlt).trans h4,
        (hhi hlt).trans h5, h6⟩
  · rintro a (rfl | ha)
    · rw [hnew]
      exact hl.deleted
    · rw [hnode (hT.live_lt ha)]
      exact hT.not_deleted ha
  · intro a ha
    obtain ⟨h1, h2⟩ := hT.retired_dead (a := a) ha
    exact ⟨hsucc h1, not_or.mpr ⟨h1.ne, h2⟩⟩

/-- **Allocating the leaf of a new layer.** -/
lemma HeapInv.alloc_leaf (hI : HeapInv P R h G) (hl : l.Fresh P R) :
    HeapInv P R (h.alloc (.leaf l)) (G.alloc h.size) := by
  have hlt : ∀ {a}, G.live a → a < h.size := hI.tree.live_lt
  refine ⟨hI.tree.alloc_leaf hl, ?_, ?_⟩
  · rintro a la ha hla
    by_cases has : a = h.size
    · subst has
      rw [Heap.node_alloc, if_pos rfl] at hla
      obtain rfl : _ = la := by simpa using hla
      have hhi : (G.alloc h.size).hi h.size = ikeyLimit := if_pos rfl
      have hlo : (G.alloc h.size).lo h.size = 0 := if_pos rfl
      refine ⟨hl.perm, hl.slots, hl.sorted, ?_, hl.modstate, iff_of_true hl.prev (if_pos rfl),
        fun h0 => absurd hl.prev h0⟩
      intro s hs
      rw [hhi, hlo]
      exact ⟨Nat.zero_le _, hl.within s hs⟩
    · rw [Heap.node_alloc, if_neg has] at hla
      exact (hI.leaves a la (ha.resolve_left has) hla).congr (if_neg has) (if_neg has) (if_neg has)
  · rintro a la ha hla
    by_cases has : a = h.size
    · subst has
      rw [Heap.node_alloc, if_pos rfl] at hla
      obtain rfl : _ = la := by simpa using hla
      refine ⟨fun m hm => ?_, fun _ => if_pos rfl, fun m hm => ?_, fun _ => if_pos rfl⟩
      · exact absurd (hl.next.symm.trans hm) (by simp)
      · exact absurd (hl.prev.symm.trans hm) (by simp)
    · rw [Heap.node_alloc, if_neg has] at hla
      have hold := hI.chain a la (ha.resolve_left has) hla
      have hfam : ∀ {b}, b ≠ h.size → (G.alloc h.size).fam b = G.fam b := fun hb => if_neg hb
      have hlo : ∀ {b}, b ≠ h.size → (G.alloc h.size).lo b = G.lo b := fun hb => if_neg hb
      have hhi : ∀ {b}, b ≠ h.size → (G.alloc h.size).hi b = G.hi b := fun hb => if_neg hb
      refine ⟨?_, by rw [hhi has]; exact hold.next_none, ?_, by rw [hlo has]; exact hold.prev_none⟩
      · intro b hb
        obtain ⟨g1, g2, g3, lb, g4, g5⟩ := hold.next_some b hb
        have hbs := (hlt g1).ne
        rw [hfam hbs, hfam has, hlo hbs, hhi has, Heap.node_alloc, if_neg hbs]
        exact ⟨Or.inr g1, g2, g3, lb, g4, g5⟩
      · intro b hb
        obtain ⟨g1, g2, g3, lb, g4, g5⟩ := hold.prev_some b hb
        have hbs := (hlt g1).ne
        rw [hfam hbs, hfam has, hhi hbs, hlo has, Heap.node_alloc, if_neg hbs]
        exact ⟨Or.inr g1, g2, g3, lb, g4, g5⟩

lemma entry_alloc_leaf (hlt : ∀ {a}, G.live a → a < h.size) (f : Ptr) (s : Slot β) :
    Entry (h.alloc (.leaf l)) (G.alloc h.size) f s
      ↔ (f = h.size ∧ s ∈ l.entries) ∨ Entry h G f s := by
  constructor
  · rintro ⟨a, la, h1, h2, h3, h4⟩
    by_cases has : a = h.size
    · rw [Heap.node_alloc, if_pos has] at h3
      obtain rfl : _ = la := by simpa using h3
      exact Or.inl ⟨h2.symm.trans (if_pos has), h4⟩
    · rw [Heap.node_alloc, if_neg has] at h3
      exact Or.inr ⟨a, la, h1.resolve_left has, (if_neg has).symm.trans h2, h3, h4⟩
  · rintro (⟨rfl, hs⟩ | ⟨a, la, h1, h2, h3, h4⟩)
    · exact ⟨h.size, { l with parent := none }, Or.inl rfl, if_pos rfl,
        by rw [Heap.node_alloc, if_pos rfl]; rfl, hs⟩
    · have has := (hlt h1).ne
      exact ⟨a, la, Or.inr h1, (if_neg has).trans h2, by rw [Heap.node_alloc, if_neg has]; exact h3,
        h4⟩

lemma Room.alloc_leaf {f : Ptr} {pos : Position} {x : ℕ} {Bf Af : Slot β → Prop} {l₀ : Leaf β}
    (hr : Room P h G f pos x Bf Af l₀) (hlt : ∀ {a}, G.live a → a < h.size) :
    Room P (h.alloc (.leaf l)) (G.alloc h.size) f pos x Bf Af l₀ := by
  have has := (hlt hr.live).ne
  refine ⟨Or.inr hr.live, (if_neg has).trans hr.fam,
    by rw [Heap.node_alloc, if_neg has]; exact hr.leaf, ?_, ?_, hr.vacant⟩
  · rw [show (G.alloc h.size).lo pos.n = G.lo pos.n from if_neg has]
    exact hr.lo
  · rw [show (G.alloc h.size).hi pos.n = G.hi pos.n from if_neg has]
    exact hr.hi

end

section

variable (m : Option DirectoryMeta)

/-- **Allocating the root leaf of a new layer.** -/
lemma HeapInv.alloc_root (hI : HeapInv P R h G) :
    HeapInv P R (h.alloc (.leaf (Leaf.makeRoot P m))) (G.alloc h.size) :=
  hI.alloc_leaf (.makeRoot m)

lemma entry_alloc_root (hlt : ∀ {a}, G.live a → a < h.size) (f : Ptr) (s : Slot β) :
    Entry (h.alloc (.leaf (Leaf.makeRoot P m))) (G.alloc h.size) f s ↔ Entry h G f s := by
  rw [entry_alloc_leaf hlt, Leaf.entries_makeRoot]
  simp

end

end MasstreeLHM
