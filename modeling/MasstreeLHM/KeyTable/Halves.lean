import MasstreeLHM.KeyTable.Runs

/-!
# What `make_split` leaves behind

A leaf that is full, or has one free slot, is cut where the slices differ; when the new slot is
live, the two halves have the old slots and the new one, in order.

The invariant says where each slot of a layer is, but not that it is in one place only.  `Holds`
says exactly which slots a leaf has, with their suffixes in its bag, and `Designates` that the
cursor designates one of them.  `Halved` are the two leaves of a split: together they have the old
slots and the new one, in order, and the separator lies between their slices.

`split_halved` goes from the two lists of a split to `Halved`, and **`makeSplit_finish`** adds the
loop over the ancestors and `finish`.  **`Layers.Reachable.make_split`** is the statement for every
leaf of every reachable table, for both kinds of tables.
-/

namespace MasstreeLHM.KeyTable

variable {V : Type} [Inhabited V]

/-- The leaf `a` has exactly the slots `es`, in order, and their suffixes are in its bag. -/
structure Holds (kind : Kind) (s : Layers V) (a : Ptr) (es : List (Slot (Cell V))) : Prop where
  leaf : (s.heap.node a).isLeaf = true
  entries : (s.heap.leaf a).entries = es
  sorted : es.Pairwise keyLt
  fits : Fits kind (s.stores a) (s.heap.leaf a)

/-- The cursor designates the live slot of `q`. -/
structure Designates (h : Heap (Cell V)) (pos : Position) (q : Insertion V) : Prop where
  live : (h.leaf pos.n).permutation.live[pos.i]? = some pos.p
  slot : (h.leaf pos.n).slot pos.p = q.slot

/-- The leaf `n`, which was `l`, and the new leaf `nr` have the slots `es`, and `split` separates
them. -/
structure Halved (kind : Kind) (s : Layers V) (l : Leaf (Cell V)) (n nr : Ptr)
    (es : List (Slot (Cell V))) (mid split : ℕ) : Prop where
  left : Holds kind s n (es.take mid)
  right : Holds kind s nr (es.drop mid)
  apart : ∀ t ∈ es.take mid, ∀ u ∈ es.drop mid, t.ikey ≠ u.ikey
  below : ∀ t ∈ es.take mid, t.ikey < split
  bound : (s.heap.leaf nr).ikeyBound = split
  above : ∀ t ∈ es.drop mid, split ≤ t.ikey
  leftBound : l.prev ≠ none → (s.heap.leaf n).ikeyBound = l.ikeyBound

namespace Layers.Ok

variable {kind : Kind} {P : NodeParams} {s : Layers V} {G : Ghost} {n : Ptr} {l : Leaf (Cell V)}
  {q : Insertion V} {i : ℕ}

lemma holds (hs : s.Ok kind P G) (hn : G.live n) (hl : s.heap.node n = .leaf l) :
    Holds kind s n l.entries := by
  have hok := hs.heap.leaves n { l with parent := none } hn (by rw [hl]; rfl)
  have hleaf : s.heap.leaf n = l := by rw [Heap.leaf, hl]; rfl
  refine ⟨by rw [hl]; rfl, by rw [hleaf], hok.sorted, ?_⟩
  rw [hleaf]
  exact hs.fits n l hl

/-- The new slot is live where the cursor is. -/
lemma designates (hs : s.Ok kind P G) {f : Ptr} {pos : Position}
    (hroom : Room P s.heap G f pos (slice q.bytes) (fun t => keyLt t q.slot)
      (fun t => keyLt q.slot t) l) :
    Designates (MasstreeLHM.finishInsert (writeSlot s.heap pos q.slot) pos) pos q ∧
      (MasstreeLHM.finishInsert (writeSlot s.heap pos q.slot) pos).node pos.n
        = .leaf (l.inserted pos.i pos.p q.slot) ∧
      (l.inserted pos.i pos.p q.slot).entries = l.itemsWith pos.i q.slot ∧
      ∀ b, b ≠ pos.n →
        (MasstreeLHM.finishInsert (writeSlot s.heap pos q.slot) pos).node b = s.heap.node b := by
  have hok := hs.heap.leaves pos.n { l with parent := none } hroom.live (by rw [hroom.leaf]; rfl)
  have hw : l.permutation.WF P.leafWidth := hok.perm
  obtain ⟨h1, h2, h3⟩ := hroom.vacant.entries_inserted hw hok.slots q.slot
  rw [finishInsert_writeSlot hroom.leaf]
  have hlen : (l.permutation.live.take pos.i).length = pos.i := by
    rw [List.length_take, hw.length_live]
    exact min_eq_left hroom.vacant.le_size
  refine ⟨⟨?_, ?_⟩, by simp, h3, fun b hb => by simp [hb]⟩
  · simp only [Heap.leaf, Heap.node_setLeaf, if_true, Node.toLeaf_leaf]
    rw [h1, List.getElem?_append_right hlen.le, hlen, Nat.sub_self]
    rfl
  · simp only [Heap.leaf, Heap.node_setLeaf, if_true, Node.toLeaf_leaf]
    exact h2

/-- All slots with the new one are in order. -/
lemma items_sorted (hs : s.Ok kind P G) (hn : G.live n) (hl : s.heap.node n = .leaf l)
    (hbf : ∀ t ∈ l.entries.take i, keyLt t q.slot) (haf : ∀ t ∈ l.entries.drop i, keyLt q.slot t) :
    (l.itemsWith i q.slot).Pairwise keyLt := by
  have hok := hs.heap.leaves n { l with parent := none } hn (by rw [hl]; rfl)
  have hsorted : l.entries.Pairwise keyLt := hok.sorted
  rw [← List.take_append_drop i l.entries, List.pairwise_append] at hsorted
  rw [Leaf.itemsWith, List.pairwise_append]
  refine ⟨hsorted.1, List.pairwise_cons.mpr ⟨haf, hsorted.2.1⟩, fun t ht u hu => ?_⟩
  rcases List.mem_cons.mp hu with rfl | hu
  · exact hbf t ht
  · exact hsorted.2.2 t ht u hu

section

variable (hs : s.Ok kind P G) (hW : P.leafWidth = kind.leafWidth) (hn : G.live n)
  (hl : s.heap.node n = .leaf l) (hmod : l.modstate ≠ .remove) (hq : q.Ok kind)
  (hxlo : G.lo n ≤ slice q.bytes) (hxhi : slice q.bytes < G.hi n) (hi : i ≤ l.size)
  (hbf : ∀ t ∈ l.entries.take i, keyLt t q.slot) (haf : ∀ t ∈ l.entries.drop i, keyLt q.slot t)
include hs hW hn hl hmod hq hxlo hxhi hi hbf haf

/-- **The halves** when the new slot is live. -/
lemma split_halved (sz : ℕ) (hfull : l.size = P.leafWidth ∨
      (l.size + 1 = P.leafWidth ∧ l.permutation.get (P.leafWidth - 1) = 0)) :
    ∃ mid h' pos stores',
      l.splitPoint P i (assigned q.bytes) = some mid ∧
      (splitLeaf P s.heap n i (assigned q.bytes) mid).2.2.1 = pos ∧
      ascend P (splitLeaf P s.heap n i (assigned q.bytes) mid).2.2.2
          ((splitLeaf P s.heap n i (assigned q.bytes) mid).1.size + 1) 0
          (splitLeaf P s.heap n i (assigned q.bytes) mid).1
          (splitLeaf P s.heap n i (assigned q.bytes) mid).2.1 = some h' ∧
      splitStores P sz s.heap s.stores n i q.bytes mid = some stores' ∧
      Designates (MasstreeLHM.finishInsert (writeSlot h' pos q.slot) pos) pos q ∧
      Halved kind ⟨MasstreeLHM.finishInsert (writeSlot h' pos q.slot) pos, stores', s.roots⟩ l n
        s.heap.size
        (l.itemsWith i q.slot) mid (splitLeaf P s.heap n i (assigned q.bytes) mid).2.1.ikey := by
  have hok := hs.heap.leaves n { l with parent := none } hn (by rw [hl]; rfl)
  have hns := (hs.heap.tree.live_lt hn).ne
  obtain ⟨mid, h', G', stores', e1, e2, e3, hlt, hge, ⟨e4, e5, e6⟩, e7, hs', -, ⟨hlive, hlo⟩,
    ⟨p, hp⟩, ⟨p', hp'⟩, hready, l', hroom⟩ := hs.split hW hn hl hmod hq hxlo hxhi hi
    hbf haf sz hfull
  set pos := l.splitPosition P n s.heap.size i (assigned q.bytes) mid with hpos
  obtain ⟨hdes, hnode, hent, hother⟩ := hs'.designates hroom
  have hnew := hs'.finishInsert hq hroom hready
  have hw : l.permutation.WF P.leafWidth := hok.perm
  obtain ⟨-, -, hbound, -⟩ := Leaf.splitRight_spec hw n (assigned q.bytes : Slot (Cell V)) hi e2 e3
  obtain ⟨c1, c2⟩ := Leaf.splitPosition_spec hw hok.slots hi e2 e3 n s.heap.size (assigned q.bytes)
  obtain ⟨d1, d2⟩ :=
    Leaf.itemsWith_halves hw hok.slots hi e2 e3 n s.heap.size (assigned q.bytes) q.slot
  have hsorted := hs.items_sorted hn hl hbf haf
  set t := MasstreeLHM.finishInsert (writeSlot h' pos q.slot) pos with ht
  have halves : ∃ la lb, t.node n = .leaf la ∧ la.entries = (l.itemsWith i q.slot).take mid ∧
      t.node s.heap.size = .leaf lb ∧ lb.entries = (l.itemsWith i q.slot).drop mid ∧
      lb.ikeyBound = l.ikeyAfterInsert i (assigned q.bytes) mid ∧ la.prev = l.prev := by
    have hprev : (l.leftHalf P n s.heap.size i (assigned q.bytes) mid).prev = l.prev := by
      rw [Leaf.leftHalf]
      split_ifs <;> rfl
    rcases Nat.lt_or_ge i mid with h0 | h0
    · -- the new slot is on the left
      have hpn : pos.n = n := (c1 h0).1
      have hpi : pos.i = i := by rw [hpos, Leaf.splitPosition, if_pos h0]
      have hl' := hroom.leaf
      rw [hpn, hp, Node.leaf.injEq] at hl'
      subst hl'
      rw [hpi] at hent hnode
      rw [hpn] at hnode
      exact ⟨_, _, hnode, hent.trans (d1 h0).1,
        (hother _ (by rw [hpn]; exact hns.symm)).trans hp', (d1 h0).2, hbound, hprev⟩
    · -- it is on the right
      have hpos' := (c2 h0).1
      have hl' := hroom.leaf
      rw [← hpos] at hpos'
      rw [hpos', hp', Node.leaf.injEq] at hl'
      subst hl'
      rw [hpos'] at hent hnode hother
      refine ⟨_, _, (hother n hns).trans hp, (d2 h0).1, hnode, hent.trans (d2 h0).2, ?_, hprev⟩
      rw [Leaf.ikeyBound_inserted, ← hbound]
      · rfl
      · rw [ikey_slot]
        exact congrArg Slot.ikey (c2 h0).2
  obtain ⟨la, lb, f1, f2, f3, f4, f5, f6⟩ := halves
  refine ⟨mid, h', pos, stores', e1, e5, e6, e7, hdes, ?_⟩
  rw [e4]
  have hlb : t.leaf s.heap.size = lb := by rw [Heap.leaf, f3]; rfl
  have hla : t.leaf n = la := by rw [Heap.leaf, f1]; rfl
  refine ⟨⟨by rw [f1]; rfl, by rw [hla, f2], hsorted.sublist (List.take_sublist _ _), ?_⟩,
    ⟨by rw [f3]; rfl, by rw [hlb, f4], hsorted.sublist (List.drop_sublist _ _), ?_⟩,
    fun t ht u hu => ((hlt t ht).trans_le (hge u hu)).ne, hlt, ?_, hge, ?_⟩
  · rw [hla]
    exact hnew.fits n la f1
  · rw [hlb]
    exact hnew.fits s.heap.size lb f3
  · rw [hlb, f5]
  · intro hprev
    have hok' := hnew.heap.leaves n { la with parent := none } hlive (by rw [f1]; rfl)
    rw [hla]
    exact (hok'.bound (f6 ▸ hprev)).trans (hlo.trans (hok.bound hprev).symm)

/-- **`make_split` and `finish`** on a leaf with at most one free slot. -/
lemma makeSplit_finish (sz : ℕ) (hsize : P.leafWidth ≤ l.size + 1) :
    ∃ mid h' pos stores',
      l.splitPoint P i (assigned q.bytes) = some mid ∧ 1 ≤ mid ∧ mid ≤ l.size ∧
      MasstreeLHM.makeSplit P s.heap n i (assigned q.bytes) = some (h', pos) ∧
      makeSplitStores P sz s.heap s.stores n i q.bytes = some stores' ∧
      Designates (MasstreeLHM.finishInsert (writeSlot h' pos q.slot) pos) pos q ∧
      if l.size < P.leafWidth ∧ l.permutation.back ≠ 0 then
        Holds kind ⟨MasstreeLHM.finishInsert (writeSlot h' pos q.slot) pos, stores', s.roots⟩ n
          (l.itemsWith i q.slot)
      else
        Halved kind ⟨MasstreeLHM.finishInsert (writeSlot h' pos q.slot) pos, stores', s.roots⟩ l n
          s.heap.size
          (l.itemsWith i q.slot) mid (splitLeaf P s.heap n i (assigned q.bytes) mid).2.1.ikey := by
  have hok := hs.heap.leaves n { l with parent := none } hn (by rw [hl]; rfl)
  have hw : l.permutation.WF P.leafWidth := hok.perm
  have hsz : l.size ≤ P.leafWidth := hw.size_le
  have h3 := P.three_le_leafWidth
  have hleaf : s.heap.leaf n = l := by rw [Heap.leaf, hl]; rfl
  have hsorted : l.entries.Pairwise keyLt := hok.sorted
  obtain ⟨mid, hsp, hmid, hmid', -, -⟩ : ∃ mid, l.splitPoint P i (assigned q.bytes) = some mid ∧
    1 ≤ mid ∧
      mid ≤ l.size ∧ _ ∧ _ := Leaf.splitPoint_of_ne keyLt_le hw hsorted hi hsize
    (fun t ht => (keyLt_le _ _ (hbf t ht)).trans ikey_slot.le)
    (fun t ht => ikey_slot.ge.trans (keyLt_le _ _ (haf t ht)))
    (exists_other_ikey hsorted (hs.fits n l hl).keylenx
      (by rw [← hW, Leaf.entries_length hw]; exact hsize) _)
  -- with one free slot there is nothing to exchange
  have hex : l.size < P.leafWidth →
    l.permutation.exchange l.size (P.leafWidth - 1) = l.permutation := by
    intro hlt
    rw [show l.size = P.leafWidth - 1 by omega]
    exact hw.exchange_self (by omega)
  have hcond : (l.size < P.leafWidth ∧ (l.permutation.exchange l.size (P.leafWidth - 1)).back ≠ 0)
      ↔ (l.size < P.leafWidth ∧ l.permutation.back ≠ 0) :=
    and_congr_right fun hlt => by rw [hex hlt]
  simp only [MasstreeLHM.makeSplit, makeSplitStores, hleaf, hcond, hsp]
  by_cases hfree : l.size < P.leafWidth ∧ l.permutation.back ≠ 0
  · -- the free slot may be used, and nothing is split
    obtain ⟨st', h1, h2, h3, h4⟩ :=
      hs.assign hW hn hl hmod hq hxlo hxhi hi hbf haf hfree.1 (Or.inl hfree.2)
    obtain ⟨hdes, hnode, hent, -⟩ := h2.designates h3
    have hnew := h2.finishInsert hq h3 h4
    simp only [if_pos hfree, hex hfree.1, h1]
    refine ⟨mid, _, _, _, rfl, hmid, hmid', rfl, rfl, hdes, ?_⟩
    have hents : (l.assign l.permutation.back (assigned q.bytes)).entries = l.entries :=
      Leaf.entries_assign (hw.back_notMem_live hfree.1) fun r hr => by
        rw [show l.slots.length = P.leafWidth from hok.slots]
        exact hw.live_lt hr
    rw [Leaf.itemsWith, hents] at hent
    have := hnew.holds hn hnode
    rw [hent] at this
    exact this
  · have hfull : l.size = P.leafWidth ∨
        (l.size + 1 = P.leafWidth ∧ l.permutation.get (P.leafWidth - 1) = 0) := by
      by_cases hlt : l.size < P.leafWidth
      · have hb0 : l.permutation.back = 0 := by
          by_contra h0
          exact hfree ⟨hlt, h0⟩
        exact Or.inr ⟨by omega, hw.back_eq_get ▸ hb0⟩
      · exact Or.inl (by omega)
    obtain ⟨mid', h', pos, stores', e1, e2, e3, e4, e5, e6⟩ :=
      hs.split_halved hW hn hl hmod hq hxlo hxhi hi hbf haf sz hfull
    obtain rfl : mid' = mid := by simpa [hsp] using e1.symm
    simp only [if_neg hfree, e3, e4]
    subst e2
    exact ⟨mid', h', _, stores', rfl, hmid, hmid', rfl, rfl, e5, e6⟩

end

end Layers.Ok

/-- **Splitting a leaf of the table.**  In every reachable state, for every leaf with at most one
free slot and every key that a search has not found in it, the search for a split point ends inside
the leaf.  When the new slot is live, the two halves have the old slots and the new one, or one leaf
has them all if its free slot could be used; the cursor designates the new slot. -/
theorem Layers.Reachable.make_split {kind : Kind} {P : NodeParams} {sz : ℕ} {s : Layers V}
    (hW : P.leafWidth = kind.leafWidth) (hs : s.Reachable kind P sz) {r : Ptr}
    {q : Insertion V} {c : Cursor} (hq : s.Misses kind r q c)
      (hsize : P.leafWidth ≤ (s.heap.leaf c.n).size + 1) :
    let l : Leaf (Cell V) := { s.heap.leaf c.n with modstate := .insert }
    let h := s.heap.setLeaf c.n l
    ∃ mid h' pos stores',
      l.splitPoint P c.i (assigned q.bytes) = some mid ∧ 0 < mid ∧ mid ≤ l.size ∧
      makeSplit P h c.n c.i (assigned q.bytes) = some (h', pos) ∧
      makeSplitStores P sz h s.stores c.n c.i q.bytes = some stores' ∧
      Designates (finishInsert (writeSlot h' pos q.slot) pos) pos q ∧
      if l.size < P.leafWidth ∧ l.permutation.back ≠ 0 then
        Holds kind ⟨finishInsert (writeSlot h' pos q.slot) pos, stores', s.roots⟩ c.n
          (l.itemsWith c.i q.slot)
      else
        Halved kind ⟨finishInsert (writeSlot h' pos q.slot) pos, stores', s.roots⟩ l c.n s.heap.size
          (l.itemsWith c.i q.slot) mid (splitLeaf P h c.n c.i (assigned q.bytes) mid).2.1.ikey := by
  intro l h
  obtain ⟨G, hs⟩ := hs.ok hW
  obtain ⟨l₀, h1, h2, h3, h4, h5, h6, h7⟩ := hs.misses hq
  have hleaf : s.heap.leaf c.n = l₀ := by rw [Heap.leaf, h2]; rfl
  have hok := hs.heap.leaves c.n { l₀ with parent := none } h1 (by rw [h2]; rfl)
  have hl : l = { l₀ with modstate := .insert } := by rw [← hleaf]
  have hok₁ : LeafOk P keyLt G c.n { l with parent := none } := by
    rw [hl]
    exact ⟨hok.perm, hok.slots, hok.sorted, hok.within, by simp, hok.first, hok.bound⟩
  have hsame : l₀.SameLinks l := by
    rw [hl]
    exact ⟨rfl, rfl, rfl, rfl, Iff.rfl⟩
  have hs₁ := hs.setLeaf h2 l hsame (by rw [hl]) (by rw [hl]) (fun _ => hok₁) (hs.stores c.n)
    ((hs.fits c.n l₀ h2).mono (by rw [hl]; exact List.Subset.refl _) (by rw [hl]))
  rw [Function.update_eq_self] at hs₁
  rw [hleaf] at hsize
  exact hs₁.makeSplit_finish (i := c.i) hW h1 (by simp) (by simp [l]) hq.ok h3 h4
    (by rw [hl]; exact h5)
    (by rw [hl]; exact h6) (by rw [hl]; exact h7) sz (by rw [hl]; exact hsize)

/-- The parameters of a table of slices. -/
def sliceParams : NodeParams := namespaceTableParams

/-- A table of slices that has just been made. -/
def freshTable : Option (Layers ℕ) :=
  (SuffixStore.make 512 sliceParams.leafWidth 0).map fun st =>
    ⟨(Layers.empty : Layers ℕ).heap.alloc (.leaf (Leaf.makeRoot sliceParams none)),
      Function.update (Layers.empty : Layers ℕ).stores 0 st, [0]⟩

/-- The file with number `i`. -/
def file (i : ℕ) : Insertion ℕ := .key [0, 0, 0, 0, 0, 0, 0, UInt8.ofNat i] i

/-- The eighth file splits the leaf that has seven. -/
theorem Layers.Reachable.make_split_sevenFiles :
    ∃ s c, (freshTable.bind fun s => s.insertAll sliceParams 512 0 ((List.range 7).map file)) =
      some s ∧
      findWith (file 7).compare s.heap 0 (slice (file 7).bytes) = some c ∧
      ∃ mid split t, 0 < mid ∧
      Halved .slices t { s.heap.leaf c.n with modstate := .insert } c.n s.heap.size
        ((s.heap.leaf c.n).itemsWith c.i (file 7).slot) mid split := by
  have hrun :
    ((freshTable.bind fun s => s.insertAll sliceParams 512 0 ((List.range 7).map file)).bind
      fun s => (findWith (file 7).compare s.heap 0 (slice (file 7).bytes)).map
        fun c => (c.p, (s.heap.leaf c.n).size, s.roots)) = some (none, 7, [0]) := by decide
  obtain ⟨s, hs, hrun⟩ := Option.bind_eq_some_iff.mp hrun
  obtain ⟨c, hc, hrun⟩ := Option.map_eq_some_iff.mp hrun
  rw [Prod.mk.injEq, Prod.mk.injEq] at hrun
  obtain ⟨s₀, hs₀, hs₁⟩ := Option.bind_eq_some_iff.mp hs
  obtain ⟨st, hst, rfl⟩ := Option.map_eq_some_iff.mp hs₀
  have hnew : Layers.Reachable .slices sliceParams 512 _ :=
    Relation.ReflTransGen.single
      (.init (Layers.empty : Layers ℕ) none st (fun _ => rfl) hst)
  have hreach := hnew.insertAll List.mem_cons_self (fun q hq => by
    obtain ⟨i, -, rfl⟩ := List.mem_map.mp hq
    exact rfl) hs₁
  obtain ⟨mid, h', pos, stores', -, h1, -, -, -, -, h2⟩ :=
    Layers.Reachable.make_split rfl hreach (q := file 7) ⟨hrun.2.2 ▸ List.mem_cons_self,
      rfl, hc, hrun.1⟩
      (by rw [hrun.2.1]; decide)
  rw [if_neg (fun h => by
    have h3 : (s.heap.leaf c.n).size < 7 := h.1
    omega)] at h2
  exact ⟨s, c, hs, hc, mid, _, _, h1, h2⟩

end MasstreeLHM.KeyTable
