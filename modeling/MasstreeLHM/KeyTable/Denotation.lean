import MasstreeLHM.KeyTable.StringTable
import MasstreeLHM.Trie.LayerMap

/-!
# What a table of byte strings denotes

Each layer is a map from slices and lengths to slots, and a slot is a value with the suffix of its
key, or the next layer: the table is a trie of layers.

`byteCut` cuts strings into slices, and `Denotes` says that the slots of all layers are the cells of
a `Trie.LayerMap`, a layer being named by its leftmost leaf.  A slot that is replaced, added or
removed is one changed cell: `Denotes.replace`, `Denotes.add`, `Denotes.remove`.

`Stands` joins this with the invariant of the nodes: the table is in order and stands for a trie,
and `Sound` says that layer pointers are ones that a cursor may enter.  **`entry_unique`** makes a
layer a map, and **`Stands.lower`** is the search in one layer: it ends in the leaf that is
responsible for the slice, at the slot of the cell if there is one (`StopsAt`).
-/

namespace MasstreeLHM.KeyTable

open Trie

variable {V : Type}

/-- Strings are cut into slices.  The cell of a string in a layer is its first slice and its length
there. -/
def byteCut : Cut Bytes (ℕ × ℕ) where
  cell k := (slice k, min k.length 9)
  rest k := if 8 < k.length then some (k.drop 8) else none
  size := List.length
  size_rest {a b} h := by
    split_ifs at h with h8
    cases h
    rw [List.length_drop]
    omega
  ext {a b} hc hr := by
    obtain ⟨hs, hl⟩ := Prod.mk.inj hc
    by_cases h8 : 8 < a.length
    · have hb : 8 < b.length := by omega
      rw [if_pos h8, if_pos hb, Option.some.injEq] at hr
      rw [← List.take_append_drop 8 a, ← List.take_append_drop 8 b,
        take_eq_of_slice_eq hs h8 hb, hr]
    · have hlen : a.length = b.length := by omega
      have := prefix_of_slice_eq hs hlen.le (by omega)
      rwa [hlen, List.take_length] at this

@[simp] lemma byteCut_cell (k : Bytes) : byteCut.cell k = (slice k, min k.length 9) := rfl

lemma byteCut_rest (k : Bytes) : byteCut.rest k = if 8 < k.length then some (k.drop 8) else none :=
  rfl

lemma byteCut_rest_of_lt {k : Bytes} (h : 8 < k.length) : byteCut.rest k = some (k.drop 8) :=
  if_pos h

/-- Behind a whole slice another string may follow. -/
lemma byteCut_take_append {q k : Bytes} (hq : 8 < q.length) (hk : k ≠ []) :
    byteCut.cell (q.take 8 ++ k) = byteCut.cell q ∧ byteCut.rest (q.take 8 ++ k) = some k := by
  have hlen : (q.take 8).length = 8 := List.length_take_of_le hq.le
  have hpos : 0 < k.length := List.length_pos_iff.mpr hk
  have h8 : 8 < (q.take 8 ++ k).length := by rw [List.length_append, hlen]; omega
  have hpad : padTo 8 (q.take 8 ++ k) = padTo 8 q := by
    rw [padTo_of_le hq.le, padTo_of_le h8.le, List.take_append_of_le_length hlen.ge,
      List.take_take, Nat.min_self]
  refine ⟨?_, by rw [byteCut_rest_of_lt h8, List.drop_left' hlen]⟩
  rw [byteCut_cell, byteCut_cell, slice, slice, hpad, Nat.min_eq_right (by omega),
    Nat.min_eq_right (by omega)]

/-- The cell of a slot. -/
def cellOf (t : Slot (Cell V)) : ℕ × ℕ := (t.ikey, rank t)

/-- The suffix of a slot, if its key has one. -/
def restOf (t : Slot (Cell V)) : Option Bytes := if hasKsuf t then some t.body.ksuf else none

/-- What a slot says, when `fam` tells the layer of a node. -/
def itemOf (fam : Ptr → Ptr) (t : Slot (Cell V)) : Item Bytes V Ptr :=
  match t.body.lv with
  | .value v => .value (restOf t) v
  | .layer n => .layer (fam n)

/-- The layers that the slots `E` make up. -/
def Denotes (E : Ptr → Slot (Cell V) → Prop) (fam : Ptr → Ptr) (M : LayerMap Bytes (ℕ × ℕ) V Ptr) :
    Prop :=
  ∀ f c i, M f c = some i ↔ ∃ t, E f t ∧ cellOf t = c ∧ itemOf fam t = i

/-! ## Cells and comparisons -/

lemma cellOf_eq_iff {k : Bytes} {t : Slot (Cell V)} : cellOf t = byteCut.cell k ↔
    compareKey k t = 0 := by
  have h1 := compareKey_pos (k := k) (s := t)
  have h2 := compareKey_neg (k := k) (s := t)
  rw [cellOf, byteCut_cell, Prod.mk.injEq]
  omega

lemma compareKey_pos_of_lt {k : Bytes} {s t : Slot (Cell V)} (h : keyLt s t) :
    0 < compareKey k t → 0 < compareKey k s := by
  rw [keyLt] at h
  rw [compareKey_pos, compareKey_pos]
  omega

lemma compareKey_neg_of_lt {k : Bytes} {s t : Slot (Cell V)} (h : keyLt s t) :
    compareKey k s < 0 → compareKey k t < 0 := by
  rw [keyLt] at h
  rw [compareKey_neg, compareKey_neg]
  omega

lemma eq_of_cellOf {es : List (Slot (Cell V))} (hs : es.Pairwise keyLt) {s t : Slot (Cell V)}
    (hsm : s ∈ es) (htm : t ∈ es) (h : cellOf s = cellOf t) : s = t := by
  obtain ⟨h1, h2⟩ := Prod.mk.inj h
  have hirr : ¬ keyLt s t ∧ ¬ keyLt t s := by
    rw [keyLt, keyLt]
    omega
  induction hs with
  | nil => cases hsm
  | @cons u us hu _ ih =>
      rcases List.mem_cons.mp hsm with rfl | h3
      · rcases List.mem_cons.mp htm with rfl | h4
        · rfl
        · exact absurd (hu t h4) hirr.1
      · rcases List.mem_cons.mp htm with rfl | h4
        · exact absurd (hu s h3) hirr.2
        · exact ih h3 h4

section

variable [Inhabited V]

lemma cellOf_key (k : Bytes) (v : V) : cellOf (Insertion.key k v).slot = byteCut.cell k := by
  rw [cellOf, rank_slot_key, ikey_slot]
  rfl

lemma itemOf_key (fam : Ptr → Ptr) (k : Bytes) (v : V) :
    itemOf fam (Insertion.key k v).slot = .value (byteCut.rest k) v := by
  have h : hasKsuf (Insertion.key k v).slot = (keyOf k).hasSuffix := hasKsuf_assigned
  change Item.value (restOf (Insertion.key k v).slot) v = _
  rw [restOf, h, byteCut_rest]
  change Item.value (if (keyOf k).hasSuffix = true then some (assigned k : Slot (Cell V)).body.ksuf
    else none) v = _
  rw [assigned]
  by_cases h8 : 8 < k.length
  · have hs : (keyOf k).hasSuffix = true := decide_eq_true h8
    rw [if_pos hs, if_pos hs, if_pos h8]
  · have hs : ¬ (keyOf k).hasSuffix = true := fun h0 => h8 (of_decide_eq_true h0)
    rw [if_neg hs, if_neg h8]

end

/-! ## Changing a slot -/

namespace Denotes

variable {E E' : Ptr → Slot (Cell V) → Prop} {fam fam' : Ptr →
  Ptr} {M : LayerMap Bytes (ℕ × ℕ) V Ptr}
  {f₀ : Ptr} {c₀ : ℕ × ℕ} {t₀ : Slot (Cell V)}

lemma item (h : Denotes E fam M) (ht : E f₀ t₀) : M f₀ (cellOf t₀) = some (itemOf fam t₀) :=
  (h _ _ _).mpr ⟨t₀, ht, rfl, rfl⟩

lemma eq_none (h : Denotes E fam M) (hno : ∀ t, E f₀ t → cellOf t ≠ c₀) : M f₀ c₀ = none := by
  cases hi : M f₀ c₀ with
  | none => rfl
  | some i =>
      obtain ⟨t, h1, h2, -⟩ := (h _ _ _).mp hi
      exact absurd h2 (hno t h1)

lemma congr (h : Denotes E fam M) (hE : ∀ f t, E' f t ↔ E f t) (hfam : ∀ f t, E f t →
    itemOf fam' t = itemOf fam t) :
    Denotes E' fam' M := by
  intro f c i
  rw [h]
  constructor
  · rintro ⟨t, h1, h2, h3⟩
    exact ⟨t, (hE f t).mpr h1, h2, (hfam f t h1).trans h3⟩
  · rintro ⟨t, h1, h2, h3⟩
    have h1 := (hE f t).mp h1
    exact ⟨t, h1, h2, (hfam f t h1).symm.trans h3⟩

/-- **A slot takes the place of what was in its cell.** -/
lemma replace (h : Denotes E fam M) (hE : ∀ f t, E' f t ↔ (E f t ∧ ¬ (f = f₀ ∧ cellOf t = c₀)) ∨
    (f = f₀ ∧ t = t₀))
    (ht₀ : cellOf t₀ = c₀) : Denotes E' fam (set M f₀ c₀ (some (itemOf fam t₀))) := by
  intro f c i
  by_cases h0 : f = f₀ ∧ c = c₀
  · obtain ⟨rfl, rfl⟩ := h0
    rw [set_self, Option.some.injEq]
    constructor
    · rintro rfl
      exact ⟨t₀, (hE _ _).mpr (Or.inr ⟨rfl, rfl⟩), ht₀, rfl⟩
    · rintro ⟨t, h1, h2, rfl⟩
      rcases (hE _ _).mp h1 with ⟨-, h3⟩ | ⟨-, rfl⟩
      · exact absurd ⟨rfl, h2⟩ h3
      · rfl
  · rw [set_of_ne h0, h]
    constructor
    · rintro ⟨t, h1, h2, h3⟩
      exact ⟨t, (hE _ _).mpr (Or.inl ⟨h1, fun h4 => h0 ⟨h4.1, h2.symm.trans h4.2⟩⟩), h2, h3⟩
    · rintro ⟨t, h1, h2, h3⟩
      rcases (hE _ _).mp h1 with ⟨h4, -⟩ | ⟨rfl, rfl⟩
      · exact ⟨t, h4, h2, h3⟩
      · exact absurd ⟨rfl, h2.symm.trans ht₀⟩ h0

/-- A slot is added. -/
lemma add (h : Denotes E fam M) (hE : ∀ f t, E' f t ↔ E f t ∨ (f = f₀ ∧ t = t₀))
    (hno : ∀ t, E f₀ t → cellOf t ≠ cellOf t₀) :
    Denotes E' fam (set M f₀ (cellOf t₀) (some (itemOf fam t₀))) := by
  refine h.replace (fun f t => (hE f t).trans (or_congr_left ?_)) rfl
  refine ⟨fun h1 => ⟨h1, fun h2 => ?_⟩, And.left⟩
  rw [h2.1] at h1
  exact hno t h1 h2.2

/-- A slot is removed. -/
lemma remove (h : Denotes E fam M) (hE : ∀ f t, E' f t ↔ E f t ∧ ¬ (f = f₀ ∧ cellOf t = c₀)) :
    Denotes E' fam (set M f₀ c₀ none) := by
  intro f c i
  by_cases h0 : f = f₀ ∧ c = c₀
  · obtain ⟨rfl, rfl⟩ := h0
    rw [set_self]
    refine ⟨fun h1 => absurd h1 (by simp), ?_⟩
    rintro ⟨t, h1, h2, -⟩
    exact absurd ⟨rfl, h2⟩ ((hE _ _).mp h1).2
  · rw [set_of_ne h0, h]
    constructor
    · rintro ⟨t, h1, h2, h3⟩
      exact ⟨t, (hE _ _).mpr ⟨h1, fun h4 => h0 ⟨h4.1, h2.symm.trans h4.2⟩⟩, h2, h3⟩
    · rintro ⟨t, h1, h2, h3⟩
      exact ⟨t, ((hE _ _).mp h1).1, h2, h3⟩

end Denotes

/-! ## A table and its map -/

section

variable [Inhabited V]

/-- A slot is a value, or a layer that a cursor may enter. -/
def Sound (h : Heap (Cell V)) (G : Ghost) (t : Slot (Cell V)) : Prop :=
  (isLayer t = false ∧ ∃ v, t.body.lv = .value v) ∨
    (isLayer t = true ∧ ∃ n, t.body.lv = .layer n ∧ Held h G n)

/-- The nodes of a table and the trie they stand for. -/
structure Stands (P : NodeParams) (s : Layers V) (G : Ghost) (M : LayerMap Bytes (ℕ × ℕ) V Ptr) :
    Prop where
  ok : s.Ok .strings P G
  denotes : Denotes (Entry s.heap G) G.fam M
  sound : ∀ f t, Entry s.heap G f t → Sound s.heap G t

variable {P : NodeParams} {s : Layers V} {G G' : Ghost} {M : LayerMap Bytes (ℕ × ℕ) V Ptr}
  {h h' : Heap (Cell V)}
  {k : Bytes} {f n r : Ptr} {l : Leaf (Cell V)} {t u : Slot (Cell V)} {p : ℕ}

/-- A slot of a layer is one of the leaf responsible for its slice. -/
lemma mem_entries (hI : HeapInv P keyLt h G) (ht : Entry h G f t) (hn : G.live n) (hf : G.fam n = f)
    (hl : h.node n = .leaf l) (hlo : G.lo n ≤ t.ikey) (hhi : t.ikey < G.hi n) : t ∈ l.entries := by
  obtain ⟨b, lb, h1, h2, h3, h4⟩ := ht
  obtain rfl := hI.tree.leaf_unique h1 hn (Node.leafData_leaf h3).1 (by rw [hl]; rfl)
    (h2.trans hf.symm) ((hI.leaves b lb h1 h3).within t h4) ⟨hlo, hhi⟩
  obtain rfl : _ = lb := by simpa [hl] using h3
  exact h4

lemma entry_of_mem (hn : G.live n) (hl : h.node n = .leaf l) (ht : t ∈ l.entries) :
    Entry h G (G.fam n) t :=
  ⟨n, { l with parent := none }, hn, rfl, by rw [hl]; rfl, ht⟩

/-- **A layer has at most one slot in a cell.** -/
lemma entry_unique (hI : HeapInv P keyLt h G) (ht : Entry h G f t) (hu : Entry h G f u)
    (hc : cellOf t = cellOf u) : t = u := by
  obtain ⟨b, lb, h1, h2, h3, h4⟩ := ht
  have hok := hI.leaves b lb h1 h3
  obtain ⟨hlo, hhi⟩ := hok.within t h4
  cases hn : h.node b with
  | internode i => simp [hn] at h3
  | leaf l =>
      obtain rfl : _ = lb := by simpa [hn] using h3
      have hik : t.ikey = u.ikey := (Prod.mk.inj hc).1
      exact eq_of_cellOf hok.sorted h4 (mem_entries (l := l) hI hu h1 h2 hn (hik ▸ hlo) (hik ▸ hhi))
        hc

/-- The leaf where a search for `k` in layer `f` ends. -/
structure StopsAt (h : Heap (Cell V)) (G : Ghost) (f : Ptr) (k : Bytes) (c : Cursor)
    (l : Leaf (Cell V)) : Prop where
  live : G.live c.n
  fam : G.fam c.n = f
  leaf : h.node c.n = .leaf l
  lo : G.lo c.n ≤ slice k
  hi : slice k < G.hi c.n
  le_size : c.i ≤ l.size
  hit : ∀ p, c.p = some p → l.permutation.live[c.i]? = some p ∧ cellOf (l.slot p) = byteCut.cell k
  miss : c.p = none → (∀ t ∈ l.entries.take c.i, 0 < compareKey k t) ∧ ∀ t ∈ l.entries.drop c.i,
    compareKey k t < 0

/-- **The search in a layer.** -/
lemma Stands.lower (hS : Stands P s G M) (hr : Held s.heap G r) (k : Bytes) :
    ∃ c l, KeyTable.lower s.heap r k = some c ∧ StopsAt s.heap G (G.fam r) k c l := by
  obtain ⟨n, l, h1, h2, h3, h4, h5, h6⟩ := findWith_leaf (compareKey k) hS.ok.heap hr.known
    (hr.startable hS.ok.heap) (slice_lt k)
  have hok := hS.ok.heap.leaves n { l with parent := none } h1 (by rw [h3]; rfl)
  have hw : l.permutation.WF P.leafWidth := hok.perm
  have hsorted : (l.permutation.live.map l.slot).Pairwise keyLt := hok.sorted
  rw [List.pairwise_map] at hsorted
  set c : Cursor := ⟨n, (lowerBy (fun p => compareKey k (l.slot p)) l.permutation.live).1,
    (lowerBy (fun p => compareKey k (l.slot p)) l.permutation.live).2⟩ with hc
  have hlow : lowerBy (fun p => compareKey k (l.slot p)) l.permutation.live = (c.i, c.p) := rfl
  have hnone : c.p = none → c.i ≤ l.permutation.live.length ∧
      (∀ q ∈ l.permutation.live.take c.i, 0 < compareKey k (l.slot q)) ∧
      ∀ q ∈ l.permutation.live.drop c.i, compareKey k (l.slot q) < 0 := fun hp =>
    lowerBy_none (hsorted.imp fun h0 => compareKey_pos_of_lt h0)
      (hsorted.imp fun h0 => compareKey_neg_of_lt h0)
      (hp ▸ hlow)
  refine ⟨c, l, ?_, h1, h2, h3, h4, h5, ?_, fun p hp => ?_, fun hp => ?_⟩
  · rw [findWith] at h6
    rw [KeyTable.lower]
    cases hreach : reachLeaf s.heap r (slice k) with
    | none => simp [hreach] at h6
    | some b =>
        simp only [hreach] at h6 ⊢
        split_ifs at h6 with hdel
        rw [if_neg (fun h0 => hdel (Or.inl h0))]
        exact h6
  · cases hp : c.p with
    | some p =>
        rw [hp] at hlow
        have := (List.getElem?_eq_some_iff.mp (lowerBy_some hlow).1).1
        rw [hw.length_live] at this
        exact this.le
    | none => exact (hnone hp).1.trans hw.length_live.le
  · rw [hp] at hlow
    obtain ⟨g1, g2⟩ := lowerBy_some hlow
    exact ⟨g1, cellOf_eq_iff.mpr g2⟩
  · obtain ⟨-, g1, g2⟩ := hnone hp
    rw [Leaf.entries, ← List.map_take, ← List.map_drop]
    refine ⟨fun t ht => ?_, fun t ht => ?_⟩
    · obtain ⟨q, hq, rfl⟩ := List.mem_map.mp ht
      exact g1 q hq
    · obtain ⟨q, hq, rfl⟩ := List.mem_map.mp ht
      exact g2 q hq

end

end MasstreeLHM.KeyTable
