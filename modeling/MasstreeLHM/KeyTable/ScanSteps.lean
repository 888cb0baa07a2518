import MasstreeLHM.KeyTable.SlotOrder
import Mathlib.Logic.Relation

/-!
# What a scan finds next

At a slot it has passed the scan looks further.  Otherwise it puts the key of the slot together in
its buffer, or begins the prefix of the layer that it goes down to.

`BufferKey.At` says that the key of the scan is behind a prefix in its buffer, and `At.store` and
`At.assignStoreIkey` keep it while bytes are stored behind the prefix.  `Spells` is the string of a
slot as the scan reads it, with the suffix from the bag of the leaf.

`InLeaf` is a scan in a leaf of the layer of its prefix.  From there `find_next` has four outcomes,
with one lemma for each: **`findNext_skip`** passes a slot, **`findNext_value`** comes to a value,
**`findNext_layer`** to a layer, and `findNext_end` goes on to the next leaf or asks to go up.
-/

namespace MasstreeLHM.KeyTable

open Trie

variable {V : Type} [Inhabited V] {P : NodeParams} {S : Layers V} {G : Ghost}
  {M : LayerMap Bytes (ℕ × ℕ) V Ptr}
  {R n r : Ptr} {l : Leaf (Cell V)} {t : Slot (Cell V)} {q u : Bytes} {p : ℕ} {ka : BufferKey}
  {s : StringScan V}

/-! ## The key buffer -/

lemma prefix_padTo {xs : Bytes} (h : q.drop 8 <+: xs) : q <+: padTo 8 q ++ xs := by
  rcases Nat.lt_or_ge 8 q.length with h8 | h8
  · obtain ⟨ys, rfl⟩ := h
    rw [padTo_of_le h8.le]
    exact ⟨ys, by rw [← List.append_assoc, List.take_append_drop]⟩
  · rw [padTo_eq, List.take_of_length_le h8, List.append_assoc]
    exact List.prefix_append _ _

namespace BufferKey

/-- The key of the scan is behind the prefix `u` in its buffer. -/
structure At (ka : BufferKey) (u : Bytes) : Prop where
  length : ka.buf.length = masstreeMaxkeylen
  pos : ka.pos = u.length
  before : u <+: ka.buf

lemma At.take (hk : ka.At u) : ka.buf.take u.length = u :=
  (List.prefix_iff_eq_take.mp hk.before).symm

/-- Bytes are stored behind the prefix. -/
lemma At.store (hk : ka.At u) (offset : ℕ) (bs : Bytes)
    (hfit : u.length + offset + bs.length ≤ 1024) :
    ∃ ka', ka.store offset bs = some ka' ∧ ka'.At u ∧ ka'.ikey = ka.ikey ∧ ka'.len = ka.len ∧
      ka'.buf = ka.buf.take (u.length + offset) ++ bs ++ ka.buf.drop
      (u.length + offset + bs.length) := by
  have hlen : ka.buf.length = 1024 := hk.length
  refine ⟨{ ka with buf := memcpyAt ka.buf (ka.pos + offset) bs }, ?_,
    ⟨?_, hk.pos, ?_⟩, rfl, rfl, ?_⟩
  · rw [BufferKey.store, if_pos (by rw [hk.pos, hlen]; exact hfit)]
  · simp only [memcpyAt, hk.pos, List.length_append, List.length_take, List.length_drop, hlen,
      masstreeMaxkeylen]
    omega
  · rw [memcpyAt, hk.pos, List.append_assoc]
    refine List.IsPrefix.trans ?_ (List.prefix_append _ _)
    exact List.prefix_take_iff.mpr ⟨hk.before, by omega⟩
  · simp only [memcpyAt, hk.pos]

/-- The slice of a string is stored, and its suffix is there already. -/
lemma At.assignStoreIkey (hk : ka.At u) (hu : u.length + 8 ≤ 1024)
    (hq : q.drop 8 <+: ka.buf.drop (u.length + 8)) :
    ∃ ka', ka.assignStoreIkey (slice q) = some ka' ∧ ka'.At u ∧ ka'.ikey = slice q ∧
    u ++ q <+: ka'.buf := by
  have hk' : ({ ka with ikey := slice q } : BufferKey).At u := ⟨hk.length, hk.pos, hk.before⟩
  have hpad : storeBE 8 (slice q) = padTo 8 q := PathKey.storeBE_valueBE (padTo_length 8 q)
  obtain ⟨ka', h1, h2, h3, -, h5⟩ := hk'.store 0 (storeBE 8 (slice q)) (by simpa using hu)
  refine ⟨ka', h1, h2, h3, ?_⟩
  rw [hpad, padTo_length, Nat.add_zero] at h5
  rw [h5, hk.take, List.append_assoc]
  exact (List.prefix_append_right_inj u).mpr (prefix_padTo hq)

omit [Inhabited V] in
lemma compare_eq : ka.compare t = 0 ↔ t.ikey = ka.ikey ∧ rank t = min ka.len 9 := by
  have h1 : 0 < ka.compare t ↔ _ := compare_pos
  have h2 : ka.compare t < 0 ↔ _ := compare_neg
  omega

end BufferKey

/-! ## What a slot spells -/

/-- The string `q` of a slot in the layer of the prefix `u`, as the scan reads it. -/
structure Spells (S : Layers V) (G : Ghost) (n : Ptr) (p : ℕ) (t : Slot (Cell V)) (u q : Bytes) :
    Prop where
  room : u.length + 8 ≤ 1024
  cell : byteCut.cell q = cellOf t
  length : u.length + q.length ≤ 1024
  ksuf : hasKsuf t = true → 8 < q.length ∧ (S.stores n).get p = some (q.drop 8)
  value : isLayer t = false → ∃ v, t.body.lv = .value v ∧ byteCut.rest q = restOf t ∧
    (hasKsuf t = false → t.body.keylenx = q.length)
  layer : isLayer t = true → 8 < q.length ∧ hasKsuf t = false ∧ ∃ r, t.body.lv = .layer r ∧
    Held S.heap G r

lemma Stands.spells (hS : Stands P S G M) (hM : Spelled M R) (hu : LayerAt M R u (G.fam n))
    (hn : G.live n) (hl : S.heap.node n = .leaf l) (hp : p ∈ l.permutation.live) :
    ∃ q, Spells S G n p (l.slot p) u q := by
  have hmem : l.slot p ∈ l.entries := List.mem_map_of_mem hp
  have hent : Entry S.heap G (G.fam n) (l.slot p) := entry_of_mem hn hl hmem
  have hfits := hS.ok.fits n l hl
  have hkx := hfits.keylenx _ hmem
  obtain ⟨h1, -, q, h2, h3, h4, h5⟩ := hM u _ hu _ _ (hS.denotes.item hent)
  have hrank : min q.length 9 = rank (l.slot p) := (Prod.mk.inj h2).2
  rw [itemOf] at h4 h5
  rcases hS.sound _ _ hent with ⟨g1, v, g2⟩ | ⟨g1, r, g2, g3⟩
  · rw [g2] at h4
    have hrest := h4 _ _ rfl
    have hno : ¬ 127 < (l.slot p).body.keylenx := by simpa [isLayer] using g1
    refine ⟨q, h1, h2, by omega, fun hk => ?_, fun _ => ⟨v, g2, hrest, fun hk => ?_⟩, fun h0 => ?_⟩
    · rw [restOf, if_pos hk, byteCut_rest] at hrest
      split_ifs at hrest with h8
      rw [Option.some.inj hrest]
      exact ⟨h8, (hfits.ksuf p hp hk).1⟩
    · have h64 : (l.slot p).body.keylenx ≠ ksufKeylenx := of_decide_eq_false hk
      have hle : (l.slot p).body.keylenx ≤ 8 := by
        rcases hkx with h0 | h0 | h0
        · exact h0
        · exact absurd h0 h64
        · exact absurd (h0 ▸ (by decide : 127 < layerKeylenx)) hno
      rw [rank] at hrank
      omega
    · rw [g1] at h0
      cases h0
  · rw [g2] at h5
    have hksuf : hasKsuf (l.slot p) = false := by
      have hgt : 127 < (l.slot p).body.keylenx := of_decide_eq_true g1
      exact decide_eq_false fun h0 => absurd (h0 ▸ hgt) (by decide)
    refine ⟨q, h1, h2, by omega, fun hk => ?_, fun h0 => ?_, fun _ => ⟨h5 _ rfl, hksuf, r, g2, g3⟩⟩
    · rw [hksuf] at hk
      cases hk
    · rw [g1] at h0
      cases h0

/-! ## `find_next` -/

/-- The scan is in a leaf of the layer of the prefix `u`. -/
structure InLeaf (S : Layers V) (G : Ghost) (M : LayerMap Bytes (ℕ × ℕ) V Ptr) (R : Ptr)
    (s : StringScan V) (u : Bytes) (l : Leaf (Cell V)) : Prop where
  layer : LayerAt M R u (G.fam s.n)
  live : G.live s.n
  leaf : S.heap.node s.n = .leaf l
  key : s.ka.At u

omit [Inhabited V] in
/-- The suffix of a slot is copied behind the key. -/
lemma Spells.copySuffix (hq : Spells S G n p t u q) (hk : ka.At u) :
    ∃ ka' len, ka.copySuffix (S.stores n) p t = some (ka', len) ∧ ka'.At u ∧ ka'.ikey = ka.ikey ∧
    ka'.len = ka.len ∧
      (isLayer t = false → len = q.length ∧ q.drop 8 <+: ka'.buf.drop (u.length + 8)) := by
  rw [BufferKey.copySuffix]
  by_cases hs : hasKsuf t = true
  · obtain ⟨h1, h2⟩ := hq.ksuf hs
    have hlen := hq.length
    have hdrop : (q.drop 8).length = q.length - 8 := List.length_drop
    have h1024 : ka.buf.length = 1024 := hk.length
    obtain ⟨ka', h3, h4, h5, h6, h7⟩ := hk.store 8 (q.drop 8) (by omega)
    rw [if_pos hs, h2]
    refine ⟨ka', 8 + (q.drop 8).length, ?_, h4, h5, h6, fun _ => ⟨by omega, ?_⟩⟩
    · simp only [Option.bind_eq_bind, Option.bind_some, BufferKey.assignStoreSuffix, h3]
      rfl
    · rw [h7, List.append_assoc, List.drop_left' (List.length_take_of_le (by omega))]
      exact List.prefix_append _ _
  · have hs' : hasKsuf t = false := by simpa using hs
    rw [if_neg hs]
    refine ⟨ka, t.body.keylenx, rfl, hk, rfl, rfl, fun h0 => ?_⟩
    obtain ⟨v, -, hrest, hlen⟩ := hq.value h0
    have h8 : ¬ 8 < q.length := fun h8 => by
      rw [byteCut_rest_of_lt h8, restOf, if_neg hs] at hrest
      cases hrest
    rw [hlen hs', List.drop_of_length_le (by omega)]
    exact ⟨rfl, List.nil_prefix⟩

namespace InLeaf

lemma get_mem_live (hL : InLeaf S G M R s u l) (hS : Stands P S G M) (hki : s.ki < l.size) :
    l.permutation.get s.ki ∈ l.permutation.live := by
  have hw : l.permutation.WF P.leafWidth := (hS.ok.heap.leaves s.n { l with parent := none } hL.live
    (by rw [hL.leaf]; rfl)).perm
  exact List.mem_of_getElem? (hw.get_eq_live hki)

/-- The slot in front of the scan. -/
lemma mem_entries (hL : InLeaf S G M R s u l) (hS : Stands P S G M) (hki : s.ki < l.size) :
    l.slot (l.permutation.get s.ki) ∈ l.entries := List.mem_map_of_mem (hL.get_mem_live hS hki)

lemma spells (hL : InLeaf S G M R s u l) (hS : Stands P S G M) (hM : Spelled M R)
    (hki : s.ki < l.size) :
    ∃ q, Spells S G s.n (l.permutation.get s.ki) (l.slot (l.permutation.get s.ki)) u q :=
  hS.spells hM hL.layer hL.live hL.leaf (hL.get_mem_live hS hki)

lemma not_deleted (hL : InLeaf S G M R s u l) (hS : Stands P S G M) : l.deleted = false := by
  have := hS.ok.heap.tree.not_deleted hL.live
  rwa [hL.leaf] at this

/-- **A slot that was passed.** -/
lemma findNext_skip (hL : InLeaf S G M R s u l) (hS : Stands P S G M) (hki : s.ki < l.size)
    (ht : l.slot (l.permutation.get s.ki) = t) (hq : Spells S G s.n (l.permutation.get s.ki) t u q)
    (hc : 0 ≤ s.ka.compare t) :
    ∃ ka', StringScan.findNext S.heap S.stores s
        = some { s with ka := ka', entry := t.body.lv, ki := s.ki + 1, state := .findNext } ∧
      ka'.At u ∧ ka'.ikey = s.ka.ikey ∧ ka'.len = s.ka.len := by
  obtain ⟨ka', len, h1, h2, h3, h4, -⟩ := hq.copySuffix hL.key
  have hcmp : ka'.compare t = s.ka.compare t := by rw [BufferKey.compare, BufferKey.compare, h3, h4]
  refine ⟨ka', ?_, h2, h3, h4⟩
  simp only [StringScan.findNext, Stands.heap_leaf hL.leaf, hL.not_deleted hS, hki, ht, h1,
    hcmp, hc, if_true, Option.bind_eq_bind, Option.bind_some, Bool.false_eq_true, if_false]
  rfl

/-- **A value.** -/
lemma findNext_value (hL : InLeaf S G M R s u l) (hS : Stands P S G M) (hki : s.ki < l.size)
    (ht : l.slot (l.permutation.get s.ki) = t) (hq : Spells S G s.n (l.permutation.get s.ki) t u q)
    (hc : s.ka.compare t < 0) (hv : isLayer t = false) :
    ∃ ka', StringScan.findNext S.heap S.stores s =
      some { s with ka := ka', entry := t.body.lv, state := .emit } ∧
      ka'.At u ∧ ka'.fullString = u ++ q ∧ ka'.compare t = 0 := by
  obtain ⟨ka₁, len, h1, h2, h3, h4, h5⟩ := hq.copySuffix hL.key
  obtain ⟨rfl, h6⟩ := h5 hv
  obtain ⟨ka₂, h7, h8, h9, h10⟩ := h2.assignStoreIkey hq.room h6
  obtain ⟨c1, c2⟩ := Prod.mk.inj hq.cell
  have hcmp : ¬ 0 ≤ ka₁.compare t := by
    rw [BufferKey.compare, h3, h4]
    exact not_le.mpr hc
  have hat : ({ ka₂ with len := q.length } : BufferKey).At u := ⟨h8.length, h8.pos, h8.before⟩
  refine ⟨{ ka₂ with len := q.length }, ?_, hat, ?_, ?_⟩
  · simp only [StringScan.findNext, Stands.heap_leaf hL.leaf, hL.not_deleted hS, hki, ht, h1,
      hcmp, hv, ← c1, h7, if_true, Option.bind_eq_bind, Option.bind_some,
      Bool.false_eq_true, if_false]
    rfl
  · rw [BufferKey.fullString, hat.pos, ← List.length_append]
    exact (List.prefix_iff_eq_take.mp h10).symm
  · exact BufferKey.compare_eq.mpr ⟨c1.symm.trans h9.symm, c2.symm⟩

/-- **A layer.** -/
lemma findNext_layer (hL : InLeaf S G M R s u l) (hS : Stands P S G M) (hki : s.ki < l.size)
    (ht : l.slot (l.permutation.get s.ki) = t) (hq : Spells S G s.n (l.permutation.get s.ki) t u q)
    (hc : s.ka.compare t < 0) (hv : isLayer t = true) (hr : t.body.lv = .layer r) :
    ∃ ka',
      StringScan.findNext S.heap S.stores s =
          some { s with
            ka := ka', entry := t.body.lv, stack := (s.n, s.root) :: s.stack, root := r,
            state := .down } ∧
      ka'.shiftClear.At (u ++ q.take 8) := by
  obtain ⟨h8, hks, -⟩ := hq.layer hv
  have hcopy : s.ka.copySuffix (S.stores s.n) (l.permutation.get s.ki) t =
    some (s.ka, t.body.keylenx) := by
    rw [BufferKey.copySuffix, if_neg (by simp [hks])]
  have hlen : (q.take 8).length = 8 := List.length_take_of_le h8.le
  have hslice : slice (q.take 8) = t.ikey := by
    rw [← (Prod.mk.inj hq.cell).1, slice, slice, padTo_of_le hlen.ge, padTo_of_le h8.le,
      List.take_take, Nat.min_self]
  obtain ⟨ka', h1, h2, -, h3⟩ := hL.key.assignStoreIkey (q := q.take 8) hq.room
    (by rw [List.drop_of_length_le hlen.le]; exact List.nil_prefix)
  rw [hslice] at h1
  refine ⟨ka', ?_, h2.length, ?_, h3⟩
  · simp only [StringScan.findNext, Stands.heap_leaf hL.leaf, hL.not_deleted hS, hki, ht, hcopy,
      not_le.mpr hc, hv, h1, hr, if_true, Option.bind_eq_bind, Option.bind_some,
      Bool.false_eq_true, if_false]
    rfl
  · rw [BufferKey.shiftClear, h2.pos, List.length_append, hlen]

/-- The end of a leaf. -/
lemma findNext_end (hL : InLeaf S G M R s u l) (hS : Stands P S G M) (hki : l.size ≤ s.ki) :
    StringScan.findNext S.heap S.stores s = some (l.next.elim { s with state := .up } fun m =>
      { s with n := m, ki := (StringScan.lowerPosition S.heap m s.ka).1, state := .findNext }) := by
  simp only [StringScan.findNext, Stands.heap_leaf hL.leaf, hL.not_deleted hS, not_lt.mpr hki,
    Bool.false_eq_true, if_false]
  cases l.next <;> rfl

end InLeaf

end MasstreeLHM.KeyTable
