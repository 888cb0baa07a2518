import MasstreeLHM.KeyTable.Lookups
import MasstreeLHM.KeyTable.Spelling
import MasstreeLHM.KeyTable.StringScan

/-!
# The slots ahead of a scan

The slots of a layer are in the order of their strings, from leaf to leaf.  A scan stands between
those it has passed and those ahead of it.

First the order of strings is compared with that of slots: strings in different cells are in the
order of the cells, and in one cell the rests decide (`lt_of_cell_lt`, `lt_iff_drop`).  Then the key
of a scan is placed in a leaf: **`lowerPosition_fst`** says that `helper.lower_with_position` stops
in front of the first slot that is not before it.

`Ahead` lists the slots that follow from a position of a leaf on, across the leaves behind it.
**`exists_from`** says that this list exists and holds what the layer holds from the beginning of
the leaf on, and `StopsAt.ahead` that behind the place where a search has ended there are the slots
behind its key, and no others.
-/

namespace MasstreeLHM.KeyTable

open Trie

variable {V : Type} [Inhabited V] {P : NodeParams} {h : Heap (Cell V)} {G : Ghost} {n : Ptr}
  {l : Leaf (Cell V)}
  {t t' : Slot (Cell V)} {a b : Bytes} {i : ℕ} {ka : BufferKey}

/-! ## Strings -/

/-- Strings in different cells are in the order of the cells. -/
lemma lt_of_cell_lt (h : slice a < slice b ∨
    (slice a = slice b ∧ min a.length 9 < min b.length 9)) : a < b := by
  rcases h with h | ⟨h, h'⟩
  · exact lt_of_slice_lt h
  · have hlen : a.length < b.length := by omega
    exact lt_of_take (prefix_of_slice_eq h hlen.le (by omega)) hlen

omit [Inhabited V] in
lemma lt_of_keyLt (h : keyLt t t') (ha : byteCut.cell a = cellOf t)
    (hb : byteCut.cell b = cellOf t') : a < b := by
  obtain ⟨a1, a2⟩ := Prod.mk.inj ha
  obtain ⟨b1, b2⟩ := Prod.mk.inj hb
  rw [keyLt] at h
  exact lt_of_cell_lt (by omega)

omit [Inhabited V] in
lemma lt_of_compareKey_neg (h : compareKey a t < 0) (hb : byteCut.cell b = cellOf t) : a < b := by
  obtain ⟨b1, b2⟩ := Prod.mk.inj hb
  rw [compareKey_neg] at h
  exact lt_of_cell_lt (by omega)

omit [Inhabited V] in
lemma lt_of_compareKey_pos (h : 0 < compareKey a t) (hb : byteCut.cell b = cellOf t) : b < a := by
  obtain ⟨b1, b2⟩ := Prod.mk.inj hb
  rw [compareKey_pos] at h
  exact lt_of_cell_lt (by omega)

/-- In one cell the rests decide. -/
lemma lt_iff_drop (h : byteCut.cell a = byteCut.cell b) (ha : 8 < a.length) :
    a < b ↔ a.drop 8 < b.drop 8 := by
  obtain ⟨h1, h2⟩ := Prod.mk.inj h
  have hb : 8 < b.length := by omega
  have htake := take_eq_of_slice_eq h1 ha hb
  conv_lhs => rw [← List.take_append_drop 8 a, ← List.take_append_drop 8 b]
  rw [append_lt_append_iff (by rw [htake]), htake]
  simp [List.lt_irrefl]

/-! ## The key of the scan -/

namespace BufferKey

omit [Inhabited V] in
lemma compare_pos : 0 < ka.compare t ↔
    t.ikey < ka.ikey ∨ (t.ikey = ka.ikey ∧ rank t < min ka.len 9) := by
  simp only [compare, Key.compareIkey, compareInts, rank]
  split_ifs <;> first | omega | simp_all

omit [Inhabited V] in
lemma compare_neg : ka.compare t < 0 ↔
    ka.ikey < t.ikey ∨ (ka.ikey = t.ikey ∧ min ka.len 9 < rank t) := by
  simp only [compare, Key.compareIkey, compareInts, rank]
  split_ifs <;> first | omega | simp_all

omit [Inhabited V] in
lemma compare_pos_of_keyLt (h : keyLt t t') (h' : 0 ≤ ka.compare t') : 0 < ka.compare t := by
  have h1 : 0 < ka.compare t ↔ _ := compare_pos
  have h2 : ka.compare t' < 0 ↔ _ := compare_neg
  rw [keyLt] at h
  omega

omit [Inhabited V] in
lemma compare_neg_of_keyLt (h : keyLt t t') (h' : ka.compare t ≤ 0) : ka.compare t' < 0 := by
  have h1 : 0 < ka.compare t ↔ _ := compare_pos
  have h2 : ka.compare t' < 0 ↔ _ := compare_neg
  rw [keyLt] at h
  omega

end BufferKey

/-- **Where the key of the scan is in a leaf.** -/
lemma lowerPosition_fst (hw : l.permutation.WF P.leafWidth) (hs : l.entries.Pairwise keyLt)
    (hl : h.leaf n = l) (hi : i ≤ l.size) (hlt : ∀ t ∈ l.entries.take i, 0 < ka.compare t)
    (hge : ∀ t ∈ l.entries.drop i, ka.compare t ≤ 0) :
    (StringScan.lowerPosition h n ka).1 = i := by
  have hlen := hw.length_live
  rw [Leaf.entries, ← List.map_take] at hlt
  rw [Leaf.entries, ← List.map_drop] at hge
  have hlt' : ∀ q ∈ l.permutation.live.take i, 0 < ka.compare (l.slot q) :=
    fun q hq => hlt _ (List.mem_map_of_mem hq)
  rw [Leaf.entries, ← List.take_append_drop i l.permutation.live] at hs
  rw [StringScan.lowerPosition, hl, ← List.take_append_drop i l.permutation.live]
  have htake : (l.permutation.live.take i).length = i := List.length_take_of_le (hlen.ge.trans' hi)
  cases hd : l.permutation.live.drop i with
  | nil => rw [lowerBy_miss hlt' (by simp), htake]
  | cons p ps =>
      rw [hd] at hge hs
      rw [List.map_append, List.map_cons, List.pairwise_append, List.pairwise_cons] at hs
      have hp := hge _ (List.mem_map_of_mem List.mem_cons_self)
      have hps : ∀ q ∈ ps, ka.compare (l.slot q) < 0 := fun q hq =>
        BufferKey.compare_neg_of_keyLt (hs.2.1.1 _ (List.mem_map_of_mem hq)) hp
      rcases hp.lt_or_eq with h0 | h0
      · rw [lowerBy_miss hlt' (List.forall_mem_cons.mpr ⟨h0, hps⟩), htake]
      · rw [lowerBy_hit hlt' h0 hps, htake]

/-- The place of a slot that is in front of the scan. -/
lemma lowerPosition_of_eq (hw : l.permutation.WF P.leafWidth) (hs : l.entries.Pairwise keyLt)
    (hl : h.leaf n = l) (hi : i < l.size) (hc : ka.compare (l.slot (l.permutation.get i)) = 0) :
    (StringScan.lowerPosition h n ka).1 = i := by
  obtain ⟨hlt, hget⟩ := List.getElem?_eq_some_iff.mp (Leaf.entries_getElem? hw hi)
  have hdrop := List.drop_eq_getElem_cons hlt
  rw [hget] at hdrop
  have hsplit := hs
  rw [← List.take_append_drop i l.entries, hdrop, List.pairwise_append,
    List.pairwise_cons] at hsplit
  refine lowerPosition_fst hw hs hl hi.le (fun t ht => ?_) fun t ht => ?_
  · exact BufferKey.compare_pos_of_keyLt (hsplit.2.2 t ht _ List.mem_cons_self) hc.ge
  · rw [hdrop] at ht
    rcases List.mem_cons.mp ht with rfl | ht
    · exact hc.le
    · exact (BufferKey.compare_neg_of_keyLt (hsplit.2.1.1 t ht) hc.le).le

/-- What `lower` has found on its way. -/
lemma lower_eq_some {r : Ptr} {k : Bytes} {c : Cursor} (hc : KeyTable.lower h r k = some c) :
    reachLeaf h r (slice k) = some c.n ∧ (h.leaf c.n).deleted = false ∧
      lowerBy (fun p => compareKey k ((h.leaf c.n).slot p)) (h.leaf c.n).permutation.live =
      (c.i, c.p) := by
  rw [KeyTable.lower] at hc
  cases hreach : reachLeaf h r (slice k) with
  | none => simp [hreach] at hc
  | some b =>
      simp only [hreach] at hc
      split_ifs at hc with hdel
      cases hc
      exact ⟨rfl, by simpa using hdel, rfl⟩

/-! ## The slots ahead -/

/-- The slots that follow in the leaves from position `ki` of leaf `n` on. -/
inductive Ahead (h : Heap (Cell V)) : Ptr → ℕ → List (Slot (Cell V)) → Prop
  | last {n : Ptr} {ki : ℕ} (hki : (h.leaf n).size ≤ ki) (hn : (h.leaf n).next = none) :
      Ahead h n ki []
  | next {n m : Ptr} {ki : ℕ} {es : List (Slot (Cell V))} (hki : (h.leaf n).size ≤ ki)
      (hn : (h.leaf n).next = some m) (hm : Ahead h m 0 es) : Ahead h n ki es
  | slot {n : Ptr} {ki : ℕ} {es : List (Slot (Cell V))} (hki : ki < (h.leaf n).size)
      (he : Ahead h n (ki + 1) es) :
      Ahead h n ki ((h.leaf n).slot ((h.leaf n).permutation.get ki) :: es)

namespace Ahead

variable {es : List (Slot (Cell V))}

/-- The slots of the leaf itself come first. -/
lemma of_entries (hw : l.permutation.WF P.leafWidth) (hl : h.leaf n = l) (he : Ahead h n l.size es)
    (hi : i ≤ l.size) :
    Ahead h n i (l.entries.drop i ++ es) := by
  induction hi using Nat.decreasingInduction with
  | self =>
      rw [List.drop_of_length_le (Leaf.entries_length hw).le]
      exact he
  | of_succ i hi ih =>
      have hget := Leaf.entries_getElem? hw hi
      obtain ⟨hlt, hget⟩ := List.getElem?_eq_some_iff.mp hget
      rw [List.drop_eq_getElem_cons hlt, hget, ← hl]
      exact .slot (hl ▸ hi) (hl ▸ ih)

/-- They are all ahead. -/
lemma mem_of_entries (hw : l.permutation.WF P.leafWidth) (hl : h.leaf n = l) (he : Ahead h n 0 es)
    (ht : t ∈ l.entries) :
    t ∈ es := by
  have hslot : ∀ {n i es}, Ahead h n i es → ∀ j, i ≤ j → j < (h.leaf n).size →
      (h.leaf n).slot ((h.leaf n).permutation.get j) ∈ es := by
    intro n i es he
    induction he with
    | last hki => exact fun j h1 h2 => absurd (hki.trans h1) (not_le.mpr h2)
    | next hki => exact fun j h1 h2 => absurd (hki.trans h1) (not_le.mpr h2)
    | slot hki he ih =>
        intro j h1 h2
        rcases h1.eq_or_lt with rfl | h1
        · exact List.mem_cons_self
        · exact List.mem_cons_of_mem _ (ih j h1 h2)
  obtain ⟨j, hj, rfl⟩ := List.mem_iff_getElem.mp ht
  have hj' : j < l.size := by rwa [Leaf.entries_length hw] at hj
  have hget := (List.getElem?_eq_some_iff.mp (Leaf.entries_getElem? hw hj')).2
  rw [hget, ← hl]
  exact hslot he j (Nat.zero_le _) (hl ▸ hj')

/-- **The slots of a leaf and those ahead of it** are those of the layer from the beginning of its
range on. -/
lemma exists_from (hI : HeapInv P keyLt h G) (hn : G.live n) (hl : h.node n = .leaf l) :
    ∃ es, (∀ i ≤ l.size, Ahead h n i (l.entries.drop i ++ es)) ∧ (l.entries ++ es).Pairwise keyLt ∧
      ∀ t, t ∈ l.entries ++ es ↔ Entry h G (G.fam n) t ∧ G.lo n ≤ t.ikey := by
  induction hd : ikeyLimit - G.hi n using Nat.strong_induction_on generalizing n l with
  | _ d ih =>
      have hdata : (h.node n).leafData = some { l with parent := none } := by rw [hl]; rfl
      have hleaf : h.leaf n = l := by rw [Heap.leaf, hl]; rfl
      have hchain := hI.chain n _ hn hdata
      have hok := hI.leaves n _ hn hdata
      have hw : l.permutation.WF P.leafWidth := hok.perm
      have hsorted : l.entries.Pairwise keyLt := hok.sorted
      have hwithin : ∀ t ∈ l.entries, G.lo n ≤ t.ikey ∧ t.ikey < G.hi n := hok.within
      have hmem : ∀ t, Entry h G (G.fam n) t → G.lo n ≤ t.ikey → t.ikey < G.hi n → t ∈ l.entries :=
        fun t ht => mem_entries hI ht hn rfl hl
      cases hm : l.next with
      | none =>
          have hhi := hchain.next_none hm
          refine ⟨[], fun i hi => .of_entries hw hleaf (.last (hleaf ▸ le_rfl) (hleaf ▸ hm)) hi,
            by rwa [List.append_nil], fun t => ?_⟩
          rw [List.append_nil]
          refine ⟨fun ht => ⟨entry_of_mem hn hl ht, (hwithin t ht).1⟩, ?_⟩
          rintro ⟨ht, h5⟩
          refine hmem t ht h5 ?_
          obtain ⟨b, lb, h1, -, h3, h4⟩ := ht
          have h6 := ((hI.leaves b lb h1 h3).within t h4).2
          have h7 := (hI.tree.range h1).2
          omega
      | some m =>
          obtain ⟨g1, g2, g3, lm, g4, -⟩ := hchain.next_some m hm
          obtain ⟨h1, h2⟩ := hI.tree.range g1
          obtain ⟨h3, -⟩ := hI.tree.range hn
          cases hlm : h.node m with
          | internode j => simp [hlm] at g4
          | leaf l' =>
              obtain ⟨es, e1, e2, e3⟩ := ih (ikeyLimit - G.hi m) (by omega) g1 hlm rfl
              rw [g2, g3] at e3
              refine ⟨l'.entries ++ es, fun i hi => ?_, ?_, fun t => ?_⟩
              · exact .of_entries hw hleaf
                  (.next (hleaf ▸ le_rfl) (hleaf ▸ hm) (e1 0 (Nat.zero_le _))) hi
              · refine List.pairwise_append.mpr ⟨hsorted, e2, fun s hs t ht => Or.inl ?_⟩
                exact (hwithin s hs).2.trans_le ((e3 t).mp ht).2
              · rw [List.mem_append, e3]
                constructor
                · rintro (ht | ⟨ht, h4⟩)
                  · exact ⟨entry_of_mem hn hl ht, (hwithin t ht).1⟩
                  · exact ⟨ht, h3.le.trans h4⟩
                · rintro ⟨ht, h4⟩
                  exact (Nat.lt_or_ge t.ikey (G.hi n)).imp (hmem t ht h4) fun h5 => ⟨ht, h5⟩

end Ahead

/-- **The slots behind the place where a search for `k` has ended.** -/
lemma StopsAt.ahead {f : Ptr} {k : Bytes} {c : Cursor} (hI : HeapInv P keyLt h G)
    (hc : StopsAt h G f k c l) :
    ∃ es, (c.p = none → Ahead h c.n c.i es) ∧
      (∀ p, c.p = some p → c.i < l.size ∧ l.permutation.get c.i = p ∧ Ahead h c.n (c.i + 1) es) ∧
      es.Pairwise keyLt ∧ ∀ t, t ∈ es ↔ Entry h G f t ∧ compareKey k t < 0 := by
  obtain ⟨es, h1, h2, h3⟩ := Ahead.exists_from hI hc.live hc.leaf
  have hw : l.permutation.WF P.leafWidth := (hI.leaves c.n { l with parent := none } hc.live
    (by rw [hc.leaf]; rfl)).perm
  rw [hc.fam] at h3
  -- the slots at and in front of the place are not behind the key
  have hcut : ∀ i, (∀ t ∈ l.entries.take i, 0 ≤ compareKey k t) →
    (∀ t ∈ l.entries.drop i ++ es, compareKey k t < 0) →
      (l.entries.drop i ++ es).Pairwise keyLt ∧
        ∀ t, t ∈ l.entries.drop i ++ es ↔ Entry h G f t ∧ compareKey k t < 0 := by
    intro i hge hlt
    have hall : l.entries ++ es = l.entries.take i ++ (l.entries.drop i ++ es) := by
      rw [← List.append_assoc, List.take_append_drop]
    rw [hall] at h2 h3
    refine ⟨(List.pairwise_append.mp h2).2.1, fun t => ⟨fun ht => ?_, ?_⟩⟩
    · exact ⟨((h3 t).mp (List.mem_append_right _ ht)).1, hlt t ht⟩
    · rintro ⟨ht, h0⟩
      have hik : slice k ≤ t.ikey := by
        rcases compareKey_neg.mp h0 with h4 | h4
        · exact h4.le
        · exact h4.1.le
      rcases List.mem_append.mp ((h3 t).mpr ⟨ht, hc.lo.trans hik⟩) with h4 | h4
      · exact absurd (hge t h4) (not_le.mpr h0)
      · exact h4
  have hbehind : ∀ t ∈ es, compareKey k t < 0 := by
    intro t ht
    have hent := (h3 t).mp (List.mem_append_right _ ht)
    refine compareKey_neg.mpr (Or.inl (hc.hi.trans_le (not_lt.mp fun h0 => ?_)))
    have hlt :=
      (List.pairwise_append.mp h2).2.2 t (mem_entries hI hent.1 hc.live hc.fam hc.leaf hent.2 h0) t
        ht
    rw [keyLt] at hlt
    omega
  cases hp : c.p with
  | none =>
      obtain ⟨g1, g2⟩ := hc.miss hp
      obtain ⟨e1, e2⟩ := hcut c.i (fun t ht => (g1 t ht).le) fun t ht =>
        (List.mem_append.mp ht).elim (g2 t) (hbehind t)
      exact ⟨_, fun _ => h1 c.i hc.le_size, by simp, e1, e2⟩
  | some p =>
      obtain ⟨g1, g2⟩ := hc.hit p hp
      have hsize : c.i < l.size := by
        have := (List.getElem?_eq_some_iff.mp g1).1
        rwa [hw.length_live] at this
      have hget : l.permutation.get c.i = p :=
        Option.some.inj ((hw.get_eq_live hsize).symm.trans g1)
      obtain ⟨hlt, hslot⟩ := List.getElem?_eq_some_iff.mp (Leaf.entries_getElem? hw hsize)
      have hc0 := cellOf_eq_iff.mp g2
      have hsplit := (List.pairwise_append.mp h2).1
      rw [← List.take_append_drop c.i l.entries, List.drop_eq_getElem_cons hlt, hslot, hget,
        List.pairwise_append, List.pairwise_cons] at hsplit
      have hge : ∀ t ∈ l.entries.take (c.i + 1), 0 ≤ compareKey k t := by
        intro t ht
        rw [List.take_succ_eq_append_getElem hlt, hslot, hget] at ht
        rcases List.mem_append.mp ht with ht | ht
        · by_contra h0
          have := compareKey_neg_of_lt (hsplit.2.2 t ht _ List.mem_cons_self) (not_le.mp h0)
          omega
        · rw [List.mem_singleton.mp ht]
          exact hc0.ge
      have hdrop : ∀ t ∈ l.entries.drop (c.i + 1), compareKey k t < 0 := by
        intro t ht
        have hkey := hsplit.2.1.1 t ht
        rw [keyLt] at hkey
        obtain ⟨c1, c2⟩ := Prod.mk.inj g2
        exact compareKey_neg.mpr (by omega)
      obtain ⟨e1, e2⟩ :=
        hcut (c.i + 1) hge fun t ht => (List.mem_append.mp ht).elim (hdrop t) (hbehind t)
      exact ⟨_, by simp, fun q hq => ⟨hsize, hget.trans (Option.some.inj hq), h1 _ hsize⟩, e1, e2⟩

end MasstreeLHM.KeyTable
