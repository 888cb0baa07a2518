import MasstreeLHM.Remove
import Mathlib.Data.List.TakeWhile

/-!
# A layer as a map

With the items of a leaf ordered strictly by slice, a layer holds at most one item per slice: it is
a finite map, and `Entry` is its graph.  The cursor operations look up, add, overwrite and remove
one item of it, wherever the item is and however the nodes are split or dropped for it.

`entry_in_leaf` and **`entry_unique`** make it a map: an item is in the leaf responsible for its
slice, and there is one at most.  `Stop` says where a search stops; **`findWith_hit`** and
**`findWith_miss`** are the two ends that it can have.

Updates are stated by what they do to `Entry`: `makeRoom_layer` nothing, **`finishInsert_layer`**
adds an item, **`overwrite_layer`** changes one and **`finishRemove_layer`** removes one, each of
them with all other layers as they were.  **`slotsBelow_top`** says that a walk from the root meets
all items in order, by induction on the height.
-/

namespace MasstreeLHM

open Separators

variable {β : Type} [Inhabited β] {P : NodeParams} {h : Heap β} {G : Ghost} {x : ℕ}

/-- The order of the items: by slice, no slice twice. -/
def byIkey (s t : Slot β) : Prop := s.ikey < t.ikey

omit [Inhabited β] in
lemma byIkey_le (s t : Slot β) (hr : byIkey s t) : s.ikey ≤ t.ikey := le_of_lt hr

omit [Inhabited β] in
lemma byIkey_irrefl (s : Slot β) : ¬ byIkey s s := lt_irrefl s.ikey

omit [Inhabited β] in
lemma eq_of_byIkey {es : List (Slot β)} (hs : es.Pairwise byIkey) {s t : Slot β} (hsm : s ∈ es)
    (htm : t ∈ es) (heq : s.ikey = t.ikey) : s = t := by
  induction hs with
  | nil => cases hsm
  | @cons u us hu _ ih =>
      rcases List.mem_cons.mp hsm with rfl | h1
      · rcases List.mem_cons.mp htm with rfl | h2
        · rfl
        · exact absurd (hu t h2) (by simp [byIkey, heq])
      · rcases List.mem_cons.mp htm with rfl | h2
        · exact absurd (hu s h1) (by simp [byIkey, heq])
        · exact ih h1 h2

section Map

variable (hI : HeapInv P byIkey h G)
include hI

/-- An item of a layer is an item of the leaf responsible for its slice. -/
lemma HeapInv.entry_in_leaf {f a : Ptr} {l : Leaf β} {s : Slot β} (hs : Entry h G f s)
    (ha : G.live a) (hfam : G.fam a = f) (hl : h.node a = .leaf l) (hlo : G.lo a ≤ s.ikey)
    (hhi : s.ikey < G.hi a) : s ∈ l.entries := by
  obtain ⟨b, lb, h1, h2, h3, h4⟩ := hs
  obtain rfl := hI.tree.leaf_unique h1 ha (Node.leafData_leaf h3).1 (by rw [hl]; rfl)
    (h2.trans hfam.symm) ((hI.leaves b lb h1 h3).within s h4) ⟨hlo, hhi⟩
  obtain rfl : _ = lb := by simpa [hl] using h3
  exact h4

/-- **A layer holds at most one item per slice.** -/
lemma HeapInv.entry_unique {f : Ptr} {s t : Slot β} (hs : Entry h G f s) (ht : Entry h G f t)
    (heq : s.ikey = t.ikey) : s = t := by
  obtain ⟨b, lb, h1, h2, h3, h4⟩ := hs
  obtain ⟨hlo, hhi⟩ := (hI.leaves b lb h1 h3).within s h4
  cases hn : h.node b with
  | internode i => simp [hn] at h3
  | leaf l =>
      obtain rfl : _ = lb := by simpa [hn] using h3
      have h5 := hI.entry_in_leaf ht h1 h2 hn (heq ▸ hlo) (heq ▸ hhi)
      exact eq_of_byIkey (hI.leaves b _ h1 h3).sorted h4 h5 heq

lemma HeapInv.entry_lt {f : Ptr} {s : Slot β} (hs : Entry h G f s) : s.ikey < ikeyLimit := by
  obtain ⟨b, lb, h1, -, h3, h4⟩ := hs
  exact ((hI.leaves b lb h1 h3).within s h4).2.trans_le (hI.tree.range h1).2

end Map

/-! ## Searching -/

/-- Where the search for `x` in layer `f` stops. -/
structure Stop (h : Heap β) (G : Ghost) (f : Ptr) (x : ℕ) (c : Cursor) (l : Leaf β) : Prop where
  live : G.live c.n
  fam : G.fam c.n = f
  leaf : h.node c.n = .leaf l
  lo : G.lo c.n ≤ x
  hi : x < G.hi c.n
  le_size : c.i ≤ l.size
  before : ∀ s ∈ l.entries.take c.i, s.ikey < x
  after : ∀ s ∈ l.entries.drop c.i, x ≤ s.ikey

lemma Leaf.entries_cut {l : Leaf β} {A B : List ℕ} (hAB : l.permutation.live = A ++ B) :
    l.entries.take A.length = A.map l.slot ∧ l.entries.drop A.length = B.map l.slot := by
  rw [Leaf.entries, hAB, List.map_append]
  exact ⟨List.take_left' (by simp), List.drop_left' (by simp)⟩

section Find

variable {cmp : Slot β → ℤ} {root : Ptr}

/-- The leaf a search ends in. -/
lemma findWith_leaf {R : Slot β → Slot β → Prop} (cmp : Slot β → ℤ) (hI : HeapInv P R h G)
    (hroot : G.Known h root) (hst : (h.node root).startable) (hx : x < ikeyLimit) :
    ∃ n l, G.live n ∧ G.fam n = G.fam root ∧ h.node n = .leaf l ∧ G.lo n ≤ x ∧ x < G.hi n ∧
      findWith cmp h root x = some
        ⟨n, (lowerBy (fun p => cmp (l.slot p)) l.permutation.live).1,
          (lowerBy (fun p => cmp (l.slot p)) l.permutation.live).2⟩ := by
  obtain ⟨n, heq, hn, hleaf, hfam, hlo, hhi⟩ := hI.tree.reachLeaf_spec hroot hst hx
  cases hl : h.node n with
  | internode i => simp [hl] at hleaf
  | leaf l =>
      refine ⟨n, l, hn, hfam, hl, hlo, hhi, ?_⟩
      have hdel : l.deleted = false := by
        have := hI.tree.not_deleted hn
        rwa [hl] at this
      have hmod : l.modstate ≠ .deletedLayer :=
        (hI.leaves n { l with parent := none } hn (by rw [hl]; rfl)).modstate
      have hl' : h.leaf n = l := by simp [Heap.leaf, hl]
      simp [findWith, heq, hl', hdel, hmod]

variable (hlt : ∀ s : Slot β, s.ikey < x → 0 < cmp s) (hgt : ∀ s : Slot β, x < s.ikey → cmp s < 0)
include hlt hgt

/-- **A search that finds an item.** -/
lemma findWith_hit (hI : HeapInv P byIkey h G) (hroot : G.Known h root)
    (hst : (h.node root).startable) {s : Slot β} (hs : Entry h G (G.fam root) s) (hsx : s.ikey = x)
    (hs0 : cmp s = 0) :
    ∃ c l p, findWith cmp h root x = some c ∧ c.p = some p ∧ Stop h G (G.fam root) x c l ∧
      l.entries[c.i]? = some s ∧ l.permutation.live[c.i]? = some p ∧ l.slot p = s := by
  have hx : x < ikeyLimit := hsx ▸ hI.entry_lt hs
  obtain ⟨n, l, hn, hfam, hl, hlo, hhi, heq⟩ := findWith_leaf cmp hI hroot hst hx
  have hok := hI.leaves n { l with parent := none } hn (by rw [hl]; rfl)
  have hsorted : l.entries.Pairwise byIkey := hok.sorted
  have hmem := hI.entry_in_leaf hs hn hfam hl (hsx ▸ hlo) (hsx ▸ hhi)
  obtain ⟨p, hp, hps⟩ := List.mem_map.mp hmem
  obtain ⟨A, B, hAB⟩ := List.append_of_mem hp
  rw [Leaf.entries, hAB, List.map_append, List.map_cons, List.pairwise_append,
    List.pairwise_cons] at hsorted
  obtain ⟨-, ⟨hB, -⟩, hA⟩ := hsorted
  have hA' : ∀ q ∈ A, (l.slot q).ikey < x := fun q hq => by
    have := hA (l.slot q) (List.mem_map_of_mem hq) (l.slot p) List.mem_cons_self
    rwa [byIkey, hps, hsx] at this
  have hB' : ∀ q ∈ B, x < (l.slot q).ikey := fun q hq => by
    have := hB (l.slot q) (List.mem_map_of_mem hq)
    rwa [byIkey, hps, hsx] at this
  have hlow : lowerBy (fun p => cmp (l.slot p)) l.permutation.live = (A.length, some p) := by
    rw [hAB]
    exact lowerBy_hit (fun q hq => hlt _ (hA' q hq)) (by rw [hps]; exact hs0)
      (fun q hq => hgt _ (hB' q hq))
  have hget : l.permutation.live[A.length]? = some p := by rw [hAB]; simp
  have hlen : A.length ≤ l.size := by
    have := hok.perm.length_live
    change l.permutation.live.length = l.size at this
    rw [hAB] at this
    simp at this
    omega
  rw [hlow] at heq
  refine ⟨_, l, p, heq, rfl, ⟨hn, hfam, hl, hlo, hhi, hlen, ?_, ?_⟩, ?_, hget, hps⟩
  · intro t ht
    simp only [(Leaf.entries_cut hAB).1] at ht
    obtain ⟨q, hq, rfl⟩ := List.mem_map.mp ht
    exact hA' q hq
  · intro t ht
    simp only [(Leaf.entries_cut hAB).2, List.map_cons, List.mem_cons] at ht
    rcases ht with rfl | ht
    · rw [hps, hsx]
    · obtain ⟨q, hq, rfl⟩ := List.mem_map.mp ht
      exact (hB' q hq).le
  · rw [Leaf.entries, List.getElem?_map, hget]
    simp [hps]

/-- **A search that finds nothing.** -/
lemma findWith_miss (hI : HeapInv P byIkey h G) (hroot : G.Known h root)
    (hst : (h.node root).startable) (hx : x < ikeyLimit)
    (hno : ∀ s, Entry h G (G.fam root) s → s.ikey = x → cmp s < 0) :
    ∃ c l, findWith cmp h root x = some c ∧ c.p = none ∧ Stop h G (G.fam root) x c l := by
  obtain ⟨n, l, hn, hfam, hl, hlo, hhi, heq⟩ := findWith_leaf cmp hI hroot hst hx
  have hok := hI.leaves n { l with parent := none } hn (by rw [hl]; rfl)
  have hsorted : (l.permutation.live.map l.slot).Pairwise byIkey := hok.sorted
  rw [List.pairwise_map] at hsorted
  -- cut the live positions at the first slice that is not below `x`
  set A := l.permutation.live.takeWhile fun p => decide ((l.slot p).ikey < x) with hAdef
  set B := l.permutation.live.dropWhile fun p => decide ((l.slot p).ikey < x) with hBdef
  have hAB : l.permutation.live = A ++ B := (List.takeWhile_append_dropWhile).symm
  have hA : ∀ q ∈ A, (l.slot q).ikey < x := fun q hq => by
    simpa using List.mem_takeWhile_imp hq
  have hB : ∀ q ∈ B, x ≤ (l.slot q).ikey := by
    cases hBc : B with
    | nil => simp
    | cons b bs =>
        have hb : ¬ (l.slot b).ikey < x := by
          have := List.head?_dropWhile_not (fun p => decide ((l.slot p).ikey < x))
            l.permutation.live
          simpa [← hBdef, hBc] using this
        rw [hAB, hBc, List.pairwise_append, List.pairwise_cons] at hsorted
        intro q hq
        rcases List.mem_cons.mp hq with rfl | hq
        · omega
        · have := hsorted.2.1.1 q hq
          simp only [byIkey] at this
          omega
  have hBcmp : ∀ q ∈ B, cmp (l.slot q) < 0 := by
    intro q hq
    rcases (hB q hq).lt_or_eq with h1 | h1
    · exact hgt _ h1
    · refine hno _ ⟨n, { l with parent := none }, hn, hfam, by rw [hl]; rfl, ?_⟩ h1.symm
      refine List.mem_map_of_mem (f := l.slot) ?_
      change q ∈ l.permutation.live
      rw [hAB]
      exact List.mem_append_right _ hq
  have hlow : lowerBy (fun p => cmp (l.slot p)) l.permutation.live = (A.length, none) := by
    rw [hAB]
    exact lowerBy_miss (fun q hq => hlt _ (hA q hq)) hBcmp
  have hlen : A.length ≤ l.size := by
    have := hok.perm.length_live
    change l.permutation.live.length = l.size at this
    rw [hAB] at this
    simp at this
    omega
  rw [hlow] at heq
  refine ⟨_, l, heq, rfl, hn, hfam, hl, hlo, hhi, hlen, ?_, ?_⟩
  · intro t ht
    simp only [(Leaf.entries_cut hAB).1] at ht
    obtain ⟨q, hq, rfl⟩ := List.mem_map.mp ht
    exact hA q hq
  · intro t ht
    simp only [(Leaf.entries_cut hAB).2] at ht
    obtain ⟨q, hq, rfl⟩ := List.mem_map.mp ht
    exact hB q hq

end Find

/-! ## Adding, overwriting and removing an item -/

section Update

variable {f : Ptr} {c : Cursor} {l : Leaf β}

/-- A leaf that is nearly full holds an item with another slice. -/
lemma exists_ne_of_nearly_full (hok : LeafOk P byIkey G c.n { l with parent := none })
    (hfull : P.leafWidth ≤ l.size + 1) : ∃ s ∈ l.entries, s.ikey ≠ x := by
  have hsorted : l.entries.Pairwise byIkey := hok.sorted
  have h3 := P.three_le_leafWidth
  have hlen : l.entries.length = l.size := Leaf.entries_length hok.perm
  match hes : l.entries with
  | [] => simp [hes] at hlen; omega
  | [_] => simp [hes] at hlen; omega
  | s :: t :: ts =>
      rw [hes] at hsorted
      have hst : s.ikey < t.ikey := List.rel_of_pairwise_cons hsorted List.mem_cons_self
      by_cases hsx : s.ikey = x
      · exact ⟨t, by simp, by omega⟩
      · exact ⟨s, by simp, hsx⟩

/-- Making room for `x` where a search has stopped.  The items are what they were. -/
lemma makeRoom_layer (hI : HeapInv P byIkey h G) (hS : Stop h G f x c l) {ka : Slot β}
    (hka : ka.ikey = x) :
    ∃ h' G' pos l', makeRoom P h c ka = some (h', pos) ∧ HeapInv P byIkey h' G' ∧
      Frame h G h' G' ∧ (∀ g, g ≠ f → G'.top g = G.top g) ∧
      Room P h' G' f pos x (fun s => s.ikey < x) (fun s => x ≤ s.ikey) l' ∧
      ∀ g s, Entry h' G' g s ↔ Entry h G g s := by
  have hok := hI.leaves c.n { l with parent := none } hS.live (by rw [hS.leaf]; rfl)
  obtain ⟨h', G', pos, l', heq, hI', hF, htop, hroom, hE⟩ :=
    makeRoom_spec byIkey_le hI hS.live hS.leaf
    hS.lo hS.hi hS.le_size hka hS.before hS.after (fun _ h0 => le_of_lt h0) (fun _ h0 => h0)
    (exists_ne_of_nearly_full hok)
  exact ⟨h', G', pos, l', heq, hI', hF, hS.fam ▸ htop, hS.fam ▸ hroom, hE⟩

/-- **Adding an item under a new slice**: the slot that was made is filled and made live. -/
lemma finishInsert_layer (hI : HeapInv P byIkey h G) {pos : Position}
    (hroom : Room P h G f pos x (fun s => s.ikey < x) (fun s => x ≤ s.ikey) l)
    (hno : ∀ s, Entry h G f s → s.ikey ≠ x) {s : Slot β} (hs : s.ikey = x) :
    HeapInv P byIkey (finishInsert (writeSlot h pos s) pos) G ∧
      Frame h G (finishInsert (writeSlot h pos s) pos) G ∧
      ∀ g t, Entry (finishInsert (writeSlot h pos s) pos) G g t ↔
        Entry h G g t ∨ (g = f ∧ t = s) := by
  have hent : ∀ t ∈ l.entries, t.ikey ≠ x := fun t ht =>
    hno t ⟨pos.n, { l with parent := none }, hroom.live, hroom.fam, by rw [hroom.leaf]; rfl, ht⟩
  -- no item has the slice `x`, so those behind the slot have greater ones
  have hroom' : Room P h G f pos x (fun s => s.ikey < x) (fun s => x < s.ikey) l :=
    ⟨hroom.live, hroom.fam, hroom.leaf, hroom.lo, hroom.hi, hroom.vacant.size_lt,
      hroom.vacant.back, hroom.vacant.le_size, hroom.vacant.before, fun t ht =>
        lt_of_le_of_ne (hroom.vacant.after t ht) (hent t (List.mem_of_mem_drop ht)).symm,
      hroom.vacant.keep⟩
  refine finishInsert_spec hI hroom' hs ?_ ?_
  · intro t ht
    rw [byIkey, hs]
    exact ht
  · intro t ht
    rw [byIkey, hs]
    exact ht

/-- **Overwriting an item under its slice.** -/
lemma overwrite_layer (hI : HeapInv P byIkey h G) (hS : Stop h G f x c l) {p : ℕ} {s s' : Slot β}
    (hp : l.permutation.live[c.i]? = some p) (hs : l.slot p = s) (hs' : s'.ikey = s.ikey) :
    HeapInv P byIkey (h.setLeaf c.n (l.assign p s')) G ∧
      Frame h G (h.setLeaf c.n (l.assign p s')) G ∧
      ∀ g t, Entry (h.setLeaf c.n (l.assign p s')) G g t ↔
        (Entry h G g t ∧ ¬ (g = f ∧ t = s)) ∨ (g = f ∧ t = s') := by
  have hn := hS.live
  have hl := hS.leaf
  have hok := hI.leaves c.n { l with parent := none } hn (by rw [hl]; rfl)
  have hw : l.permutation.WF P.leafWidth := hok.perm
  have hlen : l.slots.length = P.leafWidth := hok.slots
  have hplive : p ∈ l.permutation.live := List.mem_of_getElem? hp
  have hslot : ∀ q ∈ l.permutation.live, (l.assign p s').slot q = if q = p then s' else l.slot q :=
    fun q hq => Leaf.slot_assign (by rw [hlen]; exact hw.live_lt hq)
  have hent : (l.assign p s').entries = l.permutation.live.map fun q =>
    if q = p then s' else l.slot q :=
    List.map_congr_left hslot
  have hikey : ∀ q, (if q = p then s' else l.slot q).ikey = (l.slot q).ikey := by
    intro q
    split_ifs with h0
    · rw [h0, hs, hs']
    · rfl
  have hsmem : s ∈ l.entries := List.mem_map.mpr ⟨p, hplive, hs⟩
  have hsorted : l.entries.Pairwise byIkey := hok.sorted
  have hinj : ∀ q ∈ l.permutation.live, l.slot q = s → q = p := by
    intro q hq hqs
    by_contra h0
    rw [Leaf.entries, List.pairwise_map] at hsorted
    obtain ⟨A, B, hAB⟩ := List.append_of_mem hplive
    rw [hAB, List.pairwise_append, List.pairwise_cons] at hsorted
    rw [hAB] at hq
    rcases List.mem_append.mp hq with h1 | h1
    · have := hsorted.2.2 q h1 p List.mem_cons_self
      simp [byIkey, hqs, hs] at this
    · rcases List.mem_cons.mp h1 with h1 | h1
      · exact h0 h1
      · have := hsorted.2.1.1 q h1
        simp [byIkey, hqs, hs] at this
  have hmem : ∀ t, t ∈ (l.assign p s').entries ↔ (t ∈ l.entries ∧ t ≠ s) ∨ t = s' := by
    intro t
    rw [hent, List.mem_map]
    constructor
    · rintro ⟨q, hq, rfl⟩
      split_ifs with h0
      · exact Or.inr rfl
      · exact Or.inl ⟨List.mem_map_of_mem hq, fun h1 => h0 (hinj q hq h1)⟩
    · rintro (⟨h1, h2⟩ | rfl)
      · obtain ⟨q, hq, rfl⟩ := List.mem_map.mp h1
        refine ⟨q, hq, if_neg ?_⟩
        rintro rfl
        exact h2 hs
      · exact ⟨p, hplive, if_pos rfl⟩
  have hok' : LeafOk P byIkey G c.n { l.assign p s' with parent := none } := by
    refine ⟨hok.perm, ?_, ?_, ?_, hok.modstate, hok.first, ?_⟩
    · change (l.slots.set p s').length = _
      rw [List.length_set, hlen]
    · change (l.assign p s').entries.Pairwise byIkey
      rw [hent, List.pairwise_map]
      rw [Leaf.entries, List.pairwise_map] at hsorted
      refine hsorted.imp fun {q r} hqr => ?_
      rw [byIkey, hikey, hikey]
      exact hqr
    · intro t ht
      rcases (hmem t).mp ht with ⟨h1, -⟩ | rfl
      · exact hok.within t h1
      · rw [hs']
        exact hok.within s hsmem
    · intro h0
      rw [← hok.bound h0]
      change ((l.assign p s').slot 0).ikey = (l.slot 0).ikey
      have h3 := P.three_le_leafWidth
      rw [Leaf.slot_assign (by omega), hikey]
  have hsame : l.SameLinks (l.assign p s') := ⟨rfl, rfl, rfl, rfl, Iff.rfl⟩
  refine ⟨hI.setLeaf hl hsame rfl rfl (fun _ => hok'), (SameTree.setLeaf hl hsame).frame G, ?_⟩
  intro g t
  rw [entry_setLeaf hn, entry_iff_leaf hn hl, hmem, hS.fam]
  constructor
  · rintro (⟨rfl, ⟨h1, h2⟩ | h1⟩ | ⟨b, lb, h1, h2, h3, h4, h5⟩)
    · exact Or.inl ⟨Or.inl ⟨rfl, h1⟩, fun h0 => h2 h0.2⟩
    · exact Or.inr ⟨rfl, h1⟩
    · refine Or.inl ⟨Or.inr ⟨b, lb, h1, h2, h3, h4, h5⟩, ?_⟩
      rintro ⟨rfl, rfl⟩
      exact h1 (hI.tree.leaf_unique h2 hn (Node.leafData_leaf h4).1 (by rw [hl]; rfl)
        (h3.trans hS.fam.symm) ((hI.leaves b lb h2 h4).within t h5) (hok.within t hsmem))
  · rintro (⟨⟨rfl, h1⟩ | h1, h2⟩ | ⟨rfl, rfl⟩)
    · exact Or.inl ⟨rfl, Or.inl ⟨h1, fun h0 => h2 ⟨rfl, h0⟩⟩⟩
    · exact Or.inr h1
    · exact Or.inl ⟨rfl, Or.inr rfl⟩

/-- **Removing an item.** -/
lemma finishRemove_layer (hI : HeapInv P byIkey h G) (hS : Stop h G f x c l) {s : Slot β}
    (hs : l.entries[c.i]? = some s) :
    ∃ h' G', finishRemove h c.n c.i = some h' ∧ HeapInv P byIkey h' G' ∧ Frame h G h' G' ∧
      ∀ g t, Entry h' G' g t ↔ Entry h G g t ∧ ¬ (g = f ∧ t = s) := by
  have := finishRemove_spec byIkey_irrefl hI hS.live hS.leaf hs
  rwa [hS.fam] at this

end Update

/-! ## Walking over a layer -/

/-- The items below node `a`, from left to right. -/
def slotsBelow (h : Heap β) : ℕ → Ptr → List (Slot β)
  | 0, _ => []
  | fuel + 1, a =>
      match h.node a with
      | .leaf l => l.entries
      | .internode n => n.children.flatMap fun c => c.elim [] (slotsBelow h fuel)

/-- **A walk below a live node meets the items in its range, in order.** -/
lemma slotsBelow_spec (hI : HeapInv P byIkey h G) : ∀ (fuel : ℕ) {a : Ptr}, G.live a →
    (h.node a).height < fuel → (slotsBelow h fuel a).Pairwise byIkey ∧
      ∀ s, s ∈ slotsBelow h fuel a ↔
        Entry h G (G.fam a) s ∧ G.lo a ≤ s.ikey ∧ s.ikey < G.hi a
  | 0, _, _, hf => absurd hf (by omega)
  | fuel + 1, a, ha, hf => by
      rw [slotsBelow]
      cases hn : h.node a with
      | leaf l =>
          have hok := hI.leaves a { l with parent := none } ha (by rw [hn]; rfl)
          refine ⟨hok.sorted,
            fun s =>
              ⟨fun hs => ⟨⟨a, { l with parent := none }, ha, rfl, by rw [hn]; rfl, hs⟩,
                hok.within s hs⟩, fun hs => hI.entry_in_leaf hs.1 ha rfl hn hs.2.1 hs.2.2⟩⟩
      | internode n =>
          have hlink := hI.tree.link ha hn
          -- every child is walked with its own range
          have hchild : ∀ sg ∈ segs (G.lo a) n.keys n.children (G.hi a),
              (sg.2.1.elim [] (slotsBelow h fuel)).Pairwise byIkey ∧
              ∀ s, s ∈ sg.2.1.elim [] (slotsBelow h fuel) ↔
                Entry h G (G.fam a) s ∧ sg.1 ≤ s.ikey ∧ s.ikey < sg.2.2 := by
            rintro ⟨l, c, u⟩ hm
            have hseg := hlink.segs _ hm
            cases c with
            | none =>
                have : l = u := hseg
                refine ⟨List.Pairwise.nil, fun s => ⟨fun h0 => absurd h0 (by simp), ?_⟩⟩
                rintro ⟨-, h1, h2⟩
                simp only at h1 h2
                omega
            | some c =>
                obtain ⟨hlive, -, hfam, hh⟩ :=
                  hI.tree.child_live ha hn (show some c ∈ n.children from mem_of_mem_segs hm)
                have hrec := slotsBelow_spec hI fuel hlive (by omega)
                have hlo : G.lo c = l := hseg.2.2.2.1
                have hhi : G.hi c = u := hseg.2.2.2.2.1
                rw [hfam, hlo, hhi] at hrec
                exact hrec
          simp only
          rw [← segs_map_child (G.lo a) (G.hi a) hlink.length, List.flatMap_map]
          constructor
          · rw [List.pairwise_flatMap]
            refine ⟨fun sg hsg => (hchild sg hsg).1, ?_⟩
            refine (segs_pairwise hlink.seg_le).imp_of_mem fun {sg tg} hsg htg hle => ?_
            intro s hs t ht
            have h1 := ((hchild sg hsg).2 s).mp hs
            have h2 := ((hchild tg htg).2 t).mp ht
            rw [byIkey]
            omega
          · intro s
            rw [List.mem_flatMap]
            constructor
            · rintro ⟨⟨l, c, u⟩, hm, hs⟩
              obtain ⟨h1, h2, h3⟩ := ((hchild _ hm).2 s).mp hs
              obtain ⟨k₁, k₂, c₁, c₂, hk, hcs, hlen, hd, hup⟩ := exists_cut hlink.length hm
              have hsorted := hlink.sorted
              rw [hk] at hsorted
              obtain ⟨-, -, hb1, hb2⟩ := cut_bounds hsorted.1 hsorted.2
              simp only at h2 h3
              exact ⟨h1, by omega, by omega⟩
            · rintro ⟨h1, h2, h3⟩
              obtain ⟨l, c, u, hm, g1, g2⟩ := exists_seg_of_mem hlink.length h2 h3
              exact ⟨_, hm, ((hchild _ hm).2 s).mpr ⟨h1, g1, g2⟩⟩

/-- **A walk from the root of a layer meets all its items, in order.** -/
lemma slotsBelow_top (hI : HeapInv P byIkey h G) {a : Ptr} (ha : G.Known h a) :
    (slotsBelow h (h.size + 1) (G.top (G.fam a))).Pairwise byIkey ∧
      ∀ s, s ∈ slotsBelow h (h.size + 1) (G.top (G.fam a)) ↔ Entry h G (G.fam a) s := by
  obtain ⟨h1, -, h3, -, h5, h6⟩ := hI.tree.top_spec ha
  have hh := hI.tree.height_lt (hI.tree.live_lt h1)
  obtain ⟨g1, g2⟩ := slotsBelow_spec hI (h.size + 1) h1 (by omega)
  refine ⟨g1, fun s => ?_⟩
  have h6 : G.hi (G.top (G.fam a)) = ikeyLimit := h6
  rw [g2, h3, h5, h6]
  exact ⟨fun h0 => h0.1, fun h0 => ⟨h0, Nat.zero_le _, hI.entry_lt h0⟩⟩

/-- The nodes below node `a`, itself included. -/
def nodesBelow (h : Heap β) : ℕ → Ptr → List Ptr
  | 0, _ => []
  | fuel + 1, a =>
      match h.node a with
      | .leaf _ => [a]
      | .internode n => a :: n.children.flatMap fun c => c.elim [] (nodesBelow h fuel)

/-- The nodes below a live node are live nodes of its layer. -/
lemma nodesBelow_live (hI : HeapInv P byIkey h G) : ∀ (fuel : ℕ) {a b : Ptr}, G.live a →
    b ∈ nodesBelow h fuel a → G.live b ∧ G.fam b = G.fam a
  | 0, _, _, _, hb => by simp [nodesBelow] at hb
  | fuel + 1, a, b, ha, hb => by
      rw [nodesBelow] at hb
      cases hn : h.node a with
      | leaf l =>
          rw [hn] at hb
          obtain rfl : b = a := by simpa using hb
          exact ⟨ha, rfl⟩
      | internode n =>
          rw [hn] at hb
          simp only [List.mem_cons, List.mem_flatMap] at hb
          rcases hb with rfl | ⟨c, hc, hb⟩
          · exact ⟨ha, rfl⟩
          · cases c with
            | none => simp at hb
            | some c =>
                obtain ⟨h1, -, h2, -⟩ := hI.tree.child_live ha hn hc
                rw [← h2]
                exact nodesBelow_live hI fuel h1 hb

end MasstreeLHM
