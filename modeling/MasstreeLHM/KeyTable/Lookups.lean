import Mathlib.Data.List.Pairwise
import MasstreeLHM.KeyTable.Denotation

/-!
# Looking up whole keys

A cursor follows its key through the layers: it ends where the trie says, whatever stale pointers it
meets and repairs on the way.

`Stands.hit` says what a search that stops at a slot of a layer has found: a value with the rest of
the key, a value with another suffix, or a layer.  **`Stands.findUnlocked`** follows that through
the layers by induction on the length of the key, so `get` reads the trie.

A cursor that locks may rewrite a slot on its way, when the layer pointer in it is no root any more.
`Pending.setLv` overwrites a live slot and `Stands.repair` is that repair: the slot leads to the
same layer as before, so the trie is the same.  **`Stands.findLocked`** ends at a place that `Ends`
describes, in a heap that stands for the same trie.
-/

namespace MasstreeLHM.KeyTable

open Trie

variable {V : Type} [Inhabited V] {P : NodeParams} {s : Layers V} {G : Ghost}
  {M : LayerMap Bytes (ℕ × ℕ) V Ptr} {h : Heap (Cell V)} {k : Bytes} {f n r : Ptr}
  {l : Leaf (Cell V)}
  {t t' : Slot (Cell V)} {p : ℕ} {c : Cursor}

/-! ## Overwriting a slot -/

/-- The slots of a layer when one of them is overwritten in its cell. -/
lemma entry_setSlot (hI : HeapInv P keyLt h G) (hn : G.live n) (hl : h.node n = .leaf l)
    (hp : p ∈ l.permutation.live) (hc : cellOf t' = cellOf (l.slot p)) (f : Ptr)
    (t : Slot (Cell V)) :
    Entry (h.setLeaf n (l.assign p t')) G f t ↔
      (Entry h G f t ∧ ¬ (f = G.fam n ∧ cellOf t = cellOf (l.slot p))) ∨
      (f = G.fam n ∧ t = t') := by
  have hok := hI.leaves n { l with parent := none } hn (by rw [hl]; rfl)
  have hw : l.permutation.WF P.leafWidth := hok.perm
  have hlen : l.slots.length = P.leafWidth := hok.slots
  have hsorted : (l.permutation.live.map l.slot).Pairwise keyLt := hok.sorted
  have hent : (l.assign p t').entries = l.permutation.live.map fun q =>
    if q = p then t' else l.slot q :=
    List.map_congr_left fun q hq => Leaf.slot_assign (by rw [hlen]; exact hw.live_lt hq)
  -- the cells of two live positions differ
  have hinj : ∀ q ∈ l.permutation.live, q ≠ p → cellOf (l.slot q) ≠ cellOf (l.slot p) := by
    intro q hq hqp
    rw [List.pairwise_map] at hsorted
    have hne : l.permutation.live.Pairwise fun a b => cellOf (l.slot a) ≠ cellOf (l.slot b) := by
      refine hsorted.imp fun {a b} h0 h1 => ?_
      obtain ⟨h2, h3⟩ := Prod.mk.inj h1
      rw [keyLt] at h0
      omega
    have : Std.Symm fun a b => cellOf (l.slot a) ≠ cellOf (l.slot b) := ⟨fun _ _ h0 => h0.symm⟩
    exact hne.forall hq hp hqp
  have hmem : t ∈ (l.assign p t').entries ↔
    (t ∈ l.entries ∧ cellOf t ≠ cellOf (l.slot p)) ∨ t = t' := by
    rw [hent, List.mem_map]
    constructor
    · rintro ⟨q, hq, rfl⟩
      split_ifs with h0
      · exact Or.inr rfl
      · exact Or.inl ⟨List.mem_map_of_mem hq, hinj q hq h0⟩
    · rintro (⟨h1, h2⟩ | rfl)
      · obtain ⟨q, hq, rfl⟩ := List.mem_map.mp h1
        refine ⟨q, hq, if_neg ?_⟩
        rintro rfl
        exact h2 rfl
      · exact ⟨p, hp, if_pos rfl⟩
  rw [entry_setLeaf hn, entry_iff_leaf hn hl, hmem]
  constructor
  · rintro (⟨rfl, ⟨h1, h2⟩ | h1⟩ | ⟨b, lb, h1, h2, h3, h4, h5⟩)
    · exact Or.inl ⟨Or.inl ⟨rfl, h1⟩, fun h0 => h2 h0.2⟩
    · exact Or.inr ⟨rfl, h1⟩
    · refine Or.inl ⟨Or.inr ⟨b, lb, h1, h2, h3, h4, h5⟩, fun h0 => h1 ?_⟩
      -- another leaf of the layer has another range
      have hik : t.ikey = (l.slot p).ikey := (Prod.mk.inj h0.2).1
      refine hI.tree.leaf_unique h2 hn (Node.leafData_leaf h4).1 (by rw [hl]; rfl) (h3.trans h0.1)
        ((hI.leaves b lb h2 h4).within t h5) ?_
      rw [hik]
      exact hok.within _ (List.mem_map_of_mem hp)
  · rintro (⟨⟨rfl, h1⟩ | h1, h2⟩ | ⟨rfl, rfl⟩)
    · exact Or.inl ⟨rfl, Or.inl ⟨h1, fun h0 => h2 ⟨rfl, h0⟩⟩⟩
    · exact Or.inr h1
    · exact Or.inl ⟨rfl, Or.inr rfl⟩

omit [Inhabited V] in
lemma Sound.frame {h' : Heap (Cell V)} {G' : Ghost} (ht : Sound h G t) (hF : Frame h G h' G') :
    Sound h' G' t :=
  ht.imp id fun ⟨h1, m, h2, h3⟩ => ⟨h1, m, h2, h3.frame hF⟩

/-- As `Stands`, but what is in cell `d` of layer `f` may have been collected, or be a new layer of
the same name. -/
structure Pending (P : NodeParams) (s : Layers V) (G : Ghost) (M : LayerMap Bytes (ℕ × ℕ) V Ptr)
    (f : Ptr) (d : ℕ × ℕ) : Prop where
  ok : s.Ok .strings P G
  denotes : Denotes (Entry s.heap G) G.fam M
  sound : ∀ g t, Entry s.heap G g t → ¬ (g = f ∧ cellOf t = d) → Sound s.heap G t

lemma Stands.pending (hS : Stands P s G M) (f : Ptr) (d : ℕ × ℕ) : Pending P s G M f d :=
  ⟨hS.ok, hS.denotes, fun g t ht _ => hS.sound g t ht⟩

namespace Stands

lemma heap_leaf (hl : s.heap.node n = .leaf l) : s.heap.leaf n = l := by rw [Heap.leaf, hl]; rfl

end Stands

/-- **Writing `lv_` of a live slot**, a value over a value or a layer over a layer. -/
lemma Pending.setLv (hS : Pending P s G M (G.fam n) (cellOf (l.slot p))) (hn : G.live n)
    (hl : s.heap.node n = .leaf l) (hp : p ∈ l.permutation.live) (lv : LeafValue V)
    (hlv : Sound s.heap G ⟨(l.slot p).ikey, { (l.slot p).body with lv := lv }⟩) :
    Stands P ⟨KeyTable.setLv s.heap n p lv, s.stores, s.roots⟩ G
      (set M (G.fam n) (cellOf (l.slot p))
      (some (itemOf G.fam ⟨(l.slot p).ikey, { (l.slot p).body with lv := lv }⟩))) ∧
      Frame s.heap G (KeyTable.setLv s.heap n p lv) G := by
  set t' : Slot (Cell V) := ⟨(l.slot p).ikey, { (l.slot p).body with lv := lv }⟩ with ht'
  have heq : KeyTable.setLv s.heap n p lv = s.heap.setLeaf n (l.assign p t') := by
    simp only [KeyTable.setLv, Stands.heap_leaf hl, ht']
  have hsame : l.SameLinks (l.assign p t') := ⟨rfl, rfl, rfl, rfl, Iff.rfl⟩
  have hF : Frame s.heap G (s.heap.setLeaf n (l.assign p t')) G :=
    (SameTree.setLeaf hl hsame).frame G
  have hcell : cellOf t' = cellOf (l.slot p) := rfl
  have hE := entry_setSlot hS.ok.heap hn hl hp hcell
  rw [heq]
  refine ⟨⟨hS.ok.setValue hl p lv, hS.denotes.replace hE rfl, fun f t ht => ?_⟩, hF⟩
  rcases (hE f t).mp ht with ⟨h1, h2⟩ | ⟨-, rfl⟩
  · exact (hS.sound f t h1 h2).frame hF
  · exact hlv.frame hF

namespace Stands

/-- What a search that stops at a slot has found there. -/
lemma hit (hS : Stands P s G M) (hc : StopsAt s.heap G f k c l) (hp : c.p = some p) :
    (ksufMatches s.heap s.stores c.n p k = -8 ∧ 8 < k.length ∧ ∃ m, (l.slot p).body.lv = .layer m ∧
        Held s.heap G m ∧ isLayer (l.slot p) = true ∧ M f (byteCut.cell k) =
          some (.layer (G.fam m))) ∨
      ∃ v, (l.slot p).body.lv = .value v ∧ isLayer (l.slot p) = false ∧
        M f (byteCut.cell k) = some (.value (restOf (l.slot p)) v) ∧
        ksufMatches s.heap s.stores c.n p k = if restOf (l.slot p) = byteCut.rest k then 1 else
          0 := by
  obtain ⟨h1, h2⟩ := hc.hit p hp
  have hlive : p ∈ l.permutation.live := List.mem_of_getElem? h1
  have hent : Entry s.heap G f (l.slot p) :=
    hc.fam ▸ entry_of_mem hc.live hc.leaf (List.mem_map_of_mem hlive)
  have hfits := hS.ok.fits c.n l hc.leaf
  have hkx := hfits.keylenx _ (List.mem_map_of_mem hlive)
  have hM := hS.denotes.item hent
  have hrank : rank (l.slot p) = min k.length 9 := (Prod.mk.inj h2).2
  rw [h2, itemOf] at hM
  simp only [ksufMatches, heap_leaf hc.leaf]
  rcases hS.sound f _ hent with ⟨g1, v, g2⟩ | ⟨g1, m, g2, g3⟩
  · right
    have hno : ¬ 127 < (l.slot p).body.keylenx := by simpa [isLayer] using g1
    by_cases h64 : (l.slot p).body.keylenx = ksufKeylenx
    · -- a suffix
      have hk : hasKsuf (l.slot p) = true := decide_eq_true h64
      obtain ⟨g3, -⟩ := hfits.ksuf p hlive hk
      have h8 : 8 < k.length := by
        rw [rank, h64, ksufKeylenx] at hrank
        omega
      refine ⟨v, g2, g1, by rw [hM, g2], ?_⟩
      rw [if_neg (by omega), if_neg (by rw [h64]; decide), g3, byteCut_rest_of_lt h8,
        restOf, if_pos hk]
    · -- the end of a key
      have hle : (l.slot p).body.keylenx ≤ 8 := by
        rcases hkx with h0 | h0 | h0
        · exact h0
        · exact absurd h0 h64
        · exact absurd (h0 ▸ (by decide : 127 < layerKeylenx)) hno
      have hk : hasKsuf (l.slot p) = false := decide_eq_false h64
      have h8 : ¬ 8 < k.length := by
        rw [rank] at hrank
        omega
      refine ⟨v, g2, g1, by rw [hM, g2], ?_⟩
      rw [if_pos (by simp only [ksufKeylenx]; omega), byteCut_rest, if_neg h8, restOf, hk,
        if_pos (by simp)]
  · left
    have hgt : 127 < (l.slot p).body.keylenx := of_decide_eq_true g1
    have h128 : (l.slot p).body.keylenx = layerKeylenx := by
      rcases hkx with h0 | h0 | h0
      · omega
      · simp only [ksufKeylenx] at h0
        omega
      · exact h0
    refine ⟨?_, ?_, m, g2, g3, g1, ?_⟩
    · rw [if_neg (by rw [h128]; decide), if_pos h128]
    · rw [rank] at hrank
      omega
    · rw [hM, g2]

/-- A search that finds no slot. -/
lemma missed (hS : Stands P s G M) (hc : StopsAt s.heap G f k c l) (hp : c.p = none) :
    M f (byteCut.cell k) = none := by
  obtain ⟨h1, h2⟩ := hc.miss hp
  refine hS.denotes.eq_none fun t ht h0 => ?_
  have hcmp := cellOf_eq_iff.mp h0
  have hik : t.ikey = slice k := (Prod.mk.inj h0).1
  have hmem : t ∈ l.entries :=
    mem_entries hS.ok.heap ht hc.live hc.fam hc.leaf (hik ▸ hc.lo) (hik ▸ hc.hi)
  rw [← List.take_append_drop c.i l.entries] at hmem
  rcases List.mem_append.mp hmem with h3 | h3
  · have := h1 t h3
    omega
  · have := h2 t h3
    omega

/-- **`find_unlocked`** reads the trie. -/
lemma findUnlocked (hS : Stands P s G M) : ∀ (fuel : ℕ) {r : Ptr} {k : Bytes}, Held s.heap G r →
    k.length < fuel → KeyTable.findUnlocked s.heap s.stores fuel r k =
      some (Trie.get byteCut M (G.fam r) k)
  | 0, _, _, _, hf => absurd hf (Nat.not_lt_zero _)
  | fuel + 1, r, k, hr, hf => by
      obtain ⟨c, l, h1, hc⟩ := hS.lower hr k
      rw [KeyTable.findUnlocked, h1]
      simp only [heap_leaf hc.leaf]
      cases hp : c.p with
      | none => exact congrArg some (get_of_none (hS.missed hc hp)).symm
      | some p =>
          simp only
          rcases hS.hit hc hp with ⟨g1, g2, m, g3, g4, -, g6⟩ | ⟨v, g1, -, g3, g4⟩
          · rw [g1, g3]
            simp only
            rw [if_pos (by decide), findUnlocked hS fuel g4 (by rw [List.length_drop]; omega),
              get_of_layer g6, byteCut_rest_of_lt g2, Option.bind_some]
          · rw [g4, g1, get_of_value g3]
            by_cases ho : restOf (l.slot p) = byteCut.rest k <;> simp [ho]

end Stands

/-! ## Cursors that lock -/

/-- Where a cursor for `k` ends that started in layer `r`: in layer `f`, at no slot or at a
value. -/
structure Ends (P : NodeParams) (s : Layers V) (G : Ghost) (M : LayerMap Bytes (ℕ × ℕ) V Ptr)
    (r : Ptr) (k : Bytes) (c : KeyCursor) (f : Ptr) (l : Leaf (Cell V)) : Prop where
  stands : Stands P s G M
  leads : Leads byteCut M r k f c.rest
  stop : StopsAt s.heap G f c.rest c.stop l
  state : (c.stop.p = none ∧ c.state = 0 ∧ M f (byteCut.cell c.rest) = none) ∨
    ∃ p v, c.stop.p = some p ∧ (l.slot p).body.lv = .value v ∧ isLayer (l.slot p) = false ∧
      M f (byteCut.cell c.rest) = some (.value (restOf (l.slot p)) v) ∧
      c.state = if restOf (l.slot p) = byteCut.rest c.rest then 1 else 0

/-- A stale layer pointer is replaced by the parent of its node. -/
lemma Stands.repair (hS : Stands P s G M) (hc : StopsAt s.heap G f k c l)
    (hp : c.p = some p) {m : Ptr} (hm : (l.slot p).body.lv = .layer m) (hh : Held s.heap G m)
    (hlay : isLayer (l.slot p) = true) :
    Stands P ⟨KeyTable.setLv s.heap c.n p (.layer ((s.heap.node m).parent.getD m)),
      s.stores, s.roots⟩ G M ∧
      Frame s.heap G (KeyTable.setLv s.heap c.n p (.layer ((s.heap.node m).parent.getD m))) G ∧
      G.fam ((s.heap.node m).parent.getD m) = G.fam m := by
  have hfam : G.fam ((s.heap.node m).parent.getD m) = G.fam m := by
    cases hq : (s.heap.node m).parent with
    | none => rfl
    | some q => exact (hS.ok.heap.tree.up hh.known hq).2.1
  have hlive : p ∈ l.permutation.live := List.mem_of_getElem? (hc.hit p hp).1
  have hent : Entry s.heap G (G.fam c.n) (l.slot p) :=
    entry_of_mem hc.live hc.leaf (List.mem_map_of_mem hlive)
  obtain ⟨h1, h2⟩ :=
    (hS.pending ..).setLv hc.live hc.leaf hlive (.layer ((s.heap.node m).parent.getD m))
    (Or.inr ⟨hlay, _, rfl, hh.parent hS.ok.heap.tree⟩)
  rw [set_eq_self] at h1
  · exact ⟨h1, h2, hfam⟩
  · rw [hS.denotes.item hent, itemOf, itemOf, hm]
    exact congrArg (fun g => some (Item.layer g)) hfam.symm

/-- **`find_locked`** follows the trie, and changes nothing in it. -/
lemma Stands.findLocked (root_ R : Ptr) (k₀ : Bytes) :
    ∀ (fuel : ℕ) {s : Layers V} {r : Ptr} {shifted k : Bytes},
    Stands P s G M → Held s.heap G r → Leads byteCut M R k₀ (G.fam r) k → k.length < fuel →
    ∃ h c f l, KeyTable.findLocked s.stores root_ fuel s.heap r shifted k = some (h, c) ∧
    Frame s.heap G h G ∧
      Ends P ⟨h, s.stores, s.roots⟩ G M R k₀ c f l
  | 0, _, _, _, _, _, _, _, hf => absurd hf (Nat.not_lt_zero _)
  | fuel + 1, s, r, shifted, k, hS, hr, hlead, hf => by
      obtain ⟨c, l, h1, hc⟩ := hS.lower hr k
      have hmod : l.modstate ≠ .deletedLayer :=
        (hS.ok.heap.leaves c.n { l with parent := none } hc.live (by rw [hc.leaf]; rfl)).modstate
      rw [KeyTable.findLocked, h1]
      simp only [heap_leaf hc.leaf, hmod, if_false]
      cases hp : c.p with
      | none =>
          refine ⟨s.heap, ⟨c, 0, shifted, k⟩, G.fam r, l, rfl, .refl _ _, hS, hlead, hc,
            Or.inl ⟨hp, rfl, hS.missed hc hp⟩⟩
      | some p =>
          simp only [Option.elim_some, Option.map_some]
          rcases hS.hit hc hp with ⟨g1, g2, m, g3, g4, g5, g6⟩ | ⟨v, g1, g2, g3, g4⟩
          · have hlen : (k.drop 8).length < fuel := by rw [List.length_drop]; omega
            have hstep := Leads.step hlead g6 (byteCut_rest_of_lt g2)
            simp only [g1, g3, show ((-8 : ℤ) < 0) from by decide, if_true]
            split_ifs
            · exact findLocked root_ R k₀ fuel hS g4 hstep hlen
            · obtain ⟨e1, e2, e3⟩ := hS.repair hc hp g3 g4 g5
              obtain ⟨h', c', f, l', e4, e5, e6⟩ := findLocked root_ R k₀ fuel e1
                ((g4.parent hS.ok.heap.tree).frame e2) (e3 ▸ hstep) hlen
              exact ⟨h', c', f, l', e4, e2.trans e5, e6⟩
          · have hge : ¬ ksufMatches s.heap s.stores c.n p k < 0 := by
              rw [g4]
              split_ifs <;> decide
            simp only [hge, if_false]
            exact ⟨s.heap, ⟨c, _, shifted, k⟩, G.fam r, l, rfl, .refl _ _, hS, hlead, hc,
              Or.inr ⟨p, v, hp, g1, g2, g3, g4⟩⟩

end MasstreeLHM.KeyTable
