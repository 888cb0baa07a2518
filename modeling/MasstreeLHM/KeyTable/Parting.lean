import MasstreeLHM.KeyTable.Lookups
import MasstreeLHM.KeyTable.Spelling

/-!
# Two keys part

What `make_new_layer` does to the trie: the old key goes down one layer for every slice that it
shares with the new one, and the new key has a free cell in the last of the new layers.

`shares_of_sharedSlices` translates the slices that two keys share into cells that they share, so
that `Trie.place_spec` applies.  `AddsLayers` says that a heap has new layers of one leaf each; it
is reflexive and transitive, and a single allocation is `AddsLayers.alloc`, so the loop that
allocates the leaves is a short induction (`addsLayers_allocTwigs`).

`Denotes.part` puts the new layers into the trie, with the slot of the first in the place of the
suffix slot.  **`Stands.makeNewLayer`** is the whole function: the table stands for a trie in which
no lookup has changed, and the cursor stands at a free slot in the last layer (`Opened`), ready to
be finished.
-/

namespace MasstreeLHM.KeyTable

open Trie

variable {V : Type} [Inhabited V] {P : NodeParams} {s : Layers V} {G G' G'' : Ghost}
  {M : LayerMap Bytes (ℕ × ℕ) V Ptr} {h h' h'' : Heap (Cell V)} {k : Bytes} {f n r : Ptr}
  {l : Leaf (Cell V)}
  {t t' : Slot (Cell V)} {p : ℕ} {c : Cursor}

/-! ## The keys -/

/-- The slices that two keys share are cells that they share. -/
lemma shares_of_sharedSlices : ∀ {fuel : ℕ} {a b a' b' : Bytes} {xs : List ℕ},
    sharedSlices fuel a b = some (xs, a', b') → a ≠ b →
    Shares byteCut xs.length a b a' b' ∧ byteCut.cell a' ≠ byteCut.cell b' ∧
      ∀ x ys, xs = x :: ys → x = slice a ∧ 8 < a.length
  | 0, _, _, _, _, _, h, _ => by cases h
  | fuel + 1, a, b, a', b', xs, h, hne => by
      rw [sharedSlices] at h
      split_ifs at h with h0
      · obtain ⟨⟨ys, a₁, b₁⟩, h1, h2⟩ := Option.map_eq_some_iff.mp h
        cases h2
        obtain ⟨g1, g2, g3⟩ := of_compareKeys_eq_zero h0 hne
        obtain ⟨h3, h4, -⟩ := shares_of_sharedSlices h1 g3
        refine ⟨.succ ?_ (byteCut_rest_of_lt g1) (byteCut_rest_of_lt g2) h3, h4, ?_⟩
        · have h5 := compareKeys_neg (a := a) (b := b)
          have h6 := compareKeys_pos (a := a) (b := b)
          rw [byteCut_cell, byteCut_cell, Prod.mk.injEq]
          omega
        · rintro x ys' h5
          cases h5
          exact ⟨rfl, g1⟩
      · cases h
        refine ⟨.zero a b, fun h1 => ?_, by simp⟩
        obtain ⟨h2, h3⟩ := Prod.mk.inj h1
        have h5 := compareKeys_neg (a := a) (b := b)
        have h6 := compareKeys_pos (a := a) (b := b)
        omega

/-! ## The layers -/

/-- Pointers that a cursor may start from stay such pointers, and in their layers. -/
def StayHeld (h : Heap (Cell V)) (G : Ghost) (h' : Heap (Cell V)) (G' : Ghost) : Prop :=
  ∀ r, Held h G r → Held h' G' r ∧ G'.fam r = G.fam r

omit [Inhabited V] in
lemma StayHeld.trans (h₁ : StayHeld h G h' G') (h₂ : StayHeld h' G' h'' G'') :
    StayHeld h G h'' G'' :=
  fun r hr => ⟨(h₂ r (h₁ r hr).1).1, (h₂ r (h₁ r hr).1).2.trans (h₁ r hr).2⟩

omit [Inhabited V] in
lemma StayHeld.of_frame (hF : Frame h G h' G') : StayHeld h G h' G' :=
  fun _ hr => ⟨hr.frame hF, hF.fam _ hr.known.1⟩

omit [Inhabited V] in
lemma Sound.stay (ht : Sound h G t) (hs : StayHeld h G h' G') : Sound h' G' t :=
  ht.imp id fun ⟨h1, m, h2, h3⟩ => ⟨h1, m, h2, (hs m h3).1⟩

omit [Inhabited V] in
lemma itemOf_stay (ht : Sound h G t) (hs : StayHeld h G h' G') :
    itemOf G'.fam t = itemOf G.fam t := by
  rcases ht with ⟨-, v, h2⟩ | ⟨-, m, h2, h3⟩
  · rw [itemOf, itemOf, h2]
  · rw [itemOf, itemOf, h2]
    exact congrArg Item.layer (hs m h3).2

/-- The heap has new layers of one leaf each, with the slots `es`. -/
structure AddsLayers (P : NodeParams) (h : Heap (Cell V)) (G : Ghost)
    (h' : Heap (Cell V)) (G' : Ghost) (es : List (Ptr × Slot (Cell V))) : Prop where
  heap : HeapInv P keyLt h' G'
  size : h'.size = h.size + es.length
  node : ∀ a < h.size, h'.node a = h.node a
  live : ∀ a, G.live a → G'.live a
  lo : ∀ a < h.size, G'.lo a = G.lo a
  hi : ∀ a < h.size, G'.hi a = G.hi a
  fam : ∀ a < h.size, G'.fam a = G.fam a
  newest : ∀ a, h.size ≤ a → a < h'.size → Held h' G' a ∧ G'.fam a = a
  held : StayHeld h G h' G'
  entry : ∀ f u, Entry h' G' f u ↔ Entry h G f u ∨ (f, u) ∈ es

namespace AddsLayers

variable {es es' : List (Ptr × Slot (Cell V))}

lemma refl (hI : HeapInv P keyLt h G) : AddsLayers P h G h G [] :=
  ⟨hI, rfl, fun _ _ => rfl, fun _ h0 => h0, fun _ _ => rfl, fun _ _ => rfl, fun _ _ => rfl,
    fun a h1 h2 => absurd h1 (by omega), fun _ hr => ⟨hr, rfl⟩, by simp⟩

lemma trans (h₁ : AddsLayers P h G h' G' es) (h₂ : AddsLayers P h' G' h'' G'' es') :
    AddsLayers P h G h'' G'' (es ++ es') := by
  have hlt : ∀ {a}, a < h.size → a < h'.size := fun ha => by rw [h₁.size]; omega
  refine ⟨h₂.heap, ?_, ?_, fun a ha => h₂.live a (h₁.live a ha), ?_, ?_, ?_, ?_,
    h₁.held.trans h₂.held, ?_⟩
  · rw [h₂.size, h₁.size, List.length_append, Nat.add_assoc]
  · exact fun a ha => (h₂.node a (hlt ha)).trans (h₁.node a ha)
  · exact fun a ha => (h₂.lo a (hlt ha)).trans (h₁.lo a ha)
  · exact fun a ha => (h₂.hi a (hlt ha)).trans (h₁.hi a ha)
  · exact fun a ha => (h₂.fam a (hlt ha)).trans (h₁.fam a ha)
  · intro a ha ha'
    rcases Nat.lt_or_ge a h'.size with h0 | h0
    · obtain ⟨h1, h2⟩ := h₁.newest a ha h0
      exact ⟨(h₂.held a h1).1, (h₂.held a h1).2.trans h2⟩
    · exact h₂.newest a h0 ha'
  · intro f u
    rw [h₂.entry, h₁.entry, List.mem_append, or_assoc]

lemma alloc (hI : HeapInv P keyLt h G) (hl : l.Fresh P keyLt) {u : Slot (Cell V)}
    (hu : l.entries = [u]) :
    AddsLayers P h G (h.alloc (.leaf l)) (G.alloc h.size) [(h.size, u)] := by
  refine ⟨hI.alloc_leaf hl, rfl, fun a ha => node_alloc_leaf ha, fun a ha => Or.inr ha,
    fun a ha => if_neg ha.ne,
    fun a ha => if_neg ha.ne, fun a ha => if_neg ha.ne, ?_, ?_, ?_⟩
  · intro a h1 h2
    obtain rfl : a = h.size := by
      have : a < h.size + 1 := h2
      omega
    exact ⟨⟨(hI.alloc_leaf hl).tree.known (Or.inl rfl), fun _ => if_pos rfl⟩, if_pos rfl⟩
  · exact fun r hr => ⟨hr.alloc_leaf l, if_neg hr.known.1.ne⟩
  · intro f u'
    rw [entry_alloc_leaf hI.tree.live_lt, hu, List.mem_singleton, List.mem_singleton,
      Prod.mk.injEq, or_comm]

end AddsLayers

/-- The slots of the leaves for shared slices, from address `N` on. -/
def twigs : ℕ → List ℕ → List (Ptr × Slot (Cell V))
  | _, [] => []
  | N, x :: xs => (N, ⟨x, layerKeylenx, [], .layer (N + 1)⟩) :: twigs (N + 1) xs

lemma addsLayers_allocTwigs (st : SuffixStore) : ∀ (xs : List ℕ) {s : Layers V} {G : Ghost},
    HeapInv P keyLt s.heap G → (∀ x ∈ xs, x < ikeyLimit) →
    ∃ G', AddsLayers P s.heap G (s.allocTwigs P st xs).heap G' (twigs s.heap.size xs)
  | [], s, G, hI, _ => ⟨G, .refl hI⟩
  | x :: xs, s, G, hI, hx => by
      have h1 := AddsLayers.alloc hI (l := twigLeaf P x (s.heap.size + 1))
        (fresh_twigLeaf (hx x List.mem_cons_self)) (twigLeaf_entries P x (s.heap.size + 1))
      obtain ⟨G', h2⟩ := addsLayers_allocTwigs st xs
        (s := ⟨s.heap.alloc (.leaf (twigLeaf P x (s.heap.size + 1))),
          Function.update s.stores s.heap.size st, s.heap.size :: s.roots⟩) h1.heap
          (fun y hy => hx y (List.mem_cons_of_mem _ hy))
      exact ⟨G', h1.trans h2⟩

/-- **The new layers make up the trie.** -/
lemma Denotes.place {fam : Ptr → Ptr} {v : V} :
    ∀ {fuel : ℕ} {a b a' b' : Bytes} {xs : List ℕ} {N : ℕ}
    {M : LayerMap Bytes (ℕ × ℕ) V Ptr} {E E' : Ptr → Slot (Cell V) → Prop}, Denotes E fam M →
    sharedSlices fuel a b = some (xs, a', b') → a ≠ b →
    (∀ m, N ≤ m → m ≤ N + xs.length → fam m = m) → (∀ m u, N ≤ m → ¬ E m u) →
    (∀ f u, E' f u ↔ E f u ∨ (f, u) ∈ twigs N xs ∨
      (f = N + xs.length ∧ u = (Insertion.key a' v).slot)) →
    Denotes E' fam (Trie.place byteCut v (List.range' (N + 1) xs.length) M N a)
  | 0, _, _, _, _, _, _, _, _, _, _, h, _, _, _, _ => by cases h
  | fuel + 1, a, b, a', b', xs, N, M, E, E', hD, h, hne, hfam, hno, hE => by
      rw [sharedSlices] at h
      split_ifs at h with h0
      · obtain ⟨⟨ys, a₁, b₁⟩, h1, h2⟩ := Option.map_eq_some_iff.mp h
        cases h2
        obtain ⟨g1, g2, g3⟩ := of_compareKeys_eq_zero h0 hne
        set u : Slot (Cell V) := ⟨slice a, layerKeylenx, [], .layer (N + 1)⟩ with hu
        have hcell : cellOf u = byteCut.cell a := by
          rw [byteCut_cell, Nat.min_eq_right (by omega)]
          rfl
        have hitem : itemOf fam u = .layer (N + 1) :=
          congrArg Item.layer (hfam (N + 1) (by omega) (by simp))
        have hD₁ : Denotes (fun f t => E f t ∨ (f = N ∧ t = u)) fam
          (set M N (cellOf u) (some (itemOf fam u))) :=
          hD.add (fun _ _ => Iff.rfl) (fun t ht => absurd ht (hno N t le_rfl))
        rw [hcell, hitem] at hD₁
        rw [List.length_cons, List.range'_succ, Trie.place, byteCut_rest_of_lt g1]
        refine Denotes.place hD₁ h1 g3
          (fun m hm hm' => hfam m (by omega) (by rw [List.length_cons]; omega)) ?_ ?_
        · intro m t hm h4
          rcases h4 with h4 | ⟨h4, -⟩
          · exact hno m t (by omega) h4
          · exact absurd h4 (Nat.lt_of_succ_le hm).ne'
        · intro f t
          rw [hE, twigs, List.mem_cons, Prod.mk.injEq, List.length_cons, or_assoc, or_assoc,
            show N + 1 + ys.length = N + (ys.length + 1) by omega]
      · cases h
        have hD₁ : Denotes E' fam (set M N (cellOf (Insertion.key a v).slot)
            (some (itemOf fam (Insertion.key a v).slot))) := by
          refine hD.add (fun f t => ?_) (fun t ht => absurd ht (hno N t le_rfl))
          rw [hE]
          simp [twigs]
        rw [cellOf_key, itemOf_key] at hD₁
        exact hD₁

/-! ## `make_new_layer` -/

/-- The cursor of an insertion from layer `R` stands at a free slot for what is left of its key. -/
structure Opened (P : NodeParams) (s : Layers V) (G : Ghost) (M : LayerMap Bytes (ℕ × ℕ) V Ptr)
    (R : Ptr) (k : Bytes) (pos : Position) (ka : Bytes) (f : Ptr) (l : Leaf (Cell V)) : Prop where
  stands : Stands P s G M
  leads : Leads byteCut M R k f ka
  free : M f (byteCut.cell ka) = none
  length_le : ka.length ≤ 1024
  ready : Ready s.heap s.stores pos ka
  room : ∀ v, Room P s.heap G f pos (slice ka) (fun u => keyLt u (Insertion.key ka v).slot)
    (fun u => keyLt (Insertion.key ka v).slot u) l

namespace Stands

lemma fam_lt (hS : Stands P s G M) (hn : G.Known s.heap n) : G.fam n < s.heap.size :=
  hS.ok.heap.tree.live_lt (hS.ok.heap.tree.fam_spec hn).1

lemma entry_lt (hS : Stands P s G M) (ht : Entry s.heap G f t) : f < s.heap.size := by
  obtain ⟨b, lb, h1, h2, -, -⟩ := ht
  exact h2 ▸ hS.fam_lt (hS.ok.heap.tree.known h1)

/-- What the trie mentions is in the heap. -/
lemma lt_size (hS : Stands P s G M) {d : ℕ × ℕ} {i : Item Bytes V Ptr} (hi : M f d = some i) :
    f < s.heap.size ∧ ∀ g, i = .layer g → g < s.heap.size := by
  obtain ⟨t, h1, -, h2⟩ := (hS.denotes f d i).mp hi
  refine ⟨hS.entry_lt h1, fun g hg => ?_⟩
  rcases hS.sound f t h1 with ⟨-, v, g2⟩ | ⟨-, m, g2, g3⟩
  · rw [← h2, itemOf, g2] at hg
    cases hg
  · rw [← h2, itemOf, g2] at hg
    cases hg
    exact hS.fam_lt g3.known

/-- New nodes are fresh layers. -/
lemma fresh (hS : Stands P s G M) {R : Ptr} (hR : R < s.heap.size) (m : ℕ) :
    Fresh M R (List.range' s.heap.size m) := by
  refine ⟨List.nodup_range', fun g hg => ?_, fun g hg d => ?_, fun g hg l d h0 => ?_⟩ <;>
    have hge := (List.mem_range'_1.mp hg).1
  · exact (hR.trans_le hge).ne'
  · cases hi : M g d with
    | none => rfl
    | some i => exact absurd (hS.lt_size hi).1 hge.not_gt
  · exact absurd ((hS.lt_size h0).2 g rfl) hge.not_gt

end Stands

omit [Inhabited V] in
lemma length_twigs :
    ∀ (N : ℕ) (xs : List ℕ), (twigs N xs : List (Ptr × Slot (Cell V))).length = xs.length
  | _, [] => rfl
  | N, _ :: xs => congrArg (· + 1) (length_twigs (N + 1) xs)

omit [Inhabited V] in
lemma of_mem_twigs : ∀ {N : ℕ} {xs : List ℕ} {u : Slot (Cell V)}, (f, u) ∈ twigs N xs →
    N ≤ f ∧ isLayer u = true ∧ ∃ m : ℕ, u.body.lv = .layer m ∧ N ≤ m ∧ m ≤ N + xs.length
  | _, [], _, h => absurd h List.not_mem_nil
  | N, x :: xs, u, h => by
      rw [twigs, List.mem_cons, Prod.mk.injEq] at h
      rcases h with ⟨rfl, rfl⟩ | h
      · exact ⟨le_rfl, rfl, f + 1, rfl, Nat.le_succ f, by simp⟩
      · obtain ⟨h1, h2, m, h3, h4, h5⟩ := of_mem_twigs h
        exact ⟨Nat.le_of_succ_le h1, h2, m, h3,
          Nat.le_of_succ_le h4, by rw [List.length_cons]; omega⟩

lemma entries_partingLeaf {oka ka : Bytes} {v : V} (hcmp : compareKeys oka ka ≠ 0) :
    (partingLeaf P oka ka (.value v) : Leaf (Cell V)).entries = [(Insertion.key oka v).slot] := by
  obtain ⟨-, -, h3, -, -, h6⟩ := partingLeaf_spec P (.value v) hcmp
  rw [Leaf.entries, h3, List.map_singleton, h6]
  rfl

lemma isLayer_key (k : Bytes) (v : V) : isLayer (Insertion.key k v).slot = false := by
  change decide (127 < (assigned k : Slot (Cell V)).body.keylenx) = false
  rw [assigned]
  split_ifs with h
  · rfl
  · have h8 : k.length ≤ 8 := Nat.not_lt.mp fun h0 => h (decide_eq_true h0)
    exact decide_eq_false (by change ¬ 127 < k.length; omega)

/-- A value in the cell of a key, with another rest than the key's: both have suffixes. -/
lemma Stands.suffixes (hS : Stands P s G M) (hc : StopsAt s.heap G f k c l) (hp : c.p = some p)
    (hlay : isLayer (l.slot p) = false) (hne : restOf (l.slot p) ≠ byteCut.rest k) :
    hasKsuf (l.slot p) = true ∧ 8 < k.length := by
  obtain ⟨hpi, hcell⟩ := hc.hit p hp
  have hrank : rank (l.slot p) = min k.length 9 := (Prod.mk.inj hcell).2
  have hno : ¬ 127 < (l.slot p).body.keylenx := of_decide_eq_false hlay
  rw [rank] at hrank
  by_cases h64 : (l.slot p).body.keylenx = ksufKeylenx
  · refine ⟨decide_eq_true h64, ?_⟩
    rw [h64, ksufKeylenx] at hrank
    omega
  · refine absurd ?_ hne
    rcases (hS.ok.fits c.n l hc.leaf).keylenx _ (List.mem_map_of_mem (List.mem_of_getElem? hpi))
      with h0 | h0 | h0
    · have hk : hasKsuf (l.slot p) = false := decide_eq_false h64
      rw [restOf, hk, byteCut_rest, if_neg (show ¬ 8 < k.length by omega), if_neg (by simp)]
    · exact absurd h0 h64
    · exact absurd (h0 ▸ (by decide : 127 < layerKeylenx)) hno

omit [Inhabited V] in
lemma getLastD_range' (N m f : ℕ) : (List.range' N (m + 1)).getLastD f = N + m := by
  rw [List.range'_concat, List.getLastD_concat, Nat.one_mul]

/-- What `make_new_layer` has done. -/
lemma makeNewLayer_eq {sz : ℕ} {s' : Layers V} {pos : Position} {ka : Bytes}
    (h : makeNewLayer P sz s n p k = some (s', pos, ka)) :
    ∃ ksuf xs oka st₀, (s.stores n).get p = some ksuf ∧
      sharedSlices (ksuf.length + 1) ksuf (k.drop 8) = some (xs, oka, ka) ∧
      s'.heap = ((s.allocTwigs P st₀ xs).heap.alloc
        (.leaf (partingLeaf P oka ka ((s.heap.leaf n).slot p).body.lv))).setLeaf n
          ((s.heap.leaf n).assign p
          ⟨((s.heap.leaf n).slot p).ikey, layerKeylenx, [], .layer s.heap.size⟩) ∧
      pos.n = (s.allocTwigs P st₀ xs).heap.size := by
  simp only [makeNewLayer, Option.bind_eq_bind, Option.bind_eq_some_iff, Option.pure_def,
    Option.some.injEq, Prod.mk.injEq] at h
  obtain ⟨ksuf, h1, ⟨xs, oka, ka'⟩, h2, st₀, -, st, -, rfl, rfl, rfl⟩ := h
  exact ⟨ksuf, xs, oka, st₀, h1, h2, rfl, rfl⟩

/-- A slot is overwritten in its cell. -/
lemma heapInv_setSlot (hI : HeapInv P keyLt h G) (hl : h.node n = .leaf l)
    (hc : cellOf t' = cellOf (l.slot p)) :
    HeapInv P keyLt (h.setLeaf n (l.assign p t')) G := by
  obtain ⟨h1, h2⟩ := Prod.mk.inj hc
  have hslot : ∀ q, ((l.assign p t').slot q).ikey = (l.slot q).ikey ∧
      rank ((l.assign p t').slot q) = rank (l.slot q) := by
    intro q
    rcases Leaf.slot_assign_cases l p q t' with h3 | ⟨rfl, h3⟩ <;> rw [h3]
    · exact ⟨rfl, rfl⟩
    · exact ⟨h1, h2⟩
  refine hI.setLeaf hl ⟨rfl, rfl, rfl, rfl, Iff.rfl⟩ rfl rfl fun hn => ?_
  have hok := hI.leaves n { l with parent := none } hn (by rw [hl]; rfl)
  refine hok.rewrite rfl (List.length_set ..) rfl hok.modstate (fun q => (hslot q).1) fun q u h0 =>
    ?_
  exact (keyLt_congr (hslot q).1 (hslot q).2 (hslot u).1 (hslot u).2).mpr h0

/-- A slot is overwritten after layers have been added. -/
lemma AddsLayers.overwrite {es : List (Ptr × Slot (Cell V))} (hA : AddsLayers P h G h' G' es)
    (hI : HeapInv P keyLt h G) (hn : G.live n) (hl : h.node n = .leaf l)
    (hp : p ∈ l.permutation.live) (hc : cellOf t' = cellOf (l.slot p)) :
    HeapInv P keyLt (h'.setLeaf n (l.assign p t')) G' ∧
    StayHeld h G (h'.setLeaf n (l.assign p t')) G' ∧
      (∀ m : ℕ, h.size ≤ m → m < h.size + es.length → Held (h'.setLeaf n (l.assign p t')) G' m ∧
        G'.fam m = m) ∧
      ∀ f u, Entry (h'.setLeaf n (l.assign p t')) G' f u ↔
        ((Entry h G f u ∨ (f, u) ∈ es) ∧ ¬ (f = G.fam n ∧ cellOf u = cellOf (l.slot p))) ∨
        (f = G.fam n ∧ u = t') := by
  have hns : n < h.size := hI.tree.live_lt hn
  have hl' : h'.node n = .leaf l := (hA.node _ hns).trans hl
  have hsame : l.SameLinks (l.assign p t') := ⟨rfl, rfl, rfl, rfl, Iff.rfl⟩
  have hF : Frame h' G' (h'.setLeaf n (l.assign p t')) G' := (SameTree.setLeaf hl' hsame).frame G'
  refine ⟨heapInv_setSlot hA.heap hl' hc, hA.held.trans (.of_frame hF),
    fun m hm hm' => ?_, fun f u => ?_⟩
  · obtain ⟨h5, h6⟩ := hA.newest m hm (by rw [hA.size]; exact hm')
    exact ⟨h5.frame hF, h6⟩
  · rw [entry_setSlot hA.heap (hA.live _ hn) hl' hp hc, hA.entry, hA.fam _ hns]

/-- **The trie with the new layers**: `t'` is the slot of the first, in the place of a suffix
slot. -/
lemma Denotes.part {E E' : Ptr → Slot (Cell V) → Prop} {fam : Ptr → Ptr} {N : ℕ} {v : V} {fuel : ℕ}
    {ksuf oka ka : Bytes} {xs : List ℕ} (hD : Denotes E fam M) (hEN : ∀ f u, E f u →
      f < N) (hf : f < N)
    (hsh : sharedSlices fuel ksuf (k.drop 8) = some (xs, oka, ka)) (hne : ksuf ≠ k.drop 8)
    (h0 : ksuf ≠ []) (h8 : 8 < k.length) (hfam : ∀ m : ℕ, N ≤ m → m ≤ N + xs.length → fam m = m)
    (ht' : t' = ⟨slice k, layerKeylenx, [], .layer N⟩)
    (hE : ∀ g u, E' g u ↔
      ((E g u ∨ (g, u) ∈ twigs N xs ++ [(N + xs.length, (Insertion.key oka v).slot)]) ∧
      ¬ (g = f ∧ cellOf u = byteCut.cell k)) ∨ (g = f ∧ u = t')) :
    Denotes E' fam (Trie.place byteCut v (List.range' N (xs.length + 1)) M f (k.take 8 ++ ksuf)) ∧
      byteCut.cell (k.take 8 ++ ksuf) = byteCut.cell k ∧
      byteCut.rest (k.take 8 ++ ksuf) = some ksuf := by
  obtain ⟨hcell₀, hrest₀⟩ := byteCut_take_append h8 h0
  have hcell' : cellOf t' = byteCut.cell k := by
    rw [ht', byteCut_cell, Nat.min_eq_right (by omega)]
    rfl
  have hD₁ : Denotes (fun g u => (E g u ∧ ¬ (g = f ∧ cellOf u = byteCut.cell k)) ∨ (g = f ∧ u = t'))
      fam (set M f (byteCut.cell k) (some (itemOf fam t'))) :=
        hD.replace (fun _ _ => Iff.rfl) hcell'
  have hitem : itemOf fam t' = .layer N := by
    rw [ht']
    exact congrArg Item.layer (hfam N le_rfl (Nat.le_add_right ..))
  rw [hitem] at hD₁
  refine ⟨?_, hcell₀, hrest₀⟩
  rw [List.range'_succ, Trie.place, hrest₀, hcell₀]
  refine hD₁.place hsh hne hfam ?_ fun g u => ?_
  · rintro m u hm (⟨h5, -⟩ | ⟨rfl, -⟩)
    · exact absurd (hEN m u h5) hm.not_gt
    · exact absurd hf hm.not_gt
  · have h5 : (g, u) ∈ twigs N xs → g ≠ f := fun h0 => (hf.trans_le (of_mem_twigs h0).1).ne'
    have h6 : g = N + xs.length → g ≠ f := fun h0 => (h0 ▸ hf.trans_le (Nat.le_add_right ..)).ne'
    rw [hE, List.mem_append, List.mem_singleton, Prod.mk.injEq]
    constructor
    · rintro (⟨h7 | h7, h8⟩ | h7)
      · exact Or.inl (Or.inl ⟨h7, h8⟩)
      · exact Or.inr h7
      · exact Or.inl (Or.inr h7)
    · rintro ((⟨h7, h8⟩ | h7) | h7 | h7)
      · exact Or.inl ⟨Or.inl h7, h8⟩
      · exact Or.inr h7
      · exact Or.inl ⟨Or.inr (Or.inl h7), fun h8 => h5 h7 h8.1⟩
      · exact Or.inl ⟨Or.inr (Or.inr h7), fun h8 => h6 h7.1 h8.1⟩

/-- **A suffix slot makes way for new layers**, and the cursor goes down into the last of them. -/
lemma Stands.makeNewLayer (hS : Stands P s G M) (hW : P.leafWidth = 15) (sz : ℕ) {R : Ptr}
    {k₀ : Bytes} {v : V} (hT : IsTree M R) (hSp : Spelled M R) (hR : R < s.heap.size)
    (hlead : Leads byteCut M R k₀ f k) (hk : k.length ≤ 1024) (hc : StopsAt s.heap G f k c l)
    (hp : c.p = some p) (hv : (l.slot p).body.lv = .value v) (hlay : isLayer (l.slot p) = false)
    (hM : M f (byteCut.cell k) = some (.value (restOf (l.slot p)) v))
    (hne : restOf (l.slot p) ≠ byteCut.rest k) :
    ∃ t pos ka G' M' f' l', KeyTable.makeNewLayer P sz s c.n p k = some (t, pos, ka) ∧
      StayHeld s.heap G t.heap G' ∧ (IsTree M' R ∧ Spelled M' R) ∧
      Trie.get byteCut M' R = Trie.get byteCut M R ∧
      Opened P ⟨t.heap, t.stores, s.roots⟩ G' M' R k₀ pos ka f' l' := by
  obtain ⟨hpi, hcell⟩ := hc.hit p hp
  have hlive : p ∈ l.permutation.live := List.mem_of_getElem? hpi
  have hleaf : s.heap.leaf c.n = l := heap_leaf hc.leaf
  obtain ⟨hsufx, hk8⟩ := hS.suffixes hc hp hlay hne
  obtain ⟨hget, hsuf⟩ := (hS.ok.fits c.n l hc.leaf).ksuf p hlive hsufx
  have hrest : restOf (l.slot p) = some (l.slot p).body.ksuf := if_pos hsufx
  rw [hrest, byteCut_rest_of_lt hk8] at hne
  have hnek : (l.slot p).body.ksuf ≠ k.drop 8 := fun h0 => hne (congrArg some h0)
  obtain ⟨t, pos, ka, G₀, f₀, l₀, e1, e2, e3, e4, e5⟩ :=
    hS.ok.makeNewLayer hW sz hc.live hc.leaf hlive hsufx hk
    (hget ▸ hne)
  obtain ⟨ksuf, xs, oka, st₀, h1, h2, h3, hpos⟩ := makeNewLayer_eq e1
  rw [hget, Option.some.injEq] at h1
  subst h1
  rw [hleaf, hv] at h3
  obtain ⟨xs', oka', ka', g1, hcmp, -, -, hxs⟩ :=
    sharedSlices_spec _ _ (k.drop 8) (Nat.lt_succ_self _) hnek
  obtain ⟨rfl, rfl, rfl⟩ : xs = xs' ∧ oka = oka' ∧ ka = ka' := by simpa [h2] using g1
  obtain ⟨G₁, hA₁⟩ := addsLayers_allocTwigs st₀ xs hS.ok.heap hxs
  have hN₁ : (s.allocTwigs P st₀ xs).heap.size = s.heap.size + xs.length := by
    rw [hA₁.size, length_twigs]
  have hfresh : (partingLeaf P oka ka (.value v) : Leaf (Cell V)).Fresh P keyLt :=
    fresh_partingLeaf hcmp
  have hA := hA₁.trans (.alloc hA₁.heap hfresh (entries_partingLeaf hcmp))
  have hcell' : cellOf (⟨(l.slot p).ikey, layerKeylenx, [], .layer s.heap.size⟩ : Slot (Cell V))
      = cellOf (l.slot p) := by
    have h64 : (l.slot p).body.keylenx = ksufKeylenx := of_decide_eq_true hsufx
    rw [cellOf, cellOf, rank, rank, h64]
    rfl
  obtain ⟨G₂, hG₂⟩ : ∃ G₂, G₁.alloc (s.allocTwigs P st₀ xs).heap.size = G₂ := ⟨_, rfl⟩
  rw [hG₂] at hA
  obtain ⟨hI, hstay, hnew, hE⟩ := hA.overwrite hS.ok.heap hc.live hc.leaf hlive hcell'
  rw [← h3] at hI hstay hnew hE
  rw [hc.fam, hcell, hN₁] at hE
  rw [List.length_append, length_twigs, List.length_singleton] at hnew
  obtain ⟨hden, hcell₀, hrest₀⟩ :=
    Denotes.part (v := v) (hS.denotes.congr (fun _ _ => Iff.rfl) fun g u hu =>
    itemOf_stay (hS.sound g u hu) hstay) (fun _ _ => hS.entry_lt) (hS.lt_size hM).1 h2 hnek
    (List.ne_nil_of_length_pos hsuf.1) hk8
    (fun m hm hm' => (hnew m hm (by omega)).2) (by rw [(Prod.mk.inj hcell).1]) hE
  have hshare : Shares byteCut (List.range' s.heap.size (xs.length + 1)).length
      (k.take 8 ++ (l.slot p).body.ksuf) k oka ka := by
    rw [List.length_range']
    exact .succ hcell₀ hrest₀ (byteCut_rest_of_lt hk8) (shares_of_sharedSlices h2 hnek).1
  obtain ⟨g2, g3, g4, g5⟩ :=
    place_spec hT (hS.fresh hR _) hshare (shares_of_sharedSlices h2 hnek).2.1 (by simp)
    (by rw [hcell₀, hrest₀, hM, hrest]) hlead
  rw [getLastD_range'] at g4 g5
  have hspell : Spelled _ R := hSp.place (v := v) (hS.fresh hR _)
    ((hS.fresh hR _).notMem (hM ▸ Option.some_ne_none _)) hshare fun u hu => by
      obtain ⟨h5, -, q, h6, h7, h8, -⟩ := hSp u f hu _ _ hM
      rw [byteCut.ext (hcell₀.trans h6.symm) (hrest₀.trans (hrest.symm.trans (h8 _ _ rfl).symm))]
      exact ⟨h5, h7⟩
  refine ⟨t, pos, ka, _, _, _, l₀, e1, hstay, ⟨g2, hspell⟩, g3,
    ⟨⟨hI, fun r hr => (hstay r (hS.ok.held r hr)).1, e2.stores,
      e2.fits, e2.noMeta⟩, hden, fun g u hu => ?_⟩, g4, g5, e3, e4, fun v' => ?_⟩
  · rcases (hE g u).mp hu with ⟨h5 | h5, -⟩ | ⟨-, rfl⟩
    · exact (hS.sound g u h5).stay hstay
    · rcases List.mem_append.mp h5 with h5 | h5
      · obtain ⟨-, h6, m, h7, h8, h9⟩ := of_mem_twigs h5
        exact Or.inr ⟨h6, m, h7, (hnew m h8 (by omega)).1⟩
      · obtain ⟨-, rfl⟩ := Prod.mk.inj (List.mem_singleton.mp h5)
        exact Or.inl ⟨isLayer_key oka v, v, rfl⟩
    · exact Or.inr ⟨rfl, _, rfl, (hnew _ le_rfl (by omega)).1⟩
  · have hr := e5 v'
    rw [← hG₂]
    refine ⟨Or.inl hpos, (if_pos hpos).trans hN₁, hr.leaf, ?_, ?_, hr.vacant⟩
    · exact (if_pos hpos).trans_le (Nat.zero_le _)
    · exact (slice_lt ka).trans_eq (if_pos hpos).symm

end MasstreeLHM.KeyTable
