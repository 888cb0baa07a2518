import MasstreeLHM.KeyTable.Room

/-!
# A layer for two keys of one slice

`make_new_layer`: a suffix slot whose key shares its slice with a new key becomes a layer.  There is
one leaf for each further slice that the keys share, and one for both keys where they part.

`sharedSlices` is the loop that compares the keys, and `sharedSlices_spec` says that it ends where
they part; it would not for equal keys, which never come here.  `twigLeaf` is a leaf for a shared
slice, and `partingLeaf` the last one, in which the old key is live and the new one has its slot.
`partingLeaf_spec` orders the two as the comparison does.

The rest is about the invariant.  `Keeps` says what the allocation of leaves keeps, and `allocTwigs`
is the loop.  **`Layers.Ok.makeNewLayer`** says that the function keeps the invariant of the table,
that no assertion fails, and that its cursor stands at a slot with its key that is not live.
-/

namespace MasstreeLHM.KeyTable

/-- `compare` of two keys. -/
def compareKeys (a b : Bytes) : ℤ := (keyOf a).compare (keyOf b)

/-- The loop of `make_new_layer`: the slices that both keys share, and what is left of the keys. -/
def sharedSlices : ℕ → Bytes → Bytes → Option (List ℕ × Bytes × Bytes)
  | 0, _, _ => none
  | fuel + 1, oka, ka =>
      if compareKeys oka ka = 0 then
        (sharedSlices fuel (oka.drop 8) (ka.drop 8)).map fun r => (slice oka :: r.1, r.2)
      else some ([], oka, ka)

section

variable {a b : Bytes}

lemma compareKeys_neg : compareKeys a b < 0 ↔
    slice a < slice b ∨ (slice a = slice b ∧ min a.length 9 < min b.length 9) := by
  simp only [compareKeys, Key.compare, Key.compareIkey, keyOf, compareInts]
  split_ifs <;> omega

lemma compareKeys_pos : 0 < compareKeys a b ↔
    slice b < slice a ∨ (slice b = slice a ∧ min b.length 9 < min a.length 9) := by
  simp only [compareKeys, Key.compare, Key.compareIkey, keyOf, compareInts]
  split_ifs <;> omega

/-- Different keys that compare equal both go on behind their slice. -/
lemma of_compareKeys_eq_zero (h : compareKeys a b = 0) (hne : a ≠ b) :
    8 < a.length ∧ 8 < b.length ∧ a.drop 8 ≠ b.drop 8 := by
  have hslice : slice a = slice b := by
    have h1 := compareKeys_neg (a := a) (b := b)
    have h2 := compareKeys_pos (a := a) (b := b)
    omega
  have hlen : min a.length 9 = min b.length 9 := by
    have h1 := compareKeys_neg (a := a) (b := b)
    have h2 := compareKeys_pos (a := a) (b := b)
    omega
  by_cases ha : a.length ≤ 8
  · refine absurd ?_ hne
    have := prefix_of_slice_eq hslice (by omega) ha
    rwa [List.take_of_length_le (by omega)] at this
  · refine ⟨by omega, by omega, fun h0 => hne ?_⟩
    have htake := take_eq_of_slice_eq hslice (by omega) (by omega)
    rw [← List.take_append_drop 8 a, htake, h0, List.take_append_drop]

lemma slice_lt (a : Bytes) : slice a < ikeyLimit := by
  have := valueBE_lt (padTo 8 a)
  rw [padTo_length] at this
  exact this

/-- **The loop ends** where the keys part. -/
lemma sharedSlices_spec : ∀ (fuel : ℕ) (oka ka : Bytes), oka.length < fuel → oka ≠ ka →
    ∃ xs oka' ka', sharedSlices fuel oka ka = some (xs, oka', ka') ∧ compareKeys oka' ka' ≠ 0 ∧
      oka'.length ≤ oka.length ∧ ka'.length ≤ ka.length ∧ ∀ x ∈ xs, x < ikeyLimit
  | 0, _, _, hf, _ => absurd hf (Nat.not_lt_zero _)
  | fuel + 1, oka, ka, hf, hne => by
      rw [sharedSlices]
      split_ifs with h
      · obtain ⟨h1, h2, h3⟩ := of_compareKeys_eq_zero h hne
        obtain ⟨xs, oka', ka', g1, g2, g3, g4, g5⟩ := sharedSlices_spec fuel
          (oka.drop 8) (ka.drop 8) (by rw [List.length_drop]; omega) h3
        rw [List.length_drop] at g3 g4
        refine ⟨slice oka :: xs, oka', ka', by rw [g1]; rfl, g2, by omega, by omega, ?_⟩
        intro x hx
        rcases List.mem_cons.mp hx with rfl | hx
        · exact slice_lt oka
        · exact g5 x hx
      · exact ⟨[], oka, ka, rfl, h, le_rfl, le_rfl, by simp⟩

end

variable {V : Type} [Inhabited V]

/-- A leaf for a slice that both keys share: it has the slot of the next layer. -/
def twigLeaf (P : NodeParams) (x : ℕ) (n : Ptr) : Leaf (Cell V) :=
  { (Leaf.makeRoot P none).assign 0 ⟨x, layerKeylenx, [], .layer n⟩ with
    permutation := Kpermuter.makeSorted P.leafWidth 1 }

/-- The leaf where the keys part: the old one is live, the new one has its slot. -/
def partingLeaf (P : NodeParams) (oka ka : Bytes) (lv : LeafValue V) : Leaf (Cell V) :=
  let kcmp := compareKeys oka ka
  let l : Leaf (Cell V) := (Leaf.makeRoot P none).assign 0 (assigned (if kcmp < 0 then oka else ka))
  let l := l.assign 1 (assigned (if kcmp < 0 then ka else oka))
  let p := if 0 < kcmp then 1 else 0
  let l := l.assign p ⟨(l.slot p).ikey, { (l.slot p).body with lv := lv }⟩
  { l with permutation :=
      if kcmp < 0 then Kpermuter.makeSorted P.leafWidth 1
      else (Kpermuter.makeSorted P.leafWidth 2).removeToBack 0 }

/-- The bag of that leaf. -/
def partingStore (P : NodeParams) (sz : ℕ) (oka ka : Bytes) : Option SuffixStore :=
  let kcmp := compareKeys oka ka
  let ksufsize :=
    if (keyOf ka).hasSuffix ∨ (keyOf oka).hasSuffix then
      ((ka.length - 8) + (oka.length - 8)) * (P.leafWidth / 2) + Stringbag.overhead 1 P.leafWidth
    else 0
  (SuffixStore.make sz P.leafWidth ksufsize).bind fun st =>
    st.assignInitialize P.leafWidth
      [suffix (assigned (if kcmp < 0 then oka else ka) : Slot (Cell V)),
        suffix (assigned (if kcmp < 0 then ka else oka) : Slot (Cell V))]

/-- One leaf for every shared slice, each with the address of the next. -/
def Layers.allocTwigs (P : NodeParams) (st : SuffixStore) : Layers V → List ℕ → Layers V
  | s, [] => s
  | s, x :: xs =>
      allocTwigs P st
        ⟨s.heap.alloc (.leaf (twigLeaf P x (s.heap.size + 1))),
          Function.update s.stores s.heap.size st, s.heap.size :: s.roots⟩ xs

/-- `make_new_layer` for the key `k` and the suffix slot `p` of leaf `n`: the new nodes, where the
cursor stands, and what is left of its key. -/
def makeNewLayer (P : NodeParams) (sz : ℕ) (s : Layers V) (n : Ptr) (p : ℕ) (k : Bytes) :
    Option (Layers V × Position × Bytes) := do
  let l := s.heap.leaf n
  let ksuf ← (s.stores n).get p
  let (xs, oka, ka) ← sharedSlices (ksuf.length + 1) ksuf (k.drop 8)
  let twigStore ← SuffixStore.make sz P.leafWidth 0
  let st ← partingStore (V := V) P sz oka ka
  let t := s.allocTwigs P twigStore xs
  let nl := t.heap.size
  let h := t.heap.alloc (.leaf (partingLeaf P oka ka (l.slot p).body.lv))
  let h := h.setLeaf n (l.assign p ⟨(l.slot p).ikey, layerKeylenx, [], .layer s.heap.size⟩)
  let i := if compareKeys oka ka < 0 then 1 else 0
  return (⟨h, Function.update t.stores nl st, nl :: t.roots⟩, ⟨nl, i, i⟩, ka)

/-! ## The new leaves -/

section

variable {kind : Kind} {P : NodeParams} {st : SuffixStore} {oka ka : Bytes}
  {lv : LeafValue V} {x : ℕ}
  {n : Ptr}

lemma keylenx_layer (kind : Kind) : kind.Keylenx layerKeylenx := by
  cases kind with
  | strings => exact Or.inr (Or.inr rfl)
  | slices => exact Or.inr rfl

lemma twigLeaf_entries (P : NodeParams) (x : ℕ) (n : Ptr) :
    (twigLeaf P x n : Leaf (Cell V)).entries = [⟨x, layerKeylenx, [], .layer n⟩] := by
  have h3 := P.three_le_leafWidth
  have hlive : (twigLeaf P x n : Leaf (Cell V)).permutation.live = [0] := Kpermuter.live_makeSorted
  rw [Leaf.entries, hlive, List.map_singleton]
  change [((Leaf.makeRoot P none).assign 0 _).slot 0] = _
  rw [Leaf.slot_assign (by simp [Leaf.makeRoot]; omega), if_pos rfl]

lemma fresh_twigLeaf (hx : x < ikeyLimit) : (twigLeaf P x n : Leaf (Cell V)).Fresh P keyLt := by
  have h3 := P.three_le_leafWidth
  refine ⟨rfl, rfl, rfl, rfl, rfl, by simp [twigLeaf, Leaf.assign, Leaf.makeRoot, Leaf.make],
    .makeSorted (by omega), by simp [twigLeaf, Leaf.assign, Leaf.makeRoot], ?_, ?_⟩ <;>
    rw [twigLeaf_entries]
  · exact List.pairwise_singleton _ _
  · simpa using hx

lemma fits_twigLeaf : Fits kind st (twigLeaf P x n : Leaf (Cell V)) := by
  have hent := twigLeaf_entries (V := V) P x n
  have hmem : ∀ s ∈ (twigLeaf P x n : Leaf (Cell V)).entries, s.body.keylenx = layerKeylenx := by
    rw [hent]
    simp
  refine ⟨fun s hs => hmem s hs ▸ keylenx_layer kind, fun p hp hk => ?_⟩
  have := hmem _ (List.mem_map_of_mem hp)
  rw [hasKsuf, this] at hk
  exact absurd hk (by decide)

/-- **The leaf where the keys part** has the old key live and the new one in its free slot. -/
lemma partingLeaf_spec (P : NodeParams) (lv : LeafValue V) (hcmp : compareKeys oka ka ≠ 0) :
    let l : Leaf (Cell V) := partingLeaf P oka ka lv
    let i := if compareKeys oka ka < 0 then 1 else 0
    l.permutation.WF P.leafWidth ∧ l.slots.length = P.leafWidth ∧ l.permutation.live = [1 - i] ∧
      l.permutation.back = i ∧ l.slot i = assigned ka ∧
      l.slot (1 - i) = ⟨slice oka, { (assigned oka : Slot (Cell V)).body with lv := lv }⟩ := by
  intro l i
  have h3 := P.three_le_leafWidth
  have h0 : 0 < P.leafWidth := by omega
  have h1 : 1 < P.leafWidth := by omega
  rcases lt_or_gt_of_ne hcmp with hlt | hgt
  · have hi : i = 1 := if_pos hlt
    have hperm : l.permutation = Kpermuter.makeSorted P.leafWidth 1 := if_pos hlt
    rw [hi, hperm]
    refine ⟨.makeSorted (by omega), by simp [l, partingLeaf, Leaf.assign, Leaf.makeRoot],
      Kpermuter.live_makeSorted, Kpermuter.back_makeSorted h1, ?_, ?_⟩
    · simp [l, partingLeaf, Leaf.slot, Leaf.assign, Leaf.makeRoot, hlt, hlt.le, h1]
    · have hle : ¬ 0 < compareKeys oka ka := by omega
      simp [l, partingLeaf, Leaf.slot, Leaf.assign, Leaf.makeRoot, hlt, hle, h0]
  · have hge : ¬ compareKeys oka ka < 0 := by omega
    have hi : i = 0 := if_neg hge
    have hw : (Kpermuter.makeSorted P.leafWidth 2).WF P.leafWidth := .makeSorted (by omega)
    have hperm : l.permutation = (Kpermuter.makeSorted P.leafWidth 2).removeToBack 0 := if_neg hge
    rw [hi, hperm]
    refine ⟨hw.removeToBack (show 0 < 2 by omega), by simp [l, partingLeaf,
      Leaf.assign, Leaf.makeRoot], ?_, ?_, ?_, ?_⟩
    · rw [hw.live_removeToBack (show 0 < 2 by omega), Kpermuter.live_makeSorted]
      rfl
    · rw [Kpermuter.WF.back_removeToBack]
      simp [Kpermuter.get, Kpermuter.makeSorted]
    · simp [l, partingLeaf, Leaf.slot, Leaf.assign, Leaf.makeRoot, hge, hgt, h0]
    · simp [l, partingLeaf, Leaf.slot, Leaf.assign, Leaf.makeRoot, hge, hgt, h1]

/-- The bag of that leaf has both suffixes. -/
lemma partingStore_spec (hW : P.leafWidth ≤ 15) (ho : kind.IsKey oka)
    (hk : kind.IsKey ka) (sz : ℕ) :
    ∃ st, partingStore (V := V) P sz oka ka = some st ∧ st.Ok P.leafWidth ∧
      let i := if compareKeys oka ka < 0 then 1 else 0
      (∀ a, suffix (assigned oka : Slot (Cell V)) = some a → st.get (1 - i) = some a) ∧
      ∀ a, suffix (assigned ka : Slot (Cell V)) = some a → st.get i = some a := by
  have h3 := P.three_le_leafWidth
  rw [partingStore]
  obtain ⟨st₀, h1, h2⟩ := SuffixStore.make_spec sz
    (if (keyOf ka).hasSuffix ∨ (keyOf oka).hasSuffix then
      ((ka.length - 8) + (oka.length - 8)) * (P.leafWidth / 2) + Stringbag.overhead 1 P.leafWidth
    else 0) hW
  obtain ⟨st, h4, h5, h6⟩ := SuffixStore.assignInitialize_spec h2 hW
    [suffix (assigned (if compareKeys oka ka < 0 then oka else ka) : Slot (Cell V)),
      suffix (assigned (if compareKeys oka ka < 0 then ka else oka) : Slot (Cell V))]
    (by simp only [List.length_cons, List.length_nil]; omega) (by
      intro a ha
      simp only [List.mem_cons, List.not_mem_nil, or_false] at ha
      rcases ha with ha | ha
      · split_ifs at ha
        · exact isSuffix_of_assigned ho ha.symm
        · exact isSuffix_of_assigned hk ha.symm
      · split_ifs at ha
        · exact isSuffix_of_assigned hk ha.symm
        · exact isSuffix_of_assigned ho ha.symm)
  refine ⟨st, by simp only [h1, Option.bind_some]; exact h4, h5, ?_⟩
  by_cases hlt : compareKeys oka ka < 0
  · simp only [if_pos hlt] at h6 ⊢
    exact ⟨fun a ha => h6 0 a (by rw [← ha]; rfl), fun a ha => h6 1 a (by rw [← ha]; rfl)⟩
  · simp only [if_neg hlt] at h6 ⊢
    exact ⟨fun a ha => h6 1 a (by rw [← ha]; rfl), fun a ha => h6 0 a (by rw [← ha]; rfl)⟩

/-- What the allocation of leaves keeps. -/
structure Keeps (s : Layers V) (G : Ghost) (t : Layers V) (G' : Ghost) : Prop where
  size : s.heap.size ≤ t.heap.size
  node : ∀ a < s.heap.size, t.heap.node a = s.heap.node a
  stores : ∀ a < s.heap.size, t.stores a = s.stores a
  live : ∀ a < s.heap.size, G'.live a ↔ G.live a

namespace Layers.Ok

variable {s : Layers V} {G : Ghost}

omit [Inhabited V] in
lemma keeps_alloc (s : Layers V) (G : Ghost) (l : Leaf (Cell V)) (st : SuffixStore) :
    Keeps s G ⟨s.heap.alloc (.leaf l), Function.update s.stores s.heap.size st,
      s.heap.size :: s.roots⟩
      (G.alloc s.heap.size) where
  size := Nat.le_succ _
  node a ha := by rw [Heap.node_alloc, if_neg ha.ne]
  stores a ha := Function.update_of_ne ha.ne _ _
  live a ha := or_iff_right ha.ne

lemma allocTwigs (hst : st.Ok P.leafWidth) :
    ∀ (xs : List ℕ) {s : Layers V} {G : Ghost}, s.Ok kind P G →
    (∀ x ∈ xs, x < ikeyLimit) →
    ∃ G', (s.allocTwigs P st xs).Ok kind P G' ∧ Keeps s G (s.allocTwigs P st xs) G'
  | [], s, G, hs, _ => ⟨G, hs, le_rfl, fun _ _ => rfl, fun _ _ => rfl, fun _ _ => Iff.rfl⟩
  | x :: xs, s, G, hs, hx => by
      obtain ⟨G', h1, h2⟩ := allocTwigs hst xs
        (hs.alloc (l := twigLeaf P x (s.heap.size + 1)) (fresh_twigLeaf (hx x List.mem_cons_self))
          (fun _ => rfl) hst fits_twigLeaf) (fun y hy => hx y (List.mem_cons_of_mem _ hy))
      have hk := keeps_alloc s G (twigLeaf P x (s.heap.size + 1)) st
      refine ⟨G', h1, hk.size.trans h2.size, fun a ha => ?_, fun a ha => ?_, fun a ha => ?_⟩
      · exact (h2.node a (ha.trans_le hk.size)).trans (hk.node a ha)
      · exact (h2.stores a (ha.trans_le hk.size)).trans (hk.stores a ha)
      · exact (h2.live a (ha.trans_le hk.size)).trans (hk.live a ha)

end Layers.Ok

lemma fresh_partingLeaf (hcmp : compareKeys oka ka ≠ 0) :
    (partingLeaf P oka ka lv : Leaf (Cell V)).Fresh P keyLt := by
  obtain ⟨h1, h2, h3, -, -, h6⟩ := partingLeaf_spec P lv hcmp
  have hent : (partingLeaf P oka ka lv : Leaf (Cell V)).entries
      = [⟨slice oka, { (assigned oka : Slot (Cell V)).body with lv := lv }⟩] := by
    rw [Leaf.entries, h3, List.map_singleton, h6]
  refine ⟨rfl, rfl, rfl, rfl, rfl, by simp [partingLeaf, Leaf.assign, Leaf.makeRoot, Leaf.make],
    h1, h2, ?_, ?_⟩ <;> rw [hent]
  · exact List.pairwise_singleton _ _
  · simpa using slice_lt oka

lemma fits_partingLeaf (hcmp : compareKeys oka ka ≠ 0) (ho : kind.IsKey oka)
    (hst : ∀ a, suffix (assigned oka : Slot (Cell V)) = some a →
      st.get (1 - if compareKeys oka ka < 0 then 1 else 0) = some a) :
    Fits kind st (partingLeaf P oka ka lv) := by
  obtain ⟨-, -, h3, -, -, h6⟩ := partingLeaf_spec P lv hcmp
  have hent : (partingLeaf P oka ka lv : Leaf (Cell V)).entries
      = [⟨slice oka, { (assigned oka : Slot (Cell V)).body with lv := lv }⟩] := by
    rw [Leaf.entries, h3, List.map_singleton, h6]
  refine ⟨?_, ?_⟩
  · rw [hent]
    intro s hs
    rw [List.mem_singleton.mp hs]
    exact Insertion.Ok.keylenx (q := .key oka default) ho
  · rw [h3]
    intro p hp hk
    rw [List.mem_singleton.mp hp] at hk ⊢
    rw [h6] at hk ⊢
    have hsuf : suffix (assigned oka : Slot (Cell V)) =
      some (assigned oka : Slot (Cell V)).body.ksuf :=
      if_pos hk
    exact ⟨hst _ hsuf, isSuffix_of_assigned ho hsuf⟩

/-- The slot of a new layer takes the place of the suffix slot. -/
lemma Layers.Ok.layerSlot {s : Layers V} {G : Ghost} (hs : s.Ok kind P G)
    {l : Leaf (Cell V)} {p : ℕ} (hl : s.heap.node n = .leaf l) (hk : hasKsuf (l.slot p) = true)
    (m : Ptr) :
    (⟨s.heap.setLeaf n (l.assign p ⟨(l.slot p).ikey, layerKeylenx, [], .layer m⟩),
      s.stores, s.roots⟩ :
      Layers V).Ok kind P G := by
  set s' : Slot (Cell V) := ⟨(l.slot p).ikey, layerKeylenx, [], .layer m⟩ with hs'
  have hcases := fun r => Leaf.slot_assign_cases l p r s'
  have hrank : ∀ r, ((l.assign p s').slot r).ikey = (l.slot r).ikey ∧
      rank ((l.assign p s').slot r) = rank (l.slot r) := by
    intro r
    rcases hcases r with h | ⟨rfl, h⟩
    · rw [h]
      exact ⟨rfl, rfl⟩
    · have h64 : (l.slot r).body.keylenx = ksufKeylenx := of_decide_eq_true hk
      rw [h, rank, rank, h64]
      exact ⟨rfl, rfl⟩
  have hfit := hs.fits n l hl
  have hok : G.live n → LeafOk P keyLt G n { l.assign p s' with parent := none } := by
    intro hn
    have hok := hs.heap.leaves n { l with parent := none } hn (by rw [hl]; rfl)
    refine hok.rewrite rfl (List.length_set ..) rfl hok.modstate (fun r => (hrank r).1) fun r u h =>
      ?_
    exact (keyLt_congr (hrank r).1 (hrank r).2 (hrank u).1 (hrank u).2).mpr h
  have hnew :=
    hs.setLeaf hl (l.assign p s') ⟨rfl, rfl, rfl, rfl, Iff.rfl⟩ rfl rfl hok (hs.stores n) (by
    refine ⟨?_, ?_⟩
    · intro u hu
      obtain ⟨r, hr, rfl⟩ := List.mem_map.mp hu
      rcases hcases r with h | ⟨rfl, h⟩
      · rw [h]
        exact hfit.keylenx _ (List.mem_map_of_mem hr)
      · rw [h]
        exact keylenx_layer kind
    · intro r hr hk
      rcases hcases r with h | ⟨rfl, h⟩
      · rw [h] at hk ⊢
        exact hfit.ksuf r hr hk
      · rw [h] at hk
        exact absurd (of_decide_eq_true hk) (show ¬ layerKeylenx = ksufKeylenx by decide))
  rwa [Function.update_eq_self] at hnew

/-- **`make_new_layer`** keeps the invariant; its cursor stands at a slot with its key that is not
live. -/
lemma Layers.Ok.makeNewLayer {s : Layers V} {G : Ghost} (hs : s.Ok kind P G)
    (hW : P.leafWidth = kind.leafWidth) (sz : ℕ) (hn : G.live n) {l : Leaf (Cell V)}
    (hl : s.heap.node n = .leaf l) {p : ℕ} (hp : p ∈ l.permutation.live)
    (hk : hasKsuf (l.slot p) = true) {k : Bytes} (hkey : kind.IsKey k)
      (hne : (s.stores n).get p ≠ some (k.drop 8)) :
    ∃ t pos ka G' f l', KeyTable.makeNewLayer P sz s n p k = some (t, pos, ka) ∧ t.Ok kind P G' ∧
      kind.IsKey ka ∧ Ready t.heap t.stores pos ka ∧
      ∀ v, Room P t.heap G' f pos (slice ka) (fun u => keyLt u (Insertion.key ka v).slot)
        (fun u => keyLt (Insertion.key ka v).slot u) l' := by
  have hleaf : s.heap.leaf n = l := by rw [Heap.leaf, hl]; rfl
  obtain ⟨hget, hsuf⟩ := (hs.fits n l hl).ksuf p hp hk
  -- only a table of strings has suffixes
  obtain rfl : kind = .strings := by
    cases kind with
    | strings => rfl
    | slices =>
        have h64 : (l.slot p).body.keylenx = ksufKeylenx := of_decide_eq_true hk
        have h := (hs.fits n l hl).keylenx _ (List.mem_map_of_mem hp)
        rw [h64] at h
        exact absurd h (by simp [Kind.Keylenx, ksufKeylenx, layerKeylenx])
  set ksuf := (l.slot p).body.ksuf with hksuf
  have hlen : ksuf.length ≤ 1016 := hsuf.2
  have hklen : k.length ≤ 1024 := hkey
  obtain ⟨xs, oka, ka, h1, hcmp, h3, h4, h5⟩ := sharedSlices_spec (ksuf.length + 1) ksuf (k.drop 8)
    (Nat.lt_succ_self _) (fun h0 => hne (by rw [hget, h0]))
  have ho : Kind.strings.IsKey oka := show oka.length ≤ 1024 by omega
  have hka : Kind.strings.IsKey ka := show ka.length ≤ 1024 by rw [List.length_drop] at h4; omega
  obtain ⟨st₀, e1, e2⟩ := SuffixStore.make_spec sz 0 (hW ▸ Kind.leafWidth_le .strings)
  obtain ⟨st, e3, e4, e5, e6⟩ :=
    partingStore_spec (V := V) (hW ▸ Kind.leafWidth_le .strings) ho hka sz
  obtain ⟨G₁, hs₁, hk₁⟩ := Layers.Ok.allocTwigs e2 xs hs h5
  set t₁ := s.allocTwigs P st₀ xs with ht₁
  set pl : Leaf (Cell V) := partingLeaf P oka ka (l.slot p).body.lv with hpl
  have hfresh : pl.Fresh P keyLt := fresh_partingLeaf hcmp
  have hs₂ := hs₁.alloc hfresh (fun _ => rfl) e4 (fits_partingLeaf hcmp ho e5)
  have hns := hs.heap.tree.live_lt hn
  have hns₁ : n < t₁.heap.size := hns.trans_le hk₁.size
  have hl₂ : (t₁.heap.alloc (.leaf pl)).node n = .leaf l := by
    rw [Heap.node_alloc, if_neg hns₁.ne, hk₁.node n hns, hl]
  have hs₃ := hs₂.layerSlot hl₂ hk s.heap.size
  obtain ⟨g1, g2, g3, g4, g5, g6⟩ := partingLeaf_spec P (l.slot p).body.lv hcmp
  have hent :
    pl.entries =
      [⟨slice oka, { (assigned oka : Slot (Cell V)).body with lv := (l.slot p).body.lv }⟩] := by
    rw [Leaf.entries, g3, List.map_singleton, g6]
  have hsize : pl.size = 1 := by
    have := g1.length_live
    rw [g3] at this
    exact this.symm
  have hpl : ((t₁.heap.alloc (.leaf pl)).setLeaf n
      (l.assign p ⟨(l.slot p).ikey, layerKeylenx, [], .layer s.heap.size⟩)).node t₁.heap.size =
      .leaf pl := by
    rw [Heap.node_setLeaf, if_neg hns₁.ne', Heap.node_alloc, if_pos rfl]
  have h3 := P.three_le_leafWidth
  have hrank :
    rank (⟨slice oka, { (assigned oka : Slot (Cell V)).body with lv := (l.slot p).body.lv }⟩ :
      Slot (Cell V)) = min oka.length 9 := rank_assigned
  refine ⟨_, ⟨t₁.heap.size, if compareKeys oka ka < 0 then 1 else 0,
    if compareKeys oka ka < 0 then 1 else 0⟩, ka, _, t₁.heap.size, pl, ?_, hs₃, hka, ⟨?_, ?_⟩,
      fun v => ⟨Or.inl rfl,
    if_pos rfl, hpl, ?_, ?_, ?_, g4, ?_, ?_, ?_, Or.inr (Or.inl rfl)⟩⟩
  · simp only [KeyTable.makeNewLayer, hget, h1, e1, e3, hleaf, Option.bind_eq_bind,
      Option.bind_some]
    rfl
  · rw [Heap.leaf, hpl]
    exact g5
  · simpa using e6
  · rw [show (G₁.alloc t₁.heap.size).lo t₁.heap.size = 0 from if_pos rfl]
    exact Nat.zero_le _
  · rw [show (G₁.alloc t₁.heap.size).hi t₁.heap.size = ikeyLimit from if_pos rfl]
    exact slice_lt ka
  · rw [hsize, hW]
    decide
  · rw [hsize]
    change (if compareKeys oka ka < 0 then 1 else 0) ≤ 1
    split_ifs <;> decide
  · rw [hent]
    split_ifs with hlt
    · intro u hu
      rw [List.mem_singleton.mp (List.mem_of_mem_take hu), keyLt, hrank, rank_slot_key]
      exact compareKeys_neg.mp hlt
    · simp
  · rw [hent]
    split_ifs with hlt
    · simp
    · intro u hu
      rw [List.mem_singleton.mp (List.mem_of_mem_drop hu), keyLt, hrank, rank_slot_key]
      exact compareKeys_pos.mp (by omega)

end

end MasstreeLHM.KeyTable
