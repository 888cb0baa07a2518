import MasstreeLHM.KeyTable.NewLayer

/-!
# Runs of a table of byte strings

The cursor operations, in any order and from any pointer that the table holds.  A table of strings
is used through `find_insert`, `find_locked` and `finish`, and its emptied layers are collected; a
table of slices gets its layers from `create_layer` and `attach_existing_layer`, and since its
cursors never shift their keys, nothing is collected.

`Layers.Step` has a constructor for each operation, with the search that comes before it as a
premise: `Misses` is one that finds no slot, and `Parts` one that finds another suffix.  What a
caller stores is left open.

`Ok.misses` and `Ok.parts` say what such a search has found, in the terms of the operation that
follows.  **`Step.ok`** is the step lemma and **`Reachable.ok`** the run; the assertions of the code
are conditions of the operations, so they hold in every run.
-/

namespace MasstreeLHM.KeyTable

variable {V : Type} [Inhabited V]

namespace Layers

/-- No node yet. -/
def empty : Layers V := ⟨⟨fun _ => default, 0, []⟩, fun _ => default, []⟩

/-- A search that finds no slot for its key. -/
structure Misses (kind : Kind) (s : Layers V) (r : Ptr) (q : Insertion V) (c : Cursor) : Prop where
  root : r ∈ s.roots
  ok : q.Ok kind
  find : findWith q.compare s.heap r (slice q.bytes) = some c
  miss : c.p = none

/-- A search that finds a slot with another suffix. -/
structure Parts (kind : Kind) (s : Layers V) (r : Ptr) (k : Bytes) (c : Cursor) (p : ℕ) : Prop where
  root : r ∈ s.roots
  ok : kind.IsKey k
  find : findWith (compareKey k) s.heap r (slice k) = some c
  hit : c.p = some p
  ksuf : hasKsuf ((s.heap.leaf c.n).slot p) = true
  other : (s.stores c.n).get p ≠ some (k.drop 8)

/-- One step; `sz` is the size of a leaf in bytes. -/
inductive Step (kind : Kind) (P : NodeParams) (sz : ℕ) : Layers V → Layers V → Prop
  /-- `basic_table::initialize`; the namespace has metadata in its root -/
  | init (s : Layers V) (m : Option DirectoryMeta) (st : SuffixStore) (hm : kind = .strings →
      m = none)
      (hst : SuffixStore.make sz P.leafWidth 0 = some st) :
      Step kind P sz s ⟨s.heap.alloc (.leaf (Leaf.makeRoot P m)),
        Function.update s.stores s.heap.size st, s.heap.size :: s.roots⟩
  /-- a held pointer is moved to the parent of its node -/
  | maybeParent (s : Layers V) (r : Ptr) (hr : r ∈ s.roots) :
      Step kind P sz s ⟨s.heap, s.stores, (s.heap.node r).parent.getD r :: s.roots⟩
  /-- a pointer is overwritten, or its slot removed -/
  | forget (s : Layers V) (roots : List Ptr) (hr : roots ⊆ s.roots) :
      Step kind P sz s ⟨s.heap, s.stores, roots⟩
  /-- a value or a layer pointer is overwritten -/
  | setValue (s : Layers V) (r x : ℕ) (n : Ptr) (p : ℕ) (lv : LeafValue V) (hr : r ∈ s.roots)
      (hx : x < ikeyLimit) (hn : reachLeaf s.heap r x = some n) :
      Step kind P sz s ⟨s.heap.setLeaf n ((s.heap.leaf n).assign p ⟨((s.heap.leaf n).slot p).ikey,
        { ((s.heap.leaf n).slot p).body with lv := lv }⟩), s.stores, s.roots⟩
  /-- `find_insert` and `finish(0)` -/
  | makeRoom (s : Layers V) (r : Ptr) (q : Insertion V) (c : Cursor) (h : Heap (Cell V))
      (pos : Position)
      (st : Ptr → SuffixStore) (hq : s.Misses kind r q c)
      (hm : MasstreeLHM.makeRoom P s.heap c (assigned q.bytes) = some (h, pos))
      (hst : makeRoomStores P sz s.heap s.stores c q.bytes = some st) :
        Step kind P sz s ⟨h, st, s.roots⟩
  /-- `find_insert` and `finish(1)`, `attach_existing_layer` -/
  | insert (s : Layers V) (r : Ptr) (q : Insertion V) (c : Cursor) (h : Heap (Cell V))
      (pos : Position)
      (st : Ptr → SuffixStore) (hq : s.Misses kind r q c)
      (hm : MasstreeLHM.makeRoom P s.heap c (assigned q.bytes) = some (h, pos))
      (hst : makeRoomStores P sz s.heap s.stores c q.bytes = some st) :
      Step kind P sz s ⟨MasstreeLHM.finishInsert (writeSlot h pos q.slot) pos, st, s.roots⟩
  /-- `create_layer`, `create_layer_with_meta` -/
  | createLayer (s : Layers V) (r : Ptr) (k : Bytes) (c : Cursor) (h : Heap (Cell V))
      (pos : Position)
      (st : Ptr → SuffixStore) (m : Option DirectoryMeta) (st' : SuffixStore)
      (hq : s.Misses kind r (.edge k 0) c)
      (hm : MasstreeLHM.makeRoom P s.heap c (assigned k) = some (h, pos))
      (hst : makeRoomStores P sz s.heap s.stores c k = some st)
      (hst' : SuffixStore.make sz P.leafWidth 0 = some st') :
      Step kind P sz s ⟨MasstreeLHM.finishInsert
        (writeSlot (h.alloc (.leaf (Leaf.makeRoot P m))) pos (Insertion.edge k h.size).slot) pos,
        Function.update st h.size st', h.size :: s.roots⟩
  /-- `find_insert` with a new layer, and `finish(0)` -/
  | newLayer (s : Layers V) (r : Ptr) (k : Bytes) (c : Cursor) (p : ℕ) (t : Layers V)
      (pos : Position)
      (ka : Bytes) (hq : s.Parts kind r k c p) (ht : makeNewLayer P sz s c.n p k =
        some (t, pos, ka)) :
      Step kind P sz s t
  /-- `find_insert` with a new layer, and `finish(1)` -/
  | newLayerInsert (s : Layers V) (r : Ptr) (k : Bytes) (c : Cursor) (p : ℕ) (t : Layers V)
      (pos : Position)
      (ka : Bytes) (v : V) (hq : s.Parts kind r k c p)
      (ht : makeNewLayer P sz s c.n p k = some (t, pos, ka)) :
      Step kind P sz s
        ⟨MasstreeLHM.finishInsert (writeSlot t.heap pos (Insertion.key ka v).slot) pos,
          t.stores, t.roots⟩
  /-- `finish_remove` -/
  | remove (s : Layers V) (r x : ℕ) (n : Ptr) (i : ℕ) (h : Heap (Cell V)) (hr : r ∈ s.roots)
      (hx : x < ikeyLimit) (hn : reachLeaf s.heap r x = some n) (hi : i < (s.heap.leaf n).size)
      (hf : finishRemove s.heap n i = some h) : Step kind P sz s ⟨h, s.stores, s.roots⟩
  /-- the metadata of a root is overwritten -/
  | setMeta (s : Layers V) (a : Ptr) (m : DirectoryMeta) (hkind : kind = .slices) :
      Step kind P sz s ⟨s.heap.setMeta a m, s.stores, s.roots⟩
  /-- `gc_layer`; without metadata it copies no leaf -/
  | gcLayer (s : Layers V) (r : Ptr) (copy : Ptr → Leaf (Cell V) → List (Slot (Cell V)))
      (g : GcRoot (Cell V))
      (hkind : kind = .strings) (hr : r ∈ s.roots) (hc : Copies P keyLt copy)
      (hg : gcRoot copy (2 * s.heap.size + 2) s.heap r = some g) :
      Step kind P sz s ⟨g.heap, s.stores, (if g.remove then [] else [g.layer]) ++
        s.roots.filter fun r' =>
        climbToRoot s.heap (s.heap.size + 1) r' ≠ climbToRoot s.heap (s.heap.size + 1) r⟩

/-- `find_insert` from `r` and `finish(1)`, or `attach_existing_layer`, as one call; the key must be
new. -/
def insert (P : NodeParams) (sz : ℕ) (s : Layers V) (r : Ptr) (q : Insertion V) :
    Option (Layers V) := do
  let c ← findWith q.compare s.heap r (slice q.bytes)
  if c.p = none then
    let (h, pos) ← MasstreeLHM.makeRoom P s.heap c (assigned q.bytes)
    let st ← makeRoomStores P sz s.heap s.stores c q.bytes
    return ⟨MasstreeLHM.finishInsert (writeSlot h pos q.slot) pos, st, s.roots⟩
  else none

/-- Several such calls. -/
def insertAll (P : NodeParams) (sz : ℕ) (s : Layers V) (r : Ptr) (qs : List (Insertion V)) :
    Option (Layers V) :=
  qs.foldlM (fun s q => s.insert P sz r q) s

/-- The states of all runs. -/
def Reachable (kind : Kind) (P : NodeParams) (sz : ℕ) (s : Layers V) : Prop :=
  Relation.ReflTransGen (Step kind P sz) empty s

variable {kind : Kind} {P : NodeParams} {sz : ℕ} {s s' : Layers V} {G : Ghost}

lemma empty_ok : (empty : Layers V).Ok kind P Ghost.empty := by
  refine ⟨HeapInv.empty _, fun _ hr => absurd hr List.not_mem_nil, fun _ => ⟨?_, ?_⟩,
    ?_, fun _ _ => rfl⟩
  · intro b hb
    cases hb
  · intro b hb
    cases hb
  · intro a l hl
    cases hl

namespace Ok

/-- **What a search without hit has found.** -/
lemma misses (hs : s.Ok kind P G) {r : Ptr} {q : Insertion V} {c : Cursor}
    (hq : s.Misses kind r q c) :
    ∃ l, G.live c.n ∧ s.heap.node c.n = .leaf l ∧ G.lo c.n ≤ slice q.bytes ∧
    slice q.bytes < G.hi c.n ∧
      c.i ≤ l.size ∧ (∀ t ∈ l.entries.take c.i, keyLt t q.slot) ∧
      ∀ t ∈ l.entries.drop c.i, keyLt q.slot t := by
  have hr := hs.held r hq.root
  obtain ⟨n, l, h1, -, h3, h4, h5, h6⟩ :=
    findWith_leaf q.compare hs.heap hr.known (hr.startable hs.heap)
    (slice_lt q.bytes)
  rw [hq.find, Option.some.injEq] at h6
  have hok := hs.heap.leaves n { l with parent := none } h1 (by rw [h3]; rfl)
  have hw : l.permutation.WF P.leafWidth := hok.perm
  have hsorted : (l.permutation.live.map l.slot).Pairwise keyLt := hok.sorted
  rw [List.pairwise_map] at hsorted
  have hkey : ∀ p ∈ l.permutation.live, kind.Keylenx (l.slot p).body.keylenx := fun p hp =>
    (hs.fits n l h3).keylenx _ (List.mem_map_of_mem hp)
  have hmiss : lowerBy (fun p => q.compare (l.slot p)) l.permutation.live = (c.i, none) := by
    have h7 := hq.miss
    rw [h6] at h7 ⊢
    exact Prod.ext rfl h7
  obtain ⟨g1, g2, g3⟩ := lowerBy_none
    (hsorted.imp fun {a b} h0 => Insertion.compare_pos_of_lt hq.ok h0)
    (hsorted.imp_of_mem fun {a b} ha hb h0 => Insertion.compare_neg_of_lt hq.ok
      (hkey a ha) (hkey b hb) h0)
    hmiss
  have hcn : c.n = n := by rw [h6]
  rw [hcn]
  refine ⟨l, h1, h3, h4, h5, g1.trans hw.length_live.le, ?_, ?_⟩
  · rw [Leaf.entries, ← List.map_take]
    intro t ht
    obtain ⟨p, hp, rfl⟩ := List.mem_map.mp ht
    exact Insertion.compare_pos hq.ok (g2 p hp)
  · rw [Leaf.entries, ← List.map_drop]
    intro t ht
    obtain ⟨p, hp, rfl⟩ := List.mem_map.mp ht
    exact Insertion.compare_neg hq.ok (hkey p (List.mem_of_mem_drop hp)) (g3 p hp)

/-- A search that finds a slot with another suffix makes a layer there. -/
lemma parts (hs : s.Ok kind P G) (hW : P.leafWidth = kind.leafWidth) (sz : ℕ) {r : Ptr} {k : Bytes}
    {c : Cursor} {p : ℕ} (hq : s.Parts kind r k c p) :
    ∃ t pos ka G' f l', KeyTable.makeNewLayer P sz s c.n p k = some (t, pos, ka) ∧ t.Ok kind P G' ∧
      kind.IsKey ka ∧ Ready t.heap t.stores pos ka ∧
      ∀ v, Room P t.heap G' f pos (slice ka) (fun u => keyLt u (Insertion.key ka v).slot)
        (fun u => keyLt (Insertion.key ka v).slot u) l' := by
  have hr := hs.held r hq.root
  obtain ⟨n, l, h1, -, h3, -, -, h6⟩ := findWith_leaf (compareKey k) hs.heap hr.known
    (hr.startable hs.heap) (slice_lt k)
  rw [hq.find, Option.some.injEq] at h6
  have hhit : lowerBy (fun p => compareKey k (l.slot p)) l.permutation.live = (c.i, some p) := by
    have h7 := hq.hit
    rw [h6] at h7 ⊢
    exact Prod.ext rfl h7
  have hcn : c.n = n := by rw [h6]
  have hksuf := hq.ksuf
  rw [hcn, Heap.leaf, h3] at hksuf
  have hother := hq.other
  rw [hcn] at hother ⊢
  exact hs.makeNewLayer hW sz h1 h3 (List.mem_of_getElem? (lowerBy_some hhit).1) hksuf hq.ok hother

/-- Making room where a search has missed. -/
lemma misses_makeRoom (hs : s.Ok kind P G) (hW : P.leafWidth = kind.leafWidth) {r : Ptr}
    {q : Insertion V} {c : Cursor} (hq : s.Misses kind r q c) {h : Heap (Cell V)} {pos : Position}
    {st : Ptr → SuffixStore}
    (hm : MasstreeLHM.makeRoom P s.heap c (assigned q.bytes) = some (h, pos))
    (hst : makeRoomStores P sz s.heap s.stores c q.bytes = some st) :
    ∃ G' f l', (⟨h, st, s.roots⟩ : Layers V).Ok kind P G' ∧
      Room P h G' f pos (slice q.bytes) (fun t => keyLt t q.slot) (fun t => keyLt q.slot t) l' ∧
      Ready h st pos q.bytes := by
  obtain ⟨l, h1, h2, h3, h4, h5, h6, h7⟩ := hs.misses hq
  obtain ⟨h', pos', st', G', l', e1, e2, e3, -, e4, e5⟩ :=
    hs.makeRoom hW sz h1 h2 hq.ok h3 h4 h5 h6 h7
  rw [hm, Option.some.injEq, Prod.mk.injEq] at e1
  rw [hst, Option.some.injEq] at e2
  obtain ⟨⟨rfl, rfl⟩, rfl⟩ := And.intro e1 e2
  exact ⟨G', _, l', e3, e4, e5⟩

/-- A new root leaf. -/
lemma makeRoot (hs : s.Ok kind P G) (hW : P.leafWidth = kind.leafWidth) {m : Option DirectoryMeta}
    {st : SuffixStore} (hm : kind = .strings → m = none)
    (hst : SuffixStore.make sz P.leafWidth 0 = some st) :
    (⟨s.heap.alloc (.leaf (Leaf.makeRoot P m)), Function.update s.stores s.heap.size st,
      s.heap.size :: s.roots⟩ : Layers V).Ok kind P (G.alloc s.heap.size) := by
  obtain ⟨st', h1, h2⟩ := SuffixStore.make_spec sz 0 (hW ▸ kind.leafWidth_le)
  rw [hst, Option.some.injEq] at h1
  subst h1
  exact hs.alloc (.makeRoot m) hm h2 (fits_of_live_eq_nil (by
    simp [Leaf.makeRoot, Leaf.make, Kpermuter.live, Kpermuter.makeEmpty]))

/-- A value or a layer pointer is overwritten. -/
lemma setValue (hs : s.Ok kind P G) {n : Ptr} {l : Leaf (Cell V)} (hl : s.heap.node n = .leaf l)
    (p : ℕ) (lv : LeafValue V) :
    (⟨s.heap.setLeaf n (l.assign p ⟨(l.slot p).ikey, { (l.slot p).body with lv := lv }⟩), s.stores,
      s.roots⟩ : Layers V).Ok kind P G := by
  set s' : Slot (Cell V) := ⟨(l.slot p).ikey, { (l.slot p).body with lv := lv }⟩ with hs'
  have hslot : ∀ q, ((l.assign p s').slot q).ikey = (l.slot q).ikey ∧
      ((l.assign p s').slot q).body.keylenx = (l.slot q).body.keylenx ∧
      ((l.assign p s').slot q).body.ksuf = (l.slot q).body.ksuf := by
    intro q
    rcases Leaf.slot_assign_cases l p q s' with h | ⟨rfl, h⟩ <;> rw [h] <;> exact ⟨rfl, rfl, rfl⟩
  have hrank : ∀ q, rank ((l.assign p s').slot q) = rank (l.slot q) := fun q => by
    rw [rank, rank, (hslot q).2.1]
  have hfit := hs.fits n l hl
  have hok : G.live n → LeafOk P keyLt G n { l.assign p s' with parent := none } := by
    intro hn
    have hok := hs.heap.leaves n { l with parent := none } hn (by rw [hl]; rfl)
    refine hok.rewrite rfl (List.length_set ..) rfl hok.modstate (fun q => (hslot q).1) fun q u h =>
      ?_
    exact (keyLt_congr (hslot q).1 (hrank q) (hslot u).1 (hrank u)).mpr h
  have hnew :=
    hs.setLeaf hl (l.assign p s') ⟨rfl, rfl, rfl, rfl, Iff.rfl⟩ rfl rfl hok (hs.stores n) (by
    refine ⟨?_, ?_⟩
    · intro u hu
      obtain ⟨q, hq, rfl⟩ := List.mem_map.mp hu
      rw [(hslot q).2.1]
      exact hfit.keylenx _ (List.mem_map_of_mem hq)
    · intro q hq hk
      rw [hasKsuf, (hslot q).2.1] at hk
      rw [(hslot q).2.2]
      exact hfit.ksuf q hq hk)
  rwa [Function.update_eq_self] at hnew

/-- **Removing a slot.** -/
lemma finishRemove (hs : s.Ok kind P G) {n : Ptr} {l : Leaf (Cell V)} {i : ℕ} {h : Heap (Cell V)}
    (hn : G.live n) (hl : s.heap.node n = .leaf l) (hi : i < l.size)
    (hf : MasstreeLHM.finishRemove s.heap n i = some h) :
    ∃ G', (⟨h, s.stores, s.roots⟩ : Layers V).Ok kind P G' := by
  have hok := hs.heap.leaves n { l with parent := none } hn (by rw [hl]; rfl)
  have hw : l.permutation.WF P.leafWidth := hok.perm
  have hleaf : s.heap.leaf n = l := by rw [Heap.leaf, hl]; rfl
  obtain ⟨h', G', heq, hI, hF, -⟩ := finishRemove_entries hs.heap hn hl hi
  obtain rfl : h = h' := by simpa [hf] using heq
  simp only [MasstreeLHM.finishRemove, hleaf] at hf
  set l' : Leaf (Cell V) :=
    { l with modstate := .remove, permutation := l.permutation.remove i } with hl'
  have hfit : Fits kind (s.stores n) l' := by
    refine (hs.fits n l hl).mono ?_ rfl
    change (l.permutation.remove i).live ⊆ _
    rw [hw.live_remove hi]
    exact List.eraseIdx_subset
  have hbase : AllFit kind (s.heap.setLeaf n l') s.stores := by
    have := hs.fits.setLeaf hfit n
    rwa [Function.update_eq_self] at this
  have hcont : ContentsFrom (s.heap.setLeaf n l') h := by
    split_ifs at hf
    · exact (ContentsFrom.refl _).removeLeaf hf
    · cases hf
      exact ContentsFrom.refl _
  refine ⟨G', hI, fun r hr => (hs.held r hr).frame hF, hs.stores, hbase.contents hcont,
    fun hkind => ?_⟩
  have hno := hs.noMeta hkind
  have hl₀ := hno n
  rw [hl] at hl₀
  have hl₁ : l'.directoryMeta = none := hl₀
  exact hcont.noMetadata (hno.setLeaf hl₁ n)

end Ok

/-- **Every step keeps the invariant.** -/
lemma Step.ok (hW : P.leafWidth = kind.leafWidth) (h : Step kind P sz s s') (hs : s.Ok kind P G) :
    ∃ G', s'.Ok kind P G' := by
  cases h with
  | init m st hm hst => exact ⟨_, hs.makeRoot hW hm hst⟩
  | maybeParent r hr =>
      refine ⟨G, hs.heap, fun r' hr' => ?_, hs.stores, hs.fits, hs.noMeta⟩
      rcases List.mem_cons.mp hr' with rfl | hr'
      · exact (hs.held r hr).parent hs.heap.tree
      · exact hs.held r' hr'
  | forget roots hr =>
      exact ⟨G, hs.heap, fun r hr' => hs.held r (hr hr'), hs.stores, hs.fits, hs.noMeta⟩
  | setValue r x n p lv hr hx hn =>
      obtain ⟨-, -, -, -, h2⟩ := (hs.held r hr).reach hs.heap hx hn
      exact ⟨G, hs.setValue h2 p lv⟩
  | makeRoom r q c h pos st hq hm hst =>
      obtain ⟨G', -, -, h1, -, -⟩ := hs.misses_makeRoom hW hq hm hst
      exact ⟨G', h1⟩
  | insert r q c h pos st hq hm hst =>
      obtain ⟨G', f, l', h1, h2, h3⟩ := hs.misses_makeRoom hW hq hm hst
      exact ⟨G', h1.finishInsert hq.ok h2 h3⟩
  | createLayer r k c h pos st m st' hq hm hst hst' =>
      obtain ⟨G', f, l', h1, h2, h3⟩ := hs.misses_makeRoom hW hq hm hst
      obtain ⟨rfl, -⟩ : kind = .slices ∧ _ := hq.ok
      have h4 := h1.makeRoot hW (fun h0 => by cases h0) hst' (m := m)
      have hne := (h1.heap.tree.live_lt h2.live).ne
      refine ⟨_, h4.finishInsert (q := .edge k h.size) hq.ok (h2.alloc_leaf h1.heap.tree.live_lt)
        ⟨?_, ?_⟩⟩
      · change ((h.alloc _).leaf pos.n).slot pos.p = assigned k
        rw [Heap.leaf, Heap.node_alloc, if_neg hne]
        exact h3.slot
      · change ∀ a, _ → (Function.update st h.size st' pos.n).get pos.p = some a
        rw [Function.update_of_ne hne]
        exact h3.ksuf
  | newLayer r k c p t pos ka hq ht =>
      obtain ⟨t', pos', ka', G', f, l', h1, h2, -, -, -⟩ := hs.parts hW sz hq
      rw [ht, Option.some.injEq, Prod.mk.injEq] at h1
      obtain rfl := h1.1
      exact ⟨G', h2⟩
  | newLayerInsert r k c p t pos ka v hq ht =>
      obtain ⟨t', pos', ka', G', f, l', h1, h2, h3, h4, h5⟩ := hs.parts hW sz hq
      rw [ht, Option.some.injEq, Prod.mk.injEq, Prod.mk.injEq] at h1
      obtain ⟨rfl, rfl, rfl⟩ := h1
      exact ⟨G', h2.finishInsert (q := .key ka v) h3 (h5 v) h4⟩
  | remove r x n i h hr hx hn hi hf =>
      obtain ⟨h1, -, -, -, h2⟩ := (hs.held r hr).reach hs.heap hx hn
      exact hs.finishRemove h1 h2 hi hf
  | setMeta a m hkind =>
      have hsh := SameShape.setMeta (h := s.heap) (a := a) (m := m)
      refine ⟨G, hs.heap.setMeta, fun r hr => ⟨hsh.known.mpr (hs.held r hr).known, fun h0 =>
        (hs.held r hr).leaf ((hsh.isLeaf r).symm.trans h0)⟩, hs.stores,
        fun b l hl => ?_, fun h0 => ?_⟩
      · rcases node_setMeta (h := s.heap) (a := a) (m := m) b with h1 | h1
        · exact hs.fits b l (h1 ▸ hl)
        · cases hb : s.heap.node b with
          | leaf l₀ =>
              rw [h1, hb] at hl
              cases hl
              exact (hs.fits b l₀ hb).mono (List.Subset.refl _) rfl
          | internode q =>
              rw [h1, hb] at hl
              cases hl
      · rw [hkind] at h0
        cases h0
  | gcLayer r copy g hkind hr hc hg =>
      obtain ⟨G', h1, h2⟩ := Held.gcLayer hs.heap hs.held hr hc hg
      have hcont := ((ContentsFrom.refl s.heap).gcRoot copy (hs.noMeta hkind) _ hg).1
      exact ⟨G', h1, h2, hs.stores, hs.fits.contents hcont,
        fun _ => hcont.noMetadata (hs.noMeta hkind)⟩

/-- **The invariant holds in every run.** -/
theorem Reachable.ok (hW : P.leafWidth = kind.leafWidth) (h : Reachable kind P sz s) :
    ∃ G, s.Ok kind P G := by
  induction h with
  | refl => exact ⟨_, empty_ok⟩
  | tail _ hstep ih =>
      obtain ⟨G, hs⟩ := ih
      exact hstep.ok hW hs

/-- The one-call form is such a step. -/
lemma Reachable.insert (h : Reachable kind P sz s) {r : Ptr} {q : Insertion V} (hr : r ∈ s.roots)
    (hq : q.Ok kind) (hi : s.insert P sz r q = some s') : Reachable kind P sz s' := by
  simp only [Layers.insert, Option.bind_eq_bind, Option.bind_eq_some_iff] at hi
  obtain ⟨c, hc, hi⟩ := hi
  split_ifs at hi with hp
  simp only [Option.bind_eq_some_iff, Option.pure_def, Option.some.injEq] at hi
  obtain ⟨⟨h', pos⟩, hm, st, hst, rfl⟩ := hi
  exact h.tail (.insert s r q c h' pos st ⟨hr, hq, hc, hp⟩ hm hst)

lemma insert_roots {r : Ptr} {q : Insertion V} (hi : s.insert P sz r q = some s') :
    s'.roots = s.roots := by
  simp only [Layers.insert, Option.bind_eq_bind, Option.bind_eq_some_iff] at hi
  obtain ⟨c, -, hi⟩ := hi
  split_ifs at hi
  simp only [Option.bind_eq_some_iff, Option.pure_def, Option.some.injEq] at hi
  obtain ⟨_, -, _, -, rfl⟩ := hi
  rfl

lemma Reachable.insertAll {r : Ptr} {qs : List (Insertion V)} (h : Reachable kind P sz s)
    (hr : r ∈ s.roots) (hq : ∀ q ∈ qs, q.Ok kind) (hi : s.insertAll P sz r qs = some s') :
    Reachable kind P sz s' := by
  induction qs generalizing s with
  | nil =>
      cases hi
      exact h
  | cons q qs ih =>
      simp only [Layers.insertAll, List.foldlM_cons, Option.bind_eq_bind,
        Option.bind_eq_some_iff] at hi
      obtain ⟨t, ht, hi⟩ := hi
      exact ih (h.insert hr (hq q List.mem_cons_self) ht) (insert_roots ht ▸ hr)
        (fun q' hq' => hq q' (List.mem_cons_of_mem _ hq')) hi

end Layers

end MasstreeLHM.KeyTable
