import MasstreeLHM.KeyTable.Bags
import MasstreeLHM.Layers.Contents
import MasstreeLHM.Layers.Steps

/-!
# Inserting into a table of byte strings

The state of a table is its nodes, their string bags, and the pointers into its layers that it
holds.  A search without hit is followed by making room for the key, which may split the leaf, and
by making the new slot live; every slot then has its suffix in the bag of its leaf.

`Layers` is that state and `Layers.Ok` its invariant: the nodes are in order with the slots sorted
by `keyLt`, the held pointers are ones that a cursor may start from, and all leaves fit their bags
(`AllFit`).  `ContentsFrom` moves `AllFit` across everything that does not look into leaves.

`Ok.setLeaf` and `Ok.alloc` are the rules for one leaf with its bag.  From them come **`Ok.split`**
and **`Ok.makeSplit`**, with all the assertions on the way, **`Ok.makeRoom`**, and
**`Ok.finishInsert`**, which makes the new slot live.  `Ready` is what the cursor's slot has in
between.
-/

namespace MasstreeLHM.KeyTable

variable {V : Type} [Inhabited V]

/-- The nodes of a table, their string bags, and the pointers into its layers that `root_` and the
slots hold. -/
structure Layers (V : Type) where
  heap : Heap (Cell V)
  stores : Ptr → SuffixStore
  roots : List Ptr

/-- All leaves have the suffixes of their slots in their bags. -/
def AllFit (kind : Kind) (h : Heap (Cell V)) (stores : Ptr → SuffixStore) : Prop :=
  ∀ a l, h.node a = .leaf l → Fits kind (stores a) l

/-- **The invariant of a table.** -/
structure Layers.Ok (kind : Kind) (P : NodeParams) (s : Layers V) (G : Ghost) : Prop where
  heap : HeapInv P keyLt s.heap G
  held : ∀ r ∈ s.roots, Held s.heap G r
  stores : ∀ a, (s.stores a).Ok P.leafWidth
  fits : AllFit kind s.heap s.stores
  noMeta : kind = .strings → NoMetadata s.heap

section

variable {kind : Kind} {P : NodeParams} {h h' : Heap (Cell V)} {stores : Ptr → SuffixStore}
  {st : SuffixStore} {l : Leaf (Cell V)} {a : Ptr}

lemma AllFit.contents (hf : AllFit kind h stores) (hc : ContentsFrom h h') :
    AllFit kind h' stores := by
  intro a l hl
  rcases hc.leaf a l hl with h0 | ⟨l₀, h1, h2, h3⟩
  · exact fits_of_live_eq_nil h0
  · exact (hf a l₀ h1).mono (by rw [h2]; exact List.Subset.refl _) h3

lemma AllFit.setLeaf (hf : AllFit kind h stores) (hl : Fits kind st l) (a : Ptr) :
    AllFit kind (h.setLeaf a l) (Function.update stores a st) := by
  intro b lb hlb
  rw [Heap.node_setLeaf] at hlb
  split_ifs at hlb with hb
  · cases hlb
    rw [hb, Function.update_self]
    exact hl
  · rw [Function.update_of_ne hb]
    exact hf b lb hlb

lemma AllFit.alloc (hf : AllFit kind h stores) (hl : Fits kind st l) :
    AllFit kind (h.alloc (.leaf l)) (Function.update stores h.size st) :=
  hf.setLeaf hl h.size

lemma stores_update {stores : Ptr → SuffixStore} {W : ℕ} (hs : ∀ a, (stores a).Ok W) (hst : st.Ok W)
    (a b : Ptr) : (Function.update stores a st b).Ok W := by
  by_cases hb : b = a
  · rw [hb, Function.update_self]
    exact hst
  · rw [Function.update_of_ne hb]
    exact hs b

/-- The leaf part of a split puts the two halves into the heap, and changes nothing else in the
leaves. -/
lemma contentsFrom_splitLeaf {n : Ptr} (P : NodeParams) (i mid : ℕ) (ka : Slot (Cell V))
    (hl : h.node n = .leaf l) (hn : n ≠ h.size) :
    ContentsFrom
    ((h.alloc (.leaf (l.splitRight P n i ka mid))).setLeaf n (l.leftHalf P n h.size i ka mid))
      (splitLeaf P h n i ka mid).1 := by
  have hleaf : h.leaf n = l := by rw [Heap.leaf, hl]; rfl
  have heq : (splitLeaf P h n i ka mid).1
      = ((h.alloc (.leaf (l.splitRight P n i ka mid))).setPrev l.next (some h.size)).setLeaf n
        (l.leftHalf P n h.size i ka mid) := by
    simp only [splitLeaf, hleaf, Leaf.leftHalf]
    split_ifs <;> rfl
  rw [heq]
  refine ((ContentsFrom.refl _).setPrev l.next (some h.size)).setLeaf_both n ?_
  rw [Heap.node_alloc, if_neg hn, hl, Leaf.leftHalf]
  split_ifs <;> rfl

end

/-- The cursor's slot has the key, and its suffix is in the bag. -/
structure Ready (h : Heap (Cell V)) (stores : Ptr → SuffixStore) (pos : Position) (k : Bytes) :
    Prop where
  slot : (h.leaf pos.n).slot pos.p = assigned k
  ksuf : ∀ a, suffix (assigned k : Slot (Cell V)) = some a → (stores pos.n).get pos.p = some a

namespace Layers.Ok

variable {kind : Kind} {P : NodeParams} {s : Layers V} {G : Ghost} {n : Ptr} {l : Leaf (Cell V)}
  {q : Insertion V} {i : ℕ}

/-- A leaf is overwritten, with its bag. -/
lemma setLeaf (hs : s.Ok kind P G) (hl : s.heap.node n = .leaf l) (l' : Leaf (Cell V))
    (hsame : l.SameLinks l') (hnext : l'.next = l.next) (hprev : l'.prev = l.prev)
    (hok : G.live n → LeafOk P keyLt G n { l' with parent := none }) {st : SuffixStore}
    (hst : st.Ok P.leafWidth) (hf : Fits kind st l') :
    (⟨s.heap.setLeaf n l', Function.update s.stores n st, s.roots⟩ : Layers V).Ok kind P G := by
  refine ⟨hs.heap.setLeaf hl hsame hnext hprev hok,
    fun r hr => (hs.held r hr).frame ((SameTree.setLeaf hl hsame).frame G),
    fun a => stores_update hs.stores hst n a, hs.fits.setLeaf hf n, fun hkind => ?_⟩
  have hno := hs.noMeta hkind
  have hl₀ := hno n
  rw [hl] at hl₀
  exact hno.setLeaf (hsame.directoryMeta.trans hl₀) n

/-- A leaf is allocated, with its bag. -/
lemma alloc (hs : s.Ok kind P G) (hl : l.Fresh P keyLt) (hm : kind = .strings →
    l.directoryMeta = none)
    {st : SuffixStore} (hst : st.Ok P.leafWidth) (hf : Fits kind st l) :
    (⟨s.heap.alloc (.leaf l), Function.update s.stores s.heap.size st, s.heap.size :: s.roots⟩ :
      Layers V).Ok kind P (G.alloc s.heap.size) := by
  refine ⟨hs.heap.alloc_leaf hl, fun r hr => ?_, fun a => stores_update hs.stores hst _ a,
    hs.fits.alloc hf, fun hkind => (hs.noMeta hkind).alloc (hm hkind)⟩
  rcases List.mem_cons.mp hr with rfl | hr
  · exact ⟨(hs.heap.alloc_leaf hl).tree.known (Or.inl rfl), fun _ => if_pos rfl⟩
  · exact (hs.held r hr).alloc_leaf l

/-- The key gets a free slot of a leaf. -/
lemma assign (hs : s.Ok kind P G) (hW : P.leafWidth = kind.leafWidth) (hn : G.live n)
    (hl : s.heap.node n = .leaf l) (hmod : l.modstate ≠ .remove) (hq : q.Ok kind)
    (hxlo : G.lo n ≤ slice q.bytes) (hxhi : slice q.bytes < G.hi n) (hi : i ≤ l.size)
    (hbf : ∀ t ∈ l.entries.take i, keyLt t q.slot) (haf : ∀ t ∈ l.entries.drop i, keyLt q.slot t)
    (hlt : l.size < P.leafWidth)
    (hkeep : l.permutation.back ≠ 0 ∨ l.prev = none ∨ l.ikeyBound = slice q.bytes) :
    ∃ st', assignStore P (s.stores n) l l.permutation.back q.bytes = some st' ∧
      (⟨s.heap.setLeaf n (l.assign l.permutation.back (assigned q.bytes)),
        Function.update s.stores n st', s.roots⟩ : Layers V).Ok kind P G ∧
      Room P (s.heap.setLeaf n (l.assign l.permutation.back (assigned q.bytes))) G (G.fam n)
        ⟨n, i, l.permutation.back⟩ (slice q.bytes) (fun t => keyLt t q.slot)
        (fun t => keyLt q.slot t) (l.assign l.permutation.back (assigned q.bytes)) ∧
      Ready (s.heap.setLeaf n (l.assign l.permutation.back (assigned q.bytes)))
        (Function.update s.stores n st') ⟨n, i, l.permutation.back⟩ q.bytes := by
  have hok := hs.heap.leaves n { l with parent := none } hn (by rw [hl]; rfl)
  have hw : l.permutation.WF P.leafWidth := hok.perm
  have hslots : l.slots.length = P.leafWidth := hok.slots
  have hback := hw.back_notMem_live hlt
  have hp : l.permutation.back < P.leafWidth := hw.back_lt (by omega)
  obtain ⟨st', h1, h2, h3, h4⟩ := (hs.fits n l hl).assign (hs.stores n) (hW ▸ kind.leafWidth_le) hw
    hq.isKey hp hback hmod hslots
  have hent : (l.assign l.permutation.back (assigned q.bytes)).entries = l.entries :=
    Leaf.entries_assign hback fun r hr => by
      rw [hslots]
      exact hw.live_lt hr
  have hkeep' : l.permutation.back ≠ 0 ∨ l.prev = none ∨
      l.ikeyBound = (assigned q.bytes : Slot (Cell V)).ikey := hkeep
  refine ⟨st', h1, hs.setLeaf hl (l.assign l.permutation.back (assigned q.bytes)) ⟨rfl, rfl, rfl,
    rfl, Iff.rfl⟩ rfl rfl
      (fun _ => hok.assign hback hkeep') h2 h3,
    ⟨hn, rfl, by simp, hxlo, hxhi, hlt, rfl, hi, by rw [hent]; exact hbf, by rw [hent]; exact haf,
      ?_⟩,
    ?_, ?_⟩
  · by_cases hb0 : l.permutation.back = 0
    · refine Or.inr (Or.inr ?_)
      rw [Leaf.ikeyBound, hb0, Leaf.slot_assign (by omega), if_pos rfl, ikey_assigned]
    · exact Or.inl hb0
  · simp only [Heap.leaf, Heap.node_setLeaf, if_true, Node.toLeaf_leaf]
    rw [Leaf.slot_assign (by omega), if_pos rfl]
  · simpa using h4

section Split

variable (hs : s.Ok kind P G) (hW : P.leafWidth = kind.leafWidth) (hn : G.live n)
  (hl : s.heap.node n = .leaf l) (hmod : l.modstate ≠ .remove) (hq : q.Ok kind)
  (hxlo : G.lo n ≤ slice q.bytes) (hxhi : slice q.bytes < G.hi n) (hi : i ≤ l.size)
  (hbf : ∀ t ∈ l.entries.take i, keyLt t q.slot) (haf : ∀ t ∈ l.entries.drop i, keyLt q.slot t)
include hs hW hn hl hmod hq hxlo hxhi hi hbf haf

/-- **A split of a leaf in the table.** -/
lemma split (sz : ℕ) (hfull : l.size = P.leafWidth ∨
      (l.size + 1 = P.leafWidth ∧ l.permutation.get (P.leafWidth - 1) = 0)) :
    ∃ (mid : ℕ) (h' : Heap (Cell V)) (G' : Ghost) (stores' : Ptr → SuffixStore),
      l.splitPoint P i (assigned q.bytes) = some mid ∧ 1 ≤ mid ∧ mid ≤ l.size ∧
      (∀ t ∈ (l.itemsWith i q.slot).take mid, t.ikey < l.ikeyAfterInsert i (assigned q.bytes) mid) ∧
      (∀ t ∈ (l.itemsWith i q.slot).drop mid, l.ikeyAfterInsert i (assigned q.bytes) mid ≤ t.ikey) ∧
      ((splitLeaf P s.heap n i (assigned q.bytes) mid).2.1
          = ⟨n, s.heap.size, l.ikeyAfterInsert i (assigned q.bytes) mid⟩ ∧
        (splitLeaf P s.heap n i (assigned q.bytes) mid).2.2.1
          = l.splitPosition P n s.heap.size i (assigned q.bytes) mid ∧
        ascend P (splitLeaf P s.heap n i (assigned q.bytes) mid).2.2.2
          ((splitLeaf P s.heap n i (assigned q.bytes) mid).1.size + 1) 0
          (splitLeaf P s.heap n i (assigned q.bytes) mid).1
          (splitLeaf P s.heap n i (assigned q.bytes) mid).2.1 = some h') ∧
      splitStores P sz s.heap s.stores n i q.bytes mid = some stores' ∧
      (⟨h', stores', s.roots⟩ : Layers V).Ok kind P G' ∧ Frame s.heap G h' G' ∧
      (G'.live n ∧ G'.lo n = G.lo n) ∧ (∃ p, h'.node n
        = .leaf { l.leftHalf P n s.heap.size i (assigned q.bytes) mid with parent := p }) ∧
      (∃ p, h'.node s.heap.size = .leaf { l.splitRight P n i (assigned q.bytes) mid with
        parent := p }) ∧
      Ready h' stores' (l.splitPosition P n s.heap.size i (assigned q.bytes) mid) q.bytes ∧
      ∃ l', Room P h' G' (G.fam n) (l.splitPosition P n s.heap.size i (assigned q.bytes) mid)
        (slice q.bytes) (fun t => keyLt t q.slot) (fun t => keyLt q.slot t) l' := by
  have hok := hs.heap.leaves n { l with parent := none } hn (by rw [hl]; rfl)
  have hfit := hs.fits n l hl
  have hns := (hs.heap.tree.live_lt hn).ne
  have hne : ∃ t ∈ l.entries, t.ikey ≠ slice q.bytes := by
    have hsorted : l.entries.Pairwise keyLt := hok.sorted
    have hlen : l.entries.length = l.size := Leaf.entries_length hok.perm
    exact exists_other_ikey hsorted hfit.keylenx (by omega) _
  obtain ⟨mid, h', G', hsp, hmid, hmid', hlt, hge, ⟨e1, e2, e3⟩, hI', hF, -, -,
    ⟨hlive, -, hlo, p, hnode⟩, ⟨p', hnode'⟩, l', hroom⟩ := makeSplit_halves keyLt_le hs.heap
    hn hl hxlo hxhi hi
      (show (assigned q.bytes : Slot (Cell V)).ikey = slice q.bytes from rfl) hbf haf
        (fun t ht => ikey_slot (q := q) ▸ keyLt_le _ _ ht)
      (fun t ht => ikey_slot (q := q) ▸ keyLt_le _ _ ht) hne hfull
  obtain ⟨left, right, g1, g2, g3, g4, g5, g6⟩ :=
    hfit.splitStores (hs.stores n) (hW ▸ kind.leafWidth_le)
    hok.perm hq.isKey sz hl hns rfl hmid hmid' hi hmod hok.slots
  set ka : Slot (Cell V) := assigned q.bytes with hka
  set stores' := Function.update (Function.update s.stores s.heap.size right) n left with hstores
  -- the leaves of the new heap are the two halves and the old leaves
  have hbase : AllFit kind ((s.heap.alloc (.leaf (l.splitRight P n i ka mid))).setLeaf n
      (l.leftHalf P n s.heap.size i ka mid)) stores' := (hs.fits.alloc g5).setLeaf g3 n
  have hcont := (contentsFrom_splitLeaf P i mid ka hl hns).ascend P _ _ _ e3
  have hmeta : kind = .strings → NoMetadata h' := by
    intro hkind
    have hno := hs.noMeta hkind
    refine hcont.noMetadata ((hno.alloc rfl).setLeaf ?_ n)
    have hl₀ := hno n
    rw [hl] at hl₀
    rw [Leaf.leftHalf]
    split_ifs <;> exact hl₀
  have hnew : (⟨h', stores', s.roots⟩ : Layers V).Ok kind P G' :=
    ⟨hI', fun r hr => (hs.held r hr).frame hF,
      fun a => stores_update (stores_update hs.stores g4 _) g2 n a, hbase.contents hcont, hmeta⟩
  -- both sequences of items have the same slices
  have hmap : (l.itemsWith i q.slot).map Slot.ikey = (l.itemsWith i ka).map Slot.ikey := by
    simp [Leaf.itemsWith, hka]
  refine ⟨mid, h', G', stores', hsp, hmid, hmid', ?_, ?_, ⟨e1, e2, e3⟩, g1, hnew, hF,
    ⟨hlive, hlo⟩, ⟨p, hnode⟩, ⟨p', hnode'⟩, ⟨?_, g6⟩, l', hroom⟩
  · intro t ht
    have hm := List.mem_map_of_mem (f := Slot.ikey) ht
    rw [List.map_take, hmap, ← List.map_take] at hm
    obtain ⟨u, hu, hut⟩ := List.mem_map.mp hm
    exact hut ▸ hlt u hu
  · intro t ht
    have hm := List.mem_map_of_mem (f := Slot.ikey) ht
    rw [List.map_drop, hmap, ← List.map_drop] at hm
    obtain ⟨u, hu, hut⟩ := List.mem_map.mp hm
    exact hut ▸ hge u hu
  · have hw : l.permutation.WF P.leafWidth := hok.perm
    have hslots : l.slots.length = P.leafWidth := hok.slots
    obtain ⟨c1, c2⟩ := Leaf.splitPosition_spec hw hslots hi hmid hmid' n s.heap.size ka
    rcases Nat.lt_or_ge i mid with h0 | h0
    · obtain ⟨e4, e5⟩ := c1 h0
      rw [e4, Heap.leaf, hnode]
      exact e5
    · obtain ⟨e4, e5⟩ := c2 h0
      rw [e4, Heap.leaf, hnode']
      exact e5

/-- **`make_split`**, with all the assertions on the way. -/
lemma makeSplit (sz : ℕ) (hno : l.size < P.leafWidth → l.permutation.back = 0) :
    ∃ (h' : Heap (Cell V)) (pos : Position) (stores' : Ptr → SuffixStore) (G' : Ghost)
    (l' : Leaf (Cell V)),
      MasstreeLHM.makeSplit P s.heap n i (assigned q.bytes) = some (h', pos) ∧
      makeSplitStores P sz s.heap s.stores n i q.bytes = some stores' ∧
      (⟨h', stores', s.roots⟩ : Layers V).Ok kind P G' ∧ Frame s.heap G h' G' ∧
      Room P h' G' (G.fam n) pos (slice q.bytes) (fun t => keyLt t q.slot)
      (fun t => keyLt q.slot t) l' ∧
      Ready h' stores' pos q.bytes := by
  have hok := hs.heap.leaves n { l with parent := none } hn (by rw [hl]; rfl)
  have hw : l.permutation.WF P.leafWidth := hok.perm
  have hleaf : s.heap.leaf n = l := by rw [Heap.leaf, hl]; rfl
  simp only [MasstreeLHM.makeSplit, makeSplitStores, hleaf]
  by_cases hcond : l.size < P.leafWidth ∧ (l.permutation.exchange l.size (P.leafWidth - 1)).back ≠ 0
  · -- another free slot than slot 0 exists
    simp only [if_pos hcond]
    set l₁ : Leaf (Cell V) :=
      { l with permutation := l.permutation.exchange l.size (P.leafWidth - 1) }
      with hl₁
    have hlive : l₁.permutation.live = l.permutation.live :=
      Kpermuter.WF.live_exchange _ le_rfl (by change l.size ≤ _; omega)
    have hent : l₁.entries = l.entries := by
      rw [Leaf.entries, hlive]
      rfl
    have hok₁ : LeafOk P keyLt G n { l₁ with parent := none } := by
      refine ⟨hw.exchange hcond.1 (by omega), hok.slots, ?_, ?_, hok.modstate, hok.first, hok.bound⟩
      · change l₁.entries.Pairwise keyLt
        rw [hent]
        exact hok.sorted
      · change ∀ t ∈ l₁.entries, _
        rw [hent]
        exact hok.within
    have hsame : l.SameLinks l₁ := ⟨rfl, rfl, rfl, rfl, Iff.rfl⟩
    have hs₁ := hs.setLeaf hl l₁ hsame rfl rfl (fun _ => hok₁) (hs.stores n)
      ((hs.fits n l hl).mono (by rw [hlive]; exact List.Subset.refl _) rfl)
    rw [Function.update_eq_self] at hs₁
    obtain ⟨st', h1, h2, h3, h4⟩ := hs₁.assign (l := l₁) hW hn (by simp) hmod hq hxlo hxhi hi
      (by rw [hent]; exact hbf) (by rw [hent]; exact haf) hcond.1 (Or.inl hcond.2)
    rw [Heap.setLeaf_setLeaf] at h2 h3 h4
    have hsame' : l.SameLinks (l₁.assign l₁.permutation.back (assigned q.bytes)) :=
      ⟨rfl, rfl, rfl, rfl, Iff.rfl⟩
    exact ⟨_, _, _, G, _, rfl, by rw [h1]; rfl, h2, (SameTree.setLeaf hl hsame').frame G, h3, h4⟩
  · have hfull := split_cases hw hno hcond
    obtain ⟨mid, h', G', stores', h1, -, -, -, -, ⟨-, e2, e3⟩, h2, h3, h4, -, -, -, h5, l', h6⟩ :=
      hs.split hW hn hl hmod hq hxlo hxhi hi hbf haf sz hfull
    refine ⟨h', _, stores', G', l', ?_, ?_, h3, h4, h6, h5⟩
    · simp only [if_neg hcond, h1]
      rw [e3, ← e2]
      rfl
    · simp only [if_neg hcond, h1]
      exact h2

end Split

/-- **Making room** for a key. -/
lemma makeRoom (hs : s.Ok kind P G) (hW : P.leafWidth = kind.leafWidth) (sz : ℕ) {c : Cursor}
    (hn : G.live c.n) (hl : s.heap.node c.n = .leaf l) (hq : q.Ok kind)
    (hxlo : G.lo c.n ≤ slice q.bytes) (hxhi : slice q.bytes < G.hi c.n) (hi : c.i ≤ l.size)
    (hbf : ∀ t ∈ l.entries.take c.i, keyLt t q.slot)
    (haf : ∀ t ∈ l.entries.drop c.i, keyLt q.slot t) :
    ∃ (h' : Heap (Cell V)) (pos : Position) (stores' : Ptr → SuffixStore) (G' : Ghost)
    (l' : Leaf (Cell V)),
      MasstreeLHM.makeRoom P s.heap c (assigned q.bytes) = some (h', pos) ∧
      makeRoomStores P sz s.heap s.stores c q.bytes = some stores' ∧
      (⟨h', stores', s.roots⟩ : Layers V).Ok kind P G' ∧ Frame s.heap G h' G' ∧
      Room P h' G' (G.fam c.n) pos (slice q.bytes) (fun t => keyLt t q.slot)
      (fun t => keyLt q.slot t) l' ∧
      Ready h' stores' pos q.bytes := by
  have hok := hs.heap.leaves c.n { l with parent := none } hn (by rw [hl]; rfl)
  have hleaf : s.heap.leaf c.n = l := by rw [Heap.leaf, hl]; rfl
  simp only [MasstreeLHM.makeRoom, makeRoomStores, hleaf, ikey_assigned]
  set l₁ : Leaf (Cell V) := { l with modstate := .insert } with hl₁
  have hok₁ : LeafOk P keyLt G c.n { l₁ with parent := none } :=
    ⟨hok.perm, hok.slots, hok.sorted, hok.within, by simp [hl₁], hok.first, hok.bound⟩
  have hsame : l.SameLinks l₁ := ⟨rfl, rfl, rfl, rfl, Iff.rfl⟩
  have hs₁ := hs.setLeaf hl l₁ hsame rfl rfl (fun _ => hok₁) (hs.stores c.n)
    ((hs.fits c.n l hl).mono (List.Subset.refl _) rfl)
  rw [Function.update_eq_self] at hs₁
  have hmod : l₁.modstate ≠ .remove := by simp [hl₁]
  have hl₁' : (s.heap.setLeaf c.n l₁).node c.n = .leaf l₁ := by simp
  split_ifs with hcond
  · obtain ⟨st', h1, h2, h3, h4⟩ :=
      hs₁.assign hW hn hl₁' hmod hq hxlo hxhi hi hbf haf hcond.1 hcond.2
    have hsame' : l₁.SameLinks (l₁.assign l₁.permutation.back (assigned q.bytes)) :=
      ⟨rfl, rfl, rfl, rfl, Iff.rfl⟩
    rw [h1]
    exact ⟨_, _, _, G, _, rfl, rfl, h2, ((SameTree.setLeaf hl hsame).frame G).trans
      ((SameTree.setLeaf hl₁' hsame').frame G), h3, h4⟩
  · obtain ⟨h', pos, stores', G', l', h1, h2, h3, h4, h5, h6⟩ :=
      hs₁.makeSplit hW hn hl₁' hmod hq hxlo hxhi
      hi hbf haf sz (fun hlt => by
        by_contra hb0
        exact hcond ⟨hlt, Or.inl hb0⟩)
    exact ⟨h', pos, stores', G', l', h1, h2, h3, ((SameTree.setLeaf hl hsame).frame G).trans h4,
      h5, h6⟩

/-- **Making the new slot live.** -/
lemma finishInsert (hs : s.Ok kind P G) (hq : q.Ok kind) {f : Ptr} {pos : Position}
    (hroom : Room P s.heap G f pos (slice q.bytes) (fun t => keyLt t q.slot)
      (fun t => keyLt q.slot t) l)
    (hready : Ready s.heap s.stores pos q.bytes) :
    (⟨MasstreeLHM.finishInsert (writeSlot s.heap pos q.slot) pos, s.stores, s.roots⟩ : Layers V).Ok
      kind P G := by
  have hok := hs.heap.leaves pos.n { l with parent := none } hroom.live (by rw [hroom.leaf]; rfl)
  have hw : l.permutation.WF P.leafWidth := hok.perm
  have hslots : l.slots.length = P.leafWidth := hok.slots
  have hfit := hs.fits pos.n l hroom.leaf
  obtain ⟨hlive, hnew, hent⟩ := hroom.vacant.entries_inserted hw hslots q.slot
  obtain ⟨hI, hF, -⟩ :=
    finishInsert_spec hs.heap hroom (s := q.slot) ikey_slot (fun _ h => h) (fun _ h => h)
  have heq := finishInsert_writeSlot hroom.leaf q.slot
  have hfit' : Fits kind (s.stores pos.n) (l.inserted pos.i pos.p q.slot) := by
    refine ⟨?_, ?_⟩
    · rw [hent, Leaf.itemsWith]
      intro t ht
      rcases List.mem_append.mp ht with h1 | h1
      · exact hfit.keylenx t (List.mem_of_mem_take h1)
      · rcases List.mem_cons.mp h1 with rfl | h1
        · exact hq.keylenx
        · exact hfit.keylenx t (List.mem_of_mem_drop h1)
    · intro p hp hk
      by_cases hpp : p = pos.p
      · rw [hpp, hnew] at hk ⊢
        have hsuf := suffix_assigned_of_slot hk
        exact ⟨hready.ksuf _ hsuf, isSuffix_of_assigned hq.isKey hsuf⟩
      · have hp' : p ∈ l.permutation.live := by
          rw [hlive] at hp
          rcases List.mem_append.mp hp with h1 | h1
          · exact List.mem_of_mem_take h1
          · exact List.mem_of_mem_drop ((List.mem_cons.mp h1).resolve_left hpp)
        have hslot : (l.inserted pos.i pos.p q.slot).slot p = l.slot p := by
          change (l.assign pos.p q.slot).slot p = l.slot p
          rw [Leaf.slot_assign (by rw [hslots]; exact hw.live_lt hp'), if_neg hpp]
        rw [hslot] at hk ⊢
        exact hfit.ksuf p hp' hk
  refine ⟨hI, fun r hr => (hs.held r hr).frame hF, hs.stores, ?_, fun hkind => ?_⟩
  · have hall := hs.fits.setLeaf hfit' pos.n
    rw [Function.update_eq_self] at hall
    rw [heq]
    exact hall
  · have hno := hs.noMeta hkind
    have hl₀ := hno pos.n
    rw [hroom.leaf] at hl₀
    have hl₁ : (l.inserted pos.i pos.p q.slot).directoryMeta = none := hl₀
    rw [heq]
    exact hno.setLeaf hl₁ pos.n

end Layers.Ok

end MasstreeLHM.KeyTable
