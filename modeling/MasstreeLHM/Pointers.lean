import MasstreeLHM.Layers.Steps
import MasstreeLHM.NestedDirectories

/-!
# The pointers of a namespace

`root_` and the layer pointers in the slots need not be the roots of their layers, and a rename may
leave them at any node.  But they stay nodes that a cursor may start from, in every run of calls,
renames included: each call moves, adds and drops slots in single layers, and a pointer that is put
into a slot has been a root when it was read.

`Anchored` is the invariant, and `Carries` relates a state to one that it comes from.  Changes of
the heap come first (`Anchored.frame`, `Anchored.fill`, `Anchored.finishRemove`), then searches,
which say what they have stopped at (`Stopped`).

Each call has a lemma `PointersHeld.createDirectory`, `PointersHeld.createFile`,
`PointersHeld.renamePath` and so on, with no condition on names, collisions or the tree of
directories.  **`PointersHeld.performAll`** is the run.  It is needed where a state is not
represented by a table any more.
-/

namespace MasstreeLHM

open LhmNamespace (freshSlot setValue insertLayer findInsert)

/-- The slots are well formed, and a cursor may start from the pointers in them. -/
structure Anchored (h : Heap Cell) (G : Ghost) : Prop where
  heap : HeapInv namespaceTableParams byIkey h G
  slots : ∀ f sl, Entry h G f sl →
    ∃ c : Content, sl.body = c.encode ∧ ∀ g, c = .directory g → Held h G g

/-- A state from which `h'` comes keeps the pointers it has. -/
structure Carries (h : Heap Cell) (G : Ghost) (h' : Heap Cell) (G' : Ghost) : Prop where
  anchored : Anchored h' G'
  held : ∀ r, Held h G r → Held h' G' r

variable {h h' : Heap Cell} {G G' : Ghost} {a f : Ptr} {x : ℕ}

lemma Carries.trans {h'' : Heap Cell} {G'' : Ghost} (h₁ : Carries h G h' G')
    (h₂ : Carries h' G' h'' G'') : Carries h G h'' G'' :=
  ⟨h₂.anchored, fun r hr => h₂.held r (h₁.held r hr)⟩

namespace Anchored

/-! ## Changes of the heap -/

/-- A change of the heap that keeps the layers, and adds at most good slots. -/
lemma frame (hA : Anchored h G) (hI : HeapInv namespaceTableParams byIkey h' G')
    (hF : Frame h G h' G') (hE : ∀ f sl, Entry h' G' f sl → Entry h G f sl ∨
      ∃ c : Content, sl.body = c.encode ∧ ∀ g, c = .directory g → Held h G g) :
    Carries h G h' G' := by
  refine ⟨⟨hI, fun f sl h0 => ?_⟩, fun r hr => hr.frame hF⟩
  obtain ⟨c, h1, h2⟩ := (hE f sl h0).elim (hA.slots f sl) id
  exact ⟨c, h1, fun g hg => (h2 g hg).frame hF⟩

/-- A new layer. -/
lemma alloc (hA : Anchored h G) (m : DirectoryMeta) :
    Carries h G (h.alloc (.leaf (Leaf.makeRoot namespaceTableParams (some m))))
    (G.alloc h.size) := by
  have hE := entry_alloc_root (P := namespaceTableParams) (some m) (h := h) hA.heap.tree.live_lt
  refine ⟨⟨hA.heap.alloc_root (some m), fun f sl h0 => ?_⟩, fun r hr => hr.alloc_leaf _⟩
  obtain ⟨c, h1, h2⟩ := hA.slots f sl ((hE f sl).mp h0)
  exact ⟨c, h1, fun g hg => (h2 g hg).alloc_leaf _⟩

lemma held_alloc (hA : Anchored h G) (m : DirectoryMeta) :
    Held (h.alloc (.leaf (Leaf.makeRoot namespaceTableParams (some m)))) (G.alloc h.size) h.size :=
  ⟨(hA.alloc m).anchored.heap.tree.known (Or.inl rfl), fun _ => if_pos rfl⟩

/-- The metadata of a root is rewritten. -/
lemma setMeta (hA : Anchored h G) (m : DirectoryMeta) : Carries h G (h.setMeta a m) G := by
  have hsh := SameShape.setMeta (h := h) (a := a) (m := m)
  have hheld : ∀ r, Held h G r → Held (h.setMeta a m) G r := fun r hr =>
    ⟨hsh.known.mpr hr.known, fun h0 => hr.leaf ((hsh.isLeaf r).symm.trans h0)⟩
  refine ⟨⟨hA.heap.setMeta, fun f sl h0 => ?_⟩, hheld⟩
  obtain ⟨c, h1, h2⟩ := hA.slots f sl ((entry_setMeta f sl).mp h0)
  exact ⟨c, h1, fun g hg => hheld g (h2 g hg)⟩

/-! ## Searches -/

/-- Where a search for `x` from `a` has stopped: at no slot or at that of `x`. -/
structure Stopped (h : Heap Cell) (G : Ghost) (a x : ℕ) (cur : Cursor) (l : Leaf Cell) : Prop where
  stop : Stop h G (G.fam a) x cur l
  slot : ∀ p, cur.p = some p → l.permutation.live[cur.i]? = some p ∧
    l.entries[cur.i]? = some (l.slot p) ∧ (l.slot p).ikey = x

lemma slot_eq {p : ℕ} {cur : Cursor} {l : Leaf Cell} (hA : Anchored h G)
    (hS : Stopped h G a x cur l) (hp : cur.p = some p) :
    ∃ c : Content, l.slot p = ⟨x, c.encode⟩ ∧ (h.leaf cur.n).slot p = ⟨x, c.encode⟩ ∧
      ∀ g, c = .directory g → Held h G g := by
  obtain ⟨-, h2, h3⟩ := hS.slot p hp
  obtain ⟨c, hc, hg⟩ :=
    hA.slots (G.fam a) (l.slot p) ⟨cur.n, { l with parent := none }, hS.stop.live,
      hS.stop.fam, by rw [hS.stop.leaf]; rfl, List.mem_of_getElem? h2⟩
  have hsl : l.slot p = ⟨x, c.encode⟩ := by
    rw [← h3, ← hc]
  refine ⟨c, hsl, ?_, hg⟩
  rw [Heap.leaf, hS.stop.leaf]
  exact hsl

/-- A search for an edge: it stops at a slot, or the layer has none for `x`. -/
lemma findEdge (hA : Anchored h G) (ha : Held h G a) (hx : x < ikeyLimit) :
    ∃ cur l, findWith (edgeCompare x) h a x = some cur ∧ Stopped h G a x cur l ∧
      (cur.p = none → ∀ sl, Entry h G (G.fam a) sl → sl.ikey ≠ x) := by
  by_cases hex : ∃ sl, Entry h G (G.fam a) sl ∧ sl.ikey = x
  · obtain ⟨sl, hsl, hslx⟩ := hex
    obtain ⟨c, hc, -⟩ := hA.slots _ sl hsl
    have hcmp : edgeCompare x sl = 0 := by
      obtain ⟨y, b⟩ := sl
      obtain rfl : b = c.encode := hc
      obtain rfl : y = x := hslx
      exact edgeCompare_encode y c
    obtain ⟨cur, l, p, h1, h2, h3, h4, h5, h6⟩ := findWith_hit edgeCompare_of_lt edgeCompare_of_gt
      hA.heap ha.known (ha.startable hA.heap) hsl hslx hcmp
    refine ⟨cur, l, h1, ⟨h3, fun q hq => ?_⟩, fun h0 => ?_⟩
    · obtain rfl : p = q := Option.some.inj (h2.symm.trans hq)
      exact ⟨h5, h6.symm ▸ h4, h6.symm ▸ hslx⟩
    · rw [h2] at h0
      cases h0
  · obtain ⟨cur, l, h1, h2, h3⟩ :=
      findWith_miss edgeCompare_of_lt edgeCompare_of_gt hA.heap ha.known
      (ha.startable hA.heap) hx (fun sl hs hsx => absurd ⟨sl, hs, hsx⟩ hex)
    refine ⟨cur, l, h1, ⟨h3, fun q hq => ?_⟩, fun _ sl hs hsx => hex ⟨sl, hs, hsx⟩⟩
    rw [h2] at hq
    cases hq

/-- A search for a key: it stops at a value slot, or at no slot. -/
lemma findKey (hA : Anchored h G) (ha : Held h G a) (hx : x < ikeyLimit) :
    ∃ cur l, findWith (compareKey x) h a x = some cur ∧ Stopped h G a x cur l ∧
      ∀ p, cur.p = some p → ∃ v, l.slot p = ⟨x, (Content.value v).encode⟩ := by
  by_cases hex : ∃ v, Entry h G (G.fam a) ⟨x, (Content.value v).encode⟩
  · obtain ⟨v, hv⟩ := hex
    obtain ⟨cur, l, p, h1, h2, h3, h4, h5, h6⟩ := findWith_hit compareKey_of_lt compareKey_of_gt
      hA.heap ha.known (ha.startable hA.heap) hv rfl (compareKey_value x v)
    refine ⟨cur, l, h1, ⟨h3, fun q hq => ?_⟩, fun q hq => ?_⟩
    · obtain rfl : p = q := Option.some.inj (h2.symm.trans hq)
      exact ⟨h5, h6.symm ▸ h4, by rw [h6]⟩
    · obtain rfl : p = q := Option.some.inj (h2.symm.trans hq)
      exact ⟨v, h6⟩
  · obtain ⟨cur, l, h1, h2, h3⟩ := findWith_miss compareKey_of_lt compareKey_of_gt hA.heap ha.known
      (ha.startable hA.heap) hx fun sl hs hsx => by
        obtain ⟨c, hc, -⟩ := hA.slots _ sl hs
        obtain ⟨y, b⟩ := sl
        obtain rfl : b = c.encode := hc
        obtain rfl : y = x := hsx
        cases c with
        | value v => exact absurd ⟨v, hs⟩ hex
        | directory g => exact compareKey_directory y g
    refine ⟨cur, l, h1, ⟨h3, fun q hq => ?_⟩, fun q hq => ?_⟩
    · rw [h2] at hq
      cases hq
    · rw [h2] at hq
      cases hq

/-- The child that a lookup finds is the root of a layer. -/
lemma lookupChildSlot (hA : Anchored h G) (ha : Held h G a) (hx : x < ikeyLimit) {r : Ptr}
    (hs : lookupChildSlotFromParentRoot h a x = some (.layer r)) : Held h G r := by
  obtain ⟨cur, l, h1, hS, -⟩ := hA.findEdge ha hx
  rw [lookupChildSlotFromParentRoot, h1] at hs
  simp only [Option.bind_eq_bind, Option.bind_some] at hs
  cases hp : cur.p with
  | none => simp [hp] at hs
  | some p =>
      obtain ⟨c, -, h2, hg⟩ := hA.slot_eq hS hp
      rw [hp] at hs
      simp only [h2] at hs
      cases c with
      | value v =>
          have hval : (Content.value v).encode.lv.value? = some v := rfl
          simp [hval] at hs
      | directory g =>
          have hlay : (Content.directory g).encode.lv.layer? = some g := rfl
          obtain ⟨h3, -, h4, -⟩ := hA.heap.tree.top_spec (hg g rfl).known
          simp only [ksufMatches_directory, hlay,
            hA.heap.tree.canonicalizeDirectoryRoot_eq (hg g rfl).known, Option.bind_some] at hs
          obtain rfl : G.top (G.fam g) = r := by simpa using hs
          exact .of_top hA.heap h3 (by rw [h4])

/-- A lookup without a child has seen no slot. -/
lemma lookupChildSlot_missing (hA : Anchored h G) (ha : Held h G a) (hx : x < ikeyLimit)
    (hs : lookupChildSlotFromParentRoot h a x = some .missing) :
    ∀ sl, Entry h G (G.fam a) sl → sl.ikey ≠ x := by
  obtain ⟨cur, l, h1, hS, hno⟩ := hA.findEdge ha hx
  rw [lookupChildSlotFromParentRoot, h1] at hs
  simp only [Option.bind_eq_bind, Option.bind_some] at hs
  cases hp : cur.p with
  | none => exact hno hp
  | some p =>
      obtain ⟨c, -, h2, -⟩ := hA.slot_eq hS hp
      rw [hp] at hs
      simp only [h2] at hs
      cases c with
      | value v =>
          have hval : (Content.value v).encode.lv.value? = some v := rfl
          simp [hval] at hs
      | directory g =>
          have hlay : (Content.directory g).encode.lv.layer? = some g := rfl
          simp only [ksufMatches_directory, hlay, Option.bind_some] at hs
          obtain ⟨r, -, hs⟩ := Option.bind_eq_some_iff.mp hs
          cases hs

/-- The directory that a walk ends in. -/
lemma locateLoop (hA : Anchored h G) {r : Ptr} : ∀ (xs : List ℕ) {a : Ptr}, Held h G a →
    (∀ x ∈ xs, x < ikeyLimit) → locateLoop h a xs = some (some r) → Held h G r
  | [], a, ha, _, hs => by
      obtain rfl := Option.some.inj (Option.some.inj hs)
      exact ha
  | x :: xs, a, ha, hxs, hs => by
      rw [MasstreeLHM.locateLoop] at hs
      obtain ⟨slot, h1, h2⟩ := Option.bind_eq_some_iff.mp hs
      cases slot with
      | missing => cases h2
      | value v => cases h2
      | layer b =>
          exact hA.locateLoop xs (hA.lookupChildSlot ha (hxs x List.mem_cons_self) h1)
            (fun y hy => hxs y (List.mem_cons_of_mem _ hy)) h2

/-! ## Slots that are filled, rewritten and removed -/

/-- Making room where a search has stopped. -/
lemma makeRoom (hA : Anchored h G) {cur : Cursor} {l : Leaf Cell} (hS : Stopped h G a x cur l)
    {pos : Position} (hs : makeRoom namespaceTableParams h cur (freshSlot x) = some (h', pos)) :
    ∃ G' l', Carries h G h' G' ∧ (∀ f sl, Entry h' G' f sl ↔ Entry h G f sl) ∧
      Room namespaceTableParams h' G' (G.fam a) pos x (fun t => t.ikey < x)
      (fun t => x ≤ t.ikey) l' := by
  obtain ⟨h₁, G', pos', l', heq, hI, hF, -, hroom, hE⟩ := makeRoom_layer hA.heap hS.stop
    (show (freshSlot x).ikey = x from rfl)
  rw [hs, Option.some.injEq, Prod.mk.injEq] at heq
  obtain ⟨rfl, rfl⟩ := heq
  exact ⟨G', l', hA.frame hI hF fun f sl h0 => Or.inl ((hE f sl).mp h0), hE, hroom⟩

/-- Filling the slot that was made. -/
lemma fill (hA : Anchored h G) {pos : Position} {l : Leaf Cell}
    (hroom : Room namespaceTableParams h G f pos x (fun t => t.ikey < x) (fun t => x ≤ t.ikey) l)
    (hno : ∀ sl, Entry h G f sl → sl.ikey ≠ x) (c : Content)
    (hc : ∀ g, c = .directory g → Held h G g) :
    Carries h G (finishInsert (writeSlot h pos ⟨x, c.encode⟩) pos) G := by
  obtain ⟨hI, hF, hE⟩ := finishInsert_layer hA.heap hroom hno
    (show (⟨x, c.encode⟩ : Slot Cell).ikey = x from rfl)
  refine hA.frame hI hF fun g sl h0 => ((hE g sl).mp h0).imp id ?_
  rintro ⟨-, rfl⟩
  exact ⟨c, rfl, hc⟩

/-- Rewriting the value of a slot. -/
lemma setValue (hA : Anchored h G) {cur : Cursor} {l : Leaf Cell} (hS : Stopped h G a x cur l)
    {p : ℕ} (hp : cur.p = some p) {v : NamespaceEntry}
    (hv : l.slot p = ⟨x, (Content.value v).encode⟩) (v' : NamespaceEntry) :
    Carries h G (setValue h cur.n p v') G := by
  have hset : LhmNamespace.setValue h cur.n p v'
      = h.setLeaf cur.n (l.assign p ⟨x, (Content.value v').encode⟩) := by
    have hleaf : h.leaf cur.n = l := by rw [Heap.leaf, hS.stop.leaf]; rfl
    rw [LhmNamespace.setValue, hleaf, hv]
    rfl
  obtain ⟨hI, hF, hE⟩ := overwrite_layer hA.heap hS.stop (hS.slot p hp).1 hv
    (show (⟨x, (Content.value v').encode⟩ : Slot Cell).ikey = x from rfl)
  rw [hset]
  refine hA.frame hI hF fun g sl h0 => ((hE g sl).mp h0).imp And.left ?_
  rintro ⟨-, rfl⟩
  exact ⟨.value v', rfl, by simp⟩

/-- Removing a slot. -/
lemma finishRemove (hA : Anchored h G) {cur : Cursor} {l : Leaf Cell} (hS : Stopped h G a x cur l)
    {p : ℕ} (hp : cur.p = some p) (hs : finishRemove h cur.n cur.i = some h') :
    ∃ G', Carries h G h' G' := by
  obtain ⟨h₁, G', heq, hI, hF, hE⟩ := finishRemove_layer hA.heap hS.stop (hS.slot p hp).2.1
  rw [hs, Option.some.injEq] at heq
  obtain rfl := heq
  exact ⟨G', hA.frame hI hF fun f sl h0 => Or.inl ((hE f sl).mp h0).1⟩

/-- `find_insert`. -/
lemma findInsert (hA : Anchored h G) (ha : Held h G a) (hx : x < ikeyLimit)
    {r : LhmNamespace.FindInsert} (hs : findInsert h a x = some r) :
    (∃ cur p, r = .found cur p ∧ ∀ v, Carries h G (LhmNamespace.setValue h cur.n p v) G) ∨
    ∃ h₁ G₁ pos l, r = .inserted h₁ pos ∧ Carries h G h₁ G₁ ∧
      (∀ f sl, Entry h₁ G₁ f sl ↔ Entry h G f sl) ∧
      Room namespaceTableParams h₁ G₁ (G.fam a) pos x (fun t => t.ikey < x)
      (fun t => x ≤ t.ikey) l := by
  obtain ⟨cur, l, h1, hS, hval⟩ := hA.findKey ha hx
  rw [LhmNamespace.findInsert, h1] at hs
  simp only [Option.bind_eq_bind, Option.bind_some] at hs
  cases hp : cur.p with
  | some p =>
      rw [hp] at hs
      obtain ⟨v, hv⟩ := hval p hp
      exact Or.inl ⟨cur, p, (Option.some.inj hs).symm, hA.setValue hS hp hv⟩
  | none =>
      rw [hp] at hs
      obtain ⟨⟨h₁, pos⟩, h2, h3⟩ := Option.bind_eq_some_iff.mp hs
      obtain ⟨G₁, l', hC, hE, hroom⟩ := hA.makeRoom hS h2
      exact Or.inr ⟨h₁, G₁, pos, l', (Option.some.inj h3).symm, hC, hE, hroom⟩

/-- `create_layer_with_meta` and `attach_existing_layer`: the slot that is made gets the pointer
that `layer` returns. -/
lemma insertLayer (hA : Anchored h G) (ha : Held h G a) (hx : x < ikeyLimit)
    {layer : Heap Cell → Ptr × Heap Cell}
    (hlayer : ∀ {h₁ G₁}, Carries h G h₁ G₁ → ∃ G₂, Carries h₁ G₁ (layer h₁).2 G₂ ∧
      Held (layer h₁).2 G₂ (layer h₁).1 ∧ (∀ f sl, Entry (layer h₁).2 G₂ f sl ↔ Entry h₁ G₁ f sl) ∧
      ∀ {f pos x Bf Af l}, Room namespaceTableParams h₁ G₁ f pos x Bf Af l →
        Room namespaceTableParams (layer h₁).2 G₂ f pos x Bf Af l)
    {ok : Bool} (hs : insertLayer h a x layer = some (ok, h')) : ∃ G', Carries h G h' G' := by
  obtain ⟨cur, l, h1, hS, hno⟩ := hA.findEdge ha hx
  rw [LhmNamespace.insertLayer, h1] at hs
  simp only [Option.bind_eq_bind, Option.bind_some] at hs
  cases hp : cur.p with
  | some p =>
      rw [hp] at hs
      obtain ⟨-, rfl⟩ : _ ∧ h = h' := by simpa using hs
      exact ⟨G, hA, fun _ => id⟩
  | none =>
      rw [hp] at hs
      obtain ⟨⟨h₁, pos⟩, h2, h3⟩ := Option.bind_eq_some_iff.mp hs
      obtain ⟨G₁, l', hC, hE, hroom⟩ := hA.makeRoom hS h2
      obtain ⟨G₂, hC₂, hnew, hE₂, hroom₂⟩ := hlayer hC
      have hfill := hC₂.anchored.fill (hroom₂ hroom)
        (fun sl h0 => hno hp sl ((hE _ sl).mp ((hE₂ _ sl).mp h0))) (.directory (layer h₁).1)
        fun g hg => Content.directory.inj hg ▸ hnew
      obtain ⟨-, rfl⟩ : _ ∧ _ = h' := by simpa using h3
      exact ⟨_, hC.trans (hC₂.trans hfill)⟩

end Anchored

/-! ## Calls -/

/-- **A cursor may start from `root_` and from the layer pointers in the slots.** -/
def LhmNamespace.PointersHeld (s : LhmNamespace) : Prop :=
  ∃ G, Anchored s.heap G ∧ Held s.heap G s.root

/-- The component hashes are slices. -/
def ParsedPath.Slices (p : ParsedPath) : Prop := ∀ x ∈ p.hashes, x < ikeyLimit

lemma slices_of_parse {hash : Bytes → UInt64} {path : Bytes} {p : ParsedPath}
    (h : parseAbsolutePath hash path = some p) : p.Slices := by
  obtain ⟨cs, -, rfl⟩ := parseAbsolutePath_some h
  exact fun x hx => hashesOf_lt hx

namespace ParsedPath.Slices

variable {p : ParsedPath}

lemma parent (h : p.Slices) : p.parent.Slices := fun x hx => h x (List.dropLast_subset _ hx)

lemma hash_lt (h : p.Slices) : p.hash < ikeyLimit := by
  rw [ParsedPath.hash]
  cases hl : p.hashes.getLast? with
  | none => simp [hl, List.getLastD_eq_getLast?, ikeyLimit]
  | some x =>
      rw [List.getLastD_eq_getLast?, hl]
      exact h x (List.mem_of_getLast? hl)

end ParsedPath.Slices

namespace LhmNamespace

variable {s s' : LhmNamespace} {G G' : Ghost} {p : ParsedPath} {ok : Bool}

lemma pointersHeld_of_carries (hr : Held s.heap G s.root) {t : LhmNamespace}
    (hC : Carries s.heap G t.heap G') (hroot : t.root = s.root) : t.PointersHeld :=
  ⟨G', hC.anchored, hroot ▸ hC.held _ hr⟩

lemma PointersHeld.same (h : s.PointersHeld) (hheap : s'.heap = s.heap) (hroot : s'.root = s.root) :
    s'.PointersHeld := by
  rwa [PointersHeld, hheap, hroot]

/-- A call that leaves the state alone. -/
lemma PointersHeld.of_pure (h : s.PointersHeld) {b : Bool} (hs : some (b, s) = some (ok, s')) :
    s'.PointersHeld := by
  obtain ⟨-, rfl⟩ : _ ∧ s = s' := by simpa using hs
  exact h

lemma PointersHeld.fixRoot (h : s.PointersHeld) : s.fixRoot.PointersHeld := by
  obtain ⟨G, hA, hr⟩ := h
  rw [LhmNamespace.fixRoot]
  split_ifs
  · exact ⟨G, hA, hr⟩
  · exact ⟨G, hA, hr.parent hA.heap.tree⟩

/-- The directory that `locate_directory_root` finds. -/
lemma held_locate (hA : Anchored s.heap G) (hr : Held s.heap G s.root) (hp : p.Slices) {a : Ptr}
    (hs : s.locateDirectoryRoot p = some (some a)) : Held s.heap G a := by
  rw [locateDirectoryRoot] at hs
  split_ifs at hs with h0
  · obtain rfl := Option.some.inj (Option.some.inj hs)
    exact hr
  · exact hA.locateLoop _ hr hp hs

/-- **`mkdir`.** -/
lemma PointersHeld.createDirectory (h : s.PointersHeld) (hp : p.Slices) {ref : InodeRef}
    (hs : s.createDirectoryFromParsed p ref = some (ok, s')) : s'.PointersHeld := by
  obtain ⟨G, hA, hr⟩ := id h
  rw [createDirectoryFromParsed] at hs
  split_ifs at hs with h1 h2 h3
  · exact h.of_pure hs
  · exact h.of_pure hs
  · exact h.of_pure hs
  · obtain ⟨o, h4, hs⟩ := Option.bind_eq_some_iff.mp hs
    cases o with
    | none =>
        exact h.of_pure hs
    | some a =>
        have ha := held_locate hA hr hp.parent h4
        obtain ⟨slot, h5, hs⟩ := Option.bind_eq_some_iff.mp hs
        cases slot with
        | layer b =>
            exact h.of_pure hs
        | value v =>
            exact h.of_pure hs
        | missing =>
            obtain ⟨⟨b, h'⟩, h6, hs⟩ := Option.bind_eq_some_iff.mp hs
            obtain ⟨-, rfl⟩ : _ ∧ _ = s' := by simpa using hs
            obtain ⟨G', hC⟩ := hA.insertLayer ha hp.hash_lt (fun hC => ⟨_, hC.anchored.alloc _,
              hC.anchored.held_alloc _, entry_alloc_root _ hC.anchored.heap.tree.live_lt,
              fun hroom => hroom.alloc_leaf hC.anchored.heap.tree.live_lt⟩) h6
            exact pointersHeld_of_carries hr hC rfl

/-- `insert_into_conflict_chain`. -/
lemma PointersHeld.insertChain (h : s.PointersHeld) {x : ℕ} (hx : x < ikeyLimit)
    {v e : NamespaceEntry} (hs : s.insertIntoConflictChain x v e = some (ok, s')) :
    s'.PointersHeld := by
  rw [insertIntoConflictChain] at hs
  split_ifs at hs with hkind hname
  · cases hb : s.findBucket v.ref.blockId with
    | none =>
        simp only [hb] at hs
        exact h.of_pure hs
    | some es =>
        simp only [hb] at hs
        split_ifs at hs with hany
        · exact h.of_pure hs
        · obtain ⟨-, rfl⟩ : _ ∧ _ = s' := by simpa using hs
          exact h.same rfl rfl
  · exact h.of_pure hs
  · set s₁ : LhmNamespace :=
      { s with nextConflictBucketId := (s.nextConflictBucketId + 1) % 2 ^ 32 } with hs₁
    have h₂ : (s₁.emplaceBucket s.nextConflictBucketId [v, e]).fixRoot.PointersHeld := by
      refine PointersHeld.fixRoot (h.same ?_ ?_)
      · rw [emplaceBucket]
        split_ifs <;> rfl
      · rw [emplaceBucket]
        split_ifs <;> rfl
    obtain ⟨G, hA, hr⟩ := h₂
    obtain ⟨r, h3, hs⟩ := Option.bind_eq_some_iff.mp hs
    rcases hA.findInsert hr hx h3 with ⟨cur, q, rfl, hC⟩ | ⟨h₁, G₁, pos, l, rfl, hC, -⟩
    · obtain ⟨-, rfl⟩ : _ ∧ _ = s' := by simpa using hs
      exact pointersHeld_of_carries hr (hC _) rfl
    · obtain ⟨-, rfl⟩ : _ ∧ _ = s' := by simpa using hs
      exact pointersHeld_of_carries (t := eraseBucket _ _) hr hC rfl

/-- **`create_entry` of a file.** -/
lemma PointersHeld.createFile (h : s.PointersHeld) (hp : p.Slices) {ref : InodeRef}
    {kind : EntryKind} (hs : s.createFileFromParsed p ref kind = some (ok, s')) :
    s'.PointersHeld := by
  obtain ⟨G, hA, hr⟩ := id h
  rw [createFileFromParsed] at hs
  split_ifs at hs with h1 h2 h3
  · exact h.of_pure hs
  · exact h.of_pure hs
  · exact h.of_pure hs
  · obtain ⟨o, h4, hs⟩ := Option.bind_eq_some_iff.mp hs
    cases o with
    | none =>
        exact h.of_pure hs
    | some a =>
        have ha := held_locate hA hr hp.parent h4
        obtain ⟨slot, h5, hs⟩ := Option.bind_eq_some_iff.mp hs
        cases slot with
        | layer b =>
            exact h.of_pure hs
        | value v => exact h.insertChain hp.hash_lt hs
        | missing =>
            have hno := hA.lookupChildSlot_missing ha hp.hash_lt h5
            obtain ⟨r, h6, hs⟩ := Option.bind_eq_some_iff.mp hs
            rcases hA.findInsert ha hp.hash_lt h6 with
              ⟨cur, q, rfl, -⟩ | ⟨h₁, G₁, pos, l, rfl, hC, hE, hroom⟩
            · exact h.of_pure hs
            · obtain ⟨-, rfl⟩ : _ ∧ _ = s' := by simpa using hs
              have hfill := hC.anchored.fill hroom (fun sl h0 => hno sl ((hE _ sl).mp h0))
                (.value (makeNamespaceEntry kind ref p.name)) (by simp)
              exact pointersHeld_of_carries hr (hC.trans hfill) rfl

/-- The part of `remove_entry` for values. -/
lemma PointersHeld.removeFile (h : s.PointersHeld) (hA : Anchored s.heap G)
    (hr : Held s.heap G s.root) {a x q : ℕ} {cur : Cursor} {l : Leaf Cell}
    (hS : Anchored.Stopped s.heap G a x cur l) (hq : cur.p = some q) {v : NamespaceEntry}
    (hv : l.slot q = ⟨x, (Content.value v).encode⟩) {name : Bytes}
    (hs : s.removeFile cur q v name = some (ok, s')) : s'.PointersHeld := by
  -- the slot is removed
  have hremove : ∀ {t : LhmNamespace}, t.root = s.root →
      ((finishRemove s.heap cur.n cur.i).bind fun h' => some (true, { t with heap := h' }))
        = some (ok, s') → s'.PointersHeld := by
    intro t ht hs
    obtain ⟨h', h1, hs⟩ := Option.bind_eq_some_iff.mp hs
    obtain ⟨-, rfl⟩ : _ ∧ _ = s' := by simpa using hs
    obtain ⟨G', hC⟩ := hA.finishRemove hS hq h1
    exact pointersHeld_of_carries hr hC ht
  rw [LhmNamespace.removeFile] at hs
  split_ifs at hs with h1 h2
  · exact h.of_pure hs
  · exact hremove rfl hs
  · cases hb : s.findBucket v.ref.blockId with
    | none =>
        simp only [hb] at hs
        exact h.of_pure hs
    | some es =>
        simp only [hb] at hs
        cases he : es[es.findIdx (entryNameEquals · name)]? with
        | none =>
            simp only [he] at hs
            exact h.of_pure hs
        | some e =>
            simp only [he] at hs
            split_ifs at hs with h3 h4
            · exact h.of_pure hs
            · exact hremove (t := s.eraseBucket v.ref.blockId) rfl hs
            · split at hs
              · obtain ⟨-, rfl⟩ : _ ∧ _ = s' := by simpa using hs
                exact pointersHeld_of_carries (t := { s.eraseBucket _ with heap := _ }) hr
                  (hA.setValue hS hq hv _) rfl
              · obtain ⟨-, rfl⟩ : _ ∧ _ = s' := by simpa using hs
                exact h.same rfl rfl

/-- **`remove_entry`.** -/
lemma PointersHeld.removeEntryFromParsed (h : s.PointersHeld) (hp : p.Slices)
    (hs : s.removeEntryFromParsed p = some (ok, s')) : s'.PointersHeld := by
  obtain ⟨G, hA, hr⟩ := id h
  rw [LhmNamespace.removeEntryFromParsed] at hs
  split_ifs at hs with h1
  · exact h.of_pure hs
  obtain ⟨o, h2, hs⟩ := Option.bind_eq_some_iff.mp hs
  cases o with
  | none =>
      exact h.of_pure hs
  | some a =>
      have ha := held_locate hA hr hp.parent h2
      obtain ⟨cur, l, h3, hS, -⟩ := hA.findEdge ha hp.hash_lt
      simp only [h3, Option.bind_eq_bind, Option.bind_some] at hs
      cases hq : cur.p with
      | none =>
          simp only [hq] at hs
          exact h.of_pure hs
      | some q =>
          obtain ⟨c, hc, h4, hg⟩ := hA.slot_eq hS hq
          simp only [hq, h4] at hs
          cases c with
          | value v =>
              have hval : (Content.value v).encode.lv.value? = some v := rfl
              simp only [ksufMatches_value, hval, Option.bind_some] at hs
              rw [if_neg (by decide), if_neg (by decide)] at hs
              exact h.removeFile hA hr hS hq hc hs
          | directory g =>
              rw [if_pos (by simp), removeDirectoryEdge] at hs
              obtain ⟨b, -, hs⟩ := Option.bind_eq_some_iff.mp hs
              obtain ⟨r, -, hs⟩ := Option.bind_eq_some_iff.mp hs
              cases hm : (s.heap.node r).directoryMeta with
              | none =>
                  simp only [hm] at hs
                  exact h.of_pure hs
              | some m =>
                  simp only [hm] at hs
                  split_ifs at hs with h5
                  · exact h.of_pure hs
                  obtain ⟨any, -, hs⟩ := Option.bind_eq_some_iff.mp hs
                  split_ifs at hs with h6
                  · exact h.of_pure hs
                  obtain ⟨h', h7, hs⟩ := Option.bind_eq_some_iff.mp hs
                  obtain ⟨-, rfl⟩ : _ ∧ _ = s' := by simpa using hs
                  obtain ⟨G', hC⟩ := hA.finishRemove hS hq h7
                  exact pointersHeld_of_carries hr hC rfl

/-! ## Renaming -/

/-- The last part of a directory rename. -/
lemma PointersHeld.detachEdge (h : s.PointersHeld) (hA : Anchored s.heap G)
    (hr : Held s.heap G s.root) {a x r : ℕ} (ha : Held s.heap G a) (hx : x < ikeyLimit)
    (hs : s.detachEdge a x r = some (ok, s')) : s'.PointersHeld := by
  obtain ⟨cur, l, h1, hS, -⟩ := hA.findEdge ha hx
  simp only [LhmNamespace.detachEdge, h1, Option.bind_eq_bind, Option.bind_some] at hs
  cases hq : cur.p with
  | none =>
      simp only [hq] at hs
      exact h.of_pure hs
  | some q =>
      simp only [hq] at hs
      split_ifs at hs with h2
      · exact h.of_pure hs
      obtain ⟨g, -, hs⟩ := Option.bind_eq_some_iff.mp hs
      split_ifs at hs with h3
      · exact h.of_pure hs
      obtain ⟨h', h4, hs⟩ := Option.bind_eq_some_iff.mp hs
      obtain ⟨-, rfl⟩ : _ ∧ _ = s' := by simpa using hs
      obtain ⟨G', hC⟩ := hA.finishRemove hS hq h4
      exact pointersHeld_of_carries hr hC rfl

/-- **`rename_directory_o1_from_parsed`.** -/
lemma PointersHeld.renameDirectory (h : s.PointersHeld) {old new : ParsedPath} (hold : old.Slices)
    (hnew : new.Slices) (hs : s.renameDirectoryO1FromParsed old new = some (ok, s')) :
    s'.PointersHeld := by
  obtain ⟨G, hA, hr⟩ := id h
  rw [renameDirectoryO1FromParsed] at hs
  split_ifs at hs with h1 h2 h3 h4
  · exact h.of_pure hs
  · exact h.of_pure hs
  · exact h.of_pure hs
  · exact h.of_pure hs
  obtain ⟨o, h5, hs⟩ := Option.bind_eq_some_iff.mp hs
  cases o with
  | none => exact h.of_pure hs
  | some a =>
  obtain ⟨o, h6, hs⟩ := Option.bind_eq_some_iff.mp hs
  cases o with
  | none => exact h.of_pure hs
  | some b =>
  obtain ⟨o, h7, hs⟩ := Option.bind_eq_some_iff.mp hs
  cases o with
  | none => exact h.of_pure hs
  | some r =>
  obtain ⟨o, h8, hs⟩ := Option.bind_eq_some_iff.mp hs
  cases o with
  | some e => exact h.of_pure hs
  | none =>
  have ha := held_locate hA hr hold.parent h5
  have hb := held_locate hA hr hnew.parent h6
  -- the moved directory is the root of its layer
  have hheld : Held s.heap G r := by
    rw [lookupDirectoryEdgeFromParentRoot] at h7
    obtain ⟨slot, h9, h7⟩ := Option.bind_eq_some_iff.mp h7
    cases slot with
    | missing => cases h7
    | value v => cases h7
    | layer c =>
        cases hm : (s.heap.node c).directoryMeta with
        | none => simp [hm] at h7
        | some m =>
            simp only [hm, Option.pure_def, Option.some.injEq] at h7
            split_ifs at h7
            obtain rfl := Option.some.inj h7
            exact hA.lookupChildSlot ha hold.hash_lt h9
  obtain ⟨⟨attached, h'⟩, h9, hs⟩ := Option.bind_eq_some_iff.mp hs
  obtain ⟨G₁, hC⟩ := hA.insertLayer hb hnew.hash_lt (fun {h₁ G₁} hC => ⟨G₁,
    ⟨hC.anchored, fun _ => id⟩, hC.held r hheld, fun _ _ => Iff.rfl, id⟩) h9
  simp only at hs
  split_ifs at hs with h10
  · exact h.of_pure hs
  cases hm : (h'.node r).directoryMeta with
  | none =>
      obtain ⟨-, rfl⟩ : _ ∧ _ = s' := by simpa [hm] using hs
      exact pointersHeld_of_carries hr hC rfl
  | some m =>
      simp only [hm] at hs
      have hC₂ :=
        hC.trans (hC.anchored.setMeta (a := r) (makeDirectoryMeta m.ref new.hash new.name))
      have hmoved := pointersHeld_of_carries (t := { s with heap := h'.setMeta r _ }) hr hC₂ rfl
      exact hmoved.detachEdge hC₂.anchored (hC₂.held _ hr) (hC₂.held a ha) hold.hash_lt hs

/-- The calls of a plan. -/
lemma PointersHeld.runPlan {call : LhmNamespace → RenamePlanItem → Option (Bool × LhmNamespace)}
    (hcall : ∀ {s s' : LhmNamespace} {i ok}, s.PointersHeld → call s i = some (ok, s') →
      s'.PointersHeld) : ∀ (is : List RenamePlanItem) {s s' : LhmNamespace} {ok : Bool},
    s.PointersHeld → runPlan call s is = some (ok, s') → s'.PointersHeld
  | [], s, s', ok, h, hs => by
      obtain ⟨-, rfl⟩ : _ ∧ s = s' := by simpa [LhmNamespace.runPlan] using hs
      exact h
  | i :: is, s, s', ok, h, hs => by
      rw [LhmNamespace.runPlan] at hs
      obtain ⟨⟨b, t⟩, h1, hs⟩ := Option.bind_eq_some_iff.mp hs
      have ht := hcall h h1
      simp only at hs
      split_ifs at hs with hb
      · exact runPlan hcall is ht hs
      · exact ht.of_pure hs

lemma PointersHeld.createEntry {hash : Bytes → UInt64} {path : Bytes} {kind : EntryKind}
    {ref : InodeRef} (h : s.PointersHeld) (hs : s.createEntry hash path kind ref = some (ok, s')) :
    s'.PointersHeld := by
  obtain ⟨p, hp, hs⟩ := Option.bind_eq_some_iff.mp hs
  rw [createEntryFromParsed] at hs
  split_ifs at hs
  · exact h.createDirectory (slices_of_parse hp) hs
  · exact h.createFile (slices_of_parse hp) hs

lemma PointersHeld.removeEntry {hash : Bytes → UInt64} {path : Bytes} (h : s.PointersHeld)
    (hs : s.removeEntry hash path = some (ok, s')) : s'.PointersHeld := by
  obtain ⟨p, hp, hs⟩ := Option.bind_eq_some_iff.mp hs
  exact h.removeEntryFromParsed (slices_of_parse hp) hs

/-- **`rename_path`.** -/
lemma PointersHeld.renamePath {hash : Bytes → UInt64} {fuel : ℕ} {oldPath newPath : Bytes}
    (h : s.PointersHeld) (hs : s.renamePath hash fuel oldPath newPath = some (ok, s')) :
    s'.PointersHeld := by
  obtain ⟨old, hold, hs⟩ := Option.bind_eq_some_iff.mp hs
  obtain ⟨new, hnew, hs⟩ := Option.bind_eq_some_iff.mp hs
  split_ifs at hs with h1 h2 h3
  · exact h.of_pure hs
  · exact h.of_pure hs
  · exact h.of_pure hs
  obtain ⟨o, -, hs⟩ := Option.bind_eq_some_iff.mp hs
  cases o with
  | none => exact h.of_pure hs
  | some e =>
  simp only at hs
  split_ifs at hs with h4
  · exact h.renameDirectory (slices_of_parse hold) (slices_of_parse hnew) hs
  rw [renameFile] at hs
  obtain ⟨o, -, hs⟩ := Option.bind_eq_some_iff.mp hs
  cases o with
  | some e => exact h.of_pure hs
  | none =>
  obtain ⟨o, -, hs⟩ := Option.bind_eq_some_iff.mp hs
  cases o with
  | none => exact h.of_pure hs
  | some e =>
  obtain ⟨subtree, -, hs⟩ := Option.bind_eq_some_iff.mp hs
  split_ifs at hs with h5
  · exact h.of_pure hs
  obtain ⟨o, -, hs⟩ := Option.bind_eq_some_iff.mp hs
  cases o with
  | none => exact h.of_pure hs
  | some plan =>
  obtain ⟨⟨b, t⟩, h6, hs⟩ := Option.bind_eq_some_iff.mp hs
  have ht : t.PointersHeld := h.runPlan (fun h0 => h0.createEntry) _ h6
  simp only at hs
  split_ifs at hs with h7
  · exact ht.of_pure hs
  · exact ht.runPlan (fun h0 => h0.removeEntry) _ hs

/-! ## Runs -/

lemma initialState_pointersHeld : initialState.PointersHeld := by
  have hR := initialState_represents
  refine ⟨_, ⟨hR.heap, fun f sl h0 => ?_⟩, ⟨hR.root_lt, hR.not_gone _⟩, hR.root_leaf⟩
  obtain ⟨a, l, h1, -⟩ := (entry_alloc_root (P := namespaceTableParams) none
    (h := emptyHeap) (G := emptyGhost) (fun h => h.elim) f sl).mp h0
  exact h1.elim

/-- A call keeps the pointers. -/
lemma PointersHeld.perform {hash : Bytes → UInt64} {call : BasicCall} {x : Answer}
    (h : s.PointersHeld) (hs : call.perform hash s = some (x, s')) : s'.PointersHeld := by
  have hmap : ∀ {o : Option (Bool × LhmNamespace)},
      (o.map fun r => (Answer.done r.1, r.2)) = some (x, s') → ∃ ok, o = some (ok, s') := by
    intro o h0
    obtain ⟨⟨ok, t⟩, rfl, h1⟩ := Option.map_eq_some_iff.mp h0
    obtain rfl : t = s' := congrArg Prod.snd h1
    exact ⟨ok, rfl⟩
  cases call with
  | mkdir path ref =>
      obtain ⟨ok, h0⟩ := hmap hs
      obtain ⟨p, hp, h0⟩ := Option.bind_eq_some_iff.mp h0
      exact h.createDirectory (slices_of_parse hp) h0
  | creatFile path ref =>
      obtain ⟨ok, h0⟩ := hmap hs
      exact h.createEntry h0
  | removePath path =>
      obtain ⟨ok, h0⟩ := hmap hs
      exact h.removeEntry h0
  | lookupEntry path =>
      obtain ⟨e, -, h1⟩ := Option.map_eq_some_iff.mp hs
      obtain rfl : s = s' := congrArg Prod.snd h1
      exact h

/-- **The pointers stay good in every run**, renames included. -/
theorem PointersHeld.performAll {hash : Bytes → UInt64} : ∀ (calls : List PathCall)
    {s s' : LhmNamespace}, s.PointersHeld → PathCall.performAll hash s calls = some s' →
    s'.PointersHeld
  | [], s, s', h, hs => by
      obtain rfl := Option.some.inj hs
      exact h
  | call :: calls, s, s', h, hs => by
      rw [PathCall.performAll, List.foldlM_cons] at hs
      obtain ⟨t, h1, hs⟩ := Option.bind_eq_some_iff.mp hs
      refine performAll calls (?_ : t.PointersHeld) hs
      cases call with
      | basic call =>
          obtain ⟨⟨x, t'⟩, h2, rfl⟩ := Option.map_eq_some_iff.mp h1
          exact h.perform h2
      | rename oldPath newPath fuel =>
          obtain ⟨⟨ok, t'⟩, h2, rfl⟩ := Option.map_eq_some_iff.mp h1
          exact h.renamePath h2

end LhmNamespace

end MasstreeLHM
