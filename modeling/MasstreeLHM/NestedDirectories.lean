import MasstreeLHM.Runs
import MasstreeLHM.ScanDepth

/-!
# Nested directories

Directories that each have one entry, the next directory, as `mkdir` and `creat_file` build them,
and how deep a scan goes in them.  No call bounds how deep they nest.

A layer with one entry is a `loneLeaf`, and `Nested` describes a chain of them.  `Nested.mkdir` adds
a directory and `Nested.creatFile` puts a file into the last one, by running the operations on the
heap symbolically, with the depth as a variable.

`Scan.At` is where the scan stands at each of the directories, and **`exists_at`** says that it gets
to the last one as long as the slices of the others fit the key buffer.  There it stores one slice
more, so a rename of a file writes behind its buffer from a depth of 128 directories on.
**`renames_scan_within`** is the positive statement: in a run whose file renames start while no
entry is that deep, no scan leaves its buffer.
-/

namespace MasstreeLHM

/-! ## Layers with one entry -/

variable {h : Heap Cell} {a : Ptr} {m : Option DirectoryMeta} {x : ℕ}

/-- The only leaf of a layer with the one entry `sl`. -/
def loneLeaf (m : Option DirectoryMeta) (sl : Slot Cell) : Leaf Cell :=
  { (Leaf.makeRoot namespaceTableParams m : Leaf Cell) with
    modstate := .insert
    permutation := ⟨1, [0, 6, 5, 4, 3, 2, 1]⟩
    slots := sl :: List.replicate 6 ⟨0, default⟩ }

@[simp] lemma slot_loneLeaf (m : Option DirectoryMeta) (sl : Slot Cell) :
    (loneLeaf m sl).slot 0 = sl := rfl

lemma reachLeaf_of_root {l : Leaf Cell} (ha : h.node a = .leaf l) (hr : l.isRoot = true) (y : ℕ) :
    reachLeaf h a y = some a := by
  simp [reachLeaf, climbToRoot, descend, ha, Node.isRoot, hr]

lemma findWith_loneLeaf {sl : Slot Cell} (ha : h.node a = .leaf (loneLeaf m sl))
    (cmp : Slot Cell → ℤ) (y : ℕ) (hcmp : cmp sl = 0) :
    findWith cmp h a y = some ⟨a, 0, some 0⟩ := by
  have hleaf : h.leaf a = loneLeaf m sl := by rw [Heap.leaf, ha]; rfl
  simp [findWith, reachLeaf_of_root ha rfl, hleaf, loneLeaf, Leaf.makeRoot,
    Leaf.make, Kpermuter.live, lowerBy, lowerLoop, Leaf.slot, hcmp]

lemma findWith_empty (ha : h.node a = .leaf (Leaf.makeRoot namespaceTableParams m))
    (cmp : Slot Cell → ℤ) (y : ℕ) : findWith cmp h a y = some ⟨a, 0, none⟩ := by
  have hleaf : h.leaf a = Leaf.makeRoot namespaceTableParams m := by rw [Heap.leaf, ha]; rfl
  simp [findWith, reachLeaf_of_root ha rfl, hleaf, Leaf.makeRoot, Leaf.make, Kpermuter.live,
    Kpermuter.makeEmpty, lowerBy, lowerLoop]

/-- The first entry of a layer. -/
lemma makeRoom_empty (ha : h.node a = .leaf (Leaf.makeRoot namespaceTableParams m))
    (ka : Slot Cell) :
    ∃ h', makeRoom namespaceTableParams h ⟨a, 0, none⟩ ka = some (h', ⟨a, 0, 0⟩) ∧
      h'.size = h.size ∧ (∀ b, b ≠ a → h'.node b = h.node b) ∧
      ∀ (h'' : Heap Cell) (sl : Slot Cell), h''.node a = h'.node a →
        (finishInsert (writeSlot h'' ⟨a, 0, 0⟩ sl) ⟨a, 0, 0⟩).node a = .leaf (loneLeaf m sl) := by
  have hleaf : h.leaf a = Leaf.makeRoot namespaceTableParams m := by rw [Heap.leaf, ha]; rfl
  refine ⟨(h.setLeaf a { h.leaf a with modstate := .insert }).setLeaf a
    (Leaf.assign { h.leaf a with modstate := .insert } 0 ka), ?_, rfl, ?_, ?_⟩
  · rw [makeRoom, if_pos]
    · rw [hleaf]
      rfl
    · rw [hleaf]
      exact ⟨show (0 : ℕ) < 7 by omega, Or.inr (Or.inl rfl)⟩
  · intro b hb
    simp [Heap.setLeaf, hb]
  · intro h'' sl hnode
    have hl : h''.node a = .leaf (Leaf.assign { h.leaf a with modstate := .insert } 0 ka) := by
      rw [hnode]
      simp [Heap.setLeaf]
    rw [hleaf] at hl
    simp only [finishInsert, writeSlot, Heap.setLeaf, Heap.leaf, Heap.node_set, if_true, hl,
      Node.toLeaf_leaf]
    rfl

/-! ## Nested directories -/

variable {hash : Bytes → UInt64} {n : ℕ} {s : LhmNamespace}

/-- `n` directories named `c`, each in the one before and with no other entry; `l` is the leaf of
the last one. -/
structure Nested (hash : Bytes → UInt64) (c : Bytes) (n : ℕ) (l : Leaf Cell) (s : LhmNamespace) :
    Prop where
  root : s.root = 0
  size : s.heap.size = n + 1
  dir : ∀ k < n, ∃ m, s.heap.node k
    = .leaf (loneLeaf m ⟨(hash c).toNat, ⟨layerKeylenx, .layer (k + 1)⟩⟩)
  last : s.heap.node n = .leaf l
  top : l.parent = none

variable {c : Bytes} {l : Leaf Cell}

lemma initialState_nested :
    Nested hash c 0 (Leaf.makeRoot namespaceTableParams none) LhmNamespace.initialState :=
  ⟨rfl, rfl, fun _ hk => absurd hk (by omega), rfl, rfl⟩

/-- A directory slot is found. -/
lemma lookupChildSlot_loneLeaf {x b : ℕ} {l : Leaf Cell}
    (ha : h.node a = .leaf (loneLeaf m ⟨x, ⟨layerKeylenx, .layer b⟩⟩))
    (hb : h.node b = .leaf l) (hp : l.parent = none) :
    lookupChildSlotFromParentRoot h a x = some (.layer b) := by
  have hleaf : h.leaf a = loneLeaf m ⟨x, ⟨layerKeylenx, .layer b⟩⟩ := by rw [Heap.leaf, ha]; rfl
  have hcan : canonicalizeDirectoryRoot h b = some b := by
    rw [canonicalizeDirectoryRoot, canonicalize, hb]
    simp [hp]
  have hfind := findWith_loneLeaf ha (edgeCompare x) x
    (by simp [edgeCompare, compareIkey, Cell.isLayer, layerKeylenx])
  simp [lookupChildSlotFromParentRoot, hfind, hleaf, ksufMatches, layerKeylenx, ksufKeylenx,
    LeafValue.layer?, hcan]

lemma Nested.parent_none (hN : Nested hash c n l s) {k : ℕ} (hk : k ≤ n) :
    ∃ l : Leaf Cell, s.heap.node k = .leaf l ∧ l.parent = none := by
  rcases Nat.lt_or_eq_of_le hk with hk | rfl
  · obtain ⟨m, hm⟩ := hN.dir k hk
    exact ⟨_, hm, rfl⟩
  · exact ⟨l, hN.last, hN.top⟩

/-- The walk to the last directory. -/
lemma Nested.locateLoop (hN : Nested hash c n l s) : ∀ (j k : ℕ), k + j = n →
    MasstreeLHM.locateLoop s.heap k (List.replicate j (hash c).toNat) = some (some n)
  | 0, k, hk => by
      obtain rfl : k = n := by omega
      rfl
  | j + 1, k, hk => by
      obtain ⟨m, hm⟩ := hN.dir k (by omega)
      obtain ⟨l, hl, hp⟩ := hN.parent_none (show k + 1 ≤ n by omega)
      rw [List.replicate_succ, MasstreeLHM.locateLoop, lookupChildSlot_loneLeaf hm hl hp]
      exact hN.locateLoop j (k + 1) (by omega)

lemma Nested.locate (hN : Nested hash c n l s) (hc : IsName c) :
    s.locateDirectoryRoot (ParsedPath.of hash (List.replicate n c)) = some (some n) := by
  have hcs : ∀ d ∈ List.replicate n c, IsName d := fun d hd => (List.eq_of_mem_replicate hd) ▸ hc
  have hloop := hN.locateLoop n 0 (by omega)
  rw [LhmNamespace.locateDirectoryRoot, hN.root]
  by_cases h0 : n = 0
  · subst h0
    rfl
  · have hne : (ParsedPath.of hash (List.replicate n c)).normalizedPath ≠ [slash] := by
      rw [ParsedPath.of_normalizedPath, ne_eq, joinPath_eq_slash hcs]
      simp [h0]
    rw [if_neg hne, ParsedPath.of_hashes, List.map_replicate]
    exact hloop

/-- **`mkdir`** one level deeper. -/
lemma Nested.mkdir (hN : Nested hash c n (Leaf.makeRoot namespaceTableParams m) s) (hc : IsName c)
    (hfit : entryNameFits c = true) (ref : InodeRef) :
    ∃ s', s.mkdir hash (joinPath (List.replicate (n + 1) c)) ref = some (true, s') ∧
      ∃ m', Nested hash c (n + 1) (Leaf.makeRoot namespaceTableParams m') s' := by
  have hcs : ∀ d ∈ List.replicate n c, IsName d := fun d hd => (List.eq_of_mem_replicate hd) ▸ hc
  have hcs' : ∀ d ∈ List.replicate n c ++ [c], IsName d := by
    intro d hd
    rw [← List.replicate_succ'] at hd
    exact (List.eq_of_mem_replicate hd) ▸ hc
  have hm := hN.last
  have hmiss : lookupChildSlotFromParentRoot s.heap n (hash c).toNat = some .missing := by
    simp [lookupChildSlotFromParentRoot, findWith_empty hm]
  obtain ⟨h', h1, h2, h3, h4⟩ := makeRoom_empty hm (LhmNamespace.freshSlot (hash c).toNat)
  have hne : (ParsedPath.of hash (List.replicate n c ++ [c])).normalizedPath ≠ [slash] := by
    rw [ParsedPath.of_normalizedPath, ne_eq, joinPath_eq_slash hcs']
    simp
  let meta' := makeDirectoryMeta ref (hash c).toNat c
  let h'' := h'.alloc (.leaf (Leaf.makeRoot namespaceTableParams (some meta')))
  have hlen : h'.size = n + 1 := h2.trans hN.size
  have hnode : h''.node n = h'.node n := by
    simp only [h'', Heap.node_alloc]
    rw [if_neg (show ¬ n = h'.size by omega)]
  refine ⟨{ s with heap := finishInsert (writeSlot h'' ⟨n, 0, 0⟩
    ⟨(hash c).toNat, ⟨layerKeylenx, .layer h'.size⟩⟩) ⟨n, 0, 0⟩ }, ?_, ?_⟩
  · rw [List.replicate_succ', LhmNamespace.mkdir, parseAbsolutePath_joinPath hcs',
      Option.bind_eq_bind, Option.bind_some, LhmNamespace.createDirectoryFromParsed, if_neg hne,
      if_neg (by simp), ParsedPath.of_parent hcs hc, hN.locate hc]
    simp only [ParsedPath.of_name, ParsedPath.of_hash, hfit, Bool.not_true,
      Bool.false_eq_true, if_false, Option.bind_eq_bind, Option.bind_some, hmiss,
      LhmNamespace.insertLayer, findWith_empty hm, h1]
    rfl
  · have hother : ∀ b, b ≠ n → (finishInsert (writeSlot h'' ⟨n, 0, 0⟩
        ⟨(hash c).toNat, ⟨layerKeylenx, .layer h'.size⟩⟩) ⟨n, 0, 0⟩).node b = h''.node b := by
      intro b hb
      simp [finishInsert, writeSlot, Heap.setLeaf, hb]
    refine ⟨some meta', hN.root, ?_, fun k hk => ?_, ?_, rfl⟩
    · change h'.size + 1 = _
      rw [hlen]
    · rcases Nat.lt_or_eq_of_le (Nat.le_of_lt_succ hk) with hk | rfl
      · obtain ⟨mk, hmk⟩ := hN.dir k hk
        refine ⟨mk, ?_⟩
        simp only
        rw [hother k (by omega)]
        simp only [h'', Heap.node_alloc]
        rw [if_neg (show ¬ k = h'.size by omega), h3 k (ne_of_lt hk), hmk]
      · refine ⟨m, ?_⟩
        simp only
        rw [h4 h'' _ hnode, hlen]
    · simp only
      rw [hother (n + 1) (by omega)]
      simp [h'', hlen]

/-- **`creat_file`** in the last directory. -/
lemma Nested.creatFile (hN : Nested hash c n (Leaf.makeRoot namespaceTableParams m) s)
    (hc : IsName c) {f : Bytes} (hf : IsName f) (hfit : entryNameFits f = true) (ref : InodeRef) :
    ∃ s', s.creatFile hash (joinPath (List.replicate n c ++ [f])) ref = some (true, s') ∧
      Nested hash c n (loneLeaf m ⟨(hash f).toNat, ⟨8, .value ⟨.file, ref, f⟩⟩⟩) s' := by
  have hcs : ∀ d ∈ List.replicate n c, IsName d := fun d hd => (List.eq_of_mem_replicate hd) ▸ hc
  have hcs' : ∀ d ∈ List.replicate n c ++ [f], IsName d := names_concat hcs hf
  have hm := hN.last
  have hmiss : lookupChildSlotFromParentRoot s.heap n (hash f).toNat = some .missing := by
    simp [lookupChildSlotFromParentRoot, findWith_empty hm]
  obtain ⟨h', h1, h2, h3, h4⟩ := makeRoom_empty hm (LhmNamespace.freshSlot (hash f).toNat)
  have hne : (ParsedPath.of hash (List.replicate n c ++ [f])).normalizedPath ≠ [slash] := by
    rw [ParsedPath.of_normalizedPath, ne_eq, joinPath_eq_slash hcs']
    simp
  refine ⟨{ s with heap := finishInsert (writeSlot h' ⟨n, 0, 0⟩
    ⟨(hash f).toNat, ⟨8, .value ⟨.file, ref, f⟩⟩⟩) ⟨n, 0, 0⟩ }, ?_, ?_⟩
  · rw [LhmNamespace.creatFile, LhmNamespace.createEntry, parseAbsolutePath_joinPath hcs',
      Option.bind_eq_bind, Option.bind_some, LhmNamespace.createEntryFromParsed, if_neg (by decide),
      LhmNamespace.createFileFromParsed, if_neg hne, if_neg (by simp), ParsedPath.of_parent hcs hf,
      hN.locate hc]
    simp only [ParsedPath.of_name, ParsedPath.of_hash, hfit, Bool.not_true,
      Bool.false_eq_true, if_false, Option.bind_eq_bind, Option.bind_some, hmiss,
      LhmNamespace.findInsert, findWith_empty hm, h1]
    rfl
  · have hother : ∀ b, b ≠ n → (finishInsert (writeSlot h' ⟨n, 0, 0⟩
        ⟨(hash f).toNat, ⟨8, .value ⟨.file, ref, f⟩⟩⟩) ⟨n, 0, 0⟩).node b = h'.node b := by
      intro b hb
      simp [finishInsert, writeSlot, Heap.setLeaf, hb]
    refine ⟨hN.root, h2.trans hN.size, fun k hk => ?_, h4 h' _ rfl, rfl⟩
    obtain ⟨mk, hmk⟩ := hN.dir k hk
    refine ⟨mk, ?_⟩
    simp only
    rw [hother k (ne_of_lt hk), h3 k (ne_of_lt hk), hmk]

/-- The file is found. -/
lemma Nested.lookupEntry {f : Bytes} {ref : InodeRef}
    (hN : Nested hash c n (loneLeaf m ⟨(hash f).toNat, ⟨8, .value ⟨.file, ref, f⟩⟩⟩) s)
    (hc : IsName c) (hf : IsName f) :
    s.lookupEntry hash (joinPath (List.replicate n c ++ [f])) = some (some ⟨.file, ref, f⟩) := by
  have hcs : ∀ d ∈ List.replicate n c, IsName d := fun d hd => (List.eq_of_mem_replicate hd) ▸ hc
  have hcs' : ∀ d ∈ List.replicate n c ++ [f], IsName d := names_concat hcs hf
  have hne : (ParsedPath.of hash (List.replicate n c ++ [f])).normalizedPath ≠ [slash] := by
    rw [ParsedPath.of_normalizedPath, ne_eq, joinPath_eq_slash hcs']
    simp
  have hm := hN.last
  have hleaf : s.heap.leaf n = loneLeaf m ⟨(hash f).toNat, ⟨8, .value ⟨.file, ref, f⟩⟩⟩ := by
    rw [Heap.leaf, hm]
    rfl
  have hfind := findWith_loneLeaf hm (edgeCompare (hash f).toNat) (hash f).toNat
    (by simp [edgeCompare, compareIkey, compareKey, keyCompare, Cell.isLayer])
  have hslot : lookupChildSlotFromParentRoot s.heap n (hash f).toNat
      = some (.value ⟨.file, ref, f⟩) := by
    simp [lookupChildSlotFromParentRoot, hfind, hleaf, ksufMatches, ksufKeylenx, LeafValue.value?]
  rw [LhmNamespace.lookupEntry, parseAbsolutePath_joinPath hcs', Option.bind_eq_bind,
    Option.bind_some, LhmNamespace.lookupEntryFromParsed, if_neg hne, if_neg (by simp),
    ParsedPath.of_parent hcs hf, hN.locate hc]
  simp [LhmNamespace.lookupChildFromParentRoot, hslot, entryNameEquals]

/-! ## The scan of nested directories -/

namespace Scan

lemma keyCompare_start {sl : Slot Cell} (h : 0 < sl.body.keylenx) : keyCompare 0 0 sl < 0 := by
  rw [keyCompare]
  simp only [compareIkey]
  split_ifs <;> omega

/-- Entering a layer with one entry. -/
lemma findRetry_loneLeaf {sl : Slot Cell} {t : Scan} (hm : h.node t.root = .leaf (loneLeaf m sl))
    (hsl : 0 < sl.body.keylenx) (hikey : t.ka.ikey = 0) (hlen : t.ka.len = 0) :
    findRetry h t = some { t with n := t.root, ki := 0, state := .findNext } := by
  have hleaf : h.leaf t.root = loneLeaf m sl := by rw [Heap.leaf, hm]; rfl
  have hpos : (lowerPosition h t.root t.ka).1 = 0 := by
    have hcmp := keyCompare_start hsl
    simp [lowerPosition, hleaf, hikey, hlen, loneLeaf, Leaf.makeRoot, Leaf.make, Kpermuter.live,
      lowerBy, lowerLoop, Leaf.slot, hcmp]
  have hdel : (h.leaf t.root).deleted = false := by rw [hleaf]; rfl
  rw [findRetry, reachLeaf_of_root hm rfl]
  simp [hdel, hpos]

/-- The scan is at the entry of the `k`th of the nested directories. -/
structure At (s : LhmNamespace) (k : ℕ) (t : Scan) : Prop where
  reach : Relation.ReflTransGen (Leads s.heap) (initial s) t
  state : t.state = .findNext
  n : t.n = k
  ki : t.ki = 0
  ikey : t.ka.ikey = 0
  len : t.ka.len = 0
  shifted : t.ka.shifted.length = k

variable {sl : Slot Cell}

/-- The entry of each directory. -/
lemma nested_slot (hN : Nested hash c n (loneLeaf m sl) s) (hsl : 0 < sl.body.keylenx) {k : ℕ}
    (hk : k ≤ n) : ∃ m' sl', s.heap.node k = .leaf (loneLeaf m' sl') ∧ 0 < sl'.body.keylenx := by
  rcases Nat.lt_or_eq_of_le hk with hk | rfl
  · obtain ⟨m', hm'⟩ := hN.dir k hk
    exact ⟨m', _, hm', show 0 < layerKeylenx by decide⟩
  · exact ⟨m, sl, hN.last, hsl⟩

lemma leafOf_loneLeaf {r b : Ptr} (hr : h.node r = .leaf (loneLeaf m sl)) (hb : LeafOf h r b) :
    b = r := by
  induction hb with
  | reach hn => exact (Option.some.inj ((reachLeaf_of_root hr rfl _).symm.trans hn)).symm
  | next hn hm ih =>
      have hleaf : h.leaf r = loneLeaf m sl := by rw [Heap.leaf, hr]; rfl
      rw [ih, hleaf] at hm
      exact absurd hm (by simp [loneLeaf, Leaf.makeRoot, Leaf.make])

/-- The layers of nested directories. -/
lemma layerAt_nested (hN : Nested hash c n (loneLeaf m sl) s) (hsl : sl.body.lv.layer? = none)
    {d : ℕ} {r : Ptr} (hr : LayerAt s.heap s.root d r) : r = d ∧ d ≤ n := by
  induction hr with
  | root => exact ⟨hN.root, Nat.zero_le n⟩
  | @slot d r b i r' _ hb hi hl ih =>
      obtain ⟨rfl, hd⟩ := ih
      have hone : ∀ {m' sl'}, s.heap.node r = .leaf (loneLeaf m' sl') →
        sl'.body.lv.layer? = some r' := by
        intro m' sl' hm'
        have hleaf : s.heap.leaf r = loneLeaf m' sl' := by rw [Heap.leaf, hm']; rfl
        obtain rfl := leafOf_loneLeaf hm' hb
        rw [hleaf] at hi hl
        obtain rfl : i = 0 := Nat.lt_one_iff.mp hi
        exact hl
      rcases Nat.lt_or_eq_of_le hd with hd | rfl
      · obtain ⟨m', hm'⟩ := hN.dir r hd
        exact ⟨(Option.some.inj (hone hm')).symm, hd⟩
      · exact absurd (hsl.symm.trans (hone hN.last)) (by simp)

/-- A file below `n` directories. -/
lemma shallow_of_nested (hN : Nested hash c n (loneLeaf m sl) s) (hsl : sl.body.lv.layer? = none)
    (hn : 8 * (n + 1) ≤ masstreeMaxkeylen) : s.Shallow := by
  intro d r b hr _ _
  have := (layerAt_nested hN hsl hr).2
  omega

/-- **The scan goes down to the last directory** if the buffer is long enough for the slices of the
others. -/
lemma exists_at (hN : Nested hash c n (loneLeaf m sl) s) (hsl : 0 < sl.body.keylenx) :
    ∀ k ≤ n, 8 * k ≤ masstreeMaxkeylen → ∃ t, At s k t
  | 0, _, _ => by
      obtain ⟨m', sl', hm', hsl'⟩ := nested_slot hN hsl (Nat.zero_le n)
      refine ⟨{ initial s with n := s.root, ki := 0, state := .findNext }, .single ?_,
        rfl, hN.root, rfl, rfl, rfl, rfl⟩
      have hroot : s.heap.node (initial s).root = .leaf (loneLeaf m' sl') := by
        rw [← hm']
        exact congrArg s.heap.node hN.root
      rw [Leads, step, findRetry_loneLeaf hroot hsl' rfl rfl]
      rfl
  | k + 1, hk, hfit => by
      obtain ⟨t, ht⟩ := exists_at hN hsl k (by omega) (by omega)
      obtain ⟨m', hm'⟩ := hN.dir k (by omega)
      obtain ⟨m₁, sl₁, hm₁, hsl₁⟩ := nested_slot hN hsl hk
      have hleaf :
        s.heap.leaf t.n = loneLeaf m' ⟨(hash c).toNat, ⟨layerKeylenx, .layer (k + 1)⟩⟩ := by
        rw [Heap.leaf, ht.n, hm']
        rfl
      let t₁ : Scan := { t with
        ki := 0, ka := ⟨t.ka.shifted, (hash c).toNat, 0⟩, stack := (t.n, t.root) :: t.stack,
        root := k + 1
        entry := .layer (k + 1), state := .down }
      let t₂ : Scan := { t₁ with
        ka := ⟨t.ka.shifted ++ [(hash c).toNat], 0, 0⟩, n := k + 1, ki := 0, state := .findNext }
      have h1 : Leads s.heap t t₁ := by
        have hcmp : ¬ 0 ≤ keyCompare 0 0 ⟨(hash c).toNat, ⟨layerKeylenx, .layer (k + 1)⟩⟩ :=
          not_le.mpr (keyCompare_start (show 0 < layerKeylenx by decide))
        have hget : (loneLeaf m' ⟨(hash c).toNat, ⟨layerKeylenx, .layer (k + 1)⟩⟩).permutation.get 0
          = 0 := rfl
        have hdel : (loneLeaf m' ⟨(hash c).toNat, ⟨layerKeylenx, .layer (k + 1)⟩⟩).deleted =
          false := rfl
        have hsize : (loneLeaf m' ⟨(hash c).toNat, ⟨layerKeylenx, .layer (k + 1)⟩⟩).size = 1 := rfl
        have hlay : (Cell.mk layerKeylenx (.layer (k + 1))).isLayer = true := rfl
        rw [Leads, step, ht.state]
        simp only [findNext, hleaf, ht.ki, ht.ikey, ht.len, hget, slot_loneLeaf, if_neg hcmp,
          ht.shifted, if_neg (not_lt.mpr hfit), hlay, hdel, hsize, LeafValue.layer?]
        rfl
      have h2 : Leads s.heap t₁ t₂ := by
        rw [Leads, step]
        simp only [t₁]
        rw [findRetry_loneLeaf hm₁ hsl₁ rfl rfl]
        rfl
      exact ⟨t₂, (ht.reach.tail h1).tail h2, rfl, rfl, rfl, rfl, rfl, by simp [t₂, ht.shifted]⟩

/-- Then it stores a slice behind the end of the buffer. -/
lemma not_writesWithin_of_nested (hN : Nested hash c n (loneLeaf m sl) s)
    (hsl : 0 < sl.body.keylenx) (hn : 8 * n = masstreeMaxkeylen) : ¬ WritesWithin s := by
  intro hw
  obtain ⟨t, ht⟩ := exists_at hN hsl n le_rfl hn.le
  have hleaf : s.heap.leaf t.n = loneLeaf m sl := by
    rw [Heap.leaf, ht.n, hN.last]
    rfl
  refine hw t t ht.reach (by rw [entering, ht.state]) ⟨?_, ?_, ?_, ?_⟩
  · rw [hleaf]
    rfl
  · rw [hleaf, ht.ki]
    exact Nat.one_pos
  · rw [hleaf, ht.ki, ht.ikey, ht.len]
    exact keyCompare_start hsl
  · rw [ht.shifted]
    omega

end Scan

/-! ## Runs -/

/-- A call, renames included.  `fuel` bounds the scan of the model. -/
inductive PathCall where
  | basic (call : BasicCall)
  | rename (oldPath newPath : Bytes) (fuel : ℕ)

namespace PathCall

/-- Run a call. -/
def perform (hash : Bytes → UInt64) (s : LhmNamespace) : PathCall → Option LhmNamespace
  | basic call => (call.perform hash s).map Prod.snd
  | rename oldPath newPath fuel => (s.renamePath hash fuel oldPath newPath).map Prod.snd

/-- Run calls one after another. -/
def performAll (hash : Bytes → UInt64) (s : LhmNamespace) (calls : List PathCall) :
    Option LhmNamespace := calls.foldlM (perform hash) s

/-- The call renames an existing file, which is where `rename_path` scans the table. -/
def RenamesFile (hash : Bytes → UInt64) (s : LhmNamespace) : PathCall → Prop
  | basic _ => False
  | rename oldPath _ _ => ∃ e, s.lookupEntry hash oldPath = some (some e) ∧ e.kind ≠ .directory

/-- Every file rename of the run starts in a state with `Q`. -/
def RenamesFrom (Q : LhmNamespace → Prop) (hash : Bytes → UInt64) (s : LhmNamespace)
    (calls : List PathCall) : Prop :=
  ∀ before call after s', calls = before ++ call :: after → performAll hash s before = some s' →
    call.RenamesFile hash s' → Q s'

/-- **Scans stay within the key buffer** in every run of calls whose file renames start when no
entry has more components than the buffer has slices. -/
theorem renames_scan_within (hash : Bytes → UInt64) (calls : List PathCall)
    (h : RenamesFrom LhmNamespace.Shallow hash LhmNamespace.initialState calls) :
    RenamesFrom Scan.WritesWithin hash LhmNamespace.initialState calls :=
  fun before call after s' hcalls hs' hcall =>
    Scan.writesWithin_of_shallow (h before call after s' hcalls hs' hcall)

/-- The directories `/d`, `/d/d`, and so on. -/
def mkdirs (n : ℕ) : List PathCall :=
  (List.range n).map fun k => basic (.mkdir (joinPath (List.replicate (k + 1) [100])) ⟨0, 0⟩)

lemma isName_d : IsName [100] := ⟨by decide, by decide, by decide⟩

lemma isName_f : IsName [102] := ⟨by decide, by decide, by decide⟩

lemma performAll_mkdirs (hash : Bytes → UInt64) (n : ℕ) :
    ∃ s m, performAll hash LhmNamespace.initialState (mkdirs n) = some s ∧
      Nested hash [100] n (Leaf.makeRoot namespaceTableParams m) s := by
  induction n with
  | zero => exact ⟨_, none, rfl, initialState_nested⟩
  | succ n ih =>
      obtain ⟨s, m, h1, h2⟩ := ih
      obtain ⟨s', h3, m', h4⟩ := h2.mkdir isName_d rfl ⟨0, 0⟩
      refine ⟨s', m', ?_, h4⟩
      rw [mkdirs, List.range_succ, List.map_append, performAll, List.foldlM_append]
      rw [performAll, mkdirs] at h1
      rw [h1]
      simp [perform, BasicCall.perform, h3]

/-- `n` nested directories, and a file in the last one. -/
def nestedFile (n : ℕ) : List PathCall :=
  mkdirs n ++ [basic (.creatFile (joinPath (List.replicate n [100] ++ [[102]])) ⟨0, 0⟩)]

/-- The same, and the file is renamed. -/
def nestedRename (n : ℕ) : List PathCall :=
  nestedFile n ++ [rename (joinPath (List.replicate n [100] ++ [[102]]))
    (joinPath (List.replicate n [100] ++ [[103]])) 0]

lemma performAll_nestedFile (hash : Bytes → UInt64) (n : ℕ) :
    ∃ s m, performAll hash LhmNamespace.initialState (nestedFile n) = some s ∧
      Nested hash [100] n (loneLeaf m ⟨(hash [102]).toNat, ⟨8, .value ⟨.file, ⟨0, 0⟩, [102]⟩⟩⟩)
        s := by
  obtain ⟨s, m, h1, h2⟩ := performAll_mkdirs hash n
  obtain ⟨s', h3, h4⟩ := h2.creatFile isName_d isName_f rfl ⟨0, 0⟩
  refine ⟨s', m, ?_, h4⟩
  rw [performAll] at h1
  rw [performAll, nestedFile, List.foldlM_append, h1]
  simp [perform, BasicCall.perform, h3]

/-- The only call that renames. -/
lemma renamesFrom_nestedRename {Q : LhmNamespace → Prop} {hash : Bytes → UInt64} {n : ℕ}
    {s : LhmNamespace} (hs : performAll hash LhmNamespace.initialState (nestedFile n) = some s)
    (hQ : Q s) : RenamesFrom Q hash LhmNamespace.initialState (nestedRename n) := by
  intro before call after s' hcalls hs' hcall
  have hbasic : ∀ c ∈ nestedFile n, ¬ c.RenamesFile hash s' := by
    intro c hc
    rw [nestedFile, mkdirs, List.mem_append, List.mem_map] at hc
    rcases hc with ⟨k, -, rfl⟩ | hc
    · exact id
    · rw [List.mem_singleton.mp hc]
      exact id
  have hlast : after = [] := by
    by_contra hne
    obtain ⟨as, a, rfl⟩ := (List.eq_nil_or_concat' after).resolve_left hne
    rw [nestedRename, ← List.cons_append, ← List.append_assoc] at hcalls
    have := (List.append_inj' hcalls rfl).1
    exact hbasic call (by rw [this]; simp) hcall
  subst hlast
  have := (List.append_inj' (show nestedFile n ++ [_] = before ++ [call] from hcalls) rfl).1
  rw [← this, hs] at hs'
  exact Option.some.inj hs' ▸ hQ

/-- With 128 nested directories the rename's scan stores a slice behind the end of its key
buffer. -/
theorem not_renames_scan_within_nestedRename :
    ¬ RenamesFrom Scan.WritesWithin hashComponent LhmNamespace.initialState (nestedRename 128) := by
  intro h
  obtain ⟨s, m, h1, h2⟩ := performAll_nestedFile hashComponent 128
  exact Scan.not_writesWithin_of_nested h2 (show 0 < 8 by omega) rfl
    (h (nestedFile 128) (.rename _ _ 0) [] s rfl h1
      ⟨_, h2.lookupEntry isName_d isName_f, EntryKind.noConfusion⟩)

/-- With 127 it does not. -/
theorem renames_scan_within_nestedRename :
    RenamesFrom Scan.WritesWithin hashComponent LhmNamespace.initialState (nestedRename 127) := by
  obtain ⟨s, m, h1, h2⟩ := performAll_nestedFile hashComponent 127
  exact renames_scan_within hashComponent (nestedRename 127)
    (renamesFrom_nestedRename h1 (Scan.shallow_of_nested h2 rfl (by decide)))

end PathCall

end MasstreeLHM
