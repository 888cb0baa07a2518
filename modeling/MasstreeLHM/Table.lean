import MasstreeLHM.Layer
import MasstreeLHM.Paths

/-!
# The table as a graph of directories

The abstract view of the node heap: every directory is a layer, named by its leftmost leaf, and a
layer is a map from component hashes to contents.  `Represents s G T` says that the state `s` stands
for the table `T`; the lookups of the namespace are functions of `T`, and its updates change `T` at
one cell.

A `Table` has no nodes and no pointers, so it says what the namespace is for: cells, the metadata of
each layer and the buckets.  `Table.locate` follows component hashes, `Table.lookup` and
`Table.find` look entries up, and `Table.Lists` is a directory in order.

A pointer that a lookup may start from is a `Handle`.  With it every search of the source reads one
cell: **`lookupChildSlot_eq`**, **`locateDirectoryRoot_eq`** and **`lookupEntryFromParsed_eq`**.
Walks over a directory are the subject of the last part; **`listing_eq`** says that a listing from
the root of a layer is the records of its cells, in the order of their hashes.
-/

namespace MasstreeLHM

/-- What a slot of the table holds: a directory (its layer) or a value. -/
inductive Content where
  | directory (layer : Ptr)
  | value (v : NamespaceEntry)
deriving Repr, DecidableEq

/-- The abstract table. -/
structure Table where
  layers : Ptr → Prop
  cell : Ptr → ℕ → Option Content
  info : Ptr → Option DirectoryMeta
  root : Ptr
  bucket : ℕ → Option (List NamespaceEntry)
  nextId : ℕ

/-- A content as it is stored: `keylenx_` and `lv_`. -/
def Content.encode : Content → Cell
  | .directory g => ⟨layerKeylenx, .layer g⟩
  | .value v => ⟨8, .value v⟩

lemma Content.encode_inj {c d : Content} (h : c.encode = d.encode) : c = d := by
  cases c <;> cases d <;> simp_all [Content.encode, layerKeylenx]

/-- **The state `s` stands for the table `T`.**  A directory slot points to the leftmost leaf of
its layer; `root_` may be any node of the root layer a cursor can start from. -/
structure Represents (s : LhmNamespace) (G : Ghost) (T : Table) : Prop where
  heap : HeapInv namespaceTableParams byIkey s.heap G
  not_gone : ∀ a, ¬ G.gone a
  root_lt : s.root < s.heap.size
  root_leaf : (s.heap.node s.root).isLeaf = true → G.fam s.root = s.root
  root_fam : G.fam s.root = T.root
  layers : ∀ f, T.layers f ↔ f < s.heap.size ∧ G.fam f = f
  encoded : ∀ f sl, Entry s.heap G f sl → ∃ c : Content, sl.body = c.encode
  cell : ∀ f x c, T.cell f x = some c ↔ Entry s.heap G f ⟨x, c.encode⟩
  target : ∀ f x g, T.cell f x = some (.directory g) → T.layers g
  info : ∀ f, T.layers f → T.info f = (s.heap.node (G.top f)).directoryMeta
  bucket : ∀ id, T.bucket id = s.findBucket id
  nextId : T.nextId = s.nextConflictBucketId

lemma Represents.known {s : LhmNamespace} {G : Ghost} {T : Table} (hR : Represents s G T) {a : Ptr}
    (ha : a < s.heap.size) : G.Known s.heap a := ⟨ha, hR.not_gone a⟩

/-- The component hashes of a path. -/
def hashesOf (hash : Bytes → UInt64) (cs : List Bytes) : List ℕ := cs.map fun c => (hash c).toNat

namespace Table

/-- Follow component hashes from layer `f`. -/
def locate (T : Table) : Ptr → List ℕ → Option Ptr
  | f, [] => some f
  | f, x :: xs =>
      match T.cell f x with
      | some (.directory g) => T.locate g xs
      | _ => none

/-- The entry a directory presents for itself under the name `name`. -/
def directoryEntry (T : Table) (g : Ptr) (name : Bytes) : Option NamespaceEntry :=
  match T.info g with
  | none => none
  | some m =>
      if directoryMetaNameEquals m name then some (makeNamespaceEntry .directory m.ref m.name)
      else none

/-- The entry called `name` under hash `x` in layer `f`. -/
def lookup (T : Table) (f : Ptr) (name : Bytes) (x : ℕ) : Option NamespaceEntry :=
  match T.cell f x with
  | none => none
  | some (.directory g) => T.directoryEntry g name
  | some (.value v) =>
      if v.kind ≠ .conflictChain then if entryNameEquals v name then some v else none
      else
        match T.bucket v.ref.blockId with
        | none => none
        | some es => es.find? (entryNameEquals · name)

/-- The directory and the last name of a path other than `/`; the directory is found by hashes
alone. -/
def parentOf (T : Table) (hash : Bytes → UInt64) (cs : List Bytes) : Option (Ptr × Bytes) :=
  match cs.getLast? with
  | none => none
  | some c => (T.locate T.root (hashesOf hash cs.dropLast)).map fun f => (f, c)

/-- The entry at a path. -/
def find (T : Table) (hash : Bytes → UInt64) (cs : List Bytes) : Option NamespaceEntry :=
  if cs = [] then some (makeNamespaceEntry .directory (makeInodeRef 0 0) [slash])
  else
    match T.parentOf hash cs with
    | none => none
    | some (f, c) => T.lookup f c (hash c).toNat

/-- The records of one cell. -/
def records (T : Table) (parentHashes : List ℕ) (x : ℕ) : Content → List ReaddirRecord
  | .directory g =>
      match T.info g with
      | none => []
      | some m => [⟨parentHashes ++ [m.componentHash], m.componentHash, m.name,
          makeNamespaceEntry .directory m.ref m.name⟩]
  | .value v =>
      let record (e : NamespaceEntry) : ReaddirRecord := ⟨parentHashes ++ [x], x, e.name, e⟩
      if v.kind ≠ .conflictChain then [record v]
      else ((T.bucket v.ref.blockId).getD []).map record

/-- `ps` lists the cells of layer `f` in the order of their hashes. -/
structure Lists (T : Table) (f : Ptr) (ps : List (ℕ × Content)) : Prop where
  sorted : ps.Pairwise fun p q => p.1 < q.1
  mem : ∀ x c, (x, c) ∈ ps ↔ T.cell f x = some c

/-- Change one cell. -/
def setCell (T : Table) (f : Ptr) (x : ℕ) (c : Option Content) : Table :=
  { T with cell := fun g y => if g = f ∧ y = x then c else T.cell g y }

/-- Change the metadata of a layer. -/
def setInfo (T : Table) (f : Ptr) (m : DirectoryMeta) : Table :=
  { T with info := fun g => if g = f then some m else T.info g }

/-- Add a layer. -/
def addLayer (T : Table) (f : Ptr) (m : DirectoryMeta) : Table :=
  { T with layers := fun g => g = f ∨ T.layers g,
           info := fun g => if g = f then some m else T.info g }

/-- Change a bucket. -/
def setBucket (T : Table) (id : ℕ) (es : Option (List NamespaceEntry)) : Table :=
  { T with bucket := fun i => if i = id then es else T.bucket i }

@[simp] lemma parentOf_nil (T : Table) (hash : Bytes → UInt64) : T.parentOf hash [] = none := rfl

@[simp] lemma parentOf_concat (T : Table) (hash : Bytes → UInt64) (cs : List Bytes) (c : Bytes) :
    T.parentOf hash (cs ++ [c])
      = (T.locate T.root (hashesOf hash cs)).map fun f => (f, c) := by
  simp [parentOf]

end Table

namespace Represents

variable {s : LhmNamespace} {G : Ghost} {T : Table}

/-- A pointer a lookup starts from: a node of layer `f` that a cursor may start at. -/
structure Handle (s : LhmNamespace) (G : Ghost) (a f : Ptr) : Prop where
  lt : a < s.heap.size
  start : (s.heap.node a).startable
  fam : G.fam a = f

/-- An internode, or the leftmost leaf of its layer, is a node a cursor may start at. -/
lemma handle_of_leaf (hR : Represents s G T) {a : Ptr} (ha : a < s.heap.size)
    (hleaf : (s.heap.node a).isLeaf = true → G.fam a = a) : Handle s G a (G.fam a) := by
  refine ⟨ha, ?_, rfl⟩
  cases hn : s.heap.node a with
  | internode n => trivial
  | leaf l =>
      have hfam := hleaf (by rw [hn]; rfl)
      have hlive := (hR.heap.tree.fam_spec (hR.known ha)).1
      rw [hfam] at hlive
      exact (hR.heap.leaves a { l with parent := none } hlive (by rw [hn]; rfl)).first.mpr hfam

lemma handle_root (hR : Represents s G T) : Handle s G s.root T.root :=
  hR.root_fam ▸ hR.handle_of_leaf hR.root_lt hR.root_leaf

/-- The root of a layer is a node a cursor may start at: a root leaf is the leftmost leaf. -/
lemma handle_top (hR : Represents s G T) {f : Ptr} (hf : T.layers f) : Handle s G (G.top f) f := by
  obtain ⟨hlt, hfam⟩ := (hR.layers f).mp hf
  have hT := hR.heap.tree
  obtain ⟨h1, -, h3, h4, h5, h6⟩ := hT.top_spec (hR.known hlt)
  rw [hfam] at h1 h3 h4 h5 h6
  have h6 : G.hi (G.top f) = ikeyLimit := h6
  suffices hh : Handle s G (G.top f) (G.fam (G.top f)) by rwa [h3] at hh
  refine hR.handle_of_leaf (hT.live_lt h1) fun hleaf => ?_
  obtain ⟨g1, -, g3⟩ := hT.fam_spec (hR.known hlt)
  rw [hfam] at g1 g3
  have hrange := hT.range g1
  have htop : G.top f = f := hT.leaf_unique h1 g1 hleaf g3 (by rw [h3, hfam])
    (x := G.lo f) ⟨by omega, by omega⟩ ⟨le_rfl, hrange.1⟩
  rw [htop, hfam]

lemma layers_of_fam (hR : Represents s G T) {a : Ptr} (ha : a < s.heap.size) :
    T.layers (G.fam a) := by
  obtain ⟨h1, h2, -⟩ := hR.heap.tree.fam_spec (hR.known ha)
  exact (hR.layers _).mpr ⟨hR.heap.tree.live_lt h1, h2⟩

lemma layers_root (hR : Represents s G T) : T.layers T.root :=
  hR.root_fam ▸ hR.layers_of_fam hR.root_lt

lemma layers_of_entry (hR : Represents s G T) {f : Ptr} {sl : Slot Cell}
    (h : Entry s.heap G f sl) : T.layers f := by
  obtain ⟨a, l, h1, h2, -⟩ := h
  exact h2 ▸ hR.layers_of_fam (hR.heap.tree.live_lt h1)

lemma layers_of_cell (hR : Represents s G T) {f : Ptr} {x : ℕ} {c : Content}
    (h : T.cell f x = some c) : T.layers f :=
  hR.layers_of_entry ((hR.cell f x c).mp h)

/-- An empty cell has no slot. -/
lemma entry_of_none (hR : Represents s G T) {f : Ptr} {x : ℕ} (h : T.cell f x = none)
    {sl : Slot Cell} (hs : Entry s.heap G f sl) : sl.ikey ≠ x := by
  rintro rfl
  obtain ⟨c, hc⟩ := hR.encoded f sl hs
  have : T.cell f sl.ikey = some c := by
    rw [hR.cell, ← hc]
    exact hs
  rw [h] at this
  cases this

/-- The slot of a filled cell is the only one with its slice. -/
lemma entry_of_some (hR : Represents s G T) {f : Ptr} {x : ℕ} {c : Content}
    (h : T.cell f x = some c) {sl : Slot Cell} (hs : Entry s.heap G f sl) (hx : sl.ikey = x) :
    sl = ⟨x, c.encode⟩ :=
  hR.heap.entry_unique hs ((hR.cell f x c).mp h) hx

/-! ## Searches -/

end Represents

lemma edgeCompare_of_lt {x : ℕ} (sl : Slot Cell) (h : sl.ikey < x) : 0 < edgeCompare x sl := by
  have h1 : compareIkey x sl.ikey = 1 := by
    rw [compareIkey, if_neg (by omega), if_neg (by omega)]
  simp [edgeCompare, h1]

lemma edgeCompare_of_gt {x : ℕ} (sl : Slot Cell) (h : x < sl.ikey) : edgeCompare x sl < 0 := by
  have h1 : compareIkey x sl.ikey = -1 := by rw [compareIkey, if_pos h]
  simp [edgeCompare, h1]

lemma edgeCompare_encode (x : ℕ) (c : Content) : edgeCompare x ⟨x, c.encode⟩ = 0 := by
  cases c <;> simp [edgeCompare, compareIkey, Content.encode, Cell.isLayer, layerKeylenx,
    compareKey, keyCompare]

lemma compareKey_of_lt {x : ℕ} (sl : Slot Cell) (h : sl.ikey < x) : 0 < compareKey x sl := by
  have h1 : compareIkey x sl.ikey = 1 := by
    rw [compareIkey, if_neg (by omega), if_neg (by omega)]
  simp [compareKey, keyCompare, h1]

lemma compareKey_of_gt {x : ℕ} (sl : Slot Cell) (h : x < sl.ikey) : compareKey x sl < 0 := by
  have h1 : compareIkey x sl.ikey = -1 := by rw [compareIkey, if_pos h]
  simp [compareKey, keyCompare, h1]

lemma compareKey_value (x : ℕ) (v : NamespaceEntry) :
    compareKey x ⟨x, (Content.value v).encode⟩ = 0 := by
  simp [compareKey, keyCompare, compareIkey, Content.encode]

/-- A cursor with a plain key stops in front of a directory slot. -/
lemma compareKey_directory (x : ℕ) (g : Ptr) :
    compareKey x ⟨x, (Content.directory g).encode⟩ < 0 := by
  simp [compareKey, keyCompare, compareIkey, Content.encode, layerKeylenx]

@[simp] lemma ksufMatches_directory (g : Ptr) : ksufMatches (Content.directory g).encode = -8 := rfl

@[simp] lemma ksufMatches_value (v : NamespaceEntry) : ksufMatches (Content.value v).encode = 1 :=
  rfl

namespace Represents

variable {s : LhmNamespace} {G : Ghost} {T : Table} {a f : Ptr} {x : ℕ}

/-- A search for an edge finds the slot of a filled cell. -/
lemma findEdge_hit (hR : Represents s G T) (ha : Handle s G a f) {c : Content}
    (hc : T.cell f x = some c) :
    ∃ cur l p, findWith (edgeCompare x) s.heap a x = some cur ∧ cur.p = some p ∧
      Stop s.heap G f x cur l ∧ l.entries[cur.i]? = some ⟨x, c.encode⟩ ∧
      l.permutation.live[cur.i]? = some p ∧ l.slot p = ⟨x, c.encode⟩ ∧
      (s.heap.leaf cur.n).slot p = ⟨x, c.encode⟩ := by
  have hent := (hR.cell f x c).mp hc
  rw [← ha.fam] at hent
  obtain ⟨cur, l, p, h1, h2, h3, h4, h5, h6⟩ := findWith_hit
    edgeCompare_of_lt edgeCompare_of_gt hR.heap (hR.known ha.lt) ha.start hent rfl
      (edgeCompare_encode x c)
  have hl : s.heap.leaf cur.n = l := by rw [Heap.leaf, h3.leaf]; rfl
  exact ⟨cur, l, p, h1, h2, ha.fam ▸ h3, h4, h5, h6, by rw [hl]; exact h6⟩

/-- A search for an edge finds nothing in an empty cell. -/
lemma findEdge_miss (hR : Represents s G T) (ha : Handle s G a f) (hx : x < ikeyLimit)
    (hc : T.cell f x = none) :
    ∃ cur l, findWith (edgeCompare x) s.heap a x = some cur ∧ cur.p = none ∧
      Stop s.heap G f x cur l := by
  obtain ⟨cur, l, h1, h2, h3⟩ := findWith_miss edgeCompare_of_lt
    edgeCompare_of_gt hR.heap (hR.known ha.lt) ha.start hx
    (fun sl hs hsx => absurd hsx (hR.entry_of_none hc (ha.fam ▸ hs)))
  exact ⟨cur, l, h1, h2, ha.fam ▸ h3⟩

/-- **`lookup_child_slot_from_parent_root`** reads one cell. -/
lemma lookupChildSlot_eq (hR : Represents s G T) (ha : Handle s G a f) (hx : x < ikeyLimit) :
    lookupChildSlotFromParentRoot s.heap a x = some (match T.cell f x with
      | none => .missing
      | some (.directory g) => .layer (G.top g)
      | some (.value v) => .value v) := by
  rw [lookupChildSlotFromParentRoot]
  cases hc : T.cell f x with
  | none =>
      obtain ⟨cur, l, h1, h2, -⟩ := hR.findEdge_miss ha hx hc
      simp [h1, h2]
  | some c =>
      obtain ⟨cur, l, p, h1, h2, -, -, -, -, h6⟩ := hR.findEdge_hit ha hc
      cases c with
      | directory g =>
          obtain ⟨hlt, hfam⟩ := (hR.layers g).mp (hR.target f x g hc)
          have hcan := hR.heap.tree.canonicalizeDirectoryRoot_eq (hR.known hlt)
          rw [hfam] at hcan
          have hlay : (Content.directory g).encode.lv.layer? = some g := rfl
          simp [h1, h2, h6, hlay, hcan]
      | value v =>
          have hval : (Content.value v).encode.lv.value? = some v := rfl
          simp [h1, h2, h6, hval]

/-- **The descent along component hashes** follows the directories of the table. -/
lemma locateLoop_eq (hR : Represents s G T) : ∀ (xs : List ℕ) {a f : Ptr}, Handle s G a f →
    (∀ x ∈ xs, x < ikeyLimit) → ∃ o, locateLoop s.heap a xs = some o ∧ o.map G.fam = T.locate f xs ∧
      (∀ b ∈ o, Handle s G b (G.fam b)) ∧ (xs ≠ [] → ∀ b ∈ o, b = G.top (G.fam b))
  | [], a, f, ha, _ => ⟨some a, rfl, by simp [Table.locate, ha.fam], by
      rintro b ⟨⟩
      exact ⟨ha.lt, ha.start, rfl⟩, fun h0 => absurd rfl h0⟩
  | x :: xs, a, f, ha, hxs => by
      rw [locateLoop, hR.lookupChildSlot_eq ha (hxs x (by simp)), Table.locate]
      cases hc : T.cell f x with
      | none => exact ⟨none, rfl, rfl, by simp, by simp⟩
      | some c =>
          cases c with
          | value v => exact ⟨none, rfl, rfl, by simp, by simp⟩
          | directory g =>
              have htop := hR.handle_top (hR.target f x g hc)
              obtain ⟨o, h1, h2, h3, h4⟩ := hR.locateLoop_eq xs htop
                (fun y hy => hxs y (by simp [hy]))
              refine ⟨o, h1, h2, h3, fun _ => ?_⟩
              by_cases hxs0 : xs = []
              · subst hxs0
                obtain rfl : some (G.top g) = o := by simpa [locateLoop] using h1
                rintro b ⟨⟩
                rw [htop.fam]
              · exact h4 hxs0

end Represents

/-- The hashes of a path are 64-bit values. -/
lemma hash_lt (hash : Bytes → UInt64) (c : Bytes) : (hash c).toNat < ikeyLimit :=
  (hash c).toNat_lt

lemma hashesOf_lt {hash : Bytes → UInt64} {cs : List Bytes} {x : ℕ} (hx : x ∈ hashesOf hash cs) :
    x < ikeyLimit := by
  obtain ⟨c, -, rfl⟩ := List.mem_map.mp hx
  exact hash_lt hash c

namespace Represents

variable {s : LhmNamespace} {G : Ghost} {T : Table} {hash : Bytes → UInt64} {cs : List Bytes}

/-- **`locate_directory_root`**: the directory at a path, found by hashes alone. -/
lemma locateDirectoryRoot_eq (hR : Represents s G T) (hash : Bytes → UInt64)
    (hcs : ∀ c ∈ cs, IsName c) :
    ∃ o, s.locateDirectoryRoot (ParsedPath.of hash cs) = some o ∧
      o.map G.fam = T.locate T.root (hashesOf hash cs) ∧
      (∀ b ∈ o, Handle s G b (G.fam b)) ∧ (cs ≠ [] → ∀ b ∈ o, b = G.top (G.fam b)) := by
  rw [LhmNamespace.locateDirectoryRoot]
  split_ifs with h0
  · rw [ParsedPath.of_normalizedPath, joinPath_eq_slash hcs] at h0
    subst h0
    refine ⟨some s.root, rfl, by simp [hashesOf, Table.locate, hR.root_fam], ?_,
      fun h0 => absurd rfl h0⟩
    rintro b ⟨⟩
    rw [hR.root_fam]
    exact hR.handle_root
  · obtain ⟨o, h1, h2, h3, h4⟩ := hR.locateLoop_eq (hashesOf hash cs) hR.handle_root
      (fun x hx => hashesOf_lt hx)
    exact ⟨o, h1, h2, h3, fun h5 => h4 (by simpa [hashesOf] using h5)⟩

lemma directoryEntry_eq (hR : Represents s G T) {g : Ptr} (hg : T.layers g) (name : Bytes) :
    LhmNamespace.directoryEntry s.heap (G.top g) name = T.directoryEntry g name := by
  have hinfo := hR.info g hg
  cases hm : (s.heap.node (G.top g)).directoryMeta with
  | none => simp [LhmNamespace.directoryEntry, Table.directoryEntry, hinfo, hm]
  | some m => simp [LhmNamespace.directoryEntry, Table.directoryEntry, hinfo, hm]

/-- **`lookup_child_from_parent_root`.** -/
lemma lookupChild_eq (hR : Represents s G T) {a f : Ptr} (ha : Handle s G a f) (name : Bytes)
    {x : ℕ} (hx : x < ikeyLimit) :
    s.lookupChildFromParentRoot a name x = some (T.lookup f name x) := by
  rw [LhmNamespace.lookupChildFromParentRoot, hR.lookupChildSlot_eq ha hx, Table.lookup]
  cases hc : T.cell f x with
  | none => rfl
  | some c =>
      cases c with
      | directory g =>
          simp only [Option.bind_eq_bind, Option.bind_some]
          rw [hR.directoryEntry_eq (hR.target f x g hc)]
          rfl
      | value v =>
          simp only [Option.bind_eq_bind, Option.bind_some, ← hR.bucket]
          split_ifs
          · rfl
          · rfl
          · cases T.bucket v.ref.blockId <;> rfl

/-- The parent directory and the last name, as the operations find them. -/
lemma parent_eq (hR : Represents s G T) (hash : Bytes → UInt64) (hcs : ∀ c ∈ cs, IsName c) :
    (cs = [] ∧ T.parentOf hash cs = none) ∨ ∃ ds c, cs = ds ++ [c] ∧
      (ParsedPath.of hash cs).normalizedPath ≠ [slash] ∧
      ((s.locateDirectoryRoot (ParsedPath.of hash cs).parent = some none ∧
        T.parentOf hash cs = none) ∨
       ∃ b f, s.locateDirectoryRoot (ParsedPath.of hash cs).parent = some (some b) ∧
        T.parentOf hash cs = some (f, c) ∧ Handle s G b f ∧ T.layers f) := by
  rcases List.eq_nil_or_concat cs with rfl | ⟨ds, c, rfl⟩
  · exact Or.inl ⟨rfl, rfl⟩
  · rw [List.concat_eq_append] at hcs ⊢
    have hds : ∀ d ∈ ds, IsName d := fun d hd => hcs d (by simp [hd])
    refine Or.inr ⟨ds, c, rfl, ?_, ?_⟩
    · rw [ParsedPath.of_normalizedPath, Ne, joinPath_eq_slash hcs]
      simp
    · obtain ⟨o, h1, h2, h3, -⟩ := hR.locateDirectoryRoot_eq hash hds
      rw [ParsedPath.of_parent hds (hcs c (by simp)), h1, Table.parentOf_concat, ← h2]
      cases o with
      | none => exact Or.inl ⟨rfl, rfl⟩
      | some b =>
          have hb := h3 b rfl
          exact Or.inr ⟨b, G.fam b, rfl, rfl, hb, hR.layers_of_fam hb.lt⟩

/-- **`lookup_entry` is the lookup in the table.** -/
lemma lookupEntryFromParsed_eq (hR : Represents s G T) (hcs : ∀ c ∈ cs, IsName c) :
    s.lookupEntryFromParsed (ParsedPath.of hash cs) = some (T.find hash cs) := by
  rw [LhmNamespace.lookupEntryFromParsed, Table.find]
  rcases hR.parent_eq hash hcs with ⟨rfl, -⟩ | ⟨ds, c, rfl, hne, hpar⟩
  · rfl
  · rw [if_neg hne, if_neg (by simp), if_neg (by simp)]
    rcases hpar with ⟨h1, h2⟩ | ⟨b, f, h1, h2, h3, -⟩
    · rw [h1, h2]
      rfl
    · rw [h1, h2]
      simp only [Option.bind_eq_bind, Option.bind_some, ParsedPath.of_name, ParsedPath.of_hash]
      exact hR.lookupChild_eq h3 c (hash_lt hash c)

lemma lookupEntry_eq (hR : Represents s G T) {path : Bytes}
    (hp : parseAbsolutePath hash path = some (ParsedPath.of hash cs))
    (hcs : ∀ c ∈ cs, IsName c) : s.lookupEntry hash path = some (T.find hash cs) := by
  rw [LhmNamespace.lookupEntry, hp]
  exact hR.lookupEntryFromParsed_eq hcs

/-! ## Walking over a directory -/

/-- The cells of a layer in order, as the walk from the root of the layer meets them. -/
lemma exists_lists (hR : Represents s G T) {f : Ptr} (hf : T.layers f) :
    ∃ ps : List (ℕ × Content), T.Lists f ps ∧
      slotsBelow s.heap (s.heap.size + 1) (G.top f) = ps.map fun p => ⟨p.1, p.2.encode⟩ := by
  obtain ⟨hlt, hfam⟩ := (hR.layers f).mp hf
  obtain ⟨hsorted, hmem⟩ := slotsBelow_top hR.heap (hR.known hlt)
  rw [hfam] at hsorted hmem
  generalize slotsBelow s.heap (s.heap.size + 1) (G.top f) = sls at hsorted hmem
  obtain ⟨ps, rfl⟩ : ∃ ps : List (ℕ × Content),
      sls = ps.map fun p => (⟨p.1, p.2.encode⟩ : Slot Cell) := by
    have henc : ∀ sl ∈ sls, ∃ c : Content, sl.body = c.encode := fun sl hsl =>
      hR.encoded f sl ((hmem sl).mp hsl)
    clear hsorted hmem
    induction sls with
    | nil => exact ⟨[], rfl⟩
    | cons sl sls ih =>
        obtain ⟨c, hc⟩ := henc sl (by simp)
        obtain ⟨ps, hps⟩ := ih (fun t ht => henc t (by simp [ht]))
        exact ⟨(sl.ikey, c) :: ps, by simp [hps, ← hc]⟩
  refine ⟨ps, ⟨?_, ?_⟩, rfl⟩
  · rw [List.pairwise_map] at hsorted
    exact hsorted
  · intro x c
    rw [hR.cell, ← hmem, List.mem_map]
    constructor
    · exact fun h => ⟨(x, c), h, rfl⟩
    · rintro ⟨⟨y, d⟩, h1, h2⟩
      obtain ⟨rfl, h3⟩ : y = x ∧ d.encode = c.encode := by simpa using h2
      rwa [← Content.encode_inj h3]

lemma anyChild_eq {f : Ptr → Option Bool} {g : Ptr → Bool} {cs : List (Option Ptr)}
    (h : ∀ c, some c ∈ cs → f c = some (g c)) :
    LhmNamespace.anyChild f cs = some (cs.any fun c => c.elim false g) := by
  induction cs with
  | nil => rfl
  | cons c cs ih =>
      have ih := ih (fun d hd => h d (by simp [hd]))
      cases c with
      | none => simp [LhmNamespace.anyChild, ih]
      | some c =>
          rw [LhmNamespace.anyChild, h c (by simp), ih]
          simp only [Option.bind_eq_bind, Option.bind_some, List.any_cons, Option.elim_some]
          cases g c <;> simp

/-- **`directory_root_has_children`** asks whether the walk meets an item. -/
lemma hasChildren_eq (hR : Represents s G T) : ∀ (fuel : ℕ) {a : Ptr}, G.live a →
    (s.heap.node a).height < fuel → LhmNamespace.directoryRootHasChildren s.heap fuel a
      = some (!(slotsBelow s.heap fuel a).isEmpty)
  | 0, _, _, hf => absurd hf (by omega)
  | fuel + 1, a, ha, hf => by
      rw [LhmNamespace.directoryRootHasChildren, slotsBelow]
      cases hn : s.heap.node a with
      | leaf l =>
          have hok := hR.heap.leaves a { l with parent := none } ha (by rw [hn]; rfl)
          have hlen : l.entries.length = l.size := Leaf.entries_length hok.perm
          simp only [Option.some.injEq]
          cases hes : l.entries with
          | nil => simp [hes] at hlen; simp [← hlen]
          | cons e es => simp [hes] at hlen; simp [← hlen]
      | internode n =>
          simp only
          rw [anyChild_eq (g := fun c => !(slotsBelow s.heap fuel c).isEmpty)]
          · congr 1
            rw [Bool.eq_iff_iff]
            simp only [List.any_eq_true, Bool.not_eq_true', List.isEmpty_eq_false_iff, ne_eq,
              List.flatMap_eq_nil_iff, not_forall]
            constructor
            · rintro ⟨c, hc, h1⟩
              refine ⟨c, hc, ?_⟩
              cases c <;> simp_all
            · rintro ⟨c, hc, h1⟩
              refine ⟨c, hc, ?_⟩
              cases c <;> simp_all
          · intro c hc
            obtain ⟨h1, -, -, h2⟩ := hR.heap.tree.child_live ha hn hc
            exact hR.hasChildren_eq fuel h1 (by omega)

lemma collect_append {α γ : Type} (f : α → Option (List γ)) (as bs : List α) :
    LhmNamespace.collect f (as ++ bs)
      = (LhmNamespace.collect f as).bind fun u => (LhmNamespace.collect f bs).map (u ++ ·) := by
  induction as with
  | nil =>
      simp only [List.nil_append, LhmNamespace.collect, Option.bind_some]
      cases LhmNamespace.collect f bs <;> rfl
  | cons a as ih =>
      simp only [List.cons_append, LhmNamespace.collect, ih]
      cases f a with
      | none => rfl
      | some u =>
          cases LhmNamespace.collect f as with
          | none => rfl
          | some v => cases LhmNamespace.collect f bs <;> simp

lemma collect_flatMap {α γ δ : Type} (f : α → Option (List γ)) (g : δ → List α) (ds : List δ) :
    LhmNamespace.collect f (ds.flatMap g)
      = LhmNamespace.collect (fun d => LhmNamespace.collect f (g d)) ds := by
  induction ds with
  | nil => rfl
  | cons d ds ih =>
      rw [List.flatMap_cons, collect_append, ih, LhmNamespace.collect]
      cases LhmNamespace.collect f (g d) with
      | none => rfl
      | some u =>
          cases LhmNamespace.collect (fun d => LhmNamespace.collect f (g d)) ds <;> rfl

lemma collect_congr {α γ : Type} {f g : α → Option (List γ)} {as : List α}
    (h : ∀ a ∈ as, f a = g a) : LhmNamespace.collect f as = LhmNamespace.collect g as := by
  induction as with
  | nil => rfl
  | cons a as ih =>
      rw [LhmNamespace.collect, LhmNamespace.collect, h a (by simp),
        ih (fun b hb => h b (by simp [hb]))]

lemma collect_eq_some {α γ : Type} {f : α → Option (List γ)} {g : α → List γ} : ∀ {l : List α},
    (∀ a ∈ l, f a = some (g a)) → LhmNamespace.collect f l = some (l.flatMap g)
  | [], _ => rfl
  | a :: l, h => by
      rw [LhmNamespace.collect, h a (by simp), collect_eq_some (fun b hb => h b (by simp [hb]))]
      rfl

lemma collect_map {α β γ : Type} (f : β → Option (List γ)) (g : α → β) : ∀ l : List α,
    LhmNamespace.collect f (l.map g) = LhmNamespace.collect (fun a => f (g a)) l
  | [] => rfl
  | a :: l => by
      rw [List.map_cons, LhmNamespace.collect, LhmNamespace.collect, collect_map f g l]

/-- **`append_directory_children_from_node`** collects the records of the items it meets. -/
lemma appendChildren_eq (hR : Represents s G T) (ph : List ℕ) : ∀ (fuel : ℕ) {a : Ptr}, G.live a →
    (s.heap.node a).height < fuel → s.appendDirectoryChildren ph fuel a
      = LhmNamespace.collect (s.slotRecords ph) (slotsBelow s.heap fuel a)
  | 0, _, _, hf => absurd hf (by omega)
  | fuel + 1, a, ha, hf => by
      rw [LhmNamespace.appendDirectoryChildren, slotsBelow]
      cases hn : s.heap.node a with
      | leaf l => rfl
      | internode n =>
          simp only
          rw [collect_flatMap]
          refine collect_congr fun c hc => ?_
          cases c with
          | none => rfl
          | some c =>
              obtain ⟨h1, -, -, h2⟩ := hR.heap.tree.child_live ha hn hc
              exact hR.appendChildren_eq ph fuel h1 (by omega)

/-- The records of one slot. -/
lemma slotRecords_eq (hR : Represents s G T) (ph : List ℕ) {f : Ptr} {x : ℕ} {c : Content}
    (hc : T.cell f x = some c) :
    s.slotRecords ph ⟨x, c.encode⟩ = some (T.records ph x c) := by
  rw [LhmNamespace.slotRecords]
  cases c with
  | value v =>
      have h1 : (Content.value v).encode.isLayer = false := rfl
      have h2 : (Content.value v).encode.lv.value? = some v := rfl
      simp only [h1, h2, Table.records, hR.bucket, Bool.not_false, if_true, Option.bind_eq_bind,
        Option.bind_some]
      split_ifs <;> rfl
  | directory g =>
      have h1 : (Content.directory g).encode.isLayer = true := rfl
      have h2 : (Content.directory g).encode.lv.layer? = some g := rfl
      obtain ⟨hlt, hfam⟩ := (hR.layers g).mp (hR.target f x g hc)
      have hcan := hR.heap.tree.canonicalizeDirectoryRoot_eq (hR.known hlt)
      rw [hfam] at hcan
      simp only [h1, h2, hcan, Table.records, hR.info g (hR.target f x g hc), Bool.not_true,
        Bool.false_eq_true, if_false, Option.bind_eq_bind, Option.bind_some]
      cases (s.heap.node (G.top g)).directoryMeta <;> rfl

/-- **A listing from the root of a layer** is the records of its cells, in the order of their
hashes. -/
lemma listing_eq (hR : Represents s G T) (ph : List ℕ) {f : Ptr} (hf : T.layers f) :
    ∃ ps, T.Lists f ps ∧ s.appendDirectoryChildren ph (s.heap.size + 1) (G.top f)
      = some (ps.flatMap fun p => T.records ph p.1 p.2) := by
  obtain ⟨ps, hps, heq⟩ := hR.exists_lists hf
  have htop := hR.handle_top hf
  have hlive : G.live (G.top f) := by
    obtain ⟨hlt, hfam⟩ := (hR.layers f).mp hf
    have := (hR.heap.tree.top_spec (hR.known hlt)).1
    rwa [hfam] at this
  refine ⟨ps, hps, ?_⟩
  rw [hR.appendChildren_eq ph _ hlive ((hR.heap.tree.height_lt htop.lt).trans (by omega)), heq]
  rw [collect_map]
  exact collect_eq_some fun p hp => hR.slotRecords_eq ph ((hps.mem p.1 p.2).mp hp)

end Represents

end MasstreeLHM
