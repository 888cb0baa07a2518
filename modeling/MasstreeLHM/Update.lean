import MasstreeLHM.Table

/-!
# Updates of the table

`mkdir`, `creat_file` and `remove_path_for_test` on the abstract table, and the proof that the
operations on the node heap do the same: whatever splits and removals they need, they change one
cell of the table.

The first part are the abstract operations `Table.mkdir`, `Table.create` and `Table.remove`.  A
chain marker goes to the root layer in `Table.insertChain`, whatever the directory, because that is
where the source puts it.

The second part are changes of the heap that keep a representation: **`frame`** for one that keeps
all layers, **`setCell`** for one at a single slice of a single layer, and the four ways in which
that comes about, `makeRoom`, `fill`, `overwrite` and `empty`.  The third part has one theorem for
each operation, put together from these: **`createDirectory_spec`**, **`createFile_spec`**, for
which `insertChain_spec` is the branch of a collision, and **`removeEntry_spec`**.
-/

namespace MasstreeLHM

open LhmNamespace (freshSlot setValue insertLayer findInsert)

namespace Table

/-- `mkdir`; `g` is the new layer. -/
def mkdir (T : Table) (hash : Bytes → UInt64) (cs : List Bytes) (ref : InodeRef) (g : Ptr) :
    Bool × Table :=
  match T.parentOf hash cs with
  | none => (false, T)
  | some (f, c) =>
      let x := (hash c).toNat
      if entryNameFits c ∧ T.cell f x = none then
        (true, (T.addLayer g (makeDirectoryMeta ref x c)).setCell f x (some (.directory g)))
      else (false, T)

/-- `insert_into_conflict_chain` at a cell with value `v`.  The marker of a new chain goes to the
root layer, whatever the layer of the cell is. -/
def insertChain (T : Table) (x : ℕ) (v e : NamespaceEntry) : Bool × Table :=
  if v.kind = .conflictChain then
    match T.bucket v.ref.blockId with
    | none => (false, T)
    | some es =>
        if es.any (entryNameEquals · e.name) then (false, T)
        else (true, T.setBucket v.ref.blockId (some (es ++ [e])))
  else if entryNameEquals v e.name then (false, T)
  else
    let id := T.nextId
    let T₁ := { T with nextId := (id + 1) % 2 ^ 32 }
    match T.cell T.root x with
    | some (.value _) =>
        let T₂ := if (T.bucket id).isSome then T₁ else T₁.setBucket id (some [v, e])
        (true, T₂.setCell T.root x
          (some (.value (makeNamespaceEntry .conflictChain (makeInodeRef id 0) []))))
    | _ => (false, T₁.setBucket id none)

/-- `create_entry` for a file. -/
def create (T : Table) (hash : Bytes → UInt64) (cs : List Bytes) (ref : InodeRef)
    (kind : EntryKind) : Bool × Table :=
  match T.parentOf hash cs with
  | none => (false, T)
  | some (f, c) =>
      let x := (hash c).toNat
      let e := makeNamespaceEntry kind ref c
      if !entryNameFits c then (false, T)
      else
        match T.cell f x with
        | some (.directory _) => (false, T)
        | some (.value v) => T.insertChain x v e
        | none => (true, T.setCell f x (some (.value e)))

/-- A call of `creat_file` that starts a new conflict chain: its cell holds a plain file of
another name. -/
def StartsChain (T : Table) (hash : Bytes → UInt64) (cs : List Bytes) : Prop :=
  ∃ f c v, T.parentOf hash cs = some (f, c) ∧ T.cell f (hash c).toNat = some (.value v) ∧
    v.kind ≠ .conflictChain ∧ v.name ≠ c

/-- `remove_entry` at a cell with value `v`. -/
def removeValue (T : Table) (f : Ptr) (x : ℕ) (v : NamespaceEntry) (name : Bytes) : Bool × Table :=
  if v.kind ≠ .conflictChain then
    if !entryNameEquals v name ∨ v.kind ≠ .file then (false, T) else (true, T.setCell f x none)
  else
    match T.bucket v.ref.blockId with
    | none => (false, T)
    | some es =>
        let i := es.findIdx (entryNameEquals · name)
        match es[i]? with
        | none => (false, T)
        | some e =>
            if e.kind ≠ .file then (false, T)
            else if es.length = 1 then
              (true, (T.setBucket v.ref.blockId none).setCell f x none)
            else
              match es.eraseIdx i with
              | [survivor] =>
                  (true, (T.setBucket v.ref.blockId none).setCell f x (some (.value survivor)))
              | es => (true, T.setBucket v.ref.blockId (some es))

open Classical in
/-- `remove_entry`. -/
noncomputable def remove (T : Table) (hash : Bytes → UInt64) (cs : List Bytes) : Bool × Table :=
  match T.parentOf hash cs with
  | none => (false, T)
  | some (f, c) =>
      let x := (hash c).toNat
      match T.cell f x with
      | none => (false, T)
      | some (.value v) => T.removeValue f x v c
      | some (.directory g) =>
          if T.directoryEntry g c = none ∨ ∃ y, T.cell g y ≠ none then (false, T)
          else (true, T.setCell f x none)

end Table

/-! ## The heap changes and the table follows -/

namespace Represents

variable {s : LhmNamespace} {G G' : Ghost} {T : Table} {h' : Heap Cell}

/-- **A change of the heap that keeps the layers** changes the cells only. -/
lemma frame (hR : Represents s G T) (hI : HeapInv namespaceTableParams byIkey h' G')
    (hF : Frame s.heap G h' G') {cell : Ptr → ℕ → Option Content}
    (henc : ∀ f sl, Entry h' G' f sl → ∃ c : Content, sl.body = c.encode)
    (hcell : ∀ f x c, cell f x = some c ↔ Entry h' G' f ⟨x, c.encode⟩)
    (htarget : ∀ f x g, cell f x = some (.directory g) → T.layers g) :
    Represents { s with heap := h' } G' { T with cell := cell } := by
  have hroot := hF.fam s.root hR.root_lt
  have hgone : ∀ a, ¬ G'.gone a := by
    rw [hF.gone]
    exact hR.not_gone
  refine ⟨hI, hgone, hR.root_lt.trans_le hF.size_le, ?_, hroot.trans hR.root_fam, ?_, henc, hcell,
    htarget, ?_, hR.bucket, hR.nextId⟩
  · intro h0
    rw [hroot]
    exact hR.root_leaf ((hF.isLeaf s.root hR.root_lt).symm.trans h0)
  · intro f
    change T.layers f ↔ f < h'.size ∧ G'.fam f = f
    rw [hR.layers]
    constructor
    · rintro ⟨h1, h2⟩
      exact ⟨h1.trans_le hF.size_le, (hF.fam f h1).trans h2⟩
    · rintro ⟨h1, h2⟩
      obtain ⟨b, hb, hfb⟩ := hF.new_fam f ⟨h1, hgone f⟩
      obtain ⟨h3, h4, -⟩ := hR.heap.tree.fam_spec hb
      rw [← hfb, h2] at h3 h4
      exact ⟨hR.heap.tree.live_lt h3, h4⟩
  · intro f hf
    obtain ⟨h1, h2⟩ := (hR.layers f).mp hf
    have := hF.directoryMeta f (hR.known h1)
    rw [h2] at this
    exact (hR.info f hf).trans this.symm

/-- A change of the heap that keeps the layers and their items. -/
lemma same (hR : Represents s G T) (hI : HeapInv namespaceTableParams byIkey h' G')
    (hF : Frame s.heap G h' G') (hE : ∀ f sl, Entry h' G' f sl ↔ Entry s.heap G f sl) :
    Represents { s with heap := h' } G' T :=
  hR.frame hI hF (fun f sl h0 => hR.encoded f sl ((hE f sl).mp h0))
    (fun f x c => (hR.cell f x c).trans (hE f _).symm) hR.target

/-- **A change of the heap at one slice of one layer** changes one cell. -/
lemma setCell (hR : Represents s G T) (hI : HeapInv namespaceTableParams byIkey h' G')
    (hF : Frame s.heap G h' G') {f : Ptr} {x : ℕ} {o : Option Content}
    (hE : ∀ g t, Entry h' G' g t ↔
      (Entry s.heap G g t ∧ ¬ (g = f ∧ t.ikey = x)) ∨
        (g = f ∧ ∃ c, o = some c ∧ t = ⟨x, c.encode⟩))
    (htarget : ∀ g, o = some (.directory g) → T.layers g) :
    Represents { s with heap := h' } G' (T.setCell f x o) := by
  refine hR.frame hI hF ?_ ?_ ?_
  · intro g t h0
    rcases (hE g t).mp h0 with ⟨h1, -⟩ | ⟨-, c, -, rfl⟩
    · exact hR.encoded g t h1
    · exact ⟨c, rfl⟩
  · intro g y d
    rw [hE]
    by_cases h0 : g = f ∧ y = x
    · rw [if_pos h0]
      constructor
      · intro h1
        exact Or.inr ⟨h0.1, d, h1, by rw [h0.2]⟩
      · rintro (⟨-, h1⟩ | ⟨-, c, h1, h2⟩)
        · exact absurd h0 h1
        · rw [h1]
          have : d.encode = c.encode := by simpa using congrArg Slot.body h2
          rw [Content.encode_inj this]
    · rw [if_neg h0, hR.cell]
      constructor
      · intro h1
        exact Or.inl ⟨h1, h0⟩
      · rintro (⟨h1, -⟩ | ⟨h1, c, -, h2⟩)
        · exact h1
        · exact absurd ⟨h1, by simpa using congrArg Slot.ikey h2⟩ h0
  · intro g y d h0
    split_ifs at h0 with h1
    · exact htarget d h0
    · exact hR.target g y d h0

/-- A new layer. -/
lemma alloc (hR : Represents s G T) (m : DirectoryMeta) :
    Represents { s with heap := s.heap.alloc (.leaf (Leaf.makeRoot namespaceTableParams (some m))) }
      (G.alloc s.heap.size) (T.addLayer s.heap.size m) := by
  have hE := entry_alloc_root (P := namespaceTableParams) (some m) (h := s.heap)
    hR.heap.tree.live_lt
  have hfam : ∀ {a}, a < s.heap.size → (G.alloc s.heap.size).fam a = G.fam a :=
    fun ha => if_neg ha.ne
  have hnode : ∀ {a}, a < s.heap.size →
      (s.heap.alloc (.leaf (Leaf.makeRoot namespaceTableParams (some m)))).node a = s.heap.node a :=
    fun ha => by rw [Heap.node_alloc, if_neg ha.ne]
  have hnot : ∀ f, T.layers f → f ≠ s.heap.size := fun f hf => ((hR.layers f).mp hf).1.ne
  refine ⟨hR.heap.alloc_root (some m), hR.not_gone, hR.root_lt.trans (Nat.lt_succ_self _), ?_,
    (hfam hR.root_lt).trans hR.root_fam, ?_, ?_, ?_, ?_, ?_, hR.bucket, hR.nextId⟩
  · rw [hfam hR.root_lt]
    intro h0
    simp only at h0
    rw [hnode hR.root_lt] at h0
    exact hR.root_leaf h0
  · intro f
    change f = s.heap.size ∨ T.layers f ↔ f < s.heap.size + 1 ∧ (G.alloc s.heap.size).fam f = f
    rw [hR.layers]
    constructor
    · rintro (rfl | ⟨h1, h2⟩)
      · exact ⟨Nat.lt_succ_self _, if_pos rfl⟩
      · exact ⟨h1.trans (Nat.lt_succ_self _), (hfam h1).trans h2⟩
    · rintro ⟨h1, h2⟩
      by_cases hf : f = s.heap.size
      · exact Or.inl hf
      · have hlt : f < s.heap.size := lt_of_le_of_ne (Nat.lt_succ_iff.mp h1) hf
        exact Or.inr ⟨hlt, (hfam hlt).symm.trans h2⟩
  · exact fun f sl h0 => hR.encoded f sl ((hE f sl).mp h0)
  · exact fun f x c => (hR.cell f x c).trans (hE f _).symm
  · exact fun f x g h0 => Or.inr (hR.target f x g h0)
  · intro f hf
    change (if f = s.heap.size then some m else T.info f) = _
    by_cases hfs : f = s.heap.size
    · rw [if_pos hfs, hfs]
      have : (G.alloc s.heap.size).top s.heap.size = s.heap.size := if_pos rfl
      simp [this, Leaf.makeRoot]
    · have hf' : T.layers f := hf.resolve_left hfs
      have htop : (G.alloc s.heap.size).top f = G.top f := if_neg hfs
      rw [if_neg hfs, htop, hR.info f hf']
      simp only
      rw [hnode (hR.handle_top hf').lt]

/-! ## One cell filled, changed or emptied -/

variable {f : Ptr} {x : ℕ}

/-- Making room in the layer of an empty cell keeps the table. -/
lemma makeRoom (hR : Represents s G T) {cur : Cursor} {l : Leaf Cell}
    (hS : Stop s.heap G f x cur l) :
    ∃ h₁ G₁ pos l', makeRoom namespaceTableParams s.heap cur (freshSlot x) = some (h₁, pos) ∧
      Represents { s with heap := h₁ } G₁ T ∧ Frame s.heap G h₁ G₁ ∧
      (∀ g, g ≠ f → G₁.top g = G.top g) ∧
      Room namespaceTableParams h₁ G₁ f pos x (fun t => t.ikey < x) (fun t => x ≤ t.ikey) l' := by
  obtain ⟨h₁, G₁, pos, l', heq, hI, hF, htop, hroom, hE⟩ := makeRoom_layer hR.heap hS
    (show (freshSlot x).ikey = x from rfl)
  exact ⟨h₁, G₁, pos, l', heq, hR.same hI hF hE, hF, htop, hroom⟩

/-- Filling the slot that was made fills the cell. -/
lemma fill (hR : Represents s G T) {pos : Position} {l : Leaf Cell} (c : Content)
    (hroom : Room namespaceTableParams s.heap G f pos x (fun t => t.ikey < x)
      (fun t => x ≤ t.ikey) l) (hnone : T.cell f x = none)
    (hc : ∀ g, c = .directory g → T.layers g) :
    Represents { s with heap := finishInsert (writeSlot s.heap pos ⟨x, c.encode⟩) pos } G
      (T.setCell f x (some c)) := by
  obtain ⟨hI, hF, hE⟩ := finishInsert_layer hR.heap hroom
    (fun t ht => hR.entry_of_none hnone ht) (show (⟨x, c.encode⟩ : Slot Cell).ikey = x from rfl)
  refine hR.setCell hI hF (fun g t => ?_) (fun g hg => hc g (Option.some.inj hg))
  rw [hE]
  constructor
  · rintro (h0 | ⟨rfl, rfl⟩)
    · refine Or.inl ⟨h0, ?_⟩
      rintro ⟨rfl, h1⟩
      exact hR.entry_of_none hnone h0 h1
    · exact Or.inr ⟨rfl, c, rfl, rfl⟩
  · rintro (⟨h0, -⟩ | ⟨rfl, d, hd, rfl⟩)
    · exact Or.inl h0
    · obtain rfl := Option.some.inj hd
      exact Or.inr ⟨rfl, rfl⟩

/-- Overwriting the value of a cell. -/
lemma overwrite (hR : Represents s G T) {cur : Cursor} {l : Leaf Cell} {p : ℕ} {v : NamespaceEntry}
    (hS : Stop s.heap G f x cur l) (hp : l.permutation.live[cur.i]? = some p)
    (hv : l.slot p = ⟨x, (Content.value v).encode⟩) (v' : NamespaceEntry) :
    Represents { s with heap := setValue s.heap cur.n p v' } G
      (T.setCell f x (some (.value v'))) := by
  have hleaf : s.heap.leaf cur.n = l := by rw [Heap.leaf, hS.leaf]; rfl
  have hset : setValue s.heap cur.n p v'
      = s.heap.setLeaf cur.n (l.assign p ⟨x, (Content.value v').encode⟩) := by
    rw [setValue, hleaf, hv]
    rfl
  obtain ⟨hI, hF, hE⟩ := overwrite_layer hR.heap hS hp hv
    (show (⟨x, (Content.value v').encode⟩ : Slot Cell).ikey = x from rfl)
  rw [hset]
  have hcell : T.cell f x = some (.value v) := by
    rw [hR.cell]
    refine ⟨cur.n, { l with parent := none }, hS.live, hS.fam, by rw [hS.leaf]; rfl, ?_⟩
    rw [← hv]
    exact List.mem_map_of_mem (f := l.slot) (List.mem_of_getElem? hp)
  refine hR.setCell hI hF (fun g t => ?_) (fun g hg => by simp at hg)
  rw [hE]
  constructor
  · rintro (⟨h0, h1⟩ | ⟨rfl, rfl⟩)
    · refine Or.inl ⟨h0, ?_⟩
      rintro ⟨rfl, h2⟩
      exact h1 ⟨rfl, hR.entry_of_some hcell h0 h2⟩
    · exact Or.inr ⟨rfl, _, rfl, rfl⟩
  · rintro (⟨h0, h1⟩ | ⟨rfl, d, hd, rfl⟩)
    · refine Or.inl ⟨h0, ?_⟩
      rintro ⟨rfl, rfl⟩
      exact h1 ⟨rfl, rfl⟩
    · obtain rfl := Option.some.inj hd
      exact Or.inr ⟨rfl, rfl⟩

/-- Emptying a cell. -/
lemma empty (hR : Represents s G T) {cur : Cursor} {l : Leaf Cell} {c : Content}
    (hS : Stop s.heap G f x cur l) (hc : T.cell f x = some c)
    (hs : l.entries[cur.i]? = some ⟨x, c.encode⟩) :
    ∃ h' G', finishRemove s.heap cur.n cur.i = some h' ∧
      Represents { s with heap := h' } G' (T.setCell f x none) := by
  obtain ⟨h', G', heq, hI, hF, hE⟩ := finishRemove_layer hR.heap hS hs
  refine ⟨h', G', heq, hR.setCell hI hF (fun g t => ?_) (by simp)⟩
  rw [hE]
  constructor
  · rintro ⟨h0, h1⟩
    refine Or.inl ⟨h0, ?_⟩
    rintro ⟨rfl, h2⟩
    exact h1 ⟨rfl, hR.entry_of_some hc h0 h2⟩
  · rintro (⟨h0, h1⟩ | ⟨-, c, hc, -⟩)
    · refine ⟨h0, ?_⟩
      rintro ⟨rfl, rfl⟩
      exact h1 ⟨rfl, rfl⟩
    · cases hc

/-! ## Creating -/

variable {hash : Bytes → UInt64} {cs : List Bytes}

/-- **`create_layer_with_meta`** at an empty cell. -/
lemma insertLayer_new (hR : Represents s G T) {a : Ptr} (ha : Handle s G a f) (hx : x < ikeyLimit)
    (hc : T.cell f x = none) (m : DirectoryMeta) :
    ∃ h' G' g, insertLayer s.heap a x (fun h =>
        (h.size, h.alloc (.leaf (Leaf.makeRoot namespaceTableParams (some m))))) = some (true, h') ∧
      ¬ T.layers g ∧ Represents { s with heap := h' } G'
        ((T.addLayer g m).setCell f x (some (.directory g))) := by
  obtain ⟨cur, l, h1, h2, hS⟩ := hR.findEdge_miss ha hx hc
  obtain ⟨h₁, G₁, pos, l', heq, hR₁, -, -, hroom⟩ := hR.makeRoom hS
  have hR₂ := hR₁.alloc m
  have hroom₂ :=
    hroom.alloc_leaf (l := Leaf.makeRoot namespaceTableParams (some m)) hR₁.heap.tree.live_lt
  have hR₃ := hR₂.fill (.directory h₁.size) hroom₂ hc
    (fun g hg => Or.inl (Content.directory.inj hg).symm)
  have hnew : ¬ T.layers h₁.size := fun h0 => lt_irrefl _ ((hR₁.layers h₁.size).mp h0).1
  refine ⟨_, _, h₁.size, ?_, hnew, hR₃⟩
  simp only [insertLayer, h1, h2, heq, Option.bind_eq_bind, Option.bind_some]
  rfl

/-- **`mkdir`** is `mkdir` on the table. -/
lemma createDirectory_spec (hR : Represents s G T) (hash : Bytes → UInt64)
    (hcs : ∀ c ∈ cs, IsName c) (ref : InodeRef) :
    ∃ s' G' g, s.createDirectoryFromParsed (ParsedPath.of hash cs) ref
        = some ((T.mkdir hash cs ref g).1, s') ∧ ¬ T.layers g ∧
      Represents s' G' (T.mkdir hash cs ref g).2 ∧
      ((T.mkdir hash cs ref g).1 = false → s' = s) := by
  obtain ⟨g₀, hg₀⟩ : ∃ g, ¬ T.layers g := ⟨s.heap.size, fun h0 =>
    lt_irrefl _ ((hR.layers _).mp h0).1⟩
  rw [LhmNamespace.createDirectoryFromParsed]
  rcases hR.parent_eq hash hcs with ⟨rfl, h0⟩ | ⟨ds, c, rfl, hne, hpar⟩
  · refine ⟨s, G, g₀, ?_, hg₀, ?_, fun _ => rfl⟩
    · simp [Table.mkdir, joinPath]
    · simpa [Table.mkdir] using hR
  rw [if_neg hne, if_neg (by simp), ParsedPath.of_name, ParsedPath.of_hash]
  rcases hpar with ⟨h1, h2⟩ | ⟨b, f, h1, h2, h3, -⟩
  · refine ⟨s, G, g₀, ?_, hg₀, ?_, fun _ => rfl⟩
    · simp only [Table.mkdir, h2, h1]
      split_ifs <;> rfl
    · simpa only [Table.mkdir, h2] using hR
  simp only [Table.mkdir, h2, h1, Option.bind_eq_bind, Option.bind_some]
  by_cases hfit : entryNameFits c = true
  · rw [if_neg (by simp [hfit]), hR.lookupChildSlot_eq h3 (hash_lt hash c)]
    cases hc : T.cell f (hash c).toNat with
    | none =>
        obtain ⟨h', G', g, heq, hg, hR'⟩ := hR.insertLayer_new h3 (hash_lt hash c) hc
          (makeDirectoryMeta ref (hash c).toNat c)
        refine ⟨{ s with heap := h' }, G', g, ?_, hg, ?_, ?_⟩
        · simp [heq, hfit]
        · simpa [hfit] using hR'
        · simp [hfit]
    | some d =>
        refine ⟨s, G, g₀, ?_, hg₀, ?_, fun _ => rfl⟩
        · cases d <;> simp
        · simpa using hR
  · refine ⟨s, G, g₀, ?_, hg₀, ?_, fun _ => rfl⟩
    · simp [hfit]
    · simpa [hfit] using hR

/-! ## Buckets -/

end Represents

namespace LhmNamespace

variable (s : LhmNamespace) (id i : ℕ)

lemma findBucket_eraseBucket :
    (s.eraseBucket id).findBucket i = if i = id then none else s.findBucket i := by
  rw [findBucket, findBucket, eraseBucket]
  simp only
  induction s.conflictBuckets with
  | nil => simp
  | cons b bs ih =>
      obtain ⟨k, es⟩ := b
      by_cases hk : k = id
      · subst hk
        simp only [List.filter_cons, bne_self_eq_false, Bool.false_eq_true, if_false, ih,
          List.lookup_cons]
        split_ifs with h0
        · rfl
        · rw [beq_eq_false_iff_ne.mpr h0]
      · simp only [List.filter_cons, bne_iff_ne.mpr hk, if_true, List.lookup_cons, ih]
        by_cases hik : i = k
        · subst hik
          simp [hk]
        · rw [beq_eq_false_iff_ne.mpr hik]

lemma findBucket_setBucket {es₀ : List NamespaceEntry} (h : s.findBucket id = some es₀)
    (es : List NamespaceEntry) :
    (s.setBucket id es).findBucket i = if i = id then some es else s.findBucket i := by
  rw [findBucket] at h
  rw [findBucket, findBucket, setBucket]
  simp only
  generalize s.conflictBuckets = bs at h
  induction bs with
  | nil => simp at h
  | cons b bs ih =>
      obtain ⟨k, es₁⟩ := b
      by_cases hk : k = id
      · subst hk
        simp only [List.map_cons, if_true, List.lookup_cons]
        by_cases hik : i = k
        · subst hik
          simp
        · rw [beq_eq_false_iff_ne.mpr hik, if_neg hik]
          simp only
          clear ih h
          -- the other buckets keep their contents
          induction bs with
          | nil => rfl
          | cons c cs ih =>
              obtain ⟨m, es₂⟩ := c
              by_cases hm : m = k
              · subst hm
                simp [List.lookup_cons, beq_eq_false_iff_ne.mpr hik, ih]
              · simp [List.lookup_cons, hm, ih]
      · have hne : (id == k) = false := beq_eq_false_iff_ne.mpr (Ne.symm hk)
        simp only [List.lookup_cons, hne] at h
        simp only [List.map_cons, hk, if_false, List.lookup_cons, ih h]
        by_cases hik : i = k
        · subst hik
          simp [hk]
        · rw [beq_eq_false_iff_ne.mpr hik]

lemma findBucket_emplaceBucket (es : List NamespaceEntry) :
    (s.emplaceBucket id es).findBucket i
      = if i = id ∧ s.findBucket id = none then some es else s.findBucket i := by
  rw [emplaceBucket]
  cases h : s.findBucket id with
  | some es₀ => simp
  | none =>
      simp only [Option.isSome_none, Bool.false_eq_true, if_false, and_true]
      by_cases hi : i = id
      · subst hi
        simp [findBucket]
      · simp [findBucket, List.lookup_cons, beq_eq_false_iff_ne.mpr hi, hi]

end LhmNamespace

namespace Represents

variable {s : LhmNamespace} {G G' : Ghost} {T : Table} {f : Ptr} {x : ℕ} {hash : Bytes → UInt64}
  {cs : List Bytes}

/-- Changing the buckets only. -/
lemma withBuckets (hR : Represents s G T) {s' : LhmNamespace} {b : ℕ → Option (List NamespaceEntry)}
    {k : ℕ} (hheap : s'.heap = s.heap) (hroot : s'.root = s.root)
    (hb : ∀ id, b id = s'.findBucket id) (hk : k = s'.nextConflictBucketId) :
    Represents s' G { T with bucket := b, nextId := k } := by
  obtain ⟨h1, h0, h2, h3, h4, h5, h6, h7, h8, h9, -, -⟩ := hR
  rw [← hheap] at h1 h2 h3 h5 h6 h7 h9
  rw [← hroot] at h2 h3 h4
  exact ⟨h1, h0, h2, h3, h4, h5, h6, h7, h8, h9, hb, hk⟩

/-- `fix_root` moves `root_` inside the root layer. -/
lemma fixRoot (hR : Represents s G T) : Represents s.fixRoot G T := by
  rw [LhmNamespace.fixRoot]
  split_ifs with h0
  · exact hR
  · cases hp : (s.heap.node s.root).parent with
    | none => exact hR
    | some p =>
        obtain ⟨hlt, hfam, -, hint⟩ := hR.heap.tree.up (hR.known hR.root_lt) hp
        refine ⟨hR.heap, hR.not_gone, hlt.1, ?_, hfam.trans hR.root_fam, hR.layers, hR.encoded,
          hR.cell, hR.target, hR.info, hR.bucket, hR.nextId⟩
        intro h1
        simp only [Option.getD_some] at h1
        rw [hint] at h1
        cases h1

/-! ## `find_insert` -/

/-- `find_insert` stops at the slot of a value. -/
lemma findInsert_found (hR : Represents s G T) {a : Ptr} (ha : Handle s G a f) {v : NamespaceEntry}
    (hc : T.cell f x = some (.value v)) :
    ∃ cur l p, findInsert s.heap a x = some (.found cur p) ∧ Stop s.heap G f x cur l ∧
      l.permutation.live[cur.i]? = some p ∧ l.slot p = ⟨x, (Content.value v).encode⟩ := by
  have hent := (hR.cell f x _).mp hc
  rw [← ha.fam] at hent
  obtain ⟨cur, l, p, h1, h2, h3, -, h5, h6⟩ := findWith_hit compareKey_of_lt compareKey_of_gt
    hR.heap (hR.known ha.lt) ha.start hent rfl (compareKey_value x v)
  refine ⟨cur, l, p, ?_, ha.fam ▸ h3, h5, h6⟩
  simp [findInsert, h1, h2]

/-- `find_insert` makes room in an empty cell, and also in front of a directory slot, which its
key does not match. -/
lemma findInsert_inserted (hR : Represents s G T) {a : Ptr} (ha : Handle s G a f)
    (hx : x < ikeyLimit) (hc : ∀ v, T.cell f x ≠ some (.value v)) :
    ∃ h₁ G₁ pos l, findInsert s.heap a x = some (.inserted h₁ pos) ∧
      Represents { s with heap := h₁ } G₁ T ∧
      Room namespaceTableParams h₁ G₁ f pos x (fun t => t.ikey < x) (fun t => x ≤ t.ikey) l := by
  have hno : ∀ sl, Entry s.heap G (G.fam a) sl → sl.ikey = x → compareKey x sl < 0 := by
    intro sl hsl hx
    rw [ha.fam] at hsl
    cases hcell : T.cell f x with
    | none => exact absurd hx (hR.entry_of_none hcell hsl)
    | some c =>
        cases c with
        | value v => exact absurd hcell (hc v)
        | directory g =>
            rw [hR.entry_of_some hcell hsl hx]
            exact compareKey_directory x g
  obtain ⟨cur, l, h1, h2, h3⟩ := findWith_miss compareKey_of_lt compareKey_of_gt hR.heap
    (hR.known ha.lt) ha.start hx hno
  rw [ha.fam] at h3
  obtain ⟨h₁, G₁, pos, l', heq, hR₁, -, -, hroom⟩ := hR.makeRoom h3
  refine ⟨h₁, G₁, pos, l', ?_, hR₁, hroom⟩
  simp [findInsert, h1, h2, heq]

/-- **`insert_into_conflict_chain`.** -/
lemma insertChain_spec (hR : Represents s G T) (hx : x < ikeyLimit) (v e : NamespaceEntry) :
    ∃ s' G', s.insertIntoConflictChain x v e = some ((T.insertChain x v e).1, s') ∧
      Represents s' G' (T.insertChain x v e).2 ∧
      ((v.kind = .conflictChain ∨ entryNameEquals v e.name) →
        (T.insertChain x v e).1 = false → s' = s) ∧
      ((T.insertChain x v e).1 = true → G' = G ∧
        s'.root = if v.kind = .conflictChain then s.root else s.fixRoot.root) := by
  rw [LhmNamespace.insertIntoConflictChain, Table.insertChain]
  split_ifs with hkind hname
  · rw [← hR.bucket]
    cases hb : T.bucket v.ref.blockId with
    | none => exact ⟨s, G, rfl, hR, fun _ _ => rfl, by simp⟩
    | some es =>
        simp only
        split_ifs with hany
        · exact ⟨s, G, rfl, hR, fun _ _ => rfl, by simp⟩
        · refine ⟨_, G, rfl, hR.withBuckets rfl rfl (fun id => ?_) hR.nextId, by simp,
            fun _ => ⟨rfl, rfl⟩⟩
          rw [LhmNamespace.findBucket_setBucket s _ id (hR.bucket _ ▸ hb), hR.bucket]
  · exact ⟨s, G, rfl, hR, fun _ _ => rfl, by simp⟩
  · simp only
    set s₁ : LhmNamespace :=
      { s with nextConflictBucketId := (s.nextConflictBucketId + 1) % 2 ^ 32 } with hs₁
    have hR₂ : Represents (s₁.emplaceBucket s.nextConflictBucketId [v, e]).fixRoot G
        { T with bucket := (s₁.emplaceBucket s.nextConflictBucketId [v, e]).findBucket
                 nextId := (s.nextConflictBucketId + 1) % 2 ^ 32 } := by
      refine fixRoot (hR.withBuckets ?_ ?_ (fun _ => rfl) ?_)
      · rw [LhmNamespace.emplaceBucket]
        split_ifs <;> rfl
      · rw [LhmNamespace.emplaceBucket]
        split_ifs <;> rfl
      · rw [LhmNamespace.emplaceBucket]
        split_ifs <;> rfl
    have hfix : ∀ i, ((s₁.emplaceBucket s.nextConflictBucketId [v, e]).fixRoot).findBucket i
        = (s₁.emplaceBucket s.nextConflictBucketId [v, e]).findBucket i := by
      intro i
      rw [LhmNamespace.fixRoot]
      split_ifs <;> rfl
    have hfixRoot : ((s₁.emplaceBucket s.nextConflictBucketId [v, e]).fixRoot).root
        = s.fixRoot.root := by
      rw [LhmNamespace.emplaceBucket]
      split_ifs
      · rw [LhmNamespace.fixRoot, LhmNamespace.fixRoot]
        split_ifs <;> rfl
      · rw [LhmNamespace.fixRoot, LhmNamespace.fixRoot]
        split_ifs <;> rfl
    generalize hs₂ : (s₁.emplaceBucket s.nextConflictBucketId [v, e]).fixRoot = s₂
      at hR₂ hfix hfixRoot
    have hemp := fun i => LhmNamespace.findBucket_emplaceBucket s₁ s.nextConflictBucketId i [v, e]
    have hf₁ : ∀ i, s₁.findBucket i = T.bucket i := fun i => (hR.bucket i).symm
    -- without a value slot in the root layer the bucket is dropped again
    have hfail : (∀ w, T.cell T.root x ≠ some (.value w)) → ∃ h₁ G' pos,
        findInsert s₂.heap s₂.root x = some (.inserted h₁ pos) ∧
        Represents (LhmNamespace.eraseBucket { s₂ with heap := h₁ } s.nextConflictBucketId) G'
          (Table.setBucket { T with nextId := (T.nextId + 1) % 2 ^ 32 } T.nextId none) := by
      intro hno
      obtain ⟨h₁, G₁, pos, l, h1, hR₃, -⟩ := hR₂.findInsert_inserted hR₂.handle_root hx hno
      refine ⟨h₁, G₁, pos, h1, hR₃.withBuckets rfl rfl (fun i => ?_) ?_⟩
      · rw [LhmNamespace.findBucket_eraseBucket]
        change (if i = T.nextId then none else T.bucket i)
          = if i = s.nextConflictBucketId then none else s₂.findBucket i
        rw [hR.nextId]
        split_ifs with h0
        · rfl
        · rw [hfix, hemp, if_neg fun h2 => h0 h2.1, hf₁]
      · rw [hR.nextId]
        exact hR₃.nextId
    cases hc : T.cell T.root x with
    | some c =>
        cases c with
        | value w =>
            obtain ⟨cur, l, p, h1, hS, hp, hsl⟩ := hR₂.findInsert_found hR₂.handle_root hc
            have hR₃ := hR₂.overwrite hS hp hsl
              (makeNamespaceEntry .conflictChain (makeInodeRef s.nextConflictBucketId 0) [])
            refine ⟨{ s₂ with heap := setValue s₂.heap cur.n p (makeNamespaceEntry .conflictChain
              (makeInodeRef s.nextConflictBucketId 0) []) }, G, by simp only [h1]; rfl, ?_,
              by simp [hkind, hname], fun _ => ⟨rfl, hfixRoot⟩⟩
            simp only
            rw [hR.nextId]
            convert hR₃ using 1
            split_ifs with h0
            · simp only [Table.setCell, Table.mk.injEq, true_and, and_true]
              funext i
              rw [hemp, hf₁, hf₁, if_neg]
              rintro ⟨-, h2⟩
              rw [h2] at h0
              cases h0
            · simp only [Table.setCell, Table.setBucket, Table.mk.injEq, true_and, and_true]
              funext i
              rw [hemp, hf₁, hf₁]
              simp only [Bool.not_eq_true, Option.isSome_eq_false_iff,
                Option.isNone_iff_eq_none] at h0
              simp [h0]
        | directory g =>
            obtain ⟨h₁, G', pos, h1, h2⟩ := hfail (by rw [hc]; simp)
            exact ⟨_, G', by simp only [h1]; rfl, h2, by simp [hkind, hname], by simp⟩
    | none =>
        obtain ⟨h₁, G', pos, h1, h2⟩ := hfail (by rw [hc]; simp)
        exact ⟨_, G', by simp only [h1]; rfl, h2, by simp [hkind, hname], by simp⟩

/-- **`creat_file`** is `create` on the table. -/
lemma createFile_spec (hR : Represents s G T) (hash : Bytes → UInt64)
    (hcs : ∀ c ∈ cs, IsName c) (ref : InodeRef) (kind : EntryKind) :
    ∃ s' G', s.createFileFromParsed (ParsedPath.of hash cs) ref kind
        = some ((T.create hash cs ref kind).1, s') ∧
      Represents s' G' (T.create hash cs ref kind).2 ∧
      (¬ T.StartsChain hash cs → (T.create hash cs ref kind).1 = false → s' = s) ∧
      (∀ f c v, T.parentOf hash cs = some (f, c) → T.cell f (hash c).toNat = some (.value v) →
        (T.create hash cs ref kind).1 = true → G' = G ∧
          s'.root = if v.kind = .conflictChain then s.root else s.fixRoot.root) := by
  rw [LhmNamespace.createFileFromParsed, Table.create]
  rcases hR.parent_eq hash hcs with ⟨rfl, h0⟩ | ⟨ds, c, rfl, hne, hpar⟩
  · exact ⟨s, G, by simp [joinPath], by simpa using hR, fun _ _ => rfl, by simp⟩
  rw [if_neg hne, if_neg (by simp), ParsedPath.of_name, ParsedPath.of_hash]
  rcases hpar with ⟨h1, h2⟩ | ⟨b, f, h1, h2, h3, -⟩
  · rw [h1, h2]
    refine ⟨s, G, ?_, hR, fun _ _ => rfl, by simp⟩
    split_ifs <;> rfl
  simp only [h1, h2, Option.bind_eq_bind, Option.bind_some]
  by_cases hfit : entryNameFits c = true
  · rw [if_neg (by simp [hfit]), if_neg (by simp [hfit]),
      hR.lookupChildSlot_eq h3 (hash_lt hash c)]
    cases hc : T.cell f (hash c).toNat with
    | some d =>
        cases d with
        | directory g => exact ⟨s, G, rfl, hR, fun _ _ => rfl, by simp⟩
        | value v =>
            obtain ⟨s', G', heq, hR', hsame, hroot⟩ := hR.insertChain_spec (hash_lt hash c) v
              (makeNamespaceEntry kind ref c)
            refine ⟨s', G', heq, hR', fun hno => hsame ?_, ?_⟩
            swap
            · intro f' c' w h4 h5
              obtain ⟨rfl, rfl⟩ : f = f' ∧ c = c' := by simpa using h4
              rw [hc] at h5
              obtain rfl := Content.value.inj (Option.some.inj h5)
              exact hroot
            by_contra h0
            obtain ⟨h4, h5⟩ := not_or.mp h0
            exact hno ⟨f, c, v, h2, hc, h4, by simpa [entryNameEquals, makeNamespaceEntry] using h5⟩
    | none =>
        obtain ⟨h₁, G₁, pos, l, heq, hR₁, hroom⟩ := hR.findInsert_inserted h3 (hash_lt hash c)
          (by rw [hc]; simp)
        have hR₂ := hR₁.fill (.value (makeNamespaceEntry kind ref c)) hroom hc (by simp)
        refine ⟨_, G₁, by simp only [heq, Option.bind_some]; rfl, hR₂, by simp, ?_⟩
        intro f' c' w h4 h5
        obtain ⟨rfl, rfl⟩ : f = f' ∧ c = c' := by simpa using h4
        rw [hc] at h5
        cases h5
  · exact ⟨s, G, by simp [hfit], by simpa [hfit] using hR, fun _ _ => rfl, by simp [hfit]⟩

/-! ## Removing -/

/-- A directory has children exactly if some cell of its layer is filled. -/
lemma hasChildren_top (hR : Represents s G T) {g : Ptr} (hg : T.layers g) :
    ∃ b, LhmNamespace.directoryRootHasChildren s.heap (s.heap.size + 1) (G.top g) = some b ∧
      (b = true ↔ ∃ y, T.cell g y ≠ none) := by
  obtain ⟨ps, hps, heq⟩ := hR.exists_lists hg
  obtain ⟨hlt, hfam⟩ := (hR.layers g).mp hg
  have hlive := (hR.heap.tree.top_spec (hR.known hlt)).1
  rw [hfam] at hlive
  have hheight := hR.heap.tree.height_lt (hR.heap.tree.live_lt hlive)
  refine ⟨_, hR.hasChildren_eq _ hlive (by omega), ?_⟩
  rw [heq]
  cases ps with
  | nil =>
      simp only [List.map_nil, List.isEmpty_nil, Bool.not_true, Bool.false_eq_true, false_iff]
      rintro ⟨y, hy⟩
      obtain ⟨c, hc⟩ := Option.ne_none_iff_exists'.mp hy
      exact absurd ((hps.mem y c).mpr hc) (by simp)
  | cons p ps =>
      simp only [List.map_cons, List.isEmpty_cons, Bool.not_false, true_iff]
      exact ⟨p.1, by rw [(hps.mem p.1 p.2).mp (by simp)]; simp⟩

/-- The part of `remove_entry` for values. -/
lemma removeFile_spec (hR : Represents s G T) {cur : Cursor} {l : Leaf Cell} {p : ℕ}
    {v : NamespaceEntry} (hc : T.cell f x = some (.value v)) (hS : Stop s.heap G f x cur l)
    (hs : l.entries[cur.i]? = some ⟨x, (Content.value v).encode⟩)
    (hp : l.permutation.live[cur.i]? = some p)
    (hv : l.slot p = ⟨x, (Content.value v).encode⟩) (name : Bytes) :
    ∃ s' G', s.removeFile cur p v name = some ((T.removeValue f x v name).1, s') ∧
      Represents s' G' (T.removeValue f x v name).2 ∧
      ((T.removeValue f x v name).1 = false → s' = s) := by
  rw [LhmNamespace.removeFile, Table.removeValue]
  by_cases hk : v.kind ≠ .conflictChain
  · rw [if_pos hk, if_pos hk]
    by_cases hn : (!entryNameEquals v name) = true ∨ v.kind ≠ .file
    · rw [if_pos hn, if_pos hn]
      exact ⟨s, G, rfl, hR, fun _ => rfl⟩
    · rw [if_neg hn, if_neg hn]
      obtain ⟨h', G', heq, hR'⟩ := hR.empty hS hc hs
      exact ⟨_, G', by simp only [heq]; rfl, hR', by simp⟩
  · rw [if_neg hk, if_neg hk]
    simp only [← hR.bucket]
    cases hb : T.bucket v.ref.blockId with
    | none => exact ⟨s, G, rfl, hR, fun _ => rfl⟩
    | some es =>
        simp only
        cases he : es[es.findIdx (entryNameEquals · name)]? with
        | none => exact ⟨s, G, rfl, hR, fun _ => rfl⟩
        | some e =>
            simp only
            -- dropping the bucket changes nothing else
            have herase : Represents (s.eraseBucket v.ref.blockId) G
                (T.setBucket v.ref.blockId none) := by
              refine hR.withBuckets rfl rfl (fun i => ?_) hR.nextId
              rw [LhmNamespace.findBucket_eraseBucket, hR.bucket]
            by_cases hkind : e.kind ≠ .file
            · rw [if_pos hkind, if_pos hkind]
              exact ⟨s, G, rfl, hR, fun _ => rfl⟩
            rw [if_neg hkind, if_neg hkind]
            by_cases hone : es.length = 1
            · rw [if_pos hone, if_pos hone]
              obtain ⟨h', G', heq, hR'⟩ := herase.empty hS hc hs
              have heq : finishRemove s.heap cur.n cur.i = some h' := heq
              exact ⟨_, G', by simp only [heq]; rfl, hR', by simp⟩
            · rw [if_neg hone, if_neg hone]
              have hset : ∀ es', Represents (s.setBucket v.ref.blockId es') G
                  (T.setBucket v.ref.blockId (some es')) := by
                intro es'
                refine hR.withBuckets rfl rfl (fun i => ?_) hR.nextId
                rw [LhmNamespace.findBucket_setBucket s _ i (hR.bucket _ ▸ hb), hR.bucket]
              generalize es.eraseIdx (es.findIdx (entryNameEquals · name)) = kept
              rcases kept with _ | ⟨survivor, _ | ⟨e₂, es'⟩⟩
              · exact ⟨_, G, rfl, hset [], by simp⟩
              · exact ⟨_, G, rfl, herase.overwrite hS hp hv survivor, by simp⟩
              · exact ⟨_, G, rfl, hset _, by simp⟩

/-- **`remove_path_for_test`** is `remove` on the table; a refused call changes nothing. -/
lemma removeEntry_spec (hR : Represents s G T) (hash : Bytes → UInt64)
    (hcs : ∀ c ∈ cs, IsName c) :
    ∃ s' G', s.removeEntryFromParsed (ParsedPath.of hash cs)
        = some ((T.remove hash cs).1, s') ∧ Represents s' G' (T.remove hash cs).2 ∧
      ((T.remove hash cs).1 = false → s' = s) := by
  rw [LhmNamespace.removeEntryFromParsed, Table.remove]
  rcases hR.parent_eq hash hcs with ⟨rfl, h0⟩ | ⟨ds, c, rfl, hne, hpar⟩
  · exact ⟨s, G, by simp, by simpa using hR, fun _ => rfl⟩
  rw [if_neg (not_or.mpr ⟨hne, by simp⟩), ParsedPath.of_name, ParsedPath.of_hash]
  rcases hpar with ⟨h1, h2⟩ | ⟨b, f, h1, h2, h3, -⟩
  · rw [h1, h2]
    exact ⟨s, G, rfl, hR, fun _ => rfl⟩
  simp only [h1, h2, Option.bind_eq_bind, Option.bind_some]
  cases hc : T.cell f (hash c).toNat with
  | none =>
      obtain ⟨cur, l, h4, h5, -⟩ := hR.findEdge_miss h3 (hash_lt hash c) hc
      exact ⟨s, G, by simp [h4, h5], hR, fun _ => rfl⟩
  | some d =>
      obtain ⟨cur, l, p, h4, h5, hS, hs, hp, hv, hleaf⟩ := hR.findEdge_hit h3 hc
      cases d with
      | value v =>
          obtain ⟨s', G', heq, hR', hsame⟩ := hR.removeFile_spec hc hS hs hp hv c
          have hval : (Content.value v).encode.lv.value? = some v := rfl
          exact ⟨s', G', by simpa [h4, h5, hleaf, hval] using heq, hR', hsame⟩
      | directory g =>
          have hg := hR.target _ _ _ hc
          obtain ⟨hlt, hfam⟩ := (hR.layers g).mp hg
          have hcan := hR.heap.tree.canonicalizeDirectoryRoot_eq (hR.known hlt)
          rw [hfam] at hcan
          obtain ⟨bc, hbc, hbc'⟩ := hR.hasChildren_top hg
          have hlay : (Content.directory g).encode.lv.layer? = some g := rfl
          have hinfo := hR.info g hg
          simp only [h4, h5, hleaf, hlay, hcan, hbc, LhmNamespace.removeDirectoryEdge,
            ksufMatches_directory, Option.bind_eq_bind, Option.bind_some]
          rw [if_pos (by decide), ← hinfo]
          cases hm : T.info g with
          | none =>
              have hde : T.directoryEntry g c = none := by simp [Table.directoryEntry, hm]
              rw [if_pos (Or.inl hde)]
              exact ⟨s, G, rfl, hR, fun _ => rfl⟩
          | some m =>
              simp only
              by_cases hname : directoryMetaNameEquals m c = true
              · have hde : T.directoryEntry g c ≠ none := by simp [Table.directoryEntry, hm, hname]
                rw [if_neg (by simp [hname])]
                cases bc with
                | true =>
                    rw [if_pos (Or.inr (hbc'.mp rfl))]
                    exact ⟨s, G, rfl, hR, fun _ => rfl⟩
                | false =>
                    have hch : ¬ ∃ y, T.cell g y ≠ none := fun h0 => by simpa using hbc'.mpr h0
                    rw [if_neg (not_or.mpr ⟨hde, hch⟩)]
                    obtain ⟨h', G', heq, hR'⟩ := hR.empty hS hc hs
                    exact ⟨_, G', by simp only [heq]; rfl, hR', by simp⟩
              · have hde : T.directoryEntry g c = none := by
                  simp [Table.directoryEntry, hm, hname]
                rw [if_pos (by simp [hname]), if_pos (Or.inl hde)]
                exact ⟨s, G, rfl, hR, fun _ => rfl⟩

end Represents

end MasstreeLHM
