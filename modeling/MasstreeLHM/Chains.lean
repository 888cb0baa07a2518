import MasstreeLHM.Runs

/-!
# Conflict chains

Files of one directory whose names have the same hash share a slot: the slot holds a chain marker,
the marker names a bucket, and the bucket holds the files.  `names f x` is what a slot stands for
whichever way it is stored, and `Marked` is the invariant that ties markers to buckets.  As long as
chains are started in the root directory only, every bucket also keeps its marker (`Backed`).

`Renames` says that a change replaces what one cell stands for and leaves all other cells alone.
The ways in which that comes about are `Marked.setCell`, `Marked.setBucket`, `Marked.startChain` and
`Marked.dissolve`; each keeps the invariant and comes with its `Renames`.  The calls are put
together from them, **`Marked.mkdir`**, **`Marked.create`** (a file is `Created` in one of three
ways) and **`Marked.remove`**, and **`Marked.step`** is any call in any directory.

`Renames.lookup_concat` and `Renames.lookup_erase` are what lookups find afterwards: one name more,
or one name less.
-/

namespace MasstreeLHM

variable {hash : Bytes → UInt64}

/-! ## Lists of entries with distinct names -/

lemma find_concat_entry (es : List NamespaceEntry) (e : NamespaceEntry) (name : Bytes)
    (hnew : es.find? (entryNameEquals · e.name) = none) :
    (es ++ [e]).find? (entryNameEquals · name)
      = if name = e.name then some e else es.find? (entryNameEquals · name) := by
  rw [List.find?_append]
  split_ifs with h
  · subst h
    rw [hnew]
    simp [entryNameEquals]
  · have : entryNameEquals e name = false := by
      simp only [entryNameEquals, beq_eq_false_iff_ne]
      exact fun h0 => h h0.symm
    simp [this]

/-- Erasing the entry of a name leaves the other names. -/
lemma find_eraseIdx (name other : Bytes) : ∀ (es : List NamespaceEntry),
    (es.map NamespaceEntry.name).Nodup →
    (es.eraseIdx (es.findIdx (entryNameEquals · name))).find? (entryNameEquals · other)
      = if other = name then none else es.find? (entryNameEquals · other)
  | [], _ => by simp
  | e :: es, hnd => by
      rw [List.map_cons, List.nodup_cons] at hnd
      obtain ⟨hnot, hnd⟩ := hnd
      rw [List.findIdx_cons]
      by_cases he : e.name = name
      · have h1 : entryNameEquals e name = true := by simpa [entryNameEquals] using he
        rw [h1]
        simp only [cond_true, List.eraseIdx_cons_zero]
        split_ifs with h
        · rw [List.find?_eq_none]
          intro d hd h0
          have : d.name = name := by
            rw [h] at h0
            simpa [entryNameEquals] using h0
          exact hnot (List.mem_map.mpr ⟨d, hd, this.trans he.symm⟩)
        · have h2 : entryNameEquals e other = false := by
            simp only [entryNameEquals, beq_eq_false_iff_ne]
            exact fun h0 => h (h0.symm.trans he)
          rw [List.find?_cons, h2]
      · have h1 : entryNameEquals e name = false := by simpa [entryNameEquals] using he
        rw [h1]
        simp only [cond_false, List.eraseIdx_cons_succ]
        rw [List.find?_cons, List.find?_cons, find_eraseIdx name other es hnd]
        by_cases ho : e.name = other
        · have h2 : entryNameEquals e other = true := by simpa [entryNameEquals] using ho
          have h3 : other ≠ name := fun h0 => he (ho.trans h0)
          rw [h2, if_neg h3, if_neg h3]
        · have h2 : entryNameEquals e other = false := by simpa [entryNameEquals] using ho
          rw [h2]

lemma any_eq_false_iff_find (es : List NamespaceEntry) (name : Bytes) :
    es.any (entryNameEquals · name) = false ↔ es.find? (entryNameEquals · name) = none := by
  rw [List.find?_eq_none, List.any_eq_false]

namespace Table

variable {T : Table} {f g : Ptr} {x : ℕ} {c : Bytes} {n : ℕ}

/-- The entries a cell stands for. -/
def names (T : Table) (f : Ptr) (x : ℕ) : List NamespaceEntry :=
  match T.cell f x with
  | none => []
  | some (.directory g) => ((T.info g).map fun m => ⟨.directory, m.ref, m.name⟩).toList
  | some (.value v) =>
      if v.kind ≠ .conflictChain then [v] else (T.bucket v.ref.blockId).getD []

/-- **A lookup searches the entries of the cell for the name.** -/
lemma lookup_eq_find (T : Table) (f : Ptr) (name : Bytes) (x : ℕ) :
    T.lookup f name x = (T.names f x).find? (entryNameEquals · name) := by
  rw [lookup, names]
  cases hc : T.cell f x with
  | none => rfl
  | some d =>
      cases d with
      | directory g =>
          cases hm : T.info g with
          | none => simp [directoryEntry, hm]
          | some m =>
              by_cases h : m.name = name
              · simp [directoryEntry, hm, directoryMetaNameEquals, entryNameEquals, h,
                  makeNamespaceEntry]
              · simp [directoryEntry, hm, directoryMetaNameEquals, entryNameEquals, h]
      | value v =>
          by_cases hk : v.kind = .conflictChain
          · simp only [hk, ne_eq, not_true_eq_false, if_false]
            cases T.bucket v.ref.blockId <;> rfl
          · simp only [hk, ne_eq, not_false_eq_true, if_true]
            by_cases h : v.name = name
            · simp [entryNameEquals, h]
            · simp [entryNameEquals, h]

/-- What a cell stands for depends on the cell, the directory and the bucket it leads to. -/
lemma names_congr {T' : Table} {a : Ptr} {y : ℕ} (hcell : T'.cell a y = T.cell a y)
    (hinfo : ∀ b, T.cell a y = some (.directory b) → T'.info b = T.info b)
    (hbucket : ∀ v, T.cell a y = some (.value v) → v.kind = .conflictChain →
      T'.bucket v.ref.blockId = T.bucket v.ref.blockId) : T'.names a y = T.names a y := by
  rw [names, names, hcell]
  cases hc : T.cell a y with
  | none => rfl
  | some d =>
      cases d with
      | directory b => simp only [hinfo b hc]
      | value v =>
          by_cases hk : v.kind = .conflictChain
          · simp only [hk, ne_eq, not_true_eq_false, if_false, hbucket v hc hk]
          · simp only [hk, ne_eq, not_false_eq_true, if_true]

/-- The marker of a chain in cell `x` of layer `f`. -/
def Marker (T : Table) (f : Ptr) (x id : ℕ) : Prop :=
  ∃ v, T.cell f x = some (.value v) ∧ v.kind = .conflictChain ∧ v.ref.blockId = id

/-- The files of a bucket belong to cell `x`: at least two, with distinct names of hash `x`. -/
structure BucketOk (hash : Bytes → UInt64) (x : ℕ) (es : List NamespaceEntry) : Prop where
  length : 2 ≤ es.length
  files : ∀ e ∈ es, e.kind = .file ∧ (hash e.name).toNat = x
  nodup : (es.map NamespaceEntry.name).Nodup

/-- **The invariant of markers.**  `n` chains have been started; every marker stands in the root
layer and has a bucket of its own. -/
structure Marked (hash : Bytes → UInt64) (n : ℕ) (T : Table) : Prop where
  closed : T.Closed
  tree : T.Tree
  directory : ∀ {f x g}, T.cell f x = some (.directory g) →
    ∃ m, T.info g = some m ∧ m.componentHash = x ∧ (hash m.name).toNat = x
  value : ∀ {f x v}, T.cell f x = some (.value v) → v.kind ≠ .conflictChain →
    v.kind = .file ∧ (hash v.name).toNat = x
  marker : ∀ {f x id}, T.Marker f x id → f = T.root ∧ ∃ es, T.bucket id = some es ∧
    BucketOk hash x es
  unique : ∀ {x y id}, T.Marker T.root x id → T.Marker T.root y id → x = y
  ids : ∀ {id}, T.bucket id ≠ none → id ≤ n
  nextId : T.nextId = n + 1

/-- Every bucket has a marker. -/
def Backed (T : Table) : Prop := ∀ {id}, T.bucket id ≠ none → ∃ x, T.Marker T.root x id

/-- The entries of a cell have distinct names, all with the hash of the cell. -/
lemma Marked.names_spec (hC : T.Marked hash n) (f : Ptr) (x : ℕ) :
    ((T.names f x).map NamespaceEntry.name).Nodup ∧
      ∀ e ∈ T.names f x, (hash e.name).toNat = x ∧
        (e.kind = .file ∨ ∃ g, T.cell f x = some (.directory g)) := by
  rw [names]
  cases hc : T.cell f x with
  | none => simp
  | some d =>
      cases d with
      | directory g =>
          obtain ⟨m, h1, -, h3⟩ := hC.directory hc
          simp [h1, h3]
      | value v =>
          by_cases hk : v.kind = .conflictChain
          · obtain ⟨-, es, h1, h2⟩ := hC.marker ⟨v, hc, hk, rfl⟩
            simp only [hk, ne_eq, not_true_eq_false, if_false, h1, Option.getD_some]
            exact ⟨h2.nodup, fun e he => ⟨(h2.files e he).2, Or.inl (h2.files e he).1⟩⟩
          · obtain ⟨h1, h2⟩ := hC.value hc hk
            simp [h1, h2]

lemma Marked.names_eq_nil (hC : T.Marked hash n) : T.names f x = [] ↔ T.cell f x = none := by
  rw [names]
  cases hc : T.cell f x with
  | none => simp
  | some d =>
      cases d with
      | directory g =>
          obtain ⟨m, h1, -, -⟩ := hC.directory hc
          simp [h1]
      | value v =>
          by_cases hk : v.kind = .conflictChain
          · obtain ⟨-, es, h1, h2⟩ := hC.marker ⟨v, hc, hk, rfl⟩
            have hlen := h2.length
            simp only [hk, ne_eq, not_true_eq_false, if_false, h1, Option.getD_some]
            refine iff_of_false (fun h0 => ?_) (by simp)
            rw [h0] at hlen
            simp at hlen
          · simp [hk]

/-! ## Updates -/

/-- `T'` differs from `T` in what cell `x` of layer `f` stands for, which is now `l`. -/
structure Renames (T T' : Table) (f : Ptr) (x : ℕ) (l : List NamespaceEntry) : Prop where
  here : T'.names f x = l
  other : ∀ a y, ¬ (a = f ∧ y = x) → T'.names a y = T.names a y
  root : T'.root = T.root

lemma marker_setCell {o : Option Content} (hold : ∀ id, ¬ T.Marker f x id)
    (hnew : ∀ v, o = some (.value v) → v.kind ≠ .conflictChain) (a : Ptr) (y id : ℕ) :
    (T.setCell f x o).Marker a y id ↔ T.Marker a y id := by
  by_cases h0 : a = f ∧ y = x
  · obtain ⟨rfl, rfl⟩ := h0
    refine iff_of_false ?_ (hold id)
    rintro ⟨v, h1, h2, -⟩
    rw [setCell_same] at h1
    exact hnew v h1 h2
  · simp only [Marker, setCell_ne h0]

section SetCell

variable {o : Option Content}

/-- **A cell without marker may be filled with a file or a directory, or emptied.** -/
lemma Marked.setCell (hC : T.Marked hash n) (hf : T.layers f) (hold : ∀ id, ¬ T.Marker f x id)
    (hdir : ∀ g, o = some (.directory g) → T.layers g ∧ g ≠ T.root ∧
      (∀ a y, T.cell a y = some (.directory g) → a = f ∧ y = x) ∧
      ∃ m, T.info g = some m ∧ m.componentHash = x ∧ (hash m.name).toNat = x)
    (hval : ∀ v, o = some (.value v) → v.kind = .file ∧ (hash v.name).toNat = x) :
    (T.setCell f x o).Marked hash n := by
  have hnew : ∀ v, o = some (.value v) → v.kind ≠ .conflictChain := by
    intro v hv h0
    rw [(hval v hv).1] at h0
    cases h0
  have hmark := fun {a y id} => marker_setCell hold hnew a y id
  refine ⟨hC.closed.setCell hf fun g hg => (hdir g hg).1,
    hC.tree.setCell fun g hg => ⟨(hdir g hg).2.1, (hdir g hg).2.2.1⟩, ?_, ?_, ?_, ?_, hC.ids,
    hC.nextId⟩
  · intro a y g h
    rw [setCell_cell] at h
    split_ifs at h with h0
    · obtain ⟨rfl, rfl⟩ := h0
      exact (hdir g h).2.2.2
    · exact hC.directory h
  · intro a y v h hk
    rw [setCell_cell] at h
    split_ifs at h with h0
    · obtain ⟨rfl, rfl⟩ := h0
      exact hval v h
    · exact hC.value h hk
  · intro a y id h
    exact hC.marker (hmark.mp h)
  · intro y z id h1 h2
    exact hC.unique (hmark.mp h1) (hmark.mp h2)

lemma Backed.setCell (hB : T.Backed) (hold : ∀ id, ¬ T.Marker f x id)
    (hnew : ∀ v, o = some (.value v) → v.kind ≠ .conflictChain) : (T.setCell f x o).Backed := by
  intro id h
  obtain ⟨y, hy⟩ := hB h
  exact ⟨y, (marker_setCell hold hnew _ y id).mpr hy⟩

lemma renames_setCell (T : Table) (f : Ptr) (x : ℕ) (o : Option Content) :
    T.Renames (T.setCell f x o) f x ((T.setCell f x o).names f x) :=
  ⟨rfl, fun _ _ h0 => names_congr (setCell_ne h0) (fun _ _ => rfl) (fun _ _ _ => rfl), rfl⟩

end SetCell

lemma not_marker_of_none (h : T.cell f x = none) (id : ℕ) : ¬ T.Marker f x id := by
  rintro ⟨v, h1, -⟩
  rw [h] at h1
  cases h1

lemma not_marker_of_directory (h : T.cell f x = some (.directory g)) (id : ℕ) :
    ¬ T.Marker f x id := by
  rintro ⟨v, h1, -⟩
  rw [h] at h1
  cases h1

lemma not_marker_of_file {v : NamespaceEntry} (h : T.cell f x = some (.value v))
    (hk : v.kind ≠ .conflictChain) (id : ℕ) : ¬ T.Marker f x id := by
  rintro ⟨w, h1, h2, -⟩
  rw [h] at h1
  obtain rfl : v = w := by simpa using h1
  exact hk h2

/-- A new layer with metadata. -/
lemma Marked.addLayer (hC : T.Marked hash n) (hg : ¬ T.layers g) (m : DirectoryMeta) :
    (T.addLayer g m).Marked hash n := by
  refine ⟨hC.closed.addLayer m, hC.tree.addLayer m, ?_, hC.value, hC.marker, hC.unique,
    hC.ids, hC.nextId⟩
  intro a y b h
  have hne : b ≠ g := by
    rintro rfl
    exact hg (hC.closed.target h)
  obtain ⟨m', h1, h2⟩ := hC.directory h
  exact ⟨m', by simpa [Table.addLayer, hne] using h1, h2⟩

/-! ### Buckets -/

/-- The bucket of a marker is replaced by another good one. -/
lemma Marked.setBucket (hC : T.Marked hash n) {id : ℕ} (hm : T.Marker T.root x id)
    {es : List NamespaceEntry} (hes : BucketOk hash x es) :
    (T.setBucket id (some es)).Marked hash n := by
  refine ⟨⟨hC.closed.root, hC.closed.cell, hC.closed.target⟩, ⟨hC.tree.unique, hC.tree.root⟩,
    hC.directory, hC.value, ?_, hC.unique, ?_, hC.nextId⟩
  · intro a y i h
    obtain ⟨h1, es', h2, h3⟩ := hC.marker h
    refine ⟨h1, ?_⟩
    by_cases hi : i = id
    · subst hi
      subst h1
      obtain rfl := hC.unique hm h
      exact ⟨es, by simp [Table.setBucket], hes⟩
    · exact ⟨es', by simp [Table.setBucket, hi, h2], h3⟩
  · intro i h
    by_cases hi : i = id
    · obtain ⟨-, es', h2, -⟩ := hC.marker hm
      rw [hi]
      exact hC.ids (by rw [h2]; simp)
    · exact hC.ids (by simpa [Table.setBucket, hi] using h)

lemma Backed.setBucket (hB : T.Backed) {id : ℕ} (hm : T.Marker T.root x id)
    (es : Option (List NamespaceEntry)) : (T.setBucket id es).Backed := by
  intro i h
  by_cases hi : i = id
  · exact ⟨x, hi ▸ hm⟩
  · exact hB (by simpa [Table.setBucket, hi] using h)

lemma Marked.renames_setBucket (hC : T.Marked hash n) {id : ℕ} (hm : T.Marker T.root x id)
    (es : List NamespaceEntry) : T.Renames (T.setBucket id (some es)) T.root x es := by
  refine ⟨?_, ?_, rfl⟩
  · obtain ⟨v, h1, h2, rfl⟩ := hm
    have h3 : (T.setBucket v.ref.blockId (some es)).cell T.root x = some (.value v) := h1
    rw [names, h3]
    simp [h2, Table.setBucket]
  · intro a y h0
    refine names_congr rfl (fun _ _ => rfl) ?_
    intro v hv hk
    have hne : v.ref.blockId ≠ id := by
      rintro rfl
      obtain ⟨h1, -⟩ := hC.marker ⟨v, hv, hk, rfl⟩
      subst h1
      exact h0 ⟨rfl, hC.unique ⟨v, hv, hk, rfl⟩ hm⟩
    simp [Table.setBucket, hne]

/-- A chain is started: the cell gets a marker with an unused id. -/
def startChain (T : Table) (x : ℕ) (es : List NamespaceEntry) : Table :=
  (({ T with nextId := (T.nextId + 1) % 2 ^ 32 } : Table).setBucket T.nextId (some es)).setCell
    T.root x
    (some (.value (makeNamespaceEntry .conflictChain (makeInodeRef T.nextId 0) [])))

lemma startChain_cell (T : Table) (x : ℕ) (es : List NamespaceEntry) (a : Ptr) (y : ℕ) :
    (T.startChain x es).cell a y = if a = T.root ∧ y = x then
      some (.value (makeNamespaceEntry .conflictChain (makeInodeRef T.nextId 0) []))
      else T.cell a y := rfl

lemma Marked.bucket_nextId (hC : T.Marked hash n) : T.bucket T.nextId = none := by
  by_contra h0
  have := hC.ids h0
  rw [hC.nextId] at this
  omega

lemma marker_startChain (T : Table) (x : ℕ) (es : List NamespaceEntry) (a : Ptr) (y i : ℕ) :
    (T.startChain x es).Marker a y i ↔ (a = T.root ∧ y = x ∧ i = T.nextId) ∨
      (T.Marker a y i ∧ ¬ (a = T.root ∧ y = x)) := by
  by_cases h0 : a = T.root ∧ y = x
  · obtain ⟨rfl, rfl⟩ := h0
    constructor
    · rintro ⟨w, h1, -, h3⟩
      rw [startChain_cell, if_pos ⟨rfl, rfl⟩] at h1
      obtain rfl := Content.value.inj (Option.some.inj h1)
      exact Or.inl ⟨rfl, rfl, h3.symm⟩
    · rintro (⟨-, -, rfl⟩ | ⟨-, h1⟩)
      · exact ⟨_, by rw [startChain_cell, if_pos ⟨rfl, rfl⟩], rfl, rfl⟩
      · exact absurd ⟨rfl, rfl⟩ h1
  · simp only [Marker, startChain_cell, if_neg h0]
    exact ⟨fun h1 => Or.inr ⟨h1, h0⟩, fun h1 => (h1.resolve_left fun h2 => h0 ⟨h2.1, h2.2.1⟩).1⟩

lemma Backed.startChain (hB : T.Backed) (hno : ∀ id, ¬ T.Marker T.root x id)
    (es : List NamespaceEntry) : (T.startChain x es).Backed := by
  intro i h
  by_cases h0 : i = T.nextId
  · exact ⟨x, (marker_startChain _ _ _ _ _ _).mpr (Or.inl ⟨rfl, rfl, h0⟩)⟩
  · obtain ⟨y, hy⟩ := hB (show T.bucket i ≠ none by
      simpa [Table.startChain, Table.setBucket, Table.setCell, h0] using h)
    refine ⟨y, (marker_startChain _ _ _ _ _ _).mpr (Or.inr ⟨hy, ?_⟩)⟩
    rintro ⟨-, rfl⟩
    exact hno i hy

/-- A chain started at a value of the root layer; the value is lost. -/
lemma Marked.startChain (hC : T.Marked hash n) (hn : n + 2 < 2 ^ 32)
    {es : List NamespaceEntry} (hes : BucketOk hash x es) :
    (T.startChain x es).Marked hash (n + 1) ∧ T.Renames (T.startChain x es) T.root x es := by
  have hfree := hC.bucket_nextId
  have hbucket : ∀ i, (T.startChain x es).bucket i = if i = T.nextId then some es else T.bucket i :=
    fun _ => rfl
  have hmark := T.marker_startChain x es
  have hdircell : ∀ {a y g}, (T.startChain x es).cell a y = some (.directory g) →
      T.cell a y = some (.directory g) := by
    intro a y g h
    rw [startChain_cell] at h
    split_ifs at h with h0
    · cases h
    · exact h
  refine ⟨⟨⟨hC.closed.root, ?_, fun h => hC.closed.target (hdircell h)⟩,
    ⟨fun h1 h2 => hC.tree.unique (hdircell h1) (hdircell h2),
      fun a y h => hC.tree.root a y (hdircell h)⟩,
    fun h => hC.directory (hdircell h), ?_, ?_, ?_, ?_, ?_⟩, ?_, ?_, rfl⟩
  · intro a y d h
    rw [startChain_cell] at h
    split_ifs at h with h0
    · exact h0.1 ▸ hC.closed.root
    · exact hC.closed.cell h
  · intro a y w h h1
    rw [startChain_cell] at h
    split_ifs at h with h0
    · obtain rfl := Content.value.inj (Option.some.inj h)
      exact absurd rfl h1
    · exact hC.value h h1
  · intro a y i h
    rcases (hmark a y i).mp h with ⟨rfl, rfl, rfl⟩ | ⟨h1, -⟩
    · exact ⟨rfl, es, by rw [hbucket, if_pos rfl], hes⟩
    · obtain ⟨h2, es', h3, h4⟩ := hC.marker h1
      refine ⟨h2, es', ?_, h4⟩
      rw [hbucket, if_neg, h3]
      rintro rfl
      rw [hfree] at h3
      cases h3
  · intro y z i h1 h2
    have hused : ∀ {y}, T.Marker T.root y i → i ≠ T.nextId := by
      rintro y hy rfl
      obtain ⟨-, es', h3, -⟩ := hC.marker hy
      rw [hfree] at h3
      cases h3
    rcases (hmark _ _ _).mp h1 with ⟨-, rfl, h3⟩ | ⟨h3, -⟩ <;>
      rcases (hmark _ _ _).mp h2 with ⟨-, rfl, h4⟩ | ⟨h4, -⟩
    · rfl
    · exact absurd h3 (hused h4)
    · exact absurd h4 (hused h3)
    · exact hC.unique h3 h4
  · intro i h
    rw [hbucket] at h
    split_ifs at h with h0
    · rw [h0, hC.nextId]
    · exact (hC.ids h).trans (Nat.le_succ n)
  · change (T.nextId + 1) % 2 ^ 32 = n + 1 + 1
    rw [hC.nextId, Nat.mod_eq_of_lt (by omega)]
  · simp only [names, startChain_cell, and_self, if_true, hbucket]
    simp [makeNamespaceEntry, makeInodeRef]
  · intro a y h0
    refine names_congr (by rw [startChain_cell, if_neg h0]) (fun _ _ => rfl) ?_
    intro w hw hwk
    rw [hbucket, if_neg]
    intro h1
    obtain ⟨-, es', h3, -⟩ := hC.marker ⟨w, hw, hwk, h1⟩
    rw [hfree] at h3
    cases h3

/-- A chain is dissolved: the survivor takes the cell. -/
lemma Marked.dissolve (hC : T.Marked hash n) {id : ℕ} (hm : T.Marker T.root x id)
    {e : NamespaceEntry} (he : e.kind = .file ∧ (hash e.name).toNat = x) :
    ((T.setBucket id none).setCell T.root x (some (.value e))).Marked hash n ∧
      T.Renames ((T.setBucket id none).setCell T.root x (some (.value e))) T.root x [e] := by
  have hk : e.kind ≠ .conflictChain := by
    rw [he.1]
    decide
  have hcell := fun a y => (T.setBucket id none).setCell_cell T.root x (some (.value e)) a y
  have hbucket : ∀ i, ((T.setBucket id none).setCell T.root x (some (.value e))).bucket i
      = if i = id then none else T.bucket i := fun _ => rfl
  have hdircell : ∀ {a y g}, ((T.setBucket id none).setCell T.root x (some (.value e))).cell a y
      = some (.directory g) → T.cell a y = some (.directory g) := by
    intro a y g h
    rw [hcell] at h
    split_ifs at h with h0
    · cases h
    · exact h
  have hmark : ∀ a y i, ((T.setBucket id none).setCell T.root x (some (.value e))).Marker a y i ↔
      T.Marker a y i ∧ i ≠ id := by
    intro a y i
    by_cases h0 : a = T.root ∧ y = x
    · obtain ⟨rfl, rfl⟩ := h0
      refine iff_of_false ?_ ?_
      · rintro ⟨w, h1, h2, -⟩
        rw [hcell, if_pos ⟨rfl, rfl⟩] at h1
        obtain rfl := Content.value.inj (Option.some.inj h1)
        exact hk h2
      · rintro ⟨⟨v, h1, h2, h3⟩, h4⟩
        obtain ⟨w, h5, -, h6⟩ := hm
        rw [h1] at h5
        obtain rfl := Content.value.inj (Option.some.inj h5)
        exact h4 (h3.symm.trans h6)
    · have h1 : ((T.setBucket id none).setCell T.root x (some (.value e))).Marker a y i ↔
          T.Marker a y i := by
        simp only [Marker, hcell, if_neg h0]
        rfl
      rw [h1]
      refine ⟨fun h2 => ⟨h2, ?_⟩, fun h2 => h2.1⟩
      rintro rfl
      obtain ⟨rfl, -⟩ := hC.marker h2
      exact h0 ⟨rfl, hC.unique h2 hm⟩
  refine ⟨⟨⟨hC.closed.root, ?_, fun h => hC.closed.target (hdircell h)⟩,
    ⟨fun h1 h2 => hC.tree.unique (hdircell h1) (hdircell h2),
      fun a y h => hC.tree.root a y (hdircell h)⟩,
    fun h => hC.directory (hdircell h), ?_, ?_, ?_, ?_, hC.nextId⟩, ?_, ?_, rfl⟩
  · intro a y d h
    rw [hcell] at h
    split_ifs at h with h0
    · exact h0.1 ▸ hC.closed.root
    · exact hC.closed.cell h
  · intro a y w h h1
    rw [hcell] at h
    split_ifs at h with h0
    · obtain rfl := Content.value.inj (Option.some.inj h)
      exact h0.2 ▸ he
    · exact hC.value h h1
  · intro a y i h
    obtain ⟨h1, h2⟩ := (hmark a y i).mp h
    obtain ⟨h3, es, h4, h5⟩ := hC.marker h1
    exact ⟨h3, es, by rw [hbucket, if_neg h2, h4], h5⟩
  · intro y z i h1 h2
    exact hC.unique ((hmark _ _ _).mp h1).1 ((hmark _ _ _).mp h2).1
  · intro i h
    rw [hbucket] at h
    split_ifs at h with h0
    · exact absurd rfl h
    · exact hC.ids h
  · rw [names, hcell, if_pos ⟨rfl, rfl⟩]
    simp [hk]
  · intro a y h0
    refine names_congr (by rw [hcell, if_neg h0]; rfl) (fun _ _ => rfl) ?_
    intro w hw hwk
    rw [hbucket, if_neg]
    intro h1
    obtain ⟨rfl, -⟩ := hC.marker ⟨w, hw, hwk, h1⟩
    exact h0 ⟨rfl, hC.unique ⟨w, hw, hwk, h1⟩ hm⟩

lemma Backed.dissolve (hB : T.Backed) {id : ℕ} (hm : T.Marker T.root x id) (e : NamespaceEntry) :
    ((T.setBucket id none).setCell T.root x (some (.value e))).Backed := by
  intro i h
  have hi : i ≠ id := by
    rintro rfl
    exact h (by simp [Table.setCell, Table.setBucket])
  obtain ⟨y, v, h1, h2, h3⟩ := hB (show T.bucket i ≠ none by
    simpa [Table.setCell, Table.setBucket, hi] using h)
  refine ⟨y, v, ?_, h2, h3⟩
  rw [setCell_ne]
  · exact h1
  · rintro ⟨-, rfl⟩
    obtain ⟨w, h4, -, h5⟩ := hm
    have h6 : T.cell T.root y = some (.value v) := h1
    rw [h4] at h6
    obtain rfl := Content.value.inj (Option.some.inj h6)
    exact hi (h3.symm.trans h5)

/-! ## The calls -/

variable {cs : List Bytes}

/-- **`mkdir`** fills an empty cell. -/
lemma Marked.mkdir (hC : T.Marked hash n) (ref : InodeRef)
    (hp : T.parentOf hash cs = some (f, c)) (hf : T.layers f) (hg : ¬ T.layers g) :
    ((T.mkdir hash cs ref g).1 = true ∧ entryNameFits c = true ∧ T.cell f (hash c).toNat = none ∧
      (T.mkdir hash cs ref g).2.cell f (hash c).toNat = some (.directory g) ∧
      (T.mkdir hash cs ref g).2.Marked hash n ∧ (T.Backed → (T.mkdir hash cs ref g).2.Backed) ∧
      T.Renames (T.mkdir hash cs ref g).2 f (hash c).toNat [⟨.directory, ref, c⟩]) ∨
    ((T.mkdir hash cs ref g).1 = false ∧ (T.mkdir hash cs ref g).2 = T ∧
      ¬ (entryNameFits c = true ∧ T.cell f (hash c).toNat = none)) := by
  rw [Table.mkdir, hp]
  simp only
  split_ifs with h0
  · refine Or.inl ⟨rfl, h0.1, h0.2, setCell_same _ _ _ _, ?_, ?_, ?_⟩
    · refine (hC.addLayer hg _).setCell (Or.inr hf) (not_marker_of_none h0.2) ?_ (by simp)
      intro b hb
      obtain rfl : g = b := by simpa using hb
      refine ⟨Or.inl rfl, fun h1 => hg (h1 ▸ hC.closed.root), ?_, _, if_pos rfl, rfl, rfl⟩
      intro a y h1
      exact absurd (hC.closed.target h1) hg
    · intro hB
      exact Backed.setCell (T := T.addLayer g _) hB (not_marker_of_none h0.2) (by simp)
    · have h1 := (T.addLayer g (makeDirectoryMeta ref (hash c).toNat c)).renames_setCell f
        (hash c).toNat (some (.directory g))
      refine ⟨?_, ?_, rfl⟩
      · rw [names, setCell_same]
        simp [Table.setCell, Table.addLayer, makeDirectoryMeta]
      · intro a y h2
        rw [h1.other a y h2]
        refine names_congr rfl ?_ (fun _ _ _ => rfl)
        intro b hb
        have hne : b ≠ g := by
          rintro rfl
          exact hg (hC.closed.target hb)
        simp [Table.addLayer, hne]
  · exact Or.inr ⟨rfl, rfl, h0⟩

/-- A new file has joined the entries of its cell. -/
structure Created (hash : Bytes → UInt64) (T : Table) (n : ℕ) (cs : List Bytes) (f : Ptr)
    (c : Bytes) (ref : InodeRef) (r : Bool × Table) : Prop where
  done : r.1 = true
  fits : entryNameFits c = true
  not_directory : ∀ g, T.cell f (hash c).toNat ≠ some (.directory g)
  absent : T.lookup f c (hash c).toNat = none
  backed : T.Backed → r.2.Backed
  marked : ∃ m, r.2.Marked hash m ∧
    (m = n ∧ r.2.nextId = T.nextId ∨ m = n + 1 ∧ T.StartsChain hash cs)
  renames : T.Renames r.2 f (hash c).toNat (T.names f (hash c).toNat ++ [⟨.file, ref, c⟩])
  directory : ∀ a y b, r.2.cell a y = some (.directory b) ↔ T.cell a y = some (.directory b)

/-- The first file of a cell. -/
lemma Marked.created_setCell (hC : T.Marked hash n) (ref : InodeRef) (hf : T.layers f)
    (hfits : entryNameFits c = true) (hc : T.cell f (hash c).toNat = none) :
    T.Created hash n cs f c ref
      (true, T.setCell f (hash c).toNat (some (.value (makeNamespaceEntry .file ref c)))) := by
  refine ⟨rfl, hfits, by simp [hc], by rw [lookup, hc], ?_, ⟨n, ?_, Or.inl ⟨rfl, rfl⟩⟩, ?_, ?_⟩
  · exact fun hB => Backed.setCell hB (not_marker_of_none hc) (by simp [makeNamespaceEntry])
  · refine hC.setCell hf (not_marker_of_none hc) (by simp) ?_
    intro v hv
    obtain rfl := Content.value.inj (Option.some.inj hv)
    exact ⟨rfl, rfl⟩
  · have h1 := T.renames_setCell f (hash c).toNat
      (some (.value (makeNamespaceEntry .file ref c)))
    refine ⟨?_, h1.other, rfl⟩
    rw [names, setCell_same, names, hc]
    simp [makeNamespaceEntry]
  · exact setCell_directory_iff (by rw [hc]; simp) (by simp)

/-- A good bucket with another file of the same hash is good. -/
lemma BucketOk.concat {es : List NamespaceEntry} (h : BucketOk hash (hash c).toNat es)
    (ref : InodeRef) (hnew : es.any (entryNameEquals · c) = false) :
    BucketOk hash (hash c).toNat (es ++ [⟨.file, ref, c⟩]) := by
  have hlen := h.length
  refine ⟨by rw [List.length_append]; omega, ?_, ?_⟩
  · intro e he
    rcases List.mem_append.mp he with he | he
    · exact h.files e he
    · obtain rfl := List.mem_singleton.mp he
      exact ⟨rfl, rfl⟩
  · rw [List.map_append, List.nodup_append]
    refine ⟨h.nodup, by simp, ?_⟩
    intro a ha b hb
    obtain ⟨e, he, rfl⟩ := List.mem_map.mp ha
    obtain rfl : b = c := by simpa using hb
    have := List.any_eq_false.mp hnew e he
    simpa [entryNameEquals] using this

/-- Two files of one hash are a good bucket. -/
lemma BucketOk.pair {v : NamespaceEntry} (hv : v.kind = .file)
    (hx : (hash v.name).toNat = (hash c).toNat) (ref : InodeRef) (hne : v.name ≠ c) :
    BucketOk hash (hash c).toNat [v, ⟨.file, ref, c⟩] := by
  refine ⟨le_rfl, ?_, by simpa using hne⟩
  intro e he
  simp only [List.mem_cons, List.not_mem_nil, or_false] at he
  rcases he with rfl | rfl
  · exact ⟨hv, hx⟩
  · exact ⟨rfl, rfl⟩

/-- A file joins a chain, if its name is new there. -/
lemma Marked.created_setBucket (hC : T.Marked hash n) (ref : InodeRef) {v : NamespaceEntry}
    (hfits : entryNameFits c = true) (hc : T.cell f (hash c).toNat = some (.value v))
    (hk : v.kind = .conflictChain) :
    T.Created hash n cs f c ref
        (T.insertChain (hash c).toNat v (makeNamespaceEntry .file ref c)) ∨
      (T.insertChain (hash c).toNat v (makeNamespaceEntry .file ref c) = (false, T) ∧
        T.lookup f c (hash c).toNat ≠ none) := by
  obtain ⟨rfl, es, h1, h2⟩ := hC.marker ⟨v, hc, hk, rfl⟩
  have hlook : T.lookup T.root c (hash c).toNat = none ↔ es.any (entryNameEquals · c) = false := by
    have hn : T.names T.root (hash c).toNat = es := by
      rw [names, hc]
      simp [hk, h1]
    rw [T.lookup_eq_find, hn, ← any_eq_false_iff_find]
  by_cases h3 : es.any (entryNameEquals · c) = true
  · refine Or.inr ⟨?_, fun h0 => by simp [hlook.mp h0] at h3⟩
    simp only [insertChain, hk, if_true, h1, makeNamespaceEntry, h3]
  · have h3 : es.any (entryNameEquals · c) = false := by simpa using h3
    have hins : T.insertChain (hash c).toNat v (makeNamespaceEntry .file ref c)
        = (true, T.setBucket v.ref.blockId (some (es ++ [⟨.file, ref, c⟩]))) := by
      simp [insertChain, hk, h1, makeNamespaceEntry, h3]
    have hm : T.Marker T.root (hash c).toNat v.ref.blockId := ⟨v, hc, hk, rfl⟩
    have hren := hC.renames_setBucket hm (es ++ [⟨.file, ref, c⟩])
    rw [hins]
    refine Or.inl ⟨rfl, hfits, by simp [hc], hlook.mpr h3, fun hB => Backed.setBucket hB hm _,
      ⟨n, hC.setBucket hm (h2.concat ref h3), Or.inl ⟨rfl, rfl⟩⟩, ?_, fun _ _ _ => Iff.rfl⟩
    rw [show T.names T.root (hash c).toNat = es by rw [names, hc]; simp [hk, h1]]
    exact hren

/-- A file of another name starts a chain in the root directory. -/
lemma Marked.created_startChain (hC : T.Marked hash n) (ref : InodeRef) {v : NamespaceEntry}
    (hp : T.parentOf hash cs = some (T.root, c)) (hfits : entryNameFits c = true)
    (hc : T.cell T.root (hash c).toNat = some (.value v)) (hk : v.kind ≠ .conflictChain)
    (hne : v.name ≠ c) (hn : n + 2 < 2 ^ 32) :
    T.Created hash n cs T.root c ref
      (T.insertChain (hash c).toNat v (makeNamespaceEntry .file ref c)) := by
  obtain ⟨h1, h2⟩ := hC.value hc hk
  have hnames : T.names T.root (hash c).toNat = [v] := by
    rw [names, hc]
    simp [hk]
  have hfree := hC.bucket_nextId
  have hins : T.insertChain (hash c).toNat v (makeNamespaceEntry .file ref c)
      = (true, T.startChain (hash c).toNat [v, ⟨.file, ref, c⟩]) := by
    simp [insertChain, hk, entryNameEquals, hne, makeNamespaceEntry, hc, hfree, Table.startChain]
  obtain ⟨h3, h4⟩ := hC.startChain hn (.pair h1 h2 ref hne)
  rw [hins]
  refine ⟨rfl, hfits, by simp [hc], ?_, fun hB =>
    Backed.startChain hB (not_marker_of_file hc hk) _,
    ⟨n + 1, h3, Or.inr ⟨rfl, _, c, v, hp, hc, hk, hne⟩⟩, ?_, ?_⟩
  · rw [T.lookup_eq_find, hnames]
    simp [entryNameEquals, hne]
  · rw [hnames]
    exact h4
  · intro a y b
    rw [startChain_cell]
    split_ifs with h6
    · obtain ⟨rfl, rfl⟩ := h6
      rw [hc]
      simp
    · rfl

/-- **`creat_file`** appends to the entries of the cell, unless the name is there or the cell is
a directory.  A chain may be started in the root directory only. -/
lemma Marked.create (hC : T.Marked hash n) (ref : InodeRef)
    (hp : T.parentOf hash cs = some (f, c)) (hf : T.layers f)
    (hstart : T.StartsChain hash cs → entryNameFits c = true → f = T.root ∧ n + 2 < 2 ^ 32) :
    T.Created hash n cs f c ref (T.create hash cs ref .file) ∨
    ((T.create hash cs ref .file).1 = false ∧ (T.create hash cs ref .file).2 = T ∧
      ¬ (entryNameFits c = true ∧ (∀ g, T.cell f (hash c).toNat ≠ some (.directory g)) ∧
        T.lookup f c (hash c).toNat = none)) := by
  rw [Table.create, hp]
  simp only
  split_ifs with h0
  · refine Or.inr ⟨rfl, rfl, ?_⟩
    rintro ⟨h1, -⟩
    rw [h1] at h0
    cases h0
  have hfits : entryNameFits c = true := by simpa using h0
  cases hc : T.cell f (hash c).toNat with
  | none => exact Or.inl (hC.created_setCell ref hf hfits hc)
  | some d =>
      cases d with
      | directory g => exact Or.inr ⟨rfl, rfl, fun h1 => h1.2.1 g rfl⟩
      | value v =>
          simp only
          by_cases hk : v.kind = .conflictChain
          · rcases hC.created_setBucket ref hfits hc hk with h1 | ⟨h1, h2⟩
            · exact Or.inl h1
            · rw [h1]
              exact Or.inr ⟨rfl, rfl, fun h3 => h2 h3.2.2⟩
          · by_cases hname : v.name = c
            · refine Or.inr ?_
              rw [T.lookup_eq_find, names, hc]
              simp [insertChain, hk, entryNameEquals, hname, makeNamespaceEntry]
            · obtain ⟨rfl, hlt⟩ := hstart ⟨f, c, v, hp, hc, hk, hname⟩ hfits
              exact Or.inl (hC.created_startChain ref hp hfits hc hk hname hlt)

/-- Erasing an entry of a good bucket that keeps two leaves a good bucket. -/
lemma BucketOk.eraseIdx {es : List NamespaceEntry} (h : BucketOk hash x es) (i : ℕ)
    (hlen : 2 ≤ (es.eraseIdx i).length) : BucketOk hash x (es.eraseIdx i) :=
  ⟨hlen, fun e he => h.files e (List.eraseIdx_sublist es i |>.subset he),
    h.nodup.sublist ((List.eraseIdx_sublist es i).map _)⟩

lemma find_none_iff_getElem (es : List NamespaceEntry) (name : Bytes) :
    es.find? (entryNameEquals · name) = es[es.findIdx (entryNameEquals · name)]? := by
  induction es with
  | nil => rfl
  | cons e es ih =>
      rw [List.find?_cons, List.findIdx_cons]
      cases h : entryNameEquals e name with
      | true => rfl
      | false => simpa using ih

/-- `remove_entry` at a value: the name goes, the others stay. -/
lemma Marked.removeValue (hC : T.Marked hash n) (hf : T.layers f) {v : NamespaceEntry}
    (hc : T.cell f x = some (.value v)) :
    ((T.removeValue f x v c).1 = true ∧ T.lookup f c x ≠ none ∧
      (T.removeValue f x v c).2.Marked hash n ∧
      (T.Backed → (T.removeValue f x v c).2.Backed) ∧
      T.Renames (T.removeValue f x v c).2 f x
        ((T.names f x).eraseIdx ((T.names f x).findIdx (entryNameEquals · c))) ∧
      ∀ a y b, (T.removeValue f x v c).2.cell a y = some (.directory b) ↔
        T.cell a y = some (.directory b)) ∨
    ((T.removeValue f x v c).1 = false ∧ (T.removeValue f x v c).2 = T ∧
      T.lookup f c x = none) := by
  rw [T.lookup_eq_find]
  by_cases hk : v.kind = .conflictChain
  · obtain ⟨rfl, es, h1, h2⟩ := hC.marker ⟨v, hc, hk, rfl⟩
    have hm : T.Marker T.root x v.ref.blockId := ⟨v, hc, hk, rfl⟩
    have hn : T.names T.root x = es := by
      rw [names, hc]
      simp [hk, h1]
    rw [hn, find_none_iff_getElem]
    cases hi : es[es.findIdx (entryNameEquals · c)]? with
    | none =>
        have hrem : T.removeValue T.root x v c = (false, T) := by
          simp only [Table.removeValue, hk, ne_eq, not_true_eq_false, if_false, h1, hi]
        rw [hrem]
        exact Or.inr ⟨rfl, rfl, rfl⟩
    | some e =>
        have hfile := h2.files e (List.mem_of_getElem? hi)
        have hlen := h2.length
        have hlt : es.findIdx (entryNameEquals · c) < es.length := by
          by_contra h0
          rw [List.getElem?_eq_none (by omega)] at hi
          cases hi
        have herase : (es.eraseIdx (es.findIdx (entryNameEquals · c))).length + 1 = es.length := by
          rw [List.length_eraseIdx_of_lt hlt]
          omega
        cases hes : es.eraseIdx (es.findIdx (entryNameEquals · c)) with
        | nil =>
            rw [hes] at herase
            simp only [List.length_nil] at herase
            omega
        | cons a rest =>
            cases rest with
            | nil =>
                have hrem : T.removeValue T.root x v c
                    = (true, (T.setBucket v.ref.blockId none).setCell T.root x
                      (some (.value a))) := by
                  have : es.length ≠ 1 := by omega
                  simp [Table.removeValue, hk, h1, hi, hfile.1, this, hes]
                rw [hrem]
                have ha : a ∈ es := List.eraseIdx_sublist es _ |>.subset (by rw [hes]; simp)
                obtain ⟨h3, h4⟩ := hC.dissolve hm (h2.files a ha)
                refine Or.inl ⟨rfl, by simp, h3, fun hB => Backed.dissolve hB hm a, h4, ?_⟩
                exact (T.setBucket v.ref.blockId none).setCell_directory_iff
                  (f := T.root) (x := x) (by
                    intro g h0
                    have : T.cell T.root x = some (.directory g) := h0
                    rw [hc] at this
                    cases this) (by simp)
            | cons b rest =>
                have hrem : T.removeValue T.root x v c
                    = (true, T.setBucket v.ref.blockId (some (a :: b :: rest))) := by
                  have : es.length ≠ 1 := by omega
                  simp [Table.removeValue, hk, h1, hi, hfile.1, this, hes]
                rw [hrem, ← hes]
                have hok := h2.eraseIdx (es.findIdx (entryNameEquals · c)) (by rw [hes]; simp)
                exact Or.inl ⟨rfl, by simp, hC.setBucket hm hok, fun hB => Backed.setBucket hB hm _,
                  hC.renames_setBucket hm _, fun _ _ _ => Iff.rfl⟩
  · obtain ⟨h1, h2⟩ := hC.value hc hk
    have hn : T.names f x = [v] := by
      rw [names, hc]
      simp [hk]
    rw [hn]
    by_cases h3 : v.name = c
    · have hrem : T.removeValue f x v c = (true, T.setCell f x none) := by
        simp [Table.removeValue, entryNameEquals, h3, h1]
      rw [hrem]
      refine Or.inl ⟨rfl, by simp [entryNameEquals, h3],
        hC.setCell hf (not_marker_of_file hc hk) (by simp) (by simp),
        fun hB => Backed.setCell hB (not_marker_of_file hc hk) (by simp), ?_,
        setCell_directory_iff (by rw [hc]; simp) (by simp)⟩
      have h4 := T.renames_setCell f x none
      refine ⟨?_, h4.other, rfl⟩
      rw [names, setCell_same]
      simp [entryNameEquals, h3]
    · have hrem : T.removeValue f x v c = (false, T) := by
        simp [Table.removeValue, entryNameEquals, h3, hk]
      rw [hrem]
      exact Or.inr ⟨rfl, rfl, by simp [entryNameEquals, h3]⟩

/-- **`remove_path_for_test`** takes the name out of its cell, unless the name is not there or is
a directory with children. -/
lemma Marked.remove (hC : T.Marked hash n) (hp : T.parentOf hash cs = some (f, c))
    (hf : T.layers f) :
    ((T.remove hash cs).1 = true ∧ T.lookup f c (hash c).toNat ≠ none ∧
      (∀ g, T.cell f (hash c).toNat = some (.directory g) → ∀ y, T.cell g y = none) ∧
      (T.remove hash cs).2.Marked hash n ∧ (T.Backed → (T.remove hash cs).2.Backed) ∧
      T.Renames (T.remove hash cs).2 f (hash c).toNat ((T.names f (hash c).toNat).eraseIdx
        ((T.names f (hash c).toNat).findIdx (entryNameEquals · c))) ∧
      ∀ a y b, (T.remove hash cs).2.cell a y = some (.directory b) ↔
        T.cell a y = some (.directory b) ∧ ¬ (a = f ∧ y = (hash c).toNat)) ∨
    ((T.remove hash cs).1 = false ∧ (T.remove hash cs).2 = T ∧
      (T.lookup f c (hash c).toNat = none ∨
        ∃ g, T.cell f (hash c).toNat = some (.directory g) ∧ ∃ y, T.cell g y ≠ none)) := by
  rw [Table.remove, hp]
  simp only
  cases hc : T.cell f (hash c).toNat with
  | none => exact Or.inr ⟨rfl, rfl, Or.inl (by rw [lookup, hc])⟩
  | some d =>
      cases d with
      | value v =>
          simp only
          rcases hC.removeValue hf hc with ⟨h1, h2, h3, hB, h4, h5⟩ | ⟨h1, h2, h3⟩
          · refine Or.inl ⟨h1, h2, by simp, h3, hB, h4, ?_⟩
            intro a y b
            rw [h5]
            refine ⟨fun h6 => ⟨h6, ?_⟩, fun h6 => h6.1⟩
            rintro ⟨rfl, rfl⟩
            rw [hc] at h6
            cases h6
          · exact Or.inr ⟨h1, h2, Or.inl h3⟩
      | directory g =>
          obtain ⟨m, hm, -, -⟩ := hC.directory hc
          have hlook : T.lookup f c (hash c).toNat = T.directoryEntry g c := by rw [lookup, hc]
          rw [hlook]
          simp only
          split_ifs with h0
          · refine Or.inr ⟨rfl, rfl, ?_⟩
            rcases h0 with h0 | h0
            · exact Or.inl h0
            · exact Or.inr ⟨g, rfl, h0⟩
          · obtain ⟨h1, h2⟩ := not_or.mp h0
            have hempty : ∀ y, T.cell g y = none := by
              intro y
              by_contra hy
              exact h2 ⟨y, hy⟩
            refine Or.inl ⟨rfl, h1, ?_, hC.setCell hf (not_marker_of_directory hc)
              (by simp) (by simp),
              fun hB => Backed.setCell hB (not_marker_of_directory hc) (by simp), ?_, ?_⟩
            · intro b hb
              obtain rfl : g = b := by simpa using hb
              exact hempty
            · have h4 := T.renames_setCell f (hash c).toNat none
              refine ⟨?_, h4.other, rfl⟩
              have hname : m.name = c := by
                by_contra h5
                exact h1 (by simp [directoryEntry, hm, directoryMetaNameEquals, h5])
              have hn : T.names f (hash c).toNat = [⟨.directory, m.ref, m.name⟩] := by
                rw [names, hc]
                simp [hm]
              rw [names, setCell_same, hn]
              simp [entryNameEquals, hname]
            · intro a y b
              rw [setCell_cell]
              split_ifs with h5
              · simp [h5]
              · simp [h5]

lemma removeValue_info (T : Table) (f : Ptr) (x : ℕ) (v : NamespaceEntry) (name : Bytes) :
    (T.removeValue f x v name).2.info = T.info := by
  rw [Table.removeValue]
  split_ifs
  · rfl
  · rfl
  · split
    · rfl
    · simp only
      split
      · rfl
      · split_ifs
        · rfl
        · rfl
        · split <;> rfl

lemma remove_info (T : Table) (hash : Bytes → UInt64) (cs : List Bytes) :
    (T.remove hash cs).2.info = T.info := by
  rw [Table.remove]
  split
  · rfl
  · simp only
    split
    · rfl
    · exact removeValue_info _ _ _ _ _
    · split_ifs <;> rfl

/-- A started chain uses up a bucket id. -/
lemma create_nextId (ref : InodeRef) (hp : T.parentOf hash cs = some (f, c))
    (hfits : entryNameFits c = true) (hstart : T.StartsChain hash cs) (kind : EntryKind) :
    (T.create hash cs ref kind).2.nextId = (T.nextId + 1) % 2 ^ 32 := by
  obtain ⟨f', c', v, h1, h2, h3, h4⟩ := hstart
  rw [hp] at h1
  obtain ⟨rfl, rfl⟩ : f = f' ∧ c = c' := by simpa using h1
  rw [create, hp]
  simp only [hfits, Bool.not_true, Bool.false_eq_true, if_false, h2, insertChain, h3,
    entryNameEquals, makeNamespaceEntry, beq_iff_eq, h4]
  split
  · simp only [setCell]
    split_ifs <;> rfl
  · rfl

/-- `T'` has the layers, metadata and cells of `T`, except for cells of the layers `f` and
`T.root`. -/
structure SameBeyond (T T' : Table) (f : Ptr) : Prop where
  layers : T'.layers = T.layers
  info : T'.info = T.info
  root : T'.root = T.root
  cell : ∀ a y, a ≠ f → a ≠ T.root → T'.cell a y = T.cell a y

lemma SameBeyond.refl (T : Table) (f : Ptr) : T.SameBeyond T f :=
  ⟨rfl, rfl, rfl, fun _ _ _ _ => rfl⟩

lemma insertChain_sameBeyond (T : Table) (f : Ptr) (x : ℕ) (v e : NamespaceEntry) :
    T.SameBeyond (T.insertChain x v e).2 f := by
  rw [insertChain]
  split_ifs
  · split
    · exact SameBeyond.refl T f
    · split_ifs
      · exact SameBeyond.refl T f
      · exact ⟨rfl, rfl, rfl, fun _ _ _ _ => rfl⟩
  · exact SameBeyond.refl T f
  · simp only
    split
    · split_ifs
      · exact ⟨rfl, rfl, rfl, fun a y _ h0 => if_neg fun h1 => h0 h1.1⟩
      · exact ⟨rfl, rfl, rfl, fun a y _ h0 => if_neg fun h1 => h0 h1.1⟩
    · exact ⟨rfl, rfl, rfl, fun _ _ _ _ => rfl⟩

lemma create_sameBeyond (hp : T.parentOf hash cs = some (f, c)) (ref : InodeRef)
    (kind : EntryKind) :
    T.SameBeyond (T.create hash cs ref kind).2 f := by
  rw [create, hp]
  simp only
  split_ifs
  · exact SameBeyond.refl T f
  · split
    · exact SameBeyond.refl T f
    · exact insertChain_sameBeyond _ _ _ _ _
    · exact ⟨rfl, rfl, rfl, fun a y h0 _ => if_neg fun h1 => h0 h1.1⟩

/-- A chain started at a cell of any layer; its marker goes to the root layer, if there is a value
to replace. -/
lemma Marked.create_start (hC : T.Marked hash n) (ref : InodeRef)
    (hp : T.parentOf hash cs = some (f, c)) (hfits : entryNameFits c = true)
    (hstart : T.StartsChain hash cs) (hn : n + 2 < 2 ^ 32) :
    (T.create hash cs ref .file).2.Marked hash (n + 1) ∧
      (∀ a y b, (T.create hash cs ref .file).2.cell a y = some (.directory b) ↔
        T.cell a y = some (.directory b)) ∧
      (∀ a y, a ≠ T.root → (T.create hash cs ref .file).2.cell a y = T.cell a y) ∧
      ∀ a y, ∀ e ∈ (T.create hash cs ref .file).2.names a y,
        e.name = c ∨ ∃ b, e ∈ T.names b y := by
  obtain ⟨f', c', v, h1, h2, h3, h4⟩ := hstart
  rw [hp] at h1
  obtain ⟨rfl, rfl⟩ : f = f' ∧ c = c' := by simpa using h1
  have hfree := hC.bucket_nextId
  obtain ⟨h5, h6⟩ := hC.value h2 h3
  have hnames : v ∈ T.names f (hash c).toNat := by
    rw [names, h2]
    simp [h3]
  have hcreate : T.create hash cs ref .file
      = T.insertChain (hash c).toNat v (makeNamespaceEntry .file ref c) := by
    rw [Table.create, hp]
    simp [hfits, h2]
  by_cases hval : ∃ w, T.cell T.root (hash c).toNat = some (.value w)
  · obtain ⟨w, hw⟩ := hval
    have hins : T.insertChain (hash c).toNat v (makeNamespaceEntry .file ref c)
        = (true, T.startChain (hash c).toNat [v, ⟨.file, ref, c⟩]) := by
      simp [insertChain, h3, entryNameEquals, h4, makeNamespaceEntry, hw, hfree, Table.startChain]
    obtain ⟨h7, h8⟩ := hC.startChain hn (.pair h5 h6 ref h4)
    rw [hcreate, hins]
    refine ⟨h7, ?_, fun a y ha => by rw [startChain_cell, if_neg fun h0 => ha h0.1], ?_⟩
    · intro a y b
      rw [startChain_cell]
      split_ifs with h9
      · obtain ⟨rfl, rfl⟩ := h9
        rw [hw]
        simp
      · rfl
    · intro a y e he
      by_cases h0 : a = T.root ∧ y = (hash c).toNat
      · obtain ⟨rfl, rfl⟩ := h0
        rw [h8.here] at he
        simp only [List.mem_cons, List.not_mem_nil, or_false] at he
        rcases he with rfl | rfl
        · exact Or.inr ⟨f, hnames⟩
        · exact Or.inl rfl
      · rw [h8.other a y h0] at he
        exact Or.inr ⟨a, he⟩
  · have hins : T.insertChain (hash c).toNat v (makeNamespaceEntry .file ref c)
        = (false, { T with nextId := (T.nextId + 1) % 2 ^ 32 }) := by
      have hbucket : (fun i => if i = T.nextId then none else T.bucket i) = T.bucket := by
        funext i
        split_ifs with h0
        · rw [h0, hfree]
        · rfl
      simp only [insertChain, h3, if_false, entryNameEquals, makeNamespaceEntry, beq_iff_eq, h4]
      cases hroot : T.cell T.root (hash c).toNat with
      | none => simp [Table.setBucket, hbucket]
      | some d =>
          cases d with
          | directory b => simp [Table.setBucket, hbucket]
          | value w => exact absurd ⟨w, hroot⟩ hval
    rw [hcreate, hins]
    refine ⟨⟨⟨hC.closed.root, hC.closed.cell, hC.closed.target⟩, ⟨hC.tree.unique, hC.tree.root⟩,
      hC.directory, hC.value, hC.marker, hC.unique, fun h => (hC.ids h).trans (Nat.le_succ n), ?_⟩,
      fun _ _ _ => Iff.rfl, fun _ _ _ => rfl, fun a _ e he => Or.inr ⟨a, he⟩⟩
    change (T.nextId + 1) % 2 ^ 32 = n + 1 + 1
    rw [hC.nextId, Nat.mod_eq_of_lt (by omega)]

/-! ## A call in any directory -/

/-- All entries have names with `N`. -/
def AllNames (N : Bytes → Prop) (T : Table) : Prop := ∀ f x, ∀ e ∈ T.names f x, N e.name

lemma Renames.allNames {T' : Table} {N : Bytes → Prop} {l : List NamespaceEntry}
    (hR : T.Renames T' f x l) (hN : T.AllNames N) (hl : ∀ e ∈ l, N e.name) : T'.AllNames N := by
  intro a y e he
  by_cases h0 : a = f ∧ y = x
  · obtain ⟨rfl, rfl⟩ := h0
    rw [hR.here] at he
    exact hl e he
  · rw [hR.other a y h0] at he
    exact hN a y e he

/-- **Every call keeps the markers in order**, wherever it works. -/
lemma Marked.step (hC : T.Marked hash n) {N : Bytes → Prop} (hN : T.AllNames N) {g : Ptr}
    (hg : ¬ T.layers g) (hcs : ∀ c ∈ cs, N c) (call : BasicCall)
    (hroom : (T.performAt hash cs g call).2.nextId ≠ T.nextId → n + 2 < 2 ^ 32) :
    ∃ m, (T.performAt hash cs g call).2.Marked hash m ∧
      m ≤ n + (if (T.performAt hash cs g call).2.nextId = T.nextId then 0 else 1) ∧
      (T.performAt hash cs g call).2.AllNames N := by
  have hsame : (T.performAt hash cs g call).2 = T →
    ∃ m, (T.performAt hash cs g call).2.Marked hash m ∧
      m ≤ n + (if (T.performAt hash cs g call).2.nextId = T.nextId then 0 else 1) ∧
      (T.performAt hash cs g call).2.AllNames N := by
    intro h
    rw [h]
    exact ⟨n, hC, by omega, hN⟩
  cases hp : T.parentOf hash cs with
  | none =>
      refine hsame ?_
      cases call with
      | mkdir path ref => simp [Table.performAt, Table.mkdir, hp]
      | creatFile path ref => simp [Table.performAt, Table.create, hp]
      | removePath path => simp [Table.performAt, Table.remove, hp]
      | lookupEntry path => rfl
  | some fc =>
      obtain ⟨f, c⟩ := fc
      obtain ⟨ds, rfl, hloc⟩ : ∃ ds, cs = ds ++ [c] ∧
        T.locate T.root (hashesOf hash ds) = some f := by
        rcases List.eq_nil_or_concat cs with rfl | ⟨ds, d, rfl⟩
        · cases hp
        · rw [List.concat_eq_append, parentOf_concat] at hp
          obtain ⟨b, h1, h2⟩ := Option.map_eq_some_iff.mp hp
          obtain ⟨rfl, rfl⟩ : b = f ∧ d = c := by simpa using h2
          exact ⟨ds, List.concat_eq_append, h1⟩
      have hf := hC.closed.locate _ hC.closed.root hloc
      have hc : N c := hcs c (by simp)
      cases call with
      | mkdir path ref =>
          rcases hC.mkdir ref hp hf hg with ⟨-, -, -, -, h1, -, h2⟩ | ⟨-, h1, -⟩
          · exact ⟨n, h1, Nat.le_add_right _ _, h2.allNames hN (by simpa using hc)⟩
          · exact hsame h1
      | removePath path =>
          rcases hC.remove hp hf with ⟨-, -, -, h1, -, h2, -⟩ | ⟨-, h1, -⟩
          · refine ⟨n, h1, Nat.le_add_right _ _, h2.allNames hN fun e he => ?_⟩
            exact hN _ _ e (List.eraseIdx_sublist _ _ |>.subset he)
          · exact hsame h1
      | lookupEntry path => exact hsame rfl
      | creatFile path ref =>
          by_cases hst : T.StartsChain hash (ds ++ [c]) ∧ entryNameFits c = true
          · have hnext : (T.performAt hash (ds ++ [c]) g (.creatFile path ref)).2.nextId
                = (T.nextId + 1) % 2 ^ 32 := create_nextId ref hp hst.2 hst.1 .file
            obtain ⟨h1, -, -, h2⟩ := hC.create_start ref hp hst.2 hst.1
              (hroom (by rw [hnext]; omega))
            refine ⟨n + 1, h1, ?_, ?_⟩
            · rw [hnext, if_neg (by omega)]
            · intro a y e he
              rcases h2 a y e he with h3 | ⟨b, h3⟩
              · exact h3 ▸ hc
              · exact hN b y e h3
          · rcases hC.create ref hp hf (fun h1 h2 => absurd ⟨h1, h2⟩ hst) with
              ⟨-, hfits, -, -, -, ⟨m, h1, h2⟩, h3, -⟩ | ⟨-, h1, -⟩
            · refine ⟨m, h1, ?_, h3.allNames hN ?_⟩
              · rcases h2 with ⟨rfl, h2⟩ | ⟨rfl, h2⟩
                · exact Nat.le_add_right _ _
                · exact absurd ⟨h2, hfits⟩ hst
              · intro e he
                rcases List.mem_append.mp he with he | he
                · exact hN _ _ e he
                · obtain rfl := List.mem_singleton.mp he
                  exact hc
            · exact hsame h1

/-! ## What is found afterwards -/

section Found

variable {T' : Table} {e : NamespaceEntry}

/-- What a path finds after a change of one cell that keeps the directories. -/
lemma Renames.find (hash : Bytes → UInt64) {l : List NamespaceEntry}
    (hR : T.Renames T' f x l)
    (hdir : ∀ a y b, T'.cell a y = some (.directory b) ↔ T.cell a y = some (.directory b))
    (ds : List Bytes) (c : Bytes) :
    T'.find hash (ds ++ [c]) = if T.locate T.root (hashesOf hash ds) = some f ∧ (hash c).toNat = x
      then l.find? (entryNameEquals · c) else T.find hash (ds ++ [c]) := by
  rw [find_concat, find_concat, hR.root, locate_congr hdir]
  cases hloc : T.locate T.root (hashesOf hash ds) with
  | none => simp
  | some a =>
      simp only [Option.bind_some, Option.some.injEq, T'.lookup_eq_find, T.lookup_eq_find]
      split_ifs with h0
      · rw [h0.1, h0.2, hR.here]
      · rw [hR.other a _ h0]

/-- After appending an entry, its name is found, and the other names as before. -/
lemma Renames.lookup_concat (hR : T.Renames T' f (hash e.name).toNat
      (T.names f (hash e.name).toNat ++ [e]))
    (hnew : T.lookup f e.name (hash e.name).toNat = none) (a : Ptr) (c : Bytes) :
    T'.lookup a c (hash c).toNat
      = if a = f ∧ c = e.name then some e else T.lookup a c (hash c).toNat := by
  rw [lookup_eq_find, lookup_eq_find]
  rw [lookup_eq_find] at hnew
  by_cases h0 : a = f ∧ (hash c).toNat = (hash e.name).toNat
  · obtain ⟨rfl, h0⟩ := h0
    rw [h0, hR.here, find_concat_entry _ _ _ hnew]
    simp
  · rw [hR.other _ _ h0, if_neg]
    rintro ⟨rfl, rfl⟩
    exact h0 ⟨rfl, rfl⟩

/-- After erasing a name, it is not found, and the other names as before. -/
lemma Renames.lookup_erase {name : Bytes} (hC : T.Marked hash n)
    (hR : T.Renames T' f (hash name).toNat ((T.names f (hash name).toNat).eraseIdx
      ((T.names f (hash name).toNat).findIdx (entryNameEquals · name)))) (a : Ptr) (c : Bytes) :
    T'.lookup a c (hash c).toNat
      = if a = f ∧ c = name then none else T.lookup a c (hash c).toNat := by
  rw [lookup_eq_find, lookup_eq_find]
  by_cases h0 : a = f ∧ (hash c).toNat = (hash name).toNat
  · obtain ⟨rfl, h0⟩ := h0
    rw [h0, hR.here, find_eraseIdx _ _ _ (hC.names_spec a _).1]
    simp
  · rw [hR.other _ _ h0, if_neg]
    rintro ⟨rfl, rfl⟩
    exact h0 ⟨rfl, rfl⟩

end Found

end Table

lemma Table.initial_marked (hash : Bytes → UInt64) : Table.initial.Marked hash 0 := by
  have hno : ∀ {f x} {c : Content}, Table.initial.cell f x ≠ some c := fun h => by cases h
  refine ⟨(Table.initial_plain hash fun _ => True).closed,
    (Table.initial_plain hash fun _ => True).tree, fun h => absurd h hno, fun h => absurd h hno, ?_,
    ?_, fun h => absurd rfl h, rfl⟩
  · rintro f x id ⟨v, h, -⟩
    exact absurd h hno
  · rintro x y id ⟨v, h, -⟩
    exact absurd h hno

lemma Table.initial_backed : Table.initial.Backed := fun h => absurd rfl h

end MasstreeLHM
