import MasstreeLHM.Reference
import MasstreeLHM.ScanPaths

/-!
# Renaming a file

A file is renamed with a scan of the whole table: the records at its path are created again at the
new path, and removed from the old one.  The hashes of a file are the path of no other record, so
all the records that the scan finds there come from the one slot of the file.

**`cell_of_visitable`** connects what a scan may visit with the table: it visits values of cells,
under the hashes of their paths.  `visitable_at` says that nothing else is visited at the hashes of
a value, so the scanned subtree of a file is a list of records of its slot, as often as the scan has
met it (`scanSubtree_eq`).  `planItem_eq` gives the two paths of each item.

**`renameFile_cases`** says what the rename does in general: nothing, or it creates the records at
the new path and, if that has not failed, removes them at the old one.  **`renameFile_true`** is a
plain file that is renamed successfully: it is created at a free path and removed from its own.
-/

namespace MasstreeLHM

open LhmNamespace
  (planItem planLoop runPlan subtreeRecords createBefore removeBefore RenamePlanItem)

/-! ## What the scan visits -/

section

variable {β : Type} {h : Heap β} {G : Ghost}

/-- A descent that ends has come to a live leaf of the layer. -/
lemma TreeInv.descend_live (hT : TreeInv h G G.exact) {x : ℕ} {b : Ptr} :
    ∀ (fuel : ℕ) {a : Ptr}, G.live a →
    descend h x fuel a = some b → G.live b ∧ (h.node b).isLeaf = true ∧ G.fam b = G.fam a
  | 0, _, _, hd => by cases hd
  | fuel + 1, a, ha, hd => by
      rw [descend] at hd
      cases hn : h.node a with
      | leaf l =>
          rw [hn] at hd
          obtain rfl := Option.some.inj hd
          exact ⟨ha, by rw [hn]; rfl, rfl⟩
      | internode m =>
          rw [hn] at hd
          cases hc : m.child (upper x m.keys) with
          | none => simp [hc] at hd
          | some c =>
              simp only [hc] at hd
              have hmem : some c ∈ m.children := by
                rw [Internode.child, List.getD_eq_getElem?_getD] at hc
                cases hget : m.children[upper x m.keys]? with
                | none => simp [hget] at hc
                | some o =>
                    rw [hget] at hc
                    exact (show o = some c from hc) ▸ List.mem_of_getElem? hget
              obtain ⟨hlive, -, hfam, -⟩ := hT.child_live ha hn hmem
              obtain ⟨h1, h2, h3⟩ := hT.descend_live fuel hlive hd
              exact ⟨h1, h2, h3.trans hfam⟩

lemma TreeInv.reachLeaf_live (hT : TreeInv h G G.exact) {x a b : ℕ} (ha : G.Known h a)
    (hs : (h.node a).startable) (hb : reachLeaf h a x = some b) :
    G.live b ∧ (h.node b).isLeaf = true ∧ G.fam b = G.fam a := by
  rw [reachLeaf, hT.climbToRoot_eq _ ha hs (by omega), Option.bind_some] at hb
  obtain ⟨htl, -, hfam, -⟩ := hT.top_spec ha
  obtain ⟨h1, h2, h3⟩ := hT.descend_live _ htl hb
  exact ⟨h1, h2, h3.trans hfam⟩

end

namespace Represents

variable {s : LhmNamespace} {G : Ghost} {T : Table} {r f : Ptr}

lemma live_of_leafOf (hR : Represents s G T) (hr : Handle s G r f) {n : Ptr}
    (hn : LeafOf s.heap r n) :
    G.live n ∧ G.fam n = f ∧ s.heap.node n = .leaf (s.heap.leaf n) := by
  have hleaf : ∀ {a}, (s.heap.node a).isLeaf = true → s.heap.node a = .leaf (s.heap.leaf a) := by
    intro a h0
    cases hn : s.heap.node a with
    | leaf l => rw [Heap.leaf, hn]; rfl
    | internode m => simp [hn] at h0
  induction hn with
  | reach hn =>
      obtain ⟨h1, h2, h3⟩ := hR.heap.tree.reachLeaf_live (hR.known hr.lt) hr.start hn
      exact ⟨h1, h3.trans hr.fam, hleaf h2⟩
  | @next n m _ hm ih =>
      obtain ⟨h1, h2, h3⟩ := ih
      obtain ⟨h4, h5, -, lm, h6, -⟩ := (hR.heap.chain n { s.heap.leaf n with parent := none } h1
        (by rw [h3]; rfl)).next_some m hm
      refine ⟨h4, h5.trans h2, hleaf ?_⟩
      cases hn : s.heap.node m with
      | leaf l => rfl
      | internode i => simp [hn] at h6

/-- A slot of a leaf of the layer is a cell. -/
lemma cell_slotAt (hR : Represents s G T) (hr : Handle s G r f) {n i : ℕ} (hn : LeafOf s.heap r n)
    (hi : i < (s.heap.leaf n).size) :
    ∃ c : Content, (s.heap.slotAt n i).body = c.encode ∧
    T.cell f (s.heap.slotAt n i).ikey = some c := by
  obtain ⟨h1, h2, h3⟩ := hR.live_of_leafOf hr hn
  have hok := hR.heap.leaves n { s.heap.leaf n with parent := none } h1 (by rw [h3]; rfl)
  have hent : Entry s.heap G f (s.heap.slotAt n i) := by
    refine ⟨n, { s.heap.leaf n with parent := none }, h1, h2, by rw [h3]; rfl, ?_⟩
    exact List.mem_map_of_mem (List.mem_of_getElem? (hok.perm.get_eq_live hi))
  obtain ⟨c, hc⟩ := hR.encoded f _ hent
  refine ⟨c, hc, (hR.cell f _ c).mpr ?_⟩
  rw [← hc]
  exact hent

/-- A layer at component hashes is found by them. -/
lemma locate_of_layerOn (hR : Represents s G T) {a a' : Ptr} (ha : Handle s G a a') {xs : List ℕ}
    (hr : LayerOn s.heap a xs r) : ∃ f, T.locate a' xs = some f ∧ Handle s G r f := by
  induction hr with
  | root => exact ⟨a', rfl, ha⟩
  | @slot xs r n i r' _ hn hi hl ih =>
      obtain ⟨f, h1, h2⟩ := ih
      obtain ⟨c, h3, h4⟩ := hR.cell_slotAt h2 hn hi
      rw [h3] at hl
      cases c with
      | value v => cases hl
      | directory g =>
          obtain rfl : g = r' := Option.some.inj hl
          obtain ⟨hlt, hfam⟩ := (hR.layers g).mp (hR.target _ _ _ h4)
          refine ⟨g, Table.locate_concat_eq h1 h4, ?_⟩
          have hhandle := hR.handle_of_leaf hlt fun _ => hfam
          rwa [hfam] at hhandle

/-- **What the scan visits are values of the table**, under the hashes of their paths. -/
lemma cell_of_visitable (hR : Represents s G T) {kv : List ℕ × NamespaceEntry}
    (h : Visitable s.heap s.root kv) :
    ∃ xs x f, kv.1 = xs ++ [x] ∧ T.locate T.root xs = some f ∧ T.cell f x = some (.value kv.2) := by
  obtain ⟨xs, x, r, h1, hr, n, i, hn, hi, hx, hlv⟩ := h
  obtain ⟨f, h2, h3⟩ := hR.locate_of_layerOn hR.handle_root hr
  obtain ⟨c, h4, h5⟩ := hR.cell_slotAt h3 hn hi
  refine ⟨xs, x, f, h1, h2, ?_⟩
  rw [h4] at hlv
  cases c with
  | directory g => cases hlv
  | value v =>
      obtain rfl : v = kv.2 := by simpa [Content.encode] using hlv
      rw [← hx]
      exact h5

/-- At the hashes of a value there is no other value. -/
lemma visitable_at (hR : Represents s G T) {xs : List ℕ} {x : ℕ} {v : NamespaceEntry}
    (hloc : T.locate T.root xs = some f) (hcell : T.cell f x = some (.value v))
    {kv : List ℕ × NamespaceEntry} (h : Visitable s.heap s.root kv)
    (hpre : kv.1.take (xs ++ [x]).length = xs ++ [x]) : kv = (xs ++ [x], v) := by
  obtain ⟨ys, y, g, h1, h2, h3⟩ := hR.cell_of_visitable h
  have hzs := (List.take_append_drop (xs ++ [x]).length kv.1).symm
  rw [hpre] at hzs
  generalize kv.1.drop (xs ++ [x]).length = zs at hzs
  rw [h1] at hzs
  rcases List.eq_nil_or_concat' zs with rfl | ⟨zs', z, rfl⟩
  · rw [List.append_nil] at hzs
    obtain ⟨rfl, hy⟩ := List.append_inj' hzs rfl
    obtain rfl : y = x := by simpa using hy
    rw [hloc] at h2
    obtain rfl := Option.some.inj h2
    rw [hcell] at h3
    refine Prod.ext h1 ?_
    simpa using h3.symm
  · -- there is nothing below a value
    rw [← List.append_assoc, List.append_assoc xs] at hzs
    obtain ⟨rfl, -⟩ := List.append_inj' hzs rfl
    rw [Table.locate_append, hloc, Option.bind_some, List.singleton_append,
      Table.locate_cons, hcell] at h2
    cases h2

end Represents

/-! ## The plan -/

/-- The records that a scan reports for a value. -/
def Table.recordsOf (T : Table) (v : NamespaceEntry) : List NamespaceEntry :=
  if v.kind ≠ .conflictChain then [v] else (T.bucket v.ref.blockId).getD []

lemma planLoop_eq {item : List ℕ × NamespaceEntry → Option (Option RenamePlanItem)}
    {g : List ℕ × NamespaceEntry → RenamePlanItem} : ∀ {rs : List (List ℕ × NamespaceEntry)},
    (∀ r ∈ rs, item r = some (some (g r))) → planLoop item rs = some (some (rs.map g))
  | [], _ => rfl
  | r :: rs, h => by
      rw [planLoop, h r List.mem_cons_self]
      simp only [Option.bind_eq_bind, Option.bind_some,
        planLoop_eq fun r' hr' => h r' (List.mem_cons_of_mem _ hr')]
      rfl

namespace Represents

variable {s : LhmNamespace} {G : Ghost} {T : Table} {hash : Bytes →
  UInt64} {old new : List Bytes} {f : Ptr}

/-- The item of a record at the old path. -/
lemma planItem_eq (hR : Represents s G T) (hnew : ∀ c ∈ new, IsName c)
    (hfind : T.find hash new = none) (records : List (List ℕ × NamespaceEntry))
    (e : NamespaceEntry) :
    planItem hash s (ParsedPath.of hash old) (ParsedPath.of hash new) records (hashesOf hash old, e)
      = some (some ⟨joinPath old, joinPath new, e, (hashesOf hash new).length⟩) := by
  have hrec : LhmNamespace.reconstructPathUnderRoot (joinPath old) (hashesOf hash old)
    (hashesOf hash old)
      records = some (joinPath old) := by
    rw [LhmNamespace.reconstructPathUnderRoot, if_neg (by simp), List.drop_of_length_le (by simp)]
    rfl
  have hparse : parseAbsolutePath hash (joinPath new) = some (ParsedPath.of hash new) :=
    parseAbsolutePath_joinPath hnew
  have hne : joinPath new ≠ [] := by
    intro h0
    rw [h0] at hparse
    cases hparse
  have hhashes : ∀ cs, (ParsedPath.of hash cs).hashes = hashesOf hash cs := fun _ => rfl
  rw [planItem]
  simp only [ParsedPath.of_normalizedPath, hhashes, hrec, rewriteDestinationPath, if_true, hne,
    if_false, hparse, Option.bind_eq_bind, Option.bind_some, hR.lookupEntryFromParsed_eq hnew,
    hfind]
  rfl

/-- The subtree of a file has the records of its slot, all at its path. -/
lemma scanSubtree_eq (hR : Represents s G T) {ods : List Bytes} {c : Bytes} {v : NamespaceEntry}
    (hloc : T.locate T.root (hashesOf hash ods) = some f)
    (hcell : T.cell f (hash c).toNat = some (.value v)) {fuel : ℕ}
    {subtree : List (List ℕ × NamespaceEntry)}
      (hs : s.scanSubtree fuel (hashesOf hash (ods ++ [c])) = some subtree) :
    ∀ r ∈ subtree, r.1 = hashesOf hash (ods ++ [c]) ∧ r.2 ∈ T.recordsOf v := by
  obtain ⟨out, hout, rfl⟩ := Option.map_eq_some_iff.mp hs
  intro r hr
  obtain ⟨kv, hkv, hr⟩ := List.mem_flatMap.mp hr
  rw [subtreeRecords] at hr
  split_ifs at hr with h1 h2
  · cases hr
  · have hpre := not_not.mp h1
    rw [hashesOf_concat] at hpre ⊢
    obtain rfl := hR.visitable_at hloc hcell (Scan.run_sound hout kv hkv) hpre
    obtain rfl := List.mem_singleton.mp hr
    exact ⟨rfl, by rw [Table.recordsOf, if_pos h2]; exact List.mem_singleton_self _⟩
  · have hpre := not_not.mp h1
    rw [hashesOf_concat] at hpre ⊢
    obtain rfl := hR.visitable_at hloc hcell (Scan.run_sound hout kv hkv) hpre
    obtain ⟨e, he, rfl⟩ := List.mem_map.mp hr
    exact ⟨rfl, by rw [Table.recordsOf, if_neg h2, hR.bucket]; exact he⟩

/-- **What `rename_path` of a file does**: nothing, or it creates the records at the new path, and
if that has not failed removes them at the old one. -/
lemma renameFile_cases (hR : Represents s G T) (hnew : ∀ c ∈ new, IsName c)
    {ods : List Bytes} {c : Bytes} {v : NamespaceEntry}
    (hloc : T.locate T.root (hashesOf hash ods) = some f)
    (hcell : T.cell f (hash c).toNat = some (.value v)) {fuel : ℕ} {ok : Bool} {s' : LhmNamespace}
    (hs : s.renameFile hash fuel (ParsedPath.of hash (ods ++ [c])) (ParsedPath.of hash new) =
      some (ok, s')) :
    (ok = false ∧ s' = s) ∨ (T.find hash new = none ∧ ∃ plan plan' : List RenamePlanItem,
      plan ≠ [] ∧ plan.Perm plan' ∧
      (∀ i ∈ plan, i.sourcePath = joinPath (ods ++ [c]) ∧ i.destinationPath = joinPath new ∧
        i.entry ∈ T.recordsOf v) ∧
      ∃ ok₁ s₁, runPlan (fun s i => s.createEntry hash i.destinationPath i.entry.kind i.entry.ref)
        s plan
          = some (ok₁, s₁) ∧
        if ok₁ then runPlan (fun s i => s.removeEntry hash i.sourcePath) s₁ plan' = some (ok, s')
        else ok = false ∧ s' = s₁) := by
  have hself : ∀ {b}, some (false, s) = some (b, s') → b = false ∧ s' = s := by
    intro b h0
    obtain ⟨h1, h2⟩ := Prod.mk.inj (Option.some.inj h0)
    exact ⟨h1.symm, h2.symm⟩
  rw [LhmNamespace.renameFile, hR.lookupEntryFromParsed_eq hnew] at hs
  simp only [Option.bind_eq_bind, Option.bind_some] at hs
  cases hfind : T.find hash new with
  | some e => exact Or.inl (hself (by simpa [hfind] using hs))
  | none =>
  simp only [hfind] at hs
  obtain ⟨o, -, hs⟩ := Option.bind_eq_some_iff.mp hs
  cases o with
  | none => exact Or.inl (hself hs)
  | some e =>
  obtain ⟨subtree, h1, hs⟩ := Option.bind_eq_some_iff.mp hs
  have hrecords := hR.scanSubtree_eq hloc hcell h1
  split_ifs at hs with h2
  · exact Or.inl (hself hs)
  have hplan :
    planLoop (planItem hash s (ParsedPath.of hash (ods ++ [c])) (ParsedPath.of hash new) subtree)
      subtree = some (some (subtree.map fun r =>
        ⟨joinPath (ods ++ [c]), joinPath new, r.2, (hashesOf hash new).length⟩)) := by
    refine planLoop_eq fun r hr => ?_
    have heq : planItem hash s (ParsedPath.of hash (ods ++ [c])) (ParsedPath.of hash new) subtree
        (hashesOf hash (ods ++ [c]), r.2) = _ := hR.planItem_eq hnew hfind subtree r.2
    rwa [← (hrecords r hr).1] at heq
  have hmem : ∀ i ∈ subtree.map fun r => (⟨joinPath (ods ++ [c]), joinPath new, r.2,
      (hashesOf hash new).length⟩ : RenamePlanItem), i.sourcePath = joinPath (ods ++ [c]) ∧
      i.destinationPath = joinPath new ∧ i.entry ∈ T.recordsOf v := by
    intro i hi
    obtain ⟨r, hr, rfl⟩ := List.mem_map.mp hi
    exact ⟨rfl, rfl, (hrecords r hr).2⟩
  rw [hplan] at hs
  simp only [Option.bind_some] at hs
  generalize hitems : subtree.map (fun r => (⟨joinPath (ods ++ [c]), joinPath new, r.2,
    (hashesOf hash new).length⟩ : RenamePlanItem)) = items at hs hmem
  have hne : items ≠ [] := by
    rintro rfl
    exact h2 (List.map_eq_nil_iff.mp hitems)
  obtain ⟨⟨ok₁, s₁⟩, h3, hs⟩ := Option.bind_eq_some_iff.mp hs
  have hperm : (items.insertionSort fun a b => createBefore a b).Perm items :=
    List.perm_insertionSort _ _
  have hperm' : (items.insertionSort fun a b => removeBefore a b).Perm items :=
    List.perm_insertionSort _ _
  refine Or.inr ⟨rfl, _, _, fun h0 => hne (List.perm_nil.mp (h0 ▸ hperm.symm)),
    hperm.trans hperm'.symm,
    fun i hi => hmem i (hperm.mem_iff.mp hi), ok₁, s₁, h3, ?_⟩
  · cases ok₁ with
    | true => exact hs
    | false =>
        obtain ⟨h4, h5⟩ := Prod.mk.inj (Option.some.inj hs)
        exact ⟨h4.symm, h5.symm⟩

end Represents

/-! ## A plain file -/

lemma Table.parentOf_setValue {T : Table} {hash : Bytes → UInt64} {f : Ptr} {x : ℕ}
    (hold : ∀ g, T.cell f x ≠ some (.directory g)) (v : NamespaceEntry) (cs : List Bytes) :
    (T.setCell f x (some (.value v))).parentOf hash cs = T.parentOf hash cs := by
  have hlocate : ∀ ys a, (T.setCell f x (some (.value v))).locate a ys = T.locate a ys :=
    locate_congr (setCell_directory_iff hold (by simp))
  rw [parentOf, parentOf]
  cases cs.getLast? with
  | none => rfl
  | some c =>
      simp only [hlocate]
      rfl

/-- A file that has just been created is not created again. -/
lemma Table.create_again {T : Table} {hash : Bytes → UInt64} {cs : List Bytes} {ref : InodeRef}
    {kind : EntryKind} (hfree : ∀ f c, T.parentOf hash cs = some (f, c) →
      T.cell f (hash c).toNat = none)
    (hkind : kind ≠ .conflictChain) (ref' : InodeRef) (hok : (T.create hash cs ref kind).1 = true) :
    ((T.create hash cs ref kind).2.create hash cs ref' kind).1 = false := by
  obtain ⟨⟨f, c⟩, hparent⟩ : ∃ fc, T.parentOf hash cs = some fc := by
    refine Option.ne_none_iff_exists'.mp fun h0 => ?_
    rw [create, h0] at hok
    cases hok
  have hfree := hfree f c hparent
  have hT : T.create hash cs ref kind = (true, T.setCell f (hash c).toNat
      (some (.value (makeNamespaceEntry kind ref c)))) := by
    rw [create, hparent] at hok ⊢
    simp only [hfree] at hok ⊢
    split_ifs at hok ⊢ with hfit
    rfl
  rw [hT, create, parentOf_setValue (by simp [hfree]), hparent]
  simp only [setCell_same]
  split_ifs with hfit
  · rfl
  · rw [insertChain, if_neg (show (makeNamespaceEntry kind ref c).kind ≠ .conflictChain from hkind)]
    simp [entryNameEquals, makeNamespaceEntry]

namespace Represents

variable {s : LhmNamespace} {G : Ghost} {T : Table} {hash : Bytes → UInt64} {cs : List Bytes}

lemma createEntry_spec (hR : Represents s G T) (hash : Bytes → UInt64) (hcs : ∀ c ∈ cs, IsName c)
    {kind : EntryKind} (hkind : kind ≠ .directory) (ref : InodeRef) :
    ∃ s' G', s.createEntry hash (joinPath cs) kind ref = some ((T.create hash cs ref kind).1, s') ∧
      Represents s' G' (T.create hash cs ref kind).2 := by
  obtain ⟨s', G', h1, h2, -⟩ := hR.createFile_spec hash hcs ref kind
  refine ⟨s', G', ?_, h2⟩
  rw [LhmNamespace.createEntry, parseAbsolutePath_joinPath hcs]
  simp only [Option.bind_eq_bind, Option.bind_some]
  rw [LhmNamespace.createEntryFromParsed, if_neg hkind, h1]

lemma removePath_spec (hR : Represents s G T) (hash : Bytes → UInt64) (hcs : ∀ c ∈ cs, IsName c) :
    ∃ s' G', s.removeEntry hash (joinPath cs) = some ((T.remove hash cs).1, s') ∧
      Represents s' G' (T.remove hash cs).2 := by
  obtain ⟨s', G', h1, h2, -⟩ := hR.removeEntry_spec hash hcs
  refine ⟨s', G', ?_, h2⟩
  rw [LhmNamespace.removeEntry, parseAbsolutePath_joinPath hcs]
  exact h1

/-- **A plain file that is renamed** is created at the free new path and removed from the old
one. -/
lemma renameFile_true (hR : Represents s G T) {ods new : List Bytes} {c : Bytes} {f : Ptr}
    {v : NamespaceEntry} (hold : ∀ d ∈ ods ++ [c], IsName d) (hnew : ∀ d ∈ new, IsName d)
    (hloc : T.locate T.root (hashesOf hash ods) = some f)
    (hcell : T.cell f (hash c).toNat = some (.value v)) (hplain : v.kind ≠ .conflictChain)
    (hfile : v.kind ≠ .directory)
    (hfree : T.find hash new = none → ∀ f' c', T.parentOf hash new = some (f', c') →
      T.cell f' (hash c').toNat = none) {fuel : ℕ} {s' : LhmNamespace}
    (hs : s.renameFile hash fuel (ParsedPath.of hash (ods ++ [c])) (ParsedPath.of hash new) =
      some (true, s')) :
    (T.create hash new v.ref v.kind).1 = true ∧
      ((T.create hash new v.ref v.kind).2.remove hash (ods ++ [c])).1 = true ∧
      ∃ G', Represents s' G' ((T.create hash new v.ref v.kind).2.remove hash (ods ++ [c])).2 := by
  rcases hR.renameFile_cases hnew hloc hcell hs with
    ⟨h0, -⟩ | ⟨hfind, plan, plan', hne, hperm, hitems, ok₁, s₁, h1, h2⟩
  · cases h0
  have hentry : ∀ i ∈ plan, i.sourcePath = joinPath (ods ++ [c]) ∧
    i.destinationPath = joinPath new ∧
      i.entry = v := by
    intro i hi
    obtain ⟨h3, h4, h5⟩ := hitems i hi
    rw [Table.recordsOf, if_pos hplain, List.mem_singleton] at h5
    exact ⟨h3, h4, h5⟩
  -- the creations have not failed
  cases ok₁ with
  | false =>
      rw [if_neg (by simp)] at h2
      cases h2.1
  | true =>
  rw [if_pos rfl] at h2
  obtain ⟨i, rest, rfl⟩ := List.exists_cons_of_ne_nil hne
  obtain ⟨hi1, hi2, hi3⟩ := hentry i List.mem_cons_self
  obtain ⟨s₂, G₂, h3, hR₂⟩ := hR.createEntry_spec hash hnew hfile v.ref
  rw [runPlan, hi2, hi3, h3] at h1
  simp only [Option.bind_eq_bind, Option.bind_some] at h1
  split_ifs at h1 with hok
  swap
  · cases h1
  cases rest with
  | cons j rest =>
      -- a second creation at the same path fails
      obtain ⟨-, hj2, hj3⟩ := hentry j (by simp)
      obtain ⟨s₃, G₃, h4, -⟩ := hR₂.createEntry_spec hash hnew hfile v.ref
      rw [runPlan, hj2, hj3, h4] at h1
      simp [Table.create_again (hfree hfind) hplain v.ref hok] at h1
  | nil =>
      obtain rfl : s₂ = s₁ := by simpa [runPlan] using h1
      rw [← List.singleton_perm.mp hperm, runPlan, hi1] at h2
      obtain ⟨s₃, G₃, h4, hR₃⟩ := hR₂.removePath_spec hash hold
      rw [h4] at h2
      simp only [Option.bind_eq_bind, Option.bind_some] at h2
      split_ifs at h2 with hok'
      swap
      · cases h2
      obtain rfl : s₃ = s' := by simpa [runPlan] using h2
      exact ⟨hok, hok', G₃, hR₃⟩

end Represents

end MasstreeLHM
