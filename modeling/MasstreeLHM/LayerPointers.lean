import MasstreeLHM.EdgeUpdates
import MasstreeLHM.Layers.Destroy
import MasstreeLHM.PathRuns
import MasstreeLHM.RootChains

/-!
# Where the layer pointers lead

`root_` and the layer slots are not repaired when a layer gets a new root.  As long as they keep the
leftmost leaf of their layer, which is never given to `deallocate_rcu`, that does no harm.  A
pointer to an internode is kept by a rename of a directory whose root has split, and by the
`fix_root` of a new chain.

`PointersLead` says that from every layer pointer the parents lead to the current root of its layer,
and that no node on the way is retired.  `KeepsPointers` is the condition on a call, in the state
before it, that excludes the two exceptions.

`HoldsPointers` is what is carried along: the state stands for a table, and `root_` is the leftmost
leaf of the root layer.  The calls that do not touch `root_` are short
(`createDirectoryFromParsed_root`, `removeEntryFromParsed_root`, `moveEdge_root`).  Chains are
started by `creat_file` alone, and by the creations of a file rename (`RootedAt.create`).
**`HoldsPointers.perform`** is one call and **`pointers_lead_to_roots`** the run.
-/

namespace MasstreeLHM

open LhmNamespace (initialState)

/-- `maybe_parent` leads from `q` to the root `r` of its layer, where it leads from every node of
that layer, and no node on the way has been given to `deallocate_rcu`. -/
structure LeadsToRoot (h : Heap Cell) (q r : Ptr) : Prop where
  canonical : canonicalizeDirectoryRoot h q = some r
  linked : h.Linked r q
  one : ∀ c, h.Linked r c → canonicalizeDirectoryRoot h c = some r
  kept : ∀ c, Relation.ReflTransGen (fun a p => (h.node a).parent = some p) q c → c ∉ h.retired

namespace LhmNamespace

/-- **All pointers lead to current roots.** -/
structure PointersLead (s : LhmNamespace) : Prop where
  root : ∃ r, LeadsToRoot s.heap s.root r
  slot : ∀ a i q, s.DirectoryLeaf a → i < (s.heap.leaf a).size →
    (s.heap.slotAt a i).body.layerPointer = some q → ∃ r, LeadsToRoot s.heap q r

/-- Creating a file at the path starts a chain: its slot holds a file under another name. -/
def StartsChain (hash : Bytes → UInt64) (s : LhmNamespace) (path : Bytes) : Prop :=
  ∃ p b v, parseAbsolutePath hash path = some p ∧ p.normalizedPath ≠ [slash] ∧
    entryNameFits p.name = true ∧
    s.locateDirectoryRoot p.parent = some (some b) ∧
    lookupChildSlotFromParentRoot s.heap b p.hash = some (.value v) ∧ v.kind ≠ .conflictChain ∧
    entryNameEquals v p.name = false

/-- When a chain is started, `root_` still is the current root; and a rename that gets to the edge
updates finds the current root of the directory in its old slot. -/
def KeepsPointers (hash : Bytes → UInt64) (s : LhmNamespace) : PathCall → Prop
  | .basic (.creatFile path _) => s.StartsChain hash path → (s.heap.node s.root).isRoot = true
  | .basic _ => True
  | .rename oldPath newPath _ =>
      (∀ e, s.lookupEntry hash oldPath = some (some e) → e.kind ≠ .directory →
        s.StartsChain hash newPath →
        (s.heap.node s.root).isRoot = true) ∧
      ∀ old new b b' r, parseAbsolutePath hash oldPath = some old →
      parseAbsolutePath hash newPath = some new →
        s.Attaches old new b b' r → edgePointer s.heap b old.hash = some r

/-- The state stands for a table, and `root_` is the leftmost leaf of the root layer. -/
def HoldsPointers (s : LhmNamespace) : Prop :=
  ∃ G T, Represents s G T ∧ T.FileKinds ∧ s.root = T.root

end LhmNamespace

/-! ## Live nodes -/

namespace Represents

variable {s s' : LhmNamespace} {G : Ghost} {T : Table} {hash : Bytes → UInt64} {q : Ptr}

/-- From a live node every step leads to a live node. -/
lemma leadsToRoot (hR : Represents s G T) (hq : G.live q) :
    LeadsToRoot s.heap q (G.top (G.fam q)) := by
  have hT := hR.heap.tree
  refine ⟨hT.canonicalizeDirectoryRoot_eq (hT.known hq), (hT.linked_iff (hT.known hq)).mpr
    ⟨hq, rfl⟩, ?_, ?_⟩
  · intro c hc
    obtain ⟨hlive, hfam⟩ := (hT.linked_iff (hT.known hq)).mp hc
    rw [← hfam]
    exact hT.canonicalizeDirectoryRoot_eq (hT.known hlive)
  · intro c hc
    have hlive : G.live c := by
      induction hc with
      | refl => exact hq
      | tail _ hp ih => exact (hT.linked ih id hp).1
    exact fun h0 => (hT.retired_dead h0).2 hlive

/-- The leftmost leaf of a layer is live. -/
lemma layer_live (hR : Represents s G T) (hq : T.layers q) : G.live q := by
  obtain ⟨hlt, hfam⟩ := (hR.layers q).mp hq
  rw [← hfam]
  exact (hR.heap.tree.fam_spec (hR.known hlt)).1

end Represents

namespace LhmNamespace

variable {s s' : LhmNamespace} {hash : Bytes → UInt64}

lemma HoldsPointers.pointersLead (h : s.HoldsPointers) : s.PointersLead := by
  obtain ⟨G, T, hR, -, hroot⟩ := h
  refine ⟨⟨_, hroot ▸ hR.leadsToRoot (hR.layer_live hR.closed.root)⟩, ?_⟩
  rintro a i q ⟨r, hlt, hstart, hleaf⟩ hi hq
  obtain ⟨c, h1, h2⟩ := hR.cell_slotAt ⟨hlt, hstart, rfl⟩ hleaf hi
  rw [h1] at hq
  obtain rfl := Content.layerPointer_encode hq
  exact ⟨_, hR.leadsToRoot (hR.layer_live (hR.target _ _ _ h2))⟩

/-! ## `root_` -/

/-- `mkdir` does not touch `root_`. -/
lemma createDirectoryFromParsed_root {p : ParsedPath} {ref : InodeRef} {ok : Bool}
    (hs : s.createDirectoryFromParsed p ref = some (ok, s')) : s'.root = s.root := by
  rw [createDirectoryFromParsed] at hs
  split_ifs at hs
  · exact (congrArg (fun r => r.2.root) (Option.some.inj hs)).symm
  · exact (congrArg (fun r => r.2.root) (Option.some.inj hs)).symm
  · exact (congrArg (fun r => r.2.root) (Option.some.inj hs)).symm
  · obtain ⟨o, -, hs⟩ := Option.bind_eq_some_iff.mp hs
    cases o with
    | none => exact (congrArg (fun r => r.2.root) (Option.some.inj hs)).symm
    | some b =>
        obtain ⟨c, -, hs⟩ := Option.bind_eq_some_iff.mp hs
        cases c with
        | missing =>
            obtain ⟨r, -, hs⟩ := Option.bind_eq_some_iff.mp hs
            exact (congrArg (fun r => r.2.root) (Option.some.inj hs)).symm
        | layer g => exact (congrArg (fun r => r.2.root) (Option.some.inj hs)).symm
        | value v => exact (congrArg (fun r => r.2.root) (Option.some.inj hs)).symm

/-- `insert_into_conflict_chain` leaves `root_` where it is, if it is the current root when a chain
is started. -/
lemma insertIntoConflictChain_root {x : ℕ} {v e : NamespaceEntry} {ok : Bool}
    (hbit : v.kind ≠ .conflictChain → entryNameEquals v e.name = false →
      (s.heap.node s.root).isRoot = true)
    (hs : s.insertIntoConflictChain x v e = some (ok, s')) : s'.root = s.root := by
  rw [insertIntoConflictChain] at hs
  split_ifs at hs with hk hname
  · cases hb : s.findBucket v.ref.blockId with
    | none =>
        rw [hb] at hs
        exact (congrArg (fun r => r.2.root) (Option.some.inj hs)).symm
    | some es =>
        rw [hb] at hs
        simp only at hs
        split_ifs at hs
        · exact (congrArg (fun r => r.2.root) (Option.some.inj hs)).symm
        · exact (congrArg (fun r => r.2.root) (Option.some.inj hs)).symm
  · exact (congrArg (fun r => r.2.root) (Option.some.inj hs)).symm
  · have hroot := hbit hk (Bool.eq_false_iff.mpr hname)
    simp only at hs
    generalize hs₁ : ({ s with nextConflictBucketId := (s.nextConflictBucketId + 1) % 2 ^ 32 } :
      LhmNamespace).emplaceBucket s.nextConflictBucketId [v, e] = s₁ at hs
    have hsame : s₁.heap = s.heap ∧ s₁.root = s.root := by
      rw [← hs₁, emplaceBucket]
      split_ifs <;> exact ⟨rfl, rfl⟩
    have hfix : s₁.fixRoot = s₁ := if_pos (by rw [hsame.1, hsame.2]; exact hroot)
    rw [hfix] at hs
    obtain ⟨r, -, hs⟩ := Option.bind_eq_some_iff.mp hs
    cases r with
    | inserted h pos => exact (congrArg (fun r => r.2.root) (Option.some.inj hs)).symm.trans hsame.2
    | found c p => exact (congrArg (fun r => r.2.root) (Option.some.inj hs)).symm.trans hsame.2

/-- `creat_file` leaves `root_` where it is, if it is the current root when a chain is started. -/
lemma createFileFromParsed_root {p : ParsedPath} {ref : InodeRef} {kind : EntryKind} {ok : Bool}
    (hbit : ∀ b v, entryNameFits p.name = true → p.normalizedPath ≠ [slash] →
      s.locateDirectoryRoot p.parent = some (some b) →
      lookupChildSlotFromParentRoot s.heap b p.hash = some (.value v) → v.kind ≠ .conflictChain →
      entryNameEquals v p.name = false → (s.heap.node s.root).isRoot = true)
    (hs : s.createFileFromParsed p ref kind = some (ok, s')) : s'.root = s.root := by
  rw [createFileFromParsed] at hs
  split_ifs at hs with h1 h2 h3
  · exact (congrArg (fun r => r.2.root) (Option.some.inj hs)).symm
  · exact (congrArg (fun r => r.2.root) (Option.some.inj hs)).symm
  · exact (congrArg (fun r => r.2.root) (Option.some.inj hs)).symm
  · obtain ⟨o, ho, hs⟩ := Option.bind_eq_some_iff.mp hs
    cases o with
    | none => exact (congrArg (fun r => r.2.root) (Option.some.inj hs)).symm
    | some b =>
        obtain ⟨c, hc, hs⟩ := Option.bind_eq_some_iff.mp hs
        cases c with
        | missing =>
            obtain ⟨r, -, hs⟩ := Option.bind_eq_some_iff.mp hs
            cases r with
            | found c p => exact (congrArg (fun r => r.2.root) (Option.some.inj hs)).symm
            | inserted h pos => exact (congrArg (fun r => r.2.root) (Option.some.inj hs)).symm
        | layer g => exact (congrArg (fun r => r.2.root) (Option.some.inj hs)).symm
        | value v =>
            exact insertIntoConflictChain_root (fun hk hname => hbit b v (by simpa using h3) h1 ho
              hc hk hname) hs

lemma removeDirectoryEdge_root {c : Cursor} {p : ℕ} {name : Bytes} {ok : Bool}
    (hs : s.removeDirectoryEdge c p name = some (ok, s')) : s'.root = s.root := by
  obtain ⟨q, -, hs⟩ := Option.bind_eq_some_iff.mp hs
  obtain ⟨r, -, hs⟩ := Option.bind_eq_some_iff.mp hs
  cases hm : (s.heap.node r).directoryMeta with
  | none =>
      simp only [hm] at hs
      exact (congrArg (fun r => r.2.root) (Option.some.inj hs)).symm
  | some m =>
      simp only [hm] at hs
      split_ifs at hs
      · exact (congrArg (fun r => r.2.root) (Option.some.inj hs)).symm
      · obtain ⟨b, -, hs⟩ := Option.bind_eq_some_iff.mp hs
        split_ifs at hs
        · exact (congrArg (fun r => r.2.root) (Option.some.inj hs)).symm
        · obtain ⟨h, -, hs⟩ := Option.bind_eq_some_iff.mp hs
          exact (congrArg (fun r => r.2.root) (Option.some.inj hs)).symm

lemma removeFile_root {c : Cursor} {p : ℕ} {v : NamespaceEntry} {name : Bytes} {ok : Bool}
    (hs : s.removeFile c p v name = some (ok, s')) : s'.root = s.root := by
  rw [removeFile] at hs
  split_ifs at hs with hk hfile
  · exact (congrArg (fun r => r.2.root) (Option.some.inj hs)).symm
  · obtain ⟨h, -, hs⟩ := Option.bind_eq_some_iff.mp hs
    exact (congrArg (fun r => r.2.root) (Option.some.inj hs)).symm
  · simp only at hs
    cases hb : s.findBucket v.ref.blockId with
    | none =>
        rw [hb] at hs
        exact (congrArg (fun r => r.2.root) (Option.some.inj hs)).symm
    | some es =>
        simp only [hb] at hs
        split at hs
        · exact (congrArg (fun r => r.2.root) (Option.some.inj hs)).symm
        · split_ifs at hs
          · exact (congrArg (fun r => r.2.root) (Option.some.inj hs)).symm
          · obtain ⟨h, -, hs⟩ := Option.bind_eq_some_iff.mp hs
            exact (congrArg (fun r => r.2.root) (Option.some.inj hs)).symm
          · split at hs
            · exact (congrArg (fun r => r.2.root) (Option.some.inj hs)).symm
            · exact (congrArg (fun r => r.2.root) (Option.some.inj hs)).symm

/-- `remove_path_for_test` does not touch `root_`. -/
lemma removeEntryFromParsed_root {p : ParsedPath} {ok : Bool}
    (hs : s.removeEntryFromParsed p = some (ok, s')) :
    s'.root = s.root := by
  rw [removeEntryFromParsed] at hs
  split_ifs at hs
  · exact (congrArg (fun r => r.2.root) (Option.some.inj hs)).symm
  · obtain ⟨o, -, hs⟩ := Option.bind_eq_some_iff.mp hs
    cases o with
    | none => exact (congrArg (fun r => r.2.root) (Option.some.inj hs)).symm
    | some b =>
        obtain ⟨c, -, hs⟩ := Option.bind_eq_some_iff.mp hs
        cases hp : c.p with
        | none =>
            simp only [hp] at hs
            exact (congrArg (fun r => r.2.root) (Option.some.inj hs)).symm
        | some q =>
            simp only [hp] at hs
            split_ifs at hs
            · exact removeDirectoryEdge_root hs
            · exact (congrArg (fun r => r.2.root) (Option.some.inj hs)).symm
            · obtain ⟨v, -, hs⟩ := Option.bind_eq_some_iff.mp hs
              exact removeFile_root hs

lemma detachEdge_root {b x : ℕ} {g : Ptr} {ok : Bool} (hs : s.detachEdge b x g = some (ok, s')) :
    s'.root = s.root := by
  obtain ⟨c, -, hs⟩ := Option.bind_eq_some_iff.mp hs
  cases hp : c.p with
  | none =>
      simp only [hp] at hs
      exact (congrArg (fun r => r.2.root) (Option.some.inj hs)).symm
  | some p =>
      simp only [hp] at hs
      split_ifs at hs
      · exact (congrArg (fun r => r.2.root) (Option.some.inj hs)).symm
      · obtain ⟨q, -, hs⟩ := Option.bind_eq_some_iff.mp hs
        split_ifs at hs
        · exact (congrArg (fun r => r.2.root) (Option.some.inj hs)).symm
        · obtain ⟨h, -, hs⟩ := Option.bind_eq_some_iff.mp hs
          exact (congrArg (fun r => r.2.root) (Option.some.inj hs)).symm

/-- The two edge updates do not touch `root_`. -/
lemma moveEdge_root {b b' x x' : ℕ} {name' : Bytes} {g : Ptr} {ok : Bool}
    (hs : Represents.moveEdge s b b' x x' name' g = some (ok, s')) : s'.root = s.root := by
  obtain ⟨r, -, hs⟩ := Option.bind_eq_some_iff.mp hs
  split_ifs at hs
  · exact (congrArg (fun r => r.2.root) (Option.some.inj hs)).symm
  · cases hm : (r.2.node g).directoryMeta with
    | none =>
        simp only [hm] at hs
        exact (congrArg (fun r => r.2.root) (Option.some.inj hs)).symm
    | some m =>
        simp only [hm] at hs
        exact (detachEdge_root hs).trans rfl

end LhmNamespace

/-! ## Starting a chain -/

lemma Table.parentOf_setBucket {T : Table} {hash : Bytes → UInt64} (id : ℕ)
    (es : Option (List NamespaceEntry))
    (cs : List Bytes) : (T.setBucket id es).parentOf hash cs = T.parentOf hash cs := by
  have hlocate : ∀ ys a, (T.setBucket id es).locate a ys = T.locate a ys :=
    locate_congr fun _ _ _ => Iff.rfl
  rw [parentOf, parentOf]
  cases cs.getLast? with
  | none => rfl
  | some c =>
      simp only [hlocate]
      rfl

/-- Where the call has created a file, another one does not start a chain unless the first one
did. -/
lemma Table.startsChain_create {T : Table} {hash : Bytes → UInt64} {cs : List Bytes}
    {ref : InodeRef}
    (hok : (T.create hash cs ref .file).1 = true)
    (h : (T.create hash cs ref .file).2.StartsChain hash cs) :
    T.StartsChain hash cs := by
  obtain ⟨⟨f, c⟩, hpar⟩ : ∃ fc, T.parentOf hash cs = some fc := by
    refine Option.ne_none_iff_exists'.mp fun h0 => ?_
    rw [create, h0] at hok
    cases hok
  rw [create, hpar] at hok h
  simp only at hok h
  split_ifs at hok h with hfit
  cases hcell : T.cell f (hash c).toNat with
  | none =>
      simp only [hcell] at h
      obtain ⟨f', c', v, h1, h2, -, h4⟩ := h
      rw [parentOf_setValue (by simp [hcell]), hpar] at h1
      obtain ⟨rfl, rfl⟩ := Prod.mk.inj (Option.some.inj h1)
      rw [setCell_same] at h2
      obtain rfl := Content.value.inj (Option.some.inj h2)
      exact absurd rfl h4
  | some d =>
      cases d with
      | directory g => simp [hcell] at hok
      | value v =>
          simp only [hcell] at hok h
          rw [insertChain] at hok h
          split_ifs at hok h with hk hname
          · -- another file of a chain
            cases hb : T.bucket v.ref.blockId with
            | none => simp [hb] at hok
            | some es =>
                simp only [hb] at hok h
                split_ifs at hok h
                obtain ⟨f', c', w, h1, h2, h3, h4⟩ := h
                rw [parentOf_setBucket] at h1
                exact ⟨f', c', w, h1, h2, h3, h4⟩
          · refine ⟨f, c, v, hpar, hcell, hk, fun h0 => hname ?_⟩
            simp [entryNameEquals, makeNamespaceEntry, h0]

namespace Represents

variable {s s' : LhmNamespace} {G : Ghost} {T : Table} {hash : Bytes → UInt64} {cs : List Bytes}

/-- The root bit tells whether the root layer still has its first root. -/
lemma isRoot_iff (hR : Represents s G T) (hroot : s.root = T.root) :
    (s.heap.node s.root).isRoot = true ↔ G.top T.root = T.root := by
  have hT := hR.heap.tree
  have hknown := hR.known hR.root_lt
  have hfam : G.fam s.root = s.root := hR.root_fam.trans hroot.symm
  have hstart := hR.handle_root.start
  have hbit := hT.root_bit hknown id hstart
  rw [← hroot]
  constructor
  · intro h0
    have h1 := hT.top_eq hknown id (hbit.1 h0)
    rw [hfam] at h1
    exact h1.symm
  · intro h0
    have h1 := (hT.top_spec hknown).2.2.2.1
    rw [hfam, h0] at h1
    exact hbit.2 h1 id

/-- A chain that the table starts at the path is started by the call. -/
lemma startsChain (hR : Represents s G T) {path : Bytes} (hp : componentsOf path = some cs)
    (h : T.StartsChain hash cs) (hfit : entryNameFits (ParsedPath.of hash cs).name = true) :
    s.StartsChain hash path := by
  obtain ⟨f, c, v, h1, h2, h3, h4⟩ := h
  rcases hR.parent_eq hash (componentsOf_names hp) with ⟨rfl, h0⟩ | ⟨ds, d, rfl, hne, hpar⟩
  · simp at h1
  rcases hpar with ⟨-, h5⟩ | ⟨b, f', h5, h6, h7, -⟩
  · rw [h5] at h1
    cases h1
  rw [h6] at h1
  obtain ⟨rfl, rfl⟩ := Prod.mk.inj (Option.some.inj h1)
  refine ⟨_, b, v, by rw [parse_eq, hp]; rfl, hne, hfit, h5, ?_, h3, ?_⟩
  · rw [ParsedPath.of_hash, hR.lookupChildSlot_eq h7 (hash_lt hash d), h2]
  · rw [ParsedPath.of_name]
    simpa [entryNameEquals] using h4

/-- What is left of a state whose calls have kept the pointers. -/
def PointersIn (T : Table) (s : LhmNamespace) : Prop :=
  ∃ G' T', Represents s G' T' ∧ T'.FileKinds ∧ T.Keeps T' ∧ s.root = T'.root

/-- And chains at the path `cs` are started only while `root_` is the current root. -/
def RootedAt (hash : Bytes → UInt64) (cs : List Bytes) (T : Table) (s : LhmNamespace) : Prop :=
  ∃ G' T', Represents s G' T' ∧ T'.FileKinds ∧ T.Keeps T' ∧ s.root = T'.root ∧
    (T'.StartsChain hash cs → entryNameFits (ParsedPath.of hash cs).name = true →
      (s.heap.node s.root).isRoot = true)

/-- **`creat_file`**, whatever it returns. -/
lemma RootedAt.create {path : Bytes} (hp : componentsOf path = some cs) (h : RootedAt hash cs T s)
    {ref : InodeRef} {ok : Bool}
    (hs : s.createFileFromParsed (ParsedPath.of hash cs) ref .file = some (ok, s')) :
    PointersIn T s' ∧ (ok = true → RootedAt hash cs T s') := by
  obtain ⟨G', T', hR, hT, hK, hroot, hbit⟩ := h
  have hcs := componentsOf_names hp
  obtain ⟨t, G'', h1, hR', -, hvalue⟩ := hR.createFile_spec hash hcs ref .file
  obtain ⟨hok', rfl⟩ := Prod.mk.inj (Option.some.inj (h1.symm.trans hs))
  obtain ⟨hK', hT''⟩ := hT.create hash cs ref
  have hkept : t.root = s.root := by
    refine LhmNamespace.createFileFromParsed_root (fun b v h2 h3 h4 h5 h6 h7 => hbit ?_ h2) hs
    rcases hR.parent_eq hash hcs with ⟨rfl, -⟩ | ⟨ds, d, rfl, -, hpar⟩
    · simp [joinPath] at h3
    rcases hpar with ⟨h8, -⟩ | ⟨b', f, h8, h9, h10, -⟩
    · rw [h8] at h4
      cases h4
    rw [h8] at h4
    obtain rfl := Option.some.inj (Option.some.inj h4)
    rw [ParsedPath.of_hash, hR.lookupChildSlot_eq h10 (hash_lt hash d)] at h5
    refine ⟨f, d, v, h9, ?_, h6, ?_⟩
    · split at h5 <;> simp_all
    · rw [ParsedPath.of_name] at h7
      simpa [entryNameEquals] using h7
  have hroot' : t.root = (T'.create hash cs ref .file).2.root :=
    hkept.trans (hroot.trans hK'.root.symm)
  refine ⟨⟨G'', _, hR', hT'', hK.trans hK', hroot'⟩, fun hok => ⟨G'', _, hR', hT'', hK.trans hK',
    hroot',
    fun hstart hfit => ?_⟩⟩
  -- only a call that has started a chain leaves a slot where another one can be started
  have hstart₀ := Table.startsChain_create (hok'.trans hok) hstart
  have hold := (hR.isRoot_iff hroot).mp (hbit hstart₀ hfit)
  obtain ⟨f, c, v, h2, h3, -, -⟩ := hstart₀
  obtain ⟨rfl, -⟩ := hvalue f c v h2 h3 (hok'.trans hok)
  rw [hR'.isRoot_iff hroot', hK'.root]
  exact hold

/-- **`remove_path_for_test`**, whatever it returns. -/
lemma PointersIn.remove (hcs : ∀ c ∈ cs, IsName c) (h : PointersIn T s) {ok : Bool}
    (hs : s.removeEntryFromParsed (ParsedPath.of hash cs) = some (ok, s')) : PointersIn T s' := by
  obtain ⟨G', T', hR, hT, hK, hroot⟩ := h
  obtain ⟨t, G'', h1, hR', -⟩ := hR.removeEntry_spec hash hcs
  obtain ⟨-, rfl⟩ := Prod.mk.inj (Option.some.inj (h1.symm.trans hs))
  obtain ⟨hK', hT'⟩ := hT.remove hash cs
  exact ⟨G'', _, hR', hT', hK.trans hK',
    (LhmNamespace.removeEntryFromParsed_root hs).trans (hroot.trans hK'.root.symm)⟩

end Represents

/-! ## Runs -/

/-- `mkdir` on the table. -/
lemma Table.FileKinds.mkdir {T : Table} (hT : T.FileKinds) (hash : Bytes → UInt64) (cs : List Bytes)
    (ref : InodeRef) (g : Ptr) :
    (T.mkdir hash cs ref g).2.FileKinds ∧ (T.mkdir hash cs ref g).2.root = T.root := by
  rw [Table.mkdir]
  cases T.parentOf hash cs with
  | none => exact ⟨hT, rfl⟩
  | some fc =>
      obtain ⟨f, c⟩ := fc
      simp only
      split_ifs
      · exact ⟨FileKinds.setCell (T := T.addLayer g _) ⟨hT.value, hT.bucket⟩ (by simp), rfl⟩
      · exact ⟨hT, rfl⟩

namespace LhmNamespace

variable {s s' : LhmNamespace} {hash : Bytes → UInt64}

lemma HoldsPointers.of_pointersIn {T : Table} (h : Represents.PointersIn T s) :
    s.HoldsPointers := by
  obtain ⟨G', T', hR, hT, -, hroot⟩ := h
  exact ⟨G', T', hR, hT, hroot⟩

lemma HoldsPointers.mkdir (h : s.HoldsPointers) {path : Bytes} {ref : InodeRef} {ok : Bool}
    (hs : s.mkdir hash path ref = some (ok, s')) : s'.HoldsPointers := by
  obtain ⟨G, T, hR, hT, hroot⟩ := h
  obtain ⟨p, hp, h1⟩ := Option.bind_eq_some_iff.mp hs
  obtain ⟨cs, hcs⟩ := exists_components hp
  obtain rfl : ParsedPath.of hash cs = p := by
    rw [parse_eq, hcs] at hp
    exact Option.some.inj hp
  obtain ⟨t, G', g, h2, -, hR', -⟩ := hR.createDirectory_spec hash (componentsOf_names hcs) ref
  obtain ⟨-, rfl⟩ := Prod.mk.inj (Option.some.inj (h2.symm.trans h1))
  obtain ⟨hT', hroot'⟩ := hT.mkdir hash cs ref g
  exact ⟨G', _, hR', hT', (createDirectoryFromParsed_root h1).trans (hroot.trans hroot'.symm)⟩

lemma HoldsPointers.renamePath (h : s.HoldsPointers) {oldPath newPath : Bytes} {fuel : ℕ}
    {ok : Bool}
    (hkeeps : s.KeepsPointers hash (.rename oldPath newPath fuel))
    (hs : s.renamePath hash fuel oldPath newPath = some (ok, s')) : s'.HoldsPointers := by
  obtain ⟨p, hp, h1⟩ := Option.bind_eq_some_iff.mp hs
  obtain ⟨q, hq, -⟩ := Option.bind_eq_some_iff.mp h1
  obtain ⟨old, ho⟩ := exists_components hp
  obtain ⟨new, hn⟩ := exists_components hq
  have hold := componentsOf_names ho
  have hnew := componentsOf_names hn
  have hpo : parseAbsolutePath hash oldPath = some (ParsedPath.of hash old) := by
    rw [parse_eq, ho]; rfl
  have hpn : parseAbsolutePath hash newPath = some (ParsedPath.of hash new) := by
    rw [parse_eq, hn]; rfl
  obtain ⟨G, T, hR, hT, hroot⟩ := h
  rcases hR.renamePath_cases ho hn hs with ⟨rfl, -⟩ | ⟨-, -, -, -, e, hfind, hs'⟩
  · exact ⟨G, T, hR, hT, hroot⟩
  split_ifs at hs' with hk
  · rcases hR.renameDirectory_edges hold hnew (fun b b' r hA => hkeeps.2 _ _ b b' r hpo hpn hA)
      hs' with
      rfl | ⟨b, b', f, f', g, m, c', hM, -, htop, hmove⟩
    · exact ⟨G, T, hR, hT, hroot⟩
    obtain ⟨G', T', hR', hT', hroot'⟩ := hR.moveEdge_represents hM htop hT hmove
    exact ⟨G', T', hR', hT', (moveEdge_root hmove).trans (hroot.trans hroot'.symm)⟩
  · have hlookup : s.lookupEntry hash oldPath = some (some e) := by
      rw [hR.lookupEntry_eq hpo hold, hfind]
    have hI : Represents.RootedAt hash new T s := ⟨G, T, hR, hT, .refl T, hroot, fun hstart hfit =>
      hkeeps.1 e hlookup hk (hR.startsChain hn hstart hfit)⟩
    have hfile : EntryKind.file ≠ .directory := by decide
    refine .of_pointersIn (T := T) (hR.renameFile_induct hT hnew hfind hk hI ?_ ?_ ?_ hs')
    · rintro t ⟨G₁, T₁, h2, h3, h4, h5, -⟩
      exact ⟨G₁, T₁, h2, h3, h4, h5⟩
    · intro t b t' ref ht hcall
      rw [createEntry, parseAbsolutePath_joinPath hnew] at hcall
      simp only [Option.bind_eq_bind, Option.bind_some] at hcall
      rw [createEntryFromParsed, if_neg hfile] at hcall
      exact ht.create hn hcall
    · intro t b t' ht hcall
      rw [removeEntry, parseAbsolutePath_joinPath hold] at hcall
      exact ht.remove hold hcall

/-- **Every call keeps the pointers.** -/
lemma HoldsPointers.perform (h : s.HoldsPointers) {call : PathCall}
    (hkeeps : s.KeepsPointers hash call)
    (hs : call.perform hash s = some s') : s'.HoldsPointers := by
  cases call with
  | rename oldPath newPath fuel =>
      obtain ⟨⟨ok, r⟩, h1, rfl⟩ := Option.map_eq_some_iff.mp hs
      exact h.renamePath hkeeps h1
  | basic call =>
      obtain ⟨⟨x, r⟩, h1, rfl⟩ := Option.map_eq_some_iff.mp hs
      obtain ⟨cs, hcs⟩ := call.exists_components h1
      have hparse : parseAbsolutePath hash call.path = some (ParsedPath.of hash cs) := by
        rw [parse_eq, hcs]; rfl
      cases call with
      | mkdir path ref =>
          obtain ⟨⟨ok, t⟩, h2, h3⟩ := Option.map_eq_some_iff.mp h1
          obtain rfl : t = r := congrArg Prod.snd h3
          exact h.mkdir h2
      | creatFile path ref =>
          obtain ⟨⟨ok, t⟩, h2, h3⟩ := Option.map_eq_some_iff.mp h1
          obtain rfl : t = r := congrArg Prod.snd h3
          obtain ⟨G, T, hR, hT, hroot⟩ := h
          have hfile : EntryKind.file ≠ .directory := by decide
          have hI : Represents.RootedAt hash cs T s :=
            ⟨G, T, hR, hT, .refl T, hroot, fun hstart hfit =>
            hkeeps (hR.startsChain hcs hstart hfit)⟩
          change s.createEntry hash path .file ref = _ at h2
          rw [createEntry, show parseAbsolutePath hash path = _ from hparse] at h2
          simp only [Option.bind_eq_bind, Option.bind_some] at h2
          rw [createEntryFromParsed, if_neg hfile] at h2
          exact .of_pointersIn (hI.create hcs h2).1
      | removePath path =>
          obtain ⟨⟨ok, t⟩, h2, h3⟩ := Option.map_eq_some_iff.mp h1
          obtain rfl : t = r := congrArg Prod.snd h3
          obtain ⟨G, T, hR, hT, hroot⟩ := h
          rw [removeEntry, show parseAbsolutePath hash path = _ from hparse] at h2
          exact .of_pointersIn (Represents.PointersIn.remove (T := T) (componentsOf_names hcs)
            ⟨G, T, hR, hT, .refl T, hroot⟩ h2)
      | lookupEntry path =>
          obtain ⟨e, -, h2⟩ := Option.map_eq_some_iff.mp h1
          obtain rfl : s = r := congrArg Prod.snd h2
          exact h

end LhmNamespace

/-- **No pointer leads to retired memory**: in every run of the calls, whatever they return, in
which chains are started while `root_` is the current root, and every rename that gets to the edge
updates finds the current root of the directory in its old slot, `root_` and all layer slots lead to
the current roots of their layers over nodes that have not been given to `deallocate_rcu`. -/
theorem pointers_lead_to_roots (hash : Bytes → UInt64) (calls : List PathCall)
    (hkeeps : PathCall.EachStep (fun s call => s.KeepsPointers hash call) hash initialState calls)
    {s : LhmNamespace} (hs : PathCall.performAll hash initialState calls = some s) :
    s.PointersLead := by
  have hinit : initialState.HoldsPointers := ⟨_, _, initialState_represents,
    ⟨fun h => by simp [Table.initial] at h, fun h => by simp [Table.initial] at h⟩, rfl⟩
  exact (hkeeps.invariant (I := LhmNamespace.HoldsPointers) (fun _ _ _ _ h hk h0 => h.perform hk h0)
    hinit
    hs).pointersLead

/-! ## A run -/

/-- A check of every call in the state it starts from. -/
def PathCall.checkEach (check : LhmNamespace → PathCall → Bool) (hash : Bytes → UInt64) :
    LhmNamespace → List PathCall → Bool
  | _, [] => true
  | s, call :: calls =>
      check s call && ((call.perform hash s).map fun t => checkEach check hash t calls).getD true

lemma PathCall.EachStep.of_check {Q : LhmNamespace → PathCall → Prop}
    {check : LhmNamespace → PathCall → Bool}
    {hash : Bytes → UInt64} (hcheck : ∀ s call, check s call = true → Q s call) :
    ∀ {calls : List PathCall}
    {s : LhmNamespace}, PathCall.checkEach check hash s calls = true →
    PathCall.EachStep Q hash s calls
  | [], _, _ => trivial
  | call :: calls, s, h => by
      rw [PathCall.checkEach, Bool.and_eq_true] at h
      refine ⟨hcheck s call h.1, fun t ht => ?_⟩
      have h2 := h.2
      rw [ht] at h2
      exact of_check hcheck h2

/-- `root_` is the current root, and so is the pointer in the slot of a directory that is
renamed. -/
def LhmNamespace.pointersCurrent (hash : Bytes → UInt64) (s : LhmNamespace) : PathCall → Bool
  | .basic _ => (s.heap.node s.root).isRoot
  | .rename oldPath _ _ =>
      (s.heap.node s.root).isRoot && ((parseAbsolutePath hash oldPath).map fun old =>
      ((s.locateDirectoryRoot old.parent).join.map fun b =>
        ((lookupDirectoryEdgeFromParentRoot s.heap b old.name old.hash).join.map fun r =>
          decide (edgePointer s.heap b old.hash = some r)).getD true).getD true).getD true

lemma LhmNamespace.keepsPointers_of_current {hash : Bytes → UInt64} (s : LhmNamespace)
    (call : PathCall)
    (h : s.pointersCurrent hash call = true) : s.KeepsPointers hash call := by
  cases call with
  | basic call =>
      cases call with
      | creatFile path ref => exact fun _ => h
      | mkdir path ref => trivial
      | removePath path => trivial
      | lookupEntry path => trivial
  | rename oldPath newPath fuel =>
      rw [pointersCurrent, Bool.and_eq_true] at h
      refine ⟨fun _ _ _ _ => h.1, fun old new b b' r hold _ hA => ?_⟩
      have h2 := h.2
      simp only [hold, hA.oldParent, hA.edge, Option.map_some, Option.join_some, Option.getD_some]
        at h2
      exact of_decide_eq_true h2

/-- Two files whose names have one hash, and a directory that is renamed. -/
def chainAndMove : List PathCall :=
  [.basic (.creatFile (joinPath [collidingName]) ⟨1, 1⟩),
    .basic (.creatFile (joinPath [collidingName']) ⟨1, 2⟩), .basic (.mkdir [47, 100] ⟨1, 3⟩),
    .basic (.creatFile [47, 100, 47, 120] ⟨1, 4⟩), .rename [47, 100] [47, 101] 0,
    .basic (.removePath [47, 101, 47, 120])]

/-- The chain of the two files is started in `/`, and the move meets the current root of its
directory. -/
theorem pointers_lead_to_roots_chainAndMove : ∃ s,
    PathCall.performAll hashComponent initialState chainAndMove = some s ∧ s.PointersLead := by
  have hrun : (PathCall.performAll hashComponent initialState chainAndMove).isSome = true := by
    decide +kernel
  have hcheck : PathCall.checkEach (LhmNamespace.pointersCurrent hashComponent) hashComponent
    initialState
      chainAndMove = true := by decide +kernel
  obtain ⟨s, hs⟩ := Option.isSome_iff_exists.mp hrun
  exact ⟨s, hs, pointers_lead_to_roots hashComponent chainAndMove
    (.of_check LhmNamespace.keepsPointers_of_current hcheck) hs⟩

/-- A directory whose root has split is renamed, which returns false but leaves a new slot with its
root at that time; its layer then grows another level, and shrinks until that node is given back. -/
def collapsedRoot : List PathCall :=
  .basic (.mkdir [47, 100] ⟨1, 1⟩) ::
    ([44, 88, 68, 34, 121, 117, 108, 118].map fun c => .basic
      (.creatFile [47, 100, 47, c] ⟨1, 2⟩)) ++
  .rename [47, 100] [47, 101] 0 ::
    ([43, 58, 63, 96, 99, 124, 94, 42, 35, 112, 78, 115, 70, 33, 39, 126, 54, 92, 116, 38, 81, 80,
      102, 41, 85, 67, 75, 76, 100].map fun c => .basic (.creatFile [47, 101, 47, c] ⟨1, 2⟩)) ++
  ([39, 38, 33, 35, 34, 44, 41, 43, 42, 54, 63, 58, 100, 102, 96, 99, 108, 117, 116].map fun c =>
    .basic (.removePath [47, 101, 47, c]))

/-- The new slot keeps the root of the time of the move, which `collapse` has retired meanwhile. -/
theorem not_pointers_lead_collapsedRoot : ¬ ∀ (calls : List PathCall) (s : LhmNamespace),
    PathCall.performAll hashComponent initialState calls = some s → s.PointersLead := by
  intro hall
  have hrun : ((PathCall.performAll hashComponent initialState collapsedRoot).map fun s =>
      decide (s.root = 0 ∧ 0 < s.heap.size ∧ (s.heap.node 0).isLeaf = true ∧
        (s.heap.leaf 0).prev = none ∧
        reachLeaf s.heap 0 0 = some 0 ∧ 0 < (s.heap.leaf 0).size ∧
        ∃ q ∈ s.heap.retired, (s.heap.slotAt 0 0).body.layerPointer = some q)) = some
        true := by decide +kernel
  obtain ⟨s, hs, hstate⟩ := Option.map_eq_some_iff.mp hrun
  obtain ⟨-, h2, h3, h4, h5, h6, q, hq, hslot⟩ := of_decide_eq_true hstate
  have hstart : (s.heap.node 0).startable := by
    cases hn : s.heap.node 0 with
    | internode m => trivial
    | leaf l => simpa [Heap.leaf, hn, Node.toLeaf] using h4
  obtain ⟨r, hr⟩ := (hall _ s hs).slot 0 0 q ⟨0, h2, hstart, .reach h5⟩ h6 hslot
  exact hr.kept q .refl hq

end MasstreeLHM
