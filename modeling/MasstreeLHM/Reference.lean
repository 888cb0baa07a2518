import MasstreeLHM.Runs

/-!
# The reference name tree

What a namespace is: a tree of named nodes, each a file or a directory with its inode reference.
The tree is given by its paths, the root being implicit.  A run of the namespace returns what the
reference returns, call by call.

`NameTree.perform` has the conditions under which a call succeeds, in terms of paths only
(`CanCreate`, `CanRemove`), and what it changes.  `Simulates` relates a name tree to a table: the
paths of names in use lead to the same entries, and the tree has no other nodes.

There is a lemma for each call: `Simulates.mkdir`, `Simulates.create`, `Simulates.remove`.  Each
compares the conditions of both sides, by `canCreate_iff` or `children_iff`, and then changes the
tree and the table at one path (`Simulates.update`).  **`Simulates.performAll_eq`** is the run.  The
hash has to be injective on all the names, those of looked-up paths included:
`not_refines_nameTree_otherPath` is a run that shows why.
-/

namespace MasstreeLHM

/-- A node of the name tree. -/
inductive TreeNode where
  | file (ref : InodeRef)
  | directory (ref : InodeRef)
deriving Repr, DecidableEq

/-- A name tree: the nodes by path. -/
structure NameTree where
  node : List Bytes → Option TreeNode

namespace NameTree

/-- The tree with the root only. -/
def empty : NameTree := ⟨fun _ => none⟩

/-- The entry a node presents under its name. -/
def entryOf (name : Bytes) : TreeNode → NamespaceEntry
  | .file ref => ⟨.file, ref, name⟩
  | .directory ref => ⟨.directory, ref, name⟩

/-- Look up a path. -/
def lookup (t : NameTree) (cs : List Bytes) : Option NamespaceEntry :=
  if cs = [] then some ⟨.directory, ⟨0, 0⟩, [slash]⟩
  else (t.node cs).map (entryOf (cs.getLastD []))

/-- A path that leads to a directory. -/
def IsDirectory (t : NameTree) (cs : List Bytes) : Prop :=
  cs = [] ∨ ∃ ref, t.node cs = some (.directory ref)

/-- A path at which a node can be created: not `/`, a name of at most 63 bytes, an existing
directory as parent, and nothing there yet. -/
def CanCreate (t : NameTree) (cs : List Bytes) : Prop :=
  cs ≠ [] ∧ (cs.getLastD []).length ≤ 63 ∧ t.IsDirectory cs.dropLast ∧ t.node cs = none

/-- A path whose node can be removed: not `/`, and a file or a directory without children. -/
def CanRemove (t : NameTree) (cs : List Bytes) : Prop :=
  cs ≠ [] ∧ ((∃ ref, t.node cs = some (.file ref)) ∨
    ((∃ ref, t.node cs = some (.directory ref)) ∧ ∀ name, t.node (cs ++ [name]) = none))

/-- Put a node at a path, or remove it. -/
def set (t : NameTree) (cs : List Bytes) (n : Option TreeNode) : NameTree :=
  ⟨fun ds => if ds = cs then n else t.node ds⟩

open Classical in
/-- A call on the name tree, at the components of its path. -/
noncomputable def performAt (t : NameTree) (cs : List Bytes) : BasicCall → Answer × NameTree
  | .mkdir _ ref =>
      if t.CanCreate cs then (.done true, t.set cs (some (.directory ref))) else (.done false, t)
  | .creatFile _ ref =>
      if t.CanCreate cs then (.done true, t.set cs (some (.file ref))) else (.done false, t)
  | .removePath _ =>
      if t.CanRemove cs then (.done true, t.set cs none) else (.done false, t)
  | .lookupEntry _ => (.entry (t.lookup cs), t)

/-- A call on the name tree. -/
noncomputable def perform (t : NameTree) (call : BasicCall) : Answer × NameTree :=
  t.performAt ((componentsOf call.path).getD []) call

/-- What a sequence of calls returns. -/
noncomputable def performAll : NameTree → List BasicCall → List Answer
  | _, [] => []
  | t, call :: calls => (t.perform call).1 :: performAll (t.perform call).2 calls

/-! ## The simulation -/

/-- **The table `T` stands for the name tree `t`**: the paths of names in use lead to the same
entries, and the tree has no other nodes. -/
structure Simulates (hash : Bytes → UInt64) (N : Bytes → Prop) (T : Table) (t : NameTree) :
    Prop where
  plain : T.Plain hash N
  find : ∀ cs, InUse N cs → T.find hash cs = t.lookup cs
  inUse : ∀ cs, t.node cs ≠ none → InUse N cs
  root : t.node [] = none

variable {hash : Bytes → UInt64} {N : Bytes → Prop} {T : Table} {t : NameTree} {cs : List Bytes}
  {c : Bytes}

lemma lookup_concat (t : NameTree) (cs : List Bytes) (c : Bytes) :
    t.lookup (cs ++ [c]) = (t.node (cs ++ [c])).map (entryOf c) := by
  simp [lookup]

lemma lookup_set (t : NameTree) (cs ds : List Bytes) (n : Option TreeNode) (hcs : cs ≠ []) :
    (t.set cs n).lookup ds
      = if ds = cs then n.map (entryOf (cs.getLastD [])) else t.lookup ds := by
  rw [lookup, lookup, set]
  by_cases h : ds = cs
  · subst h
    simp [hcs]
  · simp [h]

namespace Simulates

variable (hS : Simulates hash N T t) (hinj : HashInj hash N)
include hS hinj

/-- A directory of the tree is a layer of the table. -/
lemma isDirectory_iff (hcs : InUse N cs) :
    t.IsDirectory cs ↔ ∃ f, T.locate T.root (hashesOf hash cs) = some f := by
  rw [hS.plain.locate_iff hinj hcs, hS.find cs hcs]
  rcases List.eq_nil_or_concat cs with rfl | ⟨ds, c, rfl⟩
  · exact iff_of_true (Or.inl rfl) ⟨_, rfl, rfl⟩
  · rw [List.concat_eq_append, lookup_concat, IsDirectory]
    constructor
    · rintro (h | ⟨ref, h⟩)
      · simp at h
      · exact ⟨entryOf c (.directory ref), by rw [h]; rfl, rfl⟩
    · rintro ⟨e, h, hk⟩
      obtain ⟨n, h1, rfl⟩ := Option.map_eq_some_iff.mp h
      cases n with
      | file ref => cases hk
      | directory ref => exact Or.inr ⟨ref, h1⟩

/-- A node of the tree is a filled cell of the table. -/
lemma node_none_iff (hcs : InUse N (cs ++ [c])) {f : Ptr}
    (hloc : T.locate T.root (hashesOf hash cs) = some f) :
    t.node (cs ++ [c]) = none ↔ T.cell f (hash c).toNat = none := by
  have hfind := hS.find _ hcs
  rw [Table.find_concat, hloc, Option.bind_some, lookup_concat] at hfind
  rw [← hS.plain.lookup_none_iff hinj (InUse.concat.mp hcs).2, hfind]
  simp

/-- A value cell is a file. -/
lemma node_file_iff (hcs : InUse N (cs ++ [c])) {f : Ptr}
    (hloc : T.locate T.root (hashesOf hash cs) = some f) :
    (∃ ref, t.node (cs ++ [c]) = some (.file ref)) ↔
      ∃ v, T.cell f (hash c).toNat = some (.value v) := by
  have hc := (InUse.concat.mp hcs).2
  have hfind := hS.find _ hcs
  rw [Table.find_concat, hloc, Option.bind_some, lookup_concat] at hfind
  constructor
  · rintro ⟨ref, h⟩
    rw [h] at hfind
    cases hcell : T.cell f (hash c).toNat with
    | none =>
        rw [(hS.plain.lookup_none_iff hinj hc).mpr hcell] at hfind
        cases hfind
    | some d =>
        cases d with
        | value v => exact ⟨v, rfl⟩
        | directory g =>
            obtain ⟨m, -, -, -, h4⟩ := hS.plain.lookup_directory hinj hc hcell
            rw [h4] at hfind
            simp [entryOf] at hfind
  · rintro ⟨v, hv⟩
    obtain ⟨h1, -, h3⟩ := hS.plain.lookup_value hinj hc hv
    rw [h3] at hfind
    obtain ⟨n, h4, rfl⟩ := Option.map_eq_some_iff.mp hfind.symm
    cases n with
    | file ref => exact ⟨ref, h4⟩
    | directory ref => simp [entryOf] at h1

/-- A directory cell is a directory. -/
lemma node_directory_iff (hcs : InUse N (cs ++ [c])) {f : Ptr}
    (hloc : T.locate T.root (hashesOf hash cs) = some f) :
    (∃ ref, t.node (cs ++ [c]) = some (.directory ref)) ↔
      ∃ g, T.cell f (hash c).toNat = some (.directory g) := by
  have h1 := hS.node_none_iff hinj hcs hloc
  have h2 := hS.node_file_iff hinj hcs hloc
  cases hn : t.node (cs ++ [c]) with
  | none =>
      rw [h1.mp hn]
      simp
  | some n =>
      cases hcell : T.cell f (hash c).toNat with
      | none =>
          rw [h1.mpr hcell] at hn
          cases hn
      | some d => cases n <;> cases d <;> simp_all

/-- The children of a directory are the filled cells of its layer. -/
lemma children_iff (hcs : InUse N cs) {g : Ptr}
    (hloc : T.locate T.root (hashesOf hash cs) = some g) :
    (∀ name, t.node (cs ++ [name]) = none) ↔ ∀ y, T.cell g y = none := by
  constructor
  · intro h y
    cases hy : T.cell g y with
    | none => rfl
    | some d =>
        obtain ⟨n, h1, h2⟩ : ∃ n, (hash n).toNat = y ∧ N n := by
          cases d with
          | directory b =>
              obtain ⟨m, -, -, h3, h4⟩ := hS.plain.directory hy
              exact ⟨m.name, h3, h4⟩
          | value v =>
              obtain ⟨-, h3, h4⟩ := hS.plain.value hy
              exact ⟨v.name, h3, h4⟩
        have := (hS.node_none_iff hinj (InUse.concat.mpr ⟨hcs, h2⟩) hloc).mp (h n)
        rw [h1, hy] at this
        cases this
  · intro h name
    by_contra h0
    have huse := hS.inUse _ h0
    exact h0 ((hS.node_none_iff hinj huse hloc).mpr (h _))

omit hinj in
/-- Changing the tree and the table at one path. -/
lemma update {T' : Table} (hcs : InUse N (cs ++ [c])) (n : Option TreeNode)
    (hplain : T'.Plain hash N)
    (hsame : ∀ es, InUse N es → es ≠ cs ++ [c] → T'.find hash es = T.find hash es)
    (hnew : T'.find hash (cs ++ [c]) = n.map (entryOf c)) :
    Simulates hash N T' (t.set (cs ++ [c]) n) := by
  refine ⟨hplain, ?_, ?_, ?_⟩
  · intro es hes
    rw [lookup_set t _ es n (by simp)]
    split_ifs with h0
    · subst h0
      simpa using hnew
    · rw [hsame es hes h0, hS.find es hes]
  · intro es hes
    by_cases h0 : es = cs ++ [c]
    · exact h0 ▸ hcs
    · exact hS.inUse es (by simpa [set, h0] using hes)
  · simp [set, hS.root]

/-- A path with an existing parent directory, or none. -/
lemma parent_cases (hcs : InUse N cs) : (T.parentOf hash cs = none ∧ (cs = [] ∨
      ¬ t.IsDirectory cs.dropLast)) ∨
    ∃ ds c f, cs = ds ++ [c] ∧ T.parentOf hash cs = some (f, c) ∧
      T.locate T.root (hashesOf hash ds) = some f ∧ T.layers f ∧ t.IsDirectory ds := by
  rcases List.eq_nil_or_concat cs with rfl | ⟨ds, c, rfl⟩
  · exact Or.inl ⟨rfl, Or.inl rfl⟩
  · rw [List.concat_eq_append] at hcs ⊢
    obtain ⟨hds, -⟩ := InUse.concat.mp hcs
    have hiff := hS.isDirectory_iff hinj hds
    rw [Table.parentOf_concat]
    cases hloc : T.locate T.root (hashesOf hash ds) with
    | none =>
        refine Or.inl ⟨rfl, Or.inr ?_⟩
        rw [List.dropLast_concat, hiff, hloc]
        simp
    | some f =>
        exact Or.inr ⟨ds, c, f, rfl, rfl, hloc, hS.plain.closed.locate _ hS.plain.closed.root hloc,
          hiff.mpr ⟨f, hloc⟩⟩

lemma canCreate_iff (hcs : InUse N (cs ++ [c])) {f : Ptr}
    (hloc : T.locate T.root (hashesOf hash cs) = some f) (hdir : t.IsDirectory cs) :
    t.CanCreate (cs ++ [c]) ↔ entryNameFits c = true ∧ T.cell f (hash c).toNat = none := by
  rw [CanCreate, hS.node_none_iff hinj hcs hloc]
  have hfits : entryNameFits c = true ↔ c.length ≤ 63 := decide_eq_true_iff
  rw [hfits]
  simp [hdir]

/-- **`mkdir`** on the table is `mkdir` on the tree. -/
lemma mkdir (hcs : InUse N cs) (ref : InodeRef) {g : Ptr} (hg : ¬ T.layers g) :
    (t.CanCreate cs ∧ (T.mkdir hash cs ref g).1 = true ∧
      Simulates hash N (T.mkdir hash cs ref g).2 (t.set cs (some (.directory ref)))) ∨
    (¬ t.CanCreate cs ∧ (T.mkdir hash cs ref g).1 = false ∧
      Simulates hash N (T.mkdir hash cs ref g).2 t) := by
  rw [Table.mkdir]
  rcases hS.parent_cases hinj hcs with ⟨h1, h2⟩ | ⟨ds, c, f, rfl, h1, hloc, hf, hdir⟩
  · rw [h1]
    refine Or.inr ⟨?_, rfl, hS⟩
    rintro ⟨h3, -, h4, -⟩
    exact h2.elim h3 (fun h5 => h5 h4)
  · rw [h1, hS.canCreate_iff hinj hcs hloc hdir]
    simp only
    split_ifs with h0
    · obtain ⟨hsame, hnew, hplain⟩ := hS.plain.find_newDirectory hinj hcs hloc h0.2 hg ref
      exact Or.inl ⟨h0, rfl, hS.update hcs _ hplain hsame hnew⟩
    · exact Or.inr ⟨h0, rfl, hS⟩

/-- Filling or emptying a cell with a value. -/
lemma setValue (hcs : InUse N (cs ++ [c])) {f : Ptr}
    (hloc : T.locate T.root (hashesOf hash cs) = some f)
    (hold : ∀ g, T.cell f (hash c).toNat ≠ some (.directory g)) (n : Option InodeRef) :
    Simulates hash N (T.setCell f (hash c).toNat (n.map fun ref => .value ⟨.file, ref, c⟩))
      (t.set (cs ++ [c]) (n.map .file)) := by
  have hf := hS.plain.closed.locate _ hS.plain.closed.root hloc
  have hnew : ∀ g, (n.map fun ref => Content.value ⟨.file, ref, c⟩) ≠ some (.directory g) := by
    intro g
    cases n <;> simp
  refine hS.update hcs _ (hS.plain.setCell hf (fun g hg => absurd hg (hnew g)) ?_)
    (fun es hes hne => hS.plain.find_setValue hinj hcs hloc hold hnew hes hne) ?_
  · intro v hv
    cases n with
    | none => cases hv
    | some ref =>
        obtain rfl : _ = v := by simpa using hv
        exact ⟨rfl, rfl, (InUse.concat.mp hcs).2⟩
  · have hroot : (T.setCell f (hash c).toNat
        (n.map fun ref => Content.value ⟨.file, ref, c⟩)).root = T.root := rfl
    rw [Table.find_concat, hroot, hS.plain.tree.locate_setCell_self hloc, Option.bind_some,
      Table.lookup, Table.setCell_same]
    cases n with
    | none => rfl
    | some ref => simp [entryNameEquals, entryOf]

/-- **`creat_file`** on the table is `creat_file` on the tree: without collisions an occupied cell
holds the very name. -/
lemma create (hcs : InUse N cs) (ref : InodeRef) :
    (t.CanCreate cs ∧ (T.create hash cs ref .file).1 = true ∧
      Simulates hash N (T.create hash cs ref .file).2 (t.set cs (some (.file ref)))) ∨
    (¬ t.CanCreate cs ∧ (T.create hash cs ref .file).1 = false ∧
      Simulates hash N (T.create hash cs ref .file).2 t) := by
  rw [Table.create]
  rcases hS.parent_cases hinj hcs with ⟨h1, h2⟩ | ⟨ds, c, f, rfl, h1, hloc, hf, hdir⟩
  · rw [h1]
    refine Or.inr ⟨?_, rfl, hS⟩
    rintro ⟨h3, -, h4, -⟩
    exact h2.elim h3 (fun h5 => h5 h4)
  · rw [h1, hS.canCreate_iff hinj hcs hloc hdir]
    simp only
    split_ifs with h0
    · refine Or.inr ⟨fun h3 => ?_, rfl, hS⟩
      rw [h3.1] at h0
      cases h0
    · cases hcell : T.cell f (hash c).toNat with
      | none =>
          exact Or.inl ⟨⟨by simpa using h0, rfl⟩, rfl,
            hS.setValue hinj hcs hloc (by rw [hcell]; simp) (some ref)⟩
      | some d =>
          cases d with
          | directory g => exact Or.inr ⟨by simp, rfl, hS⟩
          | value v =>
              obtain ⟨h3, h4, -⟩ := hS.plain.lookup_value hinj (InUse.concat.mp hcs).2 hcell
              have hchain : T.insertChain (hash c).toNat v (makeNamespaceEntry .file ref c)
                  = (false, T) := by
                simp [Table.insertChain, h3, entryNameEquals, h4, makeNamespaceEntry]
              simp only [hchain]
              exact Or.inr ⟨by simp, trivial, hS⟩

/-- **`remove_path_for_test`** on the table is the removal of a node of the tree. -/
lemma remove (hcs : InUse N cs) :
    (t.CanRemove cs ∧ (T.remove hash cs).1 = true ∧
      Simulates hash N (T.remove hash cs).2 (t.set cs none)) ∨
    (¬ t.CanRemove cs ∧ (T.remove hash cs).1 = false ∧
      Simulates hash N (T.remove hash cs).2 t) := by
  rw [Table.remove]
  rcases List.eq_nil_or_concat cs with rfl | ⟨ds, c, rfl⟩
  · exact Or.inr ⟨fun h => h.1 rfl, rfl, hS⟩
  rw [List.concat_eq_append] at hcs ⊢
  obtain ⟨hds, hc⟩ := InUse.concat.mp hcs
  rw [Table.parentOf_concat]
  cases hloc : T.locate T.root (hashesOf hash ds) with
  | none =>
      -- without a parent directory there is no node
      refine Or.inr ⟨?_, rfl, hS⟩
      have hnone : t.node (ds ++ [c]) = none := by
        have := hS.find _ hcs
        rw [Table.find_concat, hloc, lookup_concat] at this
        simpa using this.symm
      rintro ⟨-, ⟨ref, h⟩ | ⟨⟨ref, h⟩, -⟩⟩
      · rw [hnone] at h
        cases h
      · rw [hnone] at h
        cases h
  | some f =>
      have hnone := hS.node_none_iff hinj hcs hloc
      have hfile := hS.node_file_iff hinj hcs hloc
      have hdir := hS.node_directory_iff hinj hcs hloc
      simp only [Option.map_some, CanRemove, hfile, hdir]
      cases hcell : T.cell f (hash c).toNat with
      | none => exact Or.inr ⟨by simp, rfl, hS⟩
      | some d =>
          cases d with
          | value v =>
              obtain ⟨h3, h4, -⟩ := hS.plain.lookup_value hinj hc hcell
              have hrem : T.removeValue f (hash c).toNat v c
                  = (true, T.setCell f (hash c).toNat none) := by
                simp [Table.removeValue, h3, entryNameEquals, h4]
              simp only [hrem]
              exact Or.inl ⟨⟨by simp, Or.inl ⟨v, rfl⟩⟩, trivial,
                hS.setValue hinj hcs hloc (by rw [hcell]; simp) none⟩
          | directory g =>
              obtain ⟨m, -, -, h3, -⟩ := hS.plain.lookup_directory hinj hc hcell
              have hgloc : T.locate T.root (hashesOf hash (ds ++ [c])) = some g := by
                rw [hashesOf_concat]
                exact Table.locate_concat_eq hloc hcell
              rw [hS.children_iff hinj hcs hgloc]
              simp only
              split_ifs with h0
              · refine Or.inr ⟨?_, rfl, hS⟩
                obtain ⟨y, hy⟩ := h0.resolve_left (by rw [h3]; simp)
                rintro ⟨-, ⟨v, hv⟩ | ⟨-, hall⟩⟩
                · cases hv
                · exact hy (hall y)
              · have hempty : ∀ y, T.cell g y = none := by
                  intro y
                  by_contra hy
                  exact h0 (Or.inr ⟨y, hy⟩)
                refine Or.inl ⟨⟨by simp, Or.inr ⟨⟨g, rfl⟩, hempty⟩⟩, rfl, ?_⟩
                have hf := hS.plain.closed.locate _ hS.plain.closed.root hloc
                refine hS.update hcs none (hS.plain.setCell hf (by simp) (by simp))
                  (fun es hes hne => hS.plain.find_dropDirectory hinj hcs hloc hcell hempty hes hne)
                  ?_
                have hroot : (T.setCell f (hash c).toNat none).root = T.root := rfl
                rw [Table.find_concat, hroot, hS.plain.tree.locate_setCell_self hloc,
                  Option.bind_some, Table.lookup, Table.setCell_same]
                rfl

/-- **Every call returns what the reference returns**, and the simulation goes on. -/
lemma perform {s : LhmNamespace} {G : Ghost} (hR : Represents s G T) {call : BasicCall}
    (hpath : componentsOf call.path = some cs) (hcs : InUse N cs) :
    ∃ s' G' T', call.perform hash s = some ((t.perform call).1, s') ∧ Represents s' G' T' ∧
      Simulates hash N T' (t.perform call).2 := by
  obtain ⟨s', G', g, h1, hg, h2⟩ := hR.perform hash hpath
  refine ⟨s', G', (T.performAt hash cs g call).2, ?_, h2, ?_⟩ <;>
    rw [NameTree.perform, hpath, Option.getD_some]
  · rw [h1]
    cases call with
    | mkdir path ref =>
        rcases hS.mkdir hinj hcs ref hg with ⟨h3, h4, -⟩ | ⟨h3, h4, -⟩
        · rw [performAt, if_pos h3, Table.performAt, h4]
        · rw [performAt, if_neg h3, Table.performAt, h4]
    | creatFile path ref =>
        rcases hS.create hinj hcs ref with ⟨h3, h4, -⟩ | ⟨h3, h4, -⟩
        · rw [performAt, if_pos h3, Table.performAt, h4]
        · rw [performAt, if_neg h3, Table.performAt, h4]
    | removePath path =>
        rcases hS.remove hinj hcs with ⟨h3, h4, -⟩ | ⟨h3, h4, -⟩
        · rw [performAt, if_pos h3, Table.performAt, h4]
        · rw [performAt, if_neg h3, Table.performAt, h4]
    | lookupEntry path => rw [performAt, Table.performAt, hS.find cs hcs]
  · cases call with
    | mkdir path ref =>
        rcases hS.mkdir hinj hcs ref hg with ⟨h3, -, h5⟩ | ⟨h3, -, h5⟩
        · rwa [performAt, if_pos h3]
        · rwa [performAt, if_neg h3]
    | creatFile path ref =>
        rcases hS.create hinj hcs ref with ⟨h3, -, h5⟩ | ⟨h3, -, h5⟩
        · rwa [performAt, if_pos h3]
        · rwa [performAt, if_neg h3]
    | removePath path =>
        rcases hS.remove hinj hcs with ⟨h3, -, h5⟩ | ⟨h3, -, h5⟩
        · rwa [performAt, if_pos h3]
        · rwa [performAt, if_neg h3]
    | lookupEntry path => exact hS

end Simulates

/-- **The simulation over a whole run.** -/
lemma performAll_eq (hinj : HashInj hash N) : ∀ (calls : List BasicCall) {s : LhmNamespace}
    {G : Ghost} {T : Table} {t : NameTree}, Represents s G T → Simulates hash N T t →
    (∀ call ∈ calls, ∃ cs, componentsOf call.path = some cs ∧ InUse N cs) →
    ∃ s', BasicCall.performAll hash s calls = some (t.performAll calls, s')
  | [], s, _, _, _, _, _, _ => ⟨s, rfl⟩
  | call :: calls, s, G, T, t, hR, hS, huse => by
      obtain ⟨cs, hpath, hcs⟩ := huse call (by simp)
      obtain ⟨s₁, G₁, T₁, h1, hR₁, hS₁⟩ := hS.perform hinj hR hpath hcs
      obtain ⟨s₂, h2⟩ := performAll_eq hinj calls hR₁ hS₁ (fun c hc => huse c (by simp [hc]))
      exact ⟨s₂, by simp [BasicCall.performAll, h1, h2, NameTree.performAll]⟩

lemma initial_simulates (hash : Bytes → UInt64) (N : Bytes → Prop) :
    Simulates hash N Table.initial empty := by
  refine ⟨Table.initial_plain hash N, ?_, fun _ h => absurd rfl h, rfl⟩
  intro cs _
  rcases List.eq_nil_or_concat cs with rfl | ⟨ds, c, rfl⟩
  · rfl
  · rw [List.concat_eq_append, Table.find_concat, lookup_concat]
    cases Table.initial.locate Table.initial.root (hashesOf hash ds) <;> rfl

end NameTree

/-- **The namespace refines the reference name tree.**  Any sequence of `mkdir`, `creat_file`,
`remove_path_for_test` and `lookup_entry` calls on absolute paths returns, and returns what the
reference returns, if the component hash is injective on the names that occur in the calls. -/
theorem performAll_refines_nameTree (hash : Bytes → UInt64) (calls : List BasicCall)
    (haccept : ∀ call ∈ calls, componentsOf call.path ≠ none)
    (hinj : HashInj hash (BasicCall.Occurs calls)) :
    ∃ s', BasicCall.performAll hash LhmNamespace.initialState calls
      = some (NameTree.empty.performAll calls, s') := by
  refine NameTree.performAll_eq hinj calls initialState_represents
    (NameTree.initial_simulates hash _) ?_
  intro call hcall
  obtain ⟨cs, hcs⟩ := Option.ne_none_iff_exists'.mp (haccept call hcall)
  exact ⟨cs, hcs, fun c hc => ⟨call, hcall, cs, hcs, hc⟩⟩

/-- The names that occur in given calls, as a list. -/
lemma BasicCall.Occurs.mem {calls : List BasicCall} {name : Bytes} (h : Occurs calls name) :
    name ∈ calls.flatMap fun call => (componentsOf call.path).getD [] := by
  obtain ⟨call, h1, cs, h2, h3⟩ := h
  exact List.mem_flatMap.mpr ⟨call, h1, by rw [h2]; exact h3⟩

/-- A directory `d` with a file `f` in it, looked up and removed again. -/
def sampleCalls : List BasicCall :=
  [.mkdir [47, 100] ⟨1, 1⟩, .creatFile [47, 100, 47, 102] ⟨1, 2⟩, .lookupEntry [47, 100, 47, 102],
    .removePath [47, 100, 47, 102], .removePath [47, 100]]

/-- The sample names hash injectively, so the reference answers its calls. -/
theorem performAll_sampleCalls :
    ∃ s', BasicCall.performAll hashComponent LhmNamespace.initialState sampleCalls
      = some (NameTree.empty.performAll sampleCalls, s') := by
  refine performAll_refines_nameTree hashComponent sampleCalls (by decide) ?_
  intro a b ha hb
  have hall : ∀ a ∈ sampleCalls.flatMap (fun call => (componentsOf call.path).getD []),
      ∀ b ∈ sampleCalls.flatMap (fun call => (componentsOf call.path).getD []),
        hashComponent a = hashComponent b → a = b := by decide +kernel
  exact hall a ha.mem b hb.mem

/-- A directory and a file in it. -/
def createdBelow : List BasicCall :=
  [.mkdir (joinPath [collidingName]) ⟨1, 1⟩, .creatFile (joinPath [collidingName, [102]]) ⟨1, 2⟩]

/-- The names of the run alone do not decide what a lookup finds: two creations whose names hash
injectively, and then a path whose directory has another name of the same hash.  The namespace
finds the file there, the reference finds nothing. -/
theorem not_refines_nameTree_otherPath :
    (∀ call ∈ createdBelow, componentsOf call.path ≠ none) ∧
      HashInj hashComponent (BasicCall.Occurs createdBelow) ∧
      (BasicCall.performAll hashComponent LhmNamespace.initialState
          (createdBelow ++ [.lookupEntry (joinPath [collidingName', [102]])])).map Prod.fst
        = some [.done true, .done true, .entry (some ⟨.file, ⟨1, 2⟩, [102]⟩)] ∧
      NameTree.empty.performAll
          (createdBelow ++ [.lookupEntry (joinPath [collidingName', [102]])])
        = [.done true, .done true, .entry none] := by
  refine ⟨by decide, ?_, by decide +kernel, ?_⟩
  · intro a b ha hb
    have hall : ∀ a ∈ createdBelow.flatMap (fun call => (componentsOf call.path).getD []),
        ∀ b ∈ createdBelow.flatMap (fun call => (componentsOf call.path).getD []),
          hashComponent a = hashComponent b → a = b := by decide +kernel
    exact hall a ha.mem b hb.mem
  · have h1 : componentsOf (joinPath [collidingName]) = some [collidingName] := by decide +kernel
    have h2 : componentsOf (joinPath [collidingName, [102]]) = some [collidingName, [102]] := by
      decide +kernel
    have h3 : componentsOf (joinPath [collidingName', [102]]) = some [collidingName', [102]] := by
      decide +kernel
    have h4 : NameTree.empty.perform (.mkdir (joinPath [collidingName]) ⟨1, 1⟩)
        = (.done true, NameTree.empty.set [collidingName] (some (.directory ⟨1, 1⟩))) := by
      rw [NameTree.perform, BasicCall.path, h1, Option.getD_some, NameTree.performAt,
        if_pos ⟨by simp, by decide, Or.inl rfl, rfl⟩]
    have h5 : (NameTree.empty.set [collidingName] (some (.directory ⟨1, 1⟩))).CanCreate
        [collidingName, [102]] :=
      ⟨by simp, by decide, Or.inr ⟨⟨1, 1⟩, by simp [NameTree.set]⟩,
        by simp [NameTree.set, NameTree.empty]⟩
    have hne : collidingName' ≠ collidingName := by decide
    rw [createdBelow, List.cons_append, List.cons_append, List.nil_append, NameTree.performAll, h4,
      NameTree.performAll, NameTree.perform, BasicCall.path, h2, Option.getD_some,
      NameTree.performAt, if_pos h5, NameTree.performAll, NameTree.perform, BasicCall.path, h3]
    simp [NameTree.performAll, NameTree.performAt, NameTree.lookup, NameTree.set, NameTree.empty,
      hne]

end MasstreeLHM
