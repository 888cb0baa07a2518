import MasstreeLHM.EdgeUpdates
import MasstreeLHM.Layers.AddedEdge
import MasstreeLHM.Layers.Destroy
import MasstreeLHM.PathRuns
import Mathlib.Data.Fintype.Card

/-!
# The directories form a tree

Every directory has one slot, and none is below itself, in every run in which a rename that gets to
the edge updates finds the current root of the directory in its old slot, and the hashes of the new
path do not lead through the old one.

`Table.Forest` is this on the table: a directory has one cell, and the relation that one directory
hangs in another has no cycle.  `Forest.keeps`, `Forest.addLayer` and `Forest.moveLayer` are the
three kinds of changes, and calls that only touch files are of the first kind (`FileKinds`).

`DirectoriesFormTree` is stated about the state in memory, with slots, roots and walks that start
from `/`.  `slot_unique` and `cell_of_layerSlot` translate between slots and cells.
**`HoldsForest.perform`** carries the forest through every call, whatever it returns, and
`HoldsForest.formTree` goes from the table back to memory.  `grownMove` is a rename that leaves a
directory with two slots.
-/

namespace MasstreeLHM

open LhmNamespace (initialState)
open Relation

/-! ## The table -/

namespace Table

variable {T T' : Table} {hash : Bytes → UInt64} {f f' g : Ptr} {x x' : ℕ} {o : Option Content}

/-- A directory hangs in another one. -/
def Edge (T : Table) (a b : Ptr) : Prop := ∃ x, T.cell a x = some (.directory b)

lemma edge_of_locate : ∀ {ys : List ℕ} {a b : Ptr}, T.locate a ys = some b → ReflTransGen T.Edge a b
  | [], a, b, h => by
      obtain rfl := Option.some.inj h
      exact .refl
  | y :: ys, a, b, h => by
      rw [locate_cons] at h
      split at h
      · next c hc => exact (edge_of_locate h).head ⟨y, hc⟩
      · cases h

/-- A path that is not empty. -/
lemma edge_of_locate_cons {y : ℕ} {ys : List ℕ} {a b : Ptr} (h : T.locate a (y :: ys) = some b) :
    TransGen T.Edge a b := by
  rw [locate_cons] at h
  split at h
  · next c hc => exact .head' ⟨y, hc⟩ (edge_of_locate h)
  · cases h

lemma exists_locate {a b : Ptr} (h : ReflTransGen T.Edge a b) : ∃ ys, T.locate a ys = some b := by
  induction h with
  | refl => exact ⟨[], rfl⟩
  | tail _ hbc ih =>
      obtain ⟨ys, hys⟩ := ih
      obtain ⟨y, hy⟩ := hbc
      exact ⟨ys ++ [y], locate_concat_eq hys hy⟩

/-- **The directories of the table form a tree**: each has one cell, and none is below itself. -/
structure Forest (T : Table) : Prop where
  tree : T.Tree
  kinds : T.FileKinds
  acyclic : AcyclicRel T.Edge

lemma Forest.initial : Table.initial.Forest where
  tree := ⟨fun h => by simp [Table.initial] at h, fun _ _ h => by simp [Table.initial] at h⟩
  kinds := ⟨fun h => by simp [Table.initial] at h, fun h => by simp [Table.initial] at h⟩
  acyclic := by
    intro a ha
    obtain ⟨b, ⟨x, hx⟩, -⟩ := TransGen.head'_iff.mp ha
    simp [Table.initial] at hx

/-- Calls that leave the directories in their cells. -/
lemma Forest.keeps (h : T.Forest) (hK : T.Keeps T') (hT' : T'.FileKinds) : T'.Forest where
  tree := h.tree.keeps hK
  kinds := hT'
  acyclic := by
    refine h.acyclic.mono ?_
    rintro a b ⟨y, hy⟩
    exact ⟨y, hK.cell hy⟩

/-- A new directory. -/
lemma Forest.addLayer (h : T.Forest) (hC : T.Closed) (hf : T.layers f) (hg : ¬ T.layers g)
    (m : DirectoryMeta) :
    ((T.addLayer g m).setCell f x (some (.directory g))).Forest where
  tree := by
    refine (h.tree.addLayer m).setCell fun b hb => ?_
    obtain rfl := Content.directory.inj (Option.some.inj hb)
    exact ⟨fun h0 => hg (h0 ▸ hC.root), fun a y h0 => absurd (hC.target h0) hg⟩
  kinds := FileKinds.setCell (T := T.addLayer g m) ⟨h.kinds.value, h.kinds.bucket⟩ (by simp)
  acyclic := by
    refine h.acyclic.addEdge (a := f) (b := g) ?_ fun h0 => ?_
    · rintro a b ⟨y, hy⟩
      rw [setCell_cell] at hy
      split_ifs at hy with h1
      · exact Or.inr ⟨h1.1, (Content.directory.inj (Option.some.inj hy)).symm⟩
      · exact Or.inl ⟨y, hy⟩
    · -- nothing hangs in the new directory
      rcases ReflTransGen.cases_head h0 with rfl | ⟨b, ⟨y, hy⟩, -⟩
      · exact hg hf
      · exact hg (hC.cell hy)

/-- A directory in another cell, that is not below it. -/
lemma Forest.moveLayer (h : T.Forest) (hcell : T.cell f x = some (.directory g))
    (hout : ∀ zs, T.locate g zs ≠ some f') (m : DirectoryMeta) :
    (T.moveLayer f x f' x' g m).Forest where
  tree := h.tree.moveLayer hcell m
  kinds := h.kinds.moveLayer m
  acyclic := by
    have hsub : ∀ a b, ((T.setCell f x none).setInfo g m).Edge a b → T.Edge a b := by
      rintro a b ⟨y, hy⟩
      have hy : (T.setCell f x none).cell a y = some (.directory b) := hy
      rw [setCell_cell] at hy
      split_ifs at hy
      exact ⟨y, hy⟩
    refine (h.acyclic.mono hsub).addEdge (a := f') (b := g) ?_ fun h0 => ?_
    · rintro a b ⟨y, hy⟩
      rw [Table.moveLayer, setCell_cell] at hy
      split_ifs at hy with h1
      · exact Or.inr ⟨h1.1, (Content.directory.inj (Option.some.inj hy)).symm⟩
      · exact Or.inl ⟨y, hy⟩
    · obtain ⟨zs, hzs⟩ := exists_locate (ReflTransGen.mono hsub _ _ h0)
      exact hout zs hzs

/-- There are no more directories on a path than nodes. -/
lemma Tree.length_lt (hT : T.Tree) {n : ℕ} (hn : ∀ xs f, T.locate T.root xs = some f →
    f < n) {xs : List ℕ}
    (hloc : T.locate T.root xs = some f) : xs.length < n := by
  have hprefix : ∀ i, ∃ a, T.locate T.root (xs.take i) = some a := by
    intro i
    refine Option.ne_none_iff_exists'.mp fun h0 => ?_
    rw [← List.take_append_drop i xs, locate_append, h0] at hloc
    cases hloc
  choose a ha using hprefix
  have hinj : Function.Injective fun i : Fin (xs.length + 1) => (⟨a i, hn _ _ (ha i)⟩ : Fin n) := by
    intro i j hij
    have h1 : a i = a j := congrArg Fin.val hij
    have h2 := hT.path_unique (ha i) (h1 ▸ ha j)
    have h3 := congrArg List.length h2
    rw [List.length_take, List.length_take] at h3
    exact Fin.ext (by omega)
  have hcard := Fintype.card_le_of_injective _ hinj
  rw [Fintype.card_fin, Fintype.card_fin] at hcard
  omega

end Table

/-! ## The state -/

namespace LhmNamespace

/-- Slot `i` of leaf `a` leads to the directory whose current root is `r`. -/
structure LayerSlot (s : LhmNamespace) (a i : ℕ) (r : Ptr) : Prop where
  leaf : s.DirectoryLeaf a
  lt : i < (s.heap.leaf a).size
  target : ∃ q, (s.heap.slotAt a i).body.layerPointer = some q ∧
    canonicalizeDirectoryRoot s.heap q = some r

/-- **The directories form a tree**, and a walk that goes down from `/` ends and meets each of them
once. -/
structure DirectoriesFormTree (s : LhmNamespace) : Prop where
  slot : ∀ xs q, LayerOn s.heap s.root xs q → xs ≠ [] →
    ∃ a i r, canonicalizeDirectoryRoot s.heap q = some r ∧
    s.LayerSlot a i r ∧ ∀ a' i', s.LayerSlot a' i' r → a' = a ∧ i' = i
  root : ∀ a i r, canonicalizeDirectoryRoot s.heap s.root = some r → ¬ s.LayerSlot a i r
  acyclic : ∀ q xs q' r, q < s.heap.size → (s.heap.node q).startable → LayerOn s.heap q xs q' →
    canonicalizeDirectoryRoot s.heap q = some r → canonicalizeDirectoryRoot s.heap q' = some r →
    xs = []
  once : ∀ xs ys q q', LayerOn s.heap s.root xs q → LayerOn s.heap s.root ys q' →
    canonicalizeDirectoryRoot s.heap q = canonicalizeDirectoryRoot s.heap q' → xs = ys
  depth : ∀ xs q, LayerOn s.heap s.root xs q → xs.length < s.heap.size

/-- A rename that gets to the edge updates finds the current root of the directory in its old slot,
and the hashes of the new path do not lead through the old one. -/
def KeepsTree (hash : Bytes → UInt64) (s : LhmNamespace) : PathCall → Prop
  | .basic _ => True
  | .rename oldPath newPath _ => ∀ old new b b' r, parseAbsolutePath hash oldPath = some old →
      parseAbsolutePath hash newPath = some new → s.Attaches old new b b' r →
      edgePointer s.heap b old.hash = some r ∧ ¬ old.hashes <+: new.hashes

/-- The state stands for a table whose directories form a tree. -/
def HoldsForest (s : LhmNamespace) : Prop := ∃ G T, Represents s G T ∧ T.Forest

variable {hash : Bytes → UInt64} {s s' : LhmNamespace}

lemma HoldsForest.renamePath (h : s.HoldsForest) {oldPath newPath : Bytes} {fuel : ℕ} {ok : Bool}
    (hkeeps : s.KeepsTree hash (.rename oldPath newPath fuel))
    (hs : s.renamePath hash fuel oldPath newPath = some (ok, s')) : s'.HoldsForest := by
  obtain ⟨p, hp, h1⟩ := Option.bind_eq_some_iff.mp hs
  obtain ⟨q, hq, -⟩ := Option.bind_eq_some_iff.mp h1
  obtain ⟨old, ho⟩ := exists_components hp
  obtain ⟨new, hn⟩ := exists_components hq
  have hold := componentsOf_names ho
  have hnew := componentsOf_names hn
  obtain ⟨G, T, hR, hT⟩ := h
  rcases hR.renamePath_cases ho hn hs with ⟨rfl, -⟩ | ⟨hold0, hnew0, -, -, e, hfind, hs'⟩
  · exact ⟨G, T, hR, hT⟩
  split_ifs at hs' with hk
  · have hkeeps := fun b b' r => hkeeps (ParsedPath.of hash old) (ParsedPath.of hash new) b b' r
      (by rw [parse_eq, ho]; rfl) (by rw [parse_eq, hn]; rfl)
    rcases hR.renameDirectory_edges hold hnew (fun b b' r hA => (hkeeps b b' r hA).1) hs' with
      rfl | ⟨b, b', f, f', g, m, c', hM, hA, htop, hmove⟩
    · exact ⟨G, T, hR, hT⟩
    have hprefix : ¬ hashesOf hash old <+: hashesOf hash new := (hkeeps b b' g hA).2
    obtain ⟨ods, c, rfl⟩ := (List.eq_nil_or_concat' old).resolve_left hold0
    obtain ⟨nds, d', rfl⟩ := (List.eq_nil_or_concat' new).resolve_left hnew0
    obtain ⟨hloc, hname⟩ := Table.parentOf_concat_eq hM.source
    obtain ⟨hloc', -⟩ := Table.parentOf_concat_eq hM.target
    have hcell := hM.edge
    rw [hname] at hcell
    have hout : ∀ zs, T.locate g zs ≠ some f' := by
      intro zs hzs
      have hpath : T.locate T.root (hashesOf hash ods ++ [(hash c).toNat] ++ zs) = some f' := by
        rw [Table.locate_append, Table.locate_concat_eq hloc hcell]
        exact hzs
      have h0 := hT.tree.path_unique hpath hloc'
      rw [hashesOf_concat, hashesOf_concat, ← h0] at hprefix
      exact hprefix ((List.prefix_append _ zs).trans (List.prefix_append _ _))
    obtain ⟨-, G', hR'⟩ :=
      hR.moveEdge_moves hM htop (Or.inl fun h0 => hout [] (congrArg some h0.symm)) hmove
    exact ⟨G', _, hR', hT.moveLayer hM.edge hout _⟩
  · obtain ⟨G', T', hR', hT', hK⟩ := hR.renameFile_keeps hT.kinds hold hnew hfind hk hs'
    exact ⟨G', T', hR', hT.keeps hK hT'⟩

/-- A new directory. -/
lemma HoldsForest.mkdir (h : s.HoldsForest) {path : Bytes} {ref : InodeRef} {ok : Bool}
    (hs : s.mkdir hash path ref = some (ok, s')) : s'.HoldsForest := by
  obtain ⟨G, T, hR, hT⟩ := h
  obtain ⟨p, hp, h1⟩ := Option.bind_eq_some_iff.mp hs
  obtain ⟨cs, hcs⟩ := exists_components hp
  obtain rfl : ParsedPath.of hash cs = p := by
    rw [parse_eq, hcs] at hp
    exact Option.some.inj hp
  obtain ⟨t, G', g, h2, hg, hR', -⟩ := hR.createDirectory_spec hash (componentsOf_names hcs) ref
  obtain ⟨-, rfl⟩ := Prod.mk.inj (Option.some.inj (h1.symm.trans h2))
  refine ⟨G', _, hR', ?_⟩
  rw [Table.mkdir]
  cases hpar : T.parentOf hash cs with
  | none => exact hT
  | some fc =>
      obtain ⟨f, c⟩ := fc
      simp only
      split_ifs with h3
      · obtain ⟨ds, d, rfl⟩ :=
          (List.eq_nil_or_concat' cs).resolve_left fun h0 => by simp [h0] at hpar
        obtain ⟨hloc, -⟩ := Table.parentOf_concat_eq hpar
        exact hT.addLayer hR.closed (hR.closed.locate _ hR.closed.root hloc) hg _
      · exact hT

/-- **Every call keeps the forest.** -/
lemma HoldsForest.perform (h : s.HoldsForest) {call : PathCall} (hkeeps : s.KeepsTree hash call)
    (hs : call.perform hash s = some s') : s'.HoldsForest := by
  cases call with
  | rename oldPath newPath fuel =>
      obtain ⟨⟨ok, r⟩, h1, rfl⟩ := Option.map_eq_some_iff.mp hs
      exact h.renamePath hkeeps h1
  | basic call =>
      obtain ⟨⟨x, r⟩, h1, rfl⟩ := Option.map_eq_some_iff.mp hs
      obtain ⟨cs, hcs⟩ := call.exists_components h1
      cases call with
      | mkdir path ref =>
          obtain ⟨⟨ok, t⟩, h2, h3⟩ := Option.map_eq_some_iff.mp h1
          obtain rfl : t = r := congrArg Prod.snd h3
          exact h.mkdir h2
      | creatFile path ref =>
          obtain ⟨G, T, hR, hT⟩ := h
          obtain ⟨t, G', g, h2, -, hR'⟩ := hR.perform hash hcs
          obtain ⟨-, rfl⟩ := Prod.mk.inj (Option.some.inj (h2.symm.trans h1))
          obtain ⟨hK, hT'⟩ := hT.kinds.create hash cs ref
          exact ⟨G', _, hR', hT.keeps hK hT'⟩
      | removePath path =>
          obtain ⟨G, T, hR, hT⟩ := h
          obtain ⟨t, G', g, h2, -, hR'⟩ := hR.perform hash hcs
          obtain ⟨-, rfl⟩ := Prod.mk.inj (Option.some.inj (h2.symm.trans h1))
          obtain ⟨hK, hT'⟩ := hT.kinds.remove hash cs
          exact ⟨G', _, hR', hT.keeps hK hT'⟩
      | lookupEntry path =>
          obtain ⟨e, -, h2⟩ := Option.map_eq_some_iff.mp h1
          obtain rfl : s = r := congrArg Prod.snd h2
          exact h

/-! ## The state has a tree -/

end LhmNamespace

namespace Represents

variable {s : LhmNamespace} {G : Ghost} {T : Table} {f f' g : Ptr}

/-- Two slots of a layer with one hash are one slot. -/
lemma slot_unique (hR : Represents s G T) {r r' : Ptr} (hr : Handle s G r f) (hr' : Handle s G r' f)
    {n m i j : ℕ} (hn : LeafOf s.heap r n) (hm : LeafOf s.heap r' m) (hi : i < (s.heap.leaf n).size)
    (hj : j < (s.heap.leaf m).size) (hik : (s.heap.slotAt n i).ikey = (s.heap.slotAt m j).ikey) :
    n = m ∧ i = j := by
  obtain ⟨h1, h2, h3⟩ := hR.live_of_leafOf hr hn
  obtain ⟨h4, h5, h6⟩ := hR.live_of_leafOf hr' hm
  have hok := hR.heap.leaves n { s.heap.leaf n with parent := none } h1 (by rw [h3]; rfl)
  have hok' := hR.heap.leaves m { s.heap.leaf m with parent := none } h4 (by rw [h6]; rfl)
  have hwithin :=
    hok.within (s.heap.slotAt n i) (List.mem_of_getElem? (Leaf.entries_getElem? hok.perm hi))
  have hwithin' :=
    hok'.within (s.heap.slotAt m j) (List.mem_of_getElem? (Leaf.entries_getElem? hok'.perm hj))
  obtain rfl : n = m :=
    hR.heap.tree.leaf_unique h1 h4 (by rw [h3]; rfl) (by rw [h6]; rfl) (h2.trans h5.symm)
    hwithin (hik ▸ hwithin')
  refine ⟨rfl, ?_⟩
  obtain ⟨hi', hxi⟩ := List.getElem?_eq_some_iff.mp (Leaf.entries_getElem? hok.perm hi)
  obtain ⟨hj', hxj⟩ := List.getElem?_eq_some_iff.mp (Leaf.entries_getElem? hok.perm hj)
  have hsorted := List.pairwise_iff_getElem.mp hok.sorted
  rcases Nat.lt_trichotomy i j with hlt | heq | hlt
  · have h0 := hsorted i j hi' hj' hlt
    rw [hxi, hxj] at h0
    exact absurd hik (Nat.ne_of_lt h0)
  · exact heq
  · have h0 := hsorted j i hj' hi' hlt
    rw [hxi, hxj] at h0
    exact absurd hik (Nat.ne_of_gt h0)

lemma canonical_layer (hR : Represents s G T) (hg : T.layers g) :
    canonicalizeDirectoryRoot s.heap g = some (G.top g) := by
  obtain ⟨hlt, hfam⟩ := (hR.layers g).mp hg
  rw [hR.heap.tree.canonicalizeDirectoryRoot_eq (hR.known hlt), hfam]

lemma canonical_handle (hR : Represents s G T) {r : Ptr} (hr : Handle s G r f) :
    canonicalizeDirectoryRoot s.heap r = some (G.top f) := by
  rw [hR.heap.tree.canonicalizeDirectoryRoot_eq (hR.known hr.lt), hr.fam]

/-- Layers have different roots. -/
lemma eq_of_top (hR : Represents s G T) (hf : T.layers f) (hg : T.layers g)
    (h : G.top f = G.top g) : f = g := by
  have hfam : ∀ {a}, T.layers a → G.fam (G.top a) = a := by
    intro a ha
    obtain ⟨hlt, h1⟩ := (hR.layers a).mp ha
    have h2 := (hR.heap.tree.top_spec (hR.known hlt)).2.2.1
    rwa [h1] at h2
  rw [← hfam hf, h, hfam hg]

/-- A layer slot of the state is a directory of the table. -/
lemma cell_of_layerSlot (hR : Represents s G T) {a i : ℕ} {r : Ptr} (h : s.LayerSlot a i r) :
    ∃ r₀ f g, Handle s G r₀ f ∧ LeafOf s.heap r₀ a ∧ T.cell f (s.heap.slotAt a i).ikey =
      some (.directory g) ∧
      r = G.top g := by
  obtain ⟨r₀, hlt, hstart, hleaf⟩ := h.leaf
  obtain ⟨q, hq, hcanon⟩ := h.target
  have hhandle : Handle s G r₀ (G.fam r₀) := ⟨hlt, hstart, rfl⟩
  obtain ⟨c, h1, h2⟩ := hR.cell_slotAt hhandle hleaf h.lt
  rw [h1] at hq
  obtain rfl := Content.layerPointer_encode hq
  rw [hR.canonical_layer (hR.target _ _ _ h2)] at hcanon
  exact ⟨r₀, _, q, hhandle, hleaf, h2, (Option.some.inj hcanon).symm⟩

end Represents

namespace LhmNamespace

variable {s : LhmNamespace}

lemma HoldsForest.formTree (h : s.HoldsForest) : s.DirectoriesFormTree := by
  obtain ⟨G, T, hR, hT⟩ := h
  have hlayers : ∀ {xs f}, T.locate T.root xs = some f → T.layers f := fun hloc =>
    hR.closed.locate _ hR.closed.root hloc
  refine ⟨?_, ?_, ?_, ?_, ?_⟩
  · intro xs q hq hne
    cases hq with
    | root => exact absurd rfl hne
    | @slot xs r n i _ hr hn hi hl =>
        obtain ⟨f, -, h2⟩ := hR.locate_of_layerOn hR.handle_root hr
        obtain ⟨c, h3, h4⟩ := hR.cell_slotAt h2 hn hi
        obtain rfl : c = .directory q := by
          rw [h3] at hl
          cases c with
          | value v => cases hl
          | directory g => exact congrArg Content.directory (Option.some.inj hl)
        have hlay := hR.target _ _ _ h4
        have hcanon := hR.canonical_layer hlay
        refine ⟨n, i, G.top q, hcanon, ⟨⟨r, h2.lt, h2.start, hn⟩, hi, q, by rw [h3]; rfl, hcanon⟩,
          fun a' i' h' => ?_⟩
        obtain ⟨r', f', g, h5, h6, h7, h8⟩ := hR.cell_of_layerSlot h'
        obtain rfl := hR.eq_of_top hlay (hR.target _ _ _ h7) h8
        obtain ⟨rfl, hik⟩ := hT.tree.unique h7 h4
        exact hR.slot_unique h5 h2 h6 hn h'.lt hi hik
  · intro a i r hr h'
    obtain ⟨r₀, f, g, -, -, h2, rfl⟩ := hR.cell_of_layerSlot h'
    rw [hR.canonical_handle hR.handle_root] at hr
    obtain rfl := hR.eq_of_top hR.closed.root (hR.target _ _ _ h2) (Option.some.inj hr)
    exact hT.tree.root f _ h2
  · intro q xs q' r hlt hstart hq h1 h2
    have hhandle : Represents.Handle s G q (G.fam q) := ⟨hlt, hstart, rfl⟩
    obtain ⟨f, h3, h4⟩ := hR.locate_of_layerOn hhandle hq
    rw [hR.canonical_handle hhandle] at h1
    rw [hR.canonical_handle h4, ← h1] at h2
    cases xs with
    | nil => rfl
    | cons x xs =>
        have hf : T.layers f := by
          have hedge := Table.edge_of_locate_cons h3
          obtain ⟨b, -, y, hy⟩ := TransGen.tail'_iff.mp hedge
          exact hR.closed.target hy
        have hfam : f = G.fam q := by
          obtain ⟨-, -, h5, -⟩ := hR.heap.tree.top_spec (hR.known hlt)
          obtain ⟨-, -, h6, -⟩ := hR.heap.tree.top_spec (hR.known h4.lt)
          rw [h4.fam] at h6
          rw [← h5, ← Option.some.inj h2, h6]
        exact absurd (hfam ▸ Table.edge_of_locate_cons h3) (hT.acyclic _)
  · intro xs ys q q' hq hq' heq
    obtain ⟨f, h1, h2⟩ := hR.locate_of_layerOn hR.handle_root hq
    obtain ⟨f', h3, h4⟩ := hR.locate_of_layerOn hR.handle_root hq'
    rw [hR.canonical_handle h2, hR.canonical_handle h4] at heq
    obtain rfl := hR.eq_of_top (hlayers h1) (hlayers h3) (Option.some.inj heq)
    exact hT.tree.path_unique h1 h3
  · intro xs q hq
    obtain ⟨f, h1, -⟩ := hR.locate_of_layerOn hR.handle_root hq
    exact hT.tree.length_lt (fun ys g hg => ((hR.layers g).mp (hlayers hg)).1) h1

end LhmNamespace

/-- **The directories form a tree**: in every run of the calls, whatever they return, in which a
rename that gets to the edge updates finds the current root of the directory in its old slot, and
the hashes of the new path do not lead through the old one. -/
theorem directories_form_tree (hash : Bytes → UInt64) (calls : List PathCall)
    (hkeeps : PathCall.EachStep (fun s call => s.KeepsTree hash call) hash initialState calls)
    {s : LhmNamespace} (hs : PathCall.performAll hash initialState calls = some s) :
    s.DirectoriesFormTree := by
  have hinit : initialState.HoldsForest := ⟨_, _, initialState_represents, .initial⟩
  exact (hkeeps.invariant (I := LhmNamespace.HoldsForest) (fun _ _ _ _ h hk h0 => h.perform hk h0)
    hinit hs).formTree

/-! ## Two renames -/

/-- A rename whose condition is decided. -/
lemma LhmNamespace.keepsTree_of_decide {hash : Bytes → UInt64} {s : LhmNamespace}
    {oldPath newPath : Bytes} {fuel k q : ℕ} (h : ((parseAbsolutePath hash oldPath).bind fun old =>
      (parseAbsolutePath hash newPath).bind fun new =>
        (s.locateDirectoryRoot old.parent).map fun b =>
        decide (b = some k ∧ edgePointer s.heap k old.hash = some q ∧
          lookupDirectoryEdgeFromParentRoot s.heap k old.name old.hash = some (some q) ∧
          ¬ old.hashes <+: new.hashes)) = some true) : s.KeepsTree hash
            (.rename oldPath newPath fuel) := by
  intro old new b b' r hold hnew hA
  rw [hold, hnew, Option.bind_some, Option.bind_some, hA.oldParent, Option.map_some] at h
  obtain ⟨h1, h2, h3, h4⟩ := of_decide_eq_true (Option.some.inj h)
  obtain rfl := Option.some.inj h1
  obtain rfl := Option.some.inj (Option.some.inj (h3.symm.trans hA.edge))
  exact ⟨h2, h4⟩

/-- The directory `d` is renamed to `e`. -/
def emptyMove : List PathCall := [.basic (.mkdir [47, 100] ⟨1, 1⟩), .rename [47, 100] [47, 101] 0]

/-- An empty directory's root is the node that its slot points to, so the move finds and removes the
old slot. -/
theorem directories_form_tree_emptyMove : ∃ s,
    PathCall.performAll hashComponent initialState emptyMove = some s ∧ s.DirectoriesFormTree := by
  have hrun : (PathCall.performAll hashComponent initialState emptyMove).isSome = true := by
    decide +kernel
  have hmove : ((initialState.mkdir hashComponent [47, 100] ⟨1, 1⟩).bind fun t =>
      (parseAbsolutePath hashComponent [47, 100]).bind fun old =>
        (parseAbsolutePath hashComponent [47, 101]).bind fun new =>
          (t.2.locateDirectoryRoot old.parent).map
          fun b => decide (b = some 0 ∧ edgePointer t.2.heap 0 old.hash = some 1 ∧
            LhmNamespace.lookupDirectoryEdgeFromParentRoot t.2.heap 0 old.name old.hash =
            some (some 1) ∧
            ¬ old.hashes <+: new.hashes)) = some true := by decide +kernel
  obtain ⟨s, hs⟩ := Option.isSome_iff_exists.mp hrun
  obtain ⟨r, h1, h2⟩ := Option.bind_eq_some_iff.mp hmove
  refine ⟨s, hs, directories_form_tree hashComponent emptyMove ⟨trivial,
    fun t ht => ⟨?_, fun _ _ => trivial⟩⟩ hs⟩
  obtain rfl : t = r.2 := by simpa [PathCall.perform, BasicCall.perform, h1, eq_comm] using ht
  exact LhmNamespace.keepsTree_of_decide h2

/-- A directory that has got eight files, so that its root is an internode, is renamed. -/
def grownMove : List PathCall :=
  (.basic (.mkdir [47, 100] ⟨1, 1⟩) ::
    (List.range 8).map fun k => .basic (.creatFile [47, 100, 47, UInt8.ofNat (49 + k)] ⟨1, 2⟩)) ++
      [.rename [47, 100] [47, 101] 0]

/-- The old slot still has the leaf that was the root before the split, so it is not removed: two
slots of `/` lead to the directory. -/
theorem not_directories_form_tree_grownMove : ¬ ∀ (calls : List PathCall) (s : LhmNamespace),
    PathCall.performAll hashComponent initialState calls = some s → s.DirectoriesFormTree := by
  intro hall
  -- two slots of `/` lead to the directory
  have hrun : ((PathCall.performAll hashComponent initialState grownMove).map fun s =>
      decide (s.root = 0 ∧ 0 < s.heap.size ∧ (s.heap.node 0).isLeaf = true ∧
        (s.heap.leaf 0).prev = none ∧
        reachLeaf s.heap 0 0 = some 0 ∧ (s.heap.leaf 0).size = 2 ∧
        (s.heap.slotAt 0 0).body.layerPointer = some 3 ∧
        (s.heap.slotAt 0 1).body.layerPointer = some 1 ∧
        (s.heap.slotAt 0 0).body.lv.layer? = some 3 ∧ canonicalizeDirectoryRoot s.heap 3 = some 3 ∧
        canonicalizeDirectoryRoot s.heap 1 = some 3)) = some true := by decide +kernel
  obtain ⟨s, hs, hstate⟩ := Option.map_eq_some_iff.mp hrun
  obtain ⟨h1, h2, h3, h4, h5, h6, h7, h8, h9, h10, h11⟩ := of_decide_eq_true hstate
  have hstart : (s.heap.node 0).startable := by
    cases hn : s.heap.node 0 with
    | internode m => trivial
    | leaf l => simpa [Heap.leaf, hn, Node.leaf] using h4
  have hleaf : LeafOf s.heap s.root 0 := .reach (by rw [h1]; exact h5)
  have hslot : ∀ {i q}, i < 2 → (s.heap.slotAt 0 i).body.layerPointer = some q →
      canonicalizeDirectoryRoot s.heap q = some 3 → s.LayerSlot 0 i 3 := fun hi hq hcanon =>
    ⟨⟨s.root, by rw [h1]; exact h2, by rw [h1]; exact hstart, hleaf⟩, by rw [h6]; exact hi, _, hq,
      hcanon⟩
  have hon : LayerOn s.heap s.root ([] ++ [(s.heap.slotAt 0 0).ikey]) 3 :=
    .slot .root hleaf (by rw [h6]; exact Nat.zero_lt_two) h9
  obtain ⟨a, i, r, h12, -, hunique⟩ := (hall _ s hs).slot _ 3 hon (by simp)
  obtain rfl := Option.some.inj (h10.symm.trans h12)
  have h13 := (hunique 0 0 (hslot Nat.zero_lt_two h7 h10)).2
  have h14 := (hunique 0 1 (hslot Nat.one_lt_two h8 h11)).2
  omega

end MasstreeLHM
