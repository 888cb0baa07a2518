import MasstreeLHM.FileRename
import MasstreeLHM.Move
import MasstreeLHM.Reference

/-!
# Renaming in the name tree

A rename that returns true moves a node of the name tree, with all that is below it, to its new
path.  A directory is moved by taking its layer out of one cell and hanging it into another, a file
by creating it again and removing it; on the tree both are one operation.

`moveLayer` is the move of a layer on the table.  Its two changes can be looked at in either order
(`setCell_comm`), so the table is first detached from the old cell and then attached to the new one.
`find_moveLayer`, `find_moveLayer_old`, `find_moveLayer_new` and `find_moveLayer_below` say what
every path finds afterwards; together they are the rename of `NameTree.rename`.

`renamePath_cases` has the checks of `rename_path` itself.  **`Simulates.moveLayer`** and
**`Simulates.rename_file`** are the two ways on the tree, and **`Simulates.renamePath`** puts them
behind the checks.
-/

namespace MasstreeLHM

variable {hash : Bytes → UInt64} {N : Bytes → Prop}

lemma HashInj.prefix_of_hashesOf (hinj : HashInj hash N) {cs ds : List Bytes} (hcs : InUse N cs)
    (hds : InUse N ds) (h : MasstreeLHM.hashesOf hash cs <+: MasstreeLHM.hashesOf hash ds) :
    cs <+: ds := by
  have h0 := List.prefix_iff_eq_take.mp h
  rw [MasstreeLHM.hashesOf, MasstreeLHM.hashesOf, List.length_map, ← List.map_take] at h0
  have htake : InUse N (ds.take cs.length) := fun d hd => hds d (List.mem_of_mem_take hd)
  rw [hinj.hashesOf hcs htake h0]
  exact List.take_prefix _ _

namespace Table

variable {T T' : Table} {f f' g : Ptr} {x x' : ℕ} {c c' : Bytes} {cs ds : List Bytes}

/-- What a path below a layer depends on. -/
lemma locate_congr_below : ∀ (ys : List ℕ) {g : Ptr},
    (∀ zs a, T.locate g zs = some a → ∀ y, T'.cell a y = T.cell a y) →
    T'.locate g ys = T.locate g ys
  | [], _, _ => rfl
  | y :: ys, g, h => by
      rw [locate_cons, locate_cons, h [] g rfl y]
      cases hc : T.cell g y with
      | none => rfl
      | some d =>
          cases d with
          | value v => rfl
          | directory b =>
              refine locate_congr_below ys fun zs a hzs => h (y :: zs) a ?_
              rw [locate_cons, hc]
              exact hzs

/-- The two edges of a move can be changed in either order. -/
lemma setCell_comm (h : ¬ (f = f' ∧ x = x')) (o o' : Option Content) (m : DirectoryMeta) :
    ((T.setCell f' x' o).setInfo g m).setCell f x o' =
    ((T.setCell f x o').setInfo g m).setCell f' x' o := by
  simp only [setCell, setInfo, Table.mk.injEq, true_and, and_true]
  funext a y
  by_cases h1 : a = f ∧ y = x
  · have h2 : ¬ (a = f' ∧ y = x') := by
      rintro ⟨h3, h4⟩
      exact h ⟨h1.1.symm.trans h3, h1.2.symm.trans h4⟩
    rw [if_pos h1, if_neg h2, if_pos h1]
  · rw [if_neg h1]
    split_ifs <;> rfl

section

variable (hP : T.Plain hash N) (hinj : HashInj hash N) (hcs : InUse N (cs ++ [c]))
  (hloc : T.locate T.root (hashesOf hash cs) = some f)
include hP hinj hcs hloc

/-- A change of one cell is seen only at and below its path. -/
lemma Plain.find_outside {o : Option Content} {es : List Bytes} (hes : InUse N es)
    (hno : ¬ cs ++ [c] <+: es) : (T.setCell f (hash c).toNat o).find hash es = T.find hash es := by
  rcases List.eq_nil_or_concat' es with rfl | ⟨es, e, rfl⟩
  · rfl
  refine hP.find_setCell hinj hcs hloc hes (fun h0 => hno (h0 ▸ List.prefix_rfl)) fun h0 => hno ?_
  exact (hinj.prefix_of_hashesOf hcs (InUse.concat.mp hes).1 h0).trans (List.prefix_append _ _)

omit hinj hcs in
/-- Nothing is found at and below an emptied cell. -/
lemma Plain.find_emptied {es : List Bytes} (hpre : cs ++ [c] <+: es) :
    (T.setCell f (hash c).toNat none).find hash es = none := by
  have hself : (T.setCell f (hash c).toNat none).locate (T.setCell f (hash c).toNat none).root
      (hashesOf hash cs) = some f := hP.tree.locate_setCell_self hloc
  obtain ⟨zs, rfl⟩ := hpre
  rcases List.eq_nil_or_concat' zs with rfl | ⟨zs, z, rfl⟩
  · rw [List.append_nil, find_concat, hself, Option.bind_some, lookup, setCell_same]
  · rw [← List.append_assoc]
    refine find_below hself (fun b hb => ?_) ⟨hashesOf hash zs, (List.map_append ..).symm⟩
    rw [setCell_same] at hb
    cases hb

end

/-- The metadata of a layer that hangs nowhere is not seen. -/
lemma find_setInfo (hg : ∀ a y, T.cell a y ≠ some (.directory g)) (m : DirectoryMeta)
    (es : List Bytes) :
    (T.setInfo g m).find hash es = T.find hash es := by
  rcases List.eq_nil_or_concat' es with rfl | ⟨es, e, rfl⟩
  · rfl
  have hlocate : ∀ ys a, (T.setInfo g m).locate a ys = T.locate a ys :=
    locate_congr fun _ _ _ => Iff.rfl
  rw [find_concat, find_concat, hlocate]
  refine Option.bind_congr fun a _ => lookup_congr rfl (fun b hb => if_neg ?_) rfl
  rintro rfl
  exact hg _ _ hb

lemma Plain.setInfo (hP : T.Plain hash N) (hg : ∀ a y, T.cell a y ≠ some (.directory g))
    (m : DirectoryMeta) :
    (T.setInfo g m).Plain hash N where
  closed := ⟨hP.closed.root, hP.closed.cell, hP.closed.target⟩
  tree := ⟨hP.tree.unique, hP.tree.root⟩
  directory := by
    intro a y b h
    obtain ⟨m', h1, h2⟩ := hP.directory h
    refine ⟨m', (if_neg ?_).trans h1, h2⟩
    rintro rfl
    exact hg _ _ h
  value := hP.value

/-! ## Moving a layer -/

/-- Take a layer out of one cell, rewrite its metadata, and hang it into another cell. -/
def moveLayer (T : Table) (f : Ptr) (x : ℕ) (f' : Ptr) (x' : ℕ) (g : Ptr) (m : DirectoryMeta) :
    Table :=
  ((T.setCell f x none).setInfo g m).setCell f' x' (some (.directory g))

/-- A layer that is taken out of its cell hangs nowhere. -/
lemma Tree.dangling (hT : T.Tree) (hcell : T.cell f x = some (.directory g)) (a : Ptr) (y : ℕ) :
    (T.setCell f x none).cell a y ≠ some (.directory g) := by
  intro h0
  rw [setCell_cell] at h0
  split_ifs at h0 with h1
  exact h1 (hT.unique h0 hcell)

/-- It stays in one cell. -/
lemma Tree.moveLayer (hT : T.Tree) (hcell : T.cell f x = some (.directory g)) (m : DirectoryMeta) :
    (T.moveLayer f x f' x' g m).Tree := by
  have h₁ : (T.setCell f x none).Tree := hT.setCell (by simp)
  refine Tree.setCell (T := (T.setCell f x none).setInfo g m) ⟨h₁.unique, h₁.root⟩ fun b hb => ?_
  obtain rfl := Content.directory.inj (Option.some.inj hb)
  refine ⟨fun h0 => ?_, fun a y h0 => absurd h0 (hT.dangling hcell a y)⟩
  exact hT.root f x (hcell.trans (congrArg (fun b => some (Content.directory b)) h0))

section Move

variable {ods nds : List Bytes} {m : DirectoryMeta} (hP : T.Plain hash N) (hinj : HashInj hash N)
  (hold : InUse N (ods ++ [c])) (hnew : InUse N (nds ++ [c']))
  (hloc : T.locate T.root (hashesOf hash ods) = some f)
  (hcell : T.cell f (hash c).toNat = some (.directory g))
  (hloc' : T.locate T.root (hashesOf hash nds) = some f') (hpre : ¬ ods ++ [c] <+: nds ++ [c'])
include hP hloc hcell

/-- The table between the two changes. -/
lemma Plain.detached (m : DirectoryMeta) :
    ((T.setCell f (hash c).toNat none).setInfo g m).Plain hash N :=
  (hP.setCell (hP.closed.locate _ hP.closed.root hloc) (fun _ h0 => by cases h0)
    (fun _ h0 => by cases h0)).setInfo (hP.tree.dangling hcell) m

include hinj hold in
lemma Plain.find_detached {es : List Bytes} (hes : InUse N es) (hno : ¬ ods ++ [c] <+: es) :
    ((T.setCell f (hash c).toNat none).setInfo g m).find hash es = T.find hash es :=
  (find_setInfo (hP.tree.dangling hcell) m es).trans (hP.find_outside hinj hold hloc hes hno)

lemma Plain.find_detached_old {es : List Bytes} (hpre : ods ++ [c] <+: es) :
    ((T.setCell f (hash c).toNat none).setInfo g m).find hash es = none :=
  (find_setInfo (hP.tree.dangling hcell) m es).trans (hP.find_emptied hloc hpre)

include hinj hold hnew hloc' hpre

omit hcell in
/-- The new parent directory is not below the moved one. -/
lemma Plain.locate_detached :
    ((T.setCell f (hash c).toNat none).setInfo g m).locate T.root (hashesOf hash nds) =
      some f' := by
  have hsame : ∀ ys a, ((T.setCell f (hash c).toNat none).setInfo g m).locate a ys
      = (T.setCell f (hash c).toNat none).locate a ys := locate_congr fun _ _ _ => Iff.rfl
  rw [hsame, hP.tree.locate_setCell hloc, hloc']
  rw [← hashesOf_concat]
  exact fun h0 =>
    hpre ((hinj.prefix_of_hashesOf hold (InUse.concat.mp hnew).1 h0).trans (List.prefix_append _ _))

/-- Neither parent directory is below the moved one. -/
lemma Plain.below_ne {zs : List ℕ} {a : Ptr} (hzs : T.locate g zs = some a) : a ≠ f ∧ a ≠ f' := by
  have hgloc : T.locate T.root (hashesOf hash (ods ++ [c]) ++ zs) = some a := by
    rw [locate_append, hashesOf_concat, locate_concat_eq hloc hcell]
    exact hzs
  constructor
  · rintro rfl
    have hlen := congrArg List.length (hP.tree.path_unique hloc hgloc)
    simp [hashesOf] at hlen
  · rintro rfl
    have h0 := hP.tree.path_unique hloc' hgloc
    refine hpre ((hinj.prefix_of_hashesOf hold (InUse.concat.mp hnew).1 ?_).trans
      (List.prefix_append _ _))
    exact ⟨zs, h0.symm⟩

lemma Plain.moveLayer_plain {m : DirectoryMeta} (hm : m.componentHash = (hash c').toNat)
    (hname : m.name = c') :
    (T.moveLayer f (hash c).toNat f' (hash c').toNat g m).Plain hash N := by
  have hP₂ := hP.detached hloc hcell m
  refine hP₂.setCell (hP₂.closed.locate _ hP₂.closed.root
    (hP.locate_detached hinj hold hnew hloc hloc' hpre)) (fun b hb => ?_) (fun _ h0 => by cases h0)
  obtain rfl : g = b := Content.directory.inj (Option.some.inj hb)
  refine ⟨hP.closed.target hcell, ?_, fun a y h0 => absurd h0 (hP.tree.dangling hcell a y),
    m, if_pos rfl, hm, by rw [hname], by rw [hname]; exact (InUse.concat.mp hnew).2⟩
  intro h0
  exact hP.tree.root _ _ (hcell.trans (congrArg (fun b => some (Content.directory b)) h0))

/-- Outside the two paths nothing changes. -/
lemma Plain.find_moveLayer {es : List Bytes} (hes : InUse N es) (h1 : ¬ ods ++ [c] <+: es)
    (h2 : ¬ nds ++ [c'] <+: es) :
    (T.moveLayer f (hash c).toNat f' (hash c').toNat g m).find hash es = T.find hash es :=
  ((hP.detached hloc hcell m).find_outside hinj hnew
    (hP.locate_detached hinj hold hnew hloc hloc' hpre) hes h2).trans
    (hP.find_detached hinj hold hloc hcell hes h1)

/-- At the old path nothing is left. -/
lemma Plain.find_moveLayer_old {es : List Bytes} (hes : InUse N es) (h1 : ods ++ [c] <+: es)
    (h2 : ¬ nds ++ [c'] <+: es) :
    (T.moveLayer f (hash c).toNat f' (hash c').toNat g m).find hash es = none :=
  ((hP.detached hloc hcell m).find_outside hinj hnew
    (hP.locate_detached hinj hold hnew hloc hloc' hpre) hes h2).trans
    (hP.find_detached_old hloc hcell h1)

/-- The way from the root to what was below the moved layer. -/
lemma Plain.locate_moveLayer (ys : List ℕ) :
    (T.moveLayer f (hash c).toNat f' (hash c').toNat g m).locate T.root
    (hashesOf hash (nds ++ [c']) ++ ys)
      = T.locate g ys := by
  have hP₂ := hP.detached hloc hcell m
  have hthrough := hP₂.tree.locate_setCell_through (x := (hash c').toNat) (o := some (.directory g))
    (hP.locate_detached hinj hold hnew hloc hloc' hpre) ys
  rw [hashesOf_concat, List.append_assoc, List.singleton_append]
  refine hthrough.trans (locate_congr_below ys fun zs a hzs y => ?_)
  obtain ⟨h1, h2⟩ := hP.below_ne hinj hold hnew hloc hcell hloc' hpre hzs
  exact (setCell_ne fun h0 => h2 h0.1).trans (setCell_ne fun h0 => h1 h0.1)

/-- The new path leads to the moved directory. -/
lemma Plain.find_moveLayer_new (ref : InodeRef) (x : ℕ) :
    (T.moveLayer f (hash c).toNat f' (hash c').toNat g (makeDirectoryMeta ref x c')).find
      hash (nds ++ [c'])
      = some ⟨.directory, ref, c'⟩ := by
  have hself := (hP.detached hloc hcell (makeDirectoryMeta ref x c')).tree.locate_setCell_self
    (x := (hash c').toNat) (o := some (.directory g))
    (hP.locate_detached hinj hold hnew hloc hloc' hpre)
  have hinfo :
    (T.moveLayer f (hash c).toNat f' (hash c').toNat g (makeDirectoryMeta ref x c')).info g
      = some (makeDirectoryMeta ref x c') := if_pos rfl
  rw [find_concat]
  refine (congrArg (Option.bind · _) hself).trans ?_
  have hentry : directoryMetaNameEquals (makeDirectoryMeta ref x c') c' = true :=
    beq_self_eq_true c'
  rw [Option.bind_some, lookup, show (T.moveLayer f (hash c).toNat f' (hash c').toNat g
    (makeDirectoryMeta ref x c')).cell f' (hash c').toNat =
    some (.directory g) from setCell_same ..]
  simp only [directoryEntry, hinfo, hentry, if_true]
  rfl

/-- What was below the old path is below the new one. -/
lemma Plain.find_moveLayer_below (es : List Bytes) (e : Bytes) :
    (T.moveLayer f (hash c).toNat f' (hash c').toNat g m).find hash (nds ++ [c'] ++ (es ++ [e]))
      = T.find hash (ods ++ [c] ++ (es ++ [e])) := by
  have hgloc : T.locate T.root (hashesOf hash (ods ++ [c])) = some g := by
    rw [hashesOf_concat]
    exact locate_concat_eq hloc hcell
  have h1 : ∀ ps, hashesOf hash (ps ++ es) = hashesOf hash ps ++ hashesOf hash es := fun ps =>
    List.map_append ..
  rw [← List.append_assoc, ← List.append_assoc, find_concat, find_concat, h1, h1,
    locate_append T, hgloc, Option.bind_some]
  refine (congrArg (Option.bind · _)
    (hP.locate_moveLayer hinj hold hnew hloc hcell hloc' hpre (m := m) (hashesOf hash es))).trans ?_
  refine Option.bind_congr fun a ha => ?_
  obtain ⟨h2, h3⟩ := hP.below_ne hinj hold hnew hloc hcell hloc' hpre ha
  refine lookup_congr ((setCell_ne fun h0 => h3 h0.1).trans (setCell_ne fun h0 => h2 h0.1))
    (fun b hb => if_neg ?_) rfl
  rintro rfl
  exact h2 (hP.tree.unique hb hcell).1

end Move

end Table

/-- The parent directory and the last name. -/
lemma Table.parentOf_concat_eq {T : Table} {cs : List Bytes} {c d : Bytes} {f : Ptr}
    (h : T.parentOf hash (cs ++ [c]) = some (f, d)) :
    T.locate T.root (hashesOf hash cs) = some f ∧ d = c := by
  rw [parentOf_concat] at h
  obtain ⟨a, h1, h2⟩ := Option.map_eq_some_iff.mp h
  obtain ⟨rfl, rfl⟩ := Prod.mk.inj h2
  exact ⟨h1, rfl⟩

/-- **A directory rename that returns true** has done the two edge updates, at the current root of
the layer. -/
lemma Represents.renameDirectory_true {s s' : LhmNamespace} {G : Ghost} {T : Table}
    (hR : Represents s G T) {old new : List Bytes} (hold : ∀ c ∈ old, IsName c)
    (hnew : ∀ c ∈ new, IsName c) (hne : old ≠ new)
    (hs : s.renameDirectoryO1FromParsed (ParsedPath.of hash old) (ParsedPath.of hash new) =
      some (true, s')) :
    ∃ b b' f f' g m c', Movable s G T hash old new b b' f f' g m c' ∧
      s.Attaches (ParsedPath.of hash old) (ParsedPath.of hash new) b b' g ∧ G.top g = g ∧
      moveEdge s b b' (hash m.name).toNat (hash c').toNat c' g = some (true, s') ∧
      (f' ≠ g → ∃ G', Represents s' G' (T.moveLayer f (hash m.name).toNat f' (hash c').toNat g
        (makeDirectoryMeta m.ref (hash c').toNat c'))) := by
  rcases hR.renameDirectory_cases hold hnew with
    ⟨r, -, h1, h2⟩ | ⟨b, b', f, f', g, m, c', hM, hA, h1, h2⟩
  · rw [h2] at hs
    obtain ⟨rfl, -⟩ := Prod.mk.inj (Option.some.inj hs)
    exact absurd (h1 rfl) hne
  have htop : G.top g = g := by
    by_contra h0
    obtain ⟨t, h3⟩ := hR.renameDirectory_refused hM h0
    rw [h2, h3] at hs
    cases hs
  refine ⟨b, b', f, f', g, m, c', hM, htop ▸ hA, htop, ?_, fun hout => ?_⟩
  · rw [← hs, h2, htop]
  have hsource : ∀ {a d k}, T.parentOf hash old = some (a, d) →
    T.cell a (hash d).toNat = some (.directory k) →
      k = g := by
    intro a d k h3 h4
    obtain ⟨rfl, rfl⟩ := Prod.mk.inj (Option.some.inj (hM.source.symm.trans h3))
    exact (Content.directory.inj (Option.some.inj (hM.edge.symm.trans h4))).symm
  obtain ⟨t, G', h5, hR', -⟩ := hR.renameDirectory_spec hold hnew
    (fun a d k h3 h4 => by rw [hsource h3 h4]; exact htop)
    (fun a d k a' d' h3 h4 h6 => by
      obtain ⟨rfl, -⟩ := Prod.mk.inj (Option.some.inj (hM.target.symm.trans h6))
      rw [hsource h3 h4]
      exact hout)
  obtain ⟨-, rfl⟩ := Prod.mk.inj (Option.some.inj (h5.symm.trans hs))
  rw [h1, Table.setCell_comm hM.cell_ne] at hR'
  exact ⟨G', hR'⟩

/-- **The checks of `rename_path`**: nothing is done, or an entry is found and renamed as what it
is. -/
lemma Represents.renamePath_cases {s s' : LhmNamespace} {G : Ghost} {T : Table}
    (hR : Represents s G T) {old new : List Bytes} {oldPath newPath : Bytes}
    (ho : componentsOf oldPath = some old) (hn : componentsOf newPath = some new)
    {fuel : ℕ} {ok : Bool} (hs : s.renamePath hash fuel oldPath newPath = some (ok, s')) :
    (s' = s ∧ (ok = true → old = new)) ∨ (old ≠ [] ∧ new ≠ [] ∧ old ≠ new ∧ ¬ old <+: new ∧
      ∃ e, T.find hash old = some e ∧ if e.kind = .directory then
        s.renameDirectoryO1FromParsed (ParsedPath.of hash old) (ParsedPath.of hash new) =
          some (ok, s')
      else s.renameFile hash fuel (ParsedPath.of hash old) (ParsedPath.of hash new) =
        some (ok, s')) := by
  have hold := componentsOf_names ho
  have hnew := componentsOf_names hn
  have hjoin : joinPath old = joinPath new ↔ old = new :=
    ⟨joinPath_inj hold hnew, fun h0 => h0 ▸ rfl⟩
  have hpo : parseAbsolutePath hash oldPath = some (ParsedPath.of hash old) := by
    rw [parse_eq, ho]; rfl
  have hpn : parseAbsolutePath hash newPath = some (ParsedPath.of hash new) := by
    rw [parse_eq, hn]; rfl
  rw [LhmNamespace.renamePath, hpo, hpn] at hs
  simp only [Option.bind_eq_bind, Option.bind_some, ParsedPath.of_normalizedPath,
    joinPath_eq_slash hold, joinPath_eq_slash hnew, isPrefixPath_joinPath hold hnew, hjoin,
    hR.lookupEntryFromParsed_eq hold] at hs
  have hsame : ∀ {b}, (b = true → old = new) → some (b, s) = some (ok, s') →
      s' = s ∧ (ok = true → old = new) := by
    intro b hb h0
    obtain ⟨rfl, rfl⟩ := Prod.mk.inj (Option.some.inj h0)
    exact ⟨rfl, hb⟩
  split_ifs at hs with h1 h2 h3
  · exact Or.inl (hsame (by simp) hs)
  · exact Or.inl (hsame (fun _ => h2) hs)
  · exact Or.inl (hsame (by simp) hs)
  cases hfind : T.find hash old with
  | none =>
      rw [hfind] at hs
      exact Or.inl (hsame (by simp) hs)
  | some e =>
      rw [hfind] at hs
      simp only at hs
      refine Or.inr ⟨fun h0 => h1 (Or.inl h0), fun h0 => h1 (Or.inr h0), h2, h3, e, rfl, ?_⟩
      split_ifs with hk
      · rwa [if_pos hk] at hs
      · rwa [if_neg hk] at hs

namespace NameTree

/-- The tree with the node at `old` and all below it at `new`. -/
def rename (t : NameTree) (old new : List Bytes) : NameTree :=
  ⟨fun ds => if new <+: ds then t.node (old ++ ds.drop new.length) else if old <+: ds then
    none else t.node ds⟩

variable {T : Table} {t : NameTree} {old new : List Bytes}

lemma rename_node (t : NameTree) (old new ds : List Bytes) : (t.rename old new).node ds =
    if new <+: ds then t.node (old ++ ds.drop new.length) else if old <+: ds then none else
      t.node ds := rfl

lemma node_rename_new (t : NameTree) (old new zs : List Bytes) :
    (t.rename old new).node (new ++ zs) = t.node (old ++ zs) := by
  simp [rename_node]

lemma node_rename_old (hnew : ¬ new <+: old) (hold : ¬ old <+: new) (zs : List Bytes) :
    (t.rename old new).node (old ++ zs) = none := by
  have hno : ¬ new <+: old ++ zs := fun h0 =>
    (List.prefix_or_prefix_of_prefix h0 (List.prefix_append old zs)).elim hnew hold
  rw [rename_node, if_neg hno, if_pos (List.prefix_append _ _)]

lemma node_rename_other {ds : List Bytes} (hnew : ¬ new <+: ds) (hold : ¬ old <+: ds) :
    (t.rename old new).node ds = t.node ds := by
  rw [rename_node, if_neg hnew, if_neg hold]

namespace Simulates

variable (hS : Simulates hash N T t) (hinj : HashInj hash N)
include hS hinj

/-- What has something below it is a directory. -/
lemma isDirectory_of_below {cs ds : List Bytes} {d : Bytes} (h : t.node (cs ++ d :: ds) ≠ none) :
    t.IsDirectory cs := by
  have huse := hS.inUse _ h
  have hcs : InUse N cs := fun c hc => huse c (List.mem_append_left _ hc)
  obtain ⟨es, e, he⟩ := (List.eq_nil_or_concat' (d :: ds)).resolve_left (List.cons_ne_nil _ _)
  have hfind := hS.find _ huse
  rw [he, ← List.append_assoc] at hfind h
  rw [Table.find_concat, hashesOf, List.map_append, Table.locate_append, lookup_concat] at hfind
  rw [hS.isDirectory_iff hinj hcs]
  refine Option.ne_none_iff_exists'.mp fun h0 => h ?_
  rw [hashesOf] at h0
  rw [h0] at hfind
  exact Option.map_eq_none_iff.mp hfind.symm

/-- The node of a directory cell. -/
lemma node_directory {cs : List Bytes} {c : Bytes} {f g : Ptr} {m : DirectoryMeta}
    (hcs : InUse N (cs ++ [c])) (hloc : T.locate T.root (hashesOf hash cs) = some f)
    (hcell : T.cell f (hash c).toNat = some (.directory g)) (hinfo : T.info g = some m) :
    t.node (cs ++ [c]) = some (.directory m.ref) := by
  have hfind := hS.find _ hcs
  obtain ⟨m', h1, -, -, h2⟩ := hS.plain.lookup_directory hinj (InUse.concat.mp hcs).2 hcell
  obtain rfl := Option.some.inj (hinfo.symm.trans h1)
  rw [Table.find_concat, hloc, Option.bind_some, h2, lookup_concat] at hfind
  obtain ⟨n, h3, h4⟩ := Option.map_eq_some_iff.mp hfind.symm
  cases n with
  | file ref => simp [entryOf] at h4
  | directory ref =>
      obtain rfl : ref = m.ref := congrArg NamespaceEntry.ref h4
      exact h3

/-- **Moving the layer of a directory** moves its node, and all below it. -/
lemma moveLayer {ods nds : List Bytes} {c c' : Bytes} {f f' g : Ptr} {m : DirectoryMeta}
    (hold : InUse N (ods ++ [c])) (hnew : InUse N (nds ++ [c']))
    (hloc : T.locate T.root (hashesOf hash ods) = some f)
    (hcell : T.cell f (hash c).toNat = some (.directory g)) (hinfo : T.info g = some m)
    (hloc' : T.locate T.root (hashesOf hash nds) = some f') (hpre : ¬ ods ++ [c] <+: nds ++ [c']) :
    Simulates hash N (T.moveLayer f (hash c).toNat f' (hash c').toNat g
        (makeDirectoryMeta m.ref (hash c').toNat c'))
      (t.rename (ods ++ [c]) (nds ++ [c'])) where
  plain := hS.plain.moveLayer_plain hinj hold hnew hloc hcell hloc' hpre rfl rfl
  root := by
    rw [rename_node, if_neg (by simp), if_neg (by simp), hS.root]
  inUse := by
    intro ds hds
    rw [rename_node] at hds
    split_ifs at hds with h1 h2
    · obtain ⟨zs, rfl⟩ := h1
      have hzs := hS.inUse _ hds
      rw [List.drop_left] at hzs
      exact fun d hd => (List.mem_append.mp hd).elim (hnew d) fun h =>
        hzs d (List.mem_append_right _ h)
    · exact absurd rfl hds
    · exact hS.inUse ds hds
  find := by
    intro ds hds
    by_cases h1 : nds ++ [c'] <+: ds
    · obtain ⟨zs, rfl⟩ := h1
      rcases List.eq_nil_or_concat' zs with rfl | ⟨es, e, rfl⟩
      · -- the moved directory itself
        rw [List.append_nil, hS.plain.find_moveLayer_new hinj hold hnew hloc hcell hloc' hpre,
          lookup_concat]
        have hnode := node_rename_new t (ods ++ [c]) (nds ++ [c']) []
        rw [List.append_nil, List.append_nil, hS.node_directory hinj hold hloc hcell hinfo] at hnode
        rw [hnode]
        rfl
      · have huse : InUse N (ods ++ [c] ++ (es ++ [e])) := fun d hd =>
          (List.mem_append.mp hd).elim (hold d) fun h => hds d (List.mem_append_right _ h)
        rw [hS.plain.find_moveLayer_below hinj hold hnew hloc hcell hloc' hpre, hS.find _ huse,
          ← List.append_assoc, ← List.append_assoc, lookup_concat, lookup_concat,
          List.append_assoc _ es, List.append_assoc _ es, node_rename_new]
    · by_cases h2 : ods ++ [c] <+: ds
      · rw [hS.plain.find_moveLayer_old hinj hold hnew hloc hcell hloc' hpre hds h2 h1,
          lookup, rename_node, if_neg h1, if_pos h2]
        obtain ⟨zs, rfl⟩ := h2
        rw [if_neg (by simp)]
        rfl
      · rw [hS.plain.find_moveLayer hinj hold hnew hloc hcell hloc' hpre hds h2 h1,
          hS.find _ hds, lookup, lookup, node_rename_other h1 h2]

/-- A file that is created at a free path and removed from its own has moved there. -/
lemma rename_file {old new : List Bytes} {ref : InodeRef} (hold : t.node old = some (.file ref))
    (hnew : t.node new = none) (hnew0 : new ≠ []) :
    (t.set new (some (.file ref))).set old none = t.rename old new := by
  have hbelow : ∀ {cs zs : List Bytes}, cs ≠ [] → (∀ ref, t.node cs ≠ some (.directory ref)) →
    zs ≠ [] →
      t.node (cs ++ zs) = none := by
    intro cs zs h0 hdir hzs
    obtain ⟨d, ds, rfl⟩ := List.exists_cons_of_ne_nil hzs
    by_contra h1
    exact (hS.isDirectory_of_below hinj h1).elim h0 fun ⟨ref, h2⟩ => hdir ref h2
  have hold0 : old ≠ [] := by
    rintro rfl
    rw [hS.root] at hold
    cases hold
  have hne : old ≠ new := by
    rintro rfl
    rw [hnew] at hold
    cases hold
  refine congrArg NameTree.mk (funext fun ds => ?_)
  by_cases h1 : new <+: ds
  · rw [if_pos h1]
    obtain ⟨zs, rfl⟩ := h1
    rw [List.drop_left]
    by_cases hzs : zs = []
    · subst hzs
      simp [set, hold, Ne.symm hne]
    · have h2 : new ++ zs ≠ old := by
        rintro rfl
        rw [hbelow hnew0 (by simp [hnew]) hzs] at hold
        cases hold
      simp [set, h2, hzs, hbelow hnew0 (by simp [hnew]) hzs, hbelow hold0 (by simp [hold]) hzs]
  · rw [if_neg h1]
    have h2 : ds ≠ new := fun h0 => h1 (h0 ▸ List.prefix_rfl)
    by_cases h3 : old <+: ds
    · rw [if_pos h3]
      obtain ⟨zs, rfl⟩ := h3
      by_cases hzs : zs = []
      · simp [hzs]
      · simp [set, hzs, h2, hbelow hold0 (by simp [hold]) hzs]
    · have h4 : ds ≠ old := fun h0 => h3 (h0 ▸ List.prefix_rfl)
      simp [set, h2, h3, h4]

/-- **`rename_path` that returns true** for two paths has moved the node. -/
lemma renamePath {s s' : LhmNamespace} {G : Ghost} (hR : Represents s G T) {old new : List Bytes}
    (hold : InUse N old) (hnew : InUse N new) {oldPath newPath : Bytes}
    (ho : componentsOf oldPath = some old) (hn : componentsOf newPath = some new)
    (hne : old ≠ new) {fuel : ℕ} (hs : s.renamePath hash fuel oldPath newPath = some (true, s')) :
    t.node old ≠ none ∧ new ≠ [] ∧ ¬ old <+: new ∧ t.node new = none ∧
      ∃ G' T', Represents s' G' T' ∧ Simulates hash N T' (t.rename old new) := by
  have holdN := componentsOf_names ho
  have hnewN := componentsOf_names hn
  obtain ⟨hold0, hnew0, -, h2, e, hfind, hs⟩ :=
    (hR.renamePath_cases ho hn hs).resolve_left fun h0 =>
    hne (h0.2 rfl)
  obtain ⟨ods, c, rfl⟩ := (List.eq_nil_or_concat' old).resolve_left hold0
  obtain ⟨nds, c', rfl⟩ := (List.eq_nil_or_concat' new).resolve_left hnew0
  have hnode : t.node (ods ++ [c]) ≠ none := by
    intro h0
    rw [hS.find _ hold, lookup_concat, h0] at hfind
    cases hfind
  refine ⟨hnode, hnew0, h2, ?_⟩
  split_ifs at hs with h3
  · -- a directory
    obtain ⟨b, b', f, f', g, m, d', hM, -, -, -, hR'⟩ := hR.renameDirectory_true holdN hnewN hne hs
    obtain ⟨hloc, h4⟩ := Table.parentOf_concat_eq hM.source
    obtain ⟨hloc', rfl⟩ := Table.parentOf_concat_eq hM.target
    have hcell := hM.edge
    have hinfo := hM.info
    obtain ⟨G', hR'⟩ := hR' (hS.plain.below_ne hinj hold hnew hloc (h4 ▸ hcell) hloc' h2
      (show T.locate g [] = some g from rfl)).2.symm
    rw [h4] at hcell hR'
    exact ⟨(hS.node_none_iff hinj hnew hloc').mpr hM.free, G', _, hR',
      hS.moveLayer hinj hold hnew hloc hcell hinfo hloc' h2⟩
  · -- a file
    have hfound := hfind
    rw [Table.find_concat] at hfound
    obtain ⟨f, hloc, hlook⟩ := Option.bind_eq_some_iff.mp hfound
    obtain ⟨v, hcell, hfile⟩ : ∃ v, T.cell f (hash c).toNat = some (.value v) ∧ v.kind = .file := by
      have hc := (InUse.concat.mp hold).2
      cases hcell : T.cell f (hash c).toNat with
      | none =>
          rw [(hS.plain.lookup_none_iff hinj hc).mpr hcell] at hlook
          cases hlook
      | some d =>
          cases d with
          | value v => exact ⟨v, rfl, (hS.plain.value hcell).1⟩
          | directory g =>
              obtain ⟨m, -, -, -, h4⟩ := hS.plain.lookup_directory hinj hc hcell
              rw [h4] at hlook
              exact absurd (congrArg NamespaceEntry.kind (Option.some.inj hlook)).symm h3
    have hfree : T.find hash (nds ++ [c']) = none →
      ∀ f' d, T.parentOf hash (nds ++ [c']) = some (f', d) →
        T.cell f' (hash d).toNat = none := by
      intro h4 f' d h5
      obtain ⟨hloc', rfl⟩ := Table.parentOf_concat_eq h5
      rw [← hS.node_none_iff hinj hnew hloc', ← Option.map_eq_none_iff (f := entryOf d),
        ← lookup_concat, ← hS.find _ hnew, h4]
    obtain ⟨h4, h5, G', hR'⟩ :=
      hR.renameFile_true holdN hnewN hloc hcell (by simp [hfile]) (by simp [hfile])
      hfree hs
    rw [hfile] at h4 h5 hR'
    obtain ⟨hcan, -, hS₁⟩ :=
      (hS.create hinj hnew v.ref).resolve_right fun h0 => by simp [h0.2.1] at h4
    obtain ⟨-, -, hS₂⟩ := (hS₁.remove hinj hold).resolve_right fun h0 => by simp [h0.2.1] at h5
    refine ⟨hcan.2.2.2, G', _, hR', ?_⟩
    obtain ⟨ref, href⟩ := (hS.node_file_iff hinj hold hloc).mpr ⟨v, hcell⟩
    have hentry := hS.find _ hold
    rw [hfind, lookup_concat, href] at hentry
    obtain rfl : v.ref = ref := by
      rw [(hS.plain.lookup_value hinj (InUse.concat.mp hold).2 hcell).2.2] at hlook
      obtain rfl := Option.some.inj hlook
      exact congrArg NamespaceEntry.ref (Option.some.inj hentry)
    rwa [hS.rename_file hinj href hcan.2.2.2 (by simp)] at hS₂

end Simulates

end NameTree

end MasstreeLHM
