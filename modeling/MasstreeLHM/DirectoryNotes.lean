import MasstreeLHM.EdgeUpdates
import MasstreeLHM.Layers.Destroy
import MasstreeLHM.PathRuns
import MasstreeLHM.RootChains

/-!
# What directories are called

The metadata of a directory is in its current root, and every change of the root copies it.  A
history of the calls notes the name and the inode reference that each directory was given last; the
metadata agrees with these notes, unless a rename hangs a directory into itself and its root leaf
splits on the way.

`PathCall.note` looks only at the call, its answer and the pointers in the slots, so `Notes` are
independent of the metadata.  `MetadataNoted` compares both at every slot that leads to a layer.
`KeepsMovedRoot` is the condition on a rename, in the state before it.

On the table, `Table.Noted` has a rule for each kind of change: `keeps`, `addLayer` and `moveLayer`.
`LhmNamespace.Noted` is a state that stands for such a table; **`Noted.perform`** is one call and
`Noted.performNoting` the run.  The parent of a new path is found by its hashes, and that is how a
rename can hang a directory into itself: `moveIntoItself` does it.
-/

namespace MasstreeLHM

open LhmNamespace (initialState)

/-- Names and inode references of directories, by the pointers in their slots. -/
abbrev Notes := Ptr → Option (Bytes × InodeRef)

namespace PathCall

/-- The last name of a path. -/
def lastName (path : Bytes) : Bytes := ((componentsOf path).getD []).getLastD []

/-- What is noted at a call that leads from `s` to `s'`: `mkdir` that returns true gives a new
directory its name and inode reference, and a rename that returns true another name. -/
def note (hash : Bytes → UInt64) (s s' : LhmNamespace) (notes : Notes) : PathCall → Notes
  | basic (.mkdir path ref) =>
      if (s.mkdir hash path ref).map Prod.fst = some true then
        fun q => if s'.slotPointer hash path = some q then some (lastName path, ref) else notes q
      else notes
  | basic _ => notes
  | rename oldPath newPath fuel =>
      if (s.renamePath hash fuel oldPath newPath).map Prod.fst = some true ∧
          componentsOf oldPath ≠ componentsOf newPath then
        fun q => if s.slotPointer hash oldPath = some q then
          (notes q).map fun n => (lastName newPath, n.2) else notes q
      else notes

/-- Run calls one after another, with notes. -/
def performNoting (hash : Bytes → UInt64) : LhmNamespace → Notes → List PathCall →
    Option (LhmNamespace × Notes)
  | s, notes, [] => some (s, notes)
  | s, notes, call :: calls =>
      (call.perform hash s).bind fun s' => performNoting hash s' (call.note hash s s' notes) calls

lemma exists_performNoting {hash : Bytes → UInt64} : ∀ {calls : List PathCall} {s s' : LhmNamespace}
    (notes : Notes), performAll hash s calls = some s' →
    ∃ notes', performNoting hash s notes calls = some (s', notes')
  | [], s, s', notes, hs => by
      obtain rfl := Option.some.inj hs
      exact ⟨notes, rfl⟩
  | call :: calls, s, s', notes, hs => by
      rw [performAll, List.foldlM_cons] at hs
      obtain ⟨t, h1, hs⟩ := Option.bind_eq_some_iff.mp hs
      obtain ⟨notes', h2⟩ := exists_performNoting (call.note hash s t notes) hs
      exact ⟨notes', by rw [performNoting, h1]; exact h2⟩

end PathCall

namespace LhmNamespace

/-- **The metadata agrees with the notes**, at the current root that every layer slot leads to. -/
def MetadataNoted (hash : Bytes → UInt64) (s : LhmNamespace) (notes : Notes) : Prop :=
  ∀ a i q, s.DirectoryLeaf a → i < (s.heap.leaf a).size →
    (s.heap.slotAt a i).body.layerPointer = some q →
    ∃ r name ref, canonicalizeDirectoryRoot s.heap q = some r ∧ notes q = some (name, ref) ∧
      (s.heap.node r).directoryMeta = some ⟨ref, (s.heap.slotAt a i).ikey, name⟩ ∧
      (hash name).toNat = (s.heap.slotAt a i).ikey

/-- A rename that gets to the edge updates does not put the new edge into a full root leaf of the
directory that it moves. -/
def KeepsMovedRoot (hash : Bytes → UInt64) (s : LhmNamespace) : PathCall → Prop
  | .basic _ => True
  | .rename oldPath newPath _ => ∀ old new b b' r, parseAbsolutePath hash oldPath = some old →
      parseAbsolutePath hash newPath = some new → s.Attaches old new b b' r → b' = r →
      (s.heap.leaf r).size < namespaceTableParams.leafWidth

end LhmNamespace

/-! ## The notes on the table -/

/-- The table has the directories that are noted, each in one cell. -/
structure Table.Noted (hash : Bytes → UInt64) (notes : Notes) (T : Table) : Prop where
  tree : T.Tree
  kinds : T.FileKinds
  directory : ∀ {f x g}, T.cell f x = some (.directory g) →
    ∃ name ref, notes g = some (name, ref) ∧ T.info g = some ⟨ref, x, name⟩ ∧ (hash name).toNat = x

namespace Table.Noted

variable {hash : Bytes → UInt64} {notes : Notes} {T T' : Table} {f f' g : Ptr} {x x' : ℕ}

lemma initial : Table.initial.Noted hash fun _ => none :=
  ⟨⟨fun h => by simp [Table.initial] at h, fun _ _ h => by simp [Table.initial] at h⟩,
    ⟨fun h => by simp [Table.initial] at h, fun h => by simp [Table.initial] at h⟩,
    fun h => by simp [Table.initial] at h⟩

/-- Calls that leave the directories in their cells. -/
lemma keeps (h : T.Noted hash notes) (hK : T.Keeps T') (hT' : T'.FileKinds) :
    T'.Noted hash notes where
  tree := h.tree.keeps hK
  kinds := hT'
  directory := fun h0 => by
    rw [hK.info]
    exact h.directory (hK.cell h0)

/-- A new directory. -/
lemma addLayer (h : T.Noted hash notes) (hC : T.Closed) (hg : ¬ T.layers g)
    (ref : InodeRef) (c : Bytes) :
    ((T.addLayer g ⟨ref, (hash c).toNat, c⟩).setCell f (hash c).toNat (some (.directory g))).Noted
      hash
      fun q => if some g = some q then some (c, ref) else notes q where
  tree := by
    refine (h.tree.addLayer _).setCell fun b hb => ?_
    obtain rfl := Content.directory.inj (Option.some.inj hb)
    exact ⟨fun h0 => hg (h0 ▸ hC.root), fun a y h0 => absurd (hC.target h0) hg⟩
  kinds := FileKinds.setCell (T := T.addLayer g _) ⟨h.kinds.value, h.kinds.bucket⟩ (by simp)
  directory := by
    intro a y b h0
    rw [Table.setCell_cell] at h0
    split_ifs at h0 with h1
    · obtain rfl := Content.directory.inj (Option.some.inj h0)
      exact ⟨c, ref, if_pos rfl, by rw [h1.2]; exact if_pos rfl, h1.2.symm⟩
    · have hne : g ≠ b := by
        rintro rfl
        exact hg (hC.target h0)
      obtain ⟨name, ref', h2, h3, h4⟩ := h.directory h0
      exact ⟨name, ref', by rw [if_neg fun h5 => hne (Option.some.inj h5)]; exact h2,
        (if_neg (Ne.symm hne)).trans h3, h4⟩

/-- A directory in another cell. -/
lemma moveLayer (h : T.Noted hash notes) (hcell : T.cell f x = some (.directory g))
    {m : DirectoryMeta} (hm : T.info g = some m) (c : Bytes) :
    (T.moveLayer f x f' (hash c).toNat g (makeDirectoryMeta m.ref (hash c).toNat c)).Noted hash
      fun q => if some g = some q then (notes q).map fun n => (c, n.2) else notes q where
  tree := h.tree.moveLayer hcell _
  kinds := h.kinds.moveLayer _
  directory := by
    intro a y b h0
    rw [Table.moveLayer, Table.setCell_cell] at h0
    split_ifs at h0 with h1
    · obtain rfl := Content.directory.inj (Option.some.inj h0)
      obtain ⟨name, ref, h2, h3, -⟩ := h.directory hcell
      obtain rfl := Option.some.inj (hm.symm.trans h3)
      refine ⟨c, ref, by rw [if_pos rfl, h2]; rfl, by rw [h1.2]; exact if_pos rfl, h1.2.symm⟩
    · have hne : b ≠ g := by
        rintro rfl
        exact h.tree.dangling hcell a y h0
      have h0 : (T.setCell f x none).cell a y = some (.directory b) := h0
      rw [Table.setCell_cell] at h0
      split_ifs at h0 with h2
      obtain ⟨name, ref, h3, h4, h5⟩ := h.directory h0
      exact ⟨name, ref, by rw [if_neg fun h6 => hne (Option.some.inj h6).symm]; exact h3,
        (if_neg hne).trans h4, h5⟩

end Table.Noted

/-! ## The notes on the state -/

namespace LhmNamespace

variable {hash : Bytes → UInt64} {s s' : LhmNamespace} {notes : Notes}

/-- The state stands for a table that agrees with the notes. -/
def Noted (hash : Bytes → UInt64) (s : LhmNamespace) (notes : Notes) : Prop :=
  ∃ G T, Represents s G T ∧ T.Noted hash notes

lemma initialState_noted : initialState.Noted hash fun _ => none :=
  ⟨_, _, initialState_represents, .initial⟩

lemma lastName_concat {path : Bytes} {cs : List Bytes} {c : Bytes}
    (h : componentsOf path = some (cs ++ [c])) :
    PathCall.lastName path = c := by
  simp [PathCall.lastName, h]

/-- `mkdir`. -/
lemma Noted.mkdir (h : s.Noted hash notes) {path : Bytes} {ref : InodeRef} {ok : Bool}
    (hs : s.mkdir hash path ref = some (ok, s')) :
    s'.Noted hash ((PathCall.basic (.mkdir path ref)).note hash s s' notes) := by
  obtain ⟨G, T, hR, hN⟩ := h
  obtain ⟨p, hp, h1⟩ := Option.bind_eq_some_iff.mp hs
  obtain ⟨cs, hcs⟩ := exists_components hp
  have hnames := componentsOf_names hcs
  obtain rfl : ParsedPath.of hash cs = p := by
    rw [parse_eq, hcs] at hp
    exact Option.some.inj hp
  obtain ⟨t, G', g, h2, hg, hR', -⟩ := hR.createDirectory_spec hash hnames ref
  obtain ⟨rfl, rfl⟩ := Prod.mk.inj (Option.some.inj (h1.symm.trans h2))
  simp only [PathCall.note, hs, Option.map_some, Option.some_inj]
  rcases List.eq_nil_or_concat' cs with rfl | ⟨ds, c, rfl⟩
  · exact ⟨G', _, hR', hN⟩
  cases hloc : T.locate T.root (hashesOf hash ds) with
  | none =>
      have hT : T.mkdir hash (ds ++ [c]) ref g = (false, T) := by
        rw [Table.mkdir, Table.parentOf_concat, hloc]
        rfl
      rw [hT] at hR' ⊢
      exact ⟨G', _, hR', hN⟩
  | some f =>
      by_cases h3 : entryNameFits c ∧ T.cell f (hash c).toNat = none
      · have hT : T.mkdir hash (ds ++ [c]) ref g = (true,
            (T.addLayer g (makeDirectoryMeta ref (hash c).toNat c)).setCell f (hash c).toNat
              (some (.directory g))) := by
          rw [Table.mkdir, Table.parentOf_concat, hloc]
          exact if_pos h3
        rw [hT] at hR' ⊢
        simp only at hR'
        -- the slot of the new directory keeps the new layer
        have hlocate : ∀ ys a, (T.addLayer g (makeDirectoryMeta ref (hash c).toNat c)).locate a ys
            = T.locate a ys := Table.locate_congr fun _ _ _ => Iff.rfl
        have hself :=
          (hN.tree.addLayer (g := g) (makeDirectoryMeta ref (hash c).toNat c)).locate_setCell_self
          (x := (hash c).toNat) (o := some (.directory g))
            ((hlocate (hashesOf hash ds) T.root).trans hloc)
        have hslot : s'.slotPointer hash path = some g :=
          hR'.slotPointer_cell hcs hself (Table.setCell_same ..)
        rw [if_pos rfl, hslot, lastName_concat hcs]
        exact ⟨G', _, hR', hN.addLayer hR.closed hg ref c⟩
      · have hT : T.mkdir hash (ds ++ [c]) ref g = (false, T) := by
          rw [Table.mkdir, Table.parentOf_concat, hloc]
          exact if_neg h3
        rw [hT] at hR' ⊢
        exact ⟨G', _, hR', hN⟩

/-- A rename that returns true. -/
lemma Noted.renamePath (h : s.Noted hash notes) {oldPath newPath : Bytes} {fuel : ℕ}
    (hroom : s.KeepsMovedRoot hash (.rename oldPath newPath fuel))
    (hs : s.renamePath hash fuel oldPath newPath = some (true, s')) :
    s'.Noted hash ((PathCall.rename oldPath newPath fuel).note hash s s' notes) := by
  obtain ⟨p, hp, h1⟩ := Option.bind_eq_some_iff.mp hs
  obtain ⟨q, hq, -⟩ := Option.bind_eq_some_iff.mp h1
  obtain ⟨old, ho⟩ := exists_components hp
  obtain ⟨new, hn⟩ := exists_components hq
  have hold := componentsOf_names ho
  have hnew := componentsOf_names hn
  simp only [PathCall.note, hs, Option.map_some, ho, hn, true_and, ne_eq, Option.some_inj]
  obtain ⟨G, T, hR, hN⟩ := h
  rcases hR.renamePath_cases ho hn hs with ⟨rfl, h2⟩ | ⟨hold0, hnew0, hne, -, e, hfind, hs'⟩
  · rw [if_neg fun h0 => h0 (h2 rfl)]
    exact ⟨G, T, hR, hN⟩
  rw [if_pos hne]
  obtain ⟨ods, c, rfl⟩ := (List.eq_nil_or_concat' old).resolve_left hold0
  obtain ⟨nds, c', rfl⟩ := (List.eq_nil_or_concat' new).resolve_left hnew0
  split_ifs at hs' with hk
  · obtain ⟨b, b', f, f', g, m, d', hM, hA, htop, hmove, -⟩ :=
      hR.renameDirectory_true hold hnew hne hs'
    obtain ⟨hloc, hname⟩ := Table.parentOf_concat_eq hM.source
    obtain ⟨hloc', rfl⟩ := Table.parentOf_concat_eq hM.target
    have hkeeps : f' ≠ g ∨ (s.heap.leaf g).size < 7 := by
      by_cases hself : f' = g
      · refine Or.inr (hroom _ _ b b' g (by rw [parse_eq, ho]; rfl)
          (by rw [parse_eq, hn]; rfl) hA ?_)
        -- the new parent directory is the moved one, so its root is the leaf `g`
        have hnds : ∀ d ∈ nds, IsName d := fun d hd => hnew d (List.mem_append_left _ hd)
        obtain ⟨o, h3, -, -, h4⟩ := hR.locateDirectoryRoot_eq hash hnds
        have h5 := hA.newParent
        rw [ParsedPath.of_parent hnds (hnew _ (by simp)), h3] at h5
        obtain rfl := Option.some.inj h5
        have hnds0 : nds ≠ [] := by
          rintro rfl
          obtain rfl := Option.some.inj hloc'
          exact hN.tree.root _ _
            (hM.edge.trans (congrArg (fun b => some (Content.directory b)) hself.symm))
        rw [h4 hnds0 b' rfl, hM.targetAnchor.fam, hself, htop]
      · exact Or.inl hself
    obtain ⟨-, G', hR'⟩ := hR.moveEdge_moves hM htop hkeeps hmove
    have hslot : s.slotPointer hash oldPath = some g := by
      have h3 := hM.edge
      rw [hname] at h3
      exact hR.slotPointer_cell ho hloc h3
    rw [hslot, lastName_concat hn]
    exact ⟨G', _, hR', hN.moveLayer hM.edge hM.info d'⟩
  · obtain ⟨f, v, hloc, hcell⟩ := Table.find_value hfind hk
    have hslot : s.slotPointer hash oldPath = none := hR.slotPointer_cell ho hloc hcell
    rw [hslot]
    obtain ⟨G', T', hR', hT', hK⟩ := hR.renameFile_keeps hN.kinds hold hnew hfind hk hs'
    exact ⟨G', T', hR', hN.keeps hK hT'⟩

/-- **Every call keeps the notes**, if a rename succeeds and keeps the root of what it moves. -/
lemma Noted.perform (h : s.Noted hash notes) {call : PathCall} (hsucc : call.Succeeds hash s)
    (hroom : s.KeepsMovedRoot hash call) (hs : call.perform hash s = some s') :
    s'.Noted hash (call.note hash s s' notes) := by
  cases call with
  | rename oldPath newPath fuel =>
      obtain ⟨t, ht⟩ := hsucc
      obtain ⟨r, h1, rfl⟩ := Option.map_eq_some_iff.mp hs
      obtain rfl := Option.some.inj (h1.symm.trans ht)
      exact h.renamePath hroom ht
  | basic call =>
      obtain ⟨⟨x, r⟩, h1, rfl⟩ := Option.map_eq_some_iff.mp hs
      obtain ⟨cs, hcs⟩ := call.exists_components h1
      cases call with
      | mkdir path ref =>
          obtain ⟨⟨ok, t⟩, h2, h3⟩ := Option.map_eq_some_iff.mp h1
          obtain rfl : t = r := congrArg Prod.snd h3
          exact h.mkdir h2
      | creatFile path ref =>
          obtain ⟨G, T, hR, hN⟩ := h
          obtain ⟨t, G', g, h2, -, hR'⟩ := hR.perform hash hcs
          obtain ⟨-, rfl⟩ := Prod.mk.inj (Option.some.inj (h2.symm.trans h1))
          obtain ⟨hK, hT'⟩ := hN.kinds.create hash cs ref
          exact ⟨G', _, hR', hN.keeps hK hT'⟩
      | removePath path =>
          obtain ⟨G, T, hR, hN⟩ := h
          obtain ⟨t, G', g, h2, -, hR'⟩ := hR.perform hash hcs
          obtain ⟨-, rfl⟩ := Prod.mk.inj (Option.some.inj (h2.symm.trans h1))
          obtain ⟨hK, hT'⟩ := hN.kinds.remove hash cs
          exact ⟨G', _, hR', hN.keeps hK hT'⟩
      | lookupEntry path =>
          obtain ⟨e, -, h2⟩ := Option.map_eq_some_iff.mp h1
          obtain rfl : s = r := congrArg Prod.snd h2
          exact h

lemma Noted.performNoting : ∀ {calls : List PathCall} {s s' : LhmNamespace} {notes notes' : Notes},
    s.Noted hash notes → PathCall.EachStep (fun s call => call.Succeeds hash s) hash s calls →
    PathCall.EachStep (fun s call => s.KeepsMovedRoot hash call) hash s calls →
    PathCall.performNoting hash s notes calls = some (s', notes') → s'.Noted hash notes'
  | [], s, s', notes, notes', h, _, _, hs => by
      obtain ⟨rfl, rfl⟩ := Prod.mk.inj (Option.some.inj hs)
      exact h
  | call :: calls, s, s', notes, notes', h, hsucc, hroom, hs => by
      obtain ⟨t, h1, hs⟩ := Option.bind_eq_some_iff.mp hs
      exact (h.perform hsucc.1 hroom.1 h1).performNoting (hsucc.2 t h1) (hroom.2 t h1) hs

/-- The metadata of the table is in the roots that the slots lead to. -/
lemma Noted.metadataNoted (h : s.Noted hash notes) : s.MetadataNoted hash notes := by
  obtain ⟨G, T, hR, hN⟩ := h
  rintro a i q ⟨r, hlt, hstart, hleaf⟩ hi hq
  obtain ⟨c, h1, h2⟩ := hR.cell_slotAt ⟨hlt, hstart, rfl⟩ hleaf hi
  rw [h1] at hq
  obtain rfl := Content.layerPointer_encode hq
  obtain ⟨name, ref, h3, h4, h5⟩ := hN.directory h2
  have hlay := hR.target _ _ _ h2
  obtain ⟨hlt', hfam⟩ := (hR.layers q).mp hlay
  have hcanon := hR.heap.tree.canonicalizeDirectoryRoot_eq (hR.known hlt')
  rw [hfam] at hcanon
  exact ⟨G.top q, name, ref, hcanon, h3, (hR.info q hlay).symm.trans h4, h5⟩

end LhmNamespace

/-- **The metadata follows the directories**: in every run whose renames return true and keep the
root leaf of a directory that is hung into itself, every layer slot leads to a root with the hash of
the slot, the current name of the directory and the inode reference that `mkdir` was given. -/
theorem metadata_follows_directories (hash : Bytes → UInt64) (calls : List PathCall)
    (hsucc : PathCall.EachStep (fun s call => call.Succeeds hash s) hash initialState calls)
    (hroom : PathCall.EachStep (fun s call => s.KeepsMovedRoot hash call) hash initialState calls)
    {s : LhmNamespace} {notes : Notes}
    (hs : PathCall.performNoting hash initialState (fun _ => none) calls = some (s, notes)) :
    s.MetadataNoted hash notes :=
  (LhmNamespace.initialState_noted.performNoting hsucc hroom hs).metadataNoted

/-! ## Two renames -/

/-- A new parent directory whose root leaf has room. -/
lemma LhmNamespace.keepsMovedRoot_of_leaf {hash : Bytes → UInt64} {s : LhmNamespace}
    {oldPath newPath : Bytes} {fuel k : ℕ}
    (h : ((parseAbsolutePath hash newPath).bind fun p => s.locateDirectoryRoot p.parent)
      = some (some k)) (hk : (s.heap.leaf k).size < namespaceTableParams.leafWidth) :
    s.KeepsMovedRoot hash (.rename oldPath newPath fuel) := by
  rintro old new b b' r - hnew hA rfl
  rw [hnew, Option.bind_some, hA.newParent] at h
  obtain rfl := Option.some.inj (Option.some.inj h)
  exact hk

/-- The directory `d` is renamed to `e`. -/
def directoryMove : List PathCall :=
  [.basic (.mkdir [47, 100] ⟨1, 1⟩), .rename [47, 100] [47, 101] 0]

/-- The note of the directory's layer has the new name, and the old inode. -/
theorem metadata_follows_directoryMove : ∃ s notes,
    PathCall.performNoting hashComponent initialState (fun _ => none) directoryMove =
      some (s, notes) ∧
      notes 1 = some ([101], ⟨1, 1⟩) ∧ s.MetadataNoted hashComponent notes := by
  have hrun : ((PathCall.performNoting hashComponent initialState (fun _ => none) directoryMove).map
      fun r => r.2 1) = some (some ([101], ⟨1, 1⟩)) := by decide +kernel
  have hmove : ((initialState.mkdir hashComponent [47, 100] ⟨1, 1⟩).bind fun r =>
      (r.2.renamePath hashComponent 0 [47, 100] [47, 101]).map fun r' => (r'.1,
        (parseAbsolutePath hashComponent [47, 101]).bind fun p => r.2.locateDirectoryRoot p.parent,
        (r.2.heap.leaf 0).size)) = some (true, some (some 0), 1) := by decide +kernel
  obtain ⟨⟨s, notes⟩, hs, hnotes⟩ := Option.map_eq_some_iff.mp hrun
  obtain ⟨r, h1, h2⟩ := Option.bind_eq_some_iff.mp hmove
  obtain ⟨r', h3, h4⟩ := Option.map_eq_some_iff.mp h2
  obtain ⟨h5, h6⟩ := Prod.mk.inj h4
  obtain ⟨h7, h8⟩ := Prod.mk.inj h6
  have hfirst : ∀ t, (PathCall.basic (.mkdir [47, 100] ⟨1, 1⟩)).perform hashComponent initialState =
    some t →
      t = r.2 := by
    intro t ht
    simpa [PathCall.perform, BasicCall.perform, h1, eq_comm] using ht
  refine ⟨s, notes, hs, hnotes, metadata_follows_directories hashComponent directoryMove
    ⟨trivial, fun t ht => ⟨?_, fun _ _ => trivial⟩⟩ ⟨trivial,
      fun t ht => ⟨?_, fun _ _ => trivial⟩⟩ hs⟩
  · obtain rfl := hfirst t ht
    exact ⟨r'.2, by rw [h3, ← h5]⟩
  · obtain rfl := hfirst t ht
    exact LhmNamespace.keepsMovedRoot_of_leaf h7 (by rw [h8]; decide)

/-- A directory with seven files. -/
def fullDirectory : List PathCall :=
  .basic (.mkdir (joinPath [collidingName]) ⟨1, 1⟩) ::
    (List.range 7).map fun k =>
      .basic (.creatFile (joinPath [collidingName, [UInt8.ofNat (49 + k)]]) ⟨1, 2⟩)

/-- The directory is renamed to a path whose parent directory has a name with its own hash. -/
def moveIntoItself : List PathCall :=
  fullDirectory ++ [.rename (joinPath [collidingName]) (joinPath [collidingName', [120]]) 0]

/-- The parent of the new path is found by its hash, and that is the directory itself.  The layer
then hangs in itself, under a hash that is not the one of its metadata. -/
theorem not_metadata_follows_moveIntoItself :
    ¬ ∀ (calls : List PathCall) (s : LhmNamespace) (notes : Notes),
    PathCall.EachStep (fun s call => call.Succeeds hashComponent s) hashComponent
      initialState calls →
    PathCall.performNoting hashComponent initialState (fun _ => none) calls = some (s, notes) →
    s.MetadataNoted hashComponent notes := by
  intro hall
  have hrun : ((PathCall.performAll hashComponent initialState moveIntoItself).map fun s =>
      decide (3 < s.heap.size ∧ (s.heap.node 3).isLeaf = false ∧
        reachLeaf s.heap 3 (hashComponent [120]).toNat = some 2 ∧ 0 < (s.heap.leaf 2).size ∧
        (s.heap.slotAt 2 0).body.layerPointer = some 1 ∧
        canonicalizeDirectoryRoot s.heap 1 = some 3 ∧
        (s.heap.node 3).directoryMeta.map DirectoryMeta.componentHash ≠
        some (s.heap.slotAt 2 0).ikey))
      = some true := by decide +kernel
  have hlast : ((PathCall.performAll hashComponent initialState fullDirectory).bind fun s =>
      (s.renamePath hashComponent 0 (joinPath [collidingName])
        (joinPath [collidingName', [120]])).map Prod.fst)
      = some true := by decide +kernel
  obtain ⟨s, hs, hstate⟩ := Option.map_eq_some_iff.mp hrun
  obtain ⟨h1, h2, h3, h4, h5, h6, h7⟩ := of_decide_eq_true hstate
  obtain ⟨notes, hnotes⟩ := PathCall.exists_performNoting (fun _ => none) hs
  have hsucc : PathCall.EachStep (fun s call => call.Succeeds hashComponent s)
    hashComponent initialState
      moveIntoItself := by
    refine PathCall.EachStep.append (PathCall.EachStep.of_forall fun call hcall t => ?_) fun t ht =>
      ⟨?_, fun _ _ =>
      trivial⟩
    · obtain rfl | hcall := List.mem_cons.mp hcall
      · trivial
      · obtain ⟨k, -, rfl⟩ := List.mem_map.mp hcall
        trivial
    · rw [ht, Option.bind_some] at hlast
      obtain ⟨⟨ok, t'⟩, h8, rfl⟩ := Option.map_eq_some_iff.mp hlast
      exact ⟨t', h8⟩
  have hstart : (s.heap.node 3).startable := by
    cases hn : s.heap.node 3 with
    | internode m => trivial
    | leaf l => simp [hn] at h2
  obtain ⟨r, name, ref, h8, -, h9, -⟩ :=
    hall _ s notes hsucc hnotes 2 0 1 ⟨3, h1, hstart, .reach h3⟩ h4 h5
  obtain rfl := Option.some.inj (h6.symm.trans h8)
  rw [h9] at h7
  exact h7 rfl

end MasstreeLHM
