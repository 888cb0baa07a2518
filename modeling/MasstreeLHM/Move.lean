import MasstreeLHM.Layers.Metadata
import MasstreeLHM.Update
import MasstreeLHM.Rename

/-!
# Moving a directory

`rename_path` of a directory on the abstract table.  The layer is hung into the new parent, its
metadata is rewritten, and the old edge is removed; when the edge still points at the current root
of the layer, the operations on the heap do the same.

The source holds pointers to the roots of both parents while it changes the tree below them.  An
`Anchor` is a node at which a cursor may start now and after other operations; `anchor_top` and
`locate_anchor` say that the roots it has found are anchors, and `Anchor.frame` that they stay so.

`Attaches` are all the checks that come before the first change, and `renameDirectory_cases` says
that up to there nothing happens.  Behind it are the two edge updates, `attach` and `detach`.
**`renameDirectory_spec`** is a move that works.  **`renameDirectory_refused`** is what is left
behind when the old edge does not point at the current root of the layer: the new edge is there, and
the old one stays.
-/

namespace MasstreeLHM

open LhmNamespace (insertLayer)

namespace Represents

variable {s : LhmNamespace} {G : Ghost} {T : Table} {a f g : Ptr} {x : ℕ}

/-- Rewriting the metadata of a layer. -/
lemma setMeta (hR : Represents s G T) (hg : T.layers g) (m : DirectoryMeta) :
    Represents { s with heap := s.heap.setMeta (G.top g) m } G (T.setInfo g m) := by
  refine ⟨hR.heap.setMeta, hR.not_gone, hR.root_lt, ?_, hR.root_fam, hR.layers, ?_,
    ?_, hR.target, ?_, hR.bucket, hR.nextId⟩
  · intro h0
    simp only at h0
    rw [SameShape.setMeta.isLeaf] at h0
    exact hR.root_leaf h0
  · exact fun f sl h0 => hR.encoded f sl ((entry_setMeta f sl).mp h0)
  · exact fun f x c => (hR.cell f x c).trans (entry_setMeta f _).symm
  · intro f hf
    change (if f = g then some m else T.info f) = _
    by_cases hfg : f = g
    · simp [hfg, Heap.setMeta]
    · -- different layers have different roots
      have hne : G.top f ≠ G.top g := by
        intro h0
        obtain ⟨hlt, hfam⟩ := (hR.layers f).mp hf
        obtain ⟨hlt', hfam'⟩ := (hR.layers g).mp hg
        have h1 := (hR.heap.tree.top_spec (hR.known hlt)).2.2.1
        have h2 := (hR.heap.tree.top_spec (hR.known hlt')).2.2.1
        rw [hfam] at h1
        rw [hfam'] at h2
        exact hfg (h1.symm.trans ((congrArg G.fam h0).trans h2))
      rw [if_neg hfg, hR.info f hf]
      simp [Heap.setMeta, hne]

/-! ## Pointers that stay good -/

/-- A root that is a leaf is the leftmost leaf of its layer. -/
lemma top_leaf (hR : Represents s G T) (hf : T.layers f)
    (hleaf : (s.heap.node (G.top f)).isLeaf = true) : G.top f = f := by
  obtain ⟨hlt, hfam⟩ := (hR.layers f).mp hf
  have hT := hR.heap.tree
  obtain ⟨h1, -, h3, h4, h5, h6⟩ := hT.top_spec (hR.known hlt)
  rw [hfam] at h1 h3 h4 h5 h6
  have h6 : G.hi (G.top f) = ikeyLimit := h6
  obtain ⟨g1, -, g3⟩ := hT.fam_spec (hR.known hlt)
  rw [hfam] at g1 g3
  have hrange := hT.range g1
  exact hT.leaf_unique h1 g1 hleaf g3 (by rw [h3, hfam]) (x := G.lo f) ⟨by omega, by omega⟩
    ⟨le_rfl, hrange.1⟩

/-- A node of layer `f` that is the leftmost leaf if it is a leaf: a cursor may start at it now and
after other operations. -/
structure Anchor (s : LhmNamespace) (G : Ghost) (a f : Ptr) : Prop where
  known : G.Known s.heap a
  leaf : (s.heap.node a).isLeaf = true → a = f
  fam : G.fam a = f

lemma Anchor.start (hA : Anchor s G a f) (hI : HeapInv namespaceTableParams byIkey s.heap G) :
    (s.heap.node a).startable := by
  cases hn : s.heap.node a with
  | internode n => trivial
  | leaf l =>
      obtain rfl := hA.leaf (by rw [hn]; rfl)
      have hlive := (hI.tree.fam_spec hA.known).1
      rw [hA.fam] at hlive
      exact (hI.leaves a { l with parent := none } hlive (by rw [hn]; rfl)).first.mpr hA.fam

lemma Anchor.handle (hA : Anchor s G a f) (hR : Represents s G T) : Handle s G a f :=
  hA.fam ▸ hR.handle_of_leaf hA.known.1 fun h0 => hA.fam.trans (hA.leaf h0).symm

lemma Anchor.frame (hA : Anchor s G a f) {h' : Heap Cell} {G' : Ghost}
    (hF : Frame s.heap G h' G') : Anchor { s with heap := h' } G' a f :=
  ⟨hF.known hA.known, fun h0 => hA.leaf ((hF.isLeaf a hA.known.1).symm.trans h0),
    (hF.fam a hA.known.1).trans hA.fam⟩

lemma anchor_root (hR : Represents s G T) : Anchor s G s.root T.root :=
  ⟨hR.known hR.root_lt, fun h0 => (hR.root_leaf h0).symm.trans hR.root_fam, hR.root_fam⟩

lemma anchor_top (hR : Represents s G T) (hf : T.layers f) : Anchor s G (G.top f) f :=
  ⟨hR.known (hR.handle_top hf).lt, hR.top_leaf hf, (hR.handle_top hf).fam⟩

variable {hash : Bytes → UInt64} {cs : List Bytes}

/-- The directory that `locate_directory_root` finds. -/
lemma locate_anchor (hR : Represents s G T) (hcs : ∀ c ∈ cs, IsName c) :
    ∃ o, s.locateDirectoryRoot (ParsedPath.of hash cs) = some o ∧
      o.map G.fam = T.locate T.root (hashesOf hash cs) ∧ ∀ b ∈ o, Anchor s G b (G.fam b) := by
  obtain ⟨o, h1, h2, h3, h4⟩ := hR.locateDirectoryRoot_eq hash hcs
  refine ⟨o, h1, h2, fun b hb => ?_⟩
  by_cases h0 : cs = []
  · subst h0
    rw [LhmNamespace.locateDirectoryRoot, if_pos (by simp [joinPath])] at h1
    obtain rfl : some s.root = o := Option.some.inj h1
    obtain rfl := Option.some.inj hb
    exact hR.root_fam ▸ hR.anchor_root
  · have htop := hR.anchor_top (hR.layers_of_fam (h3 b hb).lt)
    rwa [← h4 h0 b hb] at htop

/-! ## The two edges -/

/-- **`attach_existing_layer`** at an empty cell. -/
lemma attach (hR : Represents s G T) (ha : Anchor s G a f) (hx : x < ikeyLimit)
    (hc : T.cell f x = none) (hg : T.layers g) :
    ∃ h' G', insertLayer s.heap a x (fun h => (g, h)) = some (true, h') ∧
      Represents { s with heap := h' } G' (T.setCell f x (some (.directory g))) ∧
      Frame s.heap G h' G' ∧ ∀ b, b ≠ f → G'.top b = G.top b := by
  obtain ⟨cur, l, h1, h2, hS⟩ := hR.findEdge_miss (ha.handle hR) hx hc
  obtain ⟨h₁, G₁, pos, l', heq, hR₁, hF, htop, hroom⟩ := hR.makeRoom hS
  have hR₂ := hR₁.fill (.directory g) hroom hc (fun b hb => Content.directory.inj hb ▸ hg)
  obtain ⟨-, hF₂, -⟩ := finishInsert_layer hR₁.heap hroom (fun t ht => hR₁.entry_of_none hc ht)
    (show (⟨x, (Content.directory g).encode⟩ : Slot Cell).ikey = x from rfl)
  refine ⟨_, G₁, ?_, hR₂, hF.trans hF₂, htop⟩
  simp only [insertLayer, h1, h2, heq, Option.bind_eq_bind, Option.bind_some]
  rfl

/-- An occupied cell is left alone. -/
lemma attach_occupied (hR : Represents s G T) (ha : Anchor s G a f) {c : Content}
    (hc : T.cell f x = some c) (layer : Heap Cell → Ptr × Heap Cell) :
    insertLayer s.heap a x layer = some (false, s.heap) := by
  obtain ⟨cur, l, p, h1, h2, -⟩ := hR.findEdge_hit (ha.handle hR) hc
  simp [insertLayer, h1, h2]

/-- Removing an edge that points at `g`. -/
lemma detach (hR : Represents s G T) (ha : Anchor s G a f)
    (hc : T.cell f x = some (.directory g)) :
    ∃ s' G', s.detachEdge a x g = some (true, s') ∧ Represents s' G' (T.setCell f x none) := by
  obtain ⟨cur, l, p, h1, h2, hS, hs, -, -, h6⟩ := hR.findEdge_hit (ha.handle hR) hc
  obtain ⟨h', G', heq, hR'⟩ := hR.empty hS hc hs
  refine ⟨_, G', ?_, hR'⟩
  have hlay : (Content.directory g).encode.lv.layer? = some g := rfl
  simp only [LhmNamespace.detachEdge, h1, h2, h6, ksufMatches_directory, hlay, heq,
    Option.bind_eq_bind, Option.bind_some]
  rw [if_neg (by decide), if_neg (by simp)]
  rfl

end Represents

/-! ## Renaming a directory -/

/-- **The checks of `rename_directory_o1_from_parsed`**, up to the first edge update: `b` and `b'`
are the roots of the parent directories, `r` is the current root of the directory at `old`, and the
slot for `new` is free. -/
structure LhmNamespace.Attaches (s : LhmNamespace) (old new : ParsedPath) (b b' r : Ptr) :
    Prop where
  old_ne : old.normalizedPath ≠ [slash]
  new_ne : new.normalizedPath ≠ [slash]
  differ : old.normalizedPath ≠ new.normalizedPath
  outside : isPrefixPath old.normalizedPath new.normalizedPath = false
  fits : entryNameFits new.name = true
  oldParent : s.locateDirectoryRoot old.parent = some (some b)
  newParent : s.locateDirectoryRoot new.parent = some (some b')
  edge : LhmNamespace.lookupDirectoryEdgeFromParentRoot s.heap b old.name old.hash = some (some r)
  free : lookupChildSlotFromParentRoot s.heap b' new.hash = some .missing

/-- `rename_path` of a directory: the layer gets a new edge and new metadata, and loses its old
edge. -/
def Table.moveDirectory (T : Table) (hash : Bytes → UInt64) (old new : List Bytes) : Bool × Table :=
  if old = [] ∨ new = [] then (false, T)
  else if old = new then (true, T)
  else if old <+: new then (false, T)
  else if !entryNameFits (new.getLastD []) then (false, T)
  else
    match T.parentOf hash old, T.parentOf hash new with
    | some (f, c), some (f', c') =>
        match T.cell f (hash c).toNat with
        | some (.directory g) =>
            match T.info g with
            | some m =>
                if m.name = c ∧ T.cell f' (hash c').toNat = none then
                  (true, (((T.setCell f' (hash c').toNat (some (.directory g))).setInfo g
                    (makeDirectoryMeta m.ref (hash c').toNat c')).setCell f (hash c).toNat none))
                else (false, T)
            | none => (false, T)
        | _ => (false, T)
    | _, _ => (false, T)

namespace Represents

variable {s : LhmNamespace} {G : Ghost} {T : Table} {hash : Bytes → UInt64} {old new : List Bytes}

/-- The parent directory of a path and the cell of its last name. -/
lemma parent_anchor (hR : Represents s G T) {cs : List Bytes} (hcs : ∀ c ∈ cs, IsName c)
    (hne : cs ≠ []) : ∃ c, cs.getLastD [] = c ∧ (ParsedPath.of hash cs).name = c ∧
      (ParsedPath.of hash cs).hash = (hash c).toNat ∧
      ((s.locateDirectoryRoot (ParsedPath.of hash cs).parent = some none ∧
        T.parentOf hash cs = none) ∨
       ∃ b f, s.locateDirectoryRoot (ParsedPath.of hash cs).parent = some (some b) ∧
        T.parentOf hash cs = some (f, c) ∧ Anchor s G b f) := by
  rcases List.eq_nil_or_concat' cs with rfl | ⟨ds, c, rfl⟩
  · exact absurd rfl hne
  have hds : ∀ d ∈ ds, IsName d := fun d hd => hcs d (by simp [hd])
  refine ⟨c, by simp, by simp, by simp, ?_⟩
  obtain ⟨o, h1, h2, h3⟩ := hR.locate_anchor hds
  rw [ParsedPath.of_parent hds (hcs c (by simp)), h1, Table.parentOf_concat, ← h2]
  cases o with
  | none => exact Or.inl ⟨rfl, rfl⟩
  | some b => exact Or.inr ⟨b, G.fam b, rfl, rfl, h3 b rfl⟩

/-- The two edge updates of `rename_directory_o1_from_parsed`, with the rewriting of the metadata
between them. -/
def moveEdge (s : LhmNamespace) (b b' : Ptr) (x x' : ℕ) (name' : Bytes) (childRoot : Ptr) :
    Option (Bool × LhmNamespace) :=
  (insertLayer s.heap b' x' fun h => (childRoot, h)).bind fun r =>
    if !r.1 then some (false, s)
    else
      match (r.2.node childRoot).directoryMeta with
      | none => some (false, { s with heap := r.2 })
      | some m =>
          LhmNamespace.detachEdge
            { s with heap := r.2.setMeta childRoot (makeDirectoryMeta m.ref x' name') } b x
              childRoot

/-- The cells and the directories of a move. -/
structure Movable (s : LhmNamespace) (G : Ghost) (T : Table) (hash : Bytes → UInt64)
    (old new : List Bytes) (b b' f f' g : Ptr) (m : DirectoryMeta) (c' : Bytes) : Prop where
  source : T.parentOf hash old = some (f, m.name)
  target : T.parentOf hash new = some (f', c')
  sourceAnchor : Anchor s G b f
  targetAnchor : Anchor s G b' f'
  edge : T.cell f (hash m.name).toNat = some (.directory g)
  info : T.info g = some m
  free : T.cell f' (hash c').toNat = none

/-- The two edges are different cells. -/
lemma Movable.cell_ne {b b' f f' g : Ptr} {m : DirectoryMeta} {c' : Bytes}
    (hM : Movable s G T hash old new b b' f f' g m c') :
    ¬ (f = f' ∧ (hash m.name).toNat = (hash c').toNat) := by
  rintro ⟨h0, h1⟩
  have hfree := hM.free
  rw [← h0, ← h1, hM.edge] at hfree
  cases hfree

/-- **Up to the two edge updates** `rename_path` of a directory only looks. -/
lemma renameDirectory_cases (hR : Represents s G T) (hold : ∀ c ∈ old, IsName c)
    (hnew : ∀ c ∈ new, IsName c) :
    (∃ r, T.moveDirectory hash old new = (r, T) ∧ (r = true → old = new) ∧
        s.renameDirectoryO1FromParsed (ParsedPath.of hash old) (ParsedPath.of hash new)
          = some (r, s)) ∨
      ∃ b b' f f' g m c', Movable s G T hash old new b b' f f' g m c' ∧
        s.Attaches (ParsedPath.of hash old) (ParsedPath.of hash new) b b' (G.top g) ∧
        T.moveDirectory hash old new
          = (true, (((T.setCell f' (hash c').toNat (some (.directory g))).setInfo g
              (makeDirectoryMeta m.ref (hash c').toNat c')).setCell f (hash m.name).toNat none)) ∧
        s.renameDirectoryO1FromParsed (ParsedPath.of hash old) (ParsedPath.of hash new)
          = moveEdge s b b' (hash m.name).toNat (hash c').toNat c' (G.top g) := by
  have hjoin : joinPath old = joinPath new ↔ old = new :=
    ⟨joinPath_inj hold hnew, fun h0 => h0 ▸ rfl⟩
  have hprefix := isPrefixPath_joinPath hold hnew
  rw [LhmNamespace.renameDirectoryO1FromParsed, Table.moveDirectory]
  simp only [ParsedPath.of_normalizedPath, ParsedPath.of_components, joinPath_eq_slash hold,
    joinPath_eq_slash hnew, isPrefixPath_joinPath hold hnew, hjoin]
  by_cases h1 : old = [] ∨ new = []
  · rw [if_pos h1, if_pos h1]
    exact Or.inl ⟨false, rfl, by simp, rfl⟩
  rw [if_neg h1, if_neg h1]
  by_cases h2 : old = new
  · rw [if_pos h2, if_pos h2]
    exact Or.inl ⟨true, rfl, fun _ => h2, rfl⟩
  rw [if_neg h2, if_neg h2]
  by_cases h3 : old <+: new
  · rw [if_pos h3, if_pos h3]
    exact Or.inl ⟨false, rfl, by simp, rfl⟩
  rw [if_neg h3, if_neg h3]
  obtain ⟨hold0, hnew0⟩ := not_or.mp h1
  obtain ⟨c, -, hc2, hc3, hpar⟩ := hR.parent_anchor hold hold0
  obtain ⟨c', hc1', hc2', hc3', hpar'⟩ := hR.parent_anchor hnew hnew0
  rw [hc1', hc2', hc2, hc3, hc3']
  by_cases h4 : entryNameFits c' = true
  swap
  · rw [if_pos (Or.inr (by simp [h4])), if_pos (by simp [h4])]
    exact Or.inl ⟨false, rfl, by simp, rfl⟩
  rw [if_neg (not_or.mpr ⟨hnew0, by simp [h4]⟩), if_neg (by simp [h4])]
  rcases hpar with ⟨h5, h6⟩ | ⟨b, f, h5, h6, hb⟩
  · rw [h5, h6]
    exact Or.inl ⟨false, rfl, by simp, rfl⟩
  rcases hpar' with ⟨h5', h6'⟩ | ⟨b', f', h5', h6', hb'⟩
  · rw [h5, h5', h6, h6']
    exact Or.inl ⟨false, rfl, by simp, rfl⟩
  rw [h5, h5', h6, h6']
  simp only [Option.bind_eq_bind, Option.bind_some,
    LhmNamespace.lookupDirectoryEdgeFromParentRoot,
    hR.lookupChildSlot_eq (hb.handle hR) (hash_lt hash c)]
  cases hcell : T.cell f (hash c).toNat with
  | none => exact Or.inl ⟨false, rfl, by simp, rfl⟩
  | some d =>
  cases d with
  | value v => exact Or.inl ⟨false, rfl, by simp, rfl⟩
  | directory g =>
  have hlay := hR.target _ _ _ hcell
  have hinfo := hR.info g hlay
  simp only [← hinfo]
  cases hm : T.info g with
  | none => exact Or.inl ⟨false, rfl, by simp, rfl⟩
  | some m =>
  by_cases hname : m.name = c
  swap
  · simp only [directoryMetaNameEquals, beq_eq_false_iff_ne.mpr hname, Bool.false_eq_true, if_false,
      hname, false_and]
    exact Or.inl ⟨false, rfl, by simp, rfl⟩
  subst hname
  have hequals : directoryMetaNameEquals m m.name = true := by simp [directoryMetaNameEquals]
  simp only [hequals, if_true, Option.pure_def, Option.bind_some, true_and,
    hR.lookupChild_eq (hb'.handle hR) c' (hash_lt hash c')]
  cases hcell' : T.cell f' (hash c').toNat with
  | some d' =>
      simp only [reduceCtorEq, if_false]
      refine Or.inl ⟨false, rfl, by simp, ?_⟩
      cases T.lookup f' c' (hash c').toNat with
      | some e => rfl
      | none =>
          simp only [hR.attach_occupied hb' hcell', Option.bind_some]
          rfl
  | none =>
      have hlook : T.lookup f' c' (hash c').toNat = none := by rw [Table.lookup, hcell']
      refine Or.inr ⟨b, b', f, f', g, m, c', ⟨h6, h6', hb, hb', hcell, hm, hcell'⟩,
        ⟨?_, ?_, ?_, ?_, by rw [hc2']; exact h4, h5, h5', ?_, ?_⟩, ?_, ?_⟩
      · rwa [ParsedPath.of_normalizedPath, ne_eq, joinPath_eq_slash hold]
      · rwa [ParsedPath.of_normalizedPath, ne_eq, joinPath_eq_slash hnew]
      · rwa [ParsedPath.of_normalizedPath, ParsedPath.of_normalizedPath, ne_eq, hjoin]
      · rwa [ParsedPath.of_normalizedPath, ParsedPath.of_normalizedPath, Bool.eq_false_iff, ne_eq,
          hprefix]
      · rw [LhmNamespace.lookupDirectoryEdgeFromParentRoot, hc3, hc2,
          hR.lookupChildSlot_eq (hb.handle hR) (hash_lt hash _), hcell]
        simp only [Option.bind_eq_bind, Option.bind_some, ← hinfo, hm, hequals, if_true]
        rfl
      · rw [hc3', hR.lookupChildSlot_eq (hb'.handle hR) (hash_lt hash c'), hcell']
      · simp only [if_true]
      · rw [hlook]
        rfl

/-- **`rename_path` of a directory** whose edge points at its current root, and whose new parent is
another directory. -/
lemma renameDirectory_spec (hR : Represents s G T) (hold : ∀ c ∈ old, IsName c)
    (hnew : ∀ c ∈ new, IsName c)
    (hcanon : ∀ f c g, T.parentOf hash old = some (f, c) →
      T.cell f (hash c).toNat = some (.directory g) → G.top g = g)
    (hout : ∀ f c g f' c', T.parentOf hash old = some (f, c) →
      T.cell f (hash c).toNat = some (.directory g) → T.parentOf hash new = some (f', c') →
      f' ≠ g) :
    ∃ s' G', s.renameDirectoryO1FromParsed (ParsedPath.of hash old) (ParsedPath.of hash new)
        = some ((T.moveDirectory hash old new).1, s') ∧
      Represents s' G' (T.moveDirectory hash old new).2 ∧
      ((T.moveDirectory hash old new).1 = false → s' = s) := by
  rcases hR.renameDirectory_cases hold hnew with
    ⟨r, h1, -, h2⟩ | ⟨b, b', f, f', g, m, c', hM, -, h1, h2⟩
  · rw [h1, h2]
    exact ⟨s, G, rfl, hR, fun _ => rfl⟩
  rw [h1, h2]
  have hlay := hR.target _ _ _ hM.edge
  have hg : G.top g = g := hcanon _ _ _ hM.source hM.edge
  have hne : f' ≠ g := hout _ _ _ _ _ hM.source hM.edge hM.target
  obtain ⟨h₁, G₁, heq, hR₁, hF, htop⟩ := hR.attach hM.targetAnchor (hash_lt hash c') hM.free hlay
  have hinfo₁ := hR₁.info g hlay
  rw [htop g (Ne.symm hne), hg] at hinfo₁
  have hmeta : (h₁.node g).directoryMeta = some m := hinfo₁.symm.trans hM.info
  have hR₂ := hR₁.setMeta hlay (makeDirectoryMeta m.ref (hash c').toNat c')
  rw [htop g (Ne.symm hne), hg] at hR₂
  have hb₂ : Anchor { s with heap := h₁.setMeta g (makeDirectoryMeta m.ref (hash c').toNat c') }
      G₁ b f :=
    ⟨(hM.sourceAnchor.frame hF).known,
      fun h0 => (hM.sourceAnchor.frame hF).leaf ((SameShape.setMeta.isLeaf b).symm.trans h0),
      (hM.sourceAnchor.frame hF).fam⟩
  have hcell₂ : ((T.setCell f' (hash c').toNat (some (.directory g))).setInfo g
      (makeDirectoryMeta m.ref (hash c').toNat c')).cell f (hash m.name).toNat
        = some (.directory g) := by
    change (if f = f' ∧ (hash m.name).toNat = (hash c').toNat then _ else _) = _
    rw [if_neg hM.cell_ne, hM.edge]
  obtain ⟨s', G', h7, hR'⟩ := hR₂.detach hb₂ hcell₂
  refine ⟨s', G', ?_, hR', by simp⟩
  rw [moveEdge, hg, heq, Option.bind_some]
  simp only [Bool.not_true, Bool.false_eq_true, if_false, hmeta]
  exact h7

/-- **A directory whose edge does not point at its current root** is not moved: the new edge is
there, and the old one stays. -/
lemma renameDirectory_refused (hR : Represents s G T) {b b' f f' g : Ptr} {m : DirectoryMeta}
    {c' : Bytes} (hM : Movable s G T hash old new b b' f f' g m c') (hg : G.top g ≠ g) :
    ∃ s', moveEdge s b b' (hash m.name).toNat (hash c').toNat c' (G.top g) = some (false, s') := by
  obtain ⟨cur, l, h1, h2, hS⟩ :=
    hR.findEdge_miss (hM.targetAnchor.handle hR) (hash_lt hash c') hM.free
  obtain ⟨h₁, G₁, pos, l', heq, hR₁, hF, -, hroom⟩ := hR.makeRoom hS
  obtain ⟨hI₂, hF₂, hE₂⟩ := finishInsert_layer hR₁.heap hroom
    (fun t ht => hR₁.entry_of_none hM.free ht)
    (show (⟨(hash c').toNat, (Content.directory (G.top g)).encode⟩ : Slot Cell).ikey
      = (hash c').toNat from rfl)
  generalize hh₂ : finishInsert (writeSlot h₁ pos
    ⟨(hash c').toNat, (Content.directory (G.top g)).encode⟩) pos = h₂ at hI₂ hF₂ hE₂
  have hinsert : insertLayer s.heap b' (hash c').toNat (fun h => (G.top g, h)) =
    some (true, h₂) := by
    simp only [insertLayer, h1, h2, heq, Option.bind_eq_bind, Option.bind_some, ← hh₂]
    rfl
  rw [moveEdge, hinsert, Option.bind_some]
  simp only [Bool.not_true, Bool.false_eq_true, if_false]
  split
  · exact ⟨_, rfl⟩
  -- the old edge is found again, and still points below the current root
  have hb₂ := hM.sourceAnchor.frame (hF.trans hF₂)
  have hent : Entry h₂ G₁ f ⟨(hash m.name).toNat, (Content.directory g).encode⟩ :=
    (hE₂ _ _).mpr (Or.inl ((hR₁.cell _ _ _).mp hM.edge))
  rw [← hb₂.fam] at hent
  generalize makeDirectoryMeta _ _ _ = m'
  have hI₃ : HeapInv namespaceTableParams byIkey (h₂.setMeta (G.top g) m') G₁ := hI₂.setMeta
  obtain ⟨c, l₁, p, h3, h4, h5, -, -, h6⟩ := findWith_hit edgeCompare_of_lt edgeCompare_of_gt hI₃
    hb₂.known ((SameShape.setMeta.startable b).mpr (hb₂.start hI₂))
    ((entry_setMeta _ _).mpr hent) rfl (edgeCompare_encode _ (.directory g))
  have hleaf : (h₂.setMeta (G.top g) m').leaf c.n = l₁ := by rw [Heap.leaf, h5.leaf]; rfl
  refine ⟨{ s with heap := h₂.setMeta (G.top g) m' }, ?_⟩
  have hlay : (Content.directory g).encode.lv.layer? = some g := rfl
  simp only [LhmNamespace.detachEdge, h3, h4, hleaf, h6, ksufMatches_directory, hlay,
    Option.bind_eq_bind, Option.bind_some]
  rw [if_neg (by decide), if_pos (Ne.symm hg)]
  rfl

end Represents

end MasstreeLHM
