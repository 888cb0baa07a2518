import MasstreeLHM.FileKinds
import MasstreeLHM.RenameTree

/-!
# The edges of directories

The pointer that the slot of a directory keeps, and what the two edge updates of a rename do as long
as that pointer is the current root of the directory.  The new parent directory may then even be the
moved one; if its root splits meanwhile, the new metadata goes to a node that is no longer the root.

`edgePointer` reads the pointer out of a slot, and `edgePointer_eq` says what it is on a represented
state.  `attach_root` puts the new edge in, and `edge_setCell` says that the second update still
finds the old edge behind it.

**`moveEdge_represents`** covers both updates whatever becomes of the root: the cells change as they
should, and the metadata may be lost.  **`moveEdge_moves`** is the case in which the layer keeps its
root, and then the metadata is the new one.  `renameDirectory_edges` adds the checks in front: a
directory rename does nothing, or these two updates.
-/

namespace MasstreeLHM

open LhmNamespace (insertLayer)

/-- The pointer in the slot with hash `x` of the directory with root `a`. -/
def edgePointer (h : Heap Cell) (a : Ptr) (x : ℕ) : Option Ptr := do
  let c ← findWith (edgeCompare x) h a x
  let p ← c.p
  ((h.leaf c.n).slot p).body.lv.layer?

/-- The pointer in the slot of a path. -/
def LhmNamespace.slotPointer (hash : Bytes → UInt64) (s : LhmNamespace) (path : Bytes) :
    Option Ptr := do
  let parsed ← parseAbsolutePath hash path
  match ← s.locateDirectoryRoot parsed.parent with
  | none => none
  | some b => edgePointer s.heap b parsed.hash

/-- A leaf of a directory: one that can be reached from a node at which a cursor may start. -/
def LhmNamespace.DirectoryLeaf (s : LhmNamespace) (a : Ptr) : Prop :=
  ∃ r, r < s.heap.size ∧ (s.heap.node r).startable ∧ LeafOf s.heap r a

/-- The directory of a content. -/
def Content.layer? : Content → Option Ptr
  | .directory g => some g
  | .value _ => none

lemma Table.FileKinds.moveLayer {T : Table} {f f' g x x' : ℕ} (hT : T.FileKinds)
    (m : DirectoryMeta) :
    (T.moveLayer f x f' x' g m).FileKinds := by
  have h₁ : (T.setCell f x none).FileKinds := hT.setCell (by simp)
  exact FileKinds.setCell (T := (T.setCell f x none).setInfo g m) ⟨h₁.value, h₁.bucket⟩ (by simp)

namespace Represents

variable {s s' : LhmNamespace} {G : Ghost} {T : Table} {hash : Bytes → UInt64} {a f g x : ℕ}

lemma edgePointer_eq (hR : Represents s G T) (ha : Handle s G a f) (hx : x < ikeyLimit) :
    edgePointer s.heap a x = (T.cell f x).bind Content.layer? := by
  rw [edgePointer]
  cases hc : T.cell f x with
  | none =>
      obtain ⟨cur, l, h1, h2, -⟩ := hR.findEdge_miss ha hx hc
      simp [h1, h2]
  | some c =>
      obtain ⟨cur, l, p, h1, h2, -, -, -, -, h6⟩ := hR.findEdge_hit ha hc
      cases c <;> simp [h1, h2, h6, Content.encode, Content.layer?, LeafValue.layer?]

lemma slotPointer_eq (hR : Represents s G T) {path : Bytes} {cs : List Bytes} {c : Bytes}
    (hp : componentsOf path = some (cs ++ [c])) : s.slotPointer hash path
      = (T.locate T.root (hashesOf hash cs)).bind fun f =>
        (T.cell f (hash c).toNat).bind Content.layer? := by
  have hnames := componentsOf_names hp
  have hcs : ∀ d ∈ cs, IsName d := fun d hd => hnames d (List.mem_append_left _ hd)
  have hparse : parseAbsolutePath hash path = some (ParsedPath.of hash (cs ++ [c])) := by
    rw [parse_eq, hp]
    rfl
  obtain ⟨o, h1, h2, h3, -⟩ := hR.locateDirectoryRoot_eq hash hcs
  rw [LhmNamespace.slotPointer, hparse]
  simp only [Option.bind_eq_bind, Option.bind_some, ParsedPath.of_parent hcs (hnames c (by simp)),
    h1, ParsedPath.of_hash, ← h2]
  cases o with
  | none => rfl
  | some b => exact hR.edgePointer_eq (h3 b rfl) (hash_lt hash c)

lemma slotPointer_cell (hR : Represents s G T) {path : Bytes} {cs : List Bytes} {c : Bytes}
    (hp : componentsOf path = some (cs ++ [c])) (hloc : T.locate T.root (hashesOf hash cs) = some f)
    {o : Option Content} (hcell : T.cell f (hash c).toNat = o) :
    s.slotPointer hash path = o.bind Content.layer? := by
  rw [hR.slotPointer_eq hp, hloc, Option.bind_some, hcell]

/-! ## The two updates -/

/-- A node of a layer that has no parent is its root. -/
lemma top_of_parent (hR : Represents s G T) (hg : T.layers g) (hp : (s.heap.node g).parent = none) :
    G.top g = g := by
  obtain ⟨hlt, hfam⟩ := (hR.layers g).mp hg
  have := hR.heap.tree.top_eq (hR.known hlt) (fun h => h) hp
  rw [hfam] at this
  exact this.symm

/-- Metadata that is written to a former root is not seen. -/
lemma setMeta_former (hR : Represents s G T) (hg : T.layers g) (htop : G.top g ≠ g)
    (m : DirectoryMeta) :
    Represents { s with heap := s.heap.setMeta g m } G T := by
  refine ⟨hR.heap.setMeta, hR.not_gone, hR.root_lt, ?_, hR.root_fam, hR.layers, ?_,
    ?_, hR.target, ?_, hR.bucket, hR.nextId⟩
  · intro h0
    simp only at h0
    rw [SameShape.setMeta.isLeaf] at h0
    exact hR.root_leaf h0
  · exact fun f sl h0 => hR.encoded f sl ((entry_setMeta f sl).mp h0)
  · exact fun f x c => (hR.cell f x c).trans (entry_setMeta f _).symm
  · intro f hf
    obtain ⟨hlt, hfam⟩ := (hR.layers f).mp hf
    have h1 := (hR.heap.tree.top_spec (hR.known hlt)).2.2.1
    rw [hfam] at h1
    have hne : G.top f ≠ g := by
      intro h0
      obtain ⟨-, hfam'⟩ := (hR.layers g).mp hg
      rw [h0, hfam'] at h1
      exact htop (h1 ▸ h0)
    rw [hR.info f hf]
    simp [Heap.setMeta, hne]

/-- **Room in the root leaf**: the layer keeps its root when an edge is put into it. -/
lemma parent_insertLayer (hR : Represents s G T) (hg : T.layers g) (htop : G.top g = g)
    (ha : Handle s G a g) (hx : x < ikeyLimit) (hc : T.cell g x = none)
    (hroom : (s.heap.leaf g).size < 7) {h' : Heap Cell} {b : Ptr}
    (hs : insertLayer s.heap a x (fun h => (b, h)) = some (true, h')) :
    (h'.node g).parent = none := by
  obtain ⟨cur, l, h1, h2, hS⟩ := hR.findEdge_miss ha hx hc
  obtain ⟨hlt, hfam⟩ := (hR.layers g).mp hg
  have hT := hR.heap.tree
  obtain ⟨t1, -, -, t4, t5, t6⟩ := hT.top_spec (hR.known hlt)
  obtain ⟨-, -, g3⟩ := hT.fam_spec (hR.known hlt)
  rw [hfam] at t1 t4 t5 t6 g3
  rw [htop] at t1 t4 t5 t6
  have t6 : G.hi g = ikeyLimit := t6
  have hcur : cur.n = g :=
    hT.leaf_unique hS.live t1 (by rw [hS.leaf]; rfl) g3 (hS.fam.trans hfam.symm)
    ⟨hS.lo, hS.hi⟩ ⟨by omega, by omega⟩
  have hl := hS.leaf
  rw [hcur] at hl
  have hleaf : s.heap.leaf g = l := by rw [Heap.leaf, hl]; rfl
  have hprev : l.prev = none :=
    (hR.heap.leaves g { l with parent := none } t1 (by rw [hl]; rfl)).first.mpr hfam
  have hparent : l.parent = none := by
    rw [hl] at t4
    exact t4
  rw [hleaf] at hroom
  have hsize : ({ l with modstate := .insert } : Leaf Cell).size < namespaceTableParams.leafWidth :=
    hroom
  simp only [insertLayer, h1, h2, Option.bind_eq_bind, Option.bind_some, MasstreeLHM.makeRoom,
    hcur, hleaf] at hs
  rw [if_pos ⟨hsize, Or.inr (Or.inl hprev)⟩] at hs
  obtain ⟨-, rfl⟩ := Prod.mk.inj (Option.some.inj hs)
  simp [finishInsert, writeSlot, Heap.setLeaf, Heap.leaf, Leaf.assign, hparent]

section Move

variable {old new : List Bytes} {b b' f' : Ptr} {m : DirectoryMeta} {c' : Bytes}
  (hR : Represents s G T)
  (hM : Movable s G T hash old new b b' f f' g m c') (hg : G.top g = g)
include hR hM hg

/-- The first edge update. -/
lemma attach_root : ∃ h₁ G₁,
    insertLayer s.heap b' (hash c').toNat (fun h => (g, h)) = some (true, h₁) ∧
      Represents { s with heap := h₁ } G₁ (T.setCell f' (hash c').toNat (some (.directory g))) ∧
      Frame s.heap G h₁ G₁ ∧ (f' ≠ g ∨ (s.heap.leaf g).size < 7 → G₁.top g = g) := by
  have hlay := hR.target _ _ _ hM.edge
  obtain ⟨h₁, G₁, heq, hR₁, hF, htop⟩ := hR.attach hM.targetAnchor (hash_lt hash c') hM.free hlay
  refine ⟨h₁, G₁, heq, hR₁, hF, fun h0 => ?_⟩
  by_cases hself : f' = g
  · have ha := hM.targetAnchor.handle hR
    have hfree := hM.free
    rw [hself] at ha hfree
    exact hR₁.top_of_parent hlay (hR.parent_insertLayer hlay hg ha (hash_lt hash c') hfree
      (h0.resolve_left (not_not.mpr hself)) heq)
  · rw [htop g (Ne.symm hself), hg]

omit hR hg in
/-- The second edge update finds the old edge. -/
lemma Movable.edge_setCell (o : Option Content) :
    (T.setCell f' (hash c').toNat o).cell f (hash m.name).toNat = some (.directory g) := by
  rw [Table.setCell_ne hM.cell_ne, hM.edge]

/-- **Both edge updates, whatever becomes of the root**: the slots still keep the leftmost leaves of
their layers. -/
lemma moveEdge_represents (hT : T.FileKinds) {ok : Bool}
    (hs : moveEdge s b b' (hash m.name).toNat (hash c').toNat c' g = some (ok, s')) :
    ∃ G' T', Represents s' G' T' ∧ T'.FileKinds ∧ T'.root = T.root := by
  have hlay := hR.target _ _ _ hM.edge
  obtain ⟨h₁, G₁, heq, hR₁, hF, -⟩ := hR.attach_root hM hg
  have hT₁ := hT.setCell (f := f') (x := (hash c').toNat) (o := some (.directory g)) (by simp)
  rw [moveEdge, heq, Option.bind_some] at hs
  simp only [Bool.not_true, Bool.false_eq_true, if_false] at hs
  cases hm : (h₁.node g).directoryMeta with
  | none =>
      rw [hm] at hs
      obtain ⟨-, rfl⟩ := Prod.mk.inj (Option.some.inj hs)
      exact ⟨G₁, _, hR₁, hT₁, rfl⟩
  | some m₁ =>
  rw [hm] at hs
  simp only at hs
  generalize makeDirectoryMeta m₁.ref (hash c').toNat c' = m' at hs
  have hedge := hM.edge_setCell (some (.directory g))
  have hb : Anchor { s with heap := h₁.setMeta g m' } G₁ b f := by
    have hA := hM.sourceAnchor.frame hF
    exact ⟨hA.known, fun h0 => hA.leaf ((SameShape.setMeta.isLeaf b).symm.trans h0), hA.fam⟩
  by_cases htop : G₁.top g = g
  · have hR₂ := hR₁.setMeta hlay m'
    rw [htop] at hR₂
    obtain ⟨t, G', h2, hR'⟩ := hR₂.detach hb hedge
    obtain ⟨-, rfl⟩ := Prod.mk.inj (Option.some.inj (h2.symm.trans hs))
    have hT₂ : ((T.setCell f' (hash c').toNat (some (.directory g))).setInfo g m').FileKinds :=
      ⟨hT₁.value, hT₁.bucket⟩
    exact ⟨G', _, hR', hT₂.setCell (by simp), rfl⟩
  · have hR₂ := hR₁.setMeta_former hlay htop m'
    obtain ⟨t, G', h2, hR'⟩ := hR₂.detach hb hedge
    obtain ⟨-, rfl⟩ := Prod.mk.inj (Option.some.inj (h2.symm.trans hs))
    exact ⟨G', _, hR', hT₁.setCell (by simp), rfl⟩

/-- **Both edge updates, when the layer keeps its root**: the layer is moved, with its new
metadata. -/
lemma moveEdge_moves (hroom : f' ≠ g ∨ (s.heap.leaf g).size < 7) {ok : Bool}
    (hs : moveEdge s b b' (hash m.name).toNat (hash c').toNat c' g = some (ok, s')) :
    ok = true ∧ ∃ G', Represents s' G' (T.moveLayer f (hash m.name).toNat f' (hash c').toNat g
      (makeDirectoryMeta m.ref (hash c').toNat c')) := by
  have hlay := hR.target _ _ _ hM.edge
  obtain ⟨h₁, G₁, heq, hR₁, hF, htop⟩ := hR.attach_root hM hg
  have htop := htop hroom
  have hinfo := hR₁.info g hlay
  rw [htop] at hinfo
  have hm : (h₁.node g).directoryMeta = some m := hinfo.symm.trans hM.info
  rw [moveEdge, heq, Option.bind_some] at hs
  simp only [Bool.not_true, Bool.false_eq_true, if_false, hm] at hs
  have hR₂ := hR₁.setMeta hlay (makeDirectoryMeta m.ref (hash c').toNat c')
  rw [htop] at hR₂
  have hb : Anchor { s with heap := h₁.setMeta g (makeDirectoryMeta m.ref (hash c').toNat c') } G₁ b
    f := by
    have hA := hM.sourceAnchor.frame hF
    exact ⟨hA.known, fun h0 => hA.leaf ((SameShape.setMeta.isLeaf b).symm.trans h0), hA.fam⟩
  obtain ⟨t, G', h2, hR'⟩ := hR₂.detach hb (hM.edge_setCell (some (.directory g)))
  obtain ⟨rfl, rfl⟩ := Prod.mk.inj (Option.some.inj (h2.symm.trans hs))
  refine ⟨rfl, G', ?_⟩
  rwa [Table.setCell_comm hM.cell_ne] at hR'

end Move

/-- **A directory rename whose slot keeps the current root** does nothing, or the two edge
updates. -/
lemma renameDirectory_edges (hR : Represents s G T) {old new : List Bytes}
    (hold : ∀ c ∈ old, IsName c) (hnew : ∀ c ∈ new, IsName c) {ok : Bool}
    (hedge : ∀ b b' r, s.Attaches (ParsedPath.of hash old) (ParsedPath.of hash new) b b' r →
      edgePointer s.heap b (ParsedPath.of hash old).hash = some r)
    (hs : s.renameDirectoryO1FromParsed (ParsedPath.of hash old) (ParsedPath.of hash new) =
      some (ok, s')) :
    s' = s ∨ ∃ b b' f f' g m c', Movable s G T hash old new b b' f f' g m c' ∧
      s.Attaches (ParsedPath.of hash old) (ParsedPath.of hash new) b b' g ∧ G.top g = g ∧
      moveEdge s b b' (hash m.name).toNat (hash c').toNat c' g = some (ok, s') := by
  rcases hR.renameDirectory_cases hold hnew with
    ⟨r, -, -, h1⟩ | ⟨b, b', f, f', g, m, c', hM, hA, -, h1⟩
  · rw [h1] at hs
    exact Or.inl (Prod.mk.inj (Option.some.inj hs)).2.symm
  have htop : G.top g = g := by
    have hptr := hedge b b' _ hA
    obtain ⟨ods, c, rfl⟩ := (List.eq_nil_or_concat' old).resolve_left fun h0 => by
      subst h0
      exact hA.old_ne (by simp [joinPath])
    have hcell := hM.edge
    rw [(Table.parentOf_concat_eq hM.source).2] at hcell
    rw [ParsedPath.of_hash, hR.edgePointer_eq (hM.sourceAnchor.handle hR) (hash_lt hash c),
      hcell] at hptr
    exact (Option.some.inj hptr).symm
  rw [h1, htop] at hs
  exact Or.inr ⟨b, b', f, f', g, m, c', hM, htop ▸ hA, htop, hs⟩

end Represents

end MasstreeLHM
