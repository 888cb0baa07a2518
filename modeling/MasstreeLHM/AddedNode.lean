import MasstreeLHM.Invariant

/-!
# A new node in a layer

A split puts a new internode over its two halves or divides an internode, and the collapse of a
layer puts a copy in the place of its root.  All three allocate one node for a layer that is there
already, change nothing but links in the old nodes, and may take old internodes out of the tree.
What `TreeInv` says about known and live nodes, about the leftmost leaf of a layer, heights, flags
and retired nodes follows from this alone; what it says about roots and links is left to the
operation, with a lemma for the old nodes that it does not touch.

`AddsNode` is the change, with the set of internodes that leave the tree as a parameter.  There is a
lemma for each field of `TreeInv`, under the name of the field.  `live_cases` splits the live nodes
into the new one and the old ones; `top_spec` and `segOk` are for old roots and old links, and ask
only that the operation has left the node in question alone.
-/

namespace MasstreeLHM

variable {β : Type} {h h' : Heap β} {G G' : Ghost} {X X' : Excused} {D : Ptr → Prop} {n : Ptr}

/-- The node `h.size` joins the layer of `n`, the internodes in `D` leave it, and the other nodes
keep what does not belong to the links. -/
structure AddsNode (h : Heap β) (G : Ghost) (n : Ptr) (D : Ptr → Prop) (h' : Heap β) (G' : Ghost) :
    Prop where
  size : h'.size = h.size + 1
  retired : h'.retired = h.retired
  live : ∀ a, G'.live a ↔ a = h.size ∨ (G.live a ∧ ¬ D a)
  gone : ∀ a, G'.gone a ↔ G.gone a ∨ D a
  dropped : ∀ a, D a → a < h.size ∧ (h.node a).isLeaf = false
  fam : ∀ a < h.size, G'.fam a = G.fam a
  fam_new : G'.fam h.size = G.fam n
  lo : ∀ a < h.size, G'.lo a = G.lo a
  height : ∀ a < h.size, (h'.node a).height = (h.node a).height
  isLeaf : ∀ a < h.size, (h'.node a).isLeaf = (h.node a).isLeaf
  deleted : ∀ a < h.size, (h'.node a).deleted = (h.node a).deleted
  height_new : (h'.node h.size).height ≤ h.size
  deleted_new : (h'.node h.size).deleted = false

namespace AddsNode

/-! ## What holds of every such change -/

lemma gone_lt (hA : AddsNode h G n D h' G') (hT : TreeInv h G X) {a : Ptr} (ha : G'.gone a) :
    a < h.size := by
  rcases (hA.gone a).mp ha with h0 | h0
  · exact hT.gone_lt h0
  · exact (hA.dropped a h0).1

lemma known_iff (hA : AddsNode h G n D h' G') (hT : TreeInv h G X) {a : Ptr} :
    G'.Known h' a ↔ a = h.size ∨ (G.Known h a ∧ ¬ D a) := by
  rw [Ghost.Known, hA.size]
  constructor
  · rintro ⟨ha, hg⟩
    rw [hA.gone, not_or] at hg
    exact (Nat.lt_succ_iff_lt_or_eq.mp ha).symm.imp_right fun h0 => ⟨⟨h0, hg.1⟩, hg.2⟩
  · rintro (rfl | ⟨ha, hd⟩)
    · exact ⟨Nat.lt_succ_self _, fun h0 => lt_irrefl _ (hA.gone_lt hT h0)⟩
    · exact ⟨Nat.lt_succ_of_lt ha.1, fun h0 => ((hA.gone a).mp h0).elim ha.2 hd⟩

lemma known (hA : AddsNode h G n D h' G') (hT : TreeInv h G X) {a : Ptr} (ha : G'.live a) :
    G'.Known h' a := by
  refine (hA.known_iff hT).mpr (((hA.live a).mp ha).imp_right fun h0 => ?_)
  exact ⟨hT.known h0.1, h0.2⟩

/-- The layer of a known node is a layer from before. -/
lemma exists_fam (hA : AddsNode h G n D h' G') (hT : TreeInv h G X) (hn : G.Known h n) {a : Ptr}
    (ha : G'.Known h' a) : ∃ b, G.Known h b ∧ G'.fam a = G.fam b := by
  rcases (hA.known_iff hT).mp ha with rfl | ⟨ha, -⟩
  · exact ⟨n, hn, hA.fam_new⟩
  · exact ⟨a, ha, hA.fam a ha.1⟩

lemma fam_spec (hA : AddsNode h G n D h' G') (hT : TreeInv h G X) (hn : G.Known h n) {a : Ptr}
    (ha : G'.Known h' a) : G'.live (G'.fam a) ∧ G'.fam (G'.fam a) = G'.fam a ∧
      (h'.node (G'.fam a)).isLeaf = true := by
  obtain ⟨b, hb, hab⟩ := hA.exists_fam hT hn ha
  obtain ⟨h1, h2, h3⟩ := hT.fam_spec hb
  have hlt := hT.live_lt h1
  rw [hab, hA.fam _ hlt, hA.isLeaf _ hlt]
  refine ⟨(hA.live _).mpr (Or.inr ⟨h1, fun h0 => ?_⟩), h2, h3⟩
  exact absurd ((hA.dropped _ h0).2.symm.trans h3) Bool.false_ne_true

lemma height_lt (hA : AddsNode h G n D h' G') (hT : TreeInv h G X) {a : Ptr} (ha : a < h'.size) :
    (h'.node a).height < h'.size := by
  rw [hA.size] at ha ⊢
  rcases Nat.lt_succ_iff_lt_or_eq.mp ha with ha | rfl
  · rw [hA.height a ha]
    exact Nat.lt_succ_of_lt (hT.height_lt ha)
  · exact Nat.lt_succ_of_le hA.height_new

lemma not_deleted (hA : AddsNode h G n D h' G') (hT : TreeInv h G X) {a : Ptr} (ha : G'.live a) :
    (h'.node a).deleted = false := by
  rcases (hA.live a).mp ha with rfl | ⟨ha, -⟩
  · exact hA.deleted_new
  · rw [hA.deleted a (hT.live_lt ha)]
    exact hT.not_deleted ha

lemma retired_dead (hA : AddsNode h G n D h' G') (hT : TreeInv h G X) {a : Ptr}
    (ha : a ∈ h'.retired) : a < h'.size ∧ ¬ G'.live a := by
  rw [hA.retired] at ha
  obtain ⟨h1, h2⟩ := hT.retired_dead ha
  rw [hA.size]
  exact ⟨Nat.lt_succ_of_lt h1, fun h0 => ((hA.live a).mp h0).elim h1.ne fun h3 => h2 h3.1⟩

/-! ## What holds of the old nodes that keep their links -/

/-- The new node, or a live node from before. -/
lemma live_cases (hA : AddsNode h G n D h' G') (hT : TreeInv h G X) {a : Ptr} (ha : G'.live a) :
    a = h.size ∨ (a < h.size ∧ G.live a ∧ ¬ D a) :=
  ((hA.live a).mp ha).imp_right fun h0 => ⟨hT.live_lt h0.1, h0⟩

lemma up (hA : AddsNode h G n D h' G') (hT : TreeInv h G X) {a p : Ptr} (ha : G.Known h a)
    (hp : (h.node a).parent = some p) (hD : ¬ D p) :
    G'.Known h' p ∧ G'.fam p = G'.fam a ∧ (h'.node a).height < (h'.node p).height ∧
      (h'.node p).isLeaf = false := by
  obtain ⟨h1, h2, h3, h4⟩ := hT.up ha hp
  rw [hA.fam p h1.1, hA.fam a ha.1, hA.height a ha.1, hA.height p h1.1, hA.isLeaf p h1.1]
  exact ⟨(hA.known_iff hT).mpr (Or.inr ⟨h1, hD⟩), h2, h3, h4⟩

/-- The root of a layer, where it stays the same. -/
lemma top_spec (X' : Excused) (hA : AddsNode h G n D h' G') (hT : TreeInv h G X) {b : Ptr}
    (hb : G.Known h b) (hD : ¬ D (G.top (G.fam b))) (hloose : ¬ X'.loose (G.top (G.fam b)))
    (hparent : (h'.node (G.top (G.fam b))).parent = (h.node (G.top (G.fam b))).parent)
    (hview : X'.view (G.top (G.fam b)) = X.view (G.top (G.fam b))) :
    G'.live (G.top (G.fam b)) ∧ ¬ X'.loose (G.top (G.fam b)) ∧
      G'.fam (G.top (G.fam b)) = G.fam b ∧ (h'.node (G.top (G.fam b))).parent = none ∧
      G'.lo (G.top (G.fam b)) = 0 ∧ X'.view (G.top (G.fam b)) = ikeyLimit := by
  obtain ⟨h1, -, h3, h4, h5, h6⟩ := hT.top_spec hb
  have hlt := hT.live_lt h1
  rw [hA.fam _ hlt, hA.lo _ hlt, hparent, hview]
  exact ⟨(hA.live _).mpr (Or.inr ⟨h1, hD⟩), hloose, h3, h4, h5, h6⟩

/-- A child keeps what its parent knows of it, wherever that parent is now. -/
lemma segOk (hA : AddsNode h G n D h' G') (hT : TreeInv h G X) {a a' l c u : ℕ} (hc : G.live c)
    (hs : SegOk h G X a (l, some c, u)) (hD : ¬ D c) (hloose : ¬ X'.loose c)
    (hparent : (h'.node c).parent = some a') (hview : X'.view c = X.view c) :
    SegOk h' G' X' a' (l, some c, u) :=
  ⟨Or.inl ((hA.live c).mpr (Or.inr ⟨hc, hD⟩)), hloose, hparent,
    (hA.lo c (hT.live_lt hc)).trans hs.2.2.2.1, hview.trans hs.2.2.2.2.1, hs.2.2.2.2.2⟩

end AddsNode

end MasstreeLHM
