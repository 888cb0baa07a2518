import MasstreeLHM.AddedNode
import MasstreeLHM.PendingSplit

/-!
# Dividing an internode

A parent without room is divided behind one of its separators: a new node gets the children behind
it, and the separator goes one level up, where the new node waits to be linked.  `Dividing` is an
internode `p` with the place where it is cut.  The new node joins the layer (`Dividing.addsNode`),
and what `p` has known of each child is known by the half that has the child now.  The result is the
tree invariant with the excuse of a pending split, `Dividing.splitInv`.

The ranges change at `p` only.  Until the new node is linked, the parent of `p` counts with the old
upper end (`Ghost.view_divide`), so no link above `p` changes.  The links of the halves come from
those of `p` by cutting its list of ranges at the separator (`Dividing.segs`): `link_right` and
`link_left` are the two parts of it.
-/

namespace MasstreeLHM

open Separators

variable {β : Type} {h : Heap β} {G : Ghost}

/-- The heap after the internode `p` has been divided behind its separator number `mid`, and
the right half, a new node, waits to be linked. -/
def divide (h : Heap β) (p : Ptr) (mid : ℕ) : Heap β :=
  let ip := h.internode p
  let right : Internode :=
    { isRoot := false, deleted := ip.deleted, height := ip.height, keys := ip.keys.drop (mid + 1),
      children := ip.children.drop (mid + 1), parent := none, directoryMeta := none }
  ((h.alloc (.internode right)).setParents right.children h.size).setInternode p
    { ip with isRoot := false, keys := ip.keys.take mid, children := ip.children.take (mid + 1) }

/-- The ghost after a node `p` has been divided at `k`. -/
def Ghost.divide (G : Ghost) (p nc k : ℕ) : Ghost where
  live a := a = nc ∨ G.live a
  gone := G.gone
  fam a := if a = nc then G.fam p else G.fam a
  top := G.top
  lo a := if a = nc then k else G.lo a
  hi a := if a = nc then G.hi p else if a = p then k else G.hi a

namespace Ghost

variable {p k : ℕ}

lemma hi_divide {a : Ptr} (ha : a < h.size) (hne : a ≠ p) :
    (G.divide p h.size k).hi a = G.hi a :=
  (if_neg ha.ne).trans (if_neg hne)

lemma hi_divide_self (hp : p < h.size) : (G.divide p h.size k).hi p = k :=
  (if_neg hp.ne).trans (if_pos rfl)

/-- With the excuse of a pending split, the parent counts with the old upper end of `p`. -/
lemma view_divide {a : Ptr} (ha : a < h.size) :
    ((G.divide p h.size k).split p h.size).view a = G.hi a := by
  by_cases hap : a = p
  · subst hap
    exact (if_pos rfl).trans (if_pos rfl)
  · exact (if_neg hap).trans (hi_divide ha hap)

/-- The ranges after dividing, where the separator lies inside the range. -/
lemma range_divide (hT : TreeInv h G G.exact) (hp : G.live p) (hk : G.lo p < k) (hk' : k < G.hi p)
    {a : Ptr} (ha : (G.divide p h.size k).live a) :
    (G.divide p h.size k).lo a < (G.divide p h.size k).hi a ∧
      (G.divide p h.size k).hi a ≤ ikeyLimit := by
  rcases ha with rfl | ha
  · rw [show (G.divide p h.size k).lo h.size = k from if_pos rfl,
      show (G.divide p h.size k).hi h.size = G.hi p from if_pos rfl]
    exact ⟨hk', (hT.range hp).2⟩
  · have hlt := hT.live_lt ha
    rw [show (G.divide p h.size k).lo a = G.lo a from if_neg hlt.ne]
    by_cases hap : a = p
    · subst hap
      rw [hi_divide_self hlt]
      exact ⟨hk, hk'.le.trans (hT.range hp).2⟩
    · rw [hi_divide hlt hap]
      exact hT.range ha

end Ghost

/-- The internode `p`, to be divided at the separator `k`. -/
structure Dividing (h : Heap β) (G : Ghost) (p : Ptr) (ip : Internode) (k₁ : List ℕ) (k : ℕ)
    (k₂ : List ℕ) (c₁ c₂ : List (Option Ptr)) : Prop where
  tree : TreeInv h G G.exact
  live : G.live p
  node : h.node p = .internode ip
  keys : ip.keys = k₁ ++ k :: k₂
  children : ip.children = c₁ ++ c₂
  length : c₁.length = k₁.length + 1

namespace Dividing

variable {p : Ptr} {ip : Internode} {k₁ k₂ : List ℕ} {c₁ c₂ : List (Option Ptr)} {k : ℕ}

variable (hd : Dividing h G p ip k₁ k k₂ c₁ c₂)

include hd

lemma lt_size : p < h.size := hd.tree.live_lt hd.live

/-- A child that goes to the right half. -/
lemma right_child {c : Ptr} (hc : some c ∈ c₂) : G.live c ∧ c ≠ p ∧ G.fam c = G.fam p ∧
    (h.node c).height < ip.height ∧ (h.node c).parent = some p := by
  obtain ⟨h1, h2, h3, h4⟩ := hd.tree.child_live hd.live hd.node (c := c) (by
    rw [hd.children]
    exact List.mem_append_right _ hc)
  rw [hd.node] at h4
  refine ⟨h1, ?_, h3, h4, h2⟩
  rintro rfl
  rw [hd.node] at h4
  exact absurd h4 (lt_irrefl _)

/-- The heap after dividing, node by node. -/
lemma node_divide (a : Ptr) : (divide h p k₁.length).node a =
    if a = h.size then .internode
      { isRoot := false, deleted := ip.deleted, height := ip.height, keys := k₂, children := c₂,
        parent := none, directoryMeta := none }
    else if a = p then .internode { ip with isRoot := false, keys := k₁, children := c₁ }
    else if some a ∈ c₂ then (h.node a).setParent (some h.size)
    else h.node a := by
  have hlive : ∀ c, some c ∈ c₂ → c < h.size ∧ c ≠ p := fun c hc =>
    ⟨hd.tree.live_lt (hd.right_child hc).1, (hd.right_child hc).2.1⟩
  have hl := hd.length
  have e1 : (k₁ ++ k :: k₂).drop (k₁.length + 1) = k₂ := by simp
  have e2 : (c₁ ++ c₂).drop (k₁.length + 1) = c₂ := by simp [← hl]
  have e3 : (c₁ ++ c₂).take (k₁.length + 1) = c₁ := by simp [← hl]
  have hps := hd.lt_size
  have hsz : some h.size ∉ c₂ := fun h0 => absurd (hlive _ h0).1 (lt_irrefl _)
  simp only [divide, Heap.internode_eq hd.node, Heap.node_setInternode, Heap.node_setParents,
    Heap.node_alloc, hd.keys, hd.children, e1, e2, e3, List.take_left]
  split_ifs with h1 h2 h3 h4 <;> simp_all

lemma node_divide_new : (divide h p k₁.length).node h.size = .internode
    { isRoot := false, deleted := ip.deleted, height := ip.height, keys := k₂, children := c₂,
      parent := none, directoryMeta := none } := by
  rw [hd.node_divide, if_pos rfl]

lemma node_divide_self : (divide h p k₁.length).node p = .internode
    { ip with isRoot := false, keys := k₁, children := c₁ } := by
  rw [hd.node_divide, if_neg hd.lt_size.ne, if_pos rfl]

lemma like {a : Ptr} (ha : a < h.size) :
    Node.Like (h.node a) ((divide h p k₁.length).node a) := by
  rw [hd.node_divide, if_neg ha.ne]
  split_ifs with h1 h2
  · rw [h1, hd.node]
    exact .internode rfl rfl rfl
  · exact .setParent _ _
  · exact .refl _

lemma parent_right {c : Ptr} (hc : some c ∈ c₂) :
    ((divide h p k₁.length).node c).parent = some h.size := by
  obtain ⟨h1, h2, -⟩ := hd.right_child hc
  rw [hd.node_divide, if_neg (hd.tree.live_lt h1).ne, if_neg h2, if_pos hc, Node.parent_setParent]

lemma parent {a : Ptr} (ha : a < h.size) (hne : some a ∉ c₂) :
    ((divide h p k₁.length).node a).parent = (h.node a).parent := by
  rw [hd.node_divide, if_neg ha.ne]
  split_ifs with h1
  · rw [h1, hd.node]; rfl
  · rfl


/-- The new node joins the layer of `p`. -/
lemma addsNode :
    AddsNode h G p (fun _ => False) (divide h p k₁.length) (G.divide p h.size k) where
  size := rfl
  retired := rfl
  live a := by simp [Ghost.divide]
  gone a := (or_iff_left id).symm
  dropped a h0 := h0.elim
  fam a ha := if_neg ha.ne
  fam_new := if_pos rfl
  lo a ha := if_neg ha.ne
  height a ha := (hd.like ha).height
  isLeaf a ha := (hd.like ha).isLeaf
  deleted a ha := (hd.like ha).deleted
  height_new := by
    have hlt := hd.tree.height_lt hd.lt_size
    rw [hd.node] at hlt
    rw [hd.node_divide_new]
    exact hlt.le
  deleted_new := by
    have hdel := hd.tree.not_deleted hd.live
    rw [hd.node] at hdel
    rw [hd.node_divide_new]
    exact hdel

/-- A child keeps what its parent knows of it, wherever that parent is now. -/
lemma segOk {a a' l c u : ℕ} (hparent : ((divide h p k₁.length).node c).parent = some a')
    (hseg : SegOk h G G.exact a (l, some c, u)) :
    SegOk (divide h p k₁.length) (G.divide p h.size k) ((G.divide p h.size k).split p h.size) a'
      (l, some c, u) := by
  have hc : G.live c := hseg.1.resolve_right id
  have hlt := hd.tree.live_lt hc
  exact hd.addsNode.segOk hd.tree hc hseg id hlt.ne hparent (Ghost.view_divide hlt)

/-- The separator lies inside the range of `p`. -/
lemma separator (hk₁ : k₁ ≠ []) : G.lo p < k ∧ k < G.hi p := by
  obtain ⟨h1, h2⟩ := (hd.tree.link hd.live hd.node).sorted
  rw [hd.keys] at h1 h2
  refine ⟨?_, (h2 k (by simp)).2⟩
  cases k₁ with
  | nil => exact absurd rfl hk₁
  | cons x xs =>
      have h3 := List.rel_of_pairwise_cons h1 (show k ∈ xs ++ k :: k₂ by simp)
      exact (h2 x (by simp)).1.trans_lt h3

lemma up {a q : Ptr} (ha : (G.divide p h.size k).Known (divide h p k₁.length) a)
    (hq : ((divide h p k₁.length).node a).parent = some q) :
    (G.divide p h.size k).Known (divide h p k₁.length) q ∧
      (G.divide p h.size k).fam q = (G.divide p h.size k).fam a ∧
      ((divide h p k₁.length).node a).height < ((divide h p k₁.length).node q).height ∧
      ((divide h p k₁.length).node q).isLeaf = false := by
  have hA := hd.addsNode
  rcases (hA.known_iff hd.tree).mp ha with rfl | ⟨ha, -⟩
  · rw [hd.node_divide_new] at hq
    cases hq
  · by_cases hac : some a ∈ c₂
    · rw [hd.parent_right hac] at hq
      obtain rfl := Option.some.inj hq
      obtain ⟨-, -, h3, h4, -⟩ := hd.right_child hac
      rw [hA.fam_new, hA.fam a ha.1, hA.height a ha.1, hd.node_divide_new]
      exact ⟨(hA.known_iff hd.tree).mpr (Or.inl rfl), h3.symm, h4, rfl⟩
    · rw [hd.parent ha.1 hac] at hq
      exact hA.up hd.tree ha hq id

lemma top_eq {a : Ptr} (ha : G.Known h a)
    (hpa : ((divide h p k₁.length).node a).parent = none) : a = G.top (G.fam a) := by
  by_cases hac : some a ∈ c₂
  · rw [hd.parent_right hac] at hpa
    cases hpa
  · rw [hd.parent ha.1 hac] at hpa
    exact hd.tree.top_eq ha id hpa

lemma top_notMem {b : Ptr} (hb : G.Known h b) : some (G.top (G.fam b)) ∉ c₂ := by
  intro h0
  have h4 := (hd.tree.top_spec hb).2.2.2.1
  rw [(hd.right_child h0).2.2.2.2] at h4
  cases h4

lemma root_bit {a : Ptr} (ha : G.Known h a) (hst : ((divide h p k₁.length).node a).startable) :
    (((divide h p k₁.length).node a).isRoot = true →
        ((divide h p k₁.length).node a).parent = none) ∧
      (((divide h p k₁.length).node a).parent = none → a ≠ p →
        ((divide h p k₁.length).node a).isRoot = true) := by
  rw [(hd.like ha.1).startable] at hst
  have hbit := hd.tree.root_bit ha id hst
  by_cases hap : a = p
  · subst hap
    rw [hd.node_divide_self]
    exact ⟨fun h0 => absurd h0 (by simp), fun _ h0 => absurd rfl h0⟩
  · have hroot : ((divide h p k₁.length).node a).isRoot = (h.node a).isRoot := by
      rw [hd.node_divide, if_neg ha.1.ne, if_neg hap]
      split_ifs <;> simp
    rw [hroot]
    by_cases hac : some a ∈ c₂
    · rw [hd.parent_right hac]
      have hpa := (hd.right_child hac).2.2.2.2
      refine ⟨fun h0 => ?_, fun h0 => by cases h0⟩
      rw [hbit.1 h0] at hpa
      cases hpa
    · rw [hd.parent ha.1 hac]
      exact ⟨hbit.1, fun h0 _ => hbit.2 h0 id⟩

lemma linked {a q : Ptr} (ha : G.live a)
    (hq : ((divide h p k₁.length).node a).parent = some q) :
    (G.divide p h.size k).live q ∧ some a ∈ ((divide h p k₁.length).internode q).children := by
  have hlt := hd.tree.live_lt ha
  by_cases hac : some a ∈ c₂
  · rw [hd.parent_right hac] at hq
    obtain rfl := Option.some.inj hq
    exact ⟨Or.inl rfl, by rwa [Heap.internode_eq hd.node_divide_new]⟩
  · rw [hd.parent hlt hac] at hq
    obtain ⟨h1, h2⟩ := hd.tree.linked ha id hq
    refine ⟨Or.inr h1, ?_⟩
    rw [Heap.internode, hd.node_divide, if_neg (hd.tree.live_lt h1).ne]
    split_ifs with h3 h4
    · rw [h3, Heap.internode_eq hd.node, hd.children] at h2
      exact (List.mem_append.mp h2).resolve_right hac
    · rw [Node.children_setParent]
      exact h2
    · exact h2

/-- What the parent has known of its children, for the two halves. -/
lemma segs {t : ℕ × Option Ptr × ℕ}
    (ht : t ∈ segs (G.lo p) k₁ c₁ k ++ Separators.segs k k₂ c₂ (G.hi p)) :
    SegOk h G G.exact p t := by
  have hsegs := (hd.tree.link hd.live hd.node).segs
  rw [hd.keys, hd.children, segs_divide _ _ _ _ _ _ _ hd.length] at hsegs
  exact hsegs t ht

/-- The links of the right half. -/
lemma link_right : LinkInv (divide h p k₁.length) (G.divide p h.size k)
    ((G.divide p h.size k).split p h.size) h.size
    { isRoot := false, deleted := ip.deleted, height := ip.height, keys := k₂, children := c₂,
      parent := none, directoryMeta := none } := by
  have hlink := hd.tree.link hd.live hd.node
  have hlen := hlink.length
  have hl := hd.length
  rw [hd.keys, hd.children, List.length_append, List.length_append, List.length_cons] at hlen
  have htail : ∀ c ∈ c₂, c ≠ none := by
    intro c hc
    refine hlink.tail c ?_
    obtain ⟨d, ds, rfl⟩ := List.exists_cons_of_length_eq_add_one hl
    simp [hd.children, hc]
  obtain ⟨d, ds, hcons⟩ := List.exists_cons_of_length_eq_add_one
    (show c₂.length = k₂.length + 1 by omega)
  refine ⟨by change c₂.length = k₂.length + 1; omega,
    fun c hc => htail c (List.mem_of_mem_tail hc), ?_, ?_⟩
  · intro h0
    exact absurd (by simpa [Internode.child, hcons] using h0) (htail d (by simp [hcons]))
  · rw [show (G.divide p h.size k).lo h.size = k from if_pos rfl,
      show (G.divide p h.size k).hi h.size = G.hi p from if_pos rfl]
    rintro ⟨l, c, u⟩ ht
    have hold := hd.segs (List.mem_append_right _ ht)
    cases c with
    | none => exact hold
    | some c => exact hd.segOk (hd.parent_right (mem_of_mem_segs ht)) hold

/-- The links of the left half. -/
lemma link_left (hk₁ : k₁ ≠ []) : LinkInv (divide h p k₁.length) (G.divide p h.size k)
    ((G.divide p h.size k).split p h.size) p
    { ip with isRoot := false, keys := k₁, children := c₁ } := by
  have hlink := hd.tree.link hd.live hd.node
  have hlo : (G.divide p h.size k).lo p = G.lo p := hd.addsNode.lo p hd.lt_size
  obtain ⟨d, ds, hcons⟩ := List.exists_cons_of_length_eq_add_one hd.length
  refine ⟨hd.length, ?_, fun h0 => ⟨hk₁, ?_⟩, ?_⟩
  · intro c hc
    refine hlink.tail c ?_
    rw [hd.children]
    simp only [hcons, List.tail_cons, List.cons_append, List.mem_append] at hc ⊢
    exact Or.inl hc
  · rw [hlo]
    exact (hlink.head (by simpa [Internode.child, hd.children, hcons] using h0)).2
  · rw [hlo, Ghost.hi_divide_self hd.lt_size]
    rintro ⟨l, c, u⟩ ht
    have hold := hd.segs (List.mem_append_left _ ht)
    cases c with
    | none => exact hold
    | some c =>
        have hlt := hd.tree.live_lt (hold.1.resolve_right id)
        have hc2 : some c ∉ c₂ := by
          obtain ⟨d₁, d₂, rfl⟩ := List.append_of_mem (mem_of_mem_segs ht)
          intro h0
          exact (hlink.child_notMem (show ip.children = d₁ ++ some c :: (d₂ ++ c₂) by
            simp [hd.children])).2 (List.mem_append_right _ h0)
        exact hd.segOk ((hd.parent hlt hc2).trans hold.2.2.1) hold

lemma link (hk₁ : k₁ ≠ []) {a : Ptr} {n : Internode} (ha : (G.divide p h.size k).live a)
    (hn : (divide h p k₁.length).node a = .internode n) :
    LinkInv (divide h p k₁.length) (G.divide p h.size k)
      ((G.divide p h.size k).split p h.size) a n := by
  rcases hd.addsNode.live_cases hd.tree ha with rfl | ⟨hlt, ha, -⟩
  · rw [hd.node_divide_new] at hn
    obtain rfl : _ = n := by simpa using hn
    exact hd.link_right
  · by_cases hap : a = p
    · subst hap
      rw [hd.node_divide_self] at hn
      obtain rfl : _ = n := by simpa using hn
      exact hd.link_left hk₁
    · -- another node has kept its children, none of which has gone to the right half
      have hold : ∃ m, h.node a = .internode m ∧ n.keys = m.keys ∧ n.children = m.children := by
        rw [hd.node_divide, if_neg hlt.ne, if_neg hap] at hn
        split_ifs at hn with h1
        · exact Node.internode_of_setParent hn
        · exact ⟨n, hn, rfl, rfl⟩
      obtain ⟨m, hm, hmk, hmc⟩ := hold
      refine (hd.tree.link ha hm).congr hmk hmc (hd.addsNode.lo a hlt)
        (Ghost.hi_divide hlt hap) ?_
      intro l c u _ hso
      have hcl := hd.tree.live_lt (hso.1.resolve_right id)
      have hc2 : some c ∉ c₂ := by
        intro h0
        have hpa := (hd.right_child h0).2.2.2.2.symm.trans hso.2.2.1
        exact hap (Option.some.inj hpa).symm
      exact hd.segOk ((hd.parent hcl hc2).trans hso.2.2.1) hso

lemma treeInv (hk₁ : k₁ ≠ []) : TreeInv (divide h p k₁.length) (G.divide p h.size k)
    ((G.divide p h.size k).split p h.size) := by
  have hA := hd.addsNode
  have hpk := hd.tree.known hd.live
  have hold : ∀ {a}, (G.divide p h.size k).Known (divide h p k₁.length) a → a ≠ h.size →
      G.Known h a := fun ha hne => (((hA.known_iff hd.tree).mp ha).resolve_left hne).1
  exact {
    known := hA.known hd.tree
    gone_lt := fun ha => Nat.lt_succ_of_lt (hA.gone_lt hd.tree ha)
    up := hd.up
    top_eq := by
      intro a ha hloose hpa
      rw [hA.fam a (hold ha hloose).1]
      exact hd.top_eq (hold ha hloose) hpa
    top_spec := by
      intro a ha
      obtain ⟨b, hb, hab⟩ := hA.exists_fam hd.tree hpk ha
      have hlt := hd.tree.live_lt (hd.tree.top_spec hb).1
      rw [hab]
      exact hA.top_spec _ hd.tree hb id hlt.ne (hd.parent hlt (hd.top_notMem hb))
        (Ghost.view_divide hlt)
    fam_spec := hA.fam_spec hd.tree hpk
    height_lt := hA.height_lt hd.tree
    root_bit := fun ha hloose => hd.root_bit (hold ha hloose)
    range := Ghost.range_divide hd.tree hd.live (hd.separator hk₁).1 (hd.separator hk₁).2
    linked := fun ha hloose => hd.linked (ha.resolve_left hloose)
    link := hd.link hk₁
    not_deleted := hA.not_deleted hd.tree
    retired_dead := hA.retired_dead hd.tree }

/-- **Dividing an internode** leaves its right half to be linked. -/
lemma splitInv (hk₁ : k₁ ≠ []) :
    SplitInv (divide h p k₁.length) (G.divide p h.size k) ⟨p, h.size, k⟩ where
  tree := hd.treeInv hk₁
  live_n := Or.inr hd.live
  live_child := Or.inl rfl
  ne := hd.lt_size.ne'
  fam_child := hd.addsNode.fam_new.trans (hd.addsNode.fam p hd.lt_size).symm
  hi_n := Ghost.hi_divide_self hd.lt_size
  lo_child := if_pos rfl
  height_child := by rw [hd.node_divide_new, hd.node_divide_self]; rfl
  bit_n := by rw [hd.node_divide_self]; rfl
  bit_child _ := by rw [hd.node_divide_new]; rfl
  parent_child := by rw [hd.node_divide_new]; rfl

end Dividing

end MasstreeLHM
