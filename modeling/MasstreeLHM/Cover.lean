import MasstreeLHM.AddedNode
import MasstreeLHM.PendingSplit

/-!
# A new node over the halves of a split

Where the left half is the root of its layer, or there is a gap in height below its parent, the loop
of `make_split` puts a new internode over the two halves.  It takes the place of the left half,
under its parent or as the root, and has the ranges of both halves together.

The new node is one that joins a layer (`cover_addsNode`), so that only the roots of the layers and
the links have to be looked at: the links of the new node, of the parent in which it has taken the
place of the left half, and of all others, which know neither of the halves.  The result is
`SplitInv.cover_treeInv`.

`node_cover` is the heap behind the step, node by node, and nothing after it unfolds the step again.
`cover_link_new`, `cover_link_parent` and `cover_link` are the three kinds of links.  A root that is
covered hands its metadata to the new node.
-/

namespace MasstreeLHM

open Separators

variable {β : Type} {h : Heap β} {G : Ghost}

/-- The ghost after a new node has been put over the halves. -/
def Ghost.cover (G : Ghost) (s : Pending) (nn : Ptr) (isTop : Prop)
    [Decidable isTop] : Ghost where
  live a := a = nn ∨ G.live a
  gone := G.gone
  fam a := if a = nn then G.fam s.n else G.fam a
  top f := if isTop ∧ f = G.fam s.n then nn else G.top f
  lo a := if a = nn then G.lo s.n else G.lo a
  hi a := if a = nn then G.hi s.child else G.hi a

namespace SplitInv

variable {s : Pending}

/-- The heap after a new internode has been put over the two halves, in the place of the left
one: below its parent if it has one, and as the new root of the layer otherwise. -/
def cover (h : Heap β) (s : Pending) (height : ℕ) (m : Option DirectoryMeta) : Heap β :=
  let h' := h.alloc (.internode (Internode.makeAbove s (height + 1) (h.node s.n).parent m))
  let h' := match (h.node s.n).parent with
    | none => h'
    | some p => h'.setInternode p
        { h.internode p with
          children := (h.internode p).children.set (upper s.ikey (h.internode p).keys)
            (some h.size) }
  (h'.setParent s.child (some h.size)).setParent s.n (some h.size)

lemma size_cover (h : Heap β) (s : Pending) (height : ℕ) (m : Option DirectoryMeta) :
    (cover h s height m).size = h.size + 1 := by
  rw [cover]
  cases (h.node s.n).parent <;> rfl

lemma retired_cover (h : Heap β) (s : Pending) (height : ℕ) (m : Option DirectoryMeta) :
    (cover h s height m).retired = h.retired := by
  rw [cover]
  cases (h.node s.n).parent <;> rfl

/-- The ghost that belongs to it. -/
abbrev ghostCover (h : Heap β) (G : Ghost) (s : Pending) : Ghost :=
  G.cover s h.size ((h.node s.n).parent = none)

section Cover

variable (hs : SplitInv h G s) (height : ℕ) (m : Option DirectoryMeta)

include hs

/-- The heap after covering the halves, node by node. -/
lemma node_cover (a : Ptr) :
    (cover h s height m).node a =
      if a = h.size then .internode (Internode.makeAbove s (height + 1) (h.node s.n).parent m)
      else if a = s.n ∨ a = s.child then (h.node a).setParent (some h.size)
      else if some a = (h.node s.n).parent then .internode
        { h.internode a with
          children := (h.internode a).children.set (upper s.ikey (h.internode a).keys)
            (some h.size) }
      else h.node a := by
  have h1 := hs.tree.live_lt hs.live_n
  have h2 := hs.tree.live_lt hs.live_child
  cases hp : (h.node s.n).parent with
  | none =>
      simp only [cover, hp, Heap.node_setParent, Heap.node_alloc]
      split_ifs <;> simp_all
  | some p =>
      obtain ⟨ip, k₁, k₂, c₁, c₂, hip, hlive, hpn, hpc, -⟩ := hs.parent_cut hp
      have h3 := hs.tree.live_lt hlive
      simp only [cover, hp, Heap.node_setParent, Heap.node_alloc, Heap.node_setInternode]
      split_ifs <;> simp_all

lemma node_cover_new : (cover h s height m).node h.size =
    .internode (Internode.makeAbove s (height + 1) (h.node s.n).parent m) := by
  rw [hs.node_cover, if_pos rfl]

lemma cover_like {a : Ptr} (ha : a < h.size) :
    Node.Like (h.node a) ((cover h s height m).node a) := by
  rw [hs.node_cover, if_neg ha.ne]
  split_ifs with h1 h2
  · exact .setParent _ _
  · obtain ⟨ip, k₁, k₂, c₁, c₂, hip, -⟩ := hs.parent_cut h2.symm
    rw [hip]
    exact .internode (by simp [Heap.internode, hip]) (by simp [Heap.internode, hip])
      (by simp [Heap.internode, hip])
  · exact .refl _

/-- Both halves hang below the new node. -/
lemma parent_cover_half {a : Ptr} (ha : a = s.n ∨ a = s.child) :
    ((cover h s height m).node a).parent = some h.size := by
  have hlt : a < h.size := by
    rcases ha with rfl | rfl
    exacts [hs.tree.live_lt hs.live_n, hs.tree.live_lt hs.live_child]
  rw [hs.node_cover, if_neg hlt.ne, if_pos ha, Node.parent_setParent]

lemma parent_cover {a : Ptr} (ha : a < h.size) (hne : ¬ (a = s.n ∨ a = s.child)) :
    ((cover h s height m).node a).parent = (h.node a).parent := by
  rw [hs.node_cover, if_neg ha.ne, if_neg hne]
  split_ifs with h2
  · obtain ⟨ip, k₁, k₂, c₁, c₂, hip, -⟩ := hs.parent_cut h2.symm
    simp [Heap.internode, hip]
  · rfl

lemma isRoot_cover {a : Ptr} (ha : a < h.size) :
    ((cover h s height m).node a).isRoot = (h.node a).isRoot := by
  rw [hs.node_cover, if_neg ha.ne]
  split_ifs with h1 h2
  · simp
  · obtain ⟨ip, k₁, k₂, c₁, c₂, hip, -⟩ := hs.parent_cut h2.symm
    simp [Heap.internode, hip]
  · rfl

variable {height}

/-- The new node joins the layer of the halves. -/
lemma cover_addsNode (hheight : (h.node s.n).height = height) :
    AddsNode h G s.n (fun _ => False) (cover h s height m) (ghostCover h G s) where
  size := size_cover h s height m
  retired := retired_cover h s height m
  live a := by simp [Ghost.cover]
  gone a := (or_iff_left id).symm
  dropped a h0 := h0.elim
  fam a ha := if_neg ha.ne
  fam_new := if_pos rfl
  lo a ha := if_neg ha.ne
  height a ha := (hs.cover_like height m ha).height
  isLeaf a ha := (hs.cover_like height m ha).isLeaf
  deleted a ha := (hs.cover_like height m ha).deleted
  height_new := by
    rw [hs.node_cover_new]
    exact hheight ▸ hs.tree.height_lt (hs.tree.live_lt hs.live_n)
  deleted_new := by rw [hs.node_cover_new]; rfl

/-- A child other than the left half keeps what its parent knows of it. -/
lemma segOk_cover (hheight : (h.node s.n).height = height) {a l c u : ℕ} (hcn : c ≠ s.n)
    (hseg : SegOk h G (G.split s.n s.child) a (l, some c, u)) :
    SegOk (cover h s height m) (ghostCover h G s) (ghostCover h G s).exact a (l, some c, u) := by
  obtain ⟨h1, h2, h3, -⟩ := id hseg
  have hl : G.live c := h1.resolve_right id
  have hlt := hs.tree.live_lt hl
  exact (hs.cover_addsNode m hheight).segOk hs.tree hl hseg id id
    ((hs.parent_cover height m hlt (not_or.mpr ⟨hcn, h2⟩)).trans h3)
    ((if_neg hlt.ne).trans (if_neg hcn).symm)

lemma cover_up (hheight : (h.node s.n).height = height)
    (hgap : ∀ p, (h.node s.n).parent = some p → height + 1 < (h.node p).height) {a q : Ptr}
    (ha : (ghostCover h G s).Known (cover h s height m) a)
    (hq : ((cover h s height m).node a).parent = some q) :
    (ghostCover h G s).Known (cover h s height m) q ∧
      (ghostCover h G s).fam q = (ghostCover h G s).fam a ∧
      ((cover h s height m).node a).height < ((cover h s height m).node q).height ∧
      ((cover h s height m).node q).isLeaf = false := by
  have hA := hs.cover_addsNode m hheight
  have hnk := hs.tree.known hs.live_n
  rcases (hA.known_iff hs.tree).mp ha with rfl | ⟨ha, -⟩
  · rw [hs.node_cover_new] at hq ⊢
    obtain ⟨h1, h2, -, h4⟩ := hA.up hs.tree hnk hq id
    refine ⟨h1, h2.trans ((hA.fam _ hnk.1).trans hA.fam_new.symm), ?_, h4⟩
    rw [hA.height q (hs.tree.up hnk hq).1.1]
    exact hgap q hq
  · by_cases hne : a = s.n ∨ a = s.child
    · rw [hs.parent_cover_half height m hne] at hq
      obtain rfl := Option.some.inj hq
      refine ⟨(hA.known_iff hs.tree).mpr (Or.inl rfl), ?_, ?_, by rw [hs.node_cover_new]; rfl⟩
      · rw [hA.fam_new, hA.fam a ha.1]
        rcases hne with rfl | rfl
        exacts [rfl, hs.fam_child.symm]
      · rw [hA.height a ha.1, hs.node_cover_new]
        change _ < height + 1
        rcases hne with rfl | rfl
        · omega
        · rw [hs.height_child]; omega
    · rw [hs.parent_cover height m ha.1 hne] at hq
      exact hA.up hs.tree ha hq id

lemma cover_top_eq (hheight : (h.node s.n).height = height) {a : Ptr}
    (ha : (ghostCover h G s).Known (cover h s height m) a)
    (hpa : ((cover h s height m).node a).parent = none) :
    a = (ghostCover h G s).top ((ghostCover h G s).fam a) := by
  have hA := hs.cover_addsNode m hheight
  have hnk := hs.tree.known hs.live_n
  rcases (hA.known_iff hs.tree).mp ha with rfl | ⟨ha, -⟩
  · rw [hs.node_cover_new] at hpa
    exact (if_pos ⟨hpa, hA.fam_new⟩).symm
  · by_cases hne : a = s.n ∨ a = s.child
    · rw [hs.parent_cover_half height m hne] at hpa
      cases hpa
    · rw [hs.parent_cover height m ha.1 hne] at hpa
      have htop := hs.tree.top_eq ha (fun h0 => hne (Or.inr h0)) hpa
      rw [hA.fam a ha.1]
      refine htop.trans (if_neg ?_).symm
      rintro ⟨h1, h2⟩
      rw [h2, ← hs.tree.top_eq hnk (Ne.symm hs.ne) h1] at htop
      exact hne (Or.inl htop)

/-- The root of a layer changes only if the left half was it. -/
lemma cover_top_spec (hheight : (h.node s.n).height = height) {b : Ptr} (hb : G.Known h b) :
    let t := (ghostCover h G s).top (G.fam b)
    (ghostCover h G s).live t ∧ (ghostCover h G s).fam t = G.fam b ∧
      ((cover h s height m).node t).parent = none ∧ (ghostCover h G s).lo t = 0 ∧
      (ghostCover h G s).hi t = ikeyLimit := by
  intro t
  have hA := hs.cover_addsNode m hheight
  obtain ⟨h1, h2, h3, h4, h5, h6⟩ := hs.tree.top_spec hb
  by_cases hc : (h.node s.n).parent = none ∧ G.fam b = G.fam s.n
  · have hn : G.top (G.fam b) = s.n := by
      rw [hc.2]
      exact (hs.tree.top_eq (hs.tree.known hs.live_n) (Ne.symm hs.ne) hc.1).symm
    have ht : t = h.size := if_pos hc
    rw [hn] at h5 h6
    rw [ht, hA.fam_new, hs.node_cover_new]
    exact ⟨Or.inl rfl, hc.2.symm, hc.1, (if_pos rfl).trans h5,
      (if_pos rfl).trans ((if_pos rfl).symm.trans h6)⟩
  · have ht : t = G.top (G.fam b) := if_neg hc
    have hne : G.top (G.fam b) ≠ s.n := by
      intro h0
      rw [h0] at h3 h4
      exact hc ⟨h4, h3.symm⟩
    have hlt := hs.tree.live_lt h1
    rw [ht]
    obtain ⟨g1, -, g3⟩ := hA.top_spec (ghostCover h G s).exact hs.tree hb id id
      (hs.parent_cover height m hlt (not_or.mpr ⟨hne, h2⟩))
      ((if_neg hlt.ne).trans (if_neg hne).symm)
    exact ⟨g1, g3⟩

lemma cover_root_bit (hheight : (h.node s.n).height = height) {a : Ptr}
    (ha : (ghostCover h G s).Known (cover h s height m) a)
    (hst : ((cover h s height m).node a).startable) :
    (((cover h s height m).node a).isRoot = true → ((cover h s height m).node a).parent = none) ∧
      (((cover h s height m).node a).parent = none →
        ((cover h s height m).node a).isRoot = true) := by
  have hA := hs.cover_addsNode m hheight
  rcases (hA.known_iff hs.tree).mp ha with rfl | ⟨ha, -⟩
  · rw [hs.node_cover_new]
    simp only [Internode.makeAbove, Node.isRoot_internode, Node.parent_internode,
      Option.isNone_iff_eq_none]
    exact ⟨id, id⟩
  · rw [(hs.cover_like height m ha.1).startable] at hst
    rw [hs.isRoot_cover height m ha.1]
    by_cases hne : a = s.n ∨ a = s.child
    · rw [hs.parent_cover_half height m hne]
      have hbit : (h.node a).isRoot = false := by
        rcases hne with rfl | rfl
        exacts [hs.bit_n, hs.bit_child hst]
      simp [hbit]
    · rw [hs.parent_cover height m ha.1 hne]
      rw [not_or] at hne
      have hroot := hs.tree.root_bit ha hne.2 hst
      exact ⟨hroot.1, fun h0 => hroot.2 h0 hne.1⟩

lemma cover_range {a : Ptr} (ha : (ghostCover h G s).live a) :
    (ghostCover h G s).lo a < (ghostCover h G s).hi a ∧ (ghostCover h G s).hi a ≤ ikeyLimit := by
  rcases ha with rfl | ha
  · have h1 := hs.tree.range hs.live_n
    have h2 := hs.tree.range hs.live_child
    rw [hs.hi_n] at h1
    rw [hs.lo_child] at h2
    simp only [Ghost.cover, if_true]
    omega
  · have hlt := hs.tree.live_lt ha
    rw [show (ghostCover h G s).lo a = G.lo a from if_neg hlt.ne,
      show (ghostCover h G s).hi a = G.hi a from if_neg hlt.ne]
    exact hs.tree.range ha

/-- The children of an old node: in the parent of the left half the new node has taken its place. -/
lemma children_cover {a q : Ptr} (hq : G.live q) (ha : some a ∈ (h.internode q).children)
    (hne : a ≠ s.n) : some a ∈ ((cover h s height m).internode q).children := by
  rw [Heap.internode, hs.node_cover, if_neg (hs.tree.live_lt hq).ne]
  split_ifs with h3 h4
  · rw [Node.children_setParent]
    exact ha
  · obtain ⟨ip, k₁, k₂, c₁, c₂, hip, -, -, -, -, -, -, hk, hc, hl, -, -, hupper⟩ :=
      hs.parent_cut h4.symm
    rw [Heap.internode_eq hip, hc] at ha
    simp only [Heap.internode_eq hip, hupper, hc, ← hl, Node.toInternode_internode]
    simp only [List.mem_append, List.mem_cons, Option.some.injEq, hne, false_or] at ha
    simp only [List.set_append_right _ _ le_rfl, Nat.sub_self, List.set_cons_zero,
      List.mem_append, List.mem_cons]
    tauto
  · exact ha

lemma cover_linked (hheight : (h.node s.n).height = height) {a q : Ptr}
    (ha : (ghostCover h G s).live a) (hq : ((cover h s height m).node a).parent = some q) :
    (ghostCover h G s).live q ∧ some a ∈ ((cover h s height m).internode q).children := by
  rcases (hs.cover_addsNode m hheight).live_cases hs.tree ha with rfl | ⟨hlt, ha, -⟩
  · rw [hs.node_cover_new] at hq
    change (h.node s.n).parent = some q at hq
    obtain ⟨ip, k₁, k₂, c₁, c₂, hip, hlive, hpn, hpc, -, -, -, hk, hc, hl, -, -, hupper⟩ :=
      hs.parent_cut hq
    refine ⟨Or.inr hlive, ?_⟩
    rw [Heap.internode, hs.node_cover, if_neg (hs.tree.live_lt hlive).ne, if_neg (by tauto),
      if_pos hq.symm]
    simp only [Heap.internode_eq hip, hupper, hc, ← hl, Node.toInternode_internode]
    simp
  · by_cases hne : a = s.n ∨ a = s.child
    · rw [hs.parent_cover_half height m hne] at hq
      obtain rfl := Option.some.inj hq
      refine ⟨Or.inl rfl, ?_⟩
      rw [Heap.internode, hs.node_cover_new]
      rcases hne with rfl | rfl <;> simp [Internode.makeAbove]
    · rw [hs.parent_cover height m hlt hne] at hq
      rw [not_or] at hne
      obtain ⟨h1, h2⟩ := hs.tree.linked ha hne.2 hq
      exact ⟨Or.inr h1, hs.children_cover m h1 h2 hne.1⟩

/-- The links of the new node: the two halves with their separator. -/
lemma cover_link_new :
    LinkInv (cover h s height m) (ghostCover h G s) (ghostCover h G s).exact h.size
      (Internode.makeAbove s (height + 1) (h.node s.n).parent m) := by
  refine ⟨rfl, by simp [Internode.makeAbove], by simp [Internode.makeAbove, Internode.child], ?_⟩
  have hnlt := hs.tree.live_lt hs.live_n
  have hclt := hs.tree.live_lt hs.live_child
  have h1 := (hs.tree.range hs.live_n).1
  have h2 := (hs.tree.range hs.live_child).1
  rw [hs.hi_n] at h1
  rw [hs.lo_child] at h2
  have hlo' : (ghostCover h G s).lo h.size = G.lo s.n := if_pos rfl
  have hhi' : (ghostCover h G s).hi h.size = G.hi s.child := if_pos rfl
  simp only [Internode.makeAbove, segs_cons, segs_nil, hlo', hhi', List.mem_cons,
    List.not_mem_nil, or_false]
  rintro t (rfl | rfl)
  · exact ⟨Or.inl (Or.inr hs.live_n), id, hs.parent_cover_half height m (Or.inl rfl),
      if_neg hnlt.ne, (if_neg hnlt.ne).trans hs.hi_n, h1⟩
  · exact ⟨Or.inl (Or.inr hs.live_child), id, hs.parent_cover_half height m (Or.inr rfl),
      (if_neg hclt.ne).trans hs.lo_child, if_neg hclt.ne, h2⟩

/-- The links of the parent of the left half, in which the new node has taken its place. -/
lemma cover_link_parent (hheight : (h.node s.n).height = height) {a : Ptr} {n : Internode}
    (hp : (h.node s.n).parent = some a) (hn : (cover h s height m).node a = .internode n) :
    LinkInv (cover h s height m) (ghostCover h G s) (ghostCover h G s).exact a n := by
  obtain ⟨ip, k₁, k₂, c₁, c₂, hip, hlive, hpn, hpc, -, -, hlink, hk, hc, hl, hdn, hup, hupper⟩ :=
    hs.parent_cut hp
  have hlt := hs.tree.live_lt hlive
  have hlo : (ghostCover h G s).lo a = G.lo a := if_neg hlt.ne
  have hhi : (ghostCover h G s).hi a = G.hi a := if_neg hlt.ne
  rw [hs.node_cover, if_neg hlt.ne, if_neg (by tauto), if_pos hp.symm] at hn
  obtain rfl : _ = n := by simpa using hn
  have hset : ip.children.set (upper s.ikey ip.keys) (some h.size) = c₁ ++ some h.size :: c₂ := by
    rw [hupper, hc, ← hl]
    simp
  have hlen := hlink.length
  have htail := hlink.tail
  have hsegs := hlink.segs
  have hnot := hlink.child_notMem hc
  rw [hk, hc, segs_around _ _ _ _ _ _ _ hl, hdn, hup] at hsegs
  rw [hc] at hlen htail
  simp only [Heap.internode_eq hip, hset]
  refine ⟨by simpa using hlen, ?_, ?_, ?_⟩
  · rintro c hc0 rfl
    refine htail none ?_ rfl
    cases c₁ with
    | nil => simpa using hc0
    | cons d ds => simpa using hc0
  · have hhead := hlink.head
    simp only [Internode.child, hc, hlo] at hhead ⊢
    cases c₁ with
    | nil => simp
    | cons d ds => simpa using hhead
  · rw [hk, segs_around _ _ _ _ _ _ _ hl, hlo, hhi, hdn, hup]
    have h1 := (hs.tree.range hs.live_n).1
    have h2 := (hs.tree.range hs.live_child).1
    rw [hs.hi_n] at h1
    rw [hs.lo_child] at h2
    intro t ht
    by_cases htt : t = (G.lo s.n, some h.size, G.hi s.child)
    · subst htt
      exact ⟨Or.inl (Or.inl rfl), id, by rw [hs.node_cover_new]; exact hp, if_pos rfl, if_pos rfl,
        h1.trans h2⟩
    · obtain ⟨l, c, u⟩ := t
      simp only [List.mem_append, List.mem_cons, htt, false_or] at ht
      have hold : SegOk h G (G.split s.n s.child) a (l, c, u) := hsegs _ (by
        simp only [List.mem_append, List.mem_cons]
        tauto)
      cases c with
      | none => exact hold
      | some c =>
          refine hs.segOk_cover m hheight ?_ hold
          rintro rfl
          rcases ht with ht | ht
          · exact hnot.1 (mem_of_mem_before ht)
          · exact hnot.2 (mem_of_mem_after ht)

lemma cover_link (hheight : (h.node s.n).height = height) {a : Ptr} {n : Internode}
    (ha : (ghostCover h G s).live a) (hn : (cover h s height m).node a = .internode n) :
    LinkInv (cover h s height m) (ghostCover h G s) (ghostCover h G s).exact a n := by
  rcases (hs.cover_addsNode m hheight).live_cases hs.tree ha with rfl | ⟨hlt, ha, -⟩
  · rw [hs.node_cover_new] at hn
    obtain rfl : _ = n := by simpa using hn
    exact hs.cover_link_new m
  · by_cases hp : (h.node s.n).parent = some a
    · exact hs.cover_link_parent m hheight hp hn
    · have hold : ∃ m, h.node a = .internode m ∧ n.keys = m.keys ∧ n.children = m.children := by
        rw [hs.node_cover, if_neg hlt.ne] at hn
        split_ifs at hn with h1 h2
        · exact Node.internode_of_setParent hn
        · exact absurd h2.symm hp
        · exact ⟨n, hn, rfl, rfl⟩
      obtain ⟨m', hm', hmk, hmc⟩ := hold
      refine (hs.tree.link ha hm').congr hmk hmc (if_neg hlt.ne) (if_neg hlt.ne) ?_
      intro l c u _ hso
      refine hs.segOk_cover m hheight ?_ hso
      rintro rfl
      exact hp hso.2.2.1

/-- **Covering the halves** ends the excuse. -/
lemma cover_treeInv (hheight : (h.node s.n).height = height)
    (hgap : ∀ p, (h.node s.n).parent = some p → height + 1 < (h.node p).height) :
    TreeInv (cover h s height m) (G.cover s h.size ((h.node s.n).parent = none))
      (G.cover s h.size ((h.node s.n).parent = none)).exact := by
  have hA := hs.cover_addsNode m hheight
  have hnk := hs.tree.known hs.live_n
  exact {
    known := hA.known hs.tree
    gone_lt := fun ha => by rw [hA.size]; exact Nat.lt_succ_of_lt (hA.gone_lt hs.tree ha)
    up := hs.cover_up m hheight hgap
    top_eq := fun ha _ => hs.cover_top_eq m hheight ha
    top_spec := by
      intro a ha
      obtain ⟨b, hb, hab⟩ := hA.exists_fam hs.tree hnk ha
      rw [hab]
      obtain ⟨g1, g2⟩ := hs.cover_top_spec m hheight hb
      exact ⟨g1, id, g2⟩
    fam_spec := hA.fam_spec hs.tree hnk
    height_lt := hA.height_lt hs.tree
    root_bit := fun ha _ hst =>
      (hs.cover_root_bit m hheight ha hst).imp_right fun h0 h1 _ => h0 h1
    range := hs.cover_range
    linked := fun ha _ => hs.cover_linked m hheight ha
    link := hs.cover_link m hheight
    not_deleted := hA.not_deleted hs.tree
    retired_dead := hA.retired_dead hs.tree }

end Cover

end SplitInv

end MasstreeLHM
