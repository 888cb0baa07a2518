import MasstreeLHM.Invariant

/-!
# A split that is not linked yet

The loop of `make_split` keeps one excuse: the right half `child` of the node `n` is already
responsible for its part of the range, but no internode knows it yet, and the parent of `n` still
counts with the old upper end.  `SplitInv` is the tree invariant with this excuse, and `Above` says
what the loop leaves alone on its way up: the leaves, the layers, and the ranges of the leaves.

Where the parent has room, the right half is hung into it, which ends the excuse
(`SplitInv.hang_treeInv`).  A separator is then added at the cut where the left half hangs
(`SplitInv.parent_cut`), so that the range the parent knows falls into the ranges of the halves.

`LinkInv.congr` carries the links of an internode over to another heap and ghost.  It serves all
internodes that a step does not change; what is left is one lemma for the parent, here
`hang_link_parent`.
-/

namespace MasstreeLHM

open Separators

variable {β : Type} {h h' : Heap β} {G G' : Ghost}

/-- The excuse of a pending split of `n` into `n` and `child`. -/
def Ghost.split (G : Ghost) (n child : Ptr) : Excused :=
  ⟨fun a => if a = n then G.hi child else G.hi a, fun _ => False, (· = child), (· = n)⟩

/-- The tree invariant with a pending split. -/
structure SplitInv (h : Heap β) (G : Ghost) (s : Pending) : Prop where
  tree : TreeInv h G (G.split s.n s.child)
  live_n : G.live s.n
  live_child : G.live s.child
  ne : s.child ≠ s.n
  fam_child : G.fam s.child = G.fam s.n
  hi_n : G.hi s.n = s.ikey
  lo_child : G.lo s.child = s.ikey
  height_child : (h.node s.child).height = (h.node s.n).height
  bit_n : (h.node s.n).isRoot = false
  bit_child : (h.node s.child).startable → (h.node s.child).isRoot = false
  parent_child : (h.node s.child).parent = none

/-- What a change above the leaves of layer `φ` leaves alone. -/
structure Above (φ : Ptr) (h : Heap β) (G : Ghost) (h' : Heap β) (G' : Ghost) : Prop where
  size_le : h.size ≤ h'.size
  retired : h'.retired = h.retired
  gone : G'.gone = G.gone
  leafData : ∀ a < h.size, (h'.node a).leafData = (h.node a).leafData
  new_node : ∀ a < h'.size, h.size ≤ a → (h'.node a).isLeaf = false ∧
    ∃ b, G.Known h b ∧ G'.fam a = G.fam b
  live : ∀ a < h.size, G'.live a ↔ G.live a
  fam : ∀ a < h.size, G'.fam a = G.fam a
  lo : ∀ a < h.size, G'.lo a = G.lo a
  hi : ∀ a < h.size, (h.node a).isLeaf = true → G'.hi a = G.hi a
  directoryMeta : ∀ a, G.Known h a → (h'.node (G'.top (G.fam a))).directoryMeta
    = (h.node (G.top (G.fam a))).directoryMeta
  top : ∀ f, f ≠ φ → G'.top f = G.top f

namespace Above

variable {φ : Ptr}

lemma isLeaf (hA : Above φ h G h' G') {a : Ptr} (ha : a < h.size) :
    (h'.node a).isLeaf = (h.node a).isLeaf := by
  have := hA.leafData a ha
  cases h1 : h'.node a <;> cases h2 : h.node a <;> simp_all

lemma known (hA : Above φ h G h' G') {a : Ptr} (ha : G.Known h a) : G'.Known h' a :=
  ⟨ha.1.trans_le hA.size_le, by rw [hA.gone]; exact ha.2⟩

lemma trans {h'' : Heap β} {G'' : Ghost} (h₁ : Above φ h G h' G') (h₂ : Above φ h' G' h'' G'') :
    Above φ h G h'' G'' where
  size_le := h₁.size_le.trans h₂.size_le
  retired := h₂.retired.trans h₁.retired
  gone := h₂.gone.trans h₁.gone
  leafData a ha := (h₂.leafData a (ha.trans_le h₁.size_le)).trans (h₁.leafData a ha)
  new_node a ha hn := by
    by_cases ha' : a < h'.size
    · obtain ⟨h3, b, hb, hfb⟩ := h₁.new_node a ha' hn
      exact ⟨(h₂.isLeaf ha').trans h3, b, hb, (h₂.fam a ha').trans hfb⟩
    · obtain ⟨h3, b, hb, hfb⟩ := h₂.new_node a ha (by omega)
      refine ⟨h3, ?_⟩
      by_cases hb' : b < h.size
      · exact ⟨b, ⟨hb', h₁.gone ▸ hb.2⟩, hfb.trans (h₁.fam b hb')⟩
      · obtain ⟨-, d, hd, hfd⟩ := h₁.new_node b hb.1 (Nat.le_of_not_lt hb')
        exact ⟨d, hd, hfb.trans hfd⟩
  live a ha := (h₂.live a (ha.trans_le h₁.size_le)).trans (h₁.live a ha)
  fam a ha := (h₂.fam a (ha.trans_le h₁.size_le)).trans (h₁.fam a ha)
  lo a ha := (h₂.lo a (ha.trans_le h₁.size_le)).trans (h₁.lo a ha)
  hi a ha hl := (h₂.hi a (ha.trans_le h₁.size_le) ((h₁.isLeaf ha).trans hl)).trans (h₁.hi a ha hl)
  directoryMeta a ha := by
    have := h₂.directoryMeta a (h₁.known ha)
    rw [h₁.fam a ha.1] at this
    exact this.trans (h₁.directoryMeta a ha)
  top f hf := (h₂.top f hf).trans (h₁.top f hf)

end Above

/-- Links carry over to another heap and ghost when the node itself, its range and the facts
about its children do. -/
lemma LinkInv.congr {X X' : Excused} {a a' : Ptr} {n n' : Internode} (hn : LinkInv h G X a n)
    (hk : n'.keys = n.keys) (hc : n'.children = n.children) (hlo : G'.lo a' = G.lo a)
    (hhi : G'.hi a' = G.hi a)
    (hseg : ∀ l c u, some c ∈ n.children → SegOk h G X a (l, some c, u) →
      SegOk h' G' X' a' (l, some c, u)) :
    LinkInv h' G' X' a' n' where
  length := by rw [hk, hc]; exact hn.length
  tail := by rw [hc]; exact hn.tail
  head := by rw [Internode.child, hk, hc, hlo]; exact hn.head
  segs := by
    rw [hk, hc, hlo, hhi]
    rintro ⟨l, c, u⟩ hs
    cases c with
    | none => exact hn.segs _ hs
    | some c =>
        obtain ⟨k₁, k₂, c₁, c₂, -, hcs, -⟩ := exists_cut hn.length hs
        exact hseg l c u (by simp [hcs]) (hn.segs _ hs)

/-! ## The parent has room -/

lemma Internode.insertChild_cut {n : Internode} {k₁ k₂ : List ℕ} {c₁ c₂ : List (Option Ptr)}
    {c : Option Ptr} {x : ℕ} {d : Ptr} (hk : n.keys = k₁ ++ k₂) (hc : n.children = c₁ ++ c :: c₂)
    (hl : c₁.length = k₁.length) :
    (n.insertChild k₁.length x d).keys = k₁ ++ x :: k₂ ∧
      (n.insertChild k₁.length x d).children = c₁ ++ c :: some d :: c₂ := by
  constructor
  · simp [Internode.insertChild, hk]
  · simp only [Internode.insertChild, hc, ← hl]
    rw [List.take_append, List.drop_append, List.take_of_length_le (by omega),
      List.drop_eq_nil_of_le (by omega)]
    simp

namespace SplitInv

variable {s : Pending} {p : Ptr}

/-- The parent of the left half, and the child of it that the separator leads to. -/
lemma parent_cut (hs : SplitInv h G s) (hp : (h.node s.n).parent = some p) :
    ∃ ip k₁ k₂ c₁ c₂, h.node p = .internode ip ∧ G.live p ∧ p ≠ s.n ∧ p ≠ s.child ∧
      G.fam p = G.fam s.n ∧ (h.node s.n).height < ip.height ∧
      LinkInv h G (G.split s.n s.child) p ip ∧
      ip.keys = k₁ ++ k₂ ∧ ip.children = c₁ ++ some s.n :: c₂ ∧ c₁.length = k₁.length ∧
      downTo (G.lo p) k₁ = G.lo s.n ∧ upTo (G.hi p) k₂ = G.hi s.child ∧
      upper s.ikey ip.keys = k₁.length := by
  obtain ⟨-, hfam, hh, hint⟩ := hs.tree.up (hs.tree.known hs.live_n) hp
  obtain ⟨hlive, hmem⟩ := hs.tree.linked hs.live_n (Ne.symm hs.ne) hp
  obtain ⟨ip, hip⟩ := Node.exists_internode hint
  rw [Heap.internode_eq hip] at hmem
  have hlink := hs.tree.link hlive hip
  obtain ⟨k₁, k₂, c₁, c₂, hk, hc, hl, hlo, hup, -, -, -, hupper⟩ := hlink.cut_child hmem
  have hview : (G.split s.n s.child).view s.n = G.hi s.child := if_pos rfl
  have h1 := (hs.tree.range hs.live_n).1
  have h2 := (hs.tree.range hs.live_child).1
  rw [hs.hi_n] at h1
  rw [hs.lo_child] at h2
  rw [hip] at hh
  refine ⟨ip, k₁, k₂, c₁, c₂, hip, hlive, ?_, ?_, hfam, hh, hlink, hk, hc, hl, hlo, hview ▸ hup,
    hupper _ h1.le (by rw [hview]; exact h2)⟩
  · rintro rfl
    simp [hip] at hh
  · rintro rfl
    have := hs.height_child
    simp only [hip, Node.height_internode] at this hh
    omega

/-- The heap after the right half has been hung into the parent `p` of the left half. -/
def hang (h : Heap β) (s : Pending) (p : Ptr) : Heap β :=
  (h.setInternode p ((h.internode p).insertChild (upper s.ikey (h.internode p).keys) s.ikey
    s.child)).setParent s.child (some p)

/-- The heap after hanging, node by node. -/
lemma node_hang {ip : Internode} {k₁ : List ℕ} (hip : h.node p = .internode ip)
    (hpc : p ≠ s.child) (hupper : upper s.ikey ip.keys = k₁.length)
    (a : Ptr) : (hang h s p).node a =
      if a = s.child then (h.node a).setParent (some p)
      else if a = p then .internode (ip.insertChild k₁.length s.ikey s.child) else h.node a := by
  simp only [hang, Heap.internode_eq hip, hupper, Heap.node_setParent, Heap.node_setInternode]
  split_ifs <;> simp_all

lemma hang_like (hs : SplitInv h G s) (hp : (h.node s.n).parent = some p) (a : Ptr) :
    Node.Like (h.node a) ((hang h s p).node a) := by
  obtain ⟨ip, k₁, k₂, c₁, c₂, hip, -, -, hpc, -, -, -, -, -, -, -, -, hupper⟩ := hs.parent_cut hp
  rw [node_hang hip hpc hupper]
  split_ifs with h1 h2
  · exact .setParent _ _
  · rw [h2, hip]
    exact .internode rfl rfl rfl
  · exact .refl _

section Hang

variable (hs : SplitInv h G s) (hp : (h.node s.n).parent = some p)

include hs hp

lemma parent_hang {a : Ptr} (ha : a ≠ s.child) :
    ((hang h s p).node a).parent = (h.node a).parent := by
  obtain ⟨ip, k₁, k₂, c₁, c₂, hip, -, -, hpc, -, -, -, -, -, -, -, -, hupper⟩ := hs.parent_cut hp
  rw [node_hang hip hpc hupper, if_neg ha]
  split_ifs with h2
  · rw [h2, hip]; rfl
  · rfl

lemma parent_hang_child : ((hang h s p).node s.child).parent = some p := by
  obtain ⟨ip, k₁, k₂, c₁, c₂, hip, -, -, hpc, -, -, -, -, -, -, -, -, hupper⟩ := hs.parent_cut hp
  rw [node_hang hip hpc hupper, if_pos rfl, Node.parent_setParent]

lemma isRoot_hang (a : Ptr) : ((hang h s p).node a).isRoot = (h.node a).isRoot := by
  obtain ⟨ip, k₁, k₂, c₁, c₂, hip, -, -, hpc, -, -, -, -, -, -, -, -, hupper⟩ := hs.parent_cut hp
  rw [node_hang hip hpc hupper]
  split_ifs with h1 h2
  · simp
  · rw [h2, hip]; rfl
  · rfl

/-- A child other than the left half keeps what its parent knows of it. -/
lemma segOk_hang {a l c u : ℕ} (hcn : c ≠ s.n)
    (hseg : SegOk h G (G.split s.n s.child) a (l, some c, u)) :
    SegOk (hang h s p) G G.exact a (l, some c, u) := by
  obtain ⟨h1, h2, h3, h4, h5, h6⟩ := hseg
  exact ⟨h1, id, by rw [hs.parent_hang hp h2]; exact h3, h4, (if_neg hcn).symm.trans h5, h6⟩

lemma hang_up {a q : Ptr} (ha : G.Known h a) (hq : ((hang h s p).node a).parent = some q) :
    G.Known h q ∧ G.fam q = G.fam a ∧
      ((hang h s p).node a).height < ((hang h s p).node q).height ∧
      ((hang h s p).node q).isLeaf = false := by
  rw [(hs.hang_like hp a).height, (hs.hang_like hp q).height, (hs.hang_like hp q).isLeaf]
  by_cases hac : a = s.child
  · rw [hac, hs.parent_hang_child hp] at hq
    obtain rfl := Option.some.inj hq
    rw [hac, hs.fam_child, hs.height_child]
    exact hs.tree.up (hs.tree.known hs.live_n) hp
  · rw [hs.parent_hang hp hac] at hq
    exact hs.tree.up ha hq

lemma hang_top_spec {a : Ptr} (ha : G.Known h a) : G.live (G.top (G.fam a)) ∧
    G.fam (G.top (G.fam a)) = G.fam a ∧ ((hang h s p).node (G.top (G.fam a))).parent = none ∧
    G.lo (G.top (G.fam a)) = 0 ∧ G.hi (G.top (G.fam a)) = ikeyLimit := by
  obtain ⟨h1, h2, h3, h4, h5, h6⟩ := hs.tree.top_spec ha
  have hne : G.top (G.fam a) ≠ s.n := by
    intro h0
    rw [h0, hp] at h4
    cases h4
  exact ⟨h1, h3, by rw [hs.parent_hang hp h2]; exact h4, h5, (if_neg hne).symm.trans h6⟩

lemma hang_root_bit {a : Ptr} (ha : G.Known h a) (hst : ((hang h s p).node a).startable) :
    (((hang h s p).node a).isRoot = true → ((hang h s p).node a).parent = none) ∧
      (((hang h s p).node a).parent = none → ((hang h s p).node a).isRoot = true) := by
  rw [hs.isRoot_hang hp]
  rw [(hs.hang_like hp a).startable] at hst
  by_cases hac : a = s.child
  · rw [hac] at hst ⊢
    simp [hs.bit_child hst, hs.parent_hang_child hp]
  · rw [hs.parent_hang hp hac]
    have := hs.tree.root_bit ha hac hst
    refine ⟨this.1, fun h0 => this.2 h0 ?_⟩
    rintro rfl
    simp [hp] at h0

lemma hang_linked {a q : Ptr} (ha : G.live a) (hq : ((hang h s p).node a).parent = some q) :
    G.live q ∧ some a ∈ ((hang h s p).internode q).children := by
  obtain ⟨ip, k₁, k₂, c₁, c₂, hip, hlive, -, hpc, -, -, -, hk, hc, hl, -, -, hupper⟩ :=
    hs.parent_cut hp
  obtain ⟨-, hc'⟩ := Internode.insertChild_cut (x := s.ikey) (d := s.child) hk hc hl
  have hnode := node_hang hip hpc hupper
  by_cases hac : a = s.child
  · rw [hac, hs.parent_hang_child hp] at hq
    obtain rfl := Option.some.inj hq
    refine ⟨hlive, ?_⟩
    simp [hac, Heap.internode, hnode, hpc, hc']
  · rw [hs.parent_hang hp hac] at hq
    obtain ⟨hq1, hq2⟩ := hs.tree.linked ha hac hq
    refine ⟨hq1, ?_⟩
    simp only [Heap.internode] at hq2 ⊢
    rw [hnode]
    split_ifs with h1 h2
    · simpa using hq2
    · subst h2
      rw [hip] at hq2
      simp only [Node.toInternode_internode, hc, hc', List.mem_append, List.mem_cons] at hq2 ⊢
      tauto
    · exact hq2

/-- The links of the parent with one more child. -/
lemma hang_link_parent {n : Internode} (hn : (hang h s p).node p = .internode n) :
    LinkInv (hang h s p) G G.exact p n := by
  obtain ⟨ip, k₁, k₂, c₁, c₂, hip, hlive, -, hpc, -, -, hlink, hk, hc, hl, hlo, hup, hupper⟩ :=
    hs.parent_cut hp
  obtain ⟨hk', hc'⟩ := Internode.insertChild_cut (x := s.ikey) (d := s.child) hk hc hl
  rw [node_hang hip hpc hupper, if_neg hpc, if_pos rfl] at hn
  obtain rfl : _ = n := by simpa using hn
  have hlen := hlink.length
  have htail := hlink.tail
  have hsegs := hlink.segs
  have hnot := hlink.child_notMem hc
  rw [hk, hc] at hlen hsegs
  rw [hc] at htail
  rw [segs_around _ _ _ _ _ _ _ hl, hlo, hup] at hsegs
  refine ⟨?_, ?_, ?_, ?_⟩
  · rw [hk', hc']
    simp only [List.length_append, List.length_cons] at hlen ⊢
    omega
  · rw [hc']
    rintro c hc0 rfl
    refine htail none ?_ rfl
    cases c₁ with
    | nil => simpa using hc0
    | cons d ds => simpa using hc0
  · intro h0
    refine ⟨by simp [hk'], (hlink.head ?_).2⟩
    rw [Internode.child, hc'] at h0
    rw [Internode.child, hc]
    cases c₁ with
    | nil => simp at h0
    | cons d ds => simpa using h0
  · rw [hk', hc', segs_insert _ _ _ _ _ _ _ _ _ hl, hlo, hup]
    have hn1 := (hs.tree.range hs.live_n).1
    have hc1 := (hs.tree.range hs.live_child).1
    rw [hs.hi_n] at hn1
    rw [hs.lo_child] at hc1
    have keep : ∀ t, t ∈ before (G.lo p) k₁ c₁ ∨ t ∈ after (G.hi p) k₂ c₂ →
        SegOk (hang h s p) G G.exact p t := by
      rintro ⟨l, c, u⟩ ht
      have hold : SegOk h G (G.split s.n s.child) p (l, c, u) := hsegs _ (by
        simp only [List.mem_append, List.mem_cons]
        tauto)
      cases c with
      | none => exact hold
      | some c =>
          refine hs.segOk_hang hp ?_ hold
          rintro rfl
          rcases ht with ht | ht
          · exact hnot.1 (mem_of_mem_before ht)
          · exact hnot.2 (mem_of_mem_after ht)
    intro t ht
    simp only [List.mem_append, List.mem_cons] at ht
    rcases ht with ht | rfl | rfl | ht
    · exact keep t (Or.inl ht)
    · exact ⟨Or.inl hs.live_n, id, by rw [hs.parent_hang hp (Ne.symm hs.ne)]; exact hp, rfl,
        hs.hi_n, hn1⟩
    · exact ⟨Or.inl hs.live_child, id, hs.parent_hang_child hp, hs.lo_child, rfl, hc1⟩
    · exact keep t (Or.inr ht)

lemma hang_link {a : Ptr} {n : Internode} (ha : G.live a)
    (hn : (hang h s p).node a = .internode n) : LinkInv (hang h s p) G G.exact a n := by
  by_cases hap : a = p
  · subst hap
    exact hs.hang_link_parent hp hn
  · -- the children of another node are neither of the two halves
    obtain ⟨ip, k₁, k₂, c₁, c₂, hip, -, -, hpc, -, -, -, -, -, -, -, -, hupper⟩ := hs.parent_cut hp
    have hold : ∃ m, h.node a = .internode m ∧ n.keys = m.keys ∧ n.children = m.children := by
      rw [node_hang hip hpc hupper, if_neg hap] at hn
      split_ifs at hn with h1
      · exact Node.internode_of_setParent hn
      · exact ⟨n, hn, rfl, rfl⟩
    obtain ⟨m, hm, hmk, hmc⟩ := hold
    refine (hs.tree.link ha hm).congr hmk hmc rfl rfl fun l c u _ hold => ?_
    refine hs.segOk_hang hp ?_ hold
    rintro rfl
    exact hap (by simpa [hp] using hold.2.2.1.symm)

/-- **Hanging the right half into the parent**, however full it is, ends the excuse. -/
lemma hang_treeInv : TreeInv (hang h s p) G G.exact where
  known := hs.tree.known
  gone_lt := hs.tree.gone_lt
  up := hs.hang_up hp
  top_eq := by
    intro a ha _ hpa
    by_cases hac : a = s.child
    · rw [hac, hs.parent_hang_child hp] at hpa
      cases hpa
    · rw [hs.parent_hang hp hac] at hpa
      exact hs.tree.top_eq ha hac hpa
  top_spec ha :=
    have h0 := hs.hang_top_spec hp ha
    ⟨h0.1, id, h0.2⟩
  fam_spec := by
    intro a ha
    rw [(hs.hang_like hp _).isLeaf]
    exact hs.tree.fam_spec ha
  height_lt := by
    intro a ha
    rw [(hs.hang_like hp a).height]
    exact hs.tree.height_lt ha
  root_bit := by
    intro a ha _ hst
    exact (hs.hang_root_bit hp ha hst).imp_right fun h0 h1 _ => h0 h1
  range := hs.tree.range
  linked := fun ha _ hq => hs.hang_linked hp ha hq
  link := hs.hang_link hp
  not_deleted := by
    intro a ha
    rw [(hs.hang_like hp a).deleted]
    exact hs.tree.not_deleted ha
  retired_dead := hs.tree.retired_dead

end Hang

end SplitInv

end MasstreeLHM
