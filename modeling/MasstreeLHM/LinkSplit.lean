import MasstreeLHM.Cover
import MasstreeLHM.Divide

/-!
# Linking the halves of a split

One round of the loop of `make_split` ends the excuse of a pending split, by a new node over the
halves or by hanging the right half into a parent with room, or hands it to the parent, which is
divided after the insertion (`SplitInv.linkSplit_spec`).  The code inserts into one of the halves of
a parent that it has divided; that this is the same is `SplitInv.linkSplit_full`.

The three ways are proved in files of their own, for `hang`, `cover` and `divide`.
`linkSplit_room`, `linkSplit_none`, `linkSplit_gap` and `linkSplit_full` say which of them a round
takes.  A full parent is first hung into, as if it had room, and then divided (`hang_dividing`), so
that dividing does not have to know of the insertion.

A round that does not end the loop goes up by one level and adds no height, so the loop ends
(`SplitInv.ascend_spec`), and leaves alone what is not above the leaf (`Above`).
-/

namespace MasstreeLHM

open Separators

variable {β : Type} {h h' : Heap β} {G G' : Ghost}

/-- `split_into` inserts the new child and cuts the result at `mid`. -/
lemma Internode.splitInto_spec (P : NodeParams) {n : Internode} {k₁ k₂ : List ℕ}
    {c₁ c₂ : List (Option Ptr)} {c : Option Ptr} (x : ℕ) (d : Ptr) (t : ℕ)
    (hk : n.keys = k₁ ++ k₂) (hc : n.children = c₁ ++ c :: c₂) (hl : c₁.length = k₁.length)
    (hW : P.internodeWidth ≤ n.keys.length) :
    ∃ mid, 0 < mid ∧ mid ≤ n.keys.length ∧
      (k₁ ++ x :: k₂)[mid]? = some (n.splitInto P k₁.length x d t).splitIkey ∧
      (n.splitInto P k₁.length x d t).rightKeys = (k₁ ++ x :: k₂).drop (mid + 1) ∧
      (n.splitInto P k₁.length x d t).rightChildren
        = (c₁ ++ c :: some d :: c₂).drop (mid + 1) ∧
      (((n.splitInto P k₁.length x d t).kp = some k₁.length ∧ k₁.length < mid ∧
          (n.splitInto P k₁.length x d t).leftKeys = n.keys.take (mid - 1) ∧
          (n.splitInto P k₁.length x d t).leftChildren = n.children.take mid) ∨
        ((n.splitInto P k₁.length x d t).kp = none ∧ mid ≤ k₁.length ∧
          (n.splitInto P k₁.length x d t).leftKeys = (k₁ ++ x :: k₂).take mid ∧
          (n.splitInto P k₁.length x d t).leftChildren
            = (c₁ ++ c :: some d :: c₂).take (mid + 1))) := by
  have hW1 := P.one_le_internodeWidth
  refine ⟨if t = 2 then P.internodeWidth else (P.internodeWidth + 1) / 2, by split_ifs <;> omega,
    by split_ifs <;> omega, ?_⟩
  have hmid : (if t = 2 then P.internodeWidth else (P.internodeWidth + 1) / 2) ≤ n.keys.length := by
    split_ifs <;> omega
  have hmid0 : 0 < (if t = 2 then P.internodeWidth else (P.internodeWidth + 1) / 2) := by
    split_ifs <;> omega
  rw [Internode.splitInto]
  generalize (if t = 2 then P.internodeWidth else (P.internodeWidth + 1) / 2) = mid at hmid hmid0 ⊢
  rw [hk, List.length_append] at hmid
  simp only [hk, hc]
  have e1 : (c₁ ++ c :: c₂).take (k₁.length + 1) = c₁ ++ [c] := by
    rw [← hl, List.take_length_add_append, List.take_succ_cons, List.take_zero]
  have e2 : (c₁ ++ c :: c₂).drop (k₁.length + 1) = c₂ := by simp [← hl]
  have e3 : c₁ ++ c :: some d :: c₂ = (c₁ ++ [c]) ++ some d :: c₂ := by simp
  split_ifs with h1 h2
  · -- the new child goes to the left half
    obtain ⟨j, rfl⟩ : ∃ j, mid = k₁.length + 1 + j := ⟨mid - (k₁.length + 1), by omega⟩
    have hj : j < k₂.length := by omega
    refine ⟨?_, ?_, ?_, Or.inl ⟨rfl, h1, rfl, rfl⟩⟩
    · rw [List.getElem?_append_right (by omega), List.getD_eq_getElem?_getD,
        List.getElem?_append_right (by omega), show k₁.length + 1 + j - k₁.length = j + 1 by omega,
        show k₁.length + 1 + j - 1 - k₁.length = j by omega]
      simp [hj]
    · simp only [show k₁.length + 1 + j = k₁.length + (j + 1) by omega, Nat.add_assoc,
        List.drop_length_add_append, List.drop_succ_cons]
    · simp only [show k₁.length + 1 + j = c₁.length + (j + 1) by omega, Nat.add_assoc,
        List.drop_length_add_append, List.drop_succ_cons]
  · -- the new separator itself moves up
    subst h2
    refine ⟨by simp, by simp, ?_, Or.inr ⟨rfl, le_rfl, by simp, ?_⟩⟩ <;> dsimp only
    · rw [e2, ← hl, List.drop_length_add_append, List.drop_succ_cons, List.drop_zero]
    · rw [e1, ← hl, List.take_length_add_append, List.take_succ_cons, List.take_zero]
  · -- the new child goes to the right half
    refine ⟨?_, ?_, ?_, Or.inr ⟨rfl, by omega, ?_, ?_⟩⟩ <;> dsimp only
    · rw [List.getElem?_append_left (by omega), List.getD_eq_getElem?_getD,
        List.getElem?_append_left (by omega)]
      simp [show mid < k₁.length by omega]
    · rw [List.take_left, List.drop_left, List.drop_append_of_le_length (by omega)]
    · rw [e1, e2, e3]
      exact (List.drop_append_of_le_length (by simp; omega)).symm
    · rw [List.take_append_of_le_length (by omega), List.take_append_of_le_length (by omega)]
    · rw [List.take_append_of_le_length (by omega), List.take_append_of_le_length (by omega)]

/-- The new child goes to the left half of a node that has been cut already. -/
lemma Internode.insertChild_take (n : Internode) {k₁ : List ℕ} (k₂ : List ℕ)
    {c₁ : List (Option Ptr)} (c₂ : List (Option Ptr)) (c : Option Ptr) {mid : ℕ} (x : ℕ) (d : Ptr)
    (hlt : k₁.length < mid) (hl : c₁.length = k₁.length) :
    Internode.insertChild
        { n with keys := (k₁ ++ k₂).take (mid - 1), children := (c₁ ++ c :: c₂).take mid }
        k₁.length x d =
      { n with keys := (k₁ ++ x :: k₂).take mid,
               children := (c₁ ++ c :: some d :: c₂).take (mid + 1) } := by
  obtain ⟨j, rfl⟩ : ∃ j, mid = k₁.length + (j + 1) := ⟨mid - k₁.length - 1, by omega⟩
  have hkeys : (k₁ ++ k₂).take (k₁.length + (j + 1) - 1) = k₁ ++ k₂.take j := by
    rw [show k₁.length + (j + 1) - 1 = k₁.length + j by omega, List.take_length_add_append]
  have hchildren : (c₁ ++ c :: c₂).take (k₁.length + (j + 1)) = c₁ ++ c :: c₂.take j := by
    rw [← hl, List.take_length_add_append, List.take_succ_cons]
  have hkeys' : (k₁ ++ x :: k₂).take (k₁.length + (j + 1)) = k₁ ++ x :: k₂.take j := by
    rw [List.take_length_add_append, List.take_succ_cons]
  have hchildren' : (c₁ ++ c :: some d :: c₂).take (k₁.length + (j + 1) + 1)
      = c₁ ++ c :: some d :: c₂.take j := by
    rw [← hl, Nat.add_assoc, List.take_length_add_append, List.take_succ_cons, List.take_succ_cons]
  obtain ⟨e1, e2⟩ := Internode.insertChild_cut (x := x) (d := d)
    (n := { n with keys := k₁ ++ k₂.take j, children := c₁ ++ c :: c₂.take j }) rfl rfl hl
  rw [hkeys, hchildren, hkeys', hchildren', ← e1, ← e2]
  rfl

/-! ## One round -/

namespace SplitInv

variable {s : Pending} {p : Ptr}

lemma linkSplit_none (P : NodeParams) (t height : ℕ) (hp : (h.node s.n).parent = none) :
    linkSplit P h s height t = (cover h s height (h.node s.n).directoryMeta, none) := by
  simp only [linkSplit, cover, hp]

lemma linkSplit_gap (P : NodeParams) (t : ℕ) {height : ℕ}
    (hp : (h.node s.n).parent = some p)
    (hgap : height + 1 < (h.internode p).height) :
    linkSplit P h s height t = (cover h s height none, none) := by
  simp only [linkSplit, cover, hp, if_pos hgap]

lemma linkSplit_room (P : NodeParams) (t : ℕ) {height : ℕ} (hp : (h.node s.n).parent = some p)
    (hgap : ¬ height + 1 < (h.internode p).height)
    (hroom : ¬ P.internodeWidth ≤ (h.internode p).size) :
    linkSplit P h s height t = (hang h s p, none) := by
  simp only [linkSplit, hang, hp, if_neg hgap, if_neg hroom]

/-- The parent with the right half hung into it, to be divided at any separator. -/
lemma hang_dividing (hs : SplitInv h G s) (hp : (h.node s.n).parent = some p) {ip : Internode}
    {k₁ k₂ : List ℕ} {c₁ c₂ : List (Option Ptr)} {mid k : ℕ} (hip : h.node p = .internode ip)
    (hk : ip.keys = k₁ ++ k₂) (hc : ip.children = c₁ ++ some s.n :: c₂)
    (hl : c₁.length = k₁.length) (hupper : upper s.ikey ip.keys = k₁.length)
    (hlen : c₂.length = k₂.length) (hk' : (k₁ ++ s.ikey :: k₂)[mid]? = some k) :
    Dividing (hang h s p) G p (ip.insertChild k₁.length s.ikey s.child)
      ((k₁ ++ s.ikey :: k₂).take mid) k ((k₁ ++ s.ikey :: k₂).drop (mid + 1))
      ((c₁ ++ some s.n :: some s.child :: c₂).take (mid + 1))
      ((c₁ ++ some s.n :: some s.child :: c₂).drop (mid + 1)) := by
  obtain ⟨-, -, -, -, -, -, hlive, -, hpc, -⟩ := hs.parent_cut hp
  obtain ⟨e1, e2⟩ := Internode.insertChild_cut (x := s.ikey) (d := s.child) hk hc hl
  have hmid := (List.getElem?_eq_some_iff.mp hk').1
  simp only [List.length_append, List.length_cons] at hmid
  refine ⟨hs.hang_treeInv hp, hlive, ?_, e1.trans ?_, e2.trans (List.take_append_drop _ _).symm, ?_⟩
  · rw [node_hang hip hpc hupper, if_neg hpc, if_pos rfl]
  · conv_lhs =>
      rw [← List.take_append_drop mid (k₁ ++ s.ikey :: k₂), List.drop_eq_getElem?_toList_append,
        hk']
    rfl
  · simp only [List.length_take, List.length_append, List.length_cons]
    omega

/-- The right half goes with the children behind the separator if it is put in there. -/
lemma child_mem_drop (hs : SplitInv h G s) (hp : (h.node s.n).parent = some p) {ip : Internode}
    {c₁ c₂ : List (Option Ptr)} {mid : ℕ} (hip : (hang h s p).node p = .internode ip)
    (hc : ip.children = c₁ ++ some s.n :: some s.child :: c₂) :
    some s.child ∈ (c₁ ++ some s.n :: some s.child :: c₂).drop (mid + 1) ↔ mid ≤ c₁.length := by
  obtain ⟨-, -, -, -, -, -, hlive, -⟩ := hs.parent_cut hp
  have hsplit : c₁ ++ some s.n :: some s.child :: c₂ = (c₁ ++ [some s.n]) ++
    some s.child :: c₂ := by
    simp
  have hnot := ((hs.hang_treeInv hp).link hlive hip).child_notMem (hc.trans hsplit)
  rw [hsplit, List.drop_append]
  simp only [List.length_append, List.length_singleton]
  constructor
  · intro h0
    by_contra hlt
    rcases List.mem_append.mp h0 with h1 | h1
    · exact hnot.1 (List.mem_of_mem_drop h1)
    · obtain ⟨j, hj⟩ : ∃ j, mid + 1 - (c₁.length + 1) = j + 1 := ⟨mid - c₁.length - 1, by omega⟩
      rw [hj, List.drop_succ_cons] at h1
      exact hnot.2 (List.mem_of_mem_drop h1)
  · intro h0
    rw [show mid + 1 - (c₁.length + 1) = 0 by omega]
    simp

/-- A full parent is divided after the insertion. -/
lemma linkSplit_full (P : NodeParams) (t : ℕ) {height : ℕ} (hs : SplitInv h G s)
    (hp : (h.node s.n).parent = some p) (hheight : (h.node s.n).height = height)
    (hgap : ¬ height + 1 < (h.internode p).height)
    (hfull : P.internodeWidth ≤ (h.internode p).size) :
    ∃ ip k₁ k k₂ c₁ c₂, Dividing (hang h s p) G p ip k₁ k k₂ c₁ c₂ ∧ k₁ ≠ [] ∧
      linkSplit P h s height t
        = (divide (hang h s p) p k₁.length, some ⟨p, h.size, k⟩) := by
  obtain ⟨ip, k₁, k₂, c₁, c₂, hip, hlive, hpn, hpc, hfam, hh, hlink, hk, hc, hl,
    hlo, hup, hupper⟩ :=
    hs.parent_cut hp
  rw [Heap.internode_eq hip] at hgap hfull
  obtain ⟨mid, hmid0, hmid, hsep, hrk, hrc, hleft⟩ :=
    Internode.splitInto_spec P s.ikey s.child t hk hc hl hfull
  have hlen := hlink.length
  rw [hk, hc, List.length_append, List.length_append, List.length_cons] at hlen
  rw [hk, List.length_append] at hmid
  have hd := hs.hang_dividing hp hip hk hc hl hupper (by omega) hsep
  have hnode := node_hang hip hpc hupper
  have hheight' : ip.height = height + 1 := by omega
  set K := k₁ ++ s.ikey :: k₂ with hK
  set C := c₁ ++ some s.n :: some s.child :: c₂ with hC
  set r := ip.splitInto P k₁.length s.ikey s.child t with hr
  have hKlen : (K.take mid).length = mid := by
    simp only [hK, List.length_take, List.length_append, List.length_cons]
    omega
  refine ⟨_, K.take mid, r.splitIkey, K.drop (mid + 1), C.take (mid + 1), C.drop (mid + 1), hd, ?_,
    ?_⟩
  · intro h0
    rw [h0, List.length_nil] at hKlen
    omega
  have hdiv := hd.node_divide
  rw [hKlen] at hdiv ⊢
  have hclt := hs.tree.live_lt hs.live_child
  have hsz : some h.size ∉ C.drop (mid + 1) := fun h0 =>
    lt_irrefl _ (hd.tree.live_lt (hd.right_child h0).1)
  have hchild : some s.child ∈ C.drop (mid + 1) ↔ mid ≤ k₁.length :=
    hl ▸ hs.child_mem_drop hp hd.node (Internode.insertChild_cut hk hc hl).2
  simp only [linkSplit, hp, Heap.internode_eq hip, if_neg hgap, hupper, ← hr]
  rw [if_pos (show P.internodeWidth ≤ ip.size from hfull)]
  have hps : p ≠ h.size := hd.lt_size.ne
  have hsize : (hang h s p).size = h.size := rfl
  rcases hleft with ⟨hkp, hlt, hlk, hlc⟩ | ⟨hkp, hle, hlk, hlc⟩
  · -- the left half without the new child, and then with it
    have hc2 : some s.child ∉ C.drop (mid + 1) := fun h0 => absurd (hchild.mp h0) (by omega)
    have hinsert := Internode.insertChild_take { ip with isRoot := false } k₂ c₂ (some s.n)
      s.ikey s.child hlt hl
    rw [hkp]
    refine Prod.ext (Heap.ext (funext fun b => ?_) rfl rfl) rfl
    rw [hdiv, hnode]
    simp only [Heap.node_setInternode, Heap.node_setParents, Heap.node_alloc, Heap.node_setParent,
      hrc, hrk, hlk, hlc, hk, hc, hinsert, hsize]
    by_cases h1 : b = h.size
    · subst h1
      simp [hclt.ne', hsz, hps.symm, Internode.insertChild, hheight']
    · by_cases h2 : b = p
      · subst h2
        simp [hps, hpc, Internode.insertChild, hK, hC]
      · by_cases h3 : b = s.child
        · subst h3
          simp [h1, h2, hc2]
        · simp [h1, h2, h3]
  · rw [hkp]
    refine Prod.ext (Heap.ext (funext fun b => ?_) rfl rfl) rfl
    rw [hdiv, hnode]
    simp only [Heap.node_setInternode, Heap.node_setParents, Heap.node_alloc, hrc, hrk, hlk, hlc,
      hsize]
    by_cases h1 : b = h.size
    · subst h1
      simp [hsz, hps.symm, Internode.insertChild, hheight']
    · by_cases h2 : b = p
      · subst h2
        simp [hps, Internode.insertChild]
      · by_cases h3 : b = s.child
        · subst h3
          simp [h1, h2, hchild.mpr hle]
        · simp [h1, h2, h3]

/-! ### What a round leaves alone -/

lemma above_hang (hs : SplitInv h G s) (hp : (h.node s.n).parent = some p) :
    Above (G.fam s.n) h G (hang h s p) G where
  size_le := le_rfl
  retired := rfl
  gone := rfl
  leafData a _ := (hs.hang_like hp a).leafData
  new_node _ ha hn := absurd hn (Nat.not_le.mpr ha)
  live _ _ := Iff.rfl
  fam _ _ := rfl
  lo _ _ := rfl
  hi _ _ _ := rfl
  directoryMeta _ _ := (hs.hang_like hp _).directoryMeta
  top _ _ := rfl

lemma above_cover (hs : SplitInv h G s) (height : ℕ) {m : Option DirectoryMeta}
    (hm : (h.node s.n).parent = none → m = (h.node s.n).directoryMeta) :
    Above (G.fam s.n) h G (cover h s height m) (G.cover s h.size ((h.node s.n).parent = none)) where
  size_le := by rw [size_cover]; exact Nat.le_succ _
  retired := retired_cover _ _ _ _
  gone := rfl
  leafData a ha := (hs.cover_like height m ha).leafData
  new_node a ha hn := by
    rw [size_cover] at ha
    obtain rfl : a = h.size := Nat.le_antisymm (Nat.lt_succ_iff.mp ha) hn
    rw [hs.node_cover, if_pos rfl]
    exact ⟨rfl, s.n, hs.tree.known hs.live_n, if_pos rfl⟩
  live a ha := or_iff_right ha.ne
  fam a ha := if_neg ha.ne
  lo a ha := if_neg ha.ne
  hi a ha _ := if_neg ha.ne
  directoryMeta a ha := by
    obtain ⟨h1, h2, h3, h4, -⟩ := hs.tree.top_spec ha
    by_cases hc : (h.node s.n).parent = none ∧ G.fam a = G.fam s.n
    · have ht : (G.cover s h.size ((h.node s.n).parent = none)).top (G.fam a) = h.size := if_pos hc
      rw [ht, hs.node_cover, if_pos rfl, hc.2,
        ← hs.tree.top_eq (hs.tree.known hs.live_n) (Ne.symm hs.ne) hc.1]
      exact hm hc.1
    · have ht : (G.cover s h.size ((h.node s.n).parent = none)).top (G.fam a) = G.top (G.fam a) :=
        if_neg hc
      rw [ht]
      exact (hs.cover_like height m (hs.tree.live_lt h1)).directoryMeta
  top f hf := if_neg fun h0 => hf h0.2

end SplitInv

/-- **Dividing an internode** leaves alone what is not above the leaves, and the heights of the
nodes are heights from before. -/
lemma Dividing.above {φ p : Ptr} {ip : Internode} {k₁ k₂ : List ℕ} {c₁ c₂ : List (Option Ptr)}
    {k : ℕ} (hd : Dividing h G p ip k₁ k k₂ c₁ c₂) :
    Above φ h G (divide h p k₁.length) (G.divide p h.size k) ∧
      ∀ a < (divide h p k₁.length).size,
        ∃ b < h.size, ((divide h p k₁.length).node a).height = (h.node b).height := by
  have hnew : ∀ a, a < (divide h p k₁.length).size → h.size ≤ a → a = h.size := fun a ha hn =>
    Nat.le_antisymm (Nat.lt_succ_iff.mp ha) hn
  refine ⟨⟨Nat.le_succ _, rfl, rfl, fun a ha => (hd.like ha).leafData, ?_,
    fun a ha => or_iff_right ha.ne, fun a ha => if_neg ha.ne, fun a ha =>
      if_neg ha.ne, ?_, ?_, fun _ _ => rfl⟩, ?_⟩
  · intro a ha hn
    obtain rfl := hnew a ha hn
    rw [hd.node_divide_new]
    exact ⟨rfl, p, hd.tree.known hd.live, if_pos rfl⟩
  · intro a ha hleaf
    refine Ghost.hi_divide ha ?_
    rintro rfl
    simp [hd.node] at hleaf
  · intro a ha
    exact (hd.like (hd.tree.live_lt (hd.tree.top_spec ha).1)).directoryMeta
  · intro a ha
    by_cases has : a < h.size
    · exact ⟨a, has, (hd.like has).height⟩
    · obtain rfl := hnew a ha (Nat.not_lt.mp has)
      exact ⟨p, hd.lt_size, by rw [hd.node_divide_new, hd.node]; rfl⟩

namespace SplitInv

variable {s : Pending}

/-- **One round of the loop** either ends the excuse or hands it to the parent, one level up. -/
lemma linkSplit_spec (P : NodeParams) (t : ℕ) {height : ℕ} (hs : SplitInv h G s)
    (hheight : (h.node s.n).height = height) :
    ∃ h' G', Above (G.fam s.n) h G h' G' ∧
      ((linkSplit P h s height t = (h', none) ∧ TreeInv h' G' G'.exact) ∨
        ∃ s', linkSplit P h s height t = (h', some s') ∧ SplitInv h' G' s' ∧
          (h'.node s'.n).height = height + 1 ∧ G'.fam s'.n = G.fam s.n ∧
          ∀ a < h'.size, ∃ b < h.size, (h'.node a).height = (h.node b).height) := by
  cases hp : (h.node s.n).parent with
  | none =>
      refine ⟨_, _, hs.above_cover height (fun _ => rfl), Or.inl ⟨linkSplit_none P t height hp, ?_⟩⟩
      exact hs.cover_treeInv _ hheight (by simp [hp])
  | some p =>
      by_cases hgap : height + 1 < (h.internode p).height
      · refine ⟨_, _, hs.above_cover height (m := none) (by simp [hp]),
          Or.inl ⟨linkSplit_gap P t hp hgap, ?_⟩⟩
        refine hs.cover_treeInv _ hheight ?_
        intro q hq
        obtain rfl : p = q := by simpa [hp] using hq
        obtain ⟨ip, k₁, k₂, c₁, c₂, hip, -⟩ := hs.parent_cut hp
        rw [Heap.internode_eq hip] at hgap
        rw [hip]
        exact hgap
      · by_cases hroom : P.internodeWidth ≤ (h.internode p).size
        · obtain ⟨ip, k₁, k, k₂, c₁, c₂, hd, hk₁, heq⟩ :=
            hs.linkSplit_full P t hp hheight hgap hroom
          obtain ⟨ip', -, -, -, -, hip', -, -, -, -, hh, -⟩ := hs.parent_cut hp
          obtain ⟨hab, hheights⟩ := hd.above
          refine ⟨_, _, (hs.above_hang hp).trans hab, Or.inr ⟨_, heq, hd.splitInv hk₁, ?_, ?_, ?_⟩⟩
          · have hlike := hs.hang_like hp p
            rw [Heap.internode_eq hip'] at hgap
            rw [hd.node_divide_self]
            rw [hd.node, hip'] at hlike
            have hhe : ip.height = ip'.height := hlike.height
            change ip.height = height + 1
            omega
          · exact (if_neg hd.lt_size.ne).trans (hs.tree.up (hs.tree.known hs.live_n) hp).2.1
          · intro a ha
            obtain ⟨b, hb, hbh⟩ := hheights a ha
            exact ⟨b, hb, hbh.trans (hs.hang_like hp b).height⟩
        · exact ⟨_, _, hs.above_hang hp, Or.inl ⟨linkSplit_room P t hp hgap hroom,
            hs.hang_treeInv hp⟩⟩

/-- **The loop of `make_split` ends, with every half linked.**  The heights of the old nodes bound
the number of rounds. -/
lemma ascend_spec (P : NodeParams) (t : ℕ) : ∀ (fuel : ℕ) {height B : ℕ} {h : Heap β} {G : Ghost}
    {s : Pending}, SplitInv h G s → (h.node s.n).height = height →
    (∀ a < h.size, (h.node a).height < B) → B ≤ height + fuel →
    ∃ h' G', ascend P t fuel height h s = some h' ∧ TreeInv h' G' G'.exact ∧
      Above (G.fam s.n) h G h' G'
  | 0, height, B, h, G, s, hs, hh, hB, hf => by
      have := hB _ (hs.tree.live_lt hs.live_n)
      omega
  | fuel + 1, height, B, h, G, s, hs, hh, hB, hf => by
      obtain ⟨h', G', hab, ⟨heq, hT⟩ | ⟨s', heq, hs', hh', hfam, hheights⟩⟩ :=
        hs.linkSplit_spec P t hh
      · exact ⟨h', G', by rw [ascend, heq], hT, hab⟩
      · have hB' : ∀ a < h'.size, (h'.node a).height < B := by
          intro a ha
          obtain ⟨b, hb, hbh⟩ := hheights a ha
          rw [hbh]
          exact hB b hb
        obtain ⟨h'', G'', heq', hT, hab'⟩ :=
          ascend_spec P t fuel hs' hh' hB' (by omega)
        rw [hfam] at hab'
        exact ⟨h'', G'', by rw [ascend, heq]; exact heq', hT, hab.trans hab'⟩

end SplitInv

end MasstreeLHM
