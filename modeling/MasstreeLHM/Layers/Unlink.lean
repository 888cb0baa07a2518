import MasstreeLHM.Layers.Steps

/-!
# Unlinking a leaf

What `remove_leaf` leaves behind: its assertions hold on the way, the slices of the removed leaf go
to its left neighbour, and besides the leaf exactly those internodes are unlinked that lose a child,
are left without a separator and have a parent.

The code asserts much about the parents that it finds.  `unhookChecked` and `redirectChecked` are
the loops with these assertions, and `unhookChecked_eq` and `redirectChecked_eq` say that they never
fail, from the loop invariant.

What is left is described as a reader of the heap sees it: `Heap.Child` and `Heap.Linked` follow
child pointers, and `LeafList` is the list of the leaves.  **`exists_leafList`** finds that list in
every layer.  `reachLeaf_removed`, `leafList_removed` and `leftEmpty_iff` compare both with the
state before, and **`Reachable.remove_leaf`** is all of it for every reachable table.
-/

namespace MasstreeLHM

open Separators

variable {β : Type}

/-! ## The assertions -/

/-- `redirect`; an assertion that fails ends the program.  The first one is in `locked_parent`. -/
def redirectChecked (ikey replacement : ℕ) : ℕ → Heap β → Ptr → Option (Heap β)
  | 0, _, _ => none
  | fuel + 1, h, n =>
      match (h.node n).parent with
      | none => none
      | some p =>
          let ip := h.internode p
          let kp := upper ikey ip.keys
          if (h.node p).isLeaf = true ∨ ip.child kp ≠ some n then none
          else
            let h := if 0 < kp then
                h.setInternode p { ip with keys := ip.keys.set (kp - 1) replacement }
              else h
            if kp = 0 ∨ (kp = 1 ∧ ip.child 0 = none) then redirectChecked ikey replacement fuel h p
            else some h

/-- What is asserted of the parent `p`, found by the loop of `remove_leaf`, of a node `n`. -/
structure ParentChecks (h : Heap β) (ikey : ℕ) (n p : Ptr) : Prop where
  internode : (h.node p).isLeaf = false
  notDeleted : (h.internode p).deleted = false
  key_le : upper ikey (h.internode p).keys = 0 ∨
    (h.internode p).keys.getD (upper ikey (h.internode p).keys - 1) 0 ≤ ikey
  child : (h.internode p).child (upper ikey (h.internode p).keys) = some n

instance (h : Heap β) (ikey : ℕ) (n p : Ptr) : Decidable (ParentChecks h ikey n p) :=
  decidable_of_iff ((h.node p).isLeaf = false ∧ (h.internode p).deleted = false ∧
    (upper ikey (h.internode p).keys = 0 ∨
      (h.internode p).keys.getD (upper ikey (h.internode p).keys - 1) 0 ≤ ikey) ∧
    (h.internode p).child (upper ikey (h.internode p).keys) = some n)
    ⟨fun ⟨h1, h2, h3, h4⟩ => ⟨h1, h2, h3, h4⟩, fun ⟨h1, h2, h3, h4⟩ => ⟨h1, h2, h3, h4⟩⟩

/-- The loop of `remove_leaf`, with its assertions. -/
def unhookChecked (ikey : ℕ) : ℕ → Heap β → Ptr → Option Ptr → Option (Heap β)
  | 0, _, _, _ => none
  | fuel + 1, h, n, replacement =>
      match (h.node n).parent with
      | none => none
      | some p =>
          let ip := h.internode p
          let kp := upper ikey ip.keys
          if ParentChecks h ikey n p then
            let ip' := ip.replaceChild kp replacement
            let h := (h.setInternode p ip').adopt replacement p
            let redirected :=
              if kp ≤ 1 ∧ 0 < ip'.size ∧ ip'.child 0 = none then
                redirectChecked ikey (ip'.keys.getD 0 0) (h.size + 1) h p
              else some h
            match redirected with
            | none => none
            | some h =>
                if 0 < ip'.size ∨ ip'.isRoot then some h
                else
                  let dead : Internode :=
                    { ip' with deleted := true, isRoot := false,
                               children := ip'.children.set 0 none }
                  unhookChecked ikey fuel ((h.setInternode p dead).retire p) p (ip'.child 0)
          else none

/-- `remove_leaf`, with its assertions. -/
def removeLeafChecked [Inhabited β] (h : Heap β) (n : Ptr) : Option (Heap β) :=
  let l := h.leaf n
  match l.prev with
  | none => some h
  | some _ =>
      let h := (h.set n (h.node n).markDeleted).retire n
      let h := unlinkLeaf h n
      unhookChecked l.ikeyBound (h.size + 1) h n none

/-- `finish_remove`, with the assertions of `remove_leaf`. -/
def finishRemoveChecked [Inhabited β] (h : Heap β) (n : Ptr) (i : ℕ) : Option (Heap β) :=
  let l := h.leaf n
  let l := { l with modstate := .remove, permutation := l.permutation.remove i }
  let h := h.setLeaf n l
  if l.size = 0 then removeLeafChecked h n else some h

namespace DropInv

variable {h : Heap β} {G : Ghost} {n b e v : ℕ} {r : Option Ptr} {p : Ptr} {ip : Internode}

/-- The assertions of `redirect` hold. -/
lemma redirectChecked_eq (hd : DropInv h G n r b e) : ∀ (fuel : ℕ) {q : Ptr} {h₁ : Heap β},
    G.live q → G.lo q ≤ b → b < G.hi q →
    (∀ a, G.live a → (h.node q).height < (h.node a).height → h₁.node a = h.node a) →
    (h₁.node q).parent = (h.node q).parent →
    redirectChecked b v fuel h₁ q = redirect b v fuel h₁ q
  | 0, _, _, _, _, _, _, _ => rfl
  | fuel + 1, q, h₁, hq, hlq, huq, hsame, hpar => by
      rw [redirectChecked, redirect, hpar]
      cases hp : (h.node q).parent with
      | none => rfl
      | some p =>
          have hnl : ¬ (G.drop n r).loose q := fun h0 => hd.not_loose q h0 ⟨hlq, huq⟩
          obtain ⟨-, -, hh, hint⟩ := hd.tree.up (hd.tree.known hq) hp
          obtain ⟨hlive, hmem⟩ := hd.tree.linked hq hnl hp
          obtain ⟨⟨ip, hip, hchild⟩, hlp, hup⟩ := hd.tree.down_parent rfl hlive hint hmem hlq huq
          have hp₁ : h₁.node p = h.node p := hsame p hlive hh
          have hip₁ : h₁.internode p = ip := Heap.internode_eq (hp₁.trans hip)
          simp only [hip₁, hp₁]
          rw [if_neg (by simp [hint, hchild])]
          refine if_congr Iff.rfl (redirectChecked_eq hd fuel hlive hlp hup (fun a ha hha => ?_) ?_)
            rfl
          · have hap : a ≠ p := by
              rintro rfl
              exact absurd hha (lt_irrefl _)
            rw [← hsame a ha (hh.trans hha)]
            split_ifs
            · rw [Heap.node_setInternode, if_neg hap]
            · rfl
          · split_ifs
            · rw [Heap.node_setInternode, if_pos rfl, hip]
              rfl
            · rw [hp₁]

/-- The assertions on the parent of the dead node. -/
lemma parentChecks (hd : DropInv h G n r b e) (hp : (h.node n).parent = some p) :
    ParentChecks h b n p := by
  obtain ⟨p', ip, k₁, k₂, c₁, c₂, hp', hip, hlive, -, -, -, -, hk, hc, hl, hlo, -,
    hupper, -, -, hb⟩ :=
    hd.parent_cut
  obtain rfl : p = p' := by simpa [hp] using hp'
  have hdel := hd.tree.not_deleted hlive
  rw [hip] at hdel
  refine ⟨by rw [hip]; rfl, by rw [Heap.internode_eq hip]; exact hdel, ?_, ?_⟩
  · rw [Heap.internode_eq hip, hupper, hk]
    rcases exists_concat_of_downTo hlo with ⟨rfl, -⟩ | ⟨k, rfl⟩
    · exact Or.inl rfl
    · right
      simpa using hb
  · rw [Heap.internode_eq hip, hupper, ← hl, Internode.child, hc]
    simp

/-- The assertions of the loop hold. -/
lemma unhookChecked_eq : ∀ (fuel : ℕ) {h : Heap β} {G : Ghost} {n : Ptr} {r : Option Ptr},
    DropInv h G n r b e → unhookChecked b fuel h n r = unhook b fuel h n r
  | 0, _, _, _, _, _ => rfl
  | fuel + 1, h, G, n, r, hd => by
      obtain ⟨p, ip, -, -, -, -, hp, hip, hlive, -, -, -, -, -, -, -, -, -, -, hlp, hup, hb⟩ :=
        hd.parent_cut
      have hbe := hd.lt_end
      have hcheck := hd.parentChecks hp
      -- the links of the parent are written before `redirect` looks above it
      have hredirect : ∀ v fuel', redirectChecked b v fuel'
          ((h.setInternode p (ip.replaceChild (upper b ip.keys) r)).adopt r p) p
          = redirect b v fuel'
            ((h.setInternode p (ip.replaceChild (upper b ip.keys) r)).adopt r p) p := by
        intro v fuel'
        refine hd.redirectChecked_eq fuel' hlive (by omega) (by omega) (fun a _ hha => ?_) ?_
        · have hap : a ≠ p := by
            rintro rfl
            exact absurd hha (lt_irrefl _)
          have har : some a ≠ r := by
            intro h0
            have h1 := (hd.rest_ne hp h0).2.2.2
            have h2 := (hd.tree.up hd.known hp).2.2.1
            omega
          rw [Heap.node_adopt, if_neg har, Heap.node_setInternode, if_neg hap]
        · rw [Heap.node_adopt, if_neg fun h0 => (hd.rest_ne hp h0).1 rfl, Heap.node_setInternode,
            if_pos rfl, hip]
          exact (Internode.replaceChild_fields ip _ r).1
      by_cases hcond : 0 < (ip.replaceChild (upper b ip.keys) r).size ∨ ip.isRoot = true
      · have hroot := (Internode.replaceChild_fields ip (upper b ip.keys) r).2.2.1
        rw [unhookChecked, unhook, hp]
        simp only [if_pos hcheck, Heap.internode_eq hip, hredirect]
        obtain ⟨h', heq, -⟩ := hd.finish_step hp hip rfl (hd.hi_of_final hp hip hcond)
        simp only [heq]
        rw [hroot, if_pos hcond, if_pos hcond]
      · rw [unhook_nonfinal fuel hp hip hcond,
          ← unhookChecked_eq fuel (hd.kill_step hp hip hcond).1, unhookChecked, hp]
        have hroot := (Internode.replaceChild_fields ip (upper b ip.keys) r).2.2.1
        simp only [if_pos hcheck, Heap.internode_eq hip]
        rw [if_neg fun h0 => hcond (Or.inl h0.2.1)]
        simp only
        rw [if_neg (by rw [hroot]; exact hcond)]
        rfl

end DropInv

/-! ## The nodes of a tree -/

/-- `c` is a child of the internode `a`. -/
def Heap.Child (h : Heap β) (a c : Ptr) : Prop := ∃ m, h.node a = .internode m ∧ some c ∈ m.children

/-- Child pointers lead from `a` to `c`. -/
def Heap.Linked (h : Heap β) (a c : Ptr) : Prop := Relation.ReflTransGen h.Child a c

/-- The internode `a` has lost a child, is left without a key and has a parent. -/
structure LeftEmpty (h h' : Heap β) (a : Ptr) : Prop where
  internode : (h'.node a).isLeaf = false
  keys : (h'.internode a).keys = []
  parent : (h'.node a).parent ≠ none
  lost : ∃ c, some c ∈ (h.internode a).children ∧ some c ∉ (h'.internode a).children

section

variable {h : Heap β} {G : Ghost}

/-- The nodes of a layer are those that child pointers lead to from its root. -/
lemma TreeInv.linked_iff (hT : TreeInv h G G.exact) {a c : Ptr} (ha : G.Known h a) :
    h.Linked (G.top (G.fam a)) c ↔ G.live c ∧ G.fam c = G.fam a := by
  obtain ⟨hlive, -, hfam, -⟩ := hT.top_spec ha
  constructor
  · intro hc
    induction hc with
    | refl => exact ⟨hlive, hfam⟩
    | tail _ hstep ih =>
        obtain ⟨m, hm, hmem⟩ := hstep
        obtain ⟨h1, -, h2, -⟩ := hT.child_live ih.1 hm hmem
        exact ⟨h1, h2.trans ih.2⟩
  · rintro ⟨hc, hfc⟩
    rw [← hfc]
    exact (hT.path_from_top rfl (fun _ h0 => h0.elim) h.size hc le_rfl (hT.range hc).1
      (Nat.le_add_left _ _)).lift id fun _ _ ⟨m, hm, hd⟩ => ⟨m, hm, Internode.mem_of_child hd⟩

/-- An internode of a layer has a child. -/
lemma TreeInv.exists_child (hT : TreeInv h G G.exact) {a : Ptr} {m : Internode} (ha : G.live a)
    (hm : h.node a = .internode m) : ∃ c, some c ∈ m.children := by
  obtain ⟨c, -, hc, -⟩ := (hT.link ha hm).route le_rfl (hT.range ha).1
  exact ⟨c, hc⟩

end

/-! ## The list of the leaves -/

section

variable [Inhabited β]

/-- `c` is in front of `d` in the list of the leaves. -/
def Heap.Neighbours (h : Heap β) (c d : Ptr) : Prop :=
  (h.leaf c).next = some d ∧ (h.leaf d).prev = some c

/-- The leaves of a layer from left to right. -/
structure LeafList (h : Heap β) (ls : List Ptr) : Prop where
  first : ∀ c ∈ ls.head?, (h.leaf c).prev = none
  next : ls.IsChain h.Neighbours
  last : ∀ c ∈ ls.getLast?, (h.leaf c).next = none

variable {h : Heap β} {G : Ghost} {P : NodeParams} {R : Slot β → Slot β → Prop}

lemma HeapInv.chain_leaf (hI : HeapInv P R h G) {c : Ptr} (hc : G.live c)
    (hleaf : (h.node c).isLeaf = true) : ChainOk h G c { h.leaf c with parent := none } := by
  obtain ⟨l, hl⟩ := Node.exists_leafData hleaf
  rw [Heap.leaf_of_leafData hl]
  exact hI.chain c l hc hl

/-- The leaves from `c` on, and the slices that they are responsible for. -/
lemma HeapInv.leaves_from (hI : HeapInv P R h G) : ∀ (k : ℕ) {c : Ptr}, G.live c →
    (h.node c).isLeaf = true → ikeyLimit ≤ G.lo c + k →
    ∃ ls, (c :: ls).IsChain h.Neighbours ∧ (∀ d ∈ (c :: ls).getLast?, (h.leaf d).next = none) ∧
      (c :: ls).Pairwise (fun d d' => G.lo d < G.lo d') ∧
      (∀ d ∈ c :: ls, G.live d ∧ (h.node d).isLeaf = true ∧ G.fam d = G.fam c) ∧
      ∀ y, G.lo c ≤ y → y < ikeyLimit → ∃ d ∈ c :: ls, G.lo d ≤ y ∧ y < G.hi d
  | 0, c, hc, _, hk => absurd (hI.tree.range hc) (by omega)
  | k + 1, c, hc, hleaf, hk => by
      have hchain := hI.chain_leaf hc hleaf
      obtain ⟨hrange, -⟩ := hI.tree.range hc
      cases hn : (h.leaf c).next with
      | none =>
          have hhi := hchain.next_none hn
          exact ⟨[], .singleton c, by simpa using hn,
            List.pairwise_singleton _ _, by simp [hc, hleaf],
            fun y h1 h2 => ⟨c, by simp, h1, by omega⟩⟩
      | some m =>
          obtain ⟨h1, h2, h3, lm, h4, h5⟩ := hchain.next_some m hn
          have hprev : (h.leaf m).prev = some c := by
            rw [← Heap.leaf_of_leafData h4] at h5
            exact h5
          obtain ⟨ls, g1, g2, g3, g4, g5⟩ :=
            hI.leaves_from k h1 (Node.leafData_leaf h4).1 (by omega)
          refine ⟨m :: ls, .cons_cons ⟨hn, hprev⟩ g1, by simpa using g2, ?_, ?_, ?_⟩
          · refine List.pairwise_cons.mpr ⟨fun d hd => ?_, g3⟩
            rcases List.mem_cons.mp hd with rfl | hd
            · omega
            · have := List.rel_of_pairwise_cons g3 hd
              omega
          · intro d hd
            rcases List.mem_cons.mp hd with rfl | hd
            · exact ⟨hc, hleaf, rfl⟩
            · obtain ⟨f1, f2, f3⟩ := g4 d hd
              exact ⟨f1, f2, f3.trans h2⟩
          · intro y hy1 hy2
            by_cases hy : y < G.hi c
            · exact ⟨c, List.mem_cons_self, hy1, hy⟩
            · obtain ⟨d, hd, hd'⟩ := g5 y (by omega) hy2
              exact ⟨d, List.mem_cons_of_mem _ hd, hd'⟩

/-- **The leaves of a layer form a list**, in the order of their ranges. -/
lemma HeapInv.exists_leafList (hI : HeapInv P R h G) {a : Ptr} (ha : G.Known h a) :
    ∃ ls, LeafList h ls ∧ ls.Pairwise (fun d d' => G.lo d < G.lo d') ∧
      ∀ d, d ∈ ls ↔ G.live d ∧ (h.node d).isLeaf = true ∧ G.fam d = G.fam a := by
  obtain ⟨hlive, hfam, hleaf⟩ := hI.tree.fam_spec ha
  obtain ⟨l, hl⟩ := Node.exists_leafData hleaf
  have hprev : (h.leaf (G.fam a)).prev = none := by
    have hfirst := (hI.leaves _ l hlive hl).first.mpr hfam
    rw [← Heap.leaf_of_leafData hl] at hfirst
    exact hfirst
  have hlo : G.lo (G.fam a) = 0 := (hI.chain_leaf hlive hleaf).prev_none hprev
  obtain ⟨ls, h1, h2, h3, h4, h5⟩ := hI.leaves_from ikeyLimit hlive hleaf (by omega)
  refine ⟨G.fam a :: ls, ⟨by simpa using hprev, h1, h2⟩, h3, fun d => ⟨fun hd => ?_, ?_⟩⟩
  · obtain ⟨g1, g2, g3⟩ := h4 d hd
    exact ⟨g1, g2, g3.trans hfam⟩
  · rintro ⟨hd, hdl, hdf⟩
    obtain ⟨g1, g2⟩ := hI.tree.range hd
    obtain ⟨c, hc, hc1, hc2⟩ := h5 (G.lo d) (by omega) (by omega)
    obtain ⟨f1, f2, f3⟩ := h4 c hc
    rw [hI.tree.leaf_unique hd f1 hdl f2 (hdf.trans (hfam.symm.trans f3.symm))
      ⟨le_rfl, g1⟩ ⟨hc1, hc2⟩]
    exact hc

end

/-! ## What a removal leaves -/

section Removed

variable [Inhabited β] {h : Heap β} {G : Ghost} {P : NodeParams} {R : Slot β → Slot β → Prop}
  {n a : Ptr} {l : Leaf β}

/-- The heap when the loop of `remove_leaf` starts. -/
def Heap.beforeUnhook (h : Heap β) (n : Ptr) (l : Leaf β) : Heap β :=
  unlinkLeaf ((h.set n (.leaf l.dead)).retire n) n

lemma HeapInv.beforeUnhook_internode (hI : HeapInv P R h G) (hn : G.live n)
    (hl : h.node n = .leaf l) (ha : l.prev = some a) (c : Ptr) :
    (h.beforeUnhook n l).internode c = h.internode c := by
  have hset : ∀ m, ((h.set n (.leaf l.dead)).retire n).node c = .internode m ↔
      h.node c = .internode m := by
    intro m
    rw [Heap.node_retire, Heap.node_set]
    split_ifs with h0
    · simp [h0, hl]
    · rfl
  have hsame : ∀ m, (h.beforeUnhook n l).node c = .internode m ↔ h.node c = .internode m :=
    fun m => (hI.sameTree_unlinkLeaf hn hl ha).internode.trans (hset m)
  cases hc : h.node c with
  | internode m => rw [Heap.internode_eq hc, Heap.internode_eq ((hsame m).mpr hc)]
  | leaf lc =>
      cases hc' : (h.beforeUnhook n l).node c with
      | internode m =>
          rw [(hsame m).mp hc'] at hc
          cases hc
      | leaf lc' => rw [Heap.internode, Heap.internode, hc, hc']; rfl

/-- `remove_leaf`, with and without its assertions, and what its loop leaves. -/
lemma HeapInv.removeLeaf_unhooks (hI : HeapInv P R h G) (hn : G.live n) (hl : h.node n = .leaf l)
    (ha : l.prev = some a) : ∃ h' G', removeLeaf h n = some h' ∧ removeLeafChecked h n = some h' ∧
      Unhooked (h.beforeUnhook n l) h' (G.kill n) G' (G.fam n) (G.lo n) (G.hi n) ∧
      Pruned (h.beforeUnhook n l) h' (G.kill n) G' := by
  have hleaf : h.leaf n = l := by simp [Heap.leaf, hl]
  have hd := (hI.kill_leaf hn hl ha).sameTree (hI.sameTree_unlinkLeaf hn hl ha)
  have hmark : (h.node n).markDeleted = .leaf l.dead := by rw [hl]; rfl
  rw [removeLeaf, removeLeafChecked, hleaf]
  simp only [ha, hmark, (hI.bound_leaf hn hl ha).2.1]
  rw [DropInv.unhookChecked_eq _ hd]
  obtain ⟨h', G', heq, hU, hP⟩ := unhook_spec
    ((unlinkLeaf ((h.set n (.leaf l.dead)).retire n) n).size + 1) hd (by omega)
  exact ⟨h', G', heq, heq, hU, hP⟩

variable {h' : Heap β} {G' : Ghost} (hI : HeapInv P R h G) (hn : G.live n) (hl : h.node n = .leaf l)
  (ha : l.prev = some a)
  (hU : Unhooked (h.beforeUnhook n l) h' (G.kill n) G' (G.fam n) (G.lo n) (G.hi n))
include hI hn hl ha hU

lemma HeapInv.removed : HeapInv P R h' G' :=
  ⟨hU.tree, hI.leafInv_remove hn hl ha hU, hI.chainInv_remove hn hl ha hU⟩

/-- **The slices of the removed leaf go to its left neighbour**, all others stay where they are. -/
lemma HeapInv.reachLeaf_removed {r y m : ℕ} (hr : Held h G r) (hy : y < ikeyLimit)
    (hm : reachLeaf h r y = some m) : reachLeaf h' r y = some (if m = n then a else m) := by
  obtain ⟨hm1, hm2, hm3, hm4, hm5⟩ := hr.reach hI hy hm
  have hr' := hr.frame (hI.frame_remove hn hl ha hU)
  have hI' := hI.removed hn hl ha hU
  obtain ⟨b, hb, hb1, hb2, hb3, hb4, hb5⟩ :=
    hI'.tree.reachLeaf_spec hr'.known (hr'.startable hI') hy
  obtain ⟨lb, hlb⟩ := Node.exists_leafData hb2
  obtain ⟨g1, g2, l₀, g3, -⟩ := hI.old_leaf hn hl ha hU hb1 hlb
  have hbleaf := (Node.leafData_leaf g3).1
  obtain ⟨e1, e2⟩ := hI.shift_leaf hn hl ha hU g1 g2 hbleaf
  obtain ⟨-, -, -, hhi, -⟩ := hI.prev_leaf hn hl ha
  have hfam : G.fam b = G.fam m := by
    rw [hU.fam] at hb3
    exact hb3.trans hm2.symm
  have hmleaf : (h.node m).isLeaf = true := by rw [hm5]; rfl
  have hnleaf : (h.node n).isLeaf = true := by rw [hl]; rfl
  rw [e1] at hb4
  rw [e2] at hb5
  rw [hb]
  congr 1
  split_ifs with hmn
  · -- no other leaf than the left neighbour got any of the slices
    by_contra hba
    rw [if_neg hba] at hb5
    exact g2 (hI.tree.leaf_unique g1 hn hbleaf hnleaf (hmn ▸ hfam) ⟨hb4, hb5⟩ (hmn ▸ ⟨hm3, hm4⟩))
  · by_cases hyb : y < G.hi b
    · exact hI.tree.leaf_unique g1 hm1 hbleaf hmleaf hfam ⟨hb4, hyb⟩ ⟨hm3, hm4⟩
    · -- a slice that the left neighbour got was the removed leaf's
      split_ifs at hb5 with hba
      · rw [hba, hhi] at hyb
        exact absurd (hI.tree.leaf_unique hm1 hn hmleaf hnleaf
          (hfam.symm.trans (hba ▸ (hI.prev_leaf hn hl ha).2.2.1)) ⟨hm3, hm4⟩ ⟨by omega, hb5⟩) hmn
      · exact absurd hb5 hyb

/-- The list of the leaves. -/
lemma HeapInv.leafList_removed {r : Ptr} (hr : G.Known h r) : ∃ ls, LeafList h ls ∧
    (∀ d, d ∈ ls ↔ G.live d ∧ (h.node d).isLeaf = true ∧ G.fam d = G.fam r) ∧
    LeafList h' (ls.erase n) := by
  have hI' := hI.removed hn hl ha hU
  have hr' := (hI.frame_remove hn hl ha hU).known hr
  obtain ⟨ls, h1, h2, h3⟩ := hI.exists_leafList hr
  obtain ⟨ls', h1', h2', h3'⟩ := hI'.exists_leafList hr'
  have hnodup : ∀ {G₀ : Ghost} {xs : List Ptr}, xs.Pairwise (fun d d' => G₀.lo d < G₀.lo d') →
      xs.Nodup := by
    refine fun hp => hp.imp ?_
    rintro d d' hlt rfl
    exact absurd hlt (lt_irrefl _)
  -- the leaves that are left, with the same lower ends
  have hmem : ∀ d, d ∈ ls.erase n ↔ d ∈ ls' := by
    intro d
    rw [(hnodup h2).mem_erase_iff, h3, h3', hU.fam]
    constructor
    · rintro ⟨hdn, hd1, hd2, hd3⟩
      obtain ⟨ld, hld⟩ := Node.exists_leafData hd2
      obtain ⟨g1, g2⟩ := hI.new_leaf hn hl ha hU hd1 hdn hld
      exact ⟨g1, (Node.leafData_leaf g2).1, hd3⟩
    · rintro ⟨hd1, hd2, hd3⟩
      obtain ⟨ld, hld⟩ := Node.exists_leafData hd2
      obtain ⟨g1, g2, l₀, g3, -⟩ := hI.old_leaf hn hl ha hU hd1 hld
      exact ⟨g2, g1, (Node.leafData_leaf g3).1, hd3⟩
  have hlo : ∀ d ∈ ls.erase n, G'.lo d = G.lo d := by
    intro d hd
    obtain ⟨hdn, hd⟩ := (hnodup h2).mem_erase_iff.mp hd
    obtain ⟨hd1, hd2, -⟩ := (h3 d).mp hd
    exact (hI.shift_leaf hn hl ha hU hd1 hdn hd2).1
  have hsorted : (ls.erase n).Pairwise fun d d' => G'.lo d < G'.lo d' := by
    refine (h2.sublist List.erase_sublist).imp_of_mem fun {d d'} hd hd' hlt => ?_
    rwa [hlo d hd, hlo d' hd']
  have heq : ls.erase n = ls' := List.Perm.eq_of_pairwise
    (fun _ _ _ _ hlt hgt => absurd (hlt.trans hgt) (lt_irrefl _)) hsorted h2'
    ((List.perm_ext_iff_of_nodup (hnodup hsorted) (hnodup h2')).mpr hmem)
  exact ⟨ls, h1, h3, heq ▸ h1'⟩

variable (hP : Pruned (h.beforeUnhook n l) h' (G.kill n) G')
include hP

/-- The internodes that have died are those that the removal has left empty, with a parent. -/
lemma HeapInv.leftEmpty_iff (c : Ptr) :
    LeftEmpty h h' c ↔ (G.kill n).live c ∧ ¬ G'.live c := by
  have hold := hI.beforeUnhook_internode hn hl ha
  constructor
  · rintro ⟨hint, hkeys, hparent, d, hd, hd'⟩
    obtain ⟨m, hm⟩ := Node.exists_internode hint
    rw [Heap.internode_eq hm] at hkeys hd'
    have hne : m.children ≠ (h.internode c).children := fun h0 => hd' (h0 ▸ hd)
    constructor
    · by_contra hc
      refine hne ?_
      rw [← hold c, Heap.internode, ← hP.others c hc, hm]
      rfl
    · intro hc
      rcases hP.kept c m hc hm with h0 | h0 | h0
      · exact hne (h0.trans (by rw [hold]))
      · exact h0 hkeys
      · rw [hm] at hparent
        exact hparent h0
  · rintro ⟨hc, hc'⟩
    obtain ⟨m, hm, hkeys, hchildren, -, hparent⟩ := hP.dead c hc hc'
    have hint : (h.node c).isLeaf = false := by
      have hdata := hU.leafData c
      rw [hm] at hdata
      by_contra hleaf
      obtain ⟨lc, hlc⟩ := Node.exists_leafData (Bool.eq_true_of_not_eq_false hleaf)
      rw [Heap.beforeUnhook, (hI.leafData_unlinkLeaf hn hl ha hc.2).mpr ⟨lc, hlc, rfl⟩] at hdata
      cases hdata
    obtain ⟨m₀, hm₀⟩ := Node.exists_internode hint
    obtain ⟨d, hd⟩ := hI.tree.exists_child hc.1 hm₀
    refine ⟨by rw [hm]; rfl, by rw [Heap.internode_eq hm]; exact hkeys, by rw [hm]; exact hparent,
      d, by rw [Heap.internode_eq hm₀]; exact hd, ?_⟩
    rw [Heap.internode_eq hm, hchildren]
    simp

end Removed

/-! ## The last key of a leaf -/

/-- What `remove_leaf` has done to the leaf `n` behind `a`, for the layers that `roots` lead into
and the layer of `r`. -/
structure LeafUnlinked (h h' : Heap β) [Inhabited β] (roots : List Ptr) (r n a : Ptr) : Prop where
  routes : ∀ r' ∈ roots, ∀ y < ikeyLimit, ∀ m, reachLeaf h r' y = some m →
    reachLeaf h' r' y = some (if m = n then a else m)
  nodes : ∀ r' ∈ roots, ∃ t, climbToRoot h (h.size + 1) r' = some t ∧
    climbToRoot h' (h'.size + 1) r' = some t ∧
    ∀ c, h'.Linked t c ↔ h.Linked t c ∧ c ≠ n ∧ ¬ LeftEmpty h h' c
  dead : ∃ dead, h'.retired = dead ++ h.retired ∧ (∀ c, c ∈ dead ↔ c = n ∨ LeftEmpty h h' c) ∧
    ∀ c ∈ dead, (h'.node c).deleted = true
  leaves : ∃ ls, LeafList h ls ∧ (∀ y < ikeyLimit, ∀ m, reachLeaf h r y = some m → m ∈ ls) ∧
    LeafList h' (ls.erase n)

section

variable [Inhabited β] {P : NodeParams} {s : Forest β} {G : Ghost}

/-! A change inside a leaf does not matter to any of this. -/

namespace SameTree

variable {h h₁ : Heap β} (hs : SameTree h h₁)
include hs

omit [Inhabited β] in
lemma climbToRoot_eq : ∀ (fuel : ℕ) (a : Ptr), climbToRoot h₁ fuel a = climbToRoot h fuel a
  | 0, _ => rfl
  | fuel + 1, a => by rw [climbToRoot, climbToRoot, hs.isRoot, hs.parent, climbToRoot_eq fuel]

omit [Inhabited β] in
lemma descend_eq (x : ℕ) : ∀ (fuel : ℕ) (a : Ptr), descend h₁ x fuel a = descend h x fuel a
  | 0, _ => rfl
  | fuel + 1, a => by
      rw [descend, descend]
      rcases hs.node a with h1 | ⟨l, l', h1, h2, -⟩
      · rw [h1]
        cases h.node a with
        | leaf l => rfl
        | internode m =>
            cases hc : m.child (upper x m.keys) with
            | none => simp only [hc]
            | some c => simp only [hc, descend_eq x fuel c]
      · rw [h1, h2]

omit [Inhabited β] in
lemma reachLeaf_eq (r x : ℕ) : reachLeaf h₁ r x = reachLeaf h r x := by
  rw [reachLeaf, reachLeaf, hs.size, hs.climbToRoot_eq]
  exact congrArg _ (funext fun a => hs.descend_eq x _ a)

omit [Inhabited β] in
lemma child_iff {a c : Ptr} : h₁.Child a c ↔ h.Child a c :=
  exists_congr fun _ => and_congr_left' hs.internode

omit [Inhabited β] in
lemma linked_iff {a c : Ptr} : h₁.Linked a c ↔ h.Linked a c := by
  have heq : h₁.Child = h.Child := funext₂ fun _ _ => propext hs.child_iff
  rw [Heap.Linked, Heap.Linked, heq]

omit [Inhabited β] in
lemma leftEmpty_iff {h' : Heap β} {c : Ptr} : LeftEmpty h₁ h' c ↔ LeftEmpty h h' c := by
  have heq : h₁.internode c = h.internode c := by
    rcases hs.node c with h1 | ⟨l, l', h1, h2, -⟩
    · rw [Heap.internode, h1]
      rfl
    · rw [Heap.internode, Heap.internode, h1, h2]
      rfl
  constructor
  · rintro ⟨h1, h2, h3, h4⟩
    exact ⟨h1, h2, h3, heq ▸ h4⟩
  · rintro ⟨h1, h2, h3, h4⟩
    exact ⟨h1, h2, h3, heq.symm ▸ h4⟩

end SameTree

lemma LeafUnlinked.of_sameTree {h h₁ h' : Heap β} (hs : SameTree h h₁)
    {roots : List Ptr} {r n a : Ptr} (hlinks : ∀ c, (h₁.leaf c).next = (h.leaf c).next ∧
      (h₁.leaf c).prev = (h.leaf c).prev)
    (hU : LeafUnlinked h₁ h' roots r n a) : LeafUnlinked h h' roots r n a := by
  obtain ⟨hroutes, hnodes, hdead, hleaves⟩ := hU
  simp only [hs.reachLeaf_eq] at hroutes hleaves
  simp only [hs.climbToRoot_eq, hs.size, hs.linked_iff, hs.leftEmpty_iff] at hnodes
  simp only [hs.retired, hs.leftEmpty_iff] at hdead
  obtain ⟨ls, ⟨h1, h2, h3⟩, h4⟩ := hleaves
  refine ⟨hroutes, hnodes, hdead, ls, ⟨fun c hc => ?_, h2.imp fun c d h0 => ?_, fun c hc => ?_⟩, h4⟩
  · exact (hlinks c).2 ▸ h1 c hc
  · exact ⟨(hlinks c).1 ▸ h0.1, (hlinks d).2 ▸ h0.2⟩
  · exact (hlinks c).1 ▸ h3 c hc

/-- The same on a layer whose leaf has already lost its slots. -/
lemma HeapInv.leafUnlinked {h : Heap β} {R : Slot β → Slot β → Prop} (hI : HeapInv P R h G)
    {roots : List Ptr} (hroots : ∀ r ∈ roots, Held h G r) {r n a : Ptr} {l : Leaf β}
    (hr : r ∈ roots) (hn : G.live n) (hl : h.node n = .leaf l) (ha : l.prev = some a) :
    ∃ h', removeLeaf h n = some h' ∧ removeLeafChecked h n = some h' ∧
      LeafUnlinked h h' roots r n a := by
  obtain ⟨h', G', heq, hcheck, hU, hP⟩ := hI.removeLeaf_unhooks hn hl ha
  have hI' := hI.removed hn hl ha hU
  have hF := hI.frame_remove hn hl ha hU
  have hempty := hI.leftEmpty_iff hn hl ha hU hP
  refine ⟨h', heq, hcheck, fun r' hr' y hy m hm => hI.reachLeaf_removed hn hl ha hU
    (hroots r' hr') hy hm, ?_, ?_, ?_⟩
  · intro r' hr'
    have hk := (hroots r' hr').known
    have hheld := (hroots r' hr').frame hF
    have htop : G'.top (G'.fam r') = G.top (G.fam r') := by
      rw [hU.fam, hU.top]
      rfl
    refine ⟨_, hI.tree.climbToRoot_eq _ hk ((hroots r' hr').startable hI) (by omega),
      ?_, fun c => ?_⟩
    · rw [hI'.tree.climbToRoot_eq _ hheld.known (hheld.startable hI') (by omega), htop]
    · have hlinked := hI'.tree.linked_iff (c := c) hheld.known
      rw [htop, hU.fam] at hlinked
      rw [hlinked, hI.tree.linked_iff hk, hempty]
      constructor
      · rintro ⟨h1, h2⟩
        obtain ⟨h3, h4⟩ := hU.live c h1
        exact ⟨⟨h3, h2⟩, h4, fun h0 => h0.2 h1⟩
      · rintro ⟨⟨h1, h2⟩, h3, h4⟩
        exact ⟨by_contra fun h0 => h4 ⟨⟨h1, h3⟩, h0⟩, h2⟩
  · obtain ⟨dead, h1, h2⟩ := hP.retired
    have hret : (h.beforeUnhook n l).retired = n :: h.retired := retired_unlinkLeaf _ _
    refine ⟨dead ++ [n], by rw [h1, hret]; simp, fun c => ?_, fun c hc => ?_⟩
    · rw [List.mem_append, List.mem_singleton, h2, hempty, or_comm]
    · rcases List.mem_append.mp hc with hc | hc
      · obtain ⟨h3, h4⟩ := (h2 c).mp hc
        obtain ⟨m, hm, -, -, hdel, -⟩ := hP.dead c h3 h4
        rw [hm]
        exact hdel
      · obtain rfl := List.mem_singleton.mp hc
        rw [hP.others c fun h0 => h0.2 rfl, Heap.beforeUnhook, hI.node_unlinkLeaf hn hl ha,
          if_pos rfl]
        rfl
  · obtain ⟨ls, h1, h2, h3⟩ := hI.leafList_removed hn hl ha hU (hroots r hr).known
    refine ⟨ls, h1, fun y hy m hm => ?_, h3⟩
    obtain ⟨g1, g2, -, -, g3⟩ := (hroots r hr).reach hI hy hm
    exact (h2 m).mpr ⟨g1, by rw [g3]; rfl, g2⟩

/-- **The last key of a leaf with a left neighbour is removed.** -/
theorem Forest.Reachable.remove_leaf (hs : s.Reachable P) {r x n a : ℕ} (hr : r ∈ s.roots)
    (hx : x < ikeyLimit) (hn : reachLeaf s.heap r x = some n) (hsize : (s.heap.leaf n).size = 1)
    (ha : (s.heap.leaf n).prev = some a) :
    ∃ h', finishRemove s.heap n 0 = some h' ∧ finishRemoveChecked s.heap n 0 = some h' ∧
      LeafUnlinked s.heap h' s.roots r n a := by
  obtain ⟨G, hI, hroots⟩ := hs.ok
  obtain ⟨hlive, -, -, -, hl⟩ := (hroots r hr).reach hI hx hn
  have hok := hI.leaves n { s.heap.leaf n with parent := none } hlive (by rw [hl]; rfl)
  -- the leaf without its last slot
  set l : Leaf β := { s.heap.leaf n with modstate := .remove,
                                         permutation := (s.heap.leaf n).permutation.remove 0 } with
                                         hl₁
  obtain ⟨hent, hok₁⟩ := hok.removeSlot (i := 0) (by omega) hl₁
  have hempty : l.size = 0 := by
    have hlen : (s.heap.leaf n).entries.length = (s.heap.leaf n).size :=
      Leaf.entries_length hok.perm
    have hlen₁ : l.entries.length = l.size := Leaf.entries_length hok₁.perm
    rw [← hlen₁, hent, List.length_eraseIdx_of_lt (by omega), hlen, hsize]
  have hsame : (s.heap.leaf n).SameLinks l := ⟨rfl, rfl, rfl, rfl, Iff.rfl⟩
  have hT := SameTree.setLeaf hl hsame
  obtain ⟨h', heq, hcheck, hU⟩ := (hI.setLeaf hl hsame rfl rfl fun _ => hok₁).leafUnlinked
    (fun r' hr' => (hroots r' hr').frame (hT.frame G)) hr hlive (l := l) (by simp) ha
  refine ⟨h', ?_, ?_, hU.of_sameTree hT fun c => ?_⟩
  · rw [finishRemove]
    exact (if_pos hempty).trans heq
  · rw [finishRemoveChecked]
    exact (if_pos hempty).trans hcheck
  · by_cases hcn : c = n
    · rw [hcn]
      simp [Heap.leaf, l]
    · simp [Heap.leaf, hcn]

end

/-! Runs of insertions and removals of slices. -/

namespace Forest

instance {β : Type} [Inhabited β] (P : NodeParams) (s : Forest β) (r x : ℕ) (c : Cursor)
    (ka : Slot β) : Decidable (s.Stops P r x c ka) :=
  decidable_of_iff (r ∈ s.roots ∧ x < ikeyLimit ∧ reachLeaf s.heap r x = some c.n ∧
    c.i ≤ (s.heap.leaf c.n).size ∧ (∀ t ∈ (s.heap.leaf c.n).entries.take c.i, t.ikey ≤ x) ∧
    (∀ t ∈ (s.heap.leaf c.n).entries.drop c.i, x ≤ t.ikey) ∧ ka.ikey = x ∧
    (P.leafWidth ≤ (s.heap.leaf c.n).size + 1 → ∃ t ∈ (s.heap.leaf c.n).entries, t.ikey ≠ x))
    ⟨fun ⟨h1, h2, h3, h4, h5, h6, h7, h8⟩ => ⟨h1, h2, h3, h4, h5, h6, h7, h8⟩,
      fun ⟨h1, h2, h3, h4, h5, h6, h7, h8⟩ => ⟨h1, h2, h3, h4, h5, h6, h7, h8⟩⟩

/-- `find_insert` of a slice and `finish(1)`, in a table of numbers. -/
def put (P : NodeParams) (s : Forest ℕ) (r x : ℕ) : Option (Forest ℕ) :=
  (reachLeaf s.heap r x).bind fun n =>
    let c : Cursor := ⟨n, (s.heap.leaf n).entries.countP (·.ikey < x), none⟩
    if s.Stops P r x c ⟨x, x⟩ then
      (MasstreeLHM.makeRoom P s.heap c ⟨x, x⟩).map fun (h, pos) =>
        ⟨finishInsert (writeSlot h pos ⟨x, x⟩) pos, s.roots⟩
    else none

lemma reachable_put {P : NodeParams} {s s' : Forest ℕ} (hs : s.Reachable P) {r x : ℕ}
    (h : s.put P r x = some s') : s'.Reachable P := by
  rw [put, Option.bind_eq_some_iff] at h
  obtain ⟨n, -, h⟩ := h
  dsimp only at h
  split_ifs at h with hstops
  obtain ⟨⟨h₁, pos⟩, hroom, rfl⟩ := Option.map_eq_some_iff.mp h
  exact hs.tail (.insert s r x _ ⟨x, x⟩ ⟨x, x⟩ h₁ pos [] hstops hroom (by simp) rfl)

/-- The slices `xs`, one after another. -/
def putAll (P : NodeParams) (r : ℕ) : Forest ℕ → List ℕ → Option (Forest ℕ)
  | s, [] => some s
  | s, x :: xs => (s.put P r x).bind fun s' => putAll P r s' xs

lemma reachable_putAll {P : NodeParams} {r : ℕ} {xs : List ℕ} : ∀ {s s' : Forest ℕ},
    s.Reachable P → putAll P r s xs = some s' → s'.Reachable P := by
  induction xs with
  | nil =>
      intro s s' hs h
      obtain rfl := Option.some.inj h
      exact hs
  | cons x xs ih =>
      intro s s' hs h
      obtain ⟨s₁, h1, h2⟩ := Option.bind_eq_some_iff.mp h
      exact ih (reachable_put hs h1) h2

/-- `finish_remove` of a slice, in a table of numbers. -/
def drop (s : Forest ℕ) (r x : ℕ) : Option (Forest ℕ) :=
  (reachLeaf s.heap r x).bind fun n =>
    let i := (s.heap.leaf n).entries.countP (·.ikey < x)
    if r ∈ s.roots ∧ x < ikeyLimit ∧ i < (s.heap.leaf n).size then
      (finishRemove s.heap n i).map fun h => ⟨h, s.roots⟩
    else none

lemma reachable_drop {P : NodeParams} {s s' : Forest ℕ} (hs : s.Reachable P) {r x : ℕ}
    (h : s.drop r x = some s') : s'.Reachable P := by
  rw [drop, Option.bind_eq_some_iff] at h
  obtain ⟨n, hn, h⟩ := h
  dsimp only at h
  split_ifs at h with hin
  obtain ⟨h₁, hremove, rfl⟩ := Option.map_eq_some_iff.mp h
  exact hs.tail (.remove s r x n _ h₁ hin.1 hin.2.1 hn hin.2.2 hremove)

/-- The slices `xs` are removed, one after another. -/
def dropAll (r : ℕ) : Forest ℕ → List ℕ → Option (Forest ℕ)
  | s, [] => some s
  | s, x :: xs => (s.drop r x).bind fun s' => dropAll r s' xs

lemma reachable_dropAll {P : NodeParams} {r : ℕ} {xs : List ℕ} : ∀ {s s' : Forest ℕ},
    s.Reachable P → dropAll r s xs = some s' → s'.Reachable P := by
  induction xs with
  | nil =>
      intro s s' hs h
      obtain rfl := Option.some.inj h
      exact hs
  | cons x xs ih =>
      intro s s' hs h
      obtain ⟨s₁, h1, h2⟩ := Option.bind_eq_some_iff.mp h
      exact ih (reachable_drop hs h1) h2

/-- 64 ascending slices, of which some are removed again. -/
def putAndDrop (dropped : List ℕ) : Option (Forest ℕ) :=
  (putAll namespaceTableParams 0 (empty.allocLeaves [Leaf.makeRoot namespaceTableParams none])
    (List.range 64)).bind fun s => dropAll 0 s dropped

lemma reachable_putAndDrop {dropped : List ℕ} {s : Forest ℕ} (h : putAndDrop dropped = some s) :
    s.Reachable namespaceTableParams := by
  obtain ⟨s₁, h1, h2⟩ := Option.bind_eq_some_iff.mp h
  have hreach : s₁.Reachable namespaceTableParams :=
    reachable_putAll (.tail .refl (.alloc empty _ (by simpa using Leaf.Fresh.makeRoot none))) h1
  exact reachable_dropAll hreach h2

/-- Eight leaves are below one internode, and two below another one.  When the second of these two
loses its only key, its parent is left without a key and the other leaf takes its place.  When the
first of them loses its last key, the key in front of their parent is redirected from 56 to 63. -/
theorem remove_leaf_splice_and_redirect :
    (∃ s h', putAndDrop [] = some s ∧ finishRemove s.heap 12 0 = some h' ∧
      LeafUnlinked s.heap h' s.roots 0 12 9 ∧
      (s.heap.node 9).parent = some 10 ∧ (h'.node 9).parent = some 11) ∧
    ∃ s h', putAndDrop [56, 57, 58, 59, 60, 61] = some s ∧ finishRemove s.heap 9 0 = some h' ∧
      LeafUnlinked s.heap h' s.roots 0 9 8 ∧
      (s.heap.internode 11).keys = [56] ∧ (h'.internode 11).keys = [63] := by
  constructor
  · have hrun : ((putAndDrop []).map fun s =>
        (s.roots, reachLeaf s.heap 0 63, (s.heap.leaf 12).size, (s.heap.leaf 12).prev))
        = some ([0], some 12, 1, some 9) := by decide +kernel
    have hparents : ((putAndDrop []).map fun s => ((s.heap.node 9).parent,
        (finishRemove s.heap 12 0).map fun h' => (h'.node 9).parent))
        = some (some 10, some (some 11)) := by decide +kernel
    obtain ⟨s, hs, heq⟩ := Option.map_eq_some_iff.mp hrun
    simp only [Prod.mk.injEq] at heq
    obtain ⟨hroots, hn, hsize, ha⟩ := heq
    obtain ⟨h', h1, -, h2⟩ := Reachable.remove_leaf (reachable_putAndDrop hs)
      (by rw [hroots]; simp) (by decide) hn hsize ha
    rw [hs, Option.map_some, h1] at hparents
    simp only [Option.map_some, Option.some.injEq, Prod.mk.injEq] at hparents
    exact ⟨s, h', hs, h1, h2, hparents⟩
  · have hrun : ((putAndDrop [56, 57, 58, 59, 60, 61]).map fun s =>
        (s.roots, reachLeaf s.heap 0 62, (s.heap.leaf 9).size, (s.heap.leaf 9).prev))
        = some ([0], some 9, 1, some 8) := by decide +kernel
    have hkeys : ((putAndDrop [56, 57, 58, 59, 60, 61]).map fun s => ((s.heap.internode 11).keys,
        (finishRemove s.heap 9 0).map fun h' => (h'.internode 11).keys))
        = some ([56], some [63]) := by decide +kernel
    obtain ⟨s, hs, heq⟩ := Option.map_eq_some_iff.mp hrun
    simp only [Prod.mk.injEq] at heq
    obtain ⟨hroots, hn, hsize, ha⟩ := heq
    obtain ⟨h', h1, -, h2⟩ := Reachable.remove_leaf (reachable_putAndDrop hs)
      (by rw [hroots]; simp) (by decide) hn hsize ha
    rw [hs, Option.map_some, h1] at hkeys
    simp only [Option.map_some, Option.some.injEq, Prod.mk.injEq] at hkeys
    exact ⟨s, h', hs, h1, h2, hkeys⟩

end Forest

end MasstreeLHM
