import MasstreeLHM.Insert
import Mathlib.Logic.Relation

/-!
# Unhooking a dead node

The loop of `remove_leaf` takes a dead node out of the tree.  Its range goes to its left neighbour:
with `[b, e)` the range of the removed leaf, every boundary at `b` moves to `e`.  Until the loop has
found a node that survives, nothing moves, and the dead node `n` is a hole in its parent, with at
most one live child `r` left below it that will take its place.

`DropInv` is the loop invariant.  The loop goes up the path to `b`, and **`on_path`** says that
every live node that contains `b` lies on it.  A parent that is left without a separator dies as
well: `ParentDies` is that situation, `ParentKilled` the heap behind it, and
**`DropInv.kill_parent`** moves the hole one level up.

`redirect` walks up by itself and rewrites one separator on every level where it is the same.
**`redirect_spec`** says that it moves the lower end of a node in all separators above it, by
induction on its fuel with `redirect_level` as the step.
-/

namespace MasstreeLHM

open Separators Relation

variable {β : Type} {h : Heap β} {G : Ghost}

/-! ## The path to a slice -/

/-- One step of the search for `x`. -/
def Down (h : Heap β) (x : ℕ) (a c : Ptr) : Prop :=
  ∃ n, h.node a = .internode n ∧ n.child (upper x n.keys) = some c

lemma down_rightUnique (h : Heap β) (x : ℕ) : Relator.RightUnique (Down h x) := by
  rintro a c d ⟨n, hn, hc⟩ ⟨m, hm, hd⟩
  rw [hn] at hm
  obtain rfl : n = m := by simpa using hm
  rw [hc] at hd
  exact Option.some.inj hd

lemma Internode.mem_of_child {n : Internode} {i : ℕ} {c : Ptr} (hc : n.child i = some c) :
    some c ∈ n.children := by
  rw [Internode.child, List.getD_eq_getElem?_getD] at hc
  cases hi : n.children[i]? with
  | none => simp [hi] at hc
  | some d =>
      rw [hi, Option.getD_some] at hc
      exact hc ▸ List.mem_of_getElem? hi

namespace TreeInv

variable {X : Excused}

/-- What a step of a search finds below a live node. -/
lemma down_spec (hT : TreeInv h G X) (hview : X.view = G.hi) {x : ℕ} {a c : Ptr} (ha : G.live a)
    (hd : Down h x a c) : (G.live c ∨ X.hole c) ∧ (h.node c).parent = some a ∧
      G.lo a ≤ G.lo c ∧ G.hi c ≤ G.hi a := by
  obtain ⟨n, hn, hc⟩ := hd
  obtain ⟨-, -, -, -, -, -, -, -, -, hseg, h1, h2, -⟩ :=
    (hT.link ha hn).cut_child (Internode.mem_of_child hc)
  rw [hview] at h2
  exact ⟨hseg.1, hseg.2.2.1, h1, h2⟩

/-- A linked node that contains `x` is where the search for `x` goes from its parent. -/
lemma down_parent (hT : TreeInv h G X) (hview : X.view = G.hi) {x : ℕ} {a p : Ptr} (hp : G.live p)
    (hint : (h.node p).isLeaf = false) (hmem : some a ∈ (h.internode p).children)
    (hl : G.lo a ≤ x) (hu : x < G.hi a) : Down h x p a ∧ G.lo p ≤ x ∧ x < G.hi p := by
  obtain ⟨n, hn⟩ := Node.exists_internode hint
  rw [Heap.internode_eq hn] at hmem
  obtain ⟨k₁, k₂, c₁, c₂, -, hcs, hlen, -, -, -, h1, h2, hup⟩ := (hT.link hp hn).cut_child hmem
  rw [hview] at h2 hup
  refine ⟨⟨n, hn, ?_⟩, h1.trans hl, hu.trans_le h2⟩
  rw [hup x hl hu, ← hlen, Internode.child, hcs]
  simp

/-- A live node that contains `x` is on the path to `x`, if no loose node contains it. -/
lemma path_from_top (hT : TreeInv h G X) (hview : X.view = G.hi) {x : ℕ}
    (hloose : ∀ c, X.loose c → ¬ (G.lo c ≤ x ∧ x < G.hi c)) :
    ∀ (k : ℕ) {a : Ptr}, G.live a → G.lo a ≤ x → x < G.hi a → h.size ≤ (h.node a).height + k →
      ReflTransGen (Down h x) (G.top (G.fam a)) a
  | 0, a, ha, _, _, hk => absurd (hT.height_lt (hT.live_lt ha)) (by omega)
  | k + 1, a, ha, hl, hu, hk => by
      have hx : ¬ X.loose a := fun h0 => hloose a h0 ⟨hl, hu⟩
      cases hp : (h.node a).parent with
      | none => rw [← hT.top_eq (hT.known ha) hx hp]
      | some p =>
          obtain ⟨-, hfam, hh, hint⟩ := hT.up (hT.known ha) hp
          obtain ⟨hlive, hmem⟩ := hT.linked ha hx hp
          obtain ⟨hd, hl', hu'⟩ := hT.down_parent hview hlive hint hmem hl hu
          rw [← hfam]
          exact (path_from_top hT hview hloose k hlive hl' hu' (by omega)).tail hd

/-- The nodes below a live node on a path: their ranges are nested and their heights decrease. -/
lemma path_nested (hT : TreeInv h G X) (hview : X.view = G.hi)
    (hhole : ∀ c, X.hole c → G.Known h c ∧ ∀ d x, ¬ Down h x c d) {x : ℕ} {a c : Ptr}
    (ha : G.live a) (hp : ReflTransGen (Down h x) a c) : (G.live c ∨ X.hole c) ∧ G.lo a ≤ G.lo c ∧
      G.hi c ≤ G.hi a ∧ (c = a ∨ ∃ p, (h.node c).parent = some p ∧ G.live p ∧
        ReflTransGen (Down h x) a p ∧ (h.node c).height < (h.node a).height) := by
  induction hp with
  | refl => exact ⟨Or.inl ha, le_rfl, le_rfl, Or.inl rfl⟩
  | @tail p c hap hpc ih =>
      obtain ⟨h1, h2, h3, h4⟩ := ih
      have hlive : G.live p := h1.resolve_right fun h0 => (hhole p h0).2 c x hpc
      obtain ⟨g1, g2, g3, g4⟩ := hT.down_spec hview hlive hpc
      have hk : G.Known h c := g1.elim hT.known fun h0 => (hhole c h0).1
      have hh := (hT.up hk g2).2.2.1
      refine ⟨g1, h2.trans g3, g4.trans h3, Or.inr ⟨p, g2, hlive, hap, ?_⟩⟩
      rcases h4 with rfl | ⟨-, -, -, -, h5⟩
      · exact hh
      · exact hh.trans h5

end TreeInv

/-! ## The loop invariant -/

/-- The excuses while the dead node `n` waits to be unhooked: it is a hole in its parent, and
its last child `r` is not linked. -/
def Ghost.drop (G : Ghost) (n : Ptr) (r : Option Ptr) : Excused :=
  ⟨G.hi, (· = n), (some · = r), fun _ => False⟩

/-- The live child that is left below the dead node `n`. -/
structure Remainder (h : Heap β) (G : Ghost) (n b : ℕ) (c : Ptr) : Prop where
  live : G.live c
  lo : G.lo c = G.lo n
  hi : G.hi c = b
  parent : (h.node c).parent = some n
  bit : (h.node c).startable → (h.node c).isRoot = false

/-- **The loop invariant of `remove_leaf`.**  The removed leaf had the range `[b, e)`. -/
structure DropInv (h : Heap β) (G : Ghost) (n : Ptr) (r : Option Ptr) (b e : ℕ) : Prop where
  tree : TreeInv h G (G.drop n r)
  dead : ¬ G.live n
  known : G.Known h n
  parent : ∃ p, (h.node n).parent = some p ∧ G.live p ∧ some n ∈ (h.internode p).children
  leaves : ∀ d x, ¬ Down h x n d
  pos : 0 < b
  lt_end : b < e
  hi : G.hi n = e
  whole : r = none → G.lo n = b
  rest : ∀ c, r = some c → Remainder h G n b c

namespace DropInv

variable {n b e : ℕ} {r : Option Ptr}

lemma lt (hd : DropInv h G n r b e) : n < h.size := hd.known.1

/-- The parent of the dead node, and the cut of its children at the dead node. -/
lemma parent_cut (hd : DropInv h G n r b e) : ∃ p ip k₁ k₂ c₁ c₂, (h.node n).parent = some p ∧
    h.node p = .internode ip ∧ G.live p ∧ p ≠ n ∧ G.fam p = G.fam n ∧
    (h.node n).height < ip.height ∧ LinkInv h G (G.drop n r) p ip ∧
    ip.keys = k₁ ++ k₂ ∧ ip.children = c₁ ++ some n :: c₂ ∧ c₁.length = k₁.length ∧
    downTo (G.lo p) k₁ = G.lo n ∧ upTo (G.hi p) k₂ = e ∧ upper b ip.keys = k₁.length ∧
    G.lo p ≤ G.lo n ∧ e ≤ G.hi p ∧ G.lo n ≤ b := by
  obtain ⟨p, hp, hlive, hmem⟩ := hd.parent
  obtain ⟨-, hfam, hh, hint⟩ := hd.tree.up hd.known hp
  obtain ⟨ip, hip⟩ := Node.exists_internode hint
  rw [Heap.internode_eq hip] at hmem
  rw [hip] at hh
  have hlink := hd.tree.link hlive hip
  obtain ⟨k₁, k₂, c₁, c₂, hk, hc, hl, hlo, hup, hseg, h1, h2, hupper⟩ := hlink.cut_child hmem
  have hview : (G.drop n r).view n = e := hd.hi
  rw [hview] at hup hseg h2 hupper
  have hb : G.lo n ≤ b := by
    cases r with
    | none => exact (hd.whole rfl).le
    | some c =>
        have hrem := hd.rest c rfl
        have := (hd.tree.range hrem.live).1
        rw [hrem.lo, hrem.hi] at this
        exact this.le
  refine ⟨p, ip, k₁, k₂, c₁, c₂, hp, hip, hlive, ?_, hfam, hh, hlink, hk, hc, hl, hlo, hup,
    hupper b hb hd.lt_end, h1, h2, hb⟩
  rintro rfl
  exact hd.dead hlive

lemma hole_spec (hd : DropInv h G n r b e) :
    ∀ c, (G.drop n r).hole c → G.Known h c ∧ ∀ d x, ¬ Down h x c d := by
  rintro c rfl
  exact ⟨hd.known, hd.leaves⟩

lemma not_loose (hd : DropInv h G n r b e) :
    ∀ c, (G.drop n r).loose c → ¬ (G.lo c ≤ b ∧ b < G.hi c) := by
  intro c hc
  have := (hd.rest c hc.symm).hi
  omega

/-- The live nodes of the layer that contain `b` are on the path to `b`. -/
lemma path (hd : DropInv h G n r b e) {a : Ptr} (ha : G.live a) (hfam : G.fam a = G.fam n)
    (hl : G.lo a ≤ b) (hu : b < G.hi a) :
    ReflTransGen (Down h b) (G.top (G.fam n)) a :=
  hfam ▸ hd.tree.path_from_top rfl hd.not_loose h.size ha hl hu (by omega)

/-- What lies below a live node on a path. -/
lemma below (hd : DropInv h G n r b e) {a c : Ptr} (ha : G.live a)
    (hp : ReflTransGen (Down h b) a c) : G.lo a ≤ G.lo c ∧ G.hi c ≤ G.hi a ∧
      (c = a ∨ ∃ p, (h.node c).parent = some p ∧ G.live p ∧ ReflTransGen (Down h b) a p ∧
        (h.node c).height < (h.node a).height) :=
  (hd.tree.path_nested rfl hd.hole_spec ha hp).2

/-- Two live nodes on the path: one is above the other. -/
lemma path_total (hd : DropInv h G n r b e) {a c : Ptr} (ha : G.live a) (hc : G.live c)
    (hfa : G.fam a = G.fam n) (hfc : G.fam c = G.fam n) (hla : G.lo a ≤ b) (hua : b < G.hi a)
    (hlc : G.lo c ≤ b) (huc : b < G.hi c) (hh : (h.node c).height ≤ (h.node a).height) :
    c = a ∨ ∃ q, (h.node c).parent = some q ∧ G.live q ∧ ReflTransGen (Down h b) a q ∧
      (h.node c).height < (h.node a).height := by
  rcases ReflTransGen.total_of_right_unique (down_rightUnique h b) (hd.path ha hfa hla hua)
    (hd.path hc hfc hlc huc) with h1 | h1
  · exact (hd.below ha h1).2.2
  · rcases (hd.below hc h1).2.2 with rfl | ⟨-, -, -, -, h2⟩
    · exact Or.inl rfl
    · omega

/-- **A live node of the layer that contains `b` is the parent of the dead node or above it.** -/
lemma on_path (hd : DropInv h G n r b e) {p a : Ptr} (hp : (h.node n).parent = some p)
    (ha : G.live a) (hfam : G.fam a = G.fam n) (hl : G.lo a ≤ b) (hu : b < G.hi a) :
    G.lo a ≤ G.lo p ∧ G.hi p ≤ G.hi a ∧ (a = p ∨ (h.node p).height < (h.node a).height) := by
  obtain ⟨p', ip, -, -, -, -, hp', hip, hlive, -, hfam', -, -, -, -, -, -, -, -,
    hlop, hhip, hlon⟩ :=
    hd.parent_cut
  obtain rfl : p = p' := by simpa [hp] using hp'
  have hblt := hd.lt_end
  have hmem : some n ∈ (h.internode p).children := by
    obtain ⟨q, hq, -, hm⟩ := hd.parent
    obtain rfl : p = q := by simpa [hp] using hq
    exact hm
  have hpn := (hd.tree.down_parent rfl hlive (by rw [hip]; rfl) hmem hlon
    (by rw [hd.hi]; exact hblt)).1
  have hpp := hd.path hlive hfam' (by omega) (by omega)
  -- below the dead node there is nothing, so the path from `a` leads to it
  have han : ReflTransGen (Down h b) a n := by
    rcases ReflTransGen.total_of_right_unique (down_rightUnique h b) (hd.path ha hfam hl hu)
      (hpp.tail hpn) with h1 | h1
    · exact h1
    · rcases ReflTransGen.cases_head h1 with rfl | ⟨d, h2, -⟩
      · exact absurd ha hd.dead
      · exact absurd h2 (hd.leaves d b)
  obtain ⟨-, -, rfl | ⟨q, hq, -, haq, -⟩⟩ := hd.below ha han
  · exact absurd ha hd.dead
  · obtain rfl : p = q := by simpa [hp] using hq
    obtain ⟨h1, h2, h3⟩ := hd.below ha haq
    refine ⟨h1, h2, ?_⟩
    rcases h3 with rfl | ⟨-, -, -, -, h3⟩
    · exact Or.inl rfl
    · exact Or.inr h3

/-- A node above `q` on the path has the separator `b` only if `q` starts at `b`. -/
lemma lo_of_key_above (hd : DropInv h G n r b e) {a q : Ptr} {ia : Internode} (ha : G.live a)
    (hia : h.node a = .internode ia) (hq : G.live q) (hfa : G.fam a = G.fam n)
    (hfq : G.fam q = G.fam n) (hlq : G.lo q ≤ b) (huq : b < G.hi q)
    (hh : (h.node q).height < (h.node a).height) (hb : b ∈ ia.keys) : G.lo q = b := by
  have hlink := hd.tree.link ha hia
  obtain ⟨hla, hua⟩ := hlink.sorted.2 b hb
  rcases hd.path_total ha hq hfa hfq hla hua hlq huq hh.le with rfl | ⟨p, hp, -, hap, -⟩
  · exact absurd hh (lt_irrefl _)
  -- the first step of the path from `a` to `q` leads to the child that starts at `b`
  have haq : ReflTransGen (Down h b) a q := by
    rcases ReflTransGen.total_of_right_unique (down_rightUnique h b) (hd.path ha hfa hla hua)
      (hd.path hq hfq hlq huq) with h1 | h1
    · exact h1
    · rcases (hd.below hq h1).2.2 with rfl | ⟨-, -, -, -, h2⟩
      · exact absurd hh (lt_irrefl _)
      · omega
  rcases ReflTransGen.cases_head haq with rfl | ⟨d, had, hdq⟩
  · exact absurd hh (lt_irrefl _)
  have hdlive : G.live d := by
    rcases (hd.tree.down_spec rfl ha had).1 with h1 | h1
    · exact h1
    · obtain rfl : d = n := h1
      rcases ReflTransGen.cases_head hdq with rfl | ⟨c, h2, -⟩
      · exact hq
      · exact absurd h2 (hd.leaves c b)
  have hlodq := (hd.below hdlive hdq).1
  have hlod : b ≤ G.lo d := by
    obtain ⟨ia', hia', hdc⟩ := had
    obtain rfl : ia = ia' := by simpa [hia] using hia'
    obtain ⟨k₁, k₂, c₁, c₂, hk, hcs, hlen, hdn, hup, hseg, -, -, hupper⟩ :=
      hlink.cut_child (Internode.mem_of_child hdc)
    have hs := hlink.sorted
    rw [hk] at hs hb
    obtain ⟨h1, h2, -, -⟩ := cut_bounds hs.1 hs.2
    rw [hdn] at h1
    rw [hup] at h2
    rcases List.mem_append.mp hb with h3 | h3
    · exact h1 b h3
    · have hhi : b < (G.drop n r).view d := by
        have := (hd.below hdlive hdq).2.1
        exact huq.trans_le this
      exact absurd (h2 b h3) (by omega)
  omega

end DropInv

/-! ## Moving a boundary -/

/-- The boundary `u` moves to `v`. -/
def moveTo (u v x : ℕ) : ℕ := if x = u then v else x

/-- Change the separators of an internode. -/
def Node.mapKeys (f : ℕ → ℕ) : Node β → Node β
  | .leaf l => .leaf l
  | .internode n => .internode { n with keys := n.keys.map f }

lemma moveTo_self (u : ℕ) : moveTo u u = id := by
  funext x
  simp only [moveTo, id]
  split_ifs with h0
  · exact h0.symm
  · rfl

lemma map_moveTo_of_notMem {u v : ℕ} {ks : List ℕ} (hu : u ∉ ks) : ks.map (moveTo u v) = ks := by
  rw [List.map_congr_left (g := id), List.map_id]
  intro x hx
  refine if_neg ?_
  rintro rfl
  exact hu hx

/-- In a strictly sorted list, moving a boundary is setting one element. -/
lemma map_moveTo_middle {u v : ℕ} {k₁ k₂ : List ℕ} (hs : (k₁ ++ u :: k₂).Pairwise (· < ·)) :
    (k₁ ++ u :: k₂).map (moveTo u v) = k₁ ++ v :: k₂ := by
  rw [List.pairwise_append, List.pairwise_cons] at hs
  rw [List.map_append, List.map_cons, map_moveTo_of_notMem, map_moveTo_of_notMem]
  · simp [moveTo]
  · exact fun h0 => absurd (hs.2.1.1 u h0) (lt_irrefl _)
  · exact fun h0 => absurd (hs.2.2 u h0 u (by simp)) (lt_irrefl _)

lemma Node.mapKeys_of_notMem {u v : ℕ} {n : Node β}
    (hn : ∀ i, n = .internode i → u ∉ i.keys ∨ v = u) : n.mapKeys (moveTo u v) = n := by
  cases n with
  | leaf l => rfl
  | internode i =>
      rcases hn i rfl with h0 | rfl
      · simp [Node.mapKeys, map_moveTo_of_notMem h0]
      · simp [Node.mapKeys, moveTo_self]

/-- The cut at a child that starts at `u`: either `u` is the separator in front of it, or the
child is the first one and the node starts at `u` itself. -/
lemma exists_concat_of_downTo {lo u : ℕ} {k₁ : List ℕ} (hd : downTo lo k₁ = u) :
    (k₁ = [] ∧ lo = u) ∨ ∃ k, k₁ = k ++ [u] := by
  rcases List.eq_nil_or_concat k₁ with rfl | ⟨k, x, rfl⟩
  · exact Or.inl ⟨rfl, by simpa using hd⟩
  · refine Or.inr ⟨k, ?_⟩
    rw [List.concat_eq_append, downTo_concat] at hd
    rw [List.concat_eq_append, hd]

namespace DropInv

variable {n b e v : ℕ} {r : Option Ptr}

/-- One level of `redirect`: the separator in front of `q` moves from the lower end of `q` to
`v`, and the loop goes on exactly if the parent has the same lower end. -/
lemma redirect_level (hd : DropInv h G n r b e) {q p : Ptr} {ip : Internode} (hq : G.live q)
    (hp : (h.node q).parent = some p) (hip : h.node p = .internode ip) (hlq : G.lo q ≤ b)
    (huq : b < G.hi q) :
    G.live p ∧ G.lo p ≤ b ∧ b < G.hi p ∧
      (if 0 < upper b ip.keys then ip.keys.set (upper b ip.keys - 1) v else ip.keys)
        = ip.keys.map (moveTo (G.lo q) v) ∧
      (upper b ip.keys = 0 ∨ (upper b ip.keys = 1 ∧ ip.child 0 = none) ↔ G.lo p = G.lo q) := by
  have hnl : ¬ (G.drop n r).loose q := fun h0 => hd.not_loose q h0 ⟨hlq, huq⟩
  obtain ⟨hlive, hmem⟩ := hd.tree.linked hq hnl hp
  rw [Heap.internode_eq hip] at hmem
  have hlink := hd.tree.link hlive hip
  obtain ⟨k₁, k₂, c₁, c₂, hk, hc, hl, hlo, hup, hseg, h1, h2, hupper⟩ := hlink.cut_child hmem
  change upTo _ _ = G.hi q at hup
  have hsorted := hlink.sorted
  have hkp := hupper b hlq huq
  refine ⟨hlive, h1.trans hlq, huq.trans_le h2, ?_, ?_⟩
  · rw [hkp]
    rcases exists_concat_of_downTo hlo with ⟨rfl, -⟩ | ⟨k, rfl⟩
    · -- no separator in front: all of them lie behind `q`
      rw [if_neg (by simp)]
      refine (map_moveTo_of_notMem fun h0 => ?_).symm
      rw [hk] at hsorted h0
      obtain ⟨-, g2, -, -⟩ := cut_bounds hsorted.1 hsorted.2
      have := g2 _ (by simpa using h0)
      rw [hup] at this
      omega
    · rw [List.length_append, List.length_singleton, if_pos (Nat.succ_pos _), Nat.add_sub_cancel]
      rw [hk, List.append_assoc, List.singleton_append] at hsorted ⊢
      rw [map_moveTo_middle hsorted.1]
      simp
  · rw [hkp]
    rcases exists_concat_of_downTo hlo with ⟨rfl, h0⟩ | ⟨k, rfl⟩
    · simp [h0]
    · cases k with
      | nil =>
          obtain ⟨d, rfl⟩ := List.length_eq_one_iff.mp (by simpa using hl)
          have hseg0 : SegOk h G (G.drop n r) p (G.lo p, d, G.lo q) := by
            refine hlink.segs _ ?_
            rw [hk, hc]
            simp
          have hd0 : ip.child 0 = d := by simp [Internode.child, hc]
          rw [hd0]
          cases d with
          | none =>
              have hlo0 : G.lo p = G.lo q := hseg0
              simp [hlo0]
          | some c =>
              have := hseg0.2.2.2.2.2
              simp
              omega
      | cons x xs =>
          have g1 : G.lo p ≤ x := (hsorted.2 x (by simp [hk])).1
          have g2 : x < G.lo q := by
            have hs := hsorted.1
            rw [hk] at hs
            exact List.rel_of_pairwise_cons hs (by simp)
          simp
          omega

/-- **`redirect` moves the lower end of `q` to `v` in all separators above `q`.** -/
lemma redirect_spec (hd : DropInv h G n r b e) : ∀ (fuel : ℕ) {q : Ptr} {h₁ : Heap β}, G.live q →
    G.fam q = G.fam n → G.lo q ≤ b → b < G.hi q → 0 < G.lo q → (G.lo q = b ∨ v = G.lo q) →
    (∀ a, G.live a → (h.node q).height < (h.node a).height → h₁.node a = h.node a) →
    (h₁.node q).parent = (h.node q).parent → h.size ≤ (h.node q).height + fuel →
    ∃ h₂, redirect b v fuel h₁ q = some h₂ ∧ h₂.size = h₁.size ∧ h₂.retired = h₁.retired ∧
      ∀ a, (G.live a ∧ G.fam a = G.fam n ∧ (h.node q).height < (h.node a).height →
          h₂.node a = (h.node a).mapKeys (moveTo (G.lo q) v)) ∧
        (¬ (G.live a ∧ G.fam a = G.fam n ∧ (h.node q).height < (h.node a).height) →
          h₂.node a = h₁.node a)
  | 0, q, h₁, hq, _, _, _, _, _, _, _, hf =>
      absurd (hd.tree.height_lt (hd.tree.live_lt hq)) (by omega)
  | fuel + 1, q, h₁, hq, hfq, hlq, huq, hpos, hv, hsame, hpar, hf => by
      have hnl : ¬ (G.drop n r).loose q := fun h0 => hd.not_loose q h0 ⟨hlq, huq⟩
      cases hp : (h.node q).parent with
      | none =>
          -- the root of a layer starts at 0
          have h1 := hd.tree.top_eq (hd.tree.known hq) hnl hp
          have h2 := (hd.tree.top_spec (hd.tree.known hq)).2.2.2.2.1
          rw [← h1] at h2
          omega
      | some p =>
          obtain ⟨-, hfam, hh, hint⟩ := hd.tree.up (hd.tree.known hq) hp
          obtain ⟨ip, hip⟩ := Node.exists_internode hint
          obtain ⟨hlive, hlp, hup, hkeys, hcont⟩ := hd.redirect_level (v := v) hq hp hip hlq huq
          have hip₁ : h₁.internode p = ip := Heap.internode_eq ((hsame p hlive hh).trans hip)
          -- the heap after the step at `p`
          obtain ⟨h₁', hh₁', hsz, hret, hnode_p, hnode⟩ : ∃ h₁' : Heap β,
              (if 0 < upper b ip.keys then
                h₁.setInternode p { ip with keys := ip.keys.set (upper b ip.keys - 1) v }
                else h₁) = h₁' ∧ h₁'.size = h₁.size ∧ h₁'.retired = h₁.retired ∧
              h₁'.node p = (h.node p).mapKeys (moveTo (G.lo q) v) ∧
              ∀ a, a ≠ p → h₁'.node a = h₁.node a := by
            refine ⟨_, rfl, by split_ifs <;> rfl, by split_ifs <;> rfl, ?_, ?_⟩
            · rw [hip, Node.mapKeys, ← hkeys]
              split_ifs
              · simp
              · rw [hsame p hlive hh, hip]
            · intro a ha
              split_ifs
              · simp [ha]
              · rfl
          -- another node above `q` with the moved separator is above `p`, and `p` starts there too
          have hother : ∀ a, G.live a → G.fam a = G.fam n → (h.node q).height < (h.node a).height →
              a ≠ p → ¬ (G.lo p = G.lo q ∧ (h.node p).height < (h.node a).height) →
              (h.node a).mapKeys (moveTo (G.lo q) v) = h.node a := by
            intro a ha hfa hha hap hno
            refine Node.mapKeys_of_notMem fun i hi => ?_
            rcases hv with hv | hv
            · refine Or.inl fun hb => hno ?_
              rw [hv] at hb
              obtain ⟨hla, hua⟩ := (hd.tree.link ha hi).sorted.2 b hb
              have hpa : (h.node p).height < (h.node a).height := by
                rcases hd.path_total ha hq hfa hfq hla hua hlq huq hha.le with
                  rfl | ⟨p', hp', -, hap', -⟩
                · exact absurd hha (lt_irrefl _)
                · obtain rfl : p = p' := by simpa [hp] using hp'
                  rcases (hd.below ha hap').2.2 with rfl | ⟨-, -, -, -, h2⟩
                  · exact absurd rfl hap
                  · exact h2
              refine ⟨?_, hpa⟩
              rw [hv]
              exact hd.lo_of_key_above ha hi hlive hfa (hfam.trans hfq) hlp hup hpa hb
            · exact Or.inr hv
          rw [redirect, hpar, hp]
          simp only [hip₁, hh₁']
          split_ifs with hc
          · have hlo := hcont.mp hc
            obtain ⟨h₂, heq, hs₂, hr₂, hn₂⟩ := redirect_spec hd fuel hlive (hfam.trans hfq) hlp hup
              (hlo ▸ hpos) (hlo ▸ hv)
              (fun a ha hha => by
                have hap : a ≠ p := by
                  rintro rfl
                  exact absurd hha (lt_irrefl _)
                rw [hnode a hap]
                exact hsame a ha (hh.trans hha))
              (by rw [hnode_p, hip]; rfl) (by omega)
            refine ⟨h₂, heq, hs₂.trans hsz, hr₂.trans hret, fun a => ⟨?_, ?_⟩⟩
            · rintro ⟨ha, hfa, hha⟩
              by_cases hhp : (h.node p).height < (h.node a).height
              · rw [(hn₂ a).1 ⟨ha, hfa, hhp⟩, hlo]
              · rw [(hn₂ a).2 (fun h0 => hhp h0.2.2)]
                by_cases hap : a = p
                · rw [hap]
                  exact hnode_p
                · rw [hnode a hap, hsame a ha hha, hother a ha hfa hha hap (fun h0 => hhp h0.2)]
            · intro hno
              have hap : a ≠ p := by
                rintro rfl
                exact hno ⟨hlive, hfam.trans hfq, hh⟩
              rw [(hn₂ a).2 (fun h0 => hno ⟨h0.1, h0.2.1, hh.trans h0.2.2⟩), hnode a hap]
          · refine ⟨h₁', rfl, hsz, hret, fun a => ⟨?_, ?_⟩⟩
            · rintro ⟨ha, hfa, hha⟩
              by_cases hap : a = p
              · rw [hap]
                exact hnode_p
              · rw [hnode a hap, hsame a ha hha,
                  hother a ha hfa hha hap (fun h0 => hc (hcont.mpr h0.1))]
            · intro hno
              have hap : a ≠ p := by
                rintro rfl
                exact hno ⟨hlive, hfam.trans hfq, hh⟩
              exact hnode a hap

end DropInv

/-! ## A parent that dies too -/

/-- The ghost with one node less. -/
def Ghost.kill (G : Ghost) (p : Ptr) : Ghost := { G with live := fun a => G.live a ∧ a ≠ p }

section

variable (h : Heap β) (a b : Ptr)

@[simp] lemma Heap.size_adopt (r : Option Ptr) : (h.adopt r a).size = h.size := by
  cases r <;> rfl

@[simp] lemma Heap.retired_adopt (r : Option Ptr) : (h.adopt r a).retired = h.retired := by
  cases r <;> rfl

lemma Heap.node_adopt (r : Option Ptr) : (h.adopt r a).node b
    = if some b = r then (h.node b).setParent (some a) else h.node b := by
  cases r with
  | none => rfl
  | some c =>
      simp only [Heap.adopt, Heap.node_setParent, Option.some.injEq]
      split_ifs with h0
      · rw [h0]
      · rfl

end

namespace DropInv

variable {n b e : ℕ} {r : Option Ptr}

lemma rest_ne (hd : DropInv h G n r b e) {p c : Ptr} (hp : (h.node n).parent = some p)
    (hc : some c = r) :
    c ≠ p ∧ c ≠ n ∧ G.fam c = G.fam n ∧ (h.node c).height < (h.node n).height := by
  have hrem := hd.rest c hc.symm
  obtain ⟨-, h2, h3, -⟩ := hd.tree.up (hd.tree.known hrem.live) hrem.parent
  have h4 := (hd.tree.up hd.known hp).2.2.1
  refine ⟨?_, ?_, h2.symm, h3⟩
  · rintro rfl
    omega
  · rintro rfl
    exact hd.dead hrem.live

/-- The shape of a parent that loses its last separator, and what is left below it. -/
lemma nonfinal_shape (hd : DropInv h G n r b e) {p : Ptr} {ip : Internode}
    (hp : (h.node n).parent = some p) (hip : h.node p = .internode ip)
    (hsize : (ip.replaceChild (upper b ip.keys) r).keys = []) :
    ∃ r', (ip.replaceChild (upper b ip.keys) r).children = [r'] ∧ G.hi p = e ∧
      (r' = none → G.lo p = b) ∧ (∀ c, some c ∈ ip.children → c = n ∨ some c = r') ∧
      (∀ c, r = some c → r' = some c ∧ G.lo p = G.lo n) ∧
      (∀ c, r' = some c → r = none → Remainder h G p b c) := by
  obtain ⟨p', ip', k₁, k₂, c₁, c₂, hp', hip', hlive, hpn, hfam, hh, hlink, hk, hc, hl, hlo, hup,
    hupper, h1, h2, h3⟩ := hd.parent_cut
  obtain rfl : p = p' := by simpa [hp] using hp'
  obtain rfl : ip = ip' := by simpa [hip] using hip'
  have hlen := hlink.length
  rw [hk, hc] at hlen
  simp only [List.length_append, List.length_cons] at hlen
  rw [hupper] at hsize ⊢
  rw [Internode.replaceChild] at hsize ⊢
  split_ifs at hsize ⊢ with hcond
  · -- the separator in front of `n` was the only one
    have hk1 : k₁.length = 1 ∧ k₂ = [] := by
      have := congrArg List.length hsize
      simp only [hk, List.length_nil] at this
      rw [List.length_eraseIdx_of_lt (by simp; omega)] at this
      simp only [List.length_append] at this
      exact ⟨by omega, List.length_eq_zero_iff.mp (by omega)⟩
    obtain ⟨x, rfl⟩ := List.length_eq_one_iff.mp hk1.1
    obtain ⟨d, rfl⟩ := List.length_eq_one_iff.mp (hl.trans hk1.1)
    obtain rfl := hk1.2
    obtain rfl : c₂ = [] := List.length_eq_zero_iff.mp (by simp at hlen; omega)
    have hx : x = b := (by simpa using hlo : x = G.lo n).trans (hd.whole hcond.1)
    subst hx
    have hhi : G.hi p = e := by simpa [upTo] using hup
    have hseg : SegOk h G (G.drop n r) p (G.lo p, d, x) := by
      refine hlink.segs _ ?_
      rw [hk, hc]
      simp
    refine ⟨d, by simp [hc], hhi, ?_, ?_, ?_, ?_⟩
    · rintro rfl
      exact hseg
    · intro c hcm
      rw [hc] at hcm
      simp only [List.singleton_append, List.mem_cons, Option.some.injEq, List.not_mem_nil,
        or_false] at hcm
      tauto
    · intro c hrc
      rw [hcond.1] at hrc
      cases hrc
    · rintro c rfl -
      obtain ⟨g1, g2, g3, g4, g5, -⟩ := hseg
      have hcn : c ≠ n := by
        rintro rfl
        exact (hlink.child_notMem hc).1 (by simp)
      have hcl : G.live c := g1.resolve_right hcn
      refine ⟨hcl, g4, g5, g3, fun hst => ?_⟩
      by_contra h0
      have := (hd.tree.root_bit (hd.tree.known hcl) g2 hst).1 (by simpa using h0)
      rw [g3] at this
      cases this
  · obtain ⟨rfl, rfl⟩ : k₁ = [] ∧ k₂ = [] := by simpa [hk] using hsize
    obtain rfl : c₁ = [] := List.length_eq_zero_iff.mp hl
    obtain rfl : c₂ = [] := by simpa using hlen
    have hlo' : G.lo p = G.lo n := by simpa using hlo
    have hhi : G.hi p = e := by simpa [upTo] using hup
    refine ⟨r, by simp [hc], hhi, fun h0 => hlo'.trans (hd.whole h0), ?_, fun c h0 => ⟨h0, hlo'⟩,
      fun c h0 h4 => ?_⟩
    · intro c hcm
      rw [hc] at hcm
      exact Or.inl (by simpa using hcm)
    · rw [h4] at h0
      cases h0

end DropInv

/-- The parent `p` of the dead node `n` is left without a separator, and `r'` is what remains below
it. -/
structure ParentDies (h : Heap β) (G : Ghost) (n : Ptr) (r : Option Ptr) (b e : ℕ) (p : Ptr)
    (ip : Internode) (r' : Option Ptr) : Prop where
  drop : DropInv h G n r b e
  parent : (h.node n).parent = some p
  node : h.node p = .internode ip
  not_root : ip.isRoot = false
  hi : G.hi p = e
  whole : r' = none → G.lo p = b
  only : ∀ c, some c ∈ ip.children → c = n ∨ some c = r'
  keep : ∀ c, r = some c → r' = some c ∧ G.lo p = G.lo n
  rest : ∀ c, r' = some c → r = none → Remainder h G p b c

namespace ParentDies

variable {n b e p : ℕ} {r r' : Option Ptr} {ip : Internode}
  (hd : ParentDies h G n r b e p ip r')

include hd

lemma known : G.Known h p := (hd.drop.tree.up hd.drop.known hd.parent).1

lemma live : G.live p := by
  obtain ⟨q, hq, h1, -⟩ := hd.drop.parent
  rw [hd.parent] at hq
  exact Option.some.inj hq ▸ h1

lemma ne_rest : some p ≠ r := fun h0 => (hd.drop.rest_ne hd.parent h0).1 rfl

/-- A node that is not loose any more was not loose before. -/
lemma not_loose {a : Ptr} (ha : some a ≠ r') : some a ≠ r := fun h0 =>
  ha (hd.keep a h0.symm).1.symm

/-- The remaining child hangs below `n` or below `p`. -/
lemma rest_parent {c : Ptr} (hc : some c = r') (hcr : some c ≠ r) :
    (h.node c).parent = some p := by
  cases r with
  | none => exact (hd.rest c hc.symm rfl).parent
  | some d => exact absurd (hc.trans (hd.keep d rfl).1) hcr

/-- The dying node is not the root of its layer. -/
lemma exists_parent : ∃ q, (h.node p).parent = some q ∧ q ≠ p := by
  have hT := hd.drop.tree
  cases hq : (h.node p).parent with
  | none =>
      have hbit := (hT.root_bit hd.known hd.ne_rest (by rw [hd.node]; trivial)).2 hq id
      rw [hd.node] at hbit
      exact absurd (hbit.symm.trans hd.not_root) (by simp)
  | some q =>
      refine ⟨q, rfl, ?_⟩
      rintro rfl
      exact absurd (hT.up hd.known hq).2.2.1 (lt_irrefl _)

end ParentDies

/-- The heap after `p` has died and adopted `r`. -/
structure ParentKilled (h h' : Heap β) (p : Ptr) (dead : Internode) (r : Option Ptr) : Prop where
  size : h'.size = h.size
  retired : h'.retired = p :: h.retired
  node : ∀ a, h'.node a = if a = p then .internode dead
    else if some a = r then (h.node a).setParent (some p) else h.node a

namespace ParentKilled

variable {h' : Heap β} {n b e p : ℕ} {r r' : Option Ptr} {ip : Internode}
  (hd : ParentDies h G n r b e p ip r')
  (hK : ParentKilled h h' p { ip with keys := [], children := [none], deleted := true } r)

include hK

lemma known_iff {a : Ptr} : (G.kill p).Known h' a ↔ G.Known h a := by
  rw [Ghost.Known, hK.size]
  rfl

lemma children {a : Ptr} (ha : a ≠ p) :
    (h'.internode a).children = (h.internode a).children := by
  rw [Heap.internode, hK.node, if_neg ha]
  split_ifs
  · rw [Node.children_setParent]; rfl
  · rfl

include hd

lemma height (a : Ptr) : (h'.node a).height = (h.node a).height := by
  rw [hK.node]
  split_ifs with h1
  · rw [h1, hd.node]; rfl
  · simp
  · rfl

lemma isLeaf (a : Ptr) : (h'.node a).isLeaf = (h.node a).isLeaf := by
  rw [hK.node]
  split_ifs with h1
  · rw [h1, hd.node]; rfl
  · simp
  · rfl

lemma parent {a : Ptr} (ha : some a ≠ r) : (h'.node a).parent = (h.node a).parent := by
  rw [hK.node, if_neg ha]
  split_ifs with h1
  · rw [h1, hd.node]; rfl
  · rfl

lemma parent_rest {a : Ptr} (ha : some a = r) : (h'.node a).parent = some p := by
  rw [hK.node, if_neg (hd.drop.rest_ne hd.parent ha).1, if_pos ha, Node.parent_setParent]

lemma up {a q : Ptr} (ha : G.Known h a) (hq : (h'.node a).parent = some q) :
    G.Known h q ∧ G.fam q = G.fam a ∧ (h'.node a).height < (h'.node q).height ∧
      (h'.node q).isLeaf = false := by
  have hT := hd.drop.tree
  rw [hK.height hd, hK.height hd, hK.isLeaf hd]
  by_cases har : some a = r
  · rw [hK.parent_rest hd har] at hq
    obtain rfl := Option.some.inj hq
    obtain ⟨h1, h2, h3, h4⟩ := hT.up hd.drop.known hd.parent
    obtain ⟨-, -, g1, g2⟩ := hd.drop.rest_ne hd.parent har
    exact ⟨h1, h2.trans g1.symm, g2.trans h3, h4⟩
  · exact hT.up ha (hK.parent hd har ▸ hq)

lemma top_spec {a : Ptr} (ha : G.Known h a) :
    (G.kill p).live (G.top (G.fam a)) ∧ some (G.top (G.fam a)) ≠ r' ∧
      G.fam (G.top (G.fam a)) = G.fam a ∧ (h'.node (G.top (G.fam a))).parent = none ∧
      G.lo (G.top (G.fam a)) = 0 ∧ G.hi (G.top (G.fam a)) = ikeyLimit := by
  obtain ⟨g1, g2, g3, g4, g5, g6⟩ := hd.drop.tree.top_spec ha
  refine ⟨⟨g1, fun h0 => ?_⟩, fun h0 => ?_, g3, (hK.parent hd g2).trans g4, g5, g6⟩
  · obtain ⟨q, hq, -⟩ := hd.exists_parent
    rw [h0, hq] at g4
    cases g4
  · rw [hd.rest_parent h0 g2] at g4
    cases g4

lemma root_bit {a : Ptr} (ha : G.Known h a) (hl : some a ≠ r') (hst : (h'.node a).startable) :
    ((h'.node a).isRoot = true → (h'.node a).parent = none) ∧
      ((h'.node a).parent = none → (h'.node a).isRoot = true) := by
  have hl' := hd.not_loose hl
  rw [hK.parent hd hl']
  by_cases hap : a = p
  · obtain ⟨q, hq, -⟩ := hd.exists_parent
    rw [hap, hK.node, if_pos rfl, hq]
    exact ⟨fun h0 => by simp [hd.not_root] at h0, fun h0 => by cases h0⟩
  · rw [hK.node, if_neg hap, if_neg hl'] at hst ⊢
    exact (hd.drop.tree.root_bit ha hl' hst).imp_right fun h0 h1 => h0 h1 id

lemma linked {a q : Ptr} (ha : G.live a) (hl : some a ≠ r') (hq : (h'.node a).parent = some q) :
    (G.kill p).live q ∧ some a ∈ (h'.internode q).children := by
  have hl' := hd.not_loose hl
  obtain ⟨g1, g2⟩ := hd.drop.tree.linked ha hl' (hK.parent hd hl' ▸ hq)
  have hqp : q ≠ p := by
    rintro rfl
    rw [Heap.internode_eq hd.node] at g2
    rcases hd.only a g2 with rfl | h0
    · exact hd.drop.dead ha
    · exact hl h0
  exact ⟨⟨g1, hqp⟩, by rw [hK.children hqp]; exact g2⟩

/-- The hole moves from `n` to `p`, which has been its parent. -/
lemma link {a : Ptr} {m' : Internode} (ha : (G.kill p).live a) (hm' : h'.node a = .internode m') :
    LinkInv h' (G.kill p) ((G.kill p).drop p r') a m' := by
  obtain ⟨m, hm, hk, hc⟩ : ∃ m, h.node a = .internode m ∧ m'.keys = m.keys ∧
      m'.children = m.children := by
    rw [hK.node, if_neg ha.2] at hm'
    split_ifs at hm'
    · exact Node.internode_of_setParent hm'
    · exact ⟨m', hm', rfl, rfl⟩
  refine (hd.drop.tree.link ha.1 hm).congr hk hc rfl rfl fun l c u _ hseg => ?_
  obtain ⟨g1, g2, g3, g4, g5, g6⟩ := hseg
  refine ⟨?_, fun h0 => ?_, (hK.parent hd g2).trans g3, g4, g5, g6⟩
  · by_cases hcp : c = p
    · exact Or.inr hcp
    · refine Or.inl ⟨g1.resolve_right fun h0 => ?_, hcp⟩
      obtain rfl : c = n := h0
      rw [hd.parent] at g3
      exact ha.2 (Option.some.inj g3).symm
  · rw [hd.rest_parent h0 g2] at g3
    exact ha.2 (Option.some.inj g3).symm

lemma treeInv : TreeInv h' (G.kill p) ((G.kill p).drop p r') := by
  have hT := hd.drop.tree
  have hknown : ∀ {a}, (G.kill p).Known h' a ↔ G.Known h a := hK.known_iff
  refine ⟨fun ha => hknown.mpr (hT.known ha.1), fun ha => hK.size ▸ hT.gone_lt ha, ?_, ?_,
    fun ha => hK.top_spec hd (hknown.mp ha), ?_, ?_, ?_, fun ha => hT.range ha.1,
    fun ha hl => hK.linked hd ha.1 hl, hK.link hd, ?_, ?_⟩
  · intro a q ha hq
    obtain ⟨h1, h2⟩ := hK.up hd (hknown.mp ha) hq
    exact ⟨hknown.mpr h1, h2⟩
  · intro a ha hl hq
    have hl' := hd.not_loose hl
    exact hT.top_eq (hknown.mp ha) hl' (hK.parent hd hl' ▸ hq)
  · intro a ha
    obtain ⟨g1, g2, g3⟩ := hT.fam_spec (hknown.mp ha)
    refine ⟨⟨g1, fun h0 => ?_⟩, g2, (hK.isLeaf hd _).trans g3⟩
    rw [show G.fam a = p from h0, hd.node] at g3
    cases g3
  · intro a ha
    rw [hK.height hd, hK.size]
    exact hT.height_lt (hK.size ▸ ha)
  · intro a ha hl hst
    exact (hK.root_bit hd (hknown.mp ha) hl hst).imp_right fun h0 h1 _ => h0 h1
  · rintro a ⟨ha, hap⟩
    rw [hK.node, if_neg hap]
    split_ifs
    · rw [Node.deleted_setParent]
      exact hT.not_deleted ha
    · exact hT.not_deleted ha
  · intro a ha
    rw [hK.retired, List.mem_cons] at ha
    rw [hK.size]
    rcases ha with rfl | ha
    · exact ⟨hd.known.1, fun h0 => h0.2 rfl⟩
    · exact ⟨(hT.retired_dead ha).1, fun h0 => (hT.retired_dead ha).2 h0.1⟩

/-- What remains below the dead node now. -/
lemma remainder {c : Ptr} (hc : r' = some c) : Remainder h' (G.kill p) p b c := by
  by_cases hcr : some c = r
  · have hrem := hd.drop.rest c hcr.symm
    have hne := hd.drop.rest_ne hd.parent hcr
    refine ⟨⟨hrem.live, hne.1⟩, hrem.lo.trans (hd.keep c hcr.symm).2.symm, hrem.hi,
      hK.parent_rest hd hcr, ?_⟩
    rw [hK.node, if_neg hne.1, if_pos hcr]
    simpa using hrem.bit
  · have hpc := hd.rest_parent hc.symm hcr
    have hrn : r = none := by
      cases r with
      | none => rfl
      | some d => exact absurd (hc.symm.trans (hd.keep d rfl).1) hcr
    have hrem := hd.rest c hc hrn
    have hcp : c ≠ p := by
      rintro rfl
      exact absurd (hd.drop.tree.up hd.known hpc).2.2.1 (lt_irrefl _)
    refine ⟨⟨hrem.live, hcp⟩, hrem.lo, hrem.hi, (hK.parent hd hcr).trans hpc, ?_⟩
    rw [hK.node, if_neg hcp, if_neg hcr]
    exact hrem.bit

lemma dropInv : DropInv h' (G.kill p) p r' b e where
  tree := hK.treeInv hd
  dead h0 := h0.2 rfl
  known := hK.known_iff.mpr hd.known
  parent := by
    obtain ⟨q, hq, hqp⟩ := hd.exists_parent
    obtain ⟨g1, g2⟩ := hd.drop.tree.linked hd.live hd.ne_rest hq
    exact ⟨q, (hK.parent hd hd.ne_rest).trans hq, ⟨g1, hqp⟩, by rw [hK.children hqp]; exact g2⟩
  leaves := by
    rintro d x ⟨m, hm, hc⟩
    rw [hK.node, if_pos rfl] at hm
    obtain rfl := Node.internode.inj hm
    simpa using Internode.mem_of_child hc
  pos := hd.drop.pos
  lt_end := hd.drop.lt_end
  hi := hd.hi
  whole := hd.whole
  rest c hc := hK.remainder hd hc

end ParentKilled

/-- **A parent that is left without a separator dies, and its last child remains.** -/
lemma DropInv.kill_parent {n b e : ℕ} {r : Option Ptr} (hd : DropInv h G n r b e) {p : Ptr}
    {ip dead : Internode} (hp : (h.node n).parent = some p) (hip : h.node p = .internode ip)
    (hsize : (ip.replaceChild (upper b ip.keys) r).keys = []) (hroot : ip.isRoot = false)
    {r' : Option Ptr} (hr' : (ip.replaceChild (upper b ip.keys) r).children = [r'])
    (hdead : dead = { ip with keys := [], children := [none], deleted := true })
    {h' : Heap β} (hK : ParentKilled h h' p dead r) : DropInv h' (G.kill p) p r' b e := by
  obtain ⟨r'', hr'', hhi, hwhole, honly, hkeep, hrest⟩ := hd.nonfinal_shape hp hip hsize
  obtain rfl : r' = r'' := by simpa [hr'] using hr''
  subst hdead
  exact hK.dropInv ⟨hd, hp, hip, hroot, hhi, hwhole, honly, hkeep, hrest⟩

end MasstreeLHM
