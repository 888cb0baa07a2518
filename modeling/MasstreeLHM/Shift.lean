import MasstreeLHM.Unhook

/-!
# Moving the boundary

The last step of the loop of `remove_leaf`: a node survives the loss of its child, and the range
`[b, e)` of the removed leaf goes over to the left neighbour.  With the separators changed by
`redirect`, every boundary at `b` of the layer is now at `e`.

What happens to the links of the surviving node is `Spliced`, in three forms: the child in front of
the dead leaf takes its range (`splice_drop`), a dead first child leaves a null child and an empty
range (`splice_null`), and the last child of a dead internode takes its place (`splice_swap`).
`Ghost.shift` moves the boundary in all ranges, and **`shift_tree`** is the tree invariant behind
it.  `mapKeys_below` and `mapKeys_above` say that no separator but those on the path is `b`.

**`unhook_spec`** is the whole loop, by induction on its fuel: `kill_step` while parents die, and
`unhook_final` at the end.  `Pruned` records which internodes it has taken out.
-/

namespace MasstreeLHM

open Separators

variable {β : Type} {h : Heap β} {G : Ghost}

lemma moveTo_le {b e x : ℕ} (hbe : b < e) : x ≤ moveTo b e x := by
  rw [moveTo]
  split_ifs <;> omega

lemma moveTo_left (b e : ℕ) : moveTo b e b = e := if_pos rfl

lemma moveTo_of_ne {b e x : ℕ} (hx : x ≠ b) : moveTo b e x = x := if_neg hx

/-- Every boundary of layer `f` at `b` is moved to `e`. -/
def Ghost.shift (G : Ghost) (f : Ptr) (b e : ℕ) : Ghost :=
  { G with lo := fun a => if G.fam a = f then moveTo b e (G.lo a) else G.lo a
           hi := fun a => if G.fam a = f then moveTo b e (G.hi a) else G.hi a }

/-- The links of the surviving node `p` as `ip'`, compared with those before, as `ip`: the dead
child `n` is gone or replaced by `r`, and up to the moved boundary the ranges are the same. -/
structure Spliced (G : Ghost) (p : Ptr) (ip ip' : Internode) (n : Ptr) (r : Option Ptr)
    (b e : ℕ) : Prop where
  length : ip'.children.length = ip'.keys.length + 1
  tail : ∀ c ∈ ip'.children.tail, c ≠ none
  head : ip'.child 0 = none → ip'.keys ≠ [] ∧ 0 < G.lo p
  notMem : b ∉ ip'.keys
  kept : ∀ c, some c ∈ ip.children → c ≠ n → some c ∈ ip'.children
  new : ∀ c, r = some c → some c ∈ ip'.children
  segs : ∀ s ∈ segs (G.lo p) ip'.keys ip'.children (G.hi p),
    (∃ s₀ ∈ Separators.segs (G.lo p) ip.keys ip.children (G.hi p), s₀.2.1 = s.2.1 ∧
      s.2.1 ≠ some n ∧ moveTo b e s₀.1 = moveTo b e s.1 ∧ moveTo b e s₀.2.2 = moveTo b e s.2.2) ∨
    (s.2.1 = none ∧ moveTo b e s.1 = moveTo b e s.2.2) ∨
    ∃ c, r = some c ∧ s = (G.lo c, some c, e)

namespace DropInv

variable {n b e : ℕ} {r : Option Ptr} {p : Ptr} {ip : Internode}

/-- The child in front of the dead leaf takes its range, and the separator goes away. -/
lemma splice_drop (hd : DropInv h G n none b e) {k₁ k₂ : List ℕ} {c₁ c₂ : List (Option Ptr)}
    (hlink : LinkInv h G (G.drop n none) p ip) (hk : ip.keys = k₁ ++ k₂)
    (hc : ip.children = c₁ ++ some n :: c₂) (hl : c₁.length = k₁.length)
    (hlo : downTo (G.lo p) k₁ = b) (hup : upTo (G.hi p) k₂ = e) (hpos : k₁ ≠ [])
    (hfin : G.lo p = b → e < G.hi p) :
    Spliced G p ip { ip with keys := ip.keys.eraseIdx (k₁.length - 1)
                             children := ip.children.eraseIdx k₁.length } n none b e := by
  have hbe := hd.lt_end
  obtain ⟨k, rfl⟩ : ∃ k, k₁ = k ++ [b] := (exists_concat_of_downTo hlo).resolve_left
    fun h0 => hpos h0.1
  obtain ⟨c, d, rfl⟩ : ∃ c d, c₁ = c ++ [d] := by
    rcases List.eq_nil_or_concat c₁ with rfl | ⟨c, d, rfl⟩
    · simp at hl
    · exact ⟨c, d, List.concat_eq_append⟩
  have hl' : c.length = k.length := by simpa using hl
  have hkeys : ip.keys.eraseIdx ((k ++ [b]).length - 1) = k ++ k₂ := by
    rw [hk, List.append_assoc, List.length_append, List.length_singleton, Nat.add_sub_cancel,
      List.eraseIdx_append_of_length_le le_rfl]
    simp
  have hchildren : ip.children.eraseIdx (k ++ [b]).length = c ++ d :: c₂ := by
    rw [hc, ← hl, List.eraseIdx_append_of_length_le le_rfl]
    simp
  have hlen : c₂.length = k₂.length := by
    have := hlink.length
    rw [hk, hc] at this
    simp at this
    omega
  have hold : Separators.segs (G.lo p) ip.keys ip.children (G.hi p) = before (G.lo p) k c ++
      (downTo (G.lo p) k, d, b) :: (b, some n, e) :: after (G.hi p) k₂ c₂ := by
    have := segs_insert (G.lo p) (G.hi p) b k k₂ c c₂ d (some n) hl'
    rw [hup] at this
    rw [hk, hc, List.append_assoc, List.append_assoc]
    exact this
  have hsorted := hlink.sorted
  have hnot : some n ∉ c ++ [d] ∧ some n ∉ c₂ := hlink.child_notMem hc
  rw [hkeys, hchildren]
  constructor
  · simp [hl', hlen]
    omega
  · intro x hx
    refine hlink.tail x ?_
    rw [hc]
    cases c with
    | nil => simpa using Or.inr hx
    | cons y ys =>
        simp only [List.cons_append, List.tail_cons, List.mem_append, List.mem_cons] at hx ⊢
        tauto
  · intro h0
    have h0 : ip.child 0 = none := by
      rw [Internode.child] at h0 ⊢
      rw [hc]
      cases c <;> simpa using h0
    refine ⟨?_, (hlink.head h0).2⟩
    rintro hnil
    obtain ⟨rfl, rfl⟩ : k = [] ∧ k₂ = [] := by simpa using hnil
    obtain rfl : c = [] := List.length_eq_zero_iff.mp hl'
    obtain rfl : d = none := by simpa [Internode.child, hc] using h0
    have : G.lo p = b := hlink.segs (G.lo p, none, b) (by rw [hold]; simp)
    have := hfin this
    simp [upTo] at hup
    omega
  · have hs := hsorted.1
    rw [hk, List.append_assoc, List.pairwise_append, List.singleton_append,
      List.pairwise_cons] at hs
    intro h0
    rcases List.mem_append.mp h0 with h0 | h0
    · exact absurd (hs.2.2 b h0 b (by simp)) (lt_irrefl _)
    · exact absurd (hs.2.1.1 b h0) (lt_irrefl _)
  · intro x hx hxn
    rw [hc] at hx
    simp only [List.mem_append, List.mem_cons, List.not_mem_nil, or_false,
      Option.some.injEq] at hx ⊢
    tauto
  · rintro x ⟨⟩
  · intro s hs
    left
    rw [hold]
    rw [segs_around _ _ _ _ _ _ _ hl', hup] at hs
    rcases List.mem_append.mp hs with hs | hs
    · refine ⟨s, List.mem_append_left _ hs, rfl, ?_, rfl, rfl⟩
      intro h0
      exact hnot.1 (List.mem_append_left _ (h0 ▸ (mem_of_mem_before hs)))
    · rcases List.mem_cons.mp hs with rfl | hs
      · refine ⟨_, List.mem_append_right _ List.mem_cons_self, rfl, ?_, rfl, ?_⟩
        · intro h0
          have h0 : d = some n := h0
          exact hnot.1 (by simp [h0])
        · rw [moveTo_left, moveTo_of_ne hbe.ne']
      · refine ⟨s, List.mem_append_right _ (List.mem_cons_of_mem _ (List.mem_cons_of_mem _ hs)),
          rfl, ?_, rfl, rfl⟩
        intro h0
        exact hnot.2 (h0 ▸ (mem_of_mem_after hs))

/-- A dead first leaf leaves a null child and an empty range behind. -/
lemma splice_null (hd : DropInv h G n none b e) {c₂ : List (Option Ptr)}
    (hlink : LinkInv h G (G.drop n none) p ip) (hc : ip.children = some n :: c₂)
    (hlo : G.lo p = b) (hup : upTo (G.hi p) ip.keys = e) (hfin : e < G.hi p) :
    Spliced G p ip { ip with children := ip.children.set 0 none } n none b e := by
  have hbe := hd.lt_end
  have hold : Separators.segs (G.lo p) ip.keys ip.children (G.hi p)
      = (b, some n, e) :: after (G.hi p) ip.keys c₂ := by
    rw [hc, segs_eq_cons, hlo, hup]
  have hnot : some n ∉ c₂ := (hlink.child_notMem (show ip.children = [] ++ some n :: c₂ from hc)).2
  constructor
  · simpa using hlink.length
  · have := hlink.tail
    rw [hc] at this ⊢
    exact this
  · intro _
    refine ⟨fun h0 => ?_, hlo ▸ hd.pos⟩
    simp only at h0
    rw [h0] at hup
    simp [upTo] at hup
    omega
  · intro h0
    have hs := hlink.sorted
    obtain ⟨-, g2, -, -⟩ := @cut_bounds (G.lo p) (G.hi p) [] ip.keys hs.1 hs.2
    have := g2 b h0
    rw [hup] at this
    omega
  · intro x hx hxn
    rw [hc] at hx ⊢
    simp only [List.mem_cons, Option.some.injEq, List.set_cons_zero] at hx ⊢
    tauto
  · rintro x ⟨⟩
  · intro s hs
    rw [hold]
    simp only [hc, List.set_cons_zero] at hs
    rw [segs_eq_cons, hlo, hup] at hs
    rcases List.mem_cons.mp hs with rfl | hs
    · exact Or.inr (Or.inl ⟨rfl, by rw [moveTo_left, moveTo_of_ne hbe.ne']⟩)
    · refine Or.inl ⟨s, List.mem_cons_of_mem _ hs, rfl, ?_, rfl, rfl⟩
      intro h0
      exact hnot (h0 ▸ mem_of_mem_after hs)

/-- The last child of a dead internode takes its place. -/
lemma splice_swap {c : Ptr} (hd : DropInv h G n (some c) b e) {k₁ k₂ : List ℕ}
    {c₁ c₂ : List (Option Ptr)} (hlink : LinkInv h G (G.drop n (some c)) p ip)
    (hk : ip.keys = k₁ ++ k₂) (hc : ip.children = c₁ ++ some n :: c₂) (hl : c₁.length = k₁.length)
    (hlo : downTo (G.lo p) k₁ = G.lo n) (hup : upTo (G.hi p) k₂ = e) :
    Spliced G p ip { ip with children := ip.children.set k₁.length (some c) } n (some c) b e := by
  have hbe := hd.lt_end
  have hrem := hd.rest c rfl
  have hb : G.lo n < b := by
    have := (hd.tree.range hrem.live).1
    rwa [hrem.lo, hrem.hi] at this
  have hchildren : ip.children.set k₁.length (some c) = c₁ ++ some c :: c₂ := by
    rw [hc, ← hl]
    simp
  have hold : Separators.segs (G.lo p) ip.keys ip.children (G.hi p)
      = before (G.lo p) k₁ c₁ ++ (G.lo n, some n, e) :: after (G.hi p) k₂ c₂ := by
    rw [hk, hc, segs_around _ _ _ _ _ _ _ hl, hlo, hup]
  have hnot := hlink.child_notMem hc
  rw [hchildren]
  constructor
  · have := hlink.length
    rw [hc] at this
    simpa using this
  · have := hlink.tail
    rw [hc] at this
    cases c₁ with
    | nil => exact this
    | cons y ys =>
        intro x hx
        simp only [List.cons_append, List.tail_cons, List.mem_append, List.mem_cons] at hx this
        rcases hx with hx | rfl | hx
        · exact this x (Or.inl hx)
        · simp
        · exact this x (Or.inr (Or.inr hx))
  · intro h0
    refine hlink.head ?_
    rw [Internode.child] at h0 ⊢
    rw [hc]
    cases c₁ with
    | nil => simp at h0
    | cons y ys => simpa using h0
  · intro h0
    have h0 : b ∈ ip.keys := h0
    have hs := hlink.sorted
    rw [hk] at hs h0
    obtain ⟨g1, g2, -, -⟩ := cut_bounds hs.1 hs.2
    rcases List.mem_append.mp h0 with h0 | h0
    · have := g1 b h0
      omega
    · have := g2 b h0
      omega
  · intro x hx hxn
    rw [hc] at hx
    simp only [List.mem_append, List.mem_cons, Option.some.injEq] at hx ⊢
    tauto
  · rintro x ⟨⟩
    simp
  · intro s hs
    rw [hold]
    simp only at hs
    rw [hk, segs_around _ _ _ _ _ _ _ hl, hlo, hup] at hs
    rcases List.mem_append.mp hs with hs | hs
    · refine Or.inl ⟨s, List.mem_append_left _ hs, rfl, ?_, rfl, rfl⟩
      intro h0
      exact hnot.1 (h0 ▸ mem_of_mem_before hs)
    · rcases List.mem_cons.mp hs with rfl | hs
      · exact Or.inr (Or.inr ⟨c, rfl, by rw [hrem.lo]⟩)
      · refine Or.inl ⟨s, List.mem_append_right _ (List.mem_cons_of_mem _ hs), rfl, ?_, rfl, rfl⟩
        intro h0
        exact hnot.2 (h0 ▸ mem_of_mem_after hs)

/-- **`remove_leaf` at the surviving parent.** -/
lemma splice (hd : DropInv h G n r b e) (hp : (h.node n).parent = some p)
    (hip : h.node p = .internode ip) (hfin : G.lo p = b → e < G.hi p) :
    Spliced G p ip (ip.replaceChild (upper b ip.keys) r) n r b e := by
  obtain ⟨p', ip', k₁, k₂, c₁, c₂, hp', hip', -, -, -, -, hlink, hk, hc, hl, hlo, hup, hupper, -⟩ :=
    hd.parent_cut
  obtain rfl : p = p' := by simpa [hp] using hp'
  obtain rfl : ip = ip' := by simpa [hip] using hip'
  rw [hupper, Internode.replaceChild]
  cases r with
  | none =>
      rw [hd.whole rfl] at hlo
      split_ifs with h0
      · exact hd.splice_drop hlink hk hc hl hlo hup (List.length_pos_iff.mp h0.2) hfin
      · obtain rfl : k₁ = [] := by simpa using h0
        obtain rfl : c₁ = [] := List.length_eq_zero_iff.mp hl
        have hlo : G.lo p = b := by simpa using hlo
        exact hd.splice_null hlink hc hlo (by rw [hk]; exact hup) (hfin hlo)
  | some c =>
      rw [if_neg (by simp)]
      exact hd.splice_swap hlink hk hc hl hlo hup

end DropInv

/-! ## The tree with the moved boundary -/

lemma Node.mapKeys_like (f : ℕ → ℕ) (n : Node β) : n.Like (n.mapKeys f) := by
  cases n with
  | leaf l => exact .refl _
  | internode i => exact .internode rfl rfl rfl

@[simp] lemma Node.parent_mapKeys (f : ℕ → ℕ) (n : Node β) : (n.mapKeys f).parent = n.parent := by
  cases n <;> rfl

@[simp] lemma Node.isRoot_mapKeys (f : ℕ → ℕ) (n : Node β) : (n.mapKeys f).isRoot = n.isRoot := by
  cases n <;> rfl

@[simp] lemma Node.children_mapKeys (f : ℕ → ℕ) (n : Node β) :
    (n.mapKeys f).toInternode.children = n.toInternode.children := by
  cases n <;> rfl

lemma Node.internode_of_mapKeys {f : ℕ → ℕ} {n : Node β} {m' : Internode}
    (h : n.mapKeys f = .internode m') :
    ∃ m, n = .internode m ∧ m'.keys = m.keys.map f ∧ m'.children = m.children := by
  cases n with
  | leaf l => simp [Node.mapKeys] at h
  | internode m =>
      obtain rfl : _ = m' := by simpa [Node.mapKeys] using h
      exact ⟨m, rfl, rfl, rfl⟩

lemma Internode.replaceChild_fields (ip : Internode) (k : ℕ) (r : Option Ptr) :
    (ip.replaceChild k r).parent = ip.parent ∧ (ip.replaceChild k r).height = ip.height ∧
      (ip.replaceChild k r).isRoot = ip.isRoot ∧ (ip.replaceChild k r).deleted = ip.deleted ∧
      (ip.replaceChild k r).directoryMeta = ip.directoryMeta := by
  rw [Internode.replaceChild]
  split_ifs <;> exact ⟨rfl, rfl, rfl, rfl, rfl⟩

/-- The heap after the dead node `n` has been unhooked from `p`. -/
structure Dropped (h h' : Heap β) (G : Ghost) (n : Ptr) (r : Option Ptr) (b e : ℕ) (p : Ptr)
    (ip' : Internode) : Prop where
  size : h'.size = h.size
  retired : h'.retired = h.retired
  here : h'.node p = .internode ip'
  remainder : ∀ a, some a = r → h'.node a = (h.node a).setParent (some p)
  layer : ∀ a, a ≠ p → some a ≠ r → G.live a → G.fam a = G.fam n →
    h'.node a = (h.node a).mapKeys (moveTo b e)
  others : ∀ a, a ≠ p → some a ≠ r → ¬ (G.live a ∧ G.fam a = G.fam n) → h'.node a = h.node a

namespace DropInv

variable {n b e : ℕ} {r : Option Ptr} {p : Ptr} {ip : Internode}

/-- Only nodes above the parent of the dead node can have the separator `b`. -/
lemma mapKeys_below (hd : DropInv h G n r b e) (hp : (h.node n).parent = some p) {a : Ptr}
    (ha : G.live a) (hfam : G.fam a = G.fam n) (hap : a ≠ p)
    (hh : (h.node a).height ≤ (h.node p).height) : (h.node a).mapKeys (moveTo b e) = h.node a := by
  refine Node.mapKeys_of_notMem fun i hi => Or.inl fun hb => ?_
  obtain ⟨h1, h2⟩ := (hd.tree.link ha hi).sorted.2 b hb
  rcases (hd.on_path hp ha hfam h1 h2).2.2 with h3 | h3
  · exact hap h3
  · omega

/-- And those have it only if the parent starts at `b`. -/
lemma mapKeys_above (hd : DropInv h G n r b e) (hp : (h.node n).parent = some p)
    (hlo : G.lo p ≠ b) {a : Ptr} (ha : G.live a) (hfam : G.fam a = G.fam n)
    (hh : (h.node p).height < (h.node a).height) :
    (h.node a).mapKeys (moveTo b e) = h.node a := by
  obtain ⟨p', -, -, -, -, -, hp', -, hlive, -, hfamp, -, -, -, -, -, -, -, -, h1, h2, h3⟩ :=
    hd.parent_cut
  obtain rfl : p = p' := by simpa [hp] using hp'
  have hbe := hd.lt_end
  refine Node.mapKeys_of_notMem fun i hi => Or.inl fun hb => hlo ?_
  exact hd.lo_of_key_above ha hi hlive hfam hfamp (by omega) (by omega) hh hb

/-- The moved boundaries of a live node of the layer. -/
lemma shift_range (hd : DropInv h G n r b e) (hp : (h.node n).parent = some p)
    (hfin : G.lo p = b → e < G.hi p) {a : Ptr} (ha : G.live a) (hfam : G.fam a = G.fam n) :
    moveTo b e (G.lo a) < moveTo b e (G.hi a) ∧ moveTo b e (G.hi a) ≤ ikeyLimit := by
  obtain ⟨p', -, -, -, -, -, hp', -, hlive, -, -, -, -, -, -, -, -, -, -, h1, h2, h3⟩ :=
    hd.parent_cut
  obtain rfl : p = p' := by simpa [hp] using hp'
  have hbe := hd.lt_end
  obtain ⟨g1, g2⟩ := hd.tree.range ha
  have g3 := (hd.tree.range hlive).2
  by_cases hlo : G.lo a = b
  · -- a node that starts at `b` lies above the parent, which then starts there too
    obtain ⟨g4, g5, -⟩ := hd.on_path hp ha hfam hlo.le (hlo ▸ g1)
    have := hfin (by omega)
    rw [hlo, moveTo_left, moveTo_of_ne (by omega)]
    omega
  · rw [moveTo_of_ne hlo]
    by_cases hhi : G.hi a = b
    · rw [hhi, moveTo_left]
      omega
    · rw [moveTo_of_ne hhi]
      exact ⟨g1, g2⟩

/-- The ghost of a node of the layer after the move. -/
lemma shift_lo_hi (a : Ptr) (hfam : G.fam a = G.fam n) :
    (G.shift (G.fam n) b e).lo a = moveTo b e (G.lo a) ∧
      (G.shift (G.fam n) b e).hi a = moveTo b e (G.hi a) :=
  ⟨if_pos hfam, if_pos hfam⟩

lemma shift_lo_hi_of_ne (a : Ptr) (hfam : G.fam a ≠ G.fam n) :
    (G.shift (G.fam n) b e).lo a = G.lo a ∧ (G.shift (G.fam n) b e).hi a = G.hi a :=
  ⟨if_neg hfam, if_neg hfam⟩

section

variable {h' : Heap β} {ip' : Internode}

/-- Unhooking changes links only. -/
lemma dropped_like (hd : DropInv h G n r b e) (hp : (h.node n).parent = some p)
    (hip : h.node p = .internode ip)
    (hip' : ip' = ip.replaceChild (upper b ip.keys) r) (hD : Dropped h h' G n r b e p ip')
    (a : Ptr) :
    (h.node a).Like (h'.node a) ∧ (h'.node a).isRoot = (h.node a).isRoot ∧
      (h'.node a).parent = (if some a = r then some p else (h.node a).parent) ∧
      (a ≠ p → (h'.internode a).children = (h.internode a).children) := by
  by_cases hap : a = p
  · have hpr : some a ≠ r := fun h0 => (hd.rest_ne hp h0).1 hap
    obtain ⟨f1, f2, f3, f4, f5⟩ := Internode.replaceChild_fields ip (upper b ip.keys) r
    rw [if_neg hpr, hap, hD.here, hip, hip']
    exact ⟨.internode f2 f4 f5, f3, f1, fun h0 => absurd rfl h0⟩
  by_cases har : some a = r
  · rw [if_pos har, Heap.internode, hD.remainder a har]
    exact ⟨.setParent _ _, by simp, by simp, fun _ => by simp [Heap.internode]⟩
  rw [if_neg har]
  by_cases hl : G.live a ∧ G.fam a = G.fam n
  · rw [Heap.internode, hD.layer a hap har hl.1 hl.2]
    exact ⟨Node.mapKeys_like _ _, by simp, by simp, fun _ => by simp [Heap.internode]⟩
  · rw [Heap.internode, hD.others a hap har hl]
    exact ⟨.refl _, rfl, rfl, fun _ => rfl⟩

/-- A link between two nodes other than the dead one, after the move. -/
lemma shift_segOk (hd : DropInv h G n r b e) (hp : (h.node n).parent = some p)
    (hip : h.node p = .internode ip) (hfin : G.lo p = b → e < G.hi p)
    (hip' : ip' = ip.replaceChild (upper b ip.keys) r)
    (hD : Dropped h h' G n r b e p ip') {a c : Ptr} {l u : ℕ} (hfa : G.fam a = G.fam n)
    (hcn : c ≠ n) (hseg : SegOk h G (G.drop n r) a (l, some c, u)) :
    SegOk h' (G.shift (G.fam n) b e) (G.shift (G.fam n) b e).exact a
      (moveTo b e l, some c, moveTo b e u) := by
  obtain ⟨g1, g2, g3, g4, g5, g6⟩ := hseg
  have hcl : G.live c := g1.resolve_right hcn
  have hfc : G.fam c = G.fam n := (hd.tree.up (hd.tree.known hcl) g3).2.1.symm.trans hfa
  obtain ⟨f1, f2⟩ := shift_lo_hi (b := b) (e := e) c hfc
  obtain ⟨-, -, hpar, -⟩ := hd.dropped_like hp hip hip' hD c
  have g5 : G.hi c = u := g5
  rw [if_neg (show some c ≠ r from g2)] at hpar
  refine ⟨Or.inl hcl, id, hpar.trans g3, f1.trans (by rw [g4]), f2.trans (by rw [g5]), ?_⟩
  have := (hd.shift_range hp hfin hcl hfc).1
  rwa [g4, g5] at this

/-- The links of the surviving parent. -/
lemma shift_link_parent (hd : DropInv h G n r b e) (hp : (h.node n).parent = some p)
    (hip : h.node p = .internode ip) (hfin : G.lo p = b → e < G.hi p)
    (hip' : ip' = ip.replaceChild (upper b ip.keys) r)
    (hD : Dropped h h' G n r b e p ip') :
    LinkInv h' (G.shift (G.fam n) b e) (G.shift (G.fam n) b e).exact p ip' := by
  obtain ⟨p', ip'', -, -, -, -, hp', hip'', hlive, -, hfam, -, hlink, -⟩ := hd.parent_cut
  obtain rfl : p = p' := by simpa [hp] using hp'
  obtain rfl : ip = ip'' := by simpa [hip] using hip''
  have hs := hd.splice hp hip hfin
  rw [← hip'] at hs
  obtain ⟨f1, f2⟩ := shift_lo_hi (b := b) (e := e) p hfam
  refine ⟨hs.length, hs.tail, ?_, ?_⟩
  · intro h0
    obtain ⟨h1, h2⟩ := hs.head h0
    exact ⟨h1, by rw [f1]; exact h2.trans_le (moveTo_le hd.lt_end)⟩
  · rw [f1, f2, ← map_moveTo_of_notMem (v := e) hs.notMem, segs_map]
    intro s hsm
    obtain ⟨⟨l, c, u⟩, hm, rfl⟩ := List.mem_map.mp hsm
    rcases hs.segs _ hm with ⟨⟨l₀, c₀, u₀⟩, hm₀, rfl, hcn, hl, hu⟩ | ⟨rfl, hlu⟩ | ⟨c, rfl, heq⟩
    · simp only at hl hu hcn ⊢
      rw [← hl, ← hu]
      have hseg := hlink.segs _ hm₀
      cases c₀ with
      | none =>
          have : l₀ = u₀ := hseg
          rw [this]
          exact rfl
      | some c =>
          exact hd.shift_segOk hp hip hfin hip' hD hfam (fun h0 => hcn (by rw [h0])) hseg
    · exact hlu
    · obtain ⟨rfl, rfl, rfl⟩ : l = G.lo c ∧ _ = some c ∧ u = e := by simpa using heq
      have hrem := hd.rest c rfl
      have hfc := (hd.rest_ne hp (c := c) rfl).2.2.1
      obtain ⟨f3, f4⟩ := shift_lo_hi (b := b) (e := u) c hfc
      obtain ⟨-, -, hpar, -⟩ := hd.dropped_like hp hip hip' hD c
      rw [if_pos rfl] at hpar
      have hrange := (hd.shift_range hp hfin hrem.live hfc).1
      rw [hrem.hi, moveTo_left] at hrange
      rw [hrem.hi, moveTo_left] at f4
      rw [moveTo_of_ne hd.lt_end.ne']
      exact ⟨Or.inl hrem.live, id, hpar, f3, f4, hrange⟩

/-- The links of any other live internode. -/
lemma shift_link (hd : DropInv h G n r b e) (hp : (h.node n).parent = some p)
    (hip : h.node p = .internode ip) (hfin : G.lo p = b → e < G.hi p)
    (hip' : ip' = ip.replaceChild (upper b ip.keys) r)
    (hD : Dropped h h' G n r b e p ip') {a : Ptr} {m' : Internode} (ha : G.live a) (hap : a ≠ p)
    (hm' : h'.node a = .internode m') :
    LinkInv h' (G.shift (G.fam n) b e) (G.shift (G.fam n) b e).exact a m' := by
  have hnp : ∀ c, (h.node c).parent = some a → c ≠ n := by
    rintro c hc rfl
    rw [hp] at hc
    exact hap (Option.some.inj hc).symm
  by_cases hfam : G.fam a = G.fam n
  · obtain ⟨m, hm, hk, hc⟩ : ∃ m, h.node a = .internode m ∧
        m'.keys = m.keys.map (moveTo b e) ∧ m'.children = m.children := by
      by_cases har : some a = r
      · have hlow := (hd.rest_ne hp har).2.2.2.trans (hd.tree.up hd.known hp).2.2.1
        rw [hD.remainder a har, ← hd.mapKeys_below hp ha hfam hap hlow.le] at hm'
        obtain ⟨m₁, h1, h2, h3⟩ := Node.internode_of_setParent hm'
        obtain ⟨m, h4, h5, h6⟩ := Node.internode_of_mapKeys h1
        exact ⟨m, h4, h2.trans h5, h3.trans h6⟩
      · rw [hD.layer a hap har ha hfam] at hm'
        exact Node.internode_of_mapKeys hm'
    have hlink := hd.tree.link ha hm
    obtain ⟨f1, f2⟩ := shift_lo_hi (b := b) (e := e) a hfam
    refine ⟨?_, by rw [hc]; exact hlink.tail, ?_, ?_⟩
    · rw [hk, hc, List.length_map]
      exact hlink.length
    · rw [hk, Internode.child, hc, f1]
      intro h0
      obtain ⟨h1, h2⟩ := hlink.head h0
      exact ⟨by simpa using h1, h2.trans_le (moveTo_le hd.lt_end)⟩
    · rw [hk, hc, f1, f2, segs_map]
      intro s hs
      obtain ⟨⟨l, c, u⟩, hms, rfl⟩ := List.mem_map.mp hs
      have hseg := hlink.segs _ hms
      cases c with
      | none =>
          have : l = u := hseg
          rw [this]
          exact rfl
      | some c => exact hd.shift_segOk hp hip hfin hip' hD hfam (hnp c hseg.2.2.1) hseg
  · have har : some a ≠ r := fun h0 => hfam (hd.rest_ne hp h0).2.2.1
    rw [hD.others a hap har fun h0 => hfam h0.2] at hm'
    have hlink := hd.tree.link ha hm'
    obtain ⟨f1, f2⟩ := shift_lo_hi_of_ne (b := b) (e := e) a hfam
    refine ⟨hlink.length, hlink.tail, by rw [f1]; exact hlink.head, ?_⟩
    rw [f1, f2]
    rintro ⟨l, c, u⟩ hs
    have hseg := hlink.segs _ hs
    cases c with
    | none => exact hseg
    | some c =>
        obtain ⟨g1, g2, g3, g4, g5, g6⟩ := hseg
        have hcl : G.live c := g1.resolve_right (hnp c g3)
        have hfc : G.fam c ≠ G.fam n := by
          rw [← (hd.tree.up (hd.tree.known hcl) g3).2.1]
          exact hfam
        obtain ⟨f3, f4⟩ := shift_lo_hi_of_ne (b := b) (e := e) c hfc
        obtain ⟨-, -, hpar, -⟩ := hd.dropped_like hp hip hip' hD c
        rw [if_neg (show some c ≠ r from g2)] at hpar
        exact ⟨Or.inl hcl, id, hpar.trans g3, f3.trans g4, f4.trans g5, g6⟩

/-- **The tree after the last step of `remove_leaf`.** -/
lemma shift_tree (hd : DropInv h G n r b e) (hp : (h.node n).parent = some p)
    (hip : h.node p = .internode ip) (hfin : G.lo p = b → e < G.hi p)
    (hip' : ip' = ip.replaceChild (upper b ip.keys) r)
    (hD : Dropped h h' G n r b e p ip') :
    TreeInv h' (G.shift (G.fam n) b e) (G.shift (G.fam n) b e).exact := by
  have hT := hd.tree
  have hlike := hd.dropped_like hp hip hip' hD
  obtain ⟨p', ip'', -, -, -, -, hp', hip'', hlive, -, hfam, -, -, -, -, -, -, -, -, h1, h2, h3⟩ :=
    hd.parent_cut
  obtain rfl : p = p' := by simpa [hp] using hp'
  obtain rfl : ip = ip'' := by simpa [hip] using hip''
  have hs := hd.splice hp hip hfin
  rw [← hip'] at hs
  have hbe := hd.lt_end
  have hparent : ∀ a, some a ≠ r → (h'.node a).parent = (h.node a).parent := by
    intro a ha
    rw [(hlike a).2.2.1, if_neg ha]
  have hparent_r : ∀ a, some a = r → (h'.node a).parent = some p := by
    intro a ha
    rw [(hlike a).2.2.1, if_pos ha]
  have hknown : ∀ {a}, (G.shift (G.fam n) b e).Known h' a ↔ G.Known h a := by
    intro a
    rw [Ghost.Known, hD.size]
    rfl
  constructor
  · exact fun ha => hknown.mpr (hT.known ha)
  · exact fun ha => hD.size ▸ hT.gone_lt ha
  · intro a q ha hq
    rw [hknown] at ha ⊢
    rw [(hlike a).1.height, (hlike q).1.height, (hlike q).1.isLeaf]
    by_cases har : some a = r
    · obtain rfl : p = q := by simpa [hparent_r a har] using hq
      obtain ⟨-, -, g1, g2⟩ := hd.rest_ne hp har
      exact ⟨hT.known hlive, hfam.trans g1.symm, g2.trans (hT.up hd.known hp).2.2.1,
        by rw [hip]; rfl⟩
    · exact hT.up ha (hparent a har ▸ hq)
  · intro a ha _ hq
    by_cases har : some a = r
    · rw [hparent_r a har] at hq
      cases hq
    · exact hT.top_eq (hknown.mp ha) har (hparent a har ▸ hq)
  · intro a ha
    obtain ⟨g1, g2, g3, g4, g5, g6⟩ := hT.top_spec (hknown.mp ha)
    have hlim := (hT.range hlive).2
    have hpos := hd.pos
    refine ⟨g1, id, g3, (hparent _ g2).trans g4, ?_, ?_⟩
    · change (if _ then moveTo b e (G.lo (G.top (G.fam a))) else G.lo (G.top (G.fam a))) = 0
      rw [g5, moveTo_of_ne (by omega), ite_self]
    · change (if _ then moveTo b e (G.hi (G.top (G.fam a))) else G.hi (G.top (G.fam a))) = _
      have g6 : G.hi (G.top (G.fam a)) = ikeyLimit := g6
      rw [g6, moveTo_of_ne (by omega), ite_self]
  · intro a ha
    obtain ⟨g1, g2, g3⟩ := hT.fam_spec (hknown.mp ha)
    exact ⟨g1, g2, (hlike _).1.isLeaf.trans g3⟩
  · intro a ha
    rw [(hlike a).1.height, hD.size]
    exact hT.height_lt (hD.size ▸ ha)
  · intro a ha _ hst
    rw [(hlike a).2.1]
    by_cases har : some a = r
    · rw [hparent_r a har, (hd.rest a har.symm).bit ((hlike a).1.startable.mp hst)]
      simp
    · rw [hparent a har]
      exact hT.root_bit (hknown.mp ha) har ((hlike a).1.startable.mp hst)
  · intro a ha
    by_cases hfa : G.fam a = G.fam n
    · obtain ⟨f1, f2⟩ := shift_lo_hi (b := b) (e := e) a hfa
      rw [f1, f2]
      exact hd.shift_range hp hfin ha hfa
    · obtain ⟨f1, f2⟩ := shift_lo_hi_of_ne (b := b) (e := e) a hfa
      rw [f1, f2]
      exact hT.range ha
  · intro a q ha _ hq
    by_cases har : some a = r
    · obtain rfl : p = q := by simpa [hparent_r a har] using hq
      exact ⟨hlive, by rw [Heap.internode_eq hD.here]; exact hs.new a har.symm⟩
    · obtain ⟨g1, g2⟩ := hT.linked ha har (hparent a har ▸ hq)
      refine ⟨g1, ?_⟩
      by_cases hqp : q = p
      · rw [hqp, Heap.internode_eq hip] at g2
        rw [hqp, Heap.internode_eq hD.here]
        exact hs.kept a g2 fun h0 => hd.dead (h0 ▸ ha)
      · rw [(hlike q).2.2.2 hqp]
        exact g2
  · intro a m' ha hm'
    by_cases hap : a = p
    · rw [hap, hD.here] at hm'
      obtain rfl := Node.internode.inj hm'
      rw [hap]
      exact hd.shift_link_parent hp hip hfin hip' hD
    · exact hd.shift_link hp hip hfin hip' hD ha hap hm'
  · intro a ha
    rw [(hlike a).1.deleted]
    exact hT.not_deleted ha
  · intro a ha
    rw [hD.retired] at ha
    rw [hD.size]
    exact hT.retired_dead ha

end

/-! ## The last step -/

/-- A parent that starts at `b` loses its first child. -/
lemma first_of_lo (hd : DropInv h G n r b e) (hp : (h.node n).parent = some p)
    (hip : h.node p = .internode ip) (hlo : G.lo p = b) :
    upper b ip.keys ≤ 1 ∧ (ip.replaceChild (upper b ip.keys) r).child 0 = none ∧
      upTo (G.hi p) (ip.replaceChild (upper b ip.keys) r).keys = e ∧
      ∀ k ∈ (ip.replaceChild (upper b ip.keys) r).keys, k < G.hi p := by
  obtain ⟨p', ip', k₁, k₂, c₁, c₂, hp', hip', -, -, -, -, hlink, hk, hc, hl, hlon, hup, hupper, h1,
    -, h3⟩ := hd.parent_cut
  obtain rfl : p = p' := by simpa [hp] using hp'
  obtain rfl : ip = ip' := by simpa [hip] using hip'
  obtain rfl : r = none := by
    cases r with
    | none => rfl
    | some c =>
        have hrem := hd.rest c rfl
        have := (hd.tree.range hrem.live).1
        rw [hrem.lo, hrem.hi] at this
        omega
  have hs := hlink.sorted
  have hkeys : ∀ k ∈ k₂, k < G.hi p := fun k h0 => (hs.2 k (by simp [hk, h0])).2
  rw [hd.whole rfl] at hlon
  rw [hupper, Internode.replaceChild]
  rcases exists_concat_of_downTo hlon with ⟨rfl, -⟩ | ⟨k, rfl⟩
  · obtain rfl : c₁ = [] := List.length_eq_zero_iff.mp hl
    rw [if_neg (by simp)]
    refine ⟨by simp, by simp [Internode.child, hc], ?_, ?_⟩
    · simpa [hk] using hup
    · simpa [hk] using hkeys
  · -- a separator in front of `b` would lie below the start of the node
    obtain rfl : k = [] := by
      cases k with
      | nil => rfl
      | cons x xs =>
          have hx := (hs.2 x (by simp [hk])).1
          have hlt := hs.1
          rw [hk, List.cons_append, List.cons_append, List.pairwise_cons] at hlt
          have := hlt.1 b (by simp)
          omega
    obtain ⟨d, rfl⟩ := List.length_eq_one_iff.mp (by simpa using hl)
    have hseg : SegOk h G (G.drop n none) p (G.lo p, d, b) := by
      refine hlink.segs _ ?_
      rw [hk, hc]
      simp
    obtain rfl : d = none := by
      cases d with
      | none => rfl
      | some c => exact absurd hseg.2.2.2.2.2 (by omega)
    rw [if_pos (by simp)]
    refine ⟨by simp, by simp [Internode.child, hc], ?_, ?_⟩
    · simpa [hk] using hup
    · simpa [hk] using hkeys

/-- A parent that keeps a separator, or is the root, does not vanish into its left neighbour. -/
lemma hi_of_final (hd : DropInv h G n r b e) (hp : (h.node n).parent = some p)
    (hip : h.node p = .internode ip)
    (hcond : 0 < (ip.replaceChild (upper b ip.keys) r).size ∨ ip.isRoot = true)
    (hlo : G.lo p = b) : e < G.hi p := by
  have hpk := (hd.tree.up hd.known hp).1
  have hpr : ¬ (G.drop n r).loose p := fun h0 => (hd.rest_ne hp h0).1 rfl
  obtain ⟨-, -, h3, h4⟩ := hd.first_of_lo hp hip hlo
  rcases hcond with h0 | h0
  · rw [Internode.size] at h0
    cases hk : (ip.replaceChild (upper b ip.keys) r).keys with
    | nil => simp [hk] at h0
    | cons k ks =>
        rw [hk] at h3 h4
        have : k = e := h3
        exact this ▸ h4 k List.mem_cons_self
  · -- the root of a layer starts at 0
    have h5 := (hd.tree.root_bit hpk hpr (by rw [hip]; trivial)).1 (by rw [hip]; exact h0)
    have h6 := (hd.tree.top_spec hpk).2.2.2.2.1
    rw [← hd.tree.top_eq hpk hpr h5] at h6
    have := hd.pos
    omega

/-- The value that `redirect` writes. -/
lemma redirect_value (hd : DropInv h G n r b e) (hp : (h.node n).parent = some p)
    (hip : h.node p = .internode ip) (hfin : G.lo p = b → e < G.hi p)
    (hnull : (ip.replaceChild (upper b ip.keys) r).child 0 = none) :
    0 < G.lo p ∧
      (ip.replaceChild (upper b ip.keys) r).keys.getD 0 0 = moveTo b e (G.lo p) := by
  obtain ⟨p', ip', -, -, -, -, hp', hip', -, -, -, -, hlink, -⟩ := hd.parent_cut
  obtain rfl : p = p' := by simpa [hp] using hp'
  obtain rfl : ip = ip' := by simpa [hip] using hip'
  have hs := hd.splice hp hip hfin
  obtain ⟨hne, hpos⟩ := hs.head hnull
  refine ⟨hpos, ?_⟩
  obtain ⟨k, ks, hk⟩ := List.exists_cons_of_ne_nil hne
  obtain ⟨d, ds, hc⟩ := List.exists_cons_of_length_eq_add_one hs.length
  obtain rfl : d = none := by simpa [Internode.child, hc] using hnull
  have hkb : k ≠ b := by
    rintro rfl
    exact hs.notMem (by simp [hk])
  have hfirst : (G.lo p, none, k) ∈ Separators.segs (G.lo p)
      (ip.replaceChild (upper b ip.keys) r).keys
      (ip.replaceChild (upper b ip.keys) r).children (G.hi p) := by
    rw [hk, hc]
    simp
  rw [hk, List.getD_cons_zero]
  rcases hs.segs _ hfirst with ⟨⟨l₀, c₀, u₀⟩, hm, rfl, -, h1, h2⟩ | ⟨-, h1⟩ | ⟨c, -, heq⟩
  · have : l₀ = u₀ := hlink.segs _ hm
    simp only at h1 h2
    rw [← h1, this, h2, moveTo_of_ne hkb]
  · simp only at h1
    rw [h1, moveTo_of_ne hkb]
  · simp at heq

/-- **The last step of `remove_leaf` leaves a dropped heap.** -/
lemma finish_step (hd : DropInv h G n r b e) (hp : (h.node n).parent = some p)
    (hip : h.node p = .internode ip) {ip' : Internode}
    (hip' : ip' = ip.replaceChild (upper b ip.keys) r)
    (hfin : G.lo p = b → e < G.hi p) :
    ∃ h', (if upper b ip.keys ≤ 1 ∧ 0 < ip'.size ∧ ip'.child 0 = none then
        redirect b (ip'.keys.getD 0 0) (((h.setInternode p ip').adopt r p).size + 1)
          ((h.setInternode p ip').adopt r p) p
        else some ((h.setInternode p ip').adopt r p)) = some h' ∧
      Dropped h h' G n r b e p ip' := by
  obtain ⟨p', ip'', -, -, -, -, hp', hip'', hlive, -, hfam, -, -, -, -, -, -, -, -, h1, h2, h3⟩ :=
    hd.parent_cut
  obtain rfl : p = p' := by simpa [hp] using hp'
  obtain rfl : ip = ip'' := by simpa [hip] using hip''
  have hbe := hd.lt_end
  have hpr : ∀ a, some a = r → a ≠ p ∧ (h.node a).height ≤ (h.node p).height := by
    intro a ha
    obtain ⟨g1, -, -, g2⟩ := hd.rest_ne hp ha
    have := (hd.tree.up hd.known hp).2.2.1
    exact ⟨g1, by omega⟩
  have hnode : ∀ a, ((h.setInternode p ip').adopt r p).node a = if a = p then .internode ip'
      else if some a = r then (h.node a).setParent (some p) else h.node a := by
    intro a
    rw [Heap.node_adopt, Heap.node_setInternode]
    by_cases hap : a = p
    · have : some a ≠ r := fun h0 => (hpr a h0).1 hap
      rw [if_neg this, if_pos hap, if_pos hap]
    · rw [if_neg hap, if_neg hap]
  have hfields := Internode.replaceChild_fields ip (upper b ip.keys) r
  rw [← hip'] at hfields
  split_ifs with hcall
  · obtain ⟨hpos, hv⟩ := hd.redirect_value hp hip hfin (hip' ▸ hcall.2.2)
    rw [← hip'] at hv
    have hsame : ∀ a, G.live a → (h.node p).height < (h.node a).height →
        ((h.setInternode p ip').adopt r p).node a = h.node a := by
      intro a ha hha
      have hap : a ≠ p := by
        rintro rfl
        exact absurd hha (lt_irrefl _)
      rw [hnode, if_neg hap, if_neg fun h0 => absurd (hpr a h0).2 (by omega)]
    have hlo : G.lo p = b ∨ moveTo b e (G.lo p) = G.lo p := by
      by_cases h0 : G.lo p = b
      · exact Or.inl h0
      · exact Or.inr (moveTo_of_ne h0)
    obtain ⟨h₂, heq, hs₂, hr₂, hn₂⟩ := hd.redirect_spec
      (((h.setInternode p ip').adopt r p).size + 1) hlive hfam (by omega) (by omega) hpos hlo hsame
      (by rw [hnode, if_pos rfl, hip]; exact hfields.1) (by simp; omega)
    rw [hv]
    refine ⟨h₂, heq, by simpa using hs₂, by simpa using hr₂, ?_, ?_, ?_, ?_⟩
    · rw [(hn₂ p).2 (fun h0 => absurd h0.2.2 (lt_irrefl _)), hnode, if_pos rfl]
    · intro a ha
      rw [(hn₂ a).2 (fun h0 => absurd (hpr a ha).2 (by omega)), hnode, if_neg (hpr a ha).1,
        if_pos ha]
    · intro a hap har ha hfa
      by_cases hh : (h.node p).height < (h.node a).height
      · rw [(hn₂ a).1 ⟨ha, hfa, hh⟩]
        by_cases h0 : G.lo p = b
        · rw [h0, moveTo_left]
        · rw [moveTo_of_ne h0, moveTo_self, hd.mapKeys_above hp h0 ha hfa hh]
          cases h.node a with
          | leaf l => rfl
          | internode i => simp [Node.mapKeys]
      · rw [(hn₂ a).2 (fun h0 => hh h0.2.2), hnode, if_neg hap, if_neg har,
          hd.mapKeys_below hp ha hfa hap (by omega)]
    · intro a hap har ha
      rw [(hn₂ a).2 (fun h0 => ha ⟨h0.1, h0.2.1⟩), hnode, if_neg hap, if_neg har]
  · -- without the call the parent does not start at `b`, and no separator above it is at `b`
    have hlo : G.lo p ≠ b := by
      intro h0
      obtain ⟨g1, g2, g3, -⟩ := hd.first_of_lo hp hip h0
      rw [← hip'] at g2 g3
      refine hcall ⟨g1, ?_, g2⟩
      rw [Internode.size, List.length_pos_iff]
      intro hnil
      rw [hnil] at g3
      have : G.hi p = e := g3
      have := hfin h0
      omega
    refine ⟨_, rfl, by simp, by simp, ?_, ?_, ?_, ?_⟩
    · rw [hnode, if_pos rfl]
    · intro a ha
      rw [hnode, if_neg (hpr a ha).1, if_pos ha]
    · intro a hap har ha hfa
      rw [hnode, if_neg hap, if_neg har]
      by_cases hh : (h.node p).height < (h.node a).height
      · rw [hd.mapKeys_above hp hlo ha hfa hh]
      · rw [hd.mapKeys_below hp ha hfa hap (by omega)]
    · intro a hap har _
      rw [hnode, if_neg hap, if_neg har]

end DropInv

/-! ## The whole loop -/

/-- What the loop of `remove_leaf` leaves: the tree is whole again, only internodes have died, and
the boundary of layer `f` at `b` has moved to `e`. -/
structure Unhooked (h h' : Heap β) (G G' : Ghost) (f : Ptr) (b e : ℕ) : Prop where
  tree : TreeInv h' G' G'.exact
  size : h'.size = h.size
  gone : G'.gone = G.gone
  fam : G'.fam = G.fam
  top : G'.top = G.top
  lo : G'.lo = (G.shift f b e).lo
  hi : G'.hi = (G.shift f b e).hi
  live : ∀ a, G'.live a → G.live a
  leaves : ∀ a, G.live a → (h.node a).isLeaf = true → G'.live a
  leafData : ∀ a, (h'.node a).leafData = (h.node a).leafData
  directoryMeta : ∀ a, (h'.node a).directoryMeta = (h.node a).directoryMeta

/-- The internodes that the loop takes out are empty, marked and retired.  One that stays has the
children it had, or a separator, or no parent. -/
structure Pruned (h h' : Heap β) (G G' : Ghost) : Prop where
  retired : ∃ dead, h'.retired = dead ++ h.retired ∧ ∀ a, a ∈ dead ↔ G.live a ∧ ¬ G'.live a
  dead : ∀ a, G.live a → ¬ G'.live a → ∃ m, h'.node a = .internode m ∧ m.keys = [] ∧
    m.children = [none] ∧ m.deleted = true ∧ m.parent ≠ none
  kept : ∀ a m, G'.live a → h'.node a = .internode m →
    m.children = (h.internode a).children ∨ m.keys ≠ [] ∨ m.parent = none
  others : ∀ a, ¬ G.live a → h'.node a = h.node a

/-- The parent `p` of the dead node, with the links `ip'`, dies too. -/
def Heap.killParent (h : Heap β) (p : Ptr) (ip' : Internode) (r : Option Ptr) : Heap β :=
  (((h.setInternode p ip').adopt r p).setInternode p
    { ip' with deleted := true, isRoot := false, children := ip'.children.set 0 none }).retire p

section

variable {b e : ℕ} {n p : Ptr} {r : Option Ptr} {ip : Internode}

/-- The loop goes on with a parent that is left without a separator. -/
lemma unhook_nonfinal (fuel : ℕ) (hp : (h.node n).parent = some p) (hip : h.node p = .internode ip)
    (hcond : ¬ (0 < (ip.replaceChild (upper b ip.keys) r).size ∨ ip.isRoot = true)) :
    unhook b (fuel + 1) h n r
      = unhook b fuel (h.killParent p (ip.replaceChild (upper b ip.keys) r) r) p
        ((ip.replaceChild (upper b ip.keys) r).child 0) := by
  have hfields := Internode.replaceChild_fields ip (upper b ip.keys) r
  rw [unhook, hp]
  simp only [Heap.internode_eq hip]
  rw [if_neg fun h0 => hcond (Or.inl h0.2.1)]
  simp only
  rw [if_neg (by rw [hfields.2.2.1]; exact hcond)]
  rfl

/-- The heap in which the parent has died. -/
lemma DropInv.kill_step (hd : DropInv h G n r b e) (hp : (h.node n).parent = some p)
    (hip : h.node p = .internode ip)
    (hcond : ¬ (0 < (ip.replaceChild (upper b ip.keys) r).size ∨ ip.isRoot = true)) :
    DropInv (h.killParent p (ip.replaceChild (upper b ip.keys) r) r) (G.kill p) p
        ((ip.replaceChild (upper b ip.keys) r).child 0) b e ∧
      ∀ a, (h.killParent p (ip.replaceChild (upper b ip.keys) r) r).node a =
        if a = p then .internode { ip with keys := [], children := [none], deleted := true }
        else if some a = r then (h.node a).setParent (some p) else h.node a := by
  have hfields := Internode.replaceChild_fields ip (upper b ip.keys) r
  obtain ⟨hs0, hr0⟩ := not_or.mp hcond
  have hkeys : (ip.replaceChild (upper b ip.keys) r).keys = [] := by
    rw [← List.length_eq_zero_iff]
    exact Nat.eq_zero_of_not_pos hs0
  have hroot : ip.isRoot = false := by simpa using hr0
  obtain ⟨r', hr', -⟩ := hd.nonfinal_shape hp hip hkeys
  have hchild : (ip.replaceChild (upper b ip.keys) r).child 0 = r' := by
    simp [Internode.child, hr']
  have hdead : ({ ip.replaceChild (upper b ip.keys) r with
      deleted := true, isRoot := false,
      children := (ip.replaceChild (upper b ip.keys) r).children.set 0 none } : Internode)
      = { ip with keys := [], children := [none], deleted := true } := by
    simp [hfields, hroot, hr', hkeys]
  have hnode : ∀ a, (h.killParent p (ip.replaceChild (upper b ip.keys) r) r).node a =
      if a = p then .internode { ip with keys := [], children := [none], deleted := true }
      else if some a = r then (h.node a).setParent (some p) else h.node a := by
    intro a
    rw [Heap.killParent, hdead, Heap.node_retire, Heap.node_setInternode]
    by_cases hap : a = p
    · rw [if_pos hap, if_pos hap]
    · rw [if_neg hap, if_neg hap, Heap.node_adopt, Heap.node_setInternode, if_neg hap]
  rw [hchild]
  exact ⟨hd.kill_parent hp hip hkeys hroot hr' rfl
    ⟨by simp [Heap.killParent], by simp [Heap.killParent], hnode⟩, hnode⟩

/-- The loop ends at a parent that keeps a separator, or at the root. -/
lemma DropInv.unhook_final (hd : DropInv h G n r b e) (fuel : ℕ)
    (hp : (h.node n).parent = some p) (hip : h.node p = .internode ip)
    (hcond : 0 < (ip.replaceChild (upper b ip.keys) r).size ∨ ip.isRoot = true) :
    ∃ h', unhook b (fuel + 1) h n r = some h' ∧
      Dropped h h' G n r b e p (ip.replaceChild (upper b ip.keys) r) := by
  have hfields := Internode.replaceChild_fields ip (upper b ip.keys) r
  obtain ⟨h', heq, hD⟩ := hd.finish_step hp hip rfl (hd.hi_of_final hp hip hcond)
  rw [unhook, hp]
  simp only [Heap.internode_eq hip, heq]
  rw [if_pos (by rw [hfields.2.2.1]; exact hcond)]
  exact ⟨h', rfl, hD⟩

/-- The last step takes no node out. -/
lemma DropInv.pruned_final (hd : DropInv h G n r b e) (hp : (h.node n).parent = some p)
    (hip : h.node p = .internode ip)
    (hcond : 0 < (ip.replaceChild (upper b ip.keys) r).size ∨ ip.isRoot = true) {h' : Heap β}
    (hD : Dropped h h' G n r b e p (ip.replaceChild (upper b ip.keys) r)) :
    Pruned h h' G (G.shift (G.fam n) b e) := by
  have hlike := hd.dropped_like hp hip rfl hD
  have hpk := (hd.tree.up hd.known hp).1
  have hpr : some p ≠ r := fun h0 => (hd.rest_ne hp h0).1 rfl
  refine ⟨⟨[], hD.retired, fun a => by simp [Ghost.shift]⟩, fun a h1 h2 => absurd h1 h2, ?_, ?_⟩
  · intro a m _ hm
    by_cases hap : a = p
    · rw [hap, hD.here] at hm
      obtain rfl := Node.internode.inj hm
      refine Or.inr (hcond.imp (fun h0 => List.length_pos_iff.mp h0) fun h0 => ?_)
      rw [(Internode.replaceChild_fields ip _ r).1]
      have hbit := (hd.tree.root_bit hpk hpr (by rw [hip]; trivial)).1
      rw [hip] at hbit
      exact hbit h0
    · left
      have hchildren := (hlike a).2.2.2 hap
      rwa [Heap.internode_eq hm] at hchildren
  · intro a ha
    refine hD.others a ?_ ?_ fun h0 => ha h0.1
    · rintro rfl
      obtain ⟨q, hq, h1, -⟩ := hd.parent
      obtain rfl : a = q := by simpa [hp] using hq
      exact ha h1
    · exact fun h0 => ha (hd.rest a h0.symm).live

/-- A parent that is left without a separator is taken out, and then what follows. -/
lemma DropInv.pruned_kill (hd : DropInv h G n r b e) (hp : (h.node n).parent = some p)
    (hlive : G.live p) {h₁ h' : Heap β} {r' : Option Ptr} {G' : Ghost}
    (hd₁ : DropInv h₁ (G.kill p) p r' b e) (hret : h₁.retired = p :: h.retired)
    (hnode : ∀ a, h₁.node a =
      if a = p then .internode { ip with keys := [], children := [none], deleted := true }
      else if some a = r then (h.node a).setParent (some p) else h.node a)
    (hlt : ∀ a, G'.live a → (G.kill p).live a) (hP : Pruned h₁ h' (G.kill p) G') :
    Pruned h h' G G' := by
  have hp' :
    h'.node p = .internode { ip with keys := [], children := [none], deleted := true } := by
    rw [hP.others p fun h0 => h0.2 rfl, hnode, if_pos rfl]
  obtain ⟨dead, h1, h2⟩ := hP.retired
  refine ⟨⟨dead ++ [p], by rw [h1, hret]; simp, fun a => ?_⟩, ?_, ?_, ?_⟩
  · rw [List.mem_append, h2, List.mem_singleton]
    constructor
    · rintro (⟨h3, h4⟩ | rfl)
      · exact ⟨h3.1, h4⟩
      · exact ⟨hlive, fun h0 => (hlt a h0).2 rfl⟩
    · rintro ⟨h3, h4⟩
      by_cases hap : a = p
      · exact Or.inr hap
      · exact Or.inl ⟨⟨h3, hap⟩, h4⟩
  · intro a h3 h4
    by_cases hap : a = p
    · obtain ⟨q, hq, -⟩ := hd₁.parent
      rw [hnode, if_pos rfl] at hq
      rw [hap]
      refine ⟨_, hp', rfl, rfl, rfl, ?_⟩
      have hq : ip.parent = some q := hq
      simp [hq]
    · exact hP.dead a ⟨h3, hap⟩ h4
  · intro a m h3 h4
    have hap := (hlt a h3).2
    have hchildren : (h₁.internode a).children = (h.internode a).children := by
      rw [Heap.internode, hnode, if_neg hap]
      split_ifs
      · rw [Node.children_setParent]; rfl
      · rfl
    exact hchildren ▸ hP.kept a m h3 h4
  · intro a ha
    have hap : a ≠ p := by
      rintro rfl
      exact ha hlive
    rw [hP.others a fun h0 => ha h0.1, hnode, if_neg hap,
      if_neg fun h0 => ha (hd.rest a h0.symm).live]

end

/-- **The loop of `remove_leaf` ends, and takes the dead node out of the tree.** -/
lemma unhook_spec {b e : ℕ} : ∀ (fuel : ℕ) {h : Heap β} {G : Ghost} {n : Ptr} {r : Option Ptr},
    DropInv h G n r b e → h.size ≤ (h.node n).height + fuel →
    ∃ h' G', unhook b fuel h n r = some h' ∧ Unhooked h h' G G' (G.fam n) b e ∧ Pruned h h' G G'
  | 0, h, G, n, r, hd, hf => absurd (hd.tree.height_lt hd.lt) (by omega)
  | fuel + 1, h, G, n, r, hd, hf => by
      obtain ⟨p, ip, -, -, -, -, hp, hip, hlive, -, hfam, hh, -⟩ := hd.parent_cut
      by_cases hcond : 0 < (ip.replaceChild (upper b ip.keys) r).size ∨ ip.isRoot = true
      · obtain ⟨h', heq, hD⟩ := hd.unhook_final fuel hp hip hcond
        have hlike := hd.dropped_like hp hip rfl hD
        exact ⟨h', G.shift (G.fam n) b e, heq,
          ⟨hd.shift_tree hp hip (hd.hi_of_final hp hip hcond) rfl hD, hD.size, rfl,
            rfl, rfl, rfl, rfl,
            fun _ ha => ha, fun _ ha _ => ha, fun a => (hlike a).1.leafData,
            fun a => (hlike a).1.directoryMeta⟩, hd.pruned_final hp hip hcond hD⟩
      · obtain ⟨hd₁, hnode⟩ := hd.kill_step hp hip hcond
        rw [unhook_nonfinal fuel hp hip hcond]
        have hsz : (h.killParent p (ip.replaceChild (upper b ip.keys) r) r).size = h.size := by
          simp [Heap.killParent]
        have hlike : ∀ a, ((h.killParent p (ip.replaceChild (upper b ip.keys) r) r).node a).leafData
              = (h.node a).leafData ∧
            ((h.killParent p (ip.replaceChild (upper b ip.keys) r) r).node a).directoryMeta
              = (h.node a).directoryMeta := by
          intro a
          rw [hnode]
          split_ifs with h0
          · rw [h0, hip]
            exact ⟨rfl, rfl⟩
          · simp
          · exact ⟨rfl, rfl⟩
        obtain ⟨h', G', heq, hU, hP⟩ := unhook_spec fuel hd₁
          (by
            rw [hsz, hnode, if_pos rfl]
            simp
            omega)
        have hfam' : (G.kill p).fam p = G.fam n := hfam
        rw [hfam'] at hU
        refine ⟨h', G', heq, ⟨hU.tree, hU.size.trans hsz, hU.gone, hU.fam, hU.top, hU.lo, hU.hi,
          fun a ha => (hU.live a ha).1, ?_, fun a => (hU.leafData a).trans (hlike a).1,
          fun a => (hU.directoryMeta a).trans (hlike a).2⟩,
          hd.pruned_kill hp hlive hd₁ (by simp [Heap.killParent]) hnode hU.live hP⟩
        intro a ha hleaf
        have hap : a ≠ p := by
          rintro rfl
          rw [hip] at hleaf
          cases hleaf
        refine hU.leaves a ⟨ha, hap⟩ ?_
        rw [hnode, if_neg hap]
        split_ifs <;> simpa using hleaf

end MasstreeLHM
