import Mathlib.Data.List.Sort
import Mathlib.Tactic.Lemma

/-!
# Children and separators

A node of a search tree over the range `[lo, hi)` has children `c₀ .. cₙ` and separators
`k₀ .. kₙ₋₁`; child `cᵢ` is responsible for `[kᵢ₋₁, kᵢ)`, with `lo` and `hi` at the two ends.
`segs` lists the children with their ranges, so that a property of all links of a node is a property
of all elements of one list, and inserting, splitting or dropping a child is a local change of that
list.

**`segs_around`** takes the list apart at one child; `before` and `after` are what is on both sides
and do not depend on it.  **`segs_insert`** and **`segs_divide`** are the list after a new child has
been hung in behind it, and after the node has been cut at a separator.  `exists_cut` finds the cut
that belongs to a range.

The second part is about order.  `sorted_of_segs` and `cut_bounds` go from ranges to separators and
back, and `exists_seg_of_mem` finds the child that is responsible for a point.
-/

namespace Separators

variable {α : Type*}

/-- The children of a node over `[lo, hi)` with their ranges. -/
def segs (lo : ℕ) : List ℕ → List α → ℕ → List (ℕ × α × ℕ)
  | [], c :: _, hi => [(lo, c, hi)]
  | k :: ks, c :: cs, hi => (lo, c, k) :: segs k ks cs hi
  | _, [], _ => []

/-- The ranges of the children before some point: every one of them ends in a separator. -/
def before (lo : ℕ) : List ℕ → List α → List (ℕ × α × ℕ)
  | k :: ks, c :: cs => (lo, c, k) :: before k ks cs
  | _, _ => []

/-- The lower end of the child at a cut: the last separator before it. -/
def downTo (lo : ℕ) : List ℕ → ℕ
  | [] => lo
  | k :: ks => downTo k ks

/-- The upper end of the child at a cut: the first separator behind it. -/
def upTo (hi : ℕ) (k₂ : List ℕ) : ℕ := k₂.headD hi

@[simp] lemma downTo_nil (lo : ℕ) : downTo lo [] = lo := rfl

@[simp] lemma downTo_cons (lo k : ℕ) (ks : List ℕ) : downTo lo (k :: ks) = downTo k ks := rfl

@[simp] lemma downTo_concat (lo k : ℕ) (ks : List ℕ) : downTo lo (ks ++ [k]) = k := by
  induction ks generalizing lo with
  | nil => rfl
  | cons a as ih => simpa using ih a

@[simp] lemma segs_nil (lo hi : ℕ) (c : α) (cs : List α) :
    segs lo [] (c :: cs) hi = [(lo, c, hi)] := rfl

@[simp] lemma segs_cons (lo hi k : ℕ) (ks : List ℕ) (c : α) (cs : List α) :
    segs lo (k :: ks) (c :: cs) hi = (lo, c, k) :: segs k ks cs hi := rfl

/-- Moving every boundary of a node. -/
lemma segs_map (f : ℕ → ℕ) (lo hi : ℕ) (ks : List ℕ) (cs : List α) :
    segs (f lo) (ks.map f) cs (f hi)
      = (segs lo ks cs hi).map fun s => (f s.1, s.2.1, f s.2.2) := by
  induction ks generalizing lo cs with
  | nil => cases cs <;> simp [segs]
  | cons k ks ih => cases cs <;> simp [segs, ih]

/-- Cut a node at child number `k₁.length`. -/
lemma segs_append (lo hi : ℕ) (k₁ k₂ : List ℕ) (c₁ c₂ : List α) (h : c₁.length = k₁.length) :
    segs lo (k₁ ++ k₂) (c₁ ++ c₂) hi = before lo k₁ c₁ ++ segs (downTo lo k₁) k₂ c₂ hi := by
  induction k₁ generalizing lo c₁ with
  | nil => simp [List.length_eq_zero_iff.mp h, before]
  | cons k ks ih =>
      obtain ⟨c, cs, rfl⟩ :=
        List.exists_cons_of_length_eq_add_one (n := ks.length) (by simpa using h)
      simp only [List.cons_append, segs_cons, before, ih k cs (by simpa using h), downTo_cons]

/-- The ranges behind the child at a cut. -/
def after (hi : ℕ) : List ℕ → List α → List (ℕ × α × ℕ)
  | [], _ => []
  | k :: ks, cs => segs k ks cs hi

lemma segs_eq_cons (lo hi : ℕ) (k₂ : List ℕ) (c : α) (c₂ : List α) :
    segs lo k₂ (c :: c₂) hi = (lo, c, upTo hi k₂) :: after hi k₂ c₂ := by
  cases k₂ <;> simp [upTo, after]

/-- **The list of ranges around one child.** -/
lemma segs_around (lo hi : ℕ) (k₁ k₂ : List ℕ) (c₁ c₂ : List α) (c : α)
    (h : c₁.length = k₁.length) :
    segs lo (k₁ ++ k₂) (c₁ ++ c :: c₂) hi
      = before lo k₁ c₁ ++ (downTo lo k₁, c, upTo hi k₂) :: after hi k₂ c₂ := by
  rw [segs_append lo hi k₁ k₂ c₁ (c :: c₂) h, segs_eq_cons]

/-- **The list of ranges after inserting a child `d` with separator `x` behind `c`.** -/
lemma segs_insert (lo hi x : ℕ) (k₁ k₂ : List ℕ) (c₁ c₂ : List α) (c d : α)
    (h : c₁.length = k₁.length) :
    segs lo (k₁ ++ x :: k₂) (c₁ ++ c :: d :: c₂) hi
      = before lo k₁ c₁ ++ (downTo lo k₁, c, x) :: (x, d, upTo hi k₂) :: after hi k₂ c₂ := by
  rw [segs_append lo hi k₁ (x :: k₂) c₁ (c :: d :: c₂) h, segs_cons, segs_eq_cons]

/-- **The list of ranges, divided at a separator.** -/
lemma segs_divide (lo hi k : ℕ) (k₁ k₂ : List ℕ) (c₁ c₂ : List α)
    (h : c₁.length = k₁.length + 1) :
    segs lo (k₁ ++ k :: k₂) (c₁ ++ c₂) hi = segs lo k₁ c₁ k ++ segs k k₂ c₂ hi := by
  induction k₁ generalizing lo c₁ with
  | nil =>
      obtain ⟨c, rfl⟩ := List.length_eq_one_iff.mp (by simpa using h)
      simp
  | cons a as ih =>
      obtain ⟨c, cs, rfl⟩ := List.exists_cons_of_length_eq_add_one h
      simp only [List.cons_append, segs_cons, ih a cs (by simpa using h)]

lemma mem_of_mem_segs {lo hi : ℕ} {ks : List ℕ} {cs : List α} {s : ℕ × α × ℕ}
    (hm : s ∈ segs lo ks cs hi) : s.2.1 ∈ cs := by
  induction ks generalizing lo cs with
  | nil =>
      cases cs with
      | nil => simp [segs] at hm
      | cons c cs => simp_all
  | cons k ks ih =>
      cases cs with
      | nil => simp [segs] at hm
      | cons c cs =>
          rcases List.mem_cons.mp hm with rfl | hm
          · simp
          · exact List.mem_cons_of_mem _ (ih hm)

lemma mem_of_mem_before {lo : ℕ} {ks : List ℕ} {cs : List α} {s : ℕ × α × ℕ}
    (hm : s ∈ before lo ks cs) : s.2.1 ∈ cs := by
  induction ks generalizing lo cs with
  | nil => simp [before] at hm
  | cons k ks ih =>
      cases cs with
      | nil => simp [before] at hm
      | cons c cs =>
          rcases List.mem_cons.mp hm with rfl | hm
          · simp
          · exact List.mem_cons_of_mem _ (ih hm)

lemma mem_of_mem_after {hi : ℕ} {ks : List ℕ} {cs : List α} {s : ℕ × α × ℕ}
    (hm : s ∈ after hi ks cs) : s.2.1 ∈ cs := by
  cases ks with
  | nil => simp [after] at hm
  | cons k ks => exact mem_of_mem_segs hm

/-- Every child of a node occurs in its list of ranges. -/
lemma exists_mem_segs (lo hi : ℕ) {ks : List ℕ} {cs : List α} (h : cs.length = ks.length + 1)
    {c : α} (hc : c ∈ cs) : ∃ l u, (l, c, u) ∈ segs lo ks cs hi := by
  induction ks generalizing lo cs with
  | nil =>
      obtain ⟨d, rfl⟩ := List.length_eq_one_iff.mp (by simpa using h)
      exact ⟨lo, hi, by simpa using hc⟩
  | cons k ks ih =>
      obtain ⟨d, ds, rfl⟩ := List.exists_cons_of_length_eq_add_one h
      rcases List.mem_cons.mp hc with rfl | hc
      · exact ⟨lo, k, by simp⟩
      · obtain ⟨l, u, hm⟩ := ih k (by simpa using h) hc
        exact ⟨l, u, by simp [hm]⟩

/-- Cut a node at one of its ranges. -/
lemma exists_cut {lo hi : ℕ} {ks : List ℕ} {cs : List α} (h : cs.length = ks.length + 1)
    {l u : ℕ} {c : α} (hm : (l, c, u) ∈ segs lo ks cs hi) :
    ∃ k₁ k₂ c₁ c₂, ks = k₁ ++ k₂ ∧ cs = c₁ ++ c :: c₂ ∧ c₁.length = k₁.length ∧
      downTo lo k₁ = l ∧ upTo hi k₂ = u := by
  induction ks generalizing lo cs with
  | nil =>
      obtain ⟨d, rfl⟩ := List.length_eq_one_iff.mp (by simpa using h)
      simp only [segs_nil, List.mem_singleton, Prod.mk.injEq] at hm
      exact ⟨[], [], [], [], by simp [hm, upTo]⟩
  | cons k ks ih =>
      obtain ⟨d, ds, rfl⟩ := List.exists_cons_of_length_eq_add_one h
      rcases List.mem_cons.mp hm with hm | hm
      · simp only [Prod.mk.injEq] at hm
        exact ⟨[], k :: ks, [], ds, by simp [hm, upTo]⟩
      · obtain ⟨k₁, k₂, c₁, c₂, rfl, rfl, hlen, hl, hu⟩ := @ih k ds (by simpa using h) hm
        exact ⟨k :: k₁, k₂, d :: c₁, c₂, by simp [hlen, hl, hu]⟩

/-! ## Order -/

/-- Ranges that are never reversed and, from the second on, not empty: the separators are
strictly increasing. -/
lemma sorted_of_segs {lo hi : ℕ} {ks : List ℕ} {cs : List α} (h : cs.length = ks.length + 1)
    (hle : ∀ s ∈ segs lo ks cs hi, s.1 ≤ s.2.2)
    (hlt : ∀ s ∈ (segs lo ks cs hi).tail, s.1 < s.2.2) :
    ks.Pairwise (· < ·) ∧ (∀ k ∈ ks, lo ≤ k ∧ k < hi) := by
  induction ks generalizing lo cs with
  | nil => simp
  | cons k ks ih =>
      obtain ⟨d, ds, rfl⟩ := List.exists_cons_of_length_eq_add_one h
      have hlen : ds.length = ks.length + 1 := by simpa using h
      obtain ⟨e, es, rfl⟩ := List.exists_cons_of_length_eq_add_one hlen
      simp only [segs_cons, List.mem_cons, forall_eq_or_imp, List.tail_cons] at hle hlt
      have hih := ih hlen (fun s hs => (hlt s hs).le)
        (fun s hs => hlt s (List.mem_of_mem_tail hs))
      have hfirst : k < upTo hi ks := by
        have := hlt _ (by rw [segs_eq_cons]; exact List.mem_cons_self)
        simpa using this
      have hk : ∀ a ∈ ks, k < a := by
        intro a ha
        cases ks with
        | nil => cases ha
        | cons b bs =>
            simp only [upTo, List.headD_cons] at hfirst
            rcases List.mem_cons.mp ha with rfl | ha
            · exact hfirst
            · exact hfirst.trans (List.rel_of_pairwise_cons hih.1 ha)
      have hkhi : k < hi := by
        cases ks with
        | nil => simpa [upTo] using hfirst
        | cons b bs => exact (hk b (by simp)).trans (hih.2 b (by simp)).2
      refine ⟨List.pairwise_cons.mpr ⟨hk, hih.1⟩, ?_⟩
      intro a ha
      rcases List.mem_cons.mp ha with rfl | ha
      · exact ⟨hle.1, hkhi⟩
      · exact ⟨hle.1.trans (hih.2 a ha).1, (hih.2 a ha).2⟩

/-- In a strictly sorted node, the separators on the two sides of a cut lie on the two sides of
the range at the cut. -/
lemma cut_bounds {lo hi : ℕ} {k₁ k₂ : List ℕ} (hs : (k₁ ++ k₂).Pairwise (· < ·))
    (hb : ∀ k ∈ k₁ ++ k₂, lo ≤ k ∧ k < hi) :
    (∀ k ∈ k₁, k ≤ downTo lo k₁) ∧ (∀ k ∈ k₂, upTo hi k₂ ≤ k) ∧
      lo ≤ downTo lo k₁ ∧ upTo hi k₂ ≤ hi := by
  refine ⟨?_, ?_, ?_, ?_⟩
  · intro k hk
    obtain ⟨as, b, rfl⟩ := List.eq_nil_or_concat k₁ |>.resolve_left (List.ne_nil_of_mem hk)
    simp only [List.concat_eq_append, downTo_concat, List.mem_append, List.mem_singleton] at hk ⊢
    rcases hk with hk | rfl
    · simp only [List.concat_eq_append, List.append_assoc, List.pairwise_append] at hs
      exact (hs.2.2 k hk b (by simp)).le
    · exact le_rfl
  · intro k hk
    cases k₂ with
    | nil => cases hk
    | cons b bs =>
        simp only [upTo, List.headD_cons]
        rcases List.mem_cons.mp hk with rfl | hk
        · exact le_rfl
        · exact (List.rel_of_pairwise_cons (List.pairwise_append.mp hs).2.1 hk).le
  · rcases List.eq_nil_or_concat k₁ with rfl | ⟨as, b, rfl⟩
    · simp
    · simpa using (hb b (by simp)).1
  · cases k₂ with
    | nil => simp [upTo]
    | cons b bs => simpa [upTo] using (hb b (by simp)).2.le

/-- Some range contains every point of the node. -/
lemma exists_seg_of_mem {lo hi x : ℕ} {ks : List ℕ} {cs : List α} (h : cs.length = ks.length + 1)
    (hlo : lo ≤ x) (hhi : x < hi) : ∃ l c u, (l, c, u) ∈ segs lo ks cs hi ∧ l ≤ x ∧ x < u := by
  induction ks generalizing lo cs with
  | nil =>
      obtain ⟨d, rfl⟩ := List.length_eq_one_iff.mp (by simpa using h)
      exact ⟨lo, d, hi, by simp, hlo, hhi⟩
  | cons k ks ih =>
      obtain ⟨d, ds, rfl⟩ := List.exists_cons_of_length_eq_add_one h
      by_cases hx : x < k
      · exact ⟨lo, d, k, by simp, hlo, hx⟩
      · obtain ⟨l, c, u, hm, h1, h2⟩ := @ih k ds (by simpa using h) (by omega)
        exact ⟨l, c, u, by simp [hm], h1, h2⟩

/-- The list of ranges lists the children. -/
lemma segs_map_child (lo hi : ℕ) {ks : List ℕ} {cs : List α} (h : cs.length = ks.length + 1) :
    (segs lo ks cs hi).map (fun s => s.2.1) = cs := by
  induction ks generalizing lo cs with
  | nil =>
      obtain ⟨c, rfl⟩ := List.length_eq_one_iff.mp (by simpa using h)
      rfl
  | cons k ks ih =>
      obtain ⟨c, cs, rfl⟩ := List.exists_cons_of_length_eq_add_one h
      simp [ih k (by simpa using h)]

/-- Later ranges lie behind earlier ones. -/
lemma segs_pairwise {lo hi : ℕ} {ks : List ℕ} {cs : List α}
    (hle : ∀ s ∈ segs lo ks cs hi, s.1 ≤ s.2.2) :
    (segs lo ks cs hi).Pairwise fun s t => s.2.2 ≤ t.1 := by
  have hlow : ∀ {lo : ℕ} {ks : List ℕ} {cs : List α}, (∀ s ∈ segs lo ks cs hi, s.1 ≤ s.2.2) →
      ∀ s ∈ segs lo ks cs hi, lo ≤ s.1 := by
    intro lo ks
    induction ks generalizing lo with
    | nil => intro cs _ s hs; cases cs <;> simp_all [segs]
    | cons k ks ih =>
        intro cs hle s hs
        cases cs with
        | nil => simp [segs] at hs
        | cons c cs =>
            rcases List.mem_cons.mp hs with rfl | hs
            · exact le_rfl
            · have h1 : lo ≤ k := hle (lo, c, k) List.mem_cons_self
              exact h1.trans (ih (fun s hs => hle s (List.mem_cons_of_mem _ hs)) s hs)
  induction ks generalizing lo cs with
  | nil => cases cs <;> simp [segs]
  | cons k ks ih =>
      cases cs with
      | nil => simp [segs]
      | cons c cs =>
          have htail : ∀ s ∈ segs k ks cs hi, s.1 ≤ s.2.2 := fun s hs =>
            hle s (List.mem_cons_of_mem _ hs)
          exact List.pairwise_cons.mpr ⟨fun s hs => hlow htail s hs, ih htail⟩

end Separators
