import MasstreeLHM.KeyTable.Denotation

/-!
# The strings that a trie spells

A layer is reached through whole slices, and what is in its cells are the ends of keys, or
beginnings of eight more bytes: no string is longer than the longest key.

`LayerAt` says with which bytes the keys of a layer begin.  Such a beginning consists of whole
slices (`LayerAt.dvd`), and in a tree a layer has one only (`LayerAt.unique`).

`Spelled` bounds all strings by 1024 bytes, those of layers that have no keys left included, since a
scan goes down into them as well.  It is kept by every change of the trie: `Spelled.set_none`,
`Spelled.set_some`, `Spelled.set_value` and `Spelled.place`, for keys that are not too long.  A scan
needs it because its buffer has room for one such string.
-/

namespace MasstreeLHM.KeyTable

open Trie

variable {V : Type} {M M' : LayerMap Bytes (ℕ × ℕ) V Ptr} {R f g l : Ptr}
  {k k' a b u u' : Bytes} {d : ℕ × ℕ}
  {i : Item Bytes V Ptr}

/-- Layer `l` is the one of the keys that begin with `u`. -/
inductive LayerAt (M : LayerMap Bytes (ℕ × ℕ) V Ptr) (R : Ptr) : Bytes → Ptr → Prop
  | root : LayerAt M R [] R
  | step {u q : Bytes} {l g : Ptr} (h : LayerAt M R u l) (hq : 8 < q.length)
      (hl : M l (byteCut.cell q) = some (.layer g)) : LayerAt M R (u ++ q.take 8) g

/-- The item `i` in cell `d` is that of a key of at most `n` bytes; a slice of eight bytes always
fits. -/
def KeyFits (n : ℕ) (d : ℕ × ℕ) (i : Item Bytes V Ptr) : Prop :=
  8 ≤ n ∧ ∃ q : Bytes, byteCut.cell q = d ∧ q.length ≤ n ∧
    (∀ o v, i = .value o v → byteCut.rest q = o) ∧
    ∀ g, i = .layer g → 8 < q.length

/-- All strings have at most 1024 bytes. -/
def Spelled (M : LayerMap Bytes (ℕ × ℕ) V Ptr) (R : Ptr) : Prop :=
  ∀ u l, LayerAt M R u l → ∀ d i, M l d = some i → u.length + 8 ≤ 1024 ∧
    KeyFits (1024 - u.length) d i

namespace LayerAt

lemma mono (h : LayerAt M R u l) (hM : ∀ l d g, M l d = some (.layer g) →
    M' l d = some (.layer g)) :
    LayerAt M' R u l := by
  induction h with
  | root => exact .root
  | step _ hq hl ih => exact .step ih hq (hM _ _ _ hl)

/-- Layers begin behind whole slices. -/
lemma dvd (h : LayerAt M R u l) : 8 ∣ u.length := by
  induction h with
  | root => exact Nat.dvd_zero 8
  | step _ hq _ ih =>
      rw [List.length_append, List.length_take_of_le hq.le]
      exact (Nat.dvd_add_right ih).mpr dvd_rfl

/-- **A layer has one beginning.** -/
lemma unique (hT : IsTree M R) (h : LayerAt M R u l) (h' : LayerAt M R u' l) : u = u' := by
  induction h generalizing u' with
  | root =>
      cases h' with
      | root => rfl
      | step _ _ hl => exact absurd hl (hT.root _ _)
  | step _ hq hl ih =>
      cases h' with
      | root => exact absurd hl (hT.root _ _)
      | step h1 hq' hl' =>
          obtain ⟨rfl, hc⟩ := hT.inj hl hl'
          rw [ih h1, take_eq_of_slice_eq (Prod.mk.inj hc).1 hq hq']

/-- A key that begins so gets there. -/
lemma leads (h : LayerAt M R u l) (hk : k ≠ []) : Leads byteCut M R (u ++ k) l k := by
  induction h generalizing k with
  | root => exact .refl
  | @step u q l g _ hq hl ih =>
      obtain ⟨h1, h2⟩ := byteCut_take_append hq hk
      rw [List.append_assoc]
      exact .step (ih (List.append_ne_nil_of_right_ne_nil _ hk)) (h1 ▸ hl) h2

end LayerAt

/-- The way of a key through the layers. -/
lemma layerAt_of_leads (h : Leads byteCut M R k l k') :
    ∃ u, LayerAt M R u l ∧ k = u ++ k' ∧ (u = [] ∨ k' ≠ []) := by
  induction h with
  | refl => exact ⟨[], .root, rfl, Or.inl rfl⟩
  | @step l g k' k'' _ hl hr ih =>
      obtain ⟨u, h1, h2, -⟩ := ih
      rw [byteCut_rest] at hr
      split_ifs at hr with h8
      cases hr
      refine ⟨u ++ k'.take 8, .step h1 h8 hl, ?_, Or.inr (List.ne_nil_of_length_pos ?_)⟩
      · rw [List.append_assoc, List.take_append_drop, h2]
      · rw [List.length_drop]
        omega

/-- The end of a key that is not too long. -/
lemma length_of_leads (hT : IsTree M R) (h : Leads byteCut M R k l k') (hk : k.length ≤ 1024)
    (hu : LayerAt M R u l) :
    u.length + 8 ≤ 1024 ∧ k'.length ≤ 1024 - u.length := by
  obtain ⟨u', h1, h2, h3⟩ := layerAt_of_leads h
  obtain rfl := hu.unique hT h1
  obtain ⟨m, hm⟩ := hu.dvd
  rw [h2, List.length_append] at hk
  rcases h3 with rfl | h3
  · exact ⟨by simp, by simpa using hk⟩
  · have := List.length_pos_iff.mpr h3
    omega

/-- A new layer is in one cell, and nothing is below it. -/
lemma LayerAt.of_set (h : LayerAt (set M f d (some i)) R u l) (hg : ∀ g, i = .layer g →
    ∀ c, M g c = none) :
    LayerAt M R u l ∨ i = .layer l := by
  induction h with
  | root => exact Or.inl .root
  | @step u q l g _ hq hl ih =>
      by_cases h0 : l = f ∧ byteCut.cell q = d
      · rw [h0.1, h0.2, set_self] at hl
        exact Or.inr (Option.some.inj hl)
      · rw [set_of_ne h0] at hl
        rcases ih with h1 | h1
        · exact Or.inl (.step h1 hq hl)
        · rw [hg l h1] at hl
          cases hl

namespace Spelled

lemma mono (hS : Spelled M R) (hM : ∀ l d i, M' l d = some i → M l d = some i) : Spelled M' R :=
  fun u l hu d i hi => hS u l (hu.mono fun _ _ _ h => hM _ _ _ h) d i (hM l d i hi)

/-- A cell is emptied. -/
lemma set_none (hS : Spelled M R) : Spelled (set M f d none) R := by
  refine hS.mono fun l c i h => ?_
  by_cases h0 : l = f ∧ c = d
  · rw [h0.1, h0.2, set_self] at h
    cases h
  · rwa [set_of_ne h0] at h

/-- A cell is filled. -/
lemma set_some (hS : Spelled M R) (hi : ∀ u, LayerAt M R u f → u.length + 8 ≤ 1024 ∧
    KeyFits (1024 - u.length) d i)
    (hg : ∀ g, i = .layer g → g ≠ f ∧ ∀ c, M g c = none) : Spelled (set M f d (some i)) R := by
  intro u l hu c j hj
  by_cases h0 : l = f ∧ c = d
  · rw [h0.1, h0.2, set_self, Option.some.injEq] at hj
    rw [h0.1] at hu
    rw [← hj, h0.2]
    rcases hu.of_set fun g h => (hg g h).2 with h1 | h1
    · exact hi u h1
    · exact absurd rfl (hg f h1).1
  · rw [set_of_ne h0] at hj
    rcases hu.of_set fun g h => (hg g h).2 with h1 | h1
    · exact hS u l h1 c j hj
    · rw [(hg l h1).2] at hj
      cases hj

/-- A value of a key that is not too long. -/
lemma set_value (hS : Spelled M R) (v : V)
    (ha : ∀ u, LayerAt M R u f → u.length + 8 ≤ 1024 ∧ a.length ≤ 1024 - u.length) :
    Spelled (set M f (byteCut.cell a) (some (.value (byteCut.rest a) v))) R := by
  refine hS.set_some (fun u hu => ?_) (by simp)
  obtain ⟨h1, h2⟩ := ha u hu
  refine ⟨h1, by omega, a, rfl, h2, fun o w h => ?_, by simp⟩
  cases h
  rfl

/-- Two keys part. -/
lemma place {v : V} {gs : List Ptr} {a' b' : Bytes} (hS : Spelled M R)
    (hf : Fresh M R gs) (hl : f ∉ gs) (hs : Shares byteCut gs.length a b a' b')
    (ha : ∀ u, LayerAt M R u f → u.length + 8 ≤ 1024 ∧ a.length ≤ 1024 - u.length) :
    Spelled (Trie.place byteCut v gs M f a) R := by
  induction gs generalizing M f a b with
  | nil => exact hS.set_value v ha
  | cons g gs ih =>
      cases hs with
      | @succ _ _ _ a₁ _ _ _ hc ha₁ hb h =>
          rw [List.mem_cons, not_or] at hl
          have hrest := ha₁
          rw [byteCut_rest] at hrest
          split_ifs at hrest with h8
          cases hrest
          have hempty := hf.empty g List.mem_cons_self
          rw [(place_cons (v := v) (M := M) ha₁ hl.1 hl.2).1]
          refine ih (hS.set_some (fun u hu => ?_) ?_) (hf.tail hl.2) hf.head_notMem h fun u hu => ?_
          · obtain ⟨h1, h2⟩ := ha u hu
            exact ⟨h1, by omega, a, rfl, h2, by simp, fun _ _ => h8⟩
          · rintro g' h0
            cases h0
            exact ⟨fun h0 => hl.1 h0.symm, hempty⟩
          · -- the new layer hangs in the cell of `a` only
            cases hu with
            | root => exact absurd rfl (hf.ne_root _ List.mem_cons_self)
            | @step u q l _ h1 hq hlq =>
                have hcell : l = f ∧ byteCut.cell q = byteCut.cell a := by
                  by_contra h0
                  rw [set_of_ne h0] at hlq
                  exact hf.unused g List.mem_cons_self _ _ hlq
                obtain ⟨rfl, -⟩ := hcell
                rcases h1.of_set (by
                  rintro g' h0
                  cases h0
                  exact hempty) with h2 | h2
                · obtain ⟨h3, h4⟩ := ha u h2
                  obtain ⟨m, hm⟩ := h2.dvd
                  rw [List.length_append, List.length_take_of_le hq.le, List.length_drop]
                  omega
                · exact absurd (Item.layer.inj h2).symm hl.1

end Spelled

end MasstreeLHM.KeyTable
