import Mathlib.Data.Nat.Notation
import Mathlib.Data.Int.Notation
import Mathlib.Data.List.Sort
import Mathlib.Tactic.Lemma

/-!
# Searching a node

`ksearch.hh`, with the binary method that `nodeparams` selects.  Both searches shrink an interval
`[l, r)` of positions and return early on an equal key.  The loops carry the length of the interval
as fuel, which bounds their number of rounds.

`upper` finds the child of an internode, and `upper_append` is its specification: in a sorted list
it counts the keys up to the searched one.  The invariant of the loop is that the cut between the
keys stays inside the interval (`upperLoop_eq`).

`lowerBy` finds a position in a leaf with any comparison.  The comparisons of the source differ in
what they call equal, so there are two sets of lemmas.  `lowerBy_hit` and `lowerBy_miss` are for a
leaf that is sorted as the comparison sees it.  `lowerBy_some` and `lowerBy_none` say what a result
tells when an equal slot may be passed by: a hit compares equal, and a miss is at the cut between
what compares greater and what compares smaller.
-/

namespace MasstreeLHM

/-- The loop of `key_upper_bound_by` over the sorted keys of an internode. -/
def upperLoop (x : ℕ) (keys : List ℕ) : ℕ → ℕ → ℕ → ℕ
  | 0, l, _ => l
  | fuel + 1, l, r =>
      if l < r then
        let m := (l + r) / 2
        let k := keys.getD m 0
        if x < k then upperLoop x keys fuel l m
        else if x = k then m + 1
        else upperLoop x keys fuel (m + 1) r
      else l

/-- `bound_type::upper`: the index of the child responsible for `x`. -/
def upper (x : ℕ) (keys : List ℕ) : ℕ := upperLoop x keys keys.length 0 keys.length

/-- The loop of `key_lower_bound_by`: `cmp` compares the searched key with a slot, `perm` lists
the live slots.  The result is `key_indexed_position`; a missing slot is `-1` in the source. -/
def lowerLoop (cmp : ℕ → ℤ) (perm : List ℕ) : ℕ → ℕ → ℕ → ℕ × Option ℕ
  | 0, l, _ => (l, none)
  | fuel + 1, l, r =>
      if l < r then
        let m := (l + r) / 2
        let mp := perm.getD m 0
        let c := cmp mp
        if c < 0 then lowerLoop cmp perm fuel l m
        else if c = 0 then (m, some mp)
        else lowerLoop cmp perm fuel (m + 1) r
      else (l, none)

/-- `bound_type::lower_by`. -/
def lowerBy (cmp : ℕ → ℤ) (perm : List ℕ) : ℕ × Option ℕ :=
  lowerLoop cmp perm perm.length 0 perm.length

/-! ## What the searches find -/

/-- The invariant of the upper search: the cut between the keys `≤ x` and the keys `> x` stays
inside `[l, r]`. -/
lemma upperLoop_eq {x : ℕ} {keys : List ℕ} {c : ℕ} (hsorted : keys.Pairwise (· < ·))
    (hle : ∀ i k, keys[i]? = some k → (i < c ↔ k ≤ x)) :
    ∀ fuel l r, l ≤ c → c ≤ r → r ≤ keys.length → r ≤ l + fuel →
      upperLoop x keys fuel l r = c
  | 0, l, r, hl, hr, _, hf => by
      simp only [upperLoop]
      omega
  | fuel + 1, l, r, hl, hr, hlen, hf => by
      rw [upperLoop]
      split_ifs with hlr
      · have hm : (l + r) / 2 < keys.length := by omega
        have hget : keys[(l + r) / 2]? = some (keys.getD ((l + r) / 2) 0) := by
          simp [List.getD_eq_getElem?_getD, hm]
        have hcut := hle _ _ hget
        simp only
        split_ifs with h1 h2
        · exact upperLoop_eq hsorted hle fuel l _ hl (by omega) (by omega) (by omega)
        · -- an equal key: everything after it is larger, so the cut is right behind it
          have hc : (l + r) / 2 < c := hcut.mpr (by omega)
          by_contra hne
          have hm1 : (l + r) / 2 + 1 < keys.length := by omega
          have hget1 : keys[(l + r) / 2 + 1]? = some keys[(l + r) / 2 + 1] := by simp [hm1]
          have hle1 := (hle _ _ hget1).mp (by omega)
          have hlt := List.pairwise_iff_getElem.mp hsorted _ _ hm hm1 (by omega)
          simp only [List.getD_eq_getElem?_getD, hm, List.getElem?_eq_getElem,
            Option.getD_some] at h2
          omega
        · exact upperLoop_eq hsorted hle fuel _ r (hcut.mpr (by omega)) hr hlen (by omega)
      · omega

/-- `upper` counts the keys `≤ x` of a strictly sorted list. -/
lemma upper_append {x : ℕ} {k₁ k₂ : List ℕ} (hsorted : (k₁ ++ k₂).Pairwise (· < ·))
    (h₁ : ∀ k ∈ k₁, k ≤ x) (h₂ : ∀ k ∈ k₂, x < k) : upper x (k₁ ++ k₂) = k₁.length := by
  refine upperLoop_eq hsorted ?_ _ _ _ (Nat.zero_le _) (by simp) le_rfl (by omega)
  intro i k hik
  rw [List.getElem?_append] at hik
  split_ifs at hik with hi
  · exact ⟨fun _ => h₁ k (List.mem_of_getElem? hik), fun _ => hi⟩
  · have := h₂ k (List.mem_of_getElem? hik)
    constructor <;> intro <;> omega

/-- The invariant of the lower search: `c` cuts the positions that compare greater from those
that compare smaller, an equal one (if any) being at `c` itself. -/
lemma lowerLoop_eq {cmp : ℕ → ℤ} {perm : List ℕ} {c : ℕ} {res : Option ℕ}
    (hbelow : ∀ i p, perm[i]? = some p → i < c → 0 < cmp p)
    (habove : ∀ i p, perm[i]? = some p → c < i → cmp p < 0)
    (hat : ∀ p, perm[c]? = some p →
      (cmp p = 0 ∧ res = some p) ∨ (cmp p < 0 ∧ res = none))
    (hend : c = perm.length → res = none) :
    ∀ fuel l r, l ≤ c → c ≤ r → r ≤ perm.length → r ≤ l + fuel →
      (r = c → res = none) → lowerLoop cmp perm fuel l r = (c, res)
  | 0, l, r, hl, hr, _, hf, hres => by
      have : l = c ∧ r = c := by omega
      simp only [lowerLoop, hres this.2, this.1]
  | fuel + 1, l, r, hl, hr, hlen, hf, hres => by
      rw [lowerLoop]
      split_ifs with hlr
      · have hm : (l + r) / 2 < perm.length := by omega
        have hget : perm[(l + r) / 2]? = some (perm.getD ((l + r) / 2) 0) := by
          simp [List.getD_eq_getElem?_getD, hm]
        simp only
        rcases Nat.lt_trichotomy ((l + r) / 2) c with hlt | heq | hgt
        · have hpos := hbelow _ _ hget hlt
          rw [if_neg (by omega), if_neg (by omega)]
          exact lowerLoop_eq hbelow habove hat hend fuel _ r hlt hr hlen (by omega) hres
        · rw [heq] at hget ⊢
          rcases hat _ hget with ⟨h0, hr0⟩ | ⟨hneg, hr0⟩
          · rw [if_neg (by omega), if_pos h0, hr0]
          · rw [if_pos hneg]
            exact lowerLoop_eq hbelow habove hat hend fuel l c hl le_rfl (by omega) (by omega)
              (fun _ => hr0)
        · have hneg := habove _ _ hget hgt
          rw [if_pos hneg]
          exact lowerLoop_eq hbelow habove hat hend fuel l _ hl (by omega) (by omega) (by omega)
            (fun h => absurd h (by omega))
      · have : l = c ∧ r = c := by omega
        rw [hres this.2, this.1]

/-- A hit of the lower search. -/
lemma lowerBy_hit {cmp : ℕ → ℤ} {A B : List ℕ} {p : ℕ} (hA : ∀ q ∈ A, 0 < cmp q)
    (hp : cmp p = 0) (hB : ∀ q ∈ B, cmp q < 0) :
    lowerBy cmp (A ++ p :: B) = (A.length, some p) := by
  refine lowerLoop_eq ?_ ?_ ?_ ?_ _ _ _ (Nat.zero_le _) (by simp) le_rfl (by omega) (by simp)
  · intro i q hq hi
    rw [List.getElem?_append_left hi] at hq
    exact hA q (List.mem_of_getElem? hq)
  · intro i q hq hi
    rw [List.getElem?_append_right (by omega), List.getElem?_cons, if_neg (by omega)] at hq
    exact hB q (List.mem_of_getElem? hq)
  · intro q hq
    simp only [List.getElem?_append_right le_rfl, Nat.sub_self, List.getElem?_cons_zero,
      Option.some.injEq] at hq
    subst hq
    exact Or.inl ⟨hp, rfl⟩
  · simp

/-- A miss of the lower search: the insertion position. -/
lemma lowerBy_miss {cmp : ℕ → ℤ} {A B : List ℕ} (hA : ∀ q ∈ A, 0 < cmp q)
    (hB : ∀ q ∈ B, cmp q < 0) : lowerBy cmp (A ++ B) = (A.length, none) := by
  refine lowerLoop_eq ?_ ?_ ?_ (fun _ => rfl) _ _ _ (Nat.zero_le _) (by simp) le_rfl (by omega)
    (fun _ => rfl)
  · intro i q hq hi
    rw [List.getElem?_append_left hi] at hq
    exact hA q (List.mem_of_getElem? hq)
  · intro i q hq hi
    rw [List.getElem?_append_right (by omega)] at hq
    exact hB q (List.mem_of_getElem? hq)
  · intro q hq
    rw [List.getElem?_append_right le_rfl] at hq
    exact Or.inr ⟨hB q (List.mem_of_getElem? hq), rfl⟩

/-- **What a lower search that ends without a hit has found**: the cut between the positions that
compare greater and those that compare smaller. -/
lemma lowerLoop_none {cmp : ℕ → ℤ} {perm : List ℕ}
    (hpos : perm.Pairwise fun p q => 0 < cmp q → 0 < cmp p)
    (hneg : perm.Pairwise fun p q => cmp p < 0 → cmp q < 0) :
    ∀ fuel l r i, l ≤ r → r ≤ perm.length → r ≤ l + fuel →
      (∀ q ∈ perm.take l, 0 < cmp q) → (∀ q ∈ perm.drop r, cmp q < 0) →
      lowerLoop cmp perm fuel l r = (i, none) →
      i ≤ perm.length ∧ (∀ q ∈ perm.take i, 0 < cmp q) ∧ ∀ q ∈ perm.drop i, cmp q < 0
  | 0, l, r, i, hlr, hlen, hf, hl, hr, he => by
      obtain rfl : l = i := by simpa [lowerLoop] using he
      obtain rfl : l = r := by omega
      exact ⟨hlen, hl, hr⟩
  | fuel + 1, l, r, i, hlr, hlen, hf, hl, hr, he => by
      rw [lowerLoop] at he
      split_ifs at he with hlt
      · have hm : (l + r) / 2 < perm.length := by omega
        have hget : perm.getD ((l + r) / 2) 0 = perm[(l + r) / 2] := by
          simp [List.getD_eq_getElem?_getD, hm]
        simp only [hget] at he
        split_ifs at he with h1 h2
        · refine lowerLoop_none hpos hneg fuel l _ i (by omega) (by omega) (by omega) hl ?_ he
          rw [List.drop_eq_getElem_cons hm]
          intro q hq
          rcases List.mem_cons.mp hq with rfl | hq
          · exact h1
          · have hd := hneg.sublist (List.drop_sublist ((l + r) / 2) perm)
            rw [List.drop_eq_getElem_cons hm] at hd
            exact List.rel_of_pairwise_cons hd hq h1
        · cases he
        · refine lowerLoop_none hpos hneg fuel _ r i (by omega) (by omega) (by omega) ?_ hr he
          rw [List.take_succ_eq_append_getElem hm]
          intro q hq
          rcases List.mem_append.mp hq with hq | hq
          · have hd := hpos.sublist (List.take_sublist ((l + r) / 2 + 1) perm)
            rw [List.take_succ_eq_append_getElem hm, List.pairwise_append] at hd
            exact hd.2.2 q hq _ (List.mem_singleton_self _) (by omega)
          · rw [List.mem_singleton.mp hq]
            omega
      · obtain rfl : l = i := by simpa using he
        obtain rfl : l = r := by omega
        exact ⟨hlen, hl, hr⟩

/-- A miss of the lower search, whatever is equal to what. -/
lemma lowerBy_none {cmp : ℕ → ℤ} {perm : List ℕ} {i : ℕ}
    (hpos : perm.Pairwise fun p q => 0 < cmp q → 0 < cmp p)
    (hneg : perm.Pairwise fun p q => cmp p < 0 → cmp q < 0) (he : lowerBy cmp perm = (i, none)) :
    i ≤ perm.length ∧ (∀ q ∈ perm.take i, 0 < cmp q) ∧ ∀ q ∈ perm.drop i, cmp q < 0 :=
  lowerLoop_none hpos hneg _ _ _ i (Nat.zero_le _) le_rfl (by omega) (by simp) (by simp) he

/-- A hit of the lower search, whatever the order. -/
lemma lowerLoop_some {cmp : ℕ → ℤ} {perm : List ℕ} {i p : ℕ} : ∀ fuel l r, r ≤ perm.length →
    lowerLoop cmp perm fuel l r = (i, some p) → perm[i]? = some p ∧ cmp p = 0
  | 0, l, r, _, he => by simp [lowerLoop] at he
  | fuel + 1, l, r, hlen, he => by
      rw [lowerLoop] at he
      split_ifs at he with hlt
      · have hm : (l + r) / 2 < perm.length := by omega
        simp only at he
        split_ifs at he with h1 h2
        · exact lowerLoop_some fuel l _ (by omega) he
        · obtain ⟨rfl, rfl⟩ : (l + r) / 2 = i ∧ perm.getD ((l + r) / 2) 0 = p := by simpa using he
          exact ⟨by simp [List.getD_eq_getElem?_getD, hm], h2⟩
        · exact lowerLoop_some fuel _ r hlen he
      · simp at he

lemma lowerBy_some {cmp : ℕ → ℤ} {perm : List ℕ} {i p : ℕ} (he : lowerBy cmp perm = (i, some p)) :
    perm[i]? = some p ∧ cmp p = 0 :=
  lowerLoop_some _ _ _ le_rfl he

end MasstreeLHM
