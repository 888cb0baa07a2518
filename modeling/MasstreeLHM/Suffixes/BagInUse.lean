import MasstreeLHM.Suffixes.LeafArea

/-!
# Which bag is in use

The sign of `extrasize64_` and the pointer to the external bag agree on which bag has the suffixes,
so a leaf with its fields does what the two bags alone do.

The first test of `assign_ksuf` reads the sign; every other function reads the pointer.  `Signed`
says that the two agree: the field is negative once there is an external bag, and until then
positive if there is an internal one.  It holds of a new leaf (`New`), and **`assignKsuf_store`**
keeps it and says that `assign_ksuf` with all the fields of a leaf is `SuffixStore.assignKsuf` on
its bags.  `assignInitialize_store` is the same for `assign_initialize` at one position after
another.

So what has been proved of the bags holds of leaves as they are in memory, and no result about
suffixes has to look at a sign.
-/

namespace MasstreeLHM.LeafArea

variable {leafSize width : ℕ} {a a' : LeafArea}

/-- The area of a new leaf. -/
inductive New (leafSize width : ℕ) : LeafArea → Prop
  | make {size : ℕ} {a : LeafArea} (ksufsize : ℕ) (h : LeafArea.make leafSize width ksufsize =
      some (size, a)) :
      New leafSize width a
  | makeRootWithMeta {size : ℕ} {a : LeafArea} (ksufsize : ℕ)
      (h : LeafArea.makeRootWithMeta leafSize width ksufsize = some (size, a)) :
      New leafSize width a
  | cloneRootWithMeta {size₀ size : ℕ} {m : Bool} {src a : LeafArea}
      (hs : Made leafSize width size₀ m src) (h : LeafArea.cloneRootWithMeta leafSize width src =
        some (size, a)) : New leafSize width a

/-- `extrasize64_` is negative once there is an external bag, and until then positive if there is an
internal one. -/
structure Signed (a : LeafArea) : Prop where
  range : -128 ≤ a.extrasize64 ∧ a.extrasize64 < 128
  external : a.ksuf.isSome → a.extrasize64 < 0
  internal : a.ksuf = none → (0 < a.extrasize64 ↔ a.iksuf.isSome)

/-- The first test of `assign_ksuf` asks the bag in use. -/
lemma assignInPlace_store (ha : a.Signed) (p : ℕ) (s : Bytes) :
    (a.assignInPlace p s).map LeafArea.toSuffixStore = a.toSuffixStore.assign p s ∧
      ∀ a', a.assignInPlace p s = some a' → a'.Signed := by
  rw [assignInPlace, SuffixStore.assign]
  cases hk : a.ksuf with
  | some b =>
      have hneg := ha.external (by rw [hk]; rfl)
      simp only [Option.bind_some]
      cases hb : b.assign p s with
      | some b' =>
          refine ⟨rfl, fun a' h => ?_⟩
          cases h
          exact ⟨ha.range, fun _ => hneg, fun h => by cases h⟩
      | none =>
          simp only [if_neg (show ¬ 0 < a.extrasize64 by omega)]
          exact ⟨rfl, fun a' h => by cases h⟩
  | none =>
      simp only [Option.bind_none]
      have hint := ha.internal hk
      cases hi : a.iksuf with
      | none =>
          rw [hi] at hint
          simp only [if_neg (fun h => by simpa using hint.mp h)]
          exact ⟨rfl, fun a' h => by cases h⟩
      | some b =>
          rw [hi] at hint
          simp only [if_pos (hint.mpr rfl), Option.bind_some]
          cases hb : b.assign p s with
          | none => exact ⟨rfl, fun a' h => by cases h⟩
          | some b' =>
              refine ⟨by simp, fun a' h => ?_⟩
              cases h
              exact ⟨ha.range, (fun h => by cases h), fun _ => iff_of_true (hint.mpr rfl) rfl⟩

/-- **`assign_ksuf`** of a leaf is that of its bags. -/
lemma assignKsuf_store (ha : a.Signed) (width : ℕ) (active : List ℕ) (hasKsuf : ℕ → Bool)
    (p : ℕ) (s : Bytes) :
    (a.assignKsuf width active hasKsuf p s).map LeafArea.toSuffixStore
        = a.toSuffixStore.assignKsuf width active hasKsuf .insert p s ∧
      ∀ a', a.assignKsuf width active hasKsuf p s = some a' → a'.Signed := by
  obtain ⟨h1, h2⟩ := assignInPlace_store ha p s
  rw [assignKsuf, SuffixStore.assignKsuf, ← h1]
  cases hin : a.assignInPlace p s with
  | some a₁ => exact ⟨rfl, fun a' h => by cases h; exact h2 a₁ hin⟩
  | none =>
      simp only [Option.map_none, reduceCtorEq, if_false]
      refine ⟨?_, fun a' h => ?_⟩
      · cases a.grow width (active.filter fun q => q != p && hasKsuf q) p s <;> rfl
      · obtain ⟨st, hst, rfl⟩ := Option.map_eq_some_iff.mp h
        have hrange := ha.range
        have hneg : (if 0 ≤ a.extrasize64 then int8 (-a.extrasize64 - 1) else a.extrasize64) < 0 ∧
            -128 ≤ if 0 ≤ a.extrasize64 then int8 (-a.extrasize64 - 1) else a.extrasize64 := by
          split_ifs with h0
          · rw [int8_eq (by omega) (by omega)]
            omega
          · omega
        have hsome := (SuffixStore.grow_iksuf hst).2
        refine ⟨⟨hneg.2, hneg.1.trans (by decide)⟩, fun _ => hneg.1, fun h0 => ?_⟩
        change st.ksuf = none at h0
        rw [h0] at hsome
        cases hsome

/-- `assign_initialize` at one position after another. -/
def assignInitialize (width : ℕ) (a : LeafArea) (suffixes : List (Option Bytes)) :
    Option LeafArea :=
  (List.range suffixes.length).foldlM (fun a p =>
    match suffixes.getD p none with
    | none => some a
    | some s => a.assignKsuf width (List.range p) (fun q => (suffixes.getD q none).isSome) p s) a

lemma assignInitialize_store (ha : a.Signed) (suffixes : List (Option Bytes)) :
    (a.assignInitialize width suffixes).map LeafArea.toSuffixStore
        = a.toSuffixStore.assignInitialize width suffixes ∧
      ∀ a', a.assignInitialize width suffixes = some a' → a'.Signed := by
  rw [assignInitialize, SuffixStore.assignInitialize]
  induction List.range suffixes.length generalizing a with
  | nil => exact ⟨rfl, fun a' h => by cases h; exact ha⟩
  | cons p ps ih =>
      simp only [List.foldlM_cons, Option.bind_eq_bind]
      cases suffixes.getD p none with
      | none => exact ih ha
      | some s =>
          obtain ⟨h1, h2⟩ := assignKsuf_store ha width (List.range p)
            (fun q => (suffixes.getD q none).isSome) p s
          simp only [← h1]
          cases hs :
            a.assignKsuf width (List.range p) (fun q => (suffixes.getD q none).isSome) p s with
          | none => exact ⟨rfl, fun a' h => by cases h⟩
          | some a₁ => exact ih (h2 a₁ hs)

/-! ## New leaves -/

lemma New.construct (h : New leafSize width a) : ∃ i t, (leafSize ≤ i ∧ i < leafSize + 192) ∧
    LeafArea.construct leafSize width i t = some a := by
  cases h with
  | make ksufsize h =>
      obtain ⟨a, h, h'⟩ := Option.map_eq_some_iff.mp h
      cases h'
      obtain ⟨h1, h2, -⟩ := SuffixStore.iceil_spec (leafSize + min ksufsize 128)
      exact ⟨_, _, by omega, h⟩
  | makeRootWithMeta ksufsize h =>
      obtain ⟨a, h, h'⟩ := Option.map_eq_some_iff.mp h
      cases h'
      obtain ⟨h1, h2, -⟩ := SuffixStore.iceil_spec (leafSize + min ksufsize 128)
      exact ⟨_, _, by omega, h⟩
  | cloneRootWithMeta hs h =>
      obtain ⟨a, h, h'⟩ := Option.map_eq_some_iff.mp h
      cases h'
      obtain ⟨i, hi⟩ := hs.sized
      rw [hi.internalSz_eq] at h
      exact ⟨_, _, hi.body, h⟩

/-- **A new leaf** has its bags in order. -/
lemma New.ok (h : New leafSize width a) (hw : width ≤ 15) :
    a.Signed ∧ a.toSuffixStore.Ok width := by
  obtain ⟨i, t, hi, h⟩ := h.construct
  have hrange : ∀ x : ℤ, -128 ≤ int8 x ∧ int8 x < 128 := fun x =>
    ⟨by have := Int.le_bmod (x := x) (m := 256) (by decide); rw [int8]; omega,
      by have := Int.bmod_lt (x := x) (m := 256) (by decide); rw [int8]; omega⟩
  simp only [LeafArea.construct] at h
  split_ifs at h with h1 h2
  · obtain ⟨b, hb, rfl⟩ := Option.map_eq_some_iff.mp h
    have hover : Stringbag.overhead 1 width ≤ 32 := by
      simp only [Stringbag.overhead]
      omega
    obtain ⟨h3, h4⟩ : i - leafSize < 256 ∧ 0 < i - leafSize := by
      refine ⟨by omega, Nat.pos_of_ne_zero fun h0 => ?_⟩
      rw [h0, Stringbag.make] at hb
      split_ifs at hb with h5
      have := h5.1
      rw [Stringbag.overhead] at this
      omega
    obtain ⟨g1, g2, -, -⟩ := Stringbag.make_sound hb h4 (by omega)
    refine ⟨⟨hrange _, (fun h => by cases h), fun _ => iff_of_true h2 rfl⟩, ?_,
      (fun b hb => by cases hb)⟩
    rintro _ ⟨⟩
    exact g1.ok (by omega)
  · cases h
    exact ⟨⟨hrange _, (fun h => by cases h), fun _ => iff_of_false h2 (fun h => by cases h)⟩,
      (fun b hb => by cases hb), fun b hb => by cases hb⟩

end MasstreeLHM.LeafArea
