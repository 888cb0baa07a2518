import Mathlib.Data.List.Pairwise
import Mathlib.Data.Set.Basic
import Mathlib.Order.Basic

/-!
# Maps in the order of their keys

What a map holds at a set of keys, as a list in the order of the keys.  Lists of parts that lie one
behind the other are put together, and a visitor who has seen enough gets a beginning of the list.

`Enumerates` has the two halves of that: the list is sorted strictly by its keys, and a pair is in
it exactly if the key is in the set and the map has the value there.  `Enumerates.nil` and
`Enumerates.single` are the lists of small sets, and **`Enumerates.append`** joins two parts if all
keys of the second are behind all keys of the first.  `Enumerates.congr` changes the map elsewhere.

`visit` is a visitor who stops by what it has been shown so far, as a scan with a count does.  Keys
may be of any type with a `<`; it is the lists that are sorted.
-/

namespace MasstreeLHM.Trie

variable {α K V : Type}

/-- `L` is what the map `m` holds at the keys of `A`, in order. -/
structure Enumerates [LT K] (m : K → Option V) (A : Set K) (L : List (K × V)) : Prop where
  sorted : L.Pairwise fun a b => a.1 < b.1
  mem : ∀ k v, (k, v) ∈ L ↔ k ∈ A ∧ m k = some v

/-- The elements behind `done`, as long as `more` holds of all that have been seen. -/
def visit (more : List α → Bool) : List α → List α → List α
  | done, [] => done
  | done, x :: xs => if more (done ++ [x]) then visit more (done ++ [x]) xs else done ++ [x]

/-- A visitor who always goes on gets all of them. -/
lemma visit_true : ∀ done xs : List α, visit (fun _ => true) done xs = done ++ xs
  | done, [] => by rw [visit, List.append_nil]
  | done, x :: xs => by rw [visit, if_pos rfl, visit_true, List.append_assoc, List.singleton_append]

namespace Enumerates

variable [LT K] {m : K → Option V} {A B : Set K} {L L' : List (K × V)} {k : K} {v : V}

lemma nil (h : ∀ k ∈ A, m k = none) : Enumerates m A [] := by
  refine ⟨.nil, fun k v => ⟨by simp, ?_⟩⟩
  rintro ⟨h1, h2⟩
  rw [h k h1] at h2
  cases h2

lemma single (hk : k ∈ A) (hv : m k = some v) (h : ∀ a ∈ A, a ≠ k → m a = none) :
    Enumerates m A [(k, v)] := by
  refine ⟨List.pairwise_singleton _ _, fun a w => ?_⟩
  rw [List.mem_singleton, Prod.mk.injEq]
  constructor
  · rintro ⟨rfl, rfl⟩
    exact ⟨hk, hv⟩
  · rintro ⟨h1, h2⟩
    by_cases h0 : a = k
    · rw [h0, hv, Option.some.injEq] at h2
      exact ⟨h0, h2.symm⟩
    · rw [h a h1 h0] at h2
      cases h2

/-- A single key is the only one of the map. -/
lemma eq_of_mem {a : K} (h : Enumerates m A [(k, v)]) (ha : m a ≠ none) (hA : a ∈ A) : a = k := by
  obtain ⟨w, hw⟩ := Option.ne_none_iff_exists'.mp ha
  exact (Prod.mk.inj (List.mem_singleton.mp ((h.mem a w).mpr ⟨hA, hw⟩))).1

/-- Only keys of the map matter. -/
lemma congr (hL : Enumerates m A L) (h : ∀ k, m k ≠ none → (k ∈ B ↔ k ∈ A)) : Enumerates m B L := by
  refine ⟨hL.sorted, fun k v => ?_⟩
  rw [hL.mem]
  exact and_congr_left fun hv => (h k (by simp [hv])).symm

/-- **Two parts**, all of the second behind the first. -/
lemma append (hL : Enumerates m A L) (hL' : Enumerates m B L') (h : ∀ a ∈ A, ∀ b ∈ B, a < b) :
    Enumerates m (A ∪ B) (L ++ L') := by
  refine ⟨List.pairwise_append.mpr ⟨hL.sorted, hL'.sorted, ?_⟩, fun k v => ?_⟩
  · rintro ⟨a, v⟩ ha ⟨b, w⟩ hb
    exact h a ((hL.mem a v).mp ha).1 b ((hL'.mem b w).mp hb).1
  · rw [List.mem_append, hL.mem, hL'.mem, Set.mem_union]
    exact or_and_right.symm

end Enumerates

end MasstreeLHM.Trie
