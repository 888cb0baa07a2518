import MasstreeLHM.Update
import Mathlib.Data.List.Induction

/-!
# The directories form a tree

As long as no directory is the target of two cells, and the root of none, a directory has one hash
path.  A change of one cell then changes the paths through that cell and no others.

`Tree` is that condition on a table and `Closed` says that cells belong to layers and lead to
layers, which every represented table satisfies (`Represents.closed`).  **`Tree.path_unique`** and
**`Tree.acyclic`** follow from it, both by cutting a path at its last edge (`locate_concat`).

The second part is about a table with one changed cell.  `locate_setCell` keeps the paths that do
not use the cell, `locate_setCell_self` says that the directory of the cell keeps its path, and
`locate_setCell_through` follows a path through the cell into what it holds now.  Every effect of a
call on paths is read off from these three.
-/

namespace MasstreeLHM

namespace Table

/-- Cells belong to layers and lead to layers. -/
structure Closed (T : Table) : Prop where
  root : T.layers T.root
  cell : ∀ {f x c}, T.cell f x = some c → T.layers f
  target : ∀ {f x g}, T.cell f x = some (.directory g) → T.layers g

/-- No directory hangs in two places, and the root in none. -/
structure Tree (T : Table) : Prop where
  unique : ∀ {f x f' x' g}, T.cell f x = some (.directory g) →
    T.cell f' x' = some (.directory g) → f = f' ∧ x = x'
  root : ∀ f x, T.cell f x ≠ some (.directory T.root)

variable {T : Table} {f g : Ptr} {x : ℕ} {xs ys : List ℕ}

@[simp] lemma locate_nil (T : Table) (f : Ptr) : T.locate f [] = some f := rfl

lemma locate_cons (T : Table) (f : Ptr) (x : ℕ) (xs : List ℕ) : T.locate f (x :: xs) =
    match T.cell f x with
    | some (.directory g) => T.locate g xs
    | _ => none := rfl

lemma locate_append (T : Table) (f : Ptr) (xs ys : List ℕ) :
    T.locate f (xs ++ ys) = (T.locate f xs).bind fun g => T.locate g ys := by
  induction xs generalizing f with
  | nil => rfl
  | cons x xs ih =>
      rw [List.cons_append, locate_cons, locate_cons]
      split
      · exact ih _
      · rfl

/-- The last edge of a path. -/
lemma locate_concat (h : T.locate f (xs ++ [x]) = some g) :
    ∃ a, T.locate f xs = some a ∧ T.cell a x = some (.directory g) := by
  rw [locate_append] at h
  obtain ⟨a, h1, h2⟩ := Option.bind_eq_some_iff.mp h
  refine ⟨a, h1, ?_⟩
  rw [locate_cons] at h2
  split at h2
  · next b hb =>
      obtain rfl : b = g := by simpa using h2
      exact hb
  · cases h2

lemma locate_concat_eq (h1 : T.locate f xs = some g) {b : Ptr}
    (h2 : T.cell g x = some (.directory b)) : T.locate f (xs ++ [x]) = some b := by
  rw [locate_append, h1, Option.bind_some, locate_cons, h2]
  rfl

lemma Closed.locate (hC : T.Closed) : ∀ (xs : List ℕ) {f g : Ptr}, T.layers f →
    T.locate f xs = some g → T.layers g
  | [], f, g, hf, h => by
      obtain rfl : f = g := by simpa using h
      exact hf
  | x :: xs, f, g, _, h => by
      rw [locate_cons] at h
      split at h
      · next b hb => exact hC.locate xs (hC.target hb) h
      · cases h

/-- **A directory has one path.** -/
lemma Tree.path_unique (hT : T.Tree) (h1 : T.locate T.root xs = some f)
    (h2 : T.locate T.root ys = some f) : xs = ys := by
  induction xs using List.reverseRecOn generalizing ys f with
  | nil =>
      obtain rfl : T.root = f := by simpa using h1
      rcases List.eq_nil_or_concat ys with rfl | ⟨ys', y, rfl⟩
      · rfl
      · rw [List.concat_eq_append] at h2
        obtain ⟨a, -, h4⟩ := locate_concat h2
        exact absurd h4 (hT.root a y)
  | append_singleton xs x ih =>
      obtain ⟨a, h3, h4⟩ := locate_concat h1
      rcases List.eq_nil_or_concat ys with rfl | ⟨ys', y, rfl⟩
      · obtain rfl : T.root = f := by simpa using h2
        exact absurd h4 (hT.root a x)
      · rw [List.concat_eq_append] at h2 ⊢
        obtain ⟨b, h5, h6⟩ := locate_concat h2
        obtain ⟨rfl, rfl⟩ := hT.unique h4 h6
        rw [ih h3 h5]

/-- **No directory is below itself.** -/
lemma Tree.acyclic (hT : T.Tree) (h1 : T.locate T.root xs = some f)
    (h2 : T.locate f ys = some f) : ys = [] := by
  have h3 : T.locate T.root (xs ++ ys) = some f := by
    rw [locate_append, h1]
    exact h2
  have := hT.path_unique h1 h3
  simpa using this

/-! ## Changing one cell -/

section SetCell

variable {o : Option Content}

lemma setCell_cell (T : Table) (f : Ptr) (x : ℕ) (o : Option Content) (g : Ptr) (y : ℕ) :
    (T.setCell f x o).cell g y = if g = f ∧ y = x then o else T.cell g y := rfl

lemma setCell_same (T : Table) (f : Ptr) (x : ℕ) (o : Option Content) :
    (T.setCell f x o).cell f x = o := if_pos ⟨rfl, rfl⟩

lemma setCell_ne {y : ℕ} (h : ¬ (g = f ∧ y = x)) : (T.setCell f x o).cell g y = T.cell g y :=
  if_neg h

/-- A path that does not use the changed cell. -/
lemma Tree.locate_setCell_aux (hT : T.Tree) (hf : T.locate T.root xs = some f) :
    ∀ (ys zs : List ℕ) {a : Ptr}, T.locate T.root zs = some a → ¬ xs ++ [x] <+: zs ++ ys →
      (T.setCell f x o).locate a ys = T.locate a ys
  | [], _, _, _, _ => rfl
  | y :: ys, zs, a, ha, hno => by
      rw [locate_cons, locate_cons, setCell_ne]
      · cases hc : T.cell a y with
        | none => rfl
        | some c =>
            cases c with
            | value v => rfl
            | directory b =>
                exact hT.locate_setCell_aux hf ys (zs ++ [y]) (locate_concat_eq ha hc)
                  (by simpa using hno)
      · rintro ⟨rfl, rfl⟩
        obtain rfl := hT.path_unique hf ha
        exact hno ⟨ys, by simp⟩

lemma Tree.locate_setCell (hT : T.Tree) (hf : T.locate T.root xs = some f)
    (hno : ¬ xs ++ [x] <+: ys) : (T.setCell f x o).locate T.root ys = T.locate T.root ys :=
  hT.locate_setCell_aux hf ys [] rfl hno

/-- The parent of the changed cell keeps its path. -/
lemma Tree.locate_setCell_self (hT : T.Tree) (hf : T.locate T.root xs = some f) :
    (T.setCell f x o).locate T.root xs = some f := by
  have hno : ¬ xs ++ [x] <+: xs := fun h0 => absurd h0.length_le (by simp)
  rw [hT.locate_setCell hf hno, hf]

/-- A path through the changed cell. -/
lemma Tree.locate_setCell_through (hT : T.Tree) (hf : T.locate T.root xs = some f) (zs : List ℕ) :
    (T.setCell f x o).locate T.root (xs ++ x :: zs) =
      match o with
      | some (.directory g) => (T.setCell f x o).locate g zs
      | _ => none := by
  rw [locate_append, hT.locate_setCell_self hf, Option.bind_some, locate_cons, setCell_same]

end SetCell

end Table

/-- The table of a state is closed. -/
lemma Represents.closed {s : LhmNamespace} {G : Ghost} {T : Table} (hR : Represents s G T) :
    T.Closed :=
  ⟨hR.layers_root, hR.layers_of_cell, fun h => hR.target _ _ _ h⟩

end MasstreeLHM
