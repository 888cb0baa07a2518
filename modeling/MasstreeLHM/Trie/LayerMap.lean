import Mathlib.Data.Nat.Notation
import Mathlib.Logic.Function.Basic
import Mathlib.Order.Basic
import Mathlib.Tactic.Set

/-!
# Tries of layers

A trie whose nodes are maps.  A key is cut into the cell that it has in a layer and what is left of
it; the cell holds a value with the rest of its key, or the next layer.  Together the layers are one
map from keys to values, and each change of a cell is a change of that map at one key, or none at
all.

`get` is the map, by recursion on the size of the key, and `Leads` is the path of a key through the
layers.  `IsTree` says that every layer hangs in one cell; then a layer is reached on one path
(**`leads_inj`**), and a changed cell is seen by the keys on that path only.

**`get_set`** writes or removes a value, `get_set_none_of_empty` removes an empty layer, and
`get_graft` replaces a value by a layer that has it.  **`place_spec`** parts two keys with any
number of cells in common: the value moves into new layers, one for each such cell, and no lookup
changes.
-/

namespace MasstreeLHM.Trie

/-- How keys are cut: a key is determined by its cell and its rest, and the rest is smaller. -/
structure Cut (K C : Type) where
  cell : K → C
  rest : K → Option K
  size : K → ℕ
  size_rest : ∀ {a b : K}, rest a = some b → size b < size a
  ext : ∀ {a b : K}, cell a = cell b → rest a = rest b → a = b

/-- What a cell holds: a value with the rest of its key, or a layer. -/
inductive Item (K V L : Type) where
  | value (rest : Option K) (v : V)
  | layer (g : L)

/-- The cells of all layers. -/
abbrev LayerMap (K C V L : Type) := L → C → Option (Item K V L)

variable {K C V L : Type} (X : Cut K C)

/-- The value of a key that is looked up from layer `l`. -/
def get [DecidableEq K] (M : LayerMap K C V L) (l : L) (k : K) : Option V :=
  match M l (X.cell k) with
  | none => none
  | some (.value r v) => if r = X.rest k then some v else none
  | some (.layer g) =>
      match _h : X.rest k with
      | none => none
      | some k' => get M g k'
termination_by X.size k
decreasing_by exact X.size_rest _h

/-- The key `k`, looked up from layer `r`, gets to layer `l` with `k'` left. -/
inductive Leads (M : LayerMap K C V L) (r : L) (k : K) : L → K → Prop
  | refl : Leads M r k r k
  | step {l g : L} {k' k'' : K} (h : Leads M r k l k') (hl : M l (X.cell k') = some (.layer g))
      (hr : X.rest k' = some k'') : Leads M r k g k''

/-- Every layer hangs in one cell, and the layer `r` in none. -/
structure IsTree (M : LayerMap K C V L) (r : L) : Prop where
  root : ∀ l c, M l c ≠ some (.layer r)
  inj : ∀ {l l' c c' g}, M l c = some (.layer g) → M l' c' = some (.layer g) → l = l' ∧ c = c'

/-- One cell is overwritten. -/
def set [DecidableEq L] [DecidableEq C] (M : LayerMap K C V L) (l : L) (c : C)
    (i : Option (Item K V L)) :
    LayerMap K C V L :=
  fun l' c' => if l' = l ∧ c' = c then i else M l' c'

/-- Layer `l` has one key. -/
def Single [DecidableEq K] (M : LayerMap K C V L) (l : L) (k : K) (v : V) : Prop :=
  ∀ k', get X M l k' = if k' = k then some v else none

variable {X} {M M' : LayerMap K C V L} {r l g : L} {k k' : K} {c : C}

/-! ## One layer -/

section

variable [DecidableEq K]

lemma get_of_none (h : M l (X.cell k) = none) : get X M l k = none := by
  rw [get, h]

lemma get_of_value {o : Option K} {v : V} (h : M l (X.cell k) = some (.value o v)) :
    get X M l k = if o = X.rest k then some v else none := by
  rw [get, h]

lemma get_of_layer (h : M l (X.cell k) = some (.layer g)) :
    get X M l k = (X.rest k).bind (get X M g) := by
  rw [get, h]
  cases hr : X.rest k with
  | none => split <;> simp_all
  | some k' => split <;> simp_all

lemma get_of_empty (h : ∀ d, M l d = none) : get X M l k = none := get_of_none (h _)

/-- A layer with one value. -/
lemma Single.value {v : V} (hk : M l (X.cell k) = some (.value (X.rest k) v))
    (hno : ∀ d, d ≠ X.cell k → M l d = none) : Single X M l k v := by
  intro k'
  by_cases hc : X.cell k' = X.cell k
  · rw [get_of_value (hc ▸ hk)]
    exact if_congr ⟨fun h => X.ext hc h.symm, fun h => h ▸ rfl⟩ rfl rfl
  · rw [get_of_none (hno _ hc), if_neg (fun h => hc (congrArg X.cell h))]

/-- A layer with one cell, which leads to such a layer. -/
lemma Single.layer {v : V} (hk : M l (X.cell k) = some (.layer g))
    (hno : ∀ d, d ≠ X.cell k → M l d = none) (hr : X.rest k = some k') (hs : Single X M g k' v) :
    Single X M l k v := by
  intro k₁
  by_cases hc : X.cell k₁ = X.cell k
  · rw [get_of_layer (hc ▸ hk)]
    cases hr₁ : X.rest k₁ with
    | none =>
        rw [Option.bind_none, if_neg]
        rintro rfl
        rw [hr] at hr₁
        cases hr₁
    | some k₁' =>
        rw [Option.bind_some, hs]
        refine if_congr ⟨fun h => X.ext hc (by rw [hr₁, hr, h]), fun h => ?_⟩ rfl rfl
        rw [h, hr, Option.some.injEq] at hr₁
        exact hr₁.symm
  · rw [get_of_none (hno _ hc), if_neg (fun h => hc (congrArg X.cell h))]

end

/-! ## Along a path -/

namespace Leads

/-- A step in front. -/
lemma cons {k₁ : K} (hl : M r (X.cell k) = some (.layer g)) (hr : X.rest k = some k₁)
    (h : Leads X M g k₁ l k') : Leads X M r k l k' := by
  induction h with
  | refl => exact .step .refl hl hr
  | step _ h1 h2 ih => exact .step ih h1 h2

lemma mono (hM : ∀ l c g, M l c = some (.layer g) → M' l c = some (.layer g))
    (h : Leads X M r k l k') :
    Leads X M' r k l k' := by
  induction h with
  | refl => exact .refl
  | step _ h1 h2 ih => exact .step ih (hM _ _ _ h1) h2

lemma trans {l₁ : L} {k₁ : K} (h : Leads X M r k l k') (h' : Leads X M l k' l₁ k₁) :
    Leads X M r k l₁ k₁ := by
  induction h' with
  | refl => exact h
  | step _ h1 h2 ih => exact .step ih h1 h2

/-- The rest of a key is not larger. -/
lemma size_le (h : Leads X M r k l k') : X.size k' ≤ X.size k := by
  induction h with
  | refl => exact Nat.le_refl _
  | step _ _ h2 ih => exact Nat.le_trans (Nat.le_of_lt (X.size_rest h2)) ih

variable [DecidableEq K]

lemma get_eq (h : Leads X M r k l k') : get X M r k = get X M l k' := by
  induction h with
  | refl => rfl
  | step _ h1 h2 ih => rw [ih, get_of_layer h1, h2, Option.bind_some]

end Leads

/-- **A lookup reads the cells on its path.** -/
lemma get_congr [DecidableEq K] {r : L} {k : K} (h : ∀ l k', Leads X M r k l k' →
    M' l (X.cell k') = M l (X.cell k')) :
    get X M' r k = get X M r k := by
  have h0 := h r k .refl
  cases hi : M r (X.cell k) with
  | none => rw [get_of_none hi, get_of_none (h0.trans hi)]
  | some i =>
      cases i with
      | value o v => rw [get_of_value hi, get_of_value (h0.trans hi)]
      | layer g =>
          rw [get_of_layer hi, get_of_layer (h0.trans hi)]
          cases hr : X.rest k with
          | none => rfl
          | some k' =>
              have := X.size_rest hr
              exact get_congr fun l k'' hl => h l k'' (.cons hi hr hl)
termination_by X.size k

namespace IsTree

lemma mono (hT : IsTree M r) (hM : ∀ l c g, M' l c = some (.layer g) → M l c = some (.layer g)) :
    IsTree M' r :=
  ⟨fun l c h => hT.root l c (hM _ _ _ h), fun h h' => hT.inj (hM _ _ _ h) (hM _ _ _ h')⟩

/-- **A layer is reached on one path.** -/
lemma leads_inj (hT : IsTree M r) {a b : K} (ha : Leads X M r a l k) (hb : Leads X M r b l k) :
    a = b := by
  induction ha generalizing b with
  | refl =>
      cases hb with
      | refl => rfl
      | step _ h1 _ => exact absurd h1 (hT.root _ _)
  | step _ h1 h2 ih =>
      cases hb with
      | refl => exact absurd h1 (hT.root _ _)
      | step h h1' h2' =>
          obtain ⟨rfl, hc⟩ := hT.inj h1 h1'
          rw [X.ext hc (h2.trans h2'.symm)] at ih
          exact ih h

/-- A layer that is reached does not hang in itself. -/
lemma ne_of_leads (hT : IsTree M r) (h : Leads X M r k l k') (hl : M l c = some (.layer g)) :
    g ≠ l := by
  rintro rfl
  induction h generalizing c with
  | refl => exact hT.root _ _ hl
  | step _ h1 _ ih =>
      obtain ⟨rfl, -⟩ := hT.inj hl h1
      exact ih h1

end IsTree

/-! ## Changing a cell -/

section Set

variable [DecidableEq L] [DecidableEq C] {i : Option (Item K V L)}

@[simp] lemma set_self : set M l c i l c = i := if_pos ⟨rfl, rfl⟩

lemma set_of_ne {l' : L} {c' : C} (h : ¬ (l' = l ∧ c' = c)) : set M l c i l' c' = M l' c' :=
  if_neg h

lemma set_eq_self (h : M l c = i) : set M l c i = M := by
  funext l' c'
  by_cases h0 : l' = l ∧ c' = c
  · rw [h0.1, h0.2, set_self, h]
  · exact set_of_ne h0

/-- Values may come and go. -/
lemma IsTree.set (hT : IsTree M r) (hi : ∀ g, i ≠ some (.layer g)) : IsTree (set M l c i) r := by
  refine hT.mono fun l' c' g h => ?_
  by_cases h0 : l' = l ∧ c' = c
  · rw [h0.1, h0.2, set_self] at h
    exact absurd h (hi g)
  · rwa [set_of_ne h0] at h

variable [DecidableEq K]

/-- **Writing or removing the value of a key** where a lookup of it ends. -/
lemma get_set (hT : IsTree M r) (hk : Leads X M r k l k') (o : Option V)
    (hold : M l (X.cell k') = none ∨ ∃ v, M l (X.cell k') = some (.value (X.rest k') v)) :
    get X (set M l (X.cell k') (o.map (.value (X.rest k')))) r = Function.update
    (get X M r) k o := by
  set M' := Trie.set M l (X.cell k') (o.map (.value (X.rest k'))) with hM'
  -- paths are what they were
  have hmono : ∀ l₁ c g, M l₁ c = some (.layer g) → M' l₁ c = some (.layer g) := by
    intro l₁ c g h
    rw [hM', set_of_ne, h]
    rintro ⟨rfl, rfl⟩
    rcases hold with h0 | ⟨v, h0⟩ <;> simp [h0] at h
  have hnew : M' l (X.cell k') = o.map (.value (X.rest k')) := set_self
  funext k₁
  by_cases hk₁ : k₁ = k
  · subst hk₁
    rw [Function.update_self, (hk.mono hmono).get_eq]
    cases o with
    | none => exact get_of_none hnew
    | some v => rw [get_of_value hnew, if_pos rfl]
  · rw [Function.update_of_ne hk₁]
    by_cases hpath : ∃ k₁', Leads X M r k₁ l k₁' ∧ X.cell k₁' = X.cell k'
    · -- another key of the same cell has another rest
      obtain ⟨k₁', h1, hc⟩ := hpath
      have hrest : X.rest k' ≠ X.rest k₁' := fun h => hk₁ (by
        rw [X.ext hc h.symm] at h1
        exact hT.leads_inj h1 hk)
      rw [h1.get_eq, (h1.mono hmono).get_eq]
      have hno : get X M l k₁' = none := by
        rcases hold with h0 | ⟨v, h0⟩
        · exact get_of_none (hc ▸ h0)
        · rw [get_of_value (hc ▸ h0), if_neg hrest]
      rw [hno]
      cases o with
      | none => exact get_of_none (hc ▸ hnew)
      | some v => rw [get_of_value (hc ▸ hnew), if_neg hrest]
    · refine get_congr fun l₁ k₂ h => set_of_ne ?_
      rintro ⟨rfl, h0⟩
      exact hpath ⟨k₂, h, h0⟩

/-- **Removing an empty layer.** -/
lemma get_set_none_of_empty (hl : M l c = some (.layer g)) (hg : ∀ d, M g d = none)
    (r : L) (k : K) :
    get X (set M l c none) r k = get X M r k := by
  by_cases h0 : r = l ∧ X.cell k = c
  · obtain ⟨rfl, rfl⟩ := h0
    rw [get_of_none set_self, get_of_layer hl]
    cases X.rest k with
    | none => rfl
    | some k' => exact (get_of_empty hg).symm
  · have hsame : set M l c none r (X.cell k) = M r (X.cell k) := set_of_ne h0
    cases hi : M r (X.cell k) with
    | none => rw [get_of_none hi, get_of_none (hsame.trans hi)]
    | some i =>
        cases i with
        | value o v => rw [get_of_value hi, get_of_value (hsame.trans hi)]
        | layer g' =>
            rw [get_of_layer hi, get_of_layer (hsame.trans hi)]
            cases hr : X.rest k with
            | none => rfl
            | some k' =>
                have := X.size_rest hr
                exact get_set_none_of_empty hl hg g' k'
termination_by X.size k

end Set

/-- **A value makes way for a layer that has it.**  `old` are the layers that there were. -/
lemma get_graft [DecidableEq K] {old : L → Prop} {r : L} {k₀ : K} {v : V}
    (hclosed : ∀ l c g, old l → M l c = some (.layer g) → old g)
    (hsame : ∀ l' c', old l' → ¬ (l' = l ∧ c' = c) → M' l' c' = M l' c')
    (hold : M l c = some (.value (some k₀) v)) (hnew : M' l c = some (.layer g))
    (hs : Single X M' g k₀ v) (hr : old r) (k : K) : get X M' r k = get X M r k := by
  by_cases h0 : r = l ∧ X.cell k = c
  · obtain ⟨rfl, rfl⟩ := h0
    rw [get_of_layer hnew, get_of_value hold]
    cases X.rest k with
    | none => rfl
    | some k' =>
        rw [Option.bind_some, hs]
        exact if_congr ⟨fun h => congrArg some h.symm, fun h => (Option.some.inj h).symm⟩ rfl rfl
  · have h1 := hsame r (X.cell k) hr h0
    cases hi : M r (X.cell k) with
    | none => rw [get_of_none hi, get_of_none (h1.trans hi)]
    | some i =>
        cases i with
        | value o w => rw [get_of_value hi, get_of_value (h1.trans hi)]
        | layer g' =>
            rw [get_of_layer hi, get_of_layer (h1.trans hi)]
            cases hrk : X.rest k with
            | none => rfl
            | some k' =>
                have := X.size_rest hrk
                exact get_graft hclosed hsame hold hnew hs (hclosed _ _ _ hr hi) k'
termination_by X.size k

/-! ## Parting two keys

A cell has the value of one key when another key with the same cell arrives: new layers take them as
far as their cells are the same.
-/

section Place

variable [DecidableEq L] [DecidableEq C] {v : V} {gs : List L} {a b a' b' : K}

variable (X) in
/-- The value of `a` is put behind layer `l`, one layer further for each of `gs`. -/
def place (v : V) : List L → LayerMap K C V L → L → K → LayerMap K C V L
  | [], M, l, a => set M l (X.cell a) (some (.value (X.rest a) v))
  | g :: gs, M, l, a =>
      match X.rest a with
      | none => M
      | some a' => place v gs (set M l (X.cell a) (some (.layer g))) g a'

variable (X) in
/-- Two keys have `n` cells in common, and `a'` and `b'` are left. -/
inductive Shares : ℕ → K → K → K → K → Prop
  | zero (a b : K) : Shares 0 a b a b
  | succ {n : ℕ} {a b a₁ b₁ a' b' : K} (hc : X.cell a = X.cell b) (ha : X.rest a = some a₁)
      (hb : X.rest b = some b₁) (h : Shares n a₁ b₁ a' b') : Shares (n + 1) a b a' b'

/-- Layers that are not in use yet. -/
structure Fresh (M : LayerMap K C V L) (r : L) (gs : List L) : Prop where
  nodup : gs.Nodup
  ne_root : ∀ g ∈ gs, g ≠ r
  empty : ∀ g ∈ gs, ∀ c, M g c = none
  unused : ∀ g ∈ gs, ∀ l c, M l c ≠ some (.layer g)

namespace Fresh

/-- The first of them comes into use. -/
lemma tail (h : Fresh M r (g :: gs)) (hl : l ∉ gs) : Fresh (set M l c (some (.layer g))) r gs := by
  have hne : ∀ g' ∈ gs, g ≠ g' := fun g' hg' h0 => (List.nodup_cons.mp h.nodup).1 (h0 ▸ hg')
  refine ⟨(List.nodup_cons.mp h.nodup).2, fun g' hg' => h.ne_root g' (List.mem_cons_of_mem _ hg'),
    ?_, ?_⟩
  · intro g' hg' c'
    have hgl : g' ≠ l := fun h0 => hl (h0 ▸ hg')
    rw [set_of_ne (fun h0 => hgl h0.1)]
    exact h.empty g' (List.mem_cons_of_mem _ hg') c'
  · intro g' hg' l' c' h0
    by_cases h1 : l' = l ∧ c' = c
    · rw [h1.1, h1.2, set_self, Option.some.injEq, Item.layer.injEq] at h0
      exact hne g' hg' h0
    · rw [set_of_ne h1] at h0
      exact h.unused g' (List.mem_cons_of_mem _ hg') l' c' h0

omit [DecidableEq L] [DecidableEq C] in
lemma head_notMem (h : Fresh M r (g :: gs)) : g ∉ gs := (List.nodup_cons.mp h.nodup).1

omit [DecidableEq L] [DecidableEq C] in
/-- A layer in use is none of them. -/
lemma notMem (h : Fresh M r gs) (hl : M l c ≠ none) : l ∉ gs := fun h0 => hl (h.empty l h0 c)

end Fresh

/-- A new layer may hang anywhere. -/
lemma IsTree.set_layer (hT : IsTree M r) (hg : ∀ l c, M l c ≠ some (.layer g)) (hr : g ≠ r) :
    IsTree (Trie.set M l c (some (.layer g))) r := by
  have hcase : ∀ {l' c' g'}, Trie.set M l c (some (.layer g)) l' c' = some (.layer g') →
      (l' = l ∧ c' = c ∧ g' = g) ∨ M l' c' = some (.layer g') := by
    intro l' c' g' h
    by_cases h0 : l' = l ∧ c' = c
    · rw [h0.1, h0.2, set_self] at h
      cases h
      exact Or.inl ⟨h0.1, h0.2, rfl⟩
    · exact Or.inr (by rwa [set_of_ne h0] at h)
  refine ⟨fun l' c' h => ?_, fun {l₁ l₂ c₁ c₂ g'} h₁ h₂ => ?_⟩
  · rcases hcase h with ⟨-, -, rfl⟩ | h
    · exact hr rfl
    · exact hT.root _ _ h
  · rcases hcase h₁ with ⟨e1, e2, e3⟩ | h₁ <;> rcases hcase h₂ with ⟨f1, f2, f3⟩ | h₂
    · exact ⟨e1.trans f1.symm, e2.trans f2.symm⟩
    · exact absurd (e3 ▸ h₂) (hg _ _)
    · exact absurd (f3 ▸ h₁) (hg _ _)
    · exact hT.inj h₁ h₂

lemma IsTree.place (hT : IsTree M r) (hf : Fresh M r gs) (hl : l ∉ gs) :
    IsTree (Trie.place X v gs M l a) r := by
  induction gs generalizing M l a with
  | nil => exact hT.set (by simp)
  | cons g gs ih =>
      rw [Trie.place]
      cases X.rest a with
      | none => exact hT
      | some a' =>
          have hl' : l ∉ gs := fun h0 => hl (List.mem_cons_of_mem _ h0)
          exact ih (hT.set_layer (hf.unused g List.mem_cons_self) (hf.ne_root g List.mem_cons_self))
            (hf.tail hl')
            hf.head_notMem

/-- The other cells of the old layers are left alone. -/
lemma place_of_ne {l' : L} (hl' : l' ∉ gs) (h : ¬ (l' = l ∧ c = X.cell a)) :
    place X v gs M l a l' c = M l' c := by
  induction gs generalizing M l a with
  | nil => exact set_of_ne h
  | cons g gs ih =>
      rw [List.mem_cons, not_or] at hl'
      rw [place]
      cases X.rest a with
      | none => rfl
      | some a' =>
          simp only
          rw [ih hl'.2 (fun h0 => hl'.1 h0.1), set_of_ne h]

/-- The cell leads to the first new layer. -/
lemma place_cons (hr : X.rest a = some a') (hg : l ≠ g) (hl : l ∉ gs) :
    place X v (g :: gs) M l a = place X v gs (set M l (X.cell a) (some (.layer g))) g a' ∧
      place X v (g :: gs) M l a l (X.cell a) = some (.layer g) := by
  have h1 :
    place X v (g :: gs) M l a = place X v gs (set M l (X.cell a) (some (.layer g))) g a' := by
    rw [place, hr]
  refine ⟨h1, ?_⟩
  rw [h1, place_of_ne hl (fun h0 => hg h0.1), set_self]

/-- The key that arrives gets to the last of the new layers, and finds its cell free. -/
lemma leads_place (hs : Shares X gs.length a b a' b') (hf : Fresh M r gs) (hl : l ∉ gs) :
    Leads X (place X v gs M l a) l b (gs.getLastD l) b' := by
  induction gs generalizing M l a b with
  | nil =>
      cases hs
      exact .refl
  | cons g gs ih =>
      cases hs with
      | succ hc ha hb h =>
          rw [List.mem_cons, not_or] at hl
          obtain ⟨h1, h2⟩ := place_cons (v := v) (M := M) ha hl.1 hl.2
          refine .cons (hc ▸ h2) hb ?_
          rw [h1, List.getLastD_cons]
          exact ih h (hf.tail hl.2) hf.head_notMem

lemma place_last (hs : Shares X gs.length a b a' b') (hne : X.cell a' ≠ X.cell b')
    (hf : Fresh M r gs) (hl : l ∉ gs) (hempty : gs = [] → ∀ d, d ≠ X.cell a → M l d = none) :
    place X v gs M l a (gs.getLastD l) (X.cell b') = none := by
  induction gs generalizing M l a b with
  | nil =>
      cases hs
      rw [place, List.getLastD_nil, set_of_ne (fun h0 => hne h0.2.symm)]
      exact hempty rfl _ hne.symm
  | cons g gs ih =>
      cases hs with
      | succ hc ha hb h =>
          rw [List.mem_cons, not_or] at hl
          rw [(place_cons (v := v) (M := M) ha hl.1 hl.2).1, List.getLastD_cons]
          refine ih h (hf.tail hl.2) hf.head_notMem fun _ d _ => ?_
          rw [set_of_ne (fun h0 => hl.1 h0.1.symm)]
          exact hf.empty g List.mem_cons_self d

variable [DecidableEq K]

/-- An empty layer gets one key. -/
lemma single_place (hs : Shares X gs.length a b a' b') (hf : Fresh M r gs) (hl : l ∉ gs)
    (hempty : ∀ d, M l d = none) : Single X (place X v gs M l a) l a v := by
  induction gs generalizing M l a b with
  | nil => exact .value set_self fun d hd => (set_of_ne fun h0 => hd h0.2).trans (hempty d)
  | cons g gs ih =>
      cases hs with
      | succ hc ha hb h =>
          have hl' := hl
          rw [List.mem_cons, not_or] at hl
          obtain ⟨h1, h2⟩ := place_cons (v := v) (M := M) ha hl.1 hl.2
          refine .layer h2 (fun d hd => ?_) ha ?_
          · rw [place_of_ne hl' (fun h0 => hd h0.2)]
            exact hempty d
          · rw [h1]
            refine ih h (hf.tail hl.2) hf.head_notMem fun d => ?_
            rw [set_of_ne (fun h0 => hl.1 h0.1.symm)]
            exact hf.empty g List.mem_cons_self d

/-- **Moving a value into new layers** changes no lookup. -/
lemma get_place (hs : Shares X gs.length a b a' b') (hf : Fresh M r gs)
    (hold : M l (X.cell a) = some (.value (X.rest a) v)) (k : K) :
    get X (place X v gs M l a) r k = get X M r k := by
  have hl : l ∉ gs := hf.notMem (c := X.cell a) (by simp [hold])
  cases gs with
  | nil =>
      refine get_congr fun l' k' _ => ?_
      by_cases h0 : l' = l ∧ X.cell k' = X.cell a
      · rw [place, h0.1, h0.2, set_self, hold]
      · exact set_of_ne h0
  | cons g gs =>
      cases hs with
      | succ hc ha hb h =>
          have hl' := hl
          rw [List.mem_cons, not_or] at hl'
          obtain ⟨h1, h2⟩ := place_cons (v := v) (M := M) ha hl'.1 hl'.2
          have hclosed : ∀ l₁ c₁ g₁, l₁ ∉ g :: gs → M l₁ c₁ = some (.layer g₁) → g₁ ∉ g :: gs :=
            fun l₁ c₁ g₁ _ h0 hg₁ => hf.unused g₁ hg₁ l₁ c₁ h0
          refine get_graft hclosed (fun l₁ c₁ h0 h3 => place_of_ne h0 h3) (ha ▸ hold) h2 ?_
            (fun h0 => hf.ne_root r h0 rfl) k
          rw [h1]
          refine single_place h (hf.tail hl'.2) hf.head_notMem fun d => ?_
          rw [set_of_ne (fun h0 => hl'.1 h0.1.symm)]
          exact hf.empty g List.mem_cons_self d

/-- **Two keys part**: no lookup changes, and the second one gets to a free cell of the last new
layer. -/
lemma place_spec (hT : IsTree M r) (hf : Fresh M r gs) (hs : Shares X gs.length a b a' b')
    (hne : X.cell a' ≠ X.cell b') (hgs : gs ≠ [])
    (hold : M l (X.cell a) = some (.value (X.rest a) v)) (hlead : Leads X M r k l b) :
    IsTree (place X v gs M l a) r ∧ get X (place X v gs M l a) r = get X M r ∧
      Leads X (place X v gs M l a) r k (gs.getLastD l) b' ∧
      place X v gs M l a (gs.getLastD l) (X.cell b') = none := by
  have hl : l ∉ gs := hf.notMem (hold ▸ Option.some_ne_none _)
  refine ⟨hT.place hf hl, funext fun q => get_place hs hf hold q,
    .trans (hlead.mono ?_) (leads_place hs hf hl), place_last hs hne hf hl fun h => absurd h hgs⟩
  intro l₁ d g h0
  rw [place_of_ne (hf.notMem (h0 ▸ Option.some_ne_none _)), h0]
  rintro ⟨rfl, rfl⟩
  rw [hold] at h0
  cases h0

end Place

end MasstreeLHM.Trie
