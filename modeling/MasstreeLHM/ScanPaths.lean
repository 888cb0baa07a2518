import MasstreeLHM.Rename
import Mathlib.Logic.Relation

/-!
# Where a scan gets

The slices in front of the current one in the key buffer are the component hashes of the layer that
the scan is in, and those of the layers on its stack are the shorter prefixes.  So what it visits
are values of the table, each under the hashes of its path.

`LayerOn` are the layers at component hashes, and `Visitable` is what a scan may visit: a value in
such a layer, under the hashes with its own behind them.  `Scan.Ok` is the invariant of the main
loop, with `StackOk` for the layers above.

A round looks for the next entry from a state that `Scan.entering` gives; `Ok.entering` says that
this state is in a layer, and `InLayer.findNext` follows the search, which stays in the layer, goes
down or asks to go up.  **`Ok.leads`** is the step lemma, `ok_of_reach` the run, and **`run_sound`**
the result for a whole scan.
-/

namespace MasstreeLHM

/-! ## Layers and their values -/

/-- A leaf of the layer of `r`: one that a search ends in, or one behind it. -/
inductive LeafOf (h : Heap Cell) (r : Ptr) : Ptr → Prop
  | reach {x n : ℕ} (hn : reachLeaf h r x = some n) : LeafOf h r n
  | next {n m : Ptr} (hn : LeafOf h r n) (hm : (h.leaf n).next = some m) : LeafOf h r m

/-- The slot at index `i` of leaf `n`. -/
def Heap.slotAt (h : Heap Cell) (n : Ptr) (i : ℕ) : Slot Cell :=
  (h.leaf n).slot ((h.leaf n).permutation.get i)

/-- The layer of `r` is the one at the component hashes `xs`, under the layer of `root`. -/
inductive LayerOn (h : Heap Cell) (root : Ptr) : List ℕ → Ptr → Prop
  | root : LayerOn h root [] root
  | slot {xs : List ℕ} {r n i r' : ℕ} (hr : LayerOn h root xs r) (hn : LeafOf h r n)
      (hi : i < (h.leaf n).size) (hl : (h.slotAt n i).body.lv.layer? = some r') :
      LayerOn h root (xs ++ [(h.slotAt n i).ikey]) r'

/-- A slot of the layer of `r` has the slice `x` and holds `lv`. -/
def LayerHolds (h : Heap Cell) (r x : ℕ) (lv : LeafValue) : Prop :=
  ∃ n i, LeafOf h r n ∧ i < (h.leaf n).size ∧ (h.slotAt n i).ikey = x ∧ (h.slotAt n i).body.lv = lv

/-- A key and a value that a scan may visit. -/
def Visitable (h : Heap Cell) (root : Ptr) (kv : List ℕ × NamespaceEntry) : Prop :=
  ∃ xs x r, kv.1 = xs ++ [x] ∧ LayerOn h root xs r ∧ LayerHolds h r x (.value kv.2)

namespace Scan

/-! ## Rounds -/

/-- The state in which a round of the main loop looks for the next entry. -/
def entering (h : Heap Cell) (s : Scan) : Option Scan :=
  match s.state with
  | .emit =>
      s.entry.value?.map fun v =>
        { s with ki := s.ki + 1, out := s.out ++ [(s.ka.shifted ++ [s.ka.ikey], v)] }
  | .findNext => some s
  | .up =>
      match s.stack with
      | [] => none
      | (n, root) :: stack =>
          let ka : ScanKey := ⟨s.ka.shifted.dropLast, s.ka.shifted.getLastD 0, 9⟩
          some { s with n := n, root := root, stack := stack, ka := ka
                        ki := (lowerPosition h n ka).1 }
  | .down => none
  | .retry => none

/-- One round leads to another. -/
def Leads (h : Heap Cell) (s s' : Scan) : Prop := step h s = some (.inr s')

/-- The state that the scan of a table starts from. -/
def initial (s : LhmNamespace) : Scan :=
  ⟨s.root, s.root, 0, [], ⟨[], 0, 0⟩, .value default, .retry, []⟩

/-! ## The invariant of the main loop -/

variable {h : Heap Cell} {root : Ptr} {s t : Scan}

/-- The leaves on the stack are of the layers above the one at `xs`. -/
inductive StackOk (h : Heap Cell) (root : Ptr) : List ℕ → List (Ptr × Ptr) → Prop
  | nil : StackOk h root [] []
  | cons {xs : List ℕ} {x n r : ℕ} {stack : List (Ptr × Ptr)} (hr : LayerOn h root xs r)
      (hn : LeafOf h r n) (hs : StackOk h root xs stack) :
      StackOk h root (xs ++ [x]) ((n, r) :: stack)

/-- The scan is in a leaf of the layer at the slices behind it. -/
structure InLayer (h : Heap Cell) (root : Ptr) (s : Scan) : Prop where
  layer : LayerOn h root s.ka.shifted s.root
  leaf : LeafOf h s.root s.n
  stack : StackOk h root s.ka.shifted s.stack

/-- What holds at the top of the main loop. -/
def Placed (h : Heap Cell) (root : Ptr) (s : Scan) : Prop :=
  match s.state with
  | .emit => InLayer h root s ∧ LayerHolds h s.root s.ka.ikey s.entry
  | .findNext | .up => InLayer h root s
  | .down => LayerOn h root (s.ka.shifted ++ [s.ka.ikey]) s.root ∧
      StackOk h root (s.ka.shifted ++ [s.ka.ikey]) s.stack
  | .retry => LayerOn h root s.ka.shifted s.root ∧ StackOk h root s.ka.shifted s.stack

/-- **The scan is where its key says, and has visited values of the table.** -/
structure Ok (h : Heap Cell) (root : Ptr) (s : Scan) : Prop where
  placed : s.Placed h root
  out : ∀ kv ∈ s.out, Visitable h root kv

lemma step_eq_findNext (s : Scan) (hs : s.state = .emit ∨ s.state = .findNext ∨ s.state = .up)
    (hstep : step h s = some (.inr t)) : ∃ u, s.entering h = some u ∧ findNext h u = some t := by
  rw [step] at hstep
  rcases hs with hs | hs | hs
  · rw [hs] at hstep
    simp only at hstep
    cases hv : s.entry.value? with
    | none => simp [hv] at hstep
    | some v =>
        rw [hv, Option.bind_some] at hstep
        obtain ⟨t', h1, h2⟩ := Option.map_eq_some_iff.mp hstep
        cases h2
        exact ⟨_, by rw [entering, hs]; simp only [hv, Option.map_some], h1⟩
  · rw [hs] at hstep
    obtain ⟨t', h1, h2⟩ := Option.map_eq_some_iff.mp hstep
    cases h2
    exact ⟨s, by rw [entering, hs], h1⟩
  · rw [hs] at hstep
    simp only at hstep
    cases hst : s.stack with
    | nil => simp [hst] at hstep
    | cons p rest =>
        rw [hst] at hstep
        obtain ⟨t', h1, h2⟩ := Option.map_eq_some_iff.mp hstep
        cases h2
        exact ⟨_, by rw [entering, hs]; simp only [hst], h1⟩

/-- The search for the next entry starts in a layer. -/
lemma Ok.entering (hs : s.Ok h root) {u : Scan} (hu : s.entering h = some u) :
    InLayer h root u ∧ ∀ kv ∈ u.out, Visitable h root kv := by
  obtain ⟨hplaced, hout⟩ := hs
  rw [Scan.entering] at hu
  rw [Placed] at hplaced
  cases hst : s.state with
  | emit =>
      rw [hst] at hu hplaced
      obtain ⟨v, hv, rfl⟩ := Option.map_eq_some_iff.mp hu
      obtain ⟨hin, hent⟩ := hplaced
      refine ⟨⟨hin.layer, hin.leaf, hin.stack⟩, fun kv hkv => ?_⟩
      rcases List.mem_append.mp hkv with h0 | h0
      · exact hout kv h0
      · obtain rfl := List.mem_singleton.mp h0
        have hval : s.entry = .value v := by
          cases he : s.entry with
          | value w => rw [he] at hv; exact congrArg LeafValue.value (Option.some.inj hv)
          | layer n => rw [he] at hv; cases hv
        exact ⟨s.ka.shifted, s.ka.ikey, s.root, rfl, hin.layer, hval ▸ hent⟩
  | findNext =>
      rw [hst] at hu hplaced
      cases hu
      exact ⟨hplaced, hout⟩
  | up =>
      rw [hst] at hu hplaced
      have hstack := hplaced.stack
      cases hsk : s.stack with
      | nil => simp [hsk] at hu
      | cons p rest =>
          obtain ⟨n, r⟩ := p
          simp only [hsk] at hu
          cases hu
          rw [hsk] at hstack
          generalize hxs : s.ka.shifted = xs at hstack
          cases hstack with
          | @cons ys y _ _ _ h1 h2 h3 =>
              have hdrop : (ys ++ [y]).dropLast = ys := List.dropLast_concat
              refine ⟨⟨?_, h2, ?_⟩, hout⟩
              · simpa [hdrop] using h1
              · simpa [hdrop] using h3
  | down =>
      rw [hst] at hu
      cases hu
  | retry =>
      rw [hst] at hu
      cases hu

/-- `find_next` stays in the layer, goes down, or asks to go up. -/
lemma InLayer.findNext {u : Scan} (hu : InLayer h root u) (hnext : Scan.findNext h u = some t) :
    t.Placed h root ∧ t.out = u.out := by
  rw [Scan.findNext] at hnext
  simp only at hnext
  split_ifs at hnext with hdel hsize hdup hfit hlayer
  · cases hnext
    exact ⟨⟨hu.layer, hu.stack⟩, rfl⟩
  · cases hnext
    exact ⟨⟨hu.layer, hu.leaf, hu.stack⟩, rfl⟩
  · -- down
    obtain ⟨r, hr, rfl⟩ := Option.map_eq_some_iff.mp hnext
    exact ⟨⟨.slot hu.layer hu.leaf hsize hr, .cons hu.layer hu.leaf hu.stack⟩, rfl⟩
  · cases hnext
    exact ⟨⟨⟨hu.layer, hu.leaf, hu.stack⟩, u.n, u.ki, hu.leaf, hsize, rfl, rfl⟩, rfl⟩
  · cases hm : (h.leaf u.n).next with
    | none =>
        rw [hm] at hnext
        cases hnext
        exact ⟨⟨hu.layer, hu.leaf, hu.stack⟩, rfl⟩
    | some m =>
        rw [hm] at hnext
        cases hnext
        exact ⟨⟨hu.layer, .next hu.leaf hm, hu.stack⟩, rfl⟩

/-- Entering a layer. -/
lemma placed_of_findRetry {u : Scan} (hr : LayerOn h root u.ka.shifted u.root)
    (hstack : StackOk h root u.ka.shifted u.stack) (hnext : findRetry h u = some t) :
    t.Placed h root ∧ t.out = u.out := by
  rw [findRetry] at hnext
  cases hn : reachLeaf h u.root u.ka.ikey with
  | none => simp [hn] at hnext
  | some n =>
      simp only [hn] at hnext
      split_ifs at hnext
      cases hnext
      exact ⟨⟨hr, .reach hn, hstack⟩, rfl⟩

/-- **One round.** -/
lemma Ok.leads (hs : s.Ok h root) (hstep : Leads h s t) : t.Ok h root := by
  have hnext : (s.state = .emit ∨ s.state = .findNext ∨ s.state = .up) → t.Ok h root := by
    intro hst
    obtain ⟨u, h1, h2⟩ := step_eq_findNext s hst hstep
    obtain ⟨h3, h4⟩ := hs.entering h1
    obtain ⟨h5, h6⟩ := h3.findNext h2
    exact ⟨h5, h6 ▸ h4⟩
  cases hst : s.state with
  | emit => exact hnext (Or.inl hst)
  | findNext => exact hnext (Or.inr (Or.inl hst))
  | up => exact hnext (Or.inr (Or.inr hst))
  | down =>
      rw [Leads, step, hst] at hstep
      obtain ⟨t', h1, h2⟩ := Option.map_eq_some_iff.mp hstep
      cases h2
      obtain ⟨hplaced, hout⟩ := hs
      rw [Placed, hst] at hplaced
      obtain ⟨h3, h4⟩ := placed_of_findRetry hplaced.1 hplaced.2 h1
      exact ⟨h3, h4 ▸ hout⟩
  | retry =>
      rw [Leads, step, hst] at hstep
      obtain ⟨t', h1, h2⟩ := Option.map_eq_some_iff.mp hstep
      cases h2
      obtain ⟨hplaced, hout⟩ := hs
      rw [Placed, hst] at hplaced
      obtain ⟨h3, h4⟩ := placed_of_findRetry hplaced.1 hplaced.2 h1
      exact ⟨h3, h4 ▸ hout⟩

lemma initial_ok (s : LhmNamespace) : (initial s).Ok s.heap s.root :=
  ⟨⟨.root, .nil⟩, by simp [initial]⟩

lemma ok_of_reach {s : LhmNamespace} {t : Scan}
    (h : Relation.ReflTransGen (Leads s.heap) (initial s) t) :
    t.Ok s.heap s.root := by
  induction h with
  | refl => exact initial_ok s
  | tail _ hstep ih => exact ih.leads hstep

/-- The end of the scan. -/
lemma Ok.out_of_step {out : List (List ℕ × NamespaceEntry)} (hs : s.Ok h root)
    (hstep : step h s = some (.inl out)) : ∀ kv ∈ out, Visitable h root kv := by
  rw [step] at hstep
  cases hst : s.state with
  | up =>
      rw [hst] at hstep
      cases hsk : s.stack with
      | nil =>
          simp only [hsk, Option.some.injEq, Sum.inl.injEq] at hstep
          exact hstep ▸ hs.out
      | cons p rest => simp [hsk] at hstep
  | emit => simp [hst, Option.bind_eq_some_iff] at hstep
  | findNext => simp [hst] at hstep
  | down => simp [hst] at hstep
  | retry => simp [hst] at hstep

lemma Ok.loop : ∀ (fuel : ℕ) {s : Scan} {out : List (List ℕ × NamespaceEntry)}, s.Ok h root →
    loop h fuel s = some out → ∀ kv ∈ out, Visitable h root kv
  | 0, _, _, _, hl => by cases hl
  | fuel + 1, s, out, hs, hl => by
      rw [Scan.loop] at hl
      cases hstep : step h s with
      | none => simp [hstep] at hl
      | some r =>
          cases r with
          | inl o =>
              simp only [hstep, Option.some.injEq] at hl
              exact hl ▸ hs.out_of_step hstep
          | inr t =>
              simp only [hstep] at hl
              exact Ok.loop fuel (hs.leads hstep) hl

/-- **A scan visits values of the table, each under the hashes of its path.** -/
lemma run_sound {s : LhmNamespace} {fuel : ℕ} {out : List (List ℕ × NamespaceEntry)}
    (h : run fuel s = some out) : ∀ kv ∈ out, Visitable s.heap s.root kv :=
  (initial_ok s).loop fuel h

end Scan

end MasstreeLHM
