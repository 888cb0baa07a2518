import Mathlib.Algebra.GroupWithZero.Nat
import Mathlib.Data.List.Infix
import Mathlib.Tactic.Lemma

/-!
# Runs, and clocks that show whether something has changed

A partial step function takes a state along a list of events.  A ticking clock never goes back, and
has advanced whenever something that was open is closed: if it shows the same at two moments, and
nothing is open at the second one, nothing has been open in between.

`after` is a run and `Visits` says that it leads through a state; **`run_induction`** is the
induction that results about runs go through, one event behind the events before it.  `last_unique`
finds the last event of a kind, which is how the attempt of a thread is cut out of a run in which
others take part.

A clock is a number in a ghost state, and `Ticking` bounds by a weight how far an event can advance
it.  A program sees less of a clock than the number, a counter in a word say; so **`Ticking.quiet`**
asks that what it sees at the end, together with the weights on the way, tells that the clock has
not moved.  All this is over any states and events.
-/

namespace MasstreeLHM.Optimistic

variable {σ ε γ : Type} {step : σ → ε → Option σ} {s t u : σ} {e : ε} {es es' : List ε}

/-- The state after the events `es`. -/
def after (step : σ → ε → Option σ) (s : σ) (es : List ε) : Option σ := es.foldlM step s

/-- The events `es` lead through the state `t`. -/
def Visits (step : σ → ε → Option σ) (s : σ) (es : List ε) (t : σ) : Prop :=
  ∃ es', es' <+: es ∧ after step s es' = some t

@[simp] lemma after_nil : after step s [] = some s := rfl

lemma after_append : after step s (es ++ es') = (after step s es).bind fun t =>
    after step t es' := by
  rw [after, List.foldlM_append]
  rfl

lemma after_cons : after step s (e :: es) = some u ↔
    ∃ t, step s e = some t ∧ after step t es = some u := by
  rw [after, List.foldlM_cons]
  exact Option.bind_eq_some_iff

lemma after_concat : after step s (es ++ [e]) = some u ↔ ∃ t, after step s es = some t ∧
    step t e = some u := by
  rw [after_append, Option.bind_eq_some_iff]
  refine exists_congr fun t => and_congr_right fun _ => ?_
  rw [after_cons]
  simp

/-- **Induction along a run**: an event takes place in a state that the events before it have led
to. -/
lemma run_induction {P : List ε → σ → Prop} (h0 : P [] s)
    (hstep : ∀ es t e u, after step s es = some t → P es t → step t e = some u → P (es ++ [e]) u) :
    ∀ {es t}, after step s es = some t → P es t := by
  intro es
  induction es using List.reverseRecOn with
  | nil =>
      intro t h
      cases h
      exact h0
  | append_singleton es e ih =>
      intro u h
      obtain ⟨t, h1, h2⟩ := after_concat.mp h
      exact hstep es t e u h1 (ih h1) h2

/-! ## The states of a run -/

lemma visits_last (h : after step s es = some t) : Visits step s es t := ⟨es, List.prefix_rfl, h⟩

lemma visits_nil (h : Visits step s [] t) : t = s := by
  obtain ⟨es', h1, h2⟩ := h
  rw [List.prefix_nil.mp h1, after_nil, Option.some.injEq] at h2
  exact h2.symm

/-- One event leads through one more state. -/
lemma visits_concat (h : after step s (es ++ [e]) = some u) :
    Visits step s (es ++ [e]) t ↔ Visits step s es t ∨ t = u := by
  constructor
  · rintro ⟨es', h1, h2⟩
    rcases List.prefix_concat_iff.mp h1 with rfl | h1
    · rw [h, Option.some.injEq] at h2
      exact Or.inr h2.symm
    · exact Or.inl ⟨es', h1, h2⟩
  · rintro (⟨es', h1, h2⟩ | rfl)
    · exact ⟨es', h1.trans (List.prefix_append es [e]), h2⟩
    · exact visits_last h

lemma Visits.append (hu : Visits step u es' t) (h : after step s es = some u) :
    Visits step s (es ++ es') t := by
  obtain ⟨es'', h1, h2⟩ := hu
  refine ⟨es ++ es'', (List.prefix_append_right_inj es).mpr h1, ?_⟩
  rw [after_append, h, Option.bind_some, h2]

/-- The last event of a kind is where it is. -/
lemma last_unique {p : ε → Prop} {a b : ε} {es₁ es₂ es₁' es₂' : List ε}
    (h : es₁ ++ a :: es₂ = es₁' ++ b :: es₂') (ha : p a) (hb : p b) (hes₂ : ∀ e ∈ es₂, ¬ p e)
    (hes₂' : ∀ e ∈ es₂', ¬ p e) :
    es₁ = es₁' ∧ a = b ∧ es₂ = es₂' := by
  rcases List.append_eq_append_iff.mp h with ⟨cs, h1, h2⟩ | ⟨cs, h1, h2⟩
  · cases cs with
    | nil =>
        rw [List.append_nil] at h1
        rw [List.nil_append, List.cons.injEq] at h2
        exact ⟨h1.symm, h2⟩
    | cons x cs =>
        rw [List.cons_append, List.cons.injEq] at h2
        exact absurd hb (hes₂ b (by rw [h2.2]; simp))
  · cases cs with
    | nil =>
        rw [List.append_nil] at h1
        rw [List.nil_append, List.cons.injEq] at h2
        exact ⟨h1, h2.1.symm, h2.2.symm⟩
    | cons x cs =>
        rw [List.cons_append, List.cons.injEq] at h2
        exact absurd ha (hes₂' a (by rw [h2.2]; simp))

/-! ## Clocks -/

/-- A clock for an invariant with a ghost: it never goes back, no event advances it by more than its
weight, and it has advanced when something open has been closed. -/
structure Ticking (step : σ → ε → Option σ) (J : γ → σ → Prop) (clock : γ → ℕ) (isOpen : γ → Prop)
    (weight : ε → ℕ) : Prop where
  tick : ∀ g s e t, J g s → step s e = some t → ∃ g', J g' t ∧ clock g ≤ clock g' ∧
    clock g' ≤ clock g + weight e ∧ (isOpen g → ¬ isOpen g' → clock g < clock g')

namespace Ticking

variable {J : γ → σ → Prop} {clock : γ → ℕ} {isOpen : γ → Prop} {weight : ε → ℕ} {g : γ}

lemma run (h : Ticking step J clock isOpen weight) (hg : J g s) (ht : after step s es = some t) :
    ∃ g', J g' t ∧ clock g ≤ clock g' ∧ clock g' ≤ clock g + (es.map weight).sum ∧
      (isOpen g → ¬ isOpen g' → clock g < clock g') := by
  induction es generalizing g s with
  | nil =>
      cases ht
      exact ⟨g, hg, le_rfl, Nat.le_add_right _ _, fun h1 h2 => absurd h1 h2⟩
  | cons e es ih =>
      obtain ⟨u, h1, h2⟩ := after_cons.mp ht
      obtain ⟨g₁, hg₁, a1, a2, a3⟩ := h.tick g s e u hg h1
      obtain ⟨g₂, hg₂, b1, b2, b3⟩ := ih hg₁ h2
      refine ⟨g₂, hg₂, a1.trans b1, ?_, fun ho hc => ?_⟩
      · rw [List.map_cons, List.sum_cons]
        omega
      · by_cases h0 : isOpen g₁
        · exact a1.trans_lt (b3 h0 hc)
        · exact (a3 ho h0).trans_le b1

/-- **Nothing has been open** during a run at whose end the clock shows what it did at its start. -/
lemma quiet (h : Ticking step J clock isOpen weight) (hg : J g s) (ht : after step s es = some t)
    (hend : ∀ g', J g' t → clock g ≤ clock g' → clock g' ≤ clock g + (es.map weight).sum →
      clock g' = clock g ∧ ¬ isOpen g') (hu : Visits step s es u) : ∃ g', J g' u ∧ ¬ isOpen g' := by
  obtain ⟨es₁, ⟨es₂, rfl⟩, h1⟩ := hu
  rw [after_append, h1, Option.bind_some] at ht
  obtain ⟨g₁, hg₁, a1, a2, -⟩ := h.run hg h1
  obtain ⟨g₂, hg₂, b1, b2, b3⟩ := h.run hg₁ ht
  rw [List.map_append, List.sum_append] at hend
  obtain ⟨c1, c2⟩ := hend g₂ hg₂ (a1.trans b1) (by omega)
  refine ⟨g₁, hg₁, fun ho => ?_⟩
  have := b3 ho c2
  omega

end Ticking

end MasstreeLHM.Optimistic
