import Mathlib.Data.List.Nodup
import Mathlib.Logic.Function.Basic

/-!
# Linked lists

The cells that a list names are linked in that order: `next` of each is the one behind it, and
`next` of the last is a given pointer.

`Linked` is defined by recursion on the list, over any function `next` on pointers, so it says
nothing about memory and can be used of every structure with a `next` field.  `linked_append` cuts
the list in two.  `Linked.congr` is the frame rule: a change of `next` at other cells leaves the
list alone.  `Linked.retarget` links the last cell to something else, which is how a cell is added
behind the list, or the list is hooked up in front of another one, and `Linked.last` reads that
link.
-/

namespace MasstreeLHM

variable {P : Type} {next : P → Option P}

/-- `next` leads through the cells `ps`, and from the last of them to `q`. -/
def Linked (next : P → Option P) : List P → Option P → Prop
  | [], _ => True
  | p :: ps, q => next p = ps.head?.or q ∧ Linked next ps q

lemma linked_append (as bs : List P) (q : Option P) :
    Linked next (as ++ bs) q ↔ Linked next as (bs.head?.or q) ∧ Linked next bs q := by
  induction as with
  | nil => simp [Linked]
  | cons a as ih =>
      rw [List.cons_append, Linked, Linked, ih, and_assoc]
      cases as with
      | nil => simp
      | cons b as => simp

/-- Only the cells of the list count. -/
lemma Linked.congr {next' : P → Option P} : ∀ {ps : List P} {q : Option P}, Linked next ps q →
    (∀ p ∈ ps, next' p = next p) → Linked next' ps q
  | [], _, _, _ => trivial
  | p :: ps, q, h, heq => by
      refine ⟨?_, h.2.congr (fun a ha => heq a (by simp [ha]))⟩
      rw [heq p (by simp)]
      exact h.1

/-- Link the last cell to something else. -/
lemma Linked.retarget [DecidableEq P] {ps : List P} {q : Option P} (h : Linked next ps q)
    (hnodup : ps.Nodup) {t : P} (ht : ps.getLast? = some t) (q' : Option P) :
    Linked (Function.update next t q') ps q' := by
  obtain ⟨as, rfl⟩ := List.getLast?_eq_some_iff.mp ht
  rw [linked_append] at h ⊢
  have hnot : t ∉ as := fun hmem =>
    (List.nodup_append.mp hnodup).2.2 t hmem t (List.mem_singleton_self t) rfl
  refine ⟨Linked.congr (q := some t) (by simpa using h.1) (fun p hp => ?_), ?_⟩
  · refine Function.update_of_ne ?_ _ _
    rintro rfl
    exact hnot hp
  · simp [Linked]

/-- The link of the last cell. -/
lemma Linked.last {ps : List P} {q : Option P} (h : Linked next ps q) {t : P}
    (ht : ps.getLast? = some t) : next t = q := by
  obtain ⟨as, rfl⟩ := List.getLast?_eq_some_iff.mp ht
  rw [linked_append] at h
  simpa [Linked] using h.2

end MasstreeLHM
