import Mathlib.Logic.Relation

/-!
# Paths through an added edge

A relation with one more edge has the old paths, and those that go to the new edge and on from it.
So it has a cycle only if the old relation has one, or leads from the end of the new edge to its
start.

`AddsEdge` allows the new relation to have fewer edges as well, since an edge may be moved: the
edges that it has are old ones or the one from `a` to `b`.  `AddsEdge.path` cuts a path of the new
relation at the added edge, by induction on the path.  `AcyclicRel.mono` drops edges, and
**`AcyclicRel.addEdge`** adds one.

Nothing here knows of directories.  The relation is over any type, and paths are those of
`Relation.TransGen`.
-/

namespace MasstreeLHM

open Relation

variable {α : Type*} {r r' : α → α → Prop} {a b x y : α}

/-- `r'` has the edges of `r`, and at most the one from `a` to `b` besides. -/
def AddsEdge (r r' : α → α → Prop) (a b : α) : Prop := ∀ u v, r' u v → r u v ∨ (u = a ∧ v = b)

lemma AddsEdge.path (h : AddsEdge r r' a b) (hp : TransGen r' x y) :
    TransGen r x y ∨ (ReflTransGen r x a ∧ ReflTransGen r b y) := by
  induction hp with
  | @single y hxy =>
      rcases h x y hxy with h0 | ⟨rfl, rfl⟩
      · exact Or.inl (.single h0)
      · exact Or.inr ⟨.refl, .refl⟩
  | @tail y z _ hyz ih =>
      rcases h y z hyz with h0 | ⟨rfl, rfl⟩
      · rcases ih with h1 | ⟨h1, h2⟩
        · exact Or.inl (h1.tail h0)
        · exact Or.inr ⟨h1, h2.tail h0⟩
      · rcases ih with h1 | ⟨h1, -⟩
        · exact Or.inr ⟨h1.to_reflTransGen, .refl⟩
        · exact Or.inr ⟨h1, .refl⟩

/-- There are no cycles. -/
def AcyclicRel (r : α → α → Prop) : Prop := ∀ x, ¬ TransGen r x x

lemma AcyclicRel.mono (hr : AcyclicRel r) (h : ∀ u v, r' u v → r u v) : AcyclicRel r' :=
  fun x hx => hr x (TransGen.mono h x x hx)

/-- **An edge whose end does not lead back to its start** makes no cycle. -/
lemma AcyclicRel.addEdge (hr : AcyclicRel r) (h : AddsEdge r r' a b)
    (hback : ¬ ReflTransGen r b a) :
    AcyclicRel r' := by
  intro x hx
  rcases h.path hx with h0 | ⟨h1, h2⟩
  · exact hr x h0
  · exact hback (h2.trans h1)

end MasstreeLHM
