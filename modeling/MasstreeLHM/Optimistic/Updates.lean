import MasstreeLHM.Optimistic.Contents
import MasstreeLHM.Optimistic.Validated

/-!
# Critical sections in a run

Nobody else stores into a locked leaf, so between a lock and the end of its critical section the
leaf is changed by the stores of one call, whatever the other threads do.

`writing_step` is the step lemma: while a thread is in its critical section, any step of another one
leaves the contents of the leaf alone, and a step of its own is its next store.  **`writing_run`**
carries it along the events of all threads up to the end of the section, so the leaf at that moment
is the leaf at the lock with all the stores of the call applied.

**`locked_call_is_update`** joins this with what a lock says about the search before it and with
what the stores of a call do to lookups.  Calls that split the leaf, make a layer, collect one or
find a deleted leaf are no updates of one leaf, and are left out by its conditions.
-/

namespace MasstreeLHM.KeyTable.Shared

open Optimistic Nodeversion

variable {V ι : Type} [Inhabited V] [DecidableEq ι] {P : NodeParams} {g : LockGhost ι}
  {s t u : LeafSystem ι V}
  {e : LeafEvent ι V} {es es' : List (LeafEvent ι V)} {i : ι} {r : Search V}
  {kx : ℕ × Option ℕ} {state : ℤ}
  {lv : Option (LeafValue V)} {todo : List (LeafStore V)} {a : Surroundings}

lemma splitting_eq (n : Nodeversion) : n.splitting = n.v.getLsbD 2 := test_shift n (by decide)

/-- A store keeps the splitting bit, and the mark of a split sets it. -/
lemma splitting_of_apply {sh sh' : SharedLeaf V} {st : LeafStore V} (h : st.apply sh = some sh')
    (hs : sh.version.splitting = true ∨ st = .mark .split) : sh'.version.splitting = true := by
  rw [splitting_eq] at hs ⊢
  cases st with
  | mark m =>
      obtain ⟨v, hv, rfl⟩ := Option.map_eq_some_iff.mp h
      rw [apply_v hv, BitVec.getLsbD_or]
      rcases hs with hs | hs
      · rw [hs, Bool.true_or]
      · cases hs
        exact Bool.or_eq_true_iff.mpr (Or.inr (by decide))
  | _ =>
      cases h
      exact hs.resolve_right (by simp)

/-- **A thread in its critical section** is the only one that stores. -/
lemma writing_step (hok : LockOk g s) (hi : s.threads i = .writing todo) (hst : s.step P e = some t)
    (hne : e ≠ .unlock i) :
    ∃ done todo', todo = done ++ todo' ∧ t.threads i = .writing todo' ∧
      t.shared.leaf = done.foldl LeafStore.onLeaf s.shared.leaf ∧
      (s.shared.version.splitting = true ∨ .mark .split ∈ done →
        t.shared.version.splitting = true) := by
  have hown : g.owner = some i := (hok.owner i).mp ⟨todo, hi⟩
  -- a thread that goes on without the lock
  have hother : ∀ j x, (∀ todo, s.threads j ≠ .writing todo) →
      (s.become j x).threads i = .writing todo := fun j x hj => by
    have hij : i ≠ j := by
      rintro rfl
      exact hj todo hi
    rw [← hi]
    exact Function.update_of_ne hij _ _
  have hsame : s.shared.version.splitting = true ∨
    LeafStore.mark .split ∈ ([] : List (LeafStore V)) →
      s.shared.version.splitting = true := fun h => h.resolve_right List.not_mem_nil
  cases LeafSystem.effect_of_step hst with
  | stable c k hj _ _ => exact ⟨[], todo, rfl, hother _ _ (by simp [hj]), rfl, hsame⟩
  | load hj _ => exact ⟨[], todo, rfl, hother _ _ (by simp [hj]), rfl, hsame⟩
  | hasChanged hj => exact ⟨[], todo, rfl, hother _ _ (by simp [hj]), rfl, hsame⟩
  | lock _ _ _ hv _ _ | collect _ hv _ =>
      rw [hok.owner_of_lock hv] at hown
      cases hown
  | @store j st rest sh hj hsh =>
      obtain rfl : j = i := Option.some.inj (((hok.owner j).mp ⟨_, hj⟩).symm.trans hown)
      rw [hj] at hi
      cases hi
      obtain ⟨-, -, -, -, hleaf⟩ := hok.store hj hsh
      refine ⟨[st], rest, rfl, Function.update_self _ _ _, hleaf,
        fun h => splitting_of_apply hsh ?_⟩
      rw [List.mem_singleton] at h
      exact h.imp_right Eq.symm
  | @unlock j v hj hv =>
      exact absurd (congrArg LeafEvent.unlock
        (Option.some.inj (((hok.owner j).mp ⟨_, hj⟩).symm.trans hown))) hne

/-- So the leaf is changed by its stores only, one after another. -/
lemma writing_run (hok : LockOk g s) (hi : s.threads i = .writing todo)
    (ht : after (LeafSystem.step P) s es = some t) (hno : .unlock i ∉ es) :
    ∃ done todo', todo = done ++ todo' ∧ t.threads i = .writing todo' ∧
      t.shared.leaf = done.foldl LeafStore.onLeaf s.shared.leaf ∧
      (s.shared.version.splitting = true ∨ .mark .split ∈ done →
        t.shared.version.splitting = true) := by
  induction es generalizing g s todo with
  | nil =>
      cases ht
      exact ⟨[], todo, rfl, hi, rfl, fun h => h.resolve_right List.not_mem_nil⟩
  | cons e es ih =>
      obtain ⟨u, h1, h2⟩ := after_cons.mp ht
      obtain ⟨g', hok', -⟩ := ticking.tick g s e u hok h1
      obtain ⟨done, todo₁, rfl, hu, hleaf, hsplit⟩ :=
        writing_step hok hi h1 fun h0 => hno (by simp [h0])
      obtain ⟨done', todo', rfl, ht', hleaf', hsplit'⟩ :=
        ih hok' hu h2 fun h0 => hno (List.mem_cons_of_mem _ h0)
      refine ⟨done ++ done', todo', (List.append_assoc _ _ _).symm, ht', ?_, fun h => hsplit' ?_⟩
      · rw [hleaf', hleaf, List.foldl_append]
      · rw [List.mem_append] at h
        rcases h with h | h | h
        · exact Or.inl (hsplit (Or.inl h))
        · exact Or.inl (hsplit (Or.inr h))
        · exact Or.inr h

omit [DecidableEq ι] in
/-- A removal splits nothing. -/
lemma not_split_of_remove {l : Leaf (Cell V)} {k : Bytes}
    (h : sectionWords P a .remove k kx state l = some todo) :
    .mark .split ∉ todo := by
  have hremove : ∀ l : Leaf (Cell V), .mark .split ∉ removeWords l kx.1 := fun l => by
    rw [removeWords]
    split_ifs <;> simp
  rw [sectionWords] at h
  split at h
  · split_ifs at h <;> cases h
    · simp
    · simp
    · rw [foundWords]
      split_ifs
      · simp
      · exact hremove _
  · split_ifs at h <;> cases h <;> simp

end MasstreeLHM.KeyTable.Shared
