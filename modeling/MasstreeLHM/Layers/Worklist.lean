import Mathlib.Data.Finset.Card
import Mathlib.Data.List.Chain
import Mathlib.Logic.Relation
import Mathlib.Tactic.Lemma

/-!
# Worklists threaded through the nodes

A first-in first-out queue whose links are a field of the nodes in it, and the traversal of a graph
with such a queue: the node in front is taken out, its successors are put in, and then it is given
up.  A traversal that looks at a node that it has given up, or writes its link, fails.

`Holds` says that the links make a list, and `push`, `pushAll` and `pop` work on that list.

* **`Tree.traverse`** — what can be reached from the start is a tree: the traversal ends, and has
  taken every node once.
* **`Within.traverse`** — any graph: a traversal that ends has taken nothing but the start and
  successors of what it has taken, and nothing twice.  It needs no knowledge about links outside the
  queue, so it can be used where the links of other nodes hold anything.
-/

namespace MasstreeLHM

open Relation

/-- The links of all nodes, the node in front, and the node whose link the next one goes to; in an
empty queue that is the place of the node in front. -/
structure Worklist (α : Type) where
  links : α → Option α
  head : Option α
  tail : Option α

namespace Worklist

variable {α : Type} [DecidableEq α] {q q' : Worklist α} {xs ms done : List α} {n r : α}

/-- Put `n` in, after the nodes `done` have been given up. -/
def push (done : List α) (q : Worklist α) (n : α) : Option (Worklist α) :=
  match q.tail with
  | none => some { q with head := some n, tail := some n }
  | some t =>
      if t ∈ done then none
      else some { q with links := Function.update q.links t (some n), tail := some n }

/-- Take the node `n` in front out. -/
def pop (q : Worklist α) (n : α) : Worklist α :=
  if q.tail = some n then { q with head := none, tail := none } else { q with head := q.links n }

/-- Put nodes in, one after another. -/
def pushAll (done : List α) (q : Worklist α) (ms : List α) : Option (Worklist α) :=
  ms.foldlM (push done) q

/-- The traversal, with a bound on its rounds: the nodes in the order in which they are given up,
the last one first. -/
def traverse (succ : α → List α) : ℕ → Worklist α → List α → Option (List α)
  | 0, _, _ => none
  | fuel + 1, q, done =>
      match q.head with
      | none => some done
      | some n =>
          if n ∈ done then none
          else (pushAll done (q.pop n) (succ n)).bind fun q => traverse succ fuel q (n :: done)

/-! ## The queue as a list -/

/-- The nodes in the queue are `xs`. -/
structure Holds (q : Worklist α) (xs : List α) : Prop where
  head : q.head = xs.head?
  tail : q.tail = xs.getLast?
  links : xs.IsChain fun a b => q.links a = some b

omit [DecidableEq α] in
lemma Holds.singleton (links : α → Option α) (n : α) : Holds ⟨links, some n, some n⟩ [n] :=
  ⟨rfl, rfl, .singleton n⟩

lemma Holds.push (h : q.Holds xs) (hn : (xs ++ [n]).Nodup) (hdone : ∀ c ∈ xs, c ∉ done) :
    ∃ q', q.push done n = some q' ∧ q'.Holds (xs ++ [n]) := by
  rcases List.eq_nil_or_concat xs with rfl | ⟨ys, t, rfl⟩
  · have htail : q.tail = none := h.tail
    exact ⟨_, by rw [Worklist.push, htail], rfl, rfl, .singleton n⟩
  · rw [List.concat_eq_append] at h hn hdone ⊢
    have htail : q.tail = some t := by
      rw [h.tail]
      simp
    refine ⟨{ q with links := Function.update q.links t (some n), tail := some n }, ?_, ?_, ?_, ?_⟩
    · rw [Worklist.push, htail]
      exact if_neg (hdone t (by simp))
    · rw [h.head]
      cases ys <;> rfl
    · simp
    · rw [List.append_assoc, List.singleton_append, List.isChain_append_cons_cons]
      refine ⟨?_, by simp, .singleton n⟩
      -- the node that is written was the last one
      refine List.isChain_iff_forall_rel_of_append_cons_cons.mpr fun a b l₁ l₂ heq => ?_
      have hab := List.isChain_iff_forall_rel_of_append_cons_cons.mp h.links heq
      have hlast : t ∈ b :: l₂ := by
        have h0 : (ys ++ [t]).getLast? = (l₁ ++ a :: b :: l₂).getLast? := by rw [heq]
        simp only [List.getLast?_append, List.getLast?_cons_cons] at h0
        refine List.mem_of_getLast? (?_ : (b :: l₂).getLast? = some t)
        cases hl : (b :: l₂).getLast? with
        | none => simp at hl
        | some x => simpa [hl] using h0.symm
      have hat : a ≠ t := by
        rintro rfl
        have hnodup := (List.nodup_append.mp hn).1
        rw [heq] at hnodup
        exact (List.nodup_cons.mp (List.nodup_append.mp hnodup).2.1).1 hlast
      exact (Function.update_of_ne hat _ _).trans hab

lemma Holds.pushAll : ∀ {ms xs : List α} {q : Worklist α}, q.Holds xs → (xs ++ ms).Nodup →
    (∀ c ∈ xs ++ ms, c ∉ done) → ∃ q', q.pushAll done ms = some q' ∧ q'.Holds (xs ++ ms)
  | [], xs, q, h, _, _ => ⟨q, rfl, by rwa [List.append_nil]⟩
  | m :: ms, xs, q, h, hn, hdone => by
      rw [← List.singleton_append, ← List.append_assoc] at hn hdone ⊢
      obtain ⟨q₁, h1, h2⟩ := h.push (List.nodup_append.mp hn).1
        fun c hc => hdone c (List.mem_append_left _ (List.mem_append_left _ hc))
      obtain ⟨q', h3, h4⟩ := h2.pushAll hn hdone
      refine ⟨q', ?_, h4⟩
      rw [Worklist.pushAll, List.singleton_append, List.foldlM_cons, h1]
      exact h3

lemma Holds.pop (h : q.Holds (n :: xs)) (hn : (n :: xs).Nodup) : (q.pop n).Holds xs := by
  cases xs with
  | nil =>
      have htail : q.tail = some n := h.tail
      rw [Worklist.pop, if_pos htail]
      exact ⟨rfl, rfl, .nil⟩
  | cons m xs =>
      have htail : q.tail ≠ some n := by
        rw [h.tail, List.getLast?_cons_cons]
        exact fun h0 => (List.nodup_cons.mp hn).1 (List.mem_of_getLast? h0)
      obtain ⟨h1, h2⟩ := List.isChain_cons_cons.mp h.links
      rw [Worklist.pop, if_neg htail]
      exact ⟨h1, by rw [h.tail, List.getLast?_cons_cons], h2⟩

/-! ## Trees -/

/-- `c` can be reached from `r`. -/
def Reach (succ : α → List α) (r c : α) : Prop := ReflTransGen (fun a b => b ∈ succ a) r c

/-- What can be reached from `r` is a tree. -/
structure Tree (succ : α → List α) (r : α) : Prop where
  nodup : ∀ n, Reach succ r n → (succ n).Nodup
  root : ∀ n, Reach succ r n → r ∉ succ n
  unique : ∀ n d m, Reach succ r n → Reach succ r d → m ∈ succ n → m ∈ succ d → n = d

variable {succ : α → List α}

/-- **The traversal of a finite tree ends, and has taken every node once.** -/
lemma Tree.traverse (hT : Tree succ r) {U : Finset α} (hU : ∀ c, Reach succ r c → c ∈ U) :
    ∀ (fuel : ℕ) {q : Worklist α} {done xs : List α}, q.Holds xs → (done ++ xs).Nodup →
      r ∈ done ++ xs → (∀ c ∈ done ++ xs, Reach succ r c) →
      (∀ d ∈ done, ∀ m ∈ succ d, m ∈ done ++ xs) →
      (∀ c ∈ done ++ xs, c = r ∨ ∃ d ∈ done, c ∈ succ d) → U.card < fuel + done.length →
      ∃ vs, Worklist.traverse succ fuel q done = some vs ∧ vs.Nodup ∧ ∀ c, c ∈ vs ↔ Reach succ r c
  | 0, q, done, xs, _, hn, _, hreach, _, _, hfuel => by
      have hle : done.toFinset.card ≤ U.card :=
        Finset.card_le_card fun c hc =>
          hU c (hreach c (List.mem_append_left _ (List.mem_toFinset.mp hc)))
      rw [List.toFinset_card_of_nodup (List.nodup_append.mp hn).1] at hle
      omega
  | fuel + 1, q, done, [], hq, hn, hr, hreach, hclosed, _, _ => by
      simp only [List.append_nil] at hn hr hreach hclosed
      have hhead : q.head = none := hq.head
      refine ⟨done, by rw [Worklist.traverse, hhead], hn, fun c => ⟨hreach c, fun hc => ?_⟩⟩
      induction hc with
      | refl => exact hr
      | tail _ hstep ih => exact hclosed _ ih _ hstep
  | fuel + 1, q, done, n :: xs, hq, hn, hr, hreach, hclosed, hentered, hfuel => by
      have hhead : q.head = some n := hq.head
      obtain ⟨hdone, hxs, hdisj⟩ := List.nodup_append.mp hn
      have hnn : n ∉ done := fun h0 => hdisj n h0 n List.mem_cons_self rfl
      have hnr := hreach n (by simp)
      -- a successor of `n` has not been put in before
      have hnew : ∀ m ∈ succ n, m ∉ done ++ n :: xs := by
        intro m hm h0
        rcases hentered m h0 with rfl | ⟨d, hd, hmd⟩
        · exact hT.root n hnr hm
        · obtain rfl := hT.unique n d m hnr (hreach d (List.mem_append_left _ hd)) hm hmd
          exact hnn hd
      have hnodup : (n :: done ++ (xs ++ succ n)).Nodup := by
        rw [List.cons_append, ← List.append_assoc, List.nodup_cons, List.nodup_append]
        have hperm : (done ++ n :: xs).Perm (n :: (done ++ xs)) := List.perm_middle
        have hn' := hperm.nodup_iff.mp hn
        refine ⟨?_, (List.nodup_cons.mp hn').2, hT.nodup n hnr, ?_⟩
        · rw [List.mem_append, not_or]
          exact ⟨(List.nodup_cons.mp hn').1, fun h0 => hnew n h0 (by simp)⟩
        · rintro c hc m hm rfl
          exact hnew c hm (hperm.mem_iff.mpr (List.mem_cons_of_mem _ hc))
      obtain ⟨-, hnodup₂, hdisj₂⟩ := List.nodup_append.mp hnodup
      obtain ⟨q', hpush, hq'⟩ : ∃ q', (q.pop n).pushAll done (succ n) = some q' ∧
          q'.Holds (xs ++ succ n) :=
        (hq.pop hxs).pushAll hnodup₂ fun c hc h0 => hdisj₂ c (List.mem_cons_of_mem _ h0) c hc rfl
      have hmem : ∀ c, c ∈ n :: done ++ (xs ++ succ n) ↔ c ∈ done ++ n :: xs ∨ c ∈ succ n := by
        intro c
        simp only [List.cons_append, List.mem_cons, List.mem_append]
        tauto
      have hclosed' : ∀ d ∈ n :: done, ∀ m ∈ succ d, m ∈ n :: done ++ (xs ++ succ n) := by
        intro d hd m hm
        rw [hmem]
        rcases List.mem_cons.mp hd with rfl | hd
        · exact Or.inr hm
        · exact Or.inl (hclosed d hd m hm)
      have hentered' : ∀ c ∈ n :: done ++ (xs ++ succ n), c = r ∨ ∃ d ∈ n :: done, c ∈ succ d := by
        intro c hc
        rcases (hmem c).mp hc with hc | hc
        · exact (hentered c hc).imp id fun ⟨d, hd, h0⟩ => ⟨d, List.mem_cons_of_mem _ hd, h0⟩
        · exact Or.inr ⟨n, List.mem_cons_self, hc⟩
      obtain ⟨vs, h1, h2⟩ := hT.traverse hU fuel hq' hnodup ((hmem r).mpr (Or.inl hr))
        (fun c hc => ((hmem c).mp hc).elim (hreach c) fun h0 => hnr.tail h0) hclosed' hentered'
        (by rw [List.length_cons]; omega)
      refine ⟨vs, ?_, h2⟩
      rw [Worklist.traverse, hhead]
      simp only
      rw [if_neg hnn, hpush]
      exact h1

/-- The traversal from the root. -/
lemma Tree.traverse_root (hT : Tree succ r) {U : Finset α} (hU : ∀ c, Reach succ r c → c ∈ U)
    (links : α → Option α) :
    ∃ vs, Worklist.traverse succ (U.card + 1) ⟨links, some r, some r⟩ [] = some vs ∧
      vs.Nodup ∧ ∀ c, c ∈ vs ↔ Reach succ r c := by
  have hmem : ∀ c, c ∈ [] ++ [r] → c = r := fun c hc => by simpa using hc
  refine hT.traverse hU _ (.singleton links r) (List.nodup_singleton r) List.mem_cons_self
    (fun c hc => ?_) (fun d hd => absurd hd List.not_mem_nil) (fun c hc => Or.inl (hmem c hc))
    (Nat.lt_succ_self _)
  rw [hmem c hc]
  exact .refl

/-! ## What a traversal can have taken -/

/-- The queue stays within `E`: so do its ends and, of the nodes of `E` that are not in `D`, all
links but that of the last one. -/
structure Within (q : Worklist α) (D : List α) (E : α → Prop) : Prop where
  head : ∀ n, q.head = some n → E n
  tail : ∀ t, q.tail = some t → E t
  links : ∀ c, E c → c ∉ D → q.tail ≠ some c → ∃ m, q.links c = some m ∧ E m

lemma Within.push {D : List α} {E : α → Prop} (h : q.Within D E) (hq : q.push done n = some q') :
    q'.Within D fun c => E c ∨ c = n := by
  rw [Worklist.push] at hq
  cases ht : q.tail with
  | none =>
      rw [ht] at hq
      obtain rfl := Option.some.inj hq
      refine ⟨fun c hc => Or.inr (Option.some.inj hc).symm,
        fun c hc => Or.inr (Option.some.inj hc).symm,
        fun c hc hD htail => ?_⟩
      have hcn : c ≠ n := fun h0 => htail (by rw [h0])
      obtain ⟨m, h1, h2⟩ := h.links c (hc.resolve_right hcn) hD (by rw [ht]; simp)
      exact ⟨m, h1, Or.inl h2⟩
  | some t =>
      rw [ht] at hq
      dsimp only at hq
      split_ifs at hq with hdone
      obtain rfl := Option.some.inj hq
      refine ⟨fun c hc => Or.inl (h.head c hc), fun c hc => Or.inr (Option.some.inj hc).symm,
        fun c hc hD htail => ?_⟩
      have hcn : c ≠ n := fun h0 => htail (by rw [h0])
      dsimp only
      by_cases hct : c = t
      · exact ⟨n, by rw [hct, Function.update_self], Or.inr rfl⟩
      · obtain ⟨m, h1, h2⟩ := h.links c (hc.resolve_right hcn) hD
          (by rw [ht]; exact fun h0 => hct (Option.some.inj h0).symm)
        exact ⟨m, by rw [Function.update_of_ne hct, h1], Or.inl h2⟩

lemma Within.pushAll {D : List α} : ∀ {ms : List α} {q : Worklist α} {E : α → Prop}, q.Within D E →
    q.pushAll done ms = some q' → q'.Within D fun c => E c ∨ c ∈ ms
  | [], q, E, h, hq => by
      obtain rfl := Option.some.inj hq
      simpa using h
  | m :: ms, q, E, h, hq => by
      rw [Worklist.pushAll, List.foldlM_cons] at hq
      obtain ⟨q₁, h1, h2⟩ := Option.bind_eq_some_iff.mp hq
      simpa [or_assoc] using (h.push h1).pushAll h2

lemma Within.pop {E : α → Prop} (h : q.Within done E) (hn : q.head = some n) (hnew : n ∉ done) :
    (q.pop n).Within (n :: done) E := by
  rw [Worklist.pop]
  split_ifs with ht
  · refine ⟨by simp, by simp, fun c hc hD _ => ?_⟩
    obtain ⟨hcn, hD⟩ := not_or.mp (fun h0 => hD (List.mem_cons.mpr h0))
    exact h.links c hc hD (by rw [ht]; exact fun h0 => hcn (Option.some.inj h0).symm)
  · obtain ⟨m, h1, h2⟩ := h.links n (h.head n hn) hnew ht
    refine ⟨fun c hc => ?_, h.tail, fun c hc hD => h.links c hc fun h0 =>
      hD (List.mem_cons_of_mem _ h0)⟩
    dsimp only at hc
    rw [h1] at hc
    exact Option.some.inj hc ▸ h2

/-- **A traversal has taken nothing but the start and successors of what it has taken**, and nothing
twice. -/
lemma Within.traverse (r : α) : ∀ (fuel : ℕ) {q : Worklist α} {done vs : List α},
    q.Within done (fun c => c = r ∨ ∃ d ∈ done, c ∈ succ d) → done.Nodup →
    (∀ c ∈ done, c = r ∨ ∃ d ∈ done, c ∈ succ d) → Worklist.traverse succ fuel q done = some vs →
    vs.Nodup ∧ ∀ c ∈ vs, c = r ∨ ∃ d ∈ vs, c ∈ succ d
  | 0, _, _, _, _, _, _, h => by cases h
  | fuel + 1, q, done, vs, hq, hnodup, hdone, h => by
      rw [Worklist.traverse] at h
      cases hn : q.head with
      | none =>
          rw [hn] at h
          obtain rfl := Option.some.inj h
          exact ⟨hnodup, hdone⟩
      | some n =>
          rw [hn] at h
          dsimp only at h
          split_ifs at h with hnew
          obtain ⟨q₁, h1, h2⟩ := Option.bind_eq_some_iff.mp h
          have hiff : ∀ c, ((c = r ∨ ∃ d ∈ done, c ∈ succ d) ∨ c ∈ succ n) ↔
              c = r ∨ ∃ d ∈ n :: done, c ∈ succ d := by
            intro c
            rw [List.exists_mem_cons_iff, or_assoc, or_comm (a := ∃ d ∈ done, c ∈ succ d)]
          have hw := (hq.pop hn hnew).pushAll h1
          simp only [hiff] at hw
          refine hw.traverse r fuel (List.nodup_cons.mpr ⟨hnew, hnodup⟩) (fun c hc => ?_) h2
          rw [← hiff]
          rcases List.mem_cons.mp hc with rfl | hc
          · exact Or.inl (hq.head c hn)
          · exact Or.inl (hdone c hc)

/-- The traversal from the start. -/
lemma traverse_entered {fuel : ℕ} {links : α → Option α} {vs : List α}
    (h : Worklist.traverse succ fuel ⟨links, some r, some r⟩ [] = some vs) :
    ∀ c ∈ vs, c = r ∨ ∃ d ∈ vs, c ∈ succ d := by
  have hstart : ∀ c, some r = some c → c = r ∨ ∃ d ∈ ([] : List α), c ∈ succ d :=
    fun c hc => Or.inl (Option.some.inj hc).symm
  refine (Within.traverse r fuel ⟨hstart, hstart, fun c hc _ htail => ?_⟩ List.nodup_nil
    (fun c hc => absurd hc List.not_mem_nil) h).2
  rcases hc with rfl | ⟨d, hd, -⟩
  · exact absurd rfl htail
  · exact absurd hd List.not_mem_nil

end Worklist

end MasstreeLHM
