import MasstreeLHM.Optimistic.Runs
import MasstreeLHM.Optimistic.SharedLeaf

/-!
# The version of a shared leaf

What a step can do, and what it does to the version: one thread at a time has the lock, and the
dirty bits are set by the marks of its critical section.  The counters of the version are a ticking
clock, so a thread that finds its version unchanged knows that the leaf has been clean all the time,
unless so many critical sections have ended that the counters have come around.

**`effect_of_step`** is the inversion lemma of the system: a step is one of the constructors of
`Effect`, with all its conditions, and no proof behind it looks at the step function again.

`LockOk` is the invariant of the lock, with `LockGhost` for what is not in the state: who has the
lock, and what has been marked since.  It has a lemma for each effect (`LockOk.lock`,
`LockOk.store`, `LockOk.unlock`, `LockOk.become`).  `ticking` makes the counters a clock by what is
known of runs of critical sections on one word, and **`LockOk.clean_of_unchanged`** is what a reader
gets from it.
-/

namespace MasstreeLHM.KeyTable.Shared

open Optimistic Nodeversion

variable {V ι : Type} {P : NodeParams}

namespace LeafSystem

variable [Inhabited V] [DecidableEq ι]

/-- What a step does. -/
inductive Effect (P : NodeParams) (s : LeafSystem ι V) : LeafEvent ι V → LeafSystem ι V → Prop
  | stable {i : ι} (c : LeafCall V) (k : Bytes) (hi : s.threads i = .idle)
      (hclean : s.shared.version.test dirtyMask = false)
      (hlive : s.shared.version.deleted = false) :
      Effect P s (.stable i c k)
      (s.become i (.searching ⟨c, k, s.shared.version, default, .permutation⟩))
  | load {i : ι} {r r' : Search V} (hi : s.threads i = .searching r)
      (hr : r.next s.shared.leaf = some r') :
      Effect P s (.load i) (s.become i (.searching r'))
  | hasChanged {i : ι} {r : Search V} (hi : s.threads i = .searching r) :
      Effect P s (.hasChanged i) (s.become i .idle)
  | lock {i : ι} {r : Search V} {a : Surroundings} {kx : ℕ × Option ℕ} {state : ℤ}
      {lv : Option (LeafValue V)} {v : Nodeversion} {todo : List (LeafStore V)}
        (hi : s.threads i = .searching r)
      (hr : r.load = .done kx state lv) (hget : r.call.isGet = false)
      (hv : s.shared.version.lock = some v) (hchanged : v.hasChanged r.v = true ∨
        s.shared.leaf.permutation ≠ r.first → todo = [])
      (hsame : v.hasChanged r.v = false → s.shared.leaf.permutation = r.first →
        sectionWords P a r.call r.k kx state s.shared.leaf = some todo) :
      Effect P s (.lock i a) ⟨⟨v, s.shared.leaf⟩, Function.update s.threads i (.writing todo)⟩
  | collect {i : ι} {v : Nodeversion} {todo : List (LeafStore V)} (hi : s.threads i = .idle)
      (hv : s.shared.version.lock = some v)
      (htodo : todo = [] ∨ (s.shared.leaf.size = 0 ∧ todo = [.modstate .deletedLayer])) :
      Effect P s (.collect i) ⟨⟨v, s.shared.leaf⟩, Function.update s.threads i (.writing todo)⟩
  | store {i : ι} {st : LeafStore V} {todo : List (LeafStore V)} {sh : SharedLeaf V}
      (hi : s.threads i = .writing (st :: todo)) (hsh : st.apply s.shared = some sh) :
      Effect P s (.store i) ⟨sh, Function.update s.threads i (.writing todo)⟩
  | unlock {i : ι} {v : Nodeversion} (hi : s.threads i = .writing [])
      (hv : s.shared.version.unlock = some v) :
      Effect P s (.unlock i) ⟨⟨v, s.shared.leaf⟩, Function.update s.threads i .idle⟩

variable {s t : LeafSystem ι V} {e : LeafEvent ι V}

/-- **What a step can do.** -/
lemma effect_of_step (h : s.step P e = some t) : s.Effect P e t := by
  cases e with
  | stable i c k =>
      rw [step] at h
      split at h
      · rename_i hi
        split_ifs at h with h0
        cases h
        rw [not_or, Bool.not_eq_true, Bool.not_eq_true] at h0
        exact .stable c k hi h0.1 h0.2
      · cases h
  | load i =>
      rw [step] at h
      split at h
      · rename_i r hi
        obtain ⟨r', h1, rfl⟩ := Option.map_eq_some_iff.mp h
        exact .load hi h1
      · cases h
  | hasChanged i =>
      rw [step] at h
      split at h
      · rename_i hi
        split_ifs at h
        cases h
        exact .hasChanged hi
      · cases h
  | lock i a =>
      rw [step] at h
      split at h
      · rename_i c k v₀ first kx state lv hi
        split_ifs at h with hget
        obtain ⟨r, h1, rfl⟩ := Option.map_eq_some_iff.mp h
        obtain ⟨v, hv, h2⟩ := Option.bind_eq_some_iff.mp h1
        obtain ⟨todo, htodo, rfl⟩ := Option.map_eq_some_iff.mp h2
        refine .lock hi rfl (by simpa using hget) hv (fun hc => ?_) (fun h0 h1 => ?_)
        · rw [if_pos hc] at htodo
          exact (Option.some.inj htodo).symm
        · rwa [if_neg (by simp [h0, h1])] at htodo
      · cases h
  | collect i =>
      rw [step] at h
      split at h
      · rename_i hi
        obtain ⟨v, hv, rfl⟩ := Option.map_eq_some_iff.mp h
        refine .collect hi hv ?_
        split_ifs with h0
        · exact Or.inr ⟨h0.2.1, rfl⟩
        · exact Or.inl rfl
      · cases h
  | store i =>
      rw [step] at h
      split at h
      · rename_i st todo hi
        obtain ⟨sh, hsh, rfl⟩ := Option.map_eq_some_iff.mp h
        exact .store hi hsh
      · cases h
  | unlock i =>
      rw [step] at h
      split at h
      · rename_i hi
        obtain ⟨v, hv, rfl⟩ := Option.map_eq_some_iff.mp h
        exact .unlock hi hv
      · cases h

end LeafSystem

/-! ## Words and their bits -/

lemma test_dirtyMask (n : Nodeversion) : n.test dirtyMask = (n.v.getLsbD 1 || n.v.getLsbD 2) := by
  have h1 : n.test insertingBit = n.v.getLsbD 1 := test_shift n (by decide)
  have h2 : n.test splittingBit = n.v.getLsbD 2 := test_shift n (by decide)
  rw [← h1, ← h2, Bool.eq_iff_iff, Bool.or_eq_true, test, test, test, decide_eq_true_iff,
    decide_eq_true_iff, decide_eq_true_iff, dirtyMask, BitVec.and_or_distrib_left, ne_eq,
    show (0 : BitVec 32) = 0#32 from rfl, BitVec.or_eq_zero_iff, not_and_or]

/-- `has_changed` does not look at the lock bit. -/
lemma hasChanged_eq_false_iff {n x : Nodeversion} :
    n.hasChanged x = false ↔ ∀ k, 1 ≤ k → x.v.getLsbD k = n.v.getLsbD k := by
  rw [hasChanged, decide_eq_false_iff_not, BitVec.lt_def, Nat.not_lt]
  constructor
  · intro h k hk
    have h0 : (x.v ^^^ n.v).getLsbD k = false := by
      rw [BitVec.getLsbD]
      exact Nat.testBit_lt_two_pow (lt_of_le_of_lt h (Nat.one_lt_two_pow (by omega)))
    rw [BitVec.getLsbD_xor] at h0
    simpa using h0
  · intro h
    refine Nat.le_of_lt_succ (Nat.lt_pow_two_of_testBit (n := 1) _ fun k hk => ?_)
    rw [← BitVec.getLsbD, BitVec.getLsbD_xor, h k hk, Bool.xor_self]

lemma hasChanged_lock {n n' x : Nodeversion} (h : n.lock = some n') :
    n'.hasChanged x = n.hasChanged x := by
  rw [lock] at h
  split_ifs at h
  cases h
  rw [Bool.eq_iff_iff, ← not_iff_not, Bool.not_eq_true, Bool.not_eq_true, hasChanged_eq_false_iff,
    hasChanged_eq_false_iff]
  refine forall₂_congr fun k hk => ?_
  rw [BitVec.getLsbD_or, lockBit, getLsbD_shift (by decide), decide_eq_false (by omega),
    Bool.or_false]

/-- A mark sets its bits. -/
lemma apply_v {n n' : Nodeversion} {m : Mark} (h : m.apply n = some n') :
    n'.v = n.v ||| m.bits := by
  cases m <;> simp only [Mark.apply, markInsert, markSplit, markDeleted, mark] at h <;>
    split_ifs at h <;>
    cases h <;> rfl

/-- What has been marked sets a dirty bit. -/
lemma dirty_all (ms : List Mark) :
    ((Mark.all ms).getLsbD 1 || (Mark.all ms).getLsbD 2) = false ↔ ms = [] := by
  rw [Mark.getLsbD_all, Mark.getLsbD_all]
  constructor
  · intro h
    cases ms with
    | nil => rfl
    | cons m ms => cases m <;> simp [Mark.splits] at h
  · rintro rfl
    rfl

/-! ## One thread at a time -/

/-- The version between two critical sections with what it shows, the thread that has the lock, and
what has been marked in its critical section. -/
structure LockGhost (ι : Type) where
  base : Nodeversion
  leaf : Bool
  root : Bool
  deleted : Bool
  count : ℕ
  owner : Option ι
  marks : List Mark

/-- **The lock**: the thread that has it is the one that writes, and nobody else touches the
version. -/
structure LockOk (g : LockGhost ι) (s : LeafSystem ι V) : Prop where
  shows : Shows g.base g.leaf g.root g.deleted g.count
  word : s.shared.version.v = g.base.v ||| (if g.owner.isSome then lockBit else 0) |||
    Mark.all g.marks
  owner : ∀ i, (∃ todo, s.threads i = .writing todo) ↔ g.owner = some i
  free : g.owner = none → g.marks = []

namespace LockOk

variable {g : LockGhost ι} {s : LeafSystem ι V} {i : ι}

lemma bit (h : LockOk g s) (k : ℕ) : s.shared.version.v.getLsbD k =
    (g.base.v.getLsbD k || (g.owner.isSome && decide (k = 0)) || (Mark.all g.marks).getLsbD k) := by
  rw [h.word, BitVec.getLsbD_or, BitVec.getLsbD_or]
  cases g.owner with
  | none => simp
  | some i => simp [lockBit]

lemma locked (h : LockOk g s) : s.shared.version.locked = g.owner.isSome := by
  rw [Nodeversion.locked, lockBit, test_shift _ (by decide), h.bit, h.shows.low 0 (by decide),
    Mark.getLsbD_all]
  simp

/-- The version is dirty if something has been marked. -/
lemma clean_iff (h : LockOk g s) : s.shared.version.test dirtyMask = false ↔ g.marks = [] := by
  rw [test_dirtyMask, h.bit, h.bit, h.shows.low 1 (by decide), h.shows.low 2 (by decide),
    ← dirty_all]
  simp

/-- The counters are those of the last critical section. -/
lemma fields (h : LockOk g s) : vinsert s.shared.version.v = g.count % 64 ∧
    vsplit s.shared.version.v = g.count / 64 % 2 ^ 19 := by
  have hbit : ∀ k, 3 ≤ k → k < 29 → s.shared.version.v.getLsbD k = g.base.v.getLsbD k :=
    fun k h1 h2 => by
    rw [h.bit, Mark.getLsbD_all]
    simp [show k ≠ 0 by omega, show k ≠ 1 by omega, show k ≠ 2 by omega, show k ≠ 29 by omega]
  constructor
  · rw [← h.shows.inserts, vinsert, vinsert]
    refine congrArg _ (BitVec.eq_of_getLsbD_eq fun k hk => ?_)
    simp [BitVec.getLsbD_extractLsb', hbit (3 + k) (by omega) (by omega)]
  · rw [← h.shows.splits, vsplit, vsplit]
    refine congrArg _ (BitVec.eq_of_getLsbD_eq fun k hk => ?_)
    simp [BitVec.getLsbD_extractLsb', hbit (9 + k) (by omega) (by omega)]

/-- A thread that takes the lock has found it free. -/
lemma owner_of_lock (h : LockOk g s) {v : Nodeversion} (hv : s.shared.version.lock = some v) :
    g.owner = none := by
  rw [Nodeversion.lock] at hv
  split_ifs at hv with h0
  rw [not_or, h.locked] at h0
  simpa using h0.1

variable [DecidableEq ι]

/-- A thread goes on without having the lock. -/
lemma become (h : LockOk g s) {t : LeafThread V} (hi : ∀ todo, s.threads i ≠ .writing todo)
    (ht : ∀ todo, t ≠ .writing todo) : LockOk g (s.become i t) := by
  refine ⟨h.shows, h.word, fun j => ?_, h.free⟩
  rw [← h.owner j, LeafSystem.become]
  by_cases hj : j = i
  · subst hj
    simp [ht, hi]
  · simp [Function.update_of_ne hj]

/-- A thread takes the lock. -/
lemma lock (h : LockOk g s) {v : Nodeversion} (hv : s.shared.version.lock = some v)
    (todo : List (LeafStore V)) :
    LockOk { g with owner := some i }
      (⟨⟨v, s.shared.leaf⟩, Function.update s.threads i (.writing todo)⟩ : LeafSystem ι V) := by
  have hnone := h.owner_of_lock hv
  rw [Nodeversion.lock] at hv
  split_ifs at hv
  cases hv
  refine ⟨h.shows, ?_, fun j => ?_, fun h1 => by cases h1⟩
  · simp [h.word, hnone, h.free hnone, Mark.all]
  · have hj := h.owner j
    rw [hnone] at hj
    by_cases hji : j = i
    · subst hji
      simp
    · simp [Function.update_of_ne hji, hj, Ne.symm hji]

/-- The thread that has the lock stores a word. -/
lemma store [Inhabited V] (h : LockOk g s) {st : LeafStore V} {todo : List (LeafStore V)}
    {sh : SharedLeaf V} (hi : s.threads i = .writing (st :: todo))
    (hsh : st.apply s.shared = some sh) :
    ∃ ms, LockOk { g with marks := ms ++ g.marks }
        (⟨sh, Function.update s.threads i (.writing todo)⟩ : LeafSystem ι V) ∧
      (st.isMark = false → ms = []) ∧ (st.isMark = true → ms ≠ []) ∧
        sh.leaf = st.onLeaf s.shared.leaf := by
  have hown : g.owner = some i := (h.owner i).mp ⟨_, hi⟩
  have howner : ∀ j, (∃ todo', Function.update s.threads i (.writing todo) j = .writing todo') ↔
    g.owner = some j := by
    intro j
    by_cases hji : j = i
    · subst hji
      simp [hown]
    · rw [Function.update_of_ne hji]
      exact h.owner j
  cases st with
  | mark m =>
      obtain ⟨v, hv, rfl⟩ := Option.map_eq_some_iff.mp hsh
      refine ⟨[m], ⟨h.shows, ?_, howner, fun h0 => ?_⟩, fun h0 => (by cases h0),
        fun _ => (by simp), rfl⟩
      · rw [apply_v hv, h.word, BitVec.or_assoc]
        change _ = g.base.v ||| _ ||| (m.bits ||| Mark.all g.marks)
        rw [BitVec.or_comm m.bits]
      · rw [hown] at h0
        cases h0
  | _ =>
      cases hsh
      exact ⟨[], ⟨h.shows, h.word, howner, h.free⟩, fun _ => rfl, fun h0 => (by cases h0), rfl⟩

/-- The lock is given back. -/
lemma unlock (h : LockOk g s) {v : Nodeversion} (hi : s.threads i = .writing [])
    (hv : s.shared.version.unlock = some v) :
    ∃ root deleted, LockOk ⟨v, g.leaf, root, deleted, countAfter g.count g.marks, none, []⟩
      (⟨⟨v, s.shared.leaf⟩, Function.update s.threads i .idle⟩ : LeafSystem ι V) := by
  have hown : g.owner = some i := (h.owner i).mp ⟨_, hi⟩
  obtain ⟨n', h1, h2⟩ := h.shows.critical g.marks
  have hfree : g.base.locked = false := by
    rw [Nodeversion.locked, lockBit, test_shift _ (by decide)]
    exact h.shows.low 0 (by decide)
  have hclean : g.base.test dirtyMask = false := by
    rw [test_dirtyMask, h.shows.low 1 (by decide), h.shows.low 2 (by decide)]
    rfl
  have hlocked : (⟨g.base.v ||| lockBit⟩ : Nodeversion).locked = true := by
    rw [Nodeversion.locked, lockBit, test_shift _ (by decide), BitVec.getLsbD_or,
      getLsbD_shift (by decide)]
    simp
  have hword : s.shared.version = ⟨g.base.v ||| lockBit ||| Mark.all g.marks⟩ := by
    have := h.word
    rw [hown] at this
    exact congrArg Nodeversion.mk this
  have heq : n' = v := by
    rw [Nodeversion.critical, Nodeversion.lock, if_neg (by simp [hfree, hclean]),
      Option.bind_eq_bind, Option.bind_some, foldlM_apply hlocked, Option.bind_some,
      ← hword, hv] at h1
    exact (Option.some.inj h1).symm
  subst heq
  refine ⟨_, _, h2, by simp [Mark.all], fun j => ?_, fun _ => rfl⟩
  have hj := h.owner j
  rw [hown] at hj
  by_cases hji : j = i
  · subst hji
    simp
  · simp [Function.update_of_ne hji, hj, Ne.symm hji]

end LockOk

/-! ## An unchanged version -/

section

variable [Inhabited V] [DecidableEq ι] {g : LockGhost ι} {s t u : LeafSystem ι V}
  {es : List (LeafEvent ι V)}

/-- **The counters are a clock**: a critical section that has marked something advances them. -/
lemma ticking :
    Ticking (LeafSystem.step P) (LockOk (V := V)) (LockGhost.count (ι := ι)) (fun g => g.marks ≠ [])
    (fun e => if e.isUnlock then 64 else 0) := by
  refine ⟨fun g s e t hg hst => ?_⟩
  cases LeafSystem.effect_of_step hst with
  | stable c k hi _ _ =>
      exact ⟨g, hg.become (by simp [hi]) (by simp), le_rfl, Nat.le_add_right _ _,
        fun h1 h2 => absurd h1 h2⟩
  | load hi _ =>
      exact ⟨g, hg.become (by simp [hi]) (by simp), le_rfl, Nat.le_add_right _ _,
        fun h1 h2 => absurd h1 h2⟩
  | hasChanged hi =>
      exact ⟨g, hg.become (by simp [hi]) (by simp), le_rfl, Nat.le_add_right _ _,
        fun h1 h2 => absurd h1 h2⟩
  | lock hi _ _ hv _ _ =>
      exact ⟨_, hg.lock hv _, le_rfl, Nat.le_add_right _ _, fun h1 h2 => absurd h1 h2⟩
  | collect hi hv _ =>
      exact ⟨_, hg.lock hv _, le_rfl, Nat.le_add_right _ _, fun h1 h2 => absurd h1 h2⟩
  | store hi hsh =>
      obtain ⟨ms, h1, -⟩ := hg.store hi hsh
      exact ⟨_, h1, le_rfl, Nat.le_add_right _ _,
        fun h2 h3 => absurd (List.append_ne_nil_of_right_ne_nil ms h2) h3⟩
  | unlock hi hv =>
      obtain ⟨root, deleted, h1⟩ := hg.unlock hi hv
      obtain ⟨c1, c2, -, c4, -⟩ := countAfter_spec g.count g.marks
      exact ⟨_, h1, c1, c2, fun h2 _ => c4 h2⟩

/-- **A thread that finds its version unchanged knows that the leaf was clean all the time**, unless
`2 ^ 19` critical sections have ended. -/
lemma LockOk.clean_of_unchanged (hg : LockOk g s) (hclean : s.shared.version.test dirtyMask = false)
    (ht : after (LeafSystem.step P) s es = some t) (hfew : es.countP LeafEvent.isUnlock < 2 ^ 19)
    (hsame : t.shared.version.hasChanged s.shared.version = false)
    (hu : Visits (LeafSystem.step P) s es u) :
    u.shared.version.test dirtyMask = false := by
  have hbits := hasChanged_eq_false_iff.mp hsame
  have hweight : (es.map fun e => if e.isUnlock then 64 else 0).sum =
    64 * es.countP LeafEvent.isUnlock := by
    clear ht hfew hu
    induction es with
    | nil => rfl
    | cons e es ih =>
        rw [List.map_cons, List.sum_cons, ih, List.countP_cons]
        split_ifs <;> omega
  obtain ⟨g', hg', hc⟩ := ticking.quiet hg ht (fun g' hg' h1 h2 => by
    have hclean' : t.shared.version.test dirtyMask = false := by
      rw [test_dirtyMask, ← hbits 1 le_rfl, ← hbits 2 (by decide), ← test_dirtyMask, hclean]
    refine ⟨?_, not_not.mpr (hg'.clean_iff.mp hclean')⟩
    have hins : vinsert s.shared.version.v = vinsert t.shared.version.v := by
      rw [vinsert, vinsert]
      refine congrArg _ (BitVec.eq_of_getLsbD_eq fun k hk => ?_)
      simp [BitVec.getLsbD_extractLsb', hbits (3 + k) (by omega)]
    have hspl : vsplit s.shared.version.v = vsplit t.shared.version.v := by
      rw [vsplit, vsplit]
      refine congrArg _ (BitVec.eq_of_getLsbD_eq fun k hk => ?_)
      simp [BitVec.getLsbD_extractLsb', hbits (9 + k) (by omega)]
    obtain ⟨f1, f2⟩ := hg.fields
    obtain ⟨f3, f4⟩ := hg'.fields
    rw [hweight] at h2
    omega) hu
  exact hg'.clean_iff.mpr (not_not.mp hc)

end

end MasstreeLHM.KeyTable.Shared
