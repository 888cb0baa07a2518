import Mathlib.Data.Nat.Bitwise
import Mathlib.Tactic.IntervalCases
import Mathlib.Tactic.Lemma

/-!
# Node versions

`nodeversion<nodeversion_parameters<uint32_t>>` of `nodeversion.hh`.  Above the lock bit and the two
dirty bits the word has a counter of inserts and, above it, a counter of splits, into which the
former carries over; a bit that is always masked keeps the carry of the latter from the flags above.

The operations are those of the source on the word, each with its assertions: `lock`, `unlock` and
the three marks.  `Mark.critical` is a critical section, with any marks in any order and number.

`vinsert` and `vsplit` read the counters.  `Shows` describes a word between two sections by its
flags and by one number, to which an insert adds one and which a split takes to the next multiple of
64, since both counters together are one number modulo 2^25.  `masked_fields` and `add_fields` are
all that is needed of the arithmetic; **`Shows.critical`** is the step lemma and **`Shows.run`** the
run lemma.  **`run_versions`** says what optimistic readers rely on: which sections `has_changed`
and `has_split` see.
-/

namespace MasstreeLHM

/-- The word `v_`. -/
structure Nodeversion where
  v : BitVec 32
deriving DecidableEq

namespace Nodeversion

/-- `lock_bit`. -/
def lockBit : BitVec 32 := 1#32 <<< 0

/-- `inserting_bit`. -/
def insertingBit : BitVec 32 := 1#32 <<< 1

/-- `splitting_bit`. -/
def splittingBit : BitVec 32 := 1#32 <<< 2

/-- `dirty_mask`: an operation is under way. -/
def dirtyMask : BitVec 32 := insertingBit ||| splittingBit

/-- `vinsert_lowbit`, the unit of the counter of inserts. -/
def vinsertLowbit : BitVec 32 := 1#32 <<< 3

/-- `vsplit_lowbit`, the unit of the counter of splits. -/
def vsplitLowbit : BitVec 32 := 1#32 <<< 9

/-- `unused1_bit`, which keeps the carry of the counter of splits from the flags. -/
def unused1Bit : BitVec 32 := 1#32 <<< 28

/-- `deleted_bit`. -/
def deletedBit : BitVec 32 := 1#32 <<< 29

/-- `root_bit`. -/
def rootBit : BitVec 32 := 1#32 <<< 30

/-- `isleaf_bit`. -/
def isleafBit : BitVec 32 := 1#32 <<< 31

/-- `split_unlock_mask`: what stays of the word after a split. -/
def splitUnlockMask : BitVec 32 := ~~~(rootBit ||| unused1Bit ||| (vsplitLowbit - 1))

/-- `unlock_mask`: what stays of it otherwise. -/
def unlockMask : BitVec 32 := ~~~(unused1Bit ||| (vinsertLowbit - 1))

/-- The constructor. -/
def make (isleaf : Bool) : Nodeversion := ⟨if isleaf then isleafBit else 0⟩

/-- Some of `bits` are set. -/
def test (n : Nodeversion) (bits : BitVec 32) : Bool := n.v &&& bits ≠ 0

/-- `isleaf`. -/
def isleaf (n : Nodeversion) : Bool := n.test isleafBit

/-- `locked`. -/
def locked (n : Nodeversion) : Bool := n.test lockBit

/-- `inserting`. -/
def inserting (n : Nodeversion) : Bool := n.test insertingBit

/-- `splitting`. -/
def splitting (n : Nodeversion) : Bool := n.test splittingBit

/-- `deleted`. -/
def deleted (n : Nodeversion) : Bool := n.test deletedBit

/-- `is_root`. -/
def isRoot (n : Nodeversion) : Bool := n.test rootBit

/-- `has_changed`, with the older version `x`. -/
def hasChanged (n x : Nodeversion) : Bool := lockBit < x.v ^^^ n.v

/-- `has_split`. -/
def hasSplit (n x : Nodeversion) : Bool := vsplitLowbit ≤ x.v ^^^ n.v

/-- `lock`: a locked word is waited for, and an unlocked one must not be dirty. -/
def lock (n : Nodeversion) : Option Nodeversion :=
  if n.locked ∨ n.test dirtyMask then none else some ⟨n.v ||| lockBit⟩

/-- `unlock`, with its assertion. -/
def unlock (n : Nodeversion) : Option Nodeversion :=
  if n.locked then
    some (if n.splitting then ⟨(n.v + vsplitLowbit) &&& splitUnlockMask⟩
      else ⟨(n.v + ((n.v &&& insertingBit) <<< 2)) &&& unlockMask⟩)
  else none

/-- Setting bits of a word that must be locked. -/
def mark (n : Nodeversion) (bits : BitVec 32) : Option Nodeversion :=
  if n.locked then some ⟨n.v ||| bits⟩ else none

/-- `mark_insert`. -/
def markInsert (n : Nodeversion) : Option Nodeversion := n.mark insertingBit

/-- `mark_split`. -/
def markSplit (n : Nodeversion) : Option Nodeversion := n.mark splittingBit

/-- `mark_deleted`: a deleted node looks split, so that readers start again. -/
def markDeleted (n : Nodeversion) : Option Nodeversion := n.mark (deletedBit ||| splittingBit)

/-- What a critical section may do to the word. -/
inductive Mark where
  | insert
  | split
  | deleted
deriving DecidableEq

namespace Mark

/-- What it does to the word. -/
def apply (n : Nodeversion) : Mark → Option Nodeversion
  | insert => n.markInsert
  | split => n.markSplit
  | deleted => n.markDeleted

/-- The bits that it sets. -/
def bits : Mark → BitVec 32
  | insert => insertingBit
  | split => splittingBit
  | deleted => deletedBit ||| splittingBit

/-- It makes readers start again from the root. -/
def splits (ms : List Mark) : Bool := split ∈ ms ∨ deleted ∈ ms

end Mark

/-- A critical section. -/
def critical (n : Nodeversion) (ms : List Mark) : Option Nodeversion := do
  let n ← n.lock
  let n ← ms.foldlM Mark.apply n
  n.unlock

/-- Critical sections one after another. -/
def run (n : Nodeversion) (sections : List (List Mark)) : Option Nodeversion :=
  sections.foldlM critical n

/-! ## The fields of a word -/

lemma test_shift (n : Nodeversion) {k : ℕ} (hk : k < 32) : n.test (1#32 <<< k) = n.v.getLsbD k := by
  have hne : BitVec.twoPow 32 k ≠ 0#32 := by
    intro h
    have := congrArg (fun x => x.getLsbD k) h
    simp [hk] at this
  rw [test, show 1#32 <<< k = BitVec.twoPow 32 k from rfl, BitVec.and_twoPow]
  cases n.v.getLsbD k with
  | true => simpa using hne
  | false => rfl

lemma getLsbD_shift {j : ℕ} (hj : j < 32) (k : ℕ) : (1#32 <<< j).getLsbD k = decide (k = j) := by
  rw [show 1#32 <<< j = BitVec.twoPow 32 j from rfl, BitVec.getLsbD_twoPow]
  simp [hj, eq_comm]

/-- The insert counter. -/
def vinsert (x : BitVec 32) : ℕ := (x.extractLsb' 3 6).toNat

/-- The split counter. -/
def vsplit (x : BitVec 32) : ℕ := (x.extractLsb' 9 19).toNat

lemma vinsert_eq (x : BitVec 32) : vinsert x = x.toNat / 8 % 64 := by
  rw [vinsert, BitVec.extractLsb'_toNat, Nat.shiftRight_eq_div_pow]

lemma vsplit_eq (x : BitVec 32) : vsplit x = x.toNat / 512 % 2 ^ 19 := by
  rw [vsplit, BitVec.extractLsb'_toNat, Nat.shiftRight_eq_div_pow]

lemma getLsbD_eq (x : BitVec 32) (k : ℕ) : x.getLsbD k = decide (x.toNat / 2 ^ k % 2 = 1) := by
  rw [BitVec.getLsbD, Nat.testBit_eq_decide_div_mod_eq]

/-- What a masked word keeps. -/
lemma masked_fields (x : BitVec 32) :
    (vinsert (x &&& unlockMask) = vinsert x ∧ vsplit (x &&& unlockMask) = vsplit x) ∧
      (vinsert (x &&& splitUnlockMask) = 0 ∧ vsplit (x &&& splitUnlockMask) = vsplit x) := by
  simp only [vinsert, vsplit, BitVec.extractLsb'_and]
  rw [show unlockMask.extractLsb' 3 6 = BitVec.allOnes 6 by decide,
    show unlockMask.extractLsb' 9 19 = BitVec.allOnes 19 by decide,
    show splitUnlockMask.extractLsb' 3 6 = 0 by decide,
    show splitUnlockMask.extractLsb' 9 19 = BitVec.allOnes 19 by decide, BitVec.and_allOnes,
    BitVec.and_allOnes]
  exact ⟨⟨rfl, rfl⟩, by rw [show (0 : BitVec 6) = 0#6 from rfl, BitVec.and_zero]; rfl, rfl⟩

/-- Adding to the counters: a carry ends in the unused bit. -/
lemma add_fields {x d : BitVec 32} {e : ℕ} (hx : x.getLsbD 28 = false) (hd : d.toNat = 8 * e)
    (he : e ≤ 64) :
    vinsert (x + d) = (vinsert x + e) % 64 ∧
      vsplit (x + d) = (vsplit x + (vinsert x + e) / 64) % 2 ^ 19 ∧
      ∀ k, 29 ≤ k → (x + d).getLsbD k = x.getLsbD k := by
  have hlt := x.isLt
  rw [getLsbD_eq, decide_eq_false_iff_not] at hx
  have hsum : (x + d).toNat = x.toNat + d.toNat := by
    rw [BitVec.toNat_add]
    omega
  refine ⟨?_, ?_, ?_⟩
  · rw [vinsert_eq, vinsert_eq, hsum]
    omega
  · rw [vsplit_eq, vsplit_eq, vinsert_eq, hsum]
    omega
  · intro k hk
    have hdiv : (x.toNat + d.toNat) / 2 ^ 29 = x.toNat / 2 ^ 29 := by omega
    rw [getLsbD_eq, getLsbD_eq, hsum, show k = 29 + (k - 29) by omega, Nat.pow_add,
      ← Nat.div_div_eq_div_mul, ← Nat.div_div_eq_div_mul, hdiv]

/-! ## Critical sections -/

/-- What a critical section has set when it ends. -/
def Mark.all (ms : List Mark) : BitVec 32 := ms.foldr (fun m b => m.bits ||| b) 0

lemma Mark.getLsbD_all (ms : List Mark) (k : ℕ) : (Mark.all ms).getLsbD k =
    ((decide (k = 1) && decide (insert ∈ ms)) || (decide (k = 2) && splits ms) ||
      (decide (k = 29) && decide (deleted ∈ ms))) := by
  induction ms with
  | nil => simp [all, splits]
  | cons m ms ih =>
      rw [all, List.foldr_cons, BitVec.getLsbD_or]
      change (m.bits.getLsbD k || (all ms).getLsbD k) = _
      rw [ih]
      cases m <;>
        simp only [bits, insertingBit, splittingBit, deletedBit, BitVec.getLsbD_or,
          getLsbD_shift (show 1 < 32 by decide), getLsbD_shift (show 2 < 32 by decide),
          getLsbD_shift (show 29 < 32 by decide), splits, List.mem_cons] <;>
        grind

/-- A word between two critical sections: the counters have counted to `count`, which the word has
modulo `2 ^ 25`, an insert counting one and a split to the next multiple of 64. -/
structure Shows (n : Nodeversion) (leaf root deleted : Bool) (count : ℕ) : Prop where
  low : ∀ k < 3, n.v.getLsbD k = false
  inserts : vinsert n.v = count % 64
  splits : vsplit n.v = count / 64 % 2 ^ 19
  unused : n.v.getLsbD 28 = false
  deleted : n.v.getLsbD 29 = deleted
  root : n.v.getLsbD 30 = root
  leaf : n.v.getLsbD 31 = leaf

/-- The marks of a section set their bits. -/
lemma foldlM_apply {ms : List Mark} {n : Nodeversion} (hn : n.locked = true) :
    ms.foldlM Mark.apply n = some ⟨n.v ||| Mark.all ms⟩ := by
  induction ms generalizing n with
  | nil => simp [Mark.all]
  | cons m ms ih =>
      have hm : m.apply n = some ⟨n.v ||| m.bits⟩ := by
        cases m <;> exact if_pos hn
      have hn' : (⟨n.v ||| m.bits⟩ : Nodeversion).locked = true := by
        rw [locked, lockBit, test_shift _ (by decide)] at hn ⊢
        rw [BitVec.getLsbD_or, hn, Bool.true_or]
      rw [List.foldlM_cons, hm, Option.bind_eq_bind, Option.bind_some, ih hn', BitVec.or_assoc]
      rfl

/-- The counters after a section. -/
def countAfter (count : ℕ) (ms : List Mark) : ℕ :=
  if Mark.splits ms then (count / 64 + 1) * 64 else if Mark.insert ∈ ms then count + 1 else count

variable {n : Nodeversion} {leaf root deleted : Bool} {count : ℕ}

/-- **A critical section.** -/
lemma Shows.critical (h : Shows n leaf root deleted count) (ms : List Mark) :
    ∃ n', n.critical ms = some n' ∧
      Shows n' leaf (root && !Mark.splits ms) (deleted || decide (Mark.deleted ∈ ms))
      (countAfter count ms) := by
  set u : BitVec 32 := n.v ||| lockBit ||| Mark.all ms with hu
  have hbit : ∀ k, u.getLsbD k = (n.v.getLsbD k || decide (k = 0) || (Mark.all ms).getLsbD k) :=
    fun k => by
    rw [hu, BitVec.getLsbD_or, BitVec.getLsbD_or, lockBit, getLsbD_shift (by decide)]
  have hall : ∀ k, 3 ≤ k → k < 29 → u.getLsbD k = n.v.getLsbD k := fun k h1 h2 => by
    rw [hbit, Mark.getLsbD_all]
    simp [show k ≠ 0 by omega, show k ≠ 1 by omega, show k ≠ 2 by omega, show k ≠ 29 by omega]
  have hins : vinsert u = count % 64 := by
    rw [← h.inserts, vinsert, vinsert]
    refine congrArg _ (BitVec.eq_of_getLsbD_eq fun k hk => ?_)
    simp [BitVec.getLsbD_extractLsb', hall (3 + k) (by omega) (by omega)]
  have hspl : vsplit u = count / 64 % 2 ^ 19 := by
    rw [← h.splits, vsplit, vsplit]
    refine congrArg _ (BitVec.eq_of_getLsbD_eq fun k hk => ?_)
    simp [BitVec.getLsbD_extractLsb', hall (9 + k) (by omega) (by omega)]
  have hfree : n.locked = false := by
    rw [locked, lockBit, test_shift _ (by decide)]
    exact h.low 0 (by decide)
  have hclean : n.test dirtyMask = false := by
    rw [test, decide_eq_false_iff_not, not_not]
    refine BitVec.eq_of_getLsbD_eq fun k _ => ?_
    change _ = (0#32).getLsbD k
    rw [BitVec.getLsbD_and, dirtyMask, BitVec.getLsbD_or, insertingBit, splittingBit,
      getLsbD_shift (by decide), getLsbD_shift (by decide), BitVec.getLsbD_zero,
      Bool.and_eq_false_iff]
    by_cases hk : k < 3
    · exact Or.inl (h.low k hk)
    · exact Or.inr (by simp [show k ≠ 1 by omega, show k ≠ 2 by omega])
  have hlocked : (⟨n.v ||| lockBit⟩ : Nodeversion).locked = true := by
    rw [locked, lockBit, test_shift _ (by decide), BitVec.getLsbD_or, getLsbD_shift (by decide)]
    simp
  have hlocked' : (⟨u⟩ : Nodeversion).locked = true := by
    rw [locked, lockBit, test_shift _ (by decide), hbit]
    simp
  have hsplit : (⟨u⟩ : Nodeversion).splitting = Mark.splits ms := by
    rw [splitting, splittingBit, test_shift _ (by decide), hbit, Mark.getLsbD_all,
      h.low 2 (by decide)]
    simp
  have heq : n.critical ms = some (if Mark.splits ms then ⟨(u + vsplitLowbit) &&& splitUnlockMask⟩
      else ⟨(u + ((u &&& insertingBit) <<< 2)) &&& unlockMask⟩) := by
    simp only [Nodeversion.critical, lock, hfree, hclean, Bool.false_eq_true, or_self, if_false,
      Option.bind_eq_bind, Option.bind_some]
    rw [foldlM_apply hlocked, Option.bind_some, unlock, if_pos hlocked', hsplit]
  refine ⟨_, heq, ?_⟩
  have hunused : u.getLsbD 28 = false := (hall 28 (by decide) (by decide)).trans h.unused
  have hflags : u.getLsbD 29 = (deleted || decide (Mark.deleted ∈ ms)) ∧ u.getLsbD 30 = root ∧
      u.getLsbD 31 = leaf := by
    rw [hbit, hbit, hbit, Mark.getLsbD_all, Mark.getLsbD_all, Mark.getLsbD_all,
      h.deleted, h.root, h.leaf]
    simp
  -- the carry of neither counter reaches the flags
  rw [countAfter]
  cases hs : Mark.splits ms with
  | true =>
      obtain ⟨a1, a2, a3⟩ := add_fields hunused (show vsplitLowbit.toNat = 8 * 64 by decide) le_rfl
      obtain ⟨-, m1, m2⟩ := masked_fields (u + vsplitLowbit)
      simp only [if_true]
      refine ⟨fun k hk => ?_, ?_, ?_, ?_, ?_, ?_, ?_⟩
      · interval_cases k <;> rw [BitVec.getLsbD_and] <;> exact Bool.and_false _
      · rw [m1]
        omega
      · rw [m2, a2, hspl, hins]
        omega
      · rw [BitVec.getLsbD_and]
        exact Bool.and_false _
      · rw [BitVec.getLsbD_and, a3 29 le_rfl, hflags.1]
        exact Bool.and_true _
      · rw [BitVec.getLsbD_and, Bool.not_true, Bool.and_false]
        exact Bool.and_false _
      · rw [BitVec.getLsbD_and, a3 31 (by decide), hflags.2.2]
        exact Bool.and_true _
  | false =>
      have hd : ((u &&& insertingBit) <<< 2).toNat = 8 * if Mark.insert ∈ ms then 1 else 0 := by
        have h1 : u.getLsbD 1 = decide (Mark.insert ∈ ms) := by
          rw [hbit, Mark.getLsbD_all, h.low 1 (by decide)]
          simp
        rw [insertingBit, show 1#32 <<< 1 = BitVec.twoPow 32 1 from rfl, BitVec.and_twoPow, h1]
        split_ifs <;> simp_all
      obtain ⟨a1, a2, a3⟩ := add_fields hunused hd (by split_ifs <;> decide)
      obtain ⟨⟨m1, m2⟩, -⟩ := masked_fields (u + ((u &&& insertingBit) <<< 2))
      simp only [Bool.false_eq_true, if_false]
      refine ⟨fun k hk => ?_, ?_, ?_, ?_, ?_, ?_, ?_⟩
      · interval_cases k <;> rw [BitVec.getLsbD_and] <;> exact Bool.and_false _
      · rw [m1, a1, hins]
        split_ifs <;> omega
      · rw [m2, a2, hspl, hins]
        split_ifs <;> omega
      · rw [BitVec.getLsbD_and]
        exact Bool.and_false _
      · rw [BitVec.getLsbD_and, a3 29 le_rfl, hflags.1]
        exact Bool.and_true _
      · rw [BitVec.getLsbD_and, a3 30 (by decide), hflags.2.1, Bool.not_false]
        rfl
      · rw [BitVec.getLsbD_and, a3 31 (by decide), hflags.2.2]
        exact Bool.and_true _

/-! ## Runs of critical sections -/

/-- A new version. -/
lemma shows_make (isleaf : Bool) : Shows (make isleaf) isleaf false false 0 := by
  cases isleaf <;> constructor <;> decide

lemma countAfter_spec (count : ℕ) (ms : List Mark) :
    count ≤ countAfter count ms ∧ countAfter count ms ≤ count + 64 ∧
      countAfter count ms / 64 ≤ count / 64 + 1 ∧ (ms ≠ [] → count < countAfter count ms) ∧
      (Mark.splits ms = true → count / 64 < countAfter count ms / 64) := by
  rw [countAfter]
  split_ifs with h1 h2
  · refine ⟨by omega, by omega, by omega, fun _ => by omega, fun _ => by omega⟩
  · refine ⟨by omega, by omega, by omega, fun _ => by omega, fun h => absurd h h1⟩
  · refine ⟨le_rfl, by omega, by omega, fun h => ?_, fun h => absurd h h1⟩
    obtain ⟨m, hm⟩ := List.exists_mem_of_ne_nil ms h
    cases m with
    | insert => exact absurd hm h2
    | split => exact absurd (decide_eq_true (Or.inl hm)) h1
    | deleted => exact absurd (decide_eq_true (Or.inr hm)) h1

/-- **A run of critical sections.** -/
lemma Shows.run (sections : List (List Mark)) (h : Shows n leaf root deleted count) :
    ∃ n' count', n.run sections = some n' ∧
      Shows n' leaf (root && !sections.any Mark.splits)
        (deleted || sections.any fun ms => decide (Mark.deleted ∈ ms)) count' ∧
      (count ≤ count' ∧ count' ≤ count + 64 * sections.length ∧
        count' / 64 ≤ count / 64 + sections.length) ∧
      ((∀ ms ∈ sections, ms = []) → count' = count) ∧
      ((∃ ms ∈ sections, ms ≠ []) → count < count') ∧ ((∃ ms ∈ sections, Mark.splits ms = true) →
        count / 64 < count' / 64) := by
  induction sections generalizing n root deleted count with
  | nil => exact ⟨n, count, rfl, by simpa using h, by simp, by simp, by simp, by simp⟩
  | cons ms sections ih =>
      obtain ⟨n₁, h1, h2⟩ := h.critical ms
      obtain ⟨n', count', h3, h4, h5, h6, h7, h8⟩ := ih h2
      obtain ⟨c1, c2, c3, c4, c5⟩ := countAfter_spec count ms
      refine ⟨n', count', ?_, ?_, ?_, ?_, ?_, ?_⟩
      · rw [Nodeversion.run, List.foldlM_cons, h1]
        exact h3
      · simpa [Bool.and_assoc, Bool.or_assoc] using h4
      · rw [List.length_cons]
        omega
      · intro hall
        rw [h6 fun ms' hms' => hall ms' (List.mem_cons_of_mem _ hms'), hall ms List.mem_cons_self]
        rfl
      · rintro ⟨ms', hms', hne⟩
        rcases List.mem_cons.mp hms' with rfl | hms'
        · exact (c4 hne).trans_le h5.1
        · exact c1.trans_lt (h7 ⟨ms', hms', hne⟩)
      · rintro ⟨ms', hms', hne⟩
        rcases List.mem_cons.mp hms' with rfl | hms'
        · exact (c5 hne).trans_le (Nat.div_le_div_right h5.1)
        · exact (Nat.div_le_div_right c1).trans_lt (h8 ⟨ms', hms', hne⟩)

/-- The fields are the whole word. -/
lemma Shows.ext {n' : Nodeversion} (h : Shows n leaf root deleted count)
    (h' : Shows n' leaf root deleted count) : n = n' := by
  have hins : n.v.extractLsb' 3 6 = n'.v.extractLsb' 3 6 :=
    BitVec.eq_of_toNat_eq (h.inserts.trans h'.inserts.symm)
  have hspl : n.v.extractLsb' 9 19 = n'.v.extractLsb' 9 19 :=
    BitVec.eq_of_toNat_eq (h.splits.trans h'.splits.symm)
  suffices hv : n.v = n'.v by
    cases n
    exact congrArg Nodeversion.mk hv
  refine BitVec.eq_of_getLsbD_eq fun k hk => ?_
  rcases (show k < 3 ∨ (3 ≤ k ∧ k < 9) ∨ (9 ≤ k ∧ k < 28) ∨ k = 28 ∨ k = 29 ∨ k = 30 ∨
    k = 31 by omega)
    with h0 | h0 | h0 | rfl | rfl | rfl | rfl
  · rw [h.low k h0, h'.low k h0]
  · have := congrArg (fun x => x.getLsbD (k - 3)) hins
    simpa [BitVec.getLsbD_extractLsb', show k - 3 < 6 by omega,
      show 3 + (k - 3) = k by omega] using this
  · have := congrArg (fun x => x.getLsbD (k - 9)) hspl
    simpa [BitVec.getLsbD_extractLsb', show k - 9 < 19 by omega,
      show 9 + (k - 9) = k by omega] using this
  · rw [h.unused, h'.unused]
  · rw [h.deleted, h'.deleted]
  · rw [h.root, h'.root]
  · rw [h.leaf, h'.leaf]

/-- Different split counters are seen by `has_split`. -/
lemma hasSplit_of_ne {x : Nodeversion} (h : vsplit x.v ≠ vsplit n.v) : n.hasSplit x = true := by
  rw [hasSplit, decide_eq_true_iff, BitVec.le_def]
  by_contra hlt
  refine h ?_
  have h0 : (x.v ^^^ n.v).extractLsb' 9 19 = 0#19 := by
    refine BitVec.eq_of_toNat_eq ?_
    rw [BitVec.extractLsb'_toNat, Nat.shiftRight_eq_div_pow,
      Nat.div_eq_of_lt (show _ < 2 ^ 9 from Nat.not_le.mp hlt)]
    rfl
  rw [BitVec.extractLsb'_xor, BitVec.xor_eq_zero_iff] at h0
  rw [vsplit, vsplit, h0]

/-- A difference above the lock bit is seen by `has_changed`. -/
lemma hasChanged_of_ne {x : Nodeversion} (h : vsplit x.v ≠ vsplit n.v ∨ vinsert x.v ≠ vinsert n.v) :
    n.hasChanged x = true := by
  rw [hasChanged, decide_eq_true_iff, BitVec.lt_def]
  rcases h with h | h
  · have := hasSplit_of_ne h
    rw [hasSplit, decide_eq_true_iff, BitVec.le_def] at this
    exact lt_of_lt_of_le (by decide) this
  · by_contra hlt
    refine h ?_
    have h0 : (x.v ^^^ n.v).extractLsb' 3 6 = 0#6 := by
      refine BitVec.eq_of_toNat_eq ?_
      rw [BitVec.extractLsb'_toNat, Nat.shiftRight_eq_div_pow,
        Nat.div_eq_of_lt ((Nat.not_lt.mp hlt).trans_lt (by decide))]
      rfl
    rw [BitVec.extractLsb'_xor, BitVec.xor_eq_zero_iff] at h0
    rw [vinsert, vinsert, h0]

/-- A stable word shows its own fields. -/
lemma shows_self (v : Nodeversion) (hlock : v.locked = false) (hins : v.inserting = false)
    (hspl : v.splitting = false) (hunused : v.test unused1Bit = false) :
    Shows v v.isleaf v.isRoot v.deleted (vsplit v.v * 64 + vinsert v.v) := by
  have h1 : vinsert v.v < 64 := BitVec.isLt _
  have h2 : vsplit v.v < 2 ^ 19 := BitVec.isLt _
  refine ⟨fun k hk => ?_, by omega, by omega, ?_, ?_, ?_, ?_⟩
  · interval_cases k
    · exact (test_shift v (by decide)).symm.trans hlock
    · exact (test_shift v (by decide)).symm.trans hins
    · exact (test_shift v (by decide)).symm.trans hspl
  · exact (test_shift v (by decide)).symm.trans hunused
  · exact (test_shift v (by decide)).symm
  · exact (test_shift v (by decide)).symm
  · exact (test_shift v (by decide)).symm

/-- **What optimistic readers rely on.** -/
theorem run_versions (v : Nodeversion) (hlock : v.locked = false) (hins : v.inserting = false)
    (hspl : v.splitting = false) (hunused : v.test unused1Bit = false) (sections : List (List Mark))
    (hlen : sections.length < 2 ^ 19) :
    ∃ w, v.run sections = some w ∧ (w.locked = false ∧ w.inserting = false ∧ w.splitting = false) ∧
      w.isleaf = v.isleaf ∧
      (w.deleted = true ↔ v.deleted = true ∨ ∃ ms ∈ sections, Mark.deleted ∈ ms) ∧
      (w.isRoot = true ↔ v.isRoot = true ∧ ¬ ∃ ms ∈ sections, Mark.split ∈ ms ∨ Mark.deleted ∈ ms) ∧
      (w.hasChanged v = true ↔ ∃ ms ∈ sections, ms ≠ []) ∧
      ((∃ ms ∈ sections, Mark.split ∈ ms ∨ Mark.deleted ∈ ms) → w.hasSplit v = true) := by
  have hv := shows_self v hlock hins hspl hunused
  obtain ⟨w, count', h1, h2, ⟨c1, c2, c3⟩, c4, c5, c6⟩ := hv.run sections
  have hsplits : ∀ ms, Mark.splits ms = true ↔ Mark.split ∈ ms ∨ Mark.deleted ∈ ms := fun ms => by
    rw [Mark.splits, decide_eq_true_iff]
  refine ⟨w, h1, ⟨?_, ?_, ?_⟩, ?_, ?_, ?_, ⟨fun hch => ?_, fun hd => ?_⟩, fun hs => ?_⟩
  · exact (test_shift w (by decide)).trans (h2.low 0 (by decide))
  · exact (test_shift w (by decide)).trans (h2.low 1 (by decide))
  · exact (test_shift w (by decide)).trans (h2.low 2 (by decide))
  · exact (test_shift w (by decide)).trans h2.leaf
  · rw [deleted, deletedBit, test_shift w (by decide), h2.deleted, Bool.or_eq_true,
      List.any_eq_true]
    simp only [decide_eq_true_iff]
  · rw [isRoot, rootBit, test_shift w (by decide), h2.root, Bool.and_eq_true, Bool.not_eq_true',
      ← Bool.not_eq_true, List.any_eq_true]
    simp only [hsplits]
  · by_contra hno
    push Not at hno
    have h3 : sections.any Mark.splits = false := List.any_eq_false.mpr fun ms hms => by
      rw [hno ms hms]
      decide
    have h4 : (sections.any fun ms => decide (Mark.deleted ∈ ms)) = false :=
      List.any_eq_false.mpr fun ms hms => by
        rw [hno ms hms]
        decide
    rw [c4 hno, h3, h4, Bool.not_false, Bool.and_true, Bool.or_false] at h2
    obtain rfl : w = v := h2.ext hv
    rw [hasChanged, BitVec.xor_self] at hch
    exact absurd hch (by decide)
  · have hlt := c5 hd
    have hne : (vsplit v.v * 64 + vinsert v.v) % 2 ^ 25 ≠ count' % 2 ^ 25 := by omega
    refine hasChanged_of_ne ?_
    rw [hv.inserts, hv.splits, h2.inserts, h2.splits]
    omega
  · have hlt := c6 (by simpa only [hsplits] using hs)
    refine hasSplit_of_ne ?_
    rw [hv.splits, h2.splits]
    omega

/-- An insert and a split in a leaf that is a root. -/
theorem run_versions_insertSplit :
    ∃ w, (⟨isleafBit ||| rootBit⟩ : Nodeversion).run [[.insert], [.insert, .split]] = some w ∧
      w.isleaf = true ∧ w.isRoot = false ∧ w.hasSplit ⟨isleafBit ||| rootBit⟩ = true := by
  obtain ⟨w, h1, -, h2, -, h3, -, h4⟩ :=
    run_versions ⟨isleafBit ||| rootBit⟩ (by decide) (by decide)
    (by decide) (by decide) [[.insert], [.insert, .split]] (by decide)
  have hs : ∃ ms ∈ [[Mark.insert], [Mark.insert, Mark.split]], Mark.split ∈ ms ∨
    Mark.deleted ∈ ms := by decide
  refine ⟨w, h1, h2.trans (by decide), ?_, h4 hs⟩
  rw [← Bool.not_eq_true, h3]
  exact fun h => h.2 hs

/-- A version may be deleted before the first section, and the unused bit is cleared by the
first. -/
theorem run_versions_deletedBefore :
    (¬ ∀ v : Nodeversion, v.locked = false → v.inserting = false → v.splitting = false →
      ∀ sections : List (List Mark), sections.length < 2 ^ 19 →
        ∃ w, v.run sections = some w ∧ (w.deleted = true ↔ ∃ ms ∈ sections, Mark.deleted ∈ ms)) ∧
    ¬ ∀ v : Nodeversion, v.locked = false → v.inserting = false → v.splitting = false →
      ∀ sections : List (List Mark), sections.length < 2 ^ 19 →
        ∃ w, v.run sections = some w ∧ (w.hasChanged v = true ↔ ∃ ms ∈ sections, ms ≠ []) := by
  constructor
  · intro h
    obtain ⟨w, h1, h2⟩ :=
      h ⟨isleafBit ||| deletedBit⟩ (by decide) (by decide) (by decide) [[]] (by decide)
    have hw : w = ⟨isleafBit ||| deletedBit⟩ := Option.some.inj (h1.symm.trans (by decide))
    subst hw
    exact absurd (h2.mp (by decide)) (by decide)
  · intro h
    obtain ⟨w, h1, h2⟩ := h ⟨unused1Bit⟩ (by decide) (by decide) (by decide) [[]] (by decide)
    have hw : w = ⟨0⟩ := Option.some.inj (h1.symm.trans (by decide))
    subst hw
    exact absurd (h2.mp (by decide)) (by decide)

end Nodeversion

end MasstreeLHM
