import Mathlib.Tactic.Common
import Mathlib.Algebra.Order.Ring.Nat

/-!
# The memory of a `String`

`String::assign` and `String::append_uninitialized` of `string.cc` choose the capacity of the
memory that holds a string.  The capacities are computed in an `int`, and that bounds the strings
that can be copied and appended to:

* `copyCapacity` — a copy.  The sum of the length and `15 + MEMO_SPACE` overflows from 2^31 - 27
  bytes on.
* `appendCapacity` — an append.  Where the bytes do not fit behind the string, the memory is
  doubled until they do.  Above 2^30 bytes the doubled capacity is no `int`, and the loop never
  ends.
* `HasRoom` — when an append comes to an end, without reference to capacities in between.

`copyCapacity_isSome` and `appendCapacity_isSome` are the two bounds, each an equivalence, so no
string is excluded that the code can hold.  Memory itself is taken to suffice.  A string without a
memo has the capacity zero.
-/

namespace MasstreeLHM

namespace Msgpack

/-- `MEMO_SPACE`. -/
def memoSpace : ℕ := 12

/-- The capacity of a copy of `len` bytes, as `String::assign` chooses it: `none` when the sum
overflows. -/
def copyCapacity (len : ℕ) : Option ℕ :=
  if len = 0 then some 0
  else if len + 15 + memoSpace < 2147483648 then
    some ((len + 15 + memoSpace) / 16 * 16 - memoSpace)
  else none

/-- `for (; memo_capacity < want_memo_len; ) memo_capacity *= 2`, when `memo_capacity` is an `int`
for so many doublings.  `none` when the loop has not ended by then: it never ends. -/
def doubleCapacity (want : ℕ) : ℕ → ℕ → Option ℕ
  | 0, capacity => if capacity < want then none else some capacity
  | doublings + 1, capacity =>
      if capacity < want then doubleCapacity want doublings (capacity * 2) else some capacity

/-- The capacity behind `append_uninitialized(len)` on a string of `length` bytes that are the last
ones of their memory. -/
def appendCapacity (capacity length len : ℕ) : Option ℕ :=
  if len = 0 then some capacity
  else if length + len < capacity then some capacity
  else
    let want := length + len + memoSpace
    if want ≤ 1024 then some ((want + 15) / 16 * 16 - memoSpace)
    -- the capacity starts at 2048, and 2048 * 2^19 is the last power of two in an `int`
    else (doubleCapacity want 19 2048).map fun capacity => capacity - memoSpace

/-- An append works: there is nothing to append, the bytes fit behind the string, or both together
fit in doubled memory. -/
def HasRoom (capacity length len : ℕ) : Prop :=
  len = 0 ∨ length + len < capacity ∨ length + len ≤ 1073741812

lemma copyCapacity_isSome {len : ℕ} : (copyCapacity len).isSome ↔ len < 2147483621 := by
  rw [copyCapacity]
  split_ifs with h0 hlen
  · simp [h0]
  · rw [memoSpace] at hlen
    simp only [Option.isSome_some, true_iff]
    omega
  · rw [memoSpace] at hlen
    simp only [Option.isSome_none, Bool.false_eq_true, false_iff]
    omega

lemma doubleCapacity_isSome (want : ℕ) : ∀ doublings capacity : ℕ,
    (doubleCapacity want doublings capacity).isSome ↔ want ≤ capacity * 2 ^ doublings
  | 0, capacity => by
      rw [doubleCapacity, pow_zero, mul_one]
      split_ifs with h
      · simpa using h
      · simpa using h
  | doublings + 1, capacity => by
      rw [doubleCapacity]
      split_ifs with h
      · rw [doubleCapacity_isSome want doublings, pow_succ', mul_assoc]
      · have hpow : 0 < 2 ^ (doublings + 1) := Nat.two_pow_pos _
        simp only [Option.isSome_some, true_iff]
        exact (Nat.not_lt.mp h).trans (Nat.le_mul_of_pos_right capacity hpow)

/-- An append comes to an end exactly when there is room. -/
lemma appendCapacity_isSome {capacity length len : ℕ} :
    (appendCapacity capacity length len).isSome ↔ HasRoom capacity length len := by
  rw [appendCapacity, HasRoom]
  split_ifs with h0 hfits
  · simp [h0]
  · simp [hfits]
  · rw [or_iff_right h0, or_iff_right hfits]
    dsimp only
    split_ifs with hsmall
    · rw [memoSpace] at hsmall
      simp only [Option.isSome_some, true_iff]
      omega
    · rw [Option.isSome_map, doubleCapacity_isSome, memoSpace]
      omega

end Msgpack

end MasstreeLHM
