import Mathlib.Data.Nat.Bitwise
import Mathlib.Tactic.Lemma

/-!
# Words as sequences of nibbles

A word of `w` bits is read as a sequence of 4-bit fields, the lowest first.  Shifts by multiples of
four bits move the sequence, masks keep a part of it, and adding or subtracting one changes the
first field as long as it does not carry.

`nibble` is the field at a position, and positions behind the word give zero.  There is one lemma
for each way in which code handles packed fields: `nibble_shiftLeft` and `nibble_shiftRight` for
shifts, `nibble_mask` for the mask of the first fields, `nibble_not` for a complement,
`nibble_ofNat` for a small number, and `nibble_add_one` and `nibble_sub_one` for a count that is
kept in the lowest field.

Everything is for words of any width.  Nothing is computed bit by bit behind these lemmas: two words
are the same as far as a reader of fields can tell if their fields are, and a proof about packed
code is a case analysis on the position of a field.
-/

namespace BitVec

variable {w v : ℕ}

/-- Field `k` of a word. -/
def nibble (x : BitVec w) (k : ℕ) : BitVec 4 := x.extractLsb' (4 * k) 4

@[simp] lemma nibble_and (x y : BitVec w) (k : ℕ) :
    (x &&& y).nibble k = x.nibble k &&& y.nibble k := by
  ext j hj
  simp [nibble]

@[simp] lemma nibble_or (x y : BitVec w) (k : ℕ) :
    (x ||| y).nibble k = x.nibble k ||| y.nibble k := by
  ext j hj
  simp [nibble]

@[simp] lemma nibble_xor (x y : BitVec w) (k : ℕ) :
    (x ^^^ y).nibble k = x.nibble k ^^^ y.nibble k := by
  ext j hj
  simp [nibble]

lemma nibble_not (x : BitVec w) {k : ℕ} (hk : 4 * (k + 1) ≤ w) :
    (~~~x).nibble k = ~~~(x.nibble k) := by
  ext j hj
  simp [nibble, show 4 * k + j < w by omega]

lemma nibble_eq_zero (x : BitVec w) {k : ℕ} (hk : w ≤ 4 * k) : x.nibble k = 0#4 := by
  ext j hj
  simp [nibble, getLsbD_of_ge x (4 * k + j) (by omega)]

/-- Shifting up by `m` fields. -/
lemma nibble_shiftLeft (x : BitVec w) (m : ℕ) {k : ℕ} (hk : 4 * (k + 1) ≤ w) :
    (x <<< (4 * m)).nibble k = if k < m then 0 else x.nibble (k - m) := by
  ext j hj
  split_ifs with h
  · simp [nibble, show 4 * k + j < w by omega, show 4 * k + j < 4 * m by omega]
  · simp only [nibble, getElem_extractLsb', getLsbD_shiftLeft]
    rw [show 4 * (k - m) + j = 4 * k + j - 4 * m by omega]
    simp [show 4 * k + j < w by omega, show ¬ 4 * k + j < 4 * m by omega]

lemma nibble_shiftLeft_four (x : BitVec w) {k : ℕ} (hk : 4 * (k + 1) ≤ w) :
    (x <<< 4).nibble k = if k = 0 then 0#4 else x.nibble (k - 1) := by
  have h := nibble_shiftLeft x 1 hk
  rw [Nat.mul_one] at h
  rw [h]
  split_ifs <;> first | rfl | omega

/-- Shifting down by `m` fields. -/
lemma nibble_shiftRight (x : BitVec w) (m k : ℕ) :
    (x >>> (4 * m)).nibble k = x.nibble (k + m) := by
  ext j hj
  simp only [nibble, getElem_extractLsb', getLsbD_ushiftRight]
  congr 1
  omega

/-- The lowest `m` bits set; all of them if `m` exceeds the width. -/
lemma getLsbD_twoPow_sub_one (m k : ℕ) :
    (BitVec.ofNat w (2 ^ m) - 1#w).getLsbD k = (decide (k < m) && decide (k < w)) := by
  by_cases hk : k < w
  swap
  · simp [getLsbD_of_ge _ _ (Nat.not_lt.mp hk), hk]
  have hw : 0 < w := by omega
  rw [getLsbD, toNat_sub, toNat_ofNat, toNat_ofNat]
  have h1 : 1 % 2 ^ w = 1 := Nat.mod_eq_of_lt (Nat.one_lt_two_pow hw.ne')
  rw [h1]
  by_cases hm : m < w
  · have h2 : 2 ^ m % 2 ^ w = 2 ^ m := Nat.mod_eq_of_lt (Nat.pow_lt_pow_right (by omega) hm)
    have h3 : (2 ^ w - 1 + 2 ^ m) % 2 ^ w = 2 ^ m - 1 := by
      have hp := Nat.two_pow_pos m
      have hq : 2 ^ m < 2 ^ w := Nat.pow_lt_pow_right (by omega) hm
      rw [show 2 ^ w - 1 + 2 ^ m = (2 ^ m - 1) + 2 ^ w by omega, Nat.add_mod_right,
        Nat.mod_eq_of_lt (by omega)]
    rw [h2, h3, Nat.testBit_two_pow_sub_one]
    simp [hk]
  · have h2 : 2 ^ m % 2 ^ w = 0 :=
      Nat.mod_eq_zero_of_dvd (Nat.pow_dvd_pow 2 (Nat.not_lt.mp hm))
    rw [h2, Nat.add_zero, Nat.mod_eq_of_lt (Nat.sub_lt (Nat.two_pow_pos w) Nat.one_pos),
      Nat.testBit_two_pow_sub_one]
    simp [hk, show k < m by omega]

/-- The mask of the first `m` fields. -/
lemma nibble_mask (m : ℕ) {k : ℕ} (hk : 4 * (k + 1) ≤ w) :
    (BitVec.ofNat w (2 ^ (4 * m)) - 1#w).nibble k = if k < m then 15#4 else 0#4 := by
  ext j hj
  simp only [nibble, getElem_extractLsb', getLsbD_twoPow_sub_one]
  split_ifs with h
  · have h15 : ∀ j < 4, (15#4).getLsbD j = true := by decide
    rw [← getLsbD_eq_getElem, h15 j hj]
    simp [show 4 * k + j < w by omega, show 4 * k + j < 4 * m by omega]
  · simp [show ¬ 4 * k + j < 4 * m by omega]

/-- A number below 16 in the first field. -/
lemma nibble_ofNat {n : ℕ} (hn : n < 16) (hw : 4 ≤ w) (k : ℕ) :
    (BitVec.ofNat w n).nibble k = if k = 0 then BitVec.ofNat 4 n else 0#4 := by
  ext j hj
  simp only [nibble, getElem_extractLsb', getLsbD_ofNat]
  split_ifs with h
  · subst h
    rw [← getLsbD_eq_getElem, getLsbD_ofNat]
    simp [show j < w by omega, hj]
  · have : n.testBit (4 * k + j) = false := by
      apply Nat.testBit_lt_two_pow
      calc n < 2 ^ 4 := hn
        _ ≤ 2 ^ (4 * k + j) := Nat.pow_le_pow_right (by omega) (by omega)
    simp [this]

lemma toNat_nibble (x : BitVec w) (k : ℕ) : (x.nibble k).toNat = x.toNat / 16 ^ k % 16 := by
  rw [nibble, extractLsb'_toNat, Nat.shiftRight_eq_div_pow, Nat.pow_mul]

/-- Adding one where it does not carry. -/
lemma nibble_add_one (x : BitVec w) {k : ℕ} (hw : 4 ≤ w) (h : (x.nibble 0).toNat < 15) :
    (x + 1#w).nibble k = if k = 0 then BitVec.ofNat 4 ((x.nibble 0).toNat + 1) else x.nibble k := by
  rw [toNat_nibble, Nat.pow_zero, Nat.div_one] at h
  have h16 : 16 ∣ 2 ^ w := by
    rw [show 16 = 2 ^ 4 from rfl]
    exact Nat.pow_dvd_pow 2 hw
  have hlt := x.isLt
  have hone : 1 % 2 ^ w = 1 := Nat.mod_eq_of_lt (Nat.one_lt_two_pow (by omega))
  have hsum : (x + 1#w).toNat = x.toNat + 1 := by
    rw [toNat_add, toNat_ofNat, hone]
    refine Nat.mod_eq_of_lt ?_
    obtain ⟨q, hq⟩ := h16
    omega
  apply eq_of_toNat_eq
  split_ifs with hk
  · subst hk
    rw [toNat_nibble, hsum, toNat_ofNat, toNat_nibble]
    simp only [Nat.pow_zero, Nat.div_one]
    omega
  · obtain ⟨k, rfl⟩ := Nat.exists_eq_succ_of_ne_zero hk
    rw [toNat_nibble, toNat_nibble, hsum, Nat.pow_succ', ← Nat.div_div_eq_div_mul,
      ← Nat.div_div_eq_div_mul]
    congr 2
    omega

/-- Subtracting one where it does not borrow. -/
lemma nibble_sub_one (x : BitVec w) {k : ℕ} (hw : 4 ≤ w) (h : 0 < (x.nibble 0).toNat) :
    (x - 1#w).nibble k = if k = 0 then BitVec.ofNat 4 ((x.nibble 0).toNat - 1) else x.nibble k := by
  rw [toNat_nibble, Nat.pow_zero, Nat.div_one] at h
  have hlt := x.isLt
  have hone : 1 % 2 ^ w = 1 := Nat.mod_eq_of_lt (Nat.one_lt_two_pow (by omega))
  have hsub : (x - 1#w).toNat = x.toNat - 1 := by
    rw [toNat_sub, toNat_ofNat, hone, show 2 ^ w - 1 + x.toNat = (x.toNat - 1) + 2 ^ w by omega,
      Nat.add_mod_right, Nat.mod_eq_of_lt (by omega)]
  apply eq_of_toNat_eq
  split_ifs with hk
  · subst hk
    rw [toNat_nibble, hsub, toNat_ofNat, toNat_nibble]
    simp only [Nat.pow_zero, Nat.div_one]
    omega
  · obtain ⟨k, rfl⟩ := Nat.exists_eq_succ_of_ne_zero hk
    rw [toNat_nibble, toNat_nibble, hsub, Nat.pow_succ', ← Nat.div_div_eq_div_mul,
      ← Nat.div_div_eq_div_mul]
    congr 2
    omega

@[simp] lemma and_fifteen (a : BitVec 4) : a &&& 15#4 = a := by
  revert a
  decide

end BitVec
