import MasstreeLHM.Log.Endian

/-!
# Slices of byte strings as integers

A fixed number of bytes, filled up with zero bytes where the string is shorter, read as a number
with the first byte on top.  Such numbers compare as the strings do, except that they do not see
trailing zero bytes; the lengths decide what they leave open.

`padTo` cuts or fills up a string to a number of bytes, and `valueBE` reads bytes as a number.  The
width is a parameter in all lemmas; keys use eight bytes.

* `valueBE_lt_iff` — numbers of equally many bytes compare as the bytes do, the first one deciding.
* `lt_of_padTo_lt` — a filled-up string that is smaller belongs to a smaller string.
* `take_eq_of_padTo` — strings that agree up to the filling are prefixes of each other, as far as
  they were cut.

The order on strings is the lexicographic order of lists, in which a proper prefix comes first.
-/

namespace MasstreeLHM

/-- The first `n` bytes, filled up with zero bytes. -/
def padTo : ℕ → Bytes → Bytes
  | 0, _ => []
  | n + 1, [] => 0 :: padTo n []
  | n + 1, b :: bs => b :: padTo n bs

/-- The number whose highest byte comes first. -/
def valueBE (bs : Bytes) : ℕ := valueLE bs.reverse

variable {n : ℕ} {a b : Bytes}

@[simp] lemma padTo_length : ∀ n (a : Bytes), (padTo n a).length = n
  | 0, _ => rfl
  | n + 1, [] => by rw [padTo, List.length_cons, padTo_length n]
  | n + 1, b :: bs => by rw [padTo, List.length_cons, padTo_length n]

lemma padTo_of_le : ∀ {n} {a : Bytes}, n ≤ a.length → padTo n a = a.take n
  | 0, _, _ => rfl
  | n + 1, [], h => by simp at h
  | n + 1, b :: bs, h => by
      rw [padTo, List.take_succ_cons, padTo_of_le (by simpa using h)]

lemma padTo_nil : ∀ n, padTo n [] = List.replicate n 0
  | 0 => rfl
  | n + 1 => by rw [padTo, padTo_nil n, List.replicate_succ]

lemma padTo_eq : ∀ n (a : Bytes), padTo n a = a.take n ++ List.replicate (n - a.length) 0
  | 0, a => by simp [padTo]
  | n + 1, [] => by rw [padTo_nil, List.take_nil, List.nil_append, List.length_nil, Nat.sub_zero]
  | n + 1, b :: bs => by
      rw [padTo, padTo_eq n bs, List.take_succ_cons, List.length_cons, Nat.add_sub_add_right]
      rfl

lemma valueLE_append : ∀ a b : Bytes, valueLE (a ++ b) = valueLE a + 256 ^ a.length * valueLE b
  | [], b => by simp [valueLE]
  | x :: a, b => by
      rw [List.cons_append, valueLE, valueLE, valueLE_append a b, List.length_cons, Nat.pow_succ]
      ring

/-- The bytes of a number are those it was read from. -/
lemma storeLE_valueLE : ∀ a : Bytes, storeLE a.length (valueLE a) = a
  | [] => rfl
  | x :: a => by
      have hx : x.toNat < 256 := x.toNat_lt
      rw [List.length_cons, valueLE, storeLE, show (x.toNat + 256 * valueLE a) / 256 = valueLE a by
        omega, storeLE_valueLE a]
      congr 1
      apply UInt8.toNat_inj.mp
      rw [UInt8.toNat_ofNat']
      omega

lemma valueLE_replicate : ∀ n, valueLE (List.replicate n 0) = 0
  | 0 => rfl
  | n + 1 => by rw [List.replicate_succ, valueLE, valueLE_replicate n]; rfl

lemma valueBE_cons (x : UInt8) (a : Bytes) :
    valueBE (x :: a) = valueBE a + 256 ^ a.length * x.toNat := by
  simp [valueBE, valueLE_append, valueLE]

lemma valueBE_lt (a : Bytes) : valueBE a < 256 ^ a.length := by
  have h := valueLE_lt a.reverse
  rwa [List.length_reverse] at h

/-- Numbers of equally many bytes compare as the bytes do, the first one deciding. -/
lemma valueBE_lt_iff : ∀ {a b : Bytes}, a.length = b.length → (valueBE a < valueBE b ↔ a < b)
  | [], [], _ => by simp
  | [], y :: b, h => by simp at h
  | x :: a, [], h => by simp at h
  | x :: a, y :: b, h => by
      have hl : a.length = b.length := by simpa using h
      have ha := valueBE_lt a
      have hb := valueBE_lt b
      rw [hl] at ha
      rw [valueBE_cons, valueBE_cons, List.cons_lt_cons_iff, ← valueBE_lt_iff hl, hl,
        UInt8.lt_iff_toNat_lt]
      rcases lt_trichotomy x.toNat y.toNat with hxy | hxy | hxy
      · have := Nat.mul_le_mul_left (256 ^ b.length) (show x.toNat + 1 ≤ y.toNat from hxy)
        rw [Nat.mul_add, Nat.mul_one] at this
        exact iff_of_true (by omega) (Or.inl hxy)
      · have hx : x = y := UInt8.toNat_inj.mp hxy
        simp [hx]
      · have := Nat.mul_le_mul_left (256 ^ b.length) (show y.toNat + 1 ≤ x.toNat from hxy)
        rw [Nat.mul_add, Nat.mul_one] at this
        have hx : x ≠ y := by
          rintro rfl
          exact Nat.lt_irrefl _ hxy
        refine iff_of_false (by omega) ?_
        rintro (h1 | ⟨h1, _⟩)
        · omega
        · exact hx h1

lemma valueBE_inj (h : a.length = b.length) (he : valueBE a = valueBE b) : a = b := by
  have ha := storeLE_valueLE a.reverse
  have hb := storeLE_valueLE b.reverse
  rw [List.length_reverse] at ha hb
  rw [← List.reverse_inj, ← ha, ← hb, h]
  exact congrArg (storeLE b.length) he

/-- Filling up with zero bytes keeps the order as far as it can be seen. -/
lemma lt_of_padTo_lt : ∀ {n} {a b : Bytes}, padTo n a < padTo n b → a < b
  | 0, a, b, h => by simp [padTo] at h
  | n + 1, [], [], h => absurd h (List.lt_irrefl _)
  | n + 1, [], y :: b, h => by simp
  | n + 1, x :: a, [], h => by
      rw [padTo, padTo, List.cons_lt_cons_iff] at h
      rcases h with h | ⟨_, h⟩
      · exact absurd h (by simp [UInt8.lt_iff_toNat_lt])
      · exact absurd (lt_of_padTo_lt h) (by simp)
  | n + 1, x :: a, y :: b, h => by
      rw [padTo, padTo, List.cons_lt_cons_iff] at h
      rw [List.cons_lt_cons_iff]
      exact h.imp_right (And.imp_right lt_of_padTo_lt)

/-- Strings that agree up to the filling are prefixes of each other as far as they were cut. -/
lemma take_eq_of_padTo : ∀ {n} {a b : Bytes}, padTo n a = padTo n b → a.length ≤ b.length →
    a.take n = b.take (min n a.length)
  | 0, a, b, _, _ => by simp
  | n + 1, [], b, _, _ => by simp
  | n + 1, x :: a, [], _, hl => by simp at hl
  | n + 1, x :: a, y :: b, h, hl => by
      rw [padTo, padTo, List.cons.injEq] at h
      rw [List.take_succ_cons, List.length_cons, Nat.add_min_add_right, List.take_succ_cons, h.1,
        take_eq_of_padTo h.2 (by simpa using hl)]

end MasstreeLHM
