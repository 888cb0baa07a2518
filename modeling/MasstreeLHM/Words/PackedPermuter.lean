import MasstreeLHM.Kpermuter
import MasstreeLHM.Words.Nibbles

/-!
# The packing of `kpermuter`

`kpermuter<W>` of `kpermuter.hh`: the size is the lowest nibble of the word, element `i` is nibble
`i + 1`, and what is above element `W - 1` is garbage.  The word of a permuter has `value_type`,
which for `W <= 3` is twice as wide as the `storage_type` that a leaf keeps it in and that the
initial values are made for; a shift by `i << 2` bits is a shift by `i` nibbles.

The operations are the expressions of the source on the word: `insertFromBack` moves the fields
behind a position up, `remove` rotates a part of them, `removeToBack` takes an element behind the
last one, and `exchange` and `exchangeValues` change two fields.  `exchangeValues` builds the new
word in a loop, a field at a time.

The second half gives each field of each result: `nibble_insertFromBack`, `nibble_remove`,
`nibble_removeToBack`, `nibble_exchange`, `nibble_exchangeValues`.  `makeSorted_spec` reads the
initial values, which are constants of the source.
-/

namespace MasstreeLHM

/-- The bits of `storage_type`. -/
def storageBits (W : ℕ) : ℕ := if 7 < W then 64 else if 3 < W then 32 else 16

/-- The bits of `value_type`. -/
def valueBits (W : ℕ) : ℕ := if 7 < W then 64 else 32

/-- `kpermuter<W>`: the word `x_`. -/
structure PackedKpermuter (W : ℕ) where
  x : BitVec (valueBits W)
deriving DecidableEq

namespace PackedKpermuter

variable {W : ℕ}

/-- `value`. -/
def value (p : PackedKpermuter W) : BitVec (valueBits W) := p.x

/-- The constructor from a value. -/
def ofValue (v : BitVec (valueBits W)) : PackedKpermuter W := ⟨v⟩

/-- `initial_value`. -/
def initialValue (W : ℕ) : BitVec (valueBits W) :=
  BitVec.ofNat _ (if 7 < W then 0x0123456789ABCDE0 else if 3 < W then 0x01234560 else 0x0120)

/-- `full_value`. -/
def fullValue (W : ℕ) : BitVec (valueBits W) :=
  BitVec.ofNat _ (if 7 < W then 0xEDCBA98765432100 else if 3 < W then 0x65432100 else 0x2100)

/-- `max_width`. -/
def maxWidth (W : ℕ) : ℕ := storageBits W / 8 * 2 - 1

/-- `make_empty`. -/
def makeEmptyValue (W : ℕ) : BitVec (valueBits W) :=
  (initialValue W >>> (4 * (maxWidth W - W))) &&& ~~~15#_

/-- `make_sorted`. -/
def makeSortedValue (W n : ℕ) : BitVec (valueBits W) :=
  let mask : BitVec (valueBits W) := (if n = W then 0 else 16#_ <<< (4 * n)) - 1#_
  (makeEmptyValue W <<< (4 * n)) ||| (fullValue W &&& mask) ||| BitVec.ofNat _ n

/-- The empty permuter. -/
def makeEmpty (W : ℕ) : PackedKpermuter W := ofValue (makeEmptyValue W)

/-- The permuter of `n` elements in order. -/
def makeSorted (W n : ℕ) : PackedKpermuter W := ofValue (makeSortedValue W n)

/-- `size`. -/
def size (p : PackedKpermuter W) : ℕ := (p.value &&& 15#_).toNat

/-- `operator[]`. -/
def get (p : PackedKpermuter W) (i : ℕ) : ℕ := ((p.value >>> (4 * i + 4)) &&& 15#_).toNat

/-- `back`. -/
def back (p : PackedKpermuter W) : ℕ := p.get (W - 1)

/-- `set_size`. -/
def setSize (p : PackedKpermuter W) (n : ℕ) : PackedKpermuter W :=
  ofValue ((p.value &&& ~~~15#_) ||| BitVec.ofNat _ n)

/-- `insert_from_back`. -/
def insertFromBack (p : PackedKpermuter W) (i : ℕ) : ℕ × PackedKpermuter W :=
  let value := p.back
  let lower : BitVec (valueBits W) := (16#_ <<< (4 * i)) - 1#_
  let upper : BitVec (valueBits W) := ~~~((256#_ <<< (4 * i)) - 1#_)
  (value, ofValue (
    -- increment size, leave lower slots unchanged
    ((p.value + 1#_) &&& lower)
      -- insert slot
      ||| (BitVec.ofNat _ value <<< (4 * i + 4))
      -- shift up unchanged higher entries and empty slots
      ||| ((p.value <<< 4) &&& upper)))

/-- `remove`. -/
def remove (p : PackedKpermuter W) (i : ℕ) : PackedKpermuter W :=
  if p.size = i + 1 then ofValue (p.value - 1#_)
  else
    let rot := 4 * (p.size - i - 1)
    let mask : BitVec (valueBits W) := ((16#_ <<< rot) - 1#_) <<< (4 * (i + 1))
    ofValue (
      ((p.value - 1#_) &&& ~~~mask)
        ||| (((p.value &&& mask) >>> 4) &&& mask)
        ||| (((p.value &&& mask) <<< rot) &&& mask))

/-- `remove_to_back`. -/
def removeToBack (p : PackedKpermuter W) (i : ℕ) : PackedKpermuter W :=
  let mask : BitVec (valueBits W) := ~~~((16#_ <<< (4 * i)) - 1#_)
  let x := p.value &&& ((16#_ <<< (4 * W)) - 1#_)
  ofValue (((x - 1#_) &&& ~~~mask) ||| ((x >>> 4) &&& mask) |||
    ((x &&& mask) <<< (4 * (W - i - 1))))

/-- `exchange`. -/
def exchange (p : PackedKpermuter W) (i j : ℕ) : PackedKpermuter W :=
  let diff := ((p.value >>> (4 * i)) ^^^ (p.value >>> (4 * j))) &&& 240#_
  ofValue (p.value ^^^ ((diff <<< (4 * i)) ||| (diff <<< (4 * j))))

/-- The loop of `exchange_values`, with the number of rounds to go. -/
def exchangeLoop (W x y : ℕ) : ℕ → BitVec (valueBits W) → BitVec (valueBits W) →
    BitVec (valueBits W)
  | 0, diff, _ => diff
  | n + 1, diff, p =>
      let v := ((p >>> (4 * W)) &&& 15#_).toNat
      let diff := diff ^^^ (if v = x ∨ v = y then BitVec.ofNat _ (x ^^^ y) else 0)
      exchangeLoop W x y n (diff <<< 4) (p <<< 4)

/-- `exchange_values`. -/
def exchangeValues (p : PackedKpermuter W) (x y : ℕ) : PackedKpermuter W :=
  ofValue (p.value ^^^ exchangeLoop W x y W 0 p.value)

/-! ## Nibbles of the word -/

@[simp] lemma value_ofValue (v : BitVec (valueBits W)) : (ofValue v).value = v := rfl

variable {p : PackedKpermuter W} {i j k n : ℕ}

lemma toNat_fifteen (W : ℕ) : (15#(valueBits W)).toNat = 15 := by
  rw [BitVec.toNat_ofNat]
  refine Nat.mod_eq_of_lt ?_
  unfold valueBits
  split_ifs <;> omega

lemma size_eq (p : PackedKpermuter W) : p.size = (p.value.nibble 0).toNat := by
  rw [size, BitVec.toNat_and, toNat_fifteen, BitVec.toNat_nibble, Nat.pow_zero, Nat.div_one]
  exact Nat.and_two_pow_sub_one_eq_mod _ 4

lemma get_eq (p : PackedKpermuter W) (i : ℕ) : p.get i = (p.value.nibble (i + 1)).toNat := by
  rw [get, BitVec.toNat_and, toNat_fifteen, BitVec.toNat_nibble, BitVec.toNat_ushiftRight,
    Nat.shiftRight_eq_div_pow, show 4 * i + 4 = 4 * (i + 1) by omega, Nat.pow_mul]
  exact Nat.and_two_pow_sub_one_eq_mod _ 4

lemma mask_eq (w m : ℕ) : 16#w <<< (4 * m) = BitVec.ofNat w (2 ^ (4 * (m + 1))) := by
  apply BitVec.eq_of_toNat_eq
  rw [BitVec.toNat_shiftLeft, Nat.shiftLeft_eq, BitVec.toNat_ofNat, BitVec.toNat_ofNat,
    Nat.mod_mul_mod, show 4 * (m + 1) = 4 + 4 * m by omega, Nat.pow_add]

lemma mask_eq' (w m : ℕ) : 256#w <<< (4 * m) = BitVec.ofNat w (2 ^ (4 * (m + 2))) := by
  apply BitVec.eq_of_toNat_eq
  rw [BitVec.toNat_shiftLeft, Nat.shiftLeft_eq, BitVec.toNat_ofNat, BitVec.toNat_ofNat,
    Nat.mod_mul_mod, show 4 * (m + 2) = 8 + 4 * m by omega, Nat.pow_add]

/-- The word has room for the size and the elements. -/
lemma fits (hW : W ≤ 15) (hk : k ≤ W) : 4 * (k + 1) ≤ valueBits W := by
  unfold valueBits
  split_ifs <;> omega

/-- A field of the value either fits or is above the word. -/
lemma fits_or (W k : ℕ) : 4 * (k + 1) ≤ valueBits W ∨ valueBits W ≤ 4 * k := by
  unfold valueBits
  split_ifs <;> omega

lemma nibble_back (hs : 0 < W) : BitVec.ofNat 4 p.back = p.value.nibble W := by
  rw [back, get_eq, Nat.sub_add_cancel hs, BitVec.ofNat_toNat, BitVec.setWidth_eq]

lemma nibble_setSize (hW : W ≤ 15) (hn : n ≤ W) (hk : k ≤ W) :
    (p.setSize n).value.nibble k = if k = 0 then BitVec.ofNat 4 n else p.value.nibble k := by
  have h0 := fits hW (Nat.zero_le W)
  rw [setSize, value_ofValue, BitVec.nibble_or, BitVec.nibble_and,
    BitVec.nibble_not _ (fits hW hk), BitVec.nibble_ofNat (by omega) (by omega),
    BitVec.nibble_ofNat (by omega) (by omega)]
  split_ifs with h
  · simp
  · simp

lemma nibble_insertFromBack (hW : W ≤ 15) (hs : p.size < W) (hk : k ≤ W) :
    (p.insertFromBack i).2.value.nibble k
      = if k = 0 then BitVec.ofNat 4 (p.size + 1)
        else if k ≤ i then p.value.nibble k
        else if k = i + 1 then p.value.nibble W
        else p.value.nibble (k - 1) := by
  have hw := fits hW hk
  have hback : p.back < 16 := by
    rw [back, get_eq]
    exact BitVec.isLt _
  have hsz := size_eq p
  rw [insertFromBack, value_ofValue, BitVec.nibble_or, BitVec.nibble_or, BitVec.nibble_and,
    BitVec.nibble_and, BitVec.nibble_not _ hw, mask_eq, mask_eq', BitVec.nibble_mask _ hw,
    BitVec.nibble_mask _ hw, BitVec.nibble_add_one _ (by omega) (by omega), ← hsz,
    show 4 * i + 4 = 4 * (i + 1) by omega, BitVec.nibble_shiftLeft _ _ hw,
    BitVec.nibble_ofNat hback (by omega), nibble_back (by omega),
    BitVec.nibble_shiftLeft_four _ hw]
  by_cases h0 : k = 0
  · simp [h0]
  by_cases h1 : k ≤ i
  · simp [h0, h1, show k < i + 1 by omega, show k < i + 2 by omega]
  by_cases h2 : k = i + 1
  · simp [h2]
  · simp [h0, h1, h2, show ¬ k < i + 1 by omega, show ¬ k < i + 2 by omega,
      show k - (i + 1) ≠ 0 by omega]

/-- The part that `remove` rotates is the fields from `i + 1` to `size`. -/
lemma nibble_rotMask (hW : W ≤ 15) (hn : n ≤ W) (hi : i + 1 < n) (k : ℕ) :
    (((16#(valueBits W) <<< (4 * (n - i - 1))) - 1#_) <<< (4 * (i + 1))).nibble k
      = if i < k ∧ k ≤ n then 15#4 else 0#4 := by
  have hw := fits hW (Nat.le_refl W)
  rcases fits_or W k with hk | hk
  · rw [BitVec.nibble_shiftLeft _ _ hk, mask_eq]
    split_ifs with h1 h2 h2
    · omega
    · rfl
    · rw [BitVec.nibble_mask _ (by omega), if_pos (by omega)]
    · rw [BitVec.nibble_mask _ (by omega), if_neg (by omega)]
  · rw [BitVec.nibble_eq_zero _ hk, if_neg (by omega)]

lemma nibble_remove (hW : W ≤ 15) (hi : i < p.size) (hs : p.size ≤ W) (hk : k ≤ W) :
    (p.remove i).value.nibble k
      = if k = 0 then BitVec.ofNat 4 (p.size - 1)
        else if k ≤ i then p.value.nibble k
        else if k < p.size then p.value.nibble (k + 1)
        else if k = p.size then p.value.nibble (i + 1)
        else p.value.nibble k := by
  have hw := fits hW hk
  have hsz := size_eq p
  have hsub := BitVec.nibble_sub_one p.value (k := k) (by omega) (by omega)
  rw [← hsz] at hsub
  rw [remove]
  by_cases hlast : p.size = i + 1
  · rw [if_pos hlast, value_ofValue, hsub]
    by_cases h0 : k = 0
    · simp [h0]
    by_cases h1 : k ≤ i
    · simp [h0, h1]
    by_cases h2 : k = p.size
    · simp [h2, hlast]
    · simp [h0, h1, h2, show ¬ k < p.size by omega]
  have hmask := nibble_rotMask hW hs (show i + 1 < p.size by omega)
  rw [if_neg hlast, value_ofValue]
  generalize ((16#(valueBits W) <<< (4 * (p.size - i - 1))) - 1#_) <<< (4 * (i + 1)) = m at hmask ⊢
  have hdown : ((p.value &&& m) >>> 4).nibble k = (p.value &&& m).nibble (k + 1) :=
    BitVec.nibble_shiftRight _ 1 k
  simp only [BitVec.nibble_or, BitVec.nibble_and, BitVec.nibble_not _ hw, hsub, hdown,
    BitVec.nibble_shiftLeft _ _ hw, hmask]
  by_cases h0 : k = 0
  · simp [h0]
  by_cases h1 : k ≤ i
  · simp [h0, h1, show ¬ i < k by omega]
  by_cases h2 : k < p.size
  · simp [h0, h1, h2, show i < k by omega, show k ≤ p.size by omega, show i < k + 1 by omega,
      show k + 1 ≤ p.size by omega, show ¬ i < k - (p.size - i - 1) by omega]
  by_cases h3 : k = p.size
  · simp [h3, show i < p.size by omega, show ¬ p.size + 1 ≤ p.size by omega,
      show ¬ p.size < p.size - i - 1 by omega, show p.size - (p.size - i - 1) = i + 1 by omega,
      show i + 1 ≤ p.size by omega, show p.size ≠ 0 by omega, show ¬ p.size ≤ i by omega]
  · simp [h0, h1, h2, h3, show ¬ k ≤ p.size by omega]

/-- `remove_to_back` first clears the unused fields. -/
lemma nibble_cleared (hW : W ≤ 15) (v : BitVec (valueBits W)) (k : ℕ) :
    (v &&& ((16#(valueBits W) <<< (4 * W)) - 1#_)).nibble k = if k ≤ W then
      v.nibble k else 0#4 := by
  rcases fits_or W k with hk | hk
  · rw [BitVec.nibble_and, mask_eq, BitVec.nibble_mask _ hk]
    by_cases h : k ≤ W
    · simp [h, show k < W + 1 by omega]
    · simp [h, show ¬ k < W + 1 by omega]
  · have := fits hW (Nat.le_refl W)
    rw [BitVec.nibble_eq_zero _ hk, if_neg (by omega)]

lemma nibble_removeToBack (hW : W ≤ 15) (hi : i < p.size) (hs : p.size ≤ W) (hk : k ≤ W) :
    (p.removeToBack i).value.nibble k
      = if k = 0 then BitVec.ofNat 4 (p.size - 1)
        else if k ≤ i then p.value.nibble k
        else if k < W then p.value.nibble (k + 1)
        else p.value.nibble (i + 1) := by
  have hw := fits hW hk
  have hsz := size_eq p
  have hx := nibble_cleared hW p.value
  have hmask (k : ℕ) (hk : k ≤ W) : (~~~((16#(valueBits W) <<< (4 * i)) - 1#_)).nibble k
      = if k ≤ i then 0#4 else 15#4 := by
    rw [BitVec.nibble_not _ (fits hW hk), mask_eq, BitVec.nibble_mask _ (fits hW hk)]
    split_ifs
    · rfl
    · omega
    · omega
    · rfl
  rw [removeToBack, value_ofValue]
  generalize p.value &&& ((16#(valueBits W) <<< (4 * W)) - 1#_) = x at hx ⊢
  generalize ~~~((16#(valueBits W) <<< (4 * i)) - 1#_) = m at hmask ⊢
  have hx0 : (x.nibble 0).toNat = p.size := by rw [hx, if_pos (Nat.zero_le W), hsz]
  have hdown : (x >>> 4).nibble k = x.nibble (k + 1) := BitVec.nibble_shiftRight _ 1 k
  have hup : ((x &&& m) <<< (4 * (W - i - 1))).nibble k
      = if k < W then 0#4 else p.value.nibble (i + 1) := by
    rw [BitVec.nibble_shiftLeft _ _ hw]
    split_ifs with h1 h2 h2
    · rfl
    · omega
    · rw [BitVec.nibble_and, hmask _ (by omega), if_pos (by omega), BitVec.and_zero]
    · rw [BitVec.nibble_and, hmask _ (by omega), if_neg (by omega), hx, if_pos (by omega),
        BitVec.and_fifteen, show k - (W - i - 1) = i + 1 by omega]
  simp only [BitVec.nibble_or, BitVec.nibble_and, BitVec.nibble_not _ hw, hup, hdown, hmask k hk,
    BitVec.nibble_sub_one x (k := k) (by omega) (by omega), hx]
  by_cases h0 : k = 0
  · simp [h0, hsz, show 0 < W by omega]
  by_cases h1 : k ≤ i
  · simp [h0, h1, hk, show k < W by omega]
  by_cases h2 : k < W
  · simp [h0, h1, h2, show k + 1 ≤ W by omega]
  · simp [h0, h1, h2, show ¬ k + 1 ≤ W by omega]

lemma nibble_240 (hW : W ≤ 15) (hk : k ≤ W) :
    (240#(valueBits W)).nibble k = if k = 1 then 15#4 else 0#4 := by
  have hw := fits hW hk
  have h : 240#(valueBits W) = 15#(valueBits W) <<< (4 * 1) := by
    apply BitVec.eq_of_toNat_eq
    rw [BitVec.toNat_shiftLeft, Nat.shiftLeft_eq, BitVec.toNat_ofNat, BitVec.toNat_ofNat,
      Nat.mod_mul_mod]
  rw [h, BitVec.nibble_shiftLeft _ _ hw, BitVec.nibble_ofNat (by omega) (by omega)]
  split_ifs <;> first | rfl | omega

lemma nibble_exchange (hW : W ≤ 15) (hi : i < W) (hk : k ≤ W) :
    (p.exchange i j).value.nibble k
      = if k = i + 1 then p.value.nibble (j + 1)
        else if k = j + 1 then p.value.nibble (i + 1)
        else p.value.nibble k := by
  have hw := fits hW hk
  rw [exchange, value_ofValue]
  have hdiff (k : ℕ) (hk : k ≤ W) :
      (((p.value >>> (4 * i)) ^^^ (p.value >>> (4 * j))) &&& 240#_).nibble k
        = if k = 1 then p.value.nibble (i + 1) ^^^ p.value.nibble (j + 1) else 0#4 := by
    rw [BitVec.nibble_and, BitVec.nibble_xor, BitVec.nibble_shiftRight, BitVec.nibble_shiftRight,
      nibble_240 hW hk]
    split_ifs with h
    · rw [h, BitVec.and_fifteen, Nat.add_comm 1 i, Nat.add_comm 1 j]
    · exact BitVec.and_zero
  generalize ((p.value >>> (4 * i)) ^^^ (p.value >>> (4 * j))) &&& 240#_ = d at hdiff ⊢
  have hput (m : ℕ) : (d <<< (4 * m)).nibble k
      = if k = m + 1 then p.value.nibble (i + 1) ^^^ p.value.nibble (j + 1) else 0#4 := by
    rw [BitVec.nibble_shiftLeft _ _ hw, hdiff _ (by omega)]
    split_ifs <;> first | rfl | omega
  simp only [BitVec.nibble_xor, BitVec.nibble_or, hput]
  by_cases h1 : k = i + 1
  · by_cases h2 : k = j + 1
    · simp [← h1, ← h2]
    · rw [if_pos h1, if_neg h2, if_pos h1, h1, BitVec.or_zero, ← BitVec.xor_assoc,
        BitVec.xor_self, BitVec.zero_xor]
  · by_cases h2 : k = j + 1
    · rw [if_neg h1, if_pos h2, if_neg h1, if_pos h2, h2, BitVec.zero_or, BitVec.xor_comm,
        BitVec.xor_assoc, BitVec.xor_self, BitVec.xor_zero]
    · simp [h1, h2]

/-- What `exchange_values` changes in one field. -/
def valueDiff (x y : ℕ) (a : BitVec 4) : BitVec 4 :=
  if a.toNat = x ∨ a.toNat = y then BitVec.ofNat 4 (x ^^^ y) else 0#4

/-- With `n` rounds to go, the fields of `diff` move up by `n`, and the `n` fields of the word from
the last one down enter below them. -/
lemma nibble_exchangeLoop (hW : W ≤ 15) {x y : ℕ} (hx : x < 16) (hy : y < 16) (hn : n ≤ W)
    (d v : BitVec (valueBits W)) (hd : d.nibble 0 = 0#4) (hk : k ≤ W) :
    (exchangeLoop W x y n d v).nibble k
      = if k = 0 then 0#4
        else if k ≤ n then valueDiff x y (v.nibble (W + k - n))
        else d.nibble (k - n) := by
  induction n generalizing d v with
  | zero =>
    rw [exchangeLoop]
    split_ifs with h0 h1
    · rw [h0, hd]
    · omega
    · rw [Nat.sub_zero]
  | succ n ih =>
    have hfit := fits hW hk
    have hv : ((v >>> (4 * W)) &&& 15#_).toNat = (v.nibble W).toNat := by
      rw [BitVec.toNat_and, toNat_fifteen, BitVec.toNat_nibble, BitVec.toNat_ushiftRight,
        Nat.shiftRight_eq_div_pow, Nat.pow_mul]
      exact Nat.and_two_pow_sub_one_eq_mod _ 4
    have hxy : x ^^^ y < 16 := Nat.xor_lt_two_pow (n := 4) hx hy
    -- the first field of the word shifted in
    have hdiff (k : ℕ) : (d ^^^ (if (v.nibble W).toNat = x ∨ (v.nibble W).toNat = y then
        BitVec.ofNat _ (x ^^^ y) else 0)).nibble k
        = if k = 0 then valueDiff x y (v.nibble W) else d.nibble k := by
      rw [BitVec.nibble_xor, valueDiff]
      by_cases hc : (v.nibble W).toNat = x ∨ (v.nibble W).toNat = y
      · rw [if_pos hc, if_pos hc, BitVec.nibble_ofNat hxy (by omega)]
        split_ifs with h0
        · rw [h0, hd, BitVec.zero_xor]
        · exact BitVec.xor_zero
      · rw [if_neg hc, if_neg hc]
        have hz : (0 : BitVec (valueBits W)).nibble k = 0#4 := by
          ext l hl
          simp [BitVec.nibble]
        split_ifs with h0
        · rw [hz, h0, hd, BitVec.zero_xor]
        · rw [hz, BitVec.xor_zero]
    simp only [exchangeLoop, hv]
    generalize (d ^^^ _) = d' at hdiff ⊢
    rw [ih (by omega) _ _ (by rw [BitVec.nibble_shiftLeft_four _ (by omega), if_pos rfl])]
    by_cases h0 : k = 0
    · rw [if_pos h0, if_pos h0]
    rw [if_neg h0, if_neg h0]
    by_cases h1 : k ≤ n
    · rw [if_pos h1, if_pos (by omega), BitVec.nibble_shiftLeft_four _ (fits hW (by omega)),
        if_neg (by omega), show W + k - n - 1 = W + k - (n + 1) by omega]
    rw [if_neg h1, BitVec.nibble_shiftLeft_four _ (by omega), if_neg (by omega), hdiff]
    by_cases h2 : k = n + 1
    · rw [if_pos (by omega), if_pos (by omega), show W + k - (n + 1) = W by omega]
    · rw [if_neg (by omega), if_neg (by omega), Nat.sub_sub]

lemma nibble_exchangeValues (hW : W ≤ 15) {x y : ℕ} (hx : x < 16) (hy : y < 16) (hk : k ≤ W) :
    (p.exchangeValues x y).value.nibble k
      = if k = 0 then p.value.nibble 0
        else if (p.value.nibble k).toNat = x then BitVec.ofNat 4 y
        else if (p.value.nibble k).toNat = y then BitVec.ofNat 4 x
        else p.value.nibble k := by
  have h0 : (0 : BitVec (valueBits W)).nibble 0 = 0#4 := by
    ext l hl
    simp [BitVec.nibble]
  rw [exchangeValues, value_ofValue, BitVec.nibble_xor,
    nibble_exchangeLoop hW hx hy (Nat.le_refl W) _ _ h0 hk]
  by_cases hk0 : k = 0
  · simp [hk0]
  rw [if_neg hk0, if_pos hk, if_neg hk0, show W + k - W = k by omega]
  generalize p.value.nibble k = a
  have ha : BitVec.ofNat 4 a.toNat = a := by rw [BitVec.ofNat_toNat, BitVec.setWidth_eq]
  rw [valueDiff]
  by_cases h1 : a.toNat = x
  · rw [if_pos (Or.inl h1), if_pos h1, ← h1, BitVec.ofNat_xor, ha, ← BitVec.xor_assoc,
      BitVec.xor_self, BitVec.zero_xor]
  by_cases h2 : a.toNat = y
  · rw [if_pos (Or.inr h2), if_neg h1, if_pos h2, ← h2, BitVec.ofNat_xor, ha, BitVec.xor_comm,
      BitVec.xor_assoc, BitVec.xor_self, BitVec.xor_zero]
  · rw [if_neg (by omega), if_neg h1, if_neg h2, BitVec.xor_zero]

/-! ## The initial values -/

lemma get_makeEmpty (hW : W ≤ 15) (hi : i < W) : (makeEmpty W).get i = W - 1 - i := by
  revert i
  revert W
  decide

lemma makeSorted_spec (hW : W ≤ 15) (hn : n ≤ W) : (makeSorted W n).size = n ∧
    ∀ i < W, (makeSorted W n).get i = if i < n then i else W - 1 - (i - n) := by
  revert n
  revert W
  decide +kernel

end PackedKpermuter

end MasstreeLHM
