import Mathlib.Tactic.Ring
import MasstreeLHM.DirectoryMeta

/-!
# Fixed-width integers in byte strings

The little-endian fields of the log records and the big-endian fields of msgpack.  A load takes the
first bytes of what it is given; bytes that are not there count as zero.

`storeLE` and `valueLE` are a number and its bytes with the lowest one first; `storeBE` and `loadBE`
are `write_in_net_order` and `read_in_net_order`, and `loadSignedBE` is the latter for a signed
type.  The width is an argument, so that one definition serves the fields of one, two, four and
eight bytes.

Two kinds of lemmas are used of them.  `loadLE_storeLE_append` and `loadBE_storeBE_append` read a
number back where it was stored, with anything behind it, provided that it fits its width.
`drop_storeLE_append` and `drop_storeBE_append` get behind it.  Together they take a reader through
a sequence of fields without a position ever being computed.
-/

namespace MasstreeLHM

/-- The low `w` bytes of `n`, the lowest first. -/
def storeLE : ℕ → ℕ → Bytes
  | 0, _ => []
  | w + 1, n => UInt8.ofNat n :: storeLE w (n / 256)

/-- The number whose lowest byte comes first. -/
def valueLE : Bytes → ℕ
  | [] => 0
  | b :: bs => b.toNat + 256 * valueLE bs

/-- The first `w` bytes as a little-endian number. -/
def loadLE (w : ℕ) (buf : Bytes) : ℕ := valueLE (buf.take w)

/-- `write_in_net_order`. -/
def storeBE (w n : ℕ) : Bytes := (storeLE w n).reverse

/-- `read_in_net_order` for an unsigned type. -/
def loadBE (w : ℕ) (buf : Bytes) : ℕ := valueLE (buf.take w).reverse

/-- `read_in_net_order` for a signed type. -/
def loadSignedBE (w : ℕ) (buf : Bytes) : ℤ :=
  if loadBE w buf < 256 ^ w / 2 then loadBE w buf else (loadBE w buf : ℤ) - (256 ^ w : ℕ)

@[simp] lemma storeLE_length : ∀ w n, (storeLE w n).length = w
  | 0, _ => rfl
  | w + 1, n => by simp [storeLE, storeLE_length w]

@[simp] lemma storeBE_length (w n : ℕ) : (storeBE w n).length = w := by simp [storeBE]

lemma valueLE_storeLE : ∀ w n, valueLE (storeLE w n) = n % 256 ^ w
  | 0, n => by simp [storeLE, valueLE, Nat.mod_one]
  | w + 1, n => by
      have hb : (UInt8.ofNat n).toNat = n % 256 := UInt8.toNat_ofNat'
      rw [storeLE, valueLE, valueLE_storeLE w, hb, Nat.pow_succ, Nat.mul_comm _ 256, Nat.mod_mul]

lemma valueLE_lt : ∀ bs, valueLE bs < 256 ^ bs.length
  | [] => by simp [valueLE]
  | b :: bs => by
      have hb : b.toNat < 256 := b.toNat_lt
      have ih := valueLE_lt bs
      rw [valueLE, List.length_cons, Nat.pow_succ]
      omega

/-- A number that fits is read back where it was stored. -/
lemma loadLE_storeLE_append {w n : ℕ} (rest : Bytes) (hn : n < 256 ^ w) :
    loadLE w (storeLE w n ++ rest) = n := by
  rw [loadLE, List.take_left' (storeLE_length w n), valueLE_storeLE, Nat.mod_eq_of_lt hn]

lemma loadBE_storeBE_append {w n : ℕ} (rest : Bytes) (hn : n < 256 ^ w) :
    loadBE w (storeBE w n ++ rest) = n := by
  rw [loadBE, List.take_left' (storeBE_length w n), storeBE, List.reverse_reverse,
    valueLE_storeLE, Nat.mod_eq_of_lt hn]

lemma drop_storeLE_append (w n : ℕ) (rest : Bytes) : (storeLE w n ++ rest).drop w = rest :=
  List.drop_left' (storeLE_length w n)

lemma drop_storeBE_append (w n : ℕ) (rest : Bytes) : (storeBE w n ++ rest).drop w = rest :=
  List.drop_left' (storeBE_length w n)

end MasstreeLHM
