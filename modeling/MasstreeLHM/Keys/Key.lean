import MasstreeLHM.Keys.Bytewise

/-!
# Keys of the tree

`string_slice<uint64_t>` of `string_slice.hh`, as it is compiled for a little-endian machine with
unaligned accesses, and `key<uint64_t>` of `masstree_key.hh`.  A pointer is an address; the bytes
around a string hold anything.

A slice is the integer that stands for the first eight bytes of a string.  The four ways of making
one are modelled with their shifts and masks.  The sloppy ones load eight bytes at once, together
with bytes that do not belong to the string, and mask those out: `sliceMakeSloppy_eq` and
`sliceMakeComparableSloppy_eq` say that they give the same as the careful ones for every memory.

`Key` is the key as it stands in a layer of the tree: the slice, the string from that slice on, and
where the whole string starts.  `Key.shift` goes to the next slice and `Key.unshiftAll` back to the
start.  `Key.compareSlices` compares two keys as a walk through the layers does, slice by slice.
-/

namespace MasstreeLHM

abbrev Memory := ℕ → UInt8

/-- The string of length `len` at address `s`. -/
def Memory.bytes (m : Memory) (s len : ℕ) : Bytes := (List.range len).map fun i => m (s + i)

/-- `net_to_host_order` and `host_to_net_order`: the eight bytes of the integer swapped. -/
def netToHostOrder (x : ℕ) : ℕ := valueLE (storeLE 8 x).reverse

/-- `string_slice::make`. -/
def sliceMake (m : Memory) (s len : ℕ) : ℕ :=
  if len = 0 then 0
  else if 8 ≤ len then valueLE (m.bytes s 8)
  else valueLE (m.bytes s len ++ List.replicate (8 - len) 0)

/-- `string_slice::make_comparable`. -/
def sliceMakeComparable (m : Memory) (s len : ℕ) : ℕ := netToHostOrder (sliceMake m s len)

/-- `string_slice::make_sloppy`: a short string is loaded together with the bytes before it. -/
def sliceMakeSloppy (m : Memory) (s len : ℕ) : ℕ :=
  if len = 0 then 0
  else if 8 ≤ len then valueLE (m.bytes s 8)
  else valueLE (m.bytes (s - (8 - len)) 8) >>> (8 * (8 - len))

/-- `string_slice::make_comparable_sloppy`. -/
def sliceMakeComparableSloppy (m : Memory) (s len : ℕ) : ℕ :=
  netToHostOrder (sliceMakeSloppy m s len)

/-- `key<uint64_t>`. -/
structure Key where
  ikey0 : ℕ
  len : ℕ
  s : ℕ
  first : ℕ
deriving Repr, DecidableEq

/-- `compare` of two integers. -/
def compareInts (a b : ℕ) : ℤ := if a = b then 0 else if a < b then -1 else 1

namespace Key

/-- The constructor from a string. -/
def ofStr (m : Memory) (s len : ℕ) : Key := ⟨sliceMakeComparable m s len, len, s, s⟩

/-- `has_suffix`. -/
def hasSuffix (k : Key) : Bool := 8 < k.len

/-- `shift`. -/
def shift (m : Memory) (k : Key) : Key :=
  { k with
    s := k.s + 8
    len := k.len - 8
    ikey0 := sliceMakeComparableSloppy m (k.s + 8) (k.len - 8) }

/-- `unshift_all`. -/
def unshiftAll (m : Memory) (k : Key) : Key :=
  if k.s = k.first then k
  else
    let len := k.len + (k.s - k.first)
    { k with len := len, s := k.first, ikey0 := sliceMakeComparable m k.first len }

/-- `compare` with an ikey and a `keylenx`. -/
def compareIkey (k : Key) (ikey keylenx : ℕ) : ℤ :=
  let cmp := compareInts k.ikey0 ikey
  if cmp = 0 then
    if 8 < k.len then (if keylenx ≤ 8 then 1 else 0) else (k.len : ℤ) - keylenx
  else cmp

/-- `compare` with a key. -/
def compare (k x : Key) : ℤ := k.compareIkey x.ikey0 x.len

/-- `prefix_string`. -/
def prefixString (m : Memory) (k : Key) : Bytes := m.bytes k.first (k.s - k.first)

/-- `full_string`. -/
def fullString (m : Memory) (k : Key) : Bytes := m.bytes k.first (k.s + k.len - k.first)

/-- The part of the string that the key stands for after its shifts. -/
def remaining (m : Memory) (k : Key) : Bytes := m.bytes k.s k.len

/-- Two keys compared slice by slice: where they agree and both continue, both are shifted. -/
def compareSlices (m : Memory) (k x : Key) : ℤ :=
  if k.compare x = 0 ∧ k.hasSuffix ∧ x.hasSuffix then
    compareSlices m (k.shift m) (x.shift m)
  else k.compare x
termination_by k.len
decreasing_by
  simp_all [hasSuffix, shift]
  omega

/-- The keys that `shift` leads to. -/
inductive ShiftedFrom (m : Memory) (k : Key) : Key → Prop
  | refl : ShiftedFrom m k k
  | shift {x : Key} : ShiftedFrom m k x → x.hasSuffix = true → ShiftedFrom m k (x.shift m)

end Key

/-! ### Bytes in memory -/

variable {m : Memory} {s len i : ℕ}

@[simp] lemma Memory.bytes_length (m : Memory) (s len : ℕ) : (m.bytes s len).length = len := by
  simp [Memory.bytes]

lemma Memory.bytes_add (m : Memory) (s i j : ℕ) :
    m.bytes s (i + j) = m.bytes s i ++ m.bytes (s + i) j := by
  simp [Memory.bytes, List.range_add, Function.comp_def, Nat.add_assoc]

lemma Memory.take_bytes (h : i ≤ len) : (m.bytes s len).take i = m.bytes s i := by
  obtain ⟨j, rfl⟩ := Nat.exists_eq_add_of_le h
  rw [m.bytes_add, List.take_left' (m.bytes_length s i)]

lemma Memory.drop_bytes (h : i ≤ len) : (m.bytes s len).drop i = m.bytes (s + i) (len - i) := by
  obtain ⟨j, rfl⟩ := Nat.exists_eq_add_of_le h
  rw [m.bytes_add, List.drop_left' (m.bytes_length s i), Nat.add_sub_cancel_left]

/-! ### Slices -/

/-- The integer that stands for the first eight bytes of a string. -/
def slice (a : Bytes) : ℕ := valueBE (padTo 8 a)

lemma netToHostOrder_valueLE {a : Bytes} (h : a.length = 8) :
    netToHostOrder (valueLE a) = valueBE a := by
  rw [netToHostOrder, ← h, storeLE_valueLE, valueBE]

lemma valueLE_padTo (h : len ≤ 8) :
    valueLE (padTo 8 (m.bytes s len)) = valueLE (m.bytes s len) := by
  rw [padTo_eq, List.take_of_length_le (by simpa using h), valueLE_append, valueLE_replicate,
    Nat.mul_zero, Nat.add_zero]

lemma sliceMake_eq (m : Memory) (s len : ℕ) :
    sliceMake m s len = valueLE (padTo 8 (m.bytes s len)) := by
  rw [sliceMake]
  split_ifs with h0 h8
  · subst h0
    exact (valueLE_replicate 8).symm
  · rw [padTo_of_le (by simpa using h8), Memory.take_bytes h8]
  · rw [padTo_eq, List.take_of_length_le (by simp; omega), Memory.bytes_length]

/-- The sloppy load gives the same, whatever is before the string. -/
lemma sliceMakeSloppy_eq (m : Memory) (hs : 8 ≤ s) (len : ℕ) :
    sliceMakeSloppy m s len = valueLE (padTo 8 (m.bytes s len)) := by
  rw [sliceMakeSloppy]
  split_ifs with h0 h8
  · subst h0
    exact (valueLE_replicate 8).symm
  · rw [padTo_of_le (by simpa using h8), Memory.take_bytes h8]
  · have hsplit : m.bytes (s - (8 - len)) 8
        = m.bytes (s - (8 - len)) (8 - len) ++ m.bytes s len := by
      have := m.bytes_add (s - (8 - len)) (8 - len) len
      rwa [show 8 - len + len = 8 by omega, show s - (8 - len) + (8 - len) = s by omega] at this
    have hlt := valueLE_lt (m.bytes (s - (8 - len)) (8 - len))
    rw [valueLE_padTo (by omega), hsplit, valueLE_append, Nat.shiftRight_eq_div_pow, Nat.pow_mul,
      Memory.bytes_length]
    rw [Memory.bytes_length] at hlt
    rw [show 2 ^ 8 = 256 from rfl, Nat.add_mul_div_left _ _ (Nat.pow_pos (by decide)),
      Nat.div_eq_of_lt hlt, Nat.zero_add]

lemma sliceMakeComparable_eq (m : Memory) (s len : ℕ) :
    sliceMakeComparable m s len = slice (m.bytes s len) := by
  rw [sliceMakeComparable, sliceMake_eq, netToHostOrder_valueLE (padTo_length 8 _), slice]

lemma sliceMakeComparableSloppy_eq (m : Memory) (hs : 8 ≤ s) (len : ℕ) :
    sliceMakeComparableSloppy m s len = slice (m.bytes s len) := by
  rw [sliceMakeComparableSloppy, sliceMakeSloppy_eq m hs, netToHostOrder_valueLE (padTo_length 8 _),
    slice]

end MasstreeLHM
