import MasstreeLHM.Keys.Order

/-!
# Path keys

`PathKey` of `path_key.hh`: a path as the vector of its component hashes, encoded in eight bytes
each with the highest byte first, so that each component is one slice of a key of the tree.  The
encoding is handed to the tree as a `Str`, whose length is an `int`.

The constructor swaps the bytes of each component and copies them to their offset
(`PathKey.ofComponents`), and `PathKey.encode` says which bytes that makes.  `PathKey.decode` reads
a `Str` back; it reserves room with a length that it takes from an `int`, so for a negative one it
throws, which is `none`.

`encode_inj` and `exists_encode` make the encoding a bijection onto the strings of whole components,
and `encode_lt_iff` says that it keeps the order.  `ikey_iterate_shift` is what the tree sees: after
`i` shifts the ikey is component `i`.  **`codec_and_order`** states this for vectors whose encoding
fits the `int`; from 2^28 components on it does not.
-/

namespace MasstreeLHM

/-- `lcdf::Str`: where the bytes are, and an `int` length. -/
structure Str where
  data : Bytes
  len : ℤ
deriving DecidableEq

/-- The constructor from a `std::string`, which narrows the length to an `int`. -/
def Str.ofString (str : Bytes) : Str := ⟨str, (str.length : ℤ).bmod (2 ^ 32)⟩

/-- `memcpy` of `bytes` to `storage + offset`. -/
def memcpyAt (storage : Bytes) (offset : ℕ) (bytes : Bytes) : Bytes :=
  storage.take offset ++ bytes ++ storage.drop (offset + bytes.length)

/-- `PathKey`: the components and the encoded key. -/
structure PathKey where
  components : List UInt64
  storage : Bytes
deriving DecidableEq

namespace PathKey

/-- The loop of the constructor, from component `i` on. -/
def fill : List UInt64 → ℕ → Bytes → Bytes
  | [], _, storage => storage
  | c :: cs, i, storage =>
      let be := netToHostOrder c.toNat
      fill cs (i + 1) (memcpyAt storage (i * 8) (storeLE 8 be))

/-- The constructor from component hashes. -/
def ofComponents (components : List UInt64) : PathKey :=
  { components := components
    storage := fill components 0 (List.replicate (components.length * 8) 0) }

/-- `as_str`. -/
def asStr (p : PathKey) : Str := Str.ofString p.storage

/-- The loop of `decode`. -/
def decodeFrom (encoded : Str) (offset : ℕ) : List UInt64 :=
  if (offset : ℤ) < encoded.len then
    let be := valueLE ((encoded.data.drop offset).take 8)
    UInt64.ofNat (netToHostOrder be) :: decodeFrom encoded (offset + 8)
  else []
termination_by (encoded.len - offset).toNat
decreasing_by omega

/-- `decode`; `none` is the `length_error` of `reserve`, whose argument is unsigned. -/
def decode (encoded : Str) : Option (List UInt64) :=
  if encoded.len.tmod 8 ≠ 0 then some []
  else if encoded.len.tdiv 8 < 0 then none
  else some (decodeFrom encoded 0)

/-- The bytes of the components one after the other, the highest byte of each first. -/
def encode (v : List UInt64) : Bytes := v.flatMap fun c => storeBE 8 c.toNat

end PathKey

/-- `make_single_component_key`. -/
def makeSingleComponentKey (componentHash : UInt64) : Bytes :=
  storeLE 8 (netToHostOrder componentHash.toNat)

/-! ### One component -/

variable {c d : UInt64} {v w : List UInt64} {a b x y : Bytes} {m : Memory} {s i : ℕ}

lemma storeLE_netToHostOrder (n : ℕ) : storeLE 8 (netToHostOrder n) = storeBE 8 n := by
  have h := storeLE_valueLE (storeLE 8 n).reverse
  rwa [List.length_reverse, storeLE_length] at h

lemma valueBE_storeBE (c : UInt64) : valueBE (storeBE 8 c.toNat) = c.toNat := by
  rw [valueBE, storeBE, List.reverse_reverse, valueLE_storeLE]
  exact Nat.mod_eq_of_lt c.toNat_lt

lemma storeBE_lt_iff : storeBE 8 c.toNat < storeBE 8 d.toNat ↔ c < d := by
  rw [← valueBE_lt_iff (by simp), valueBE_storeBE, valueBE_storeBE, UInt64.lt_iff_toNat_lt]

lemma storeBE_inj : storeBE 8 c.toNat = storeBE 8 d.toNat ↔ c = d := by
  constructor
  · intro h
    have := congrArg valueBE h
    rw [valueBE_storeBE, valueBE_storeBE] at this
    exact UInt64.toNat_inj.mp this
  · rintro rfl
    rfl

/-- Strings that begin with equally many bytes. -/
lemma append_lt_append_iff : ∀ {a b x y : Bytes}, a.length = b.length →
    (a ++ x < b ++ y ↔ a < b ∨ a = b ∧ x < y)
  | [], [], x, y, _ => by simp
  | [], q :: b, x, y, h => by simp at h
  | p :: a, [], x, y, h => by simp at h
  | p :: a, q :: b, x, y, h => by
      rw [List.cons_append, List.cons_append, List.cons_lt_cons_iff, List.cons_lt_cons_iff,
        append_lt_append_iff (by simpa using h), List.cons.injEq]
      tauto

namespace PathKey

@[simp] lemma encode_nil : encode [] = [] := rfl

@[simp] lemma encode_cons : encode (c :: v) = storeBE 8 c.toNat ++ encode v := rfl

@[simp] lemma encode_length : ∀ v, (encode v).length = 8 * v.length
  | [] => rfl
  | c :: v => by
      rw [encode_cons, List.length_append, storeBE_length, encode_length v, List.length_cons]
      omega

/-- The constructor writes the components one after the other. -/
lemma fill_eq : ∀ (v : List UInt64) (i : ℕ) (done : Bytes), done.length = i * 8 →
    fill v i (done ++ List.replicate (v.length * 8) 0) = done ++ encode v
  | [], i, done, _ => by simp [fill]
  | c :: v, i, done, h => by
      have hput : memcpyAt (done ++ List.replicate ((c :: v).length * 8) 0) (i * 8)
          (storeLE 8 (netToHostOrder c.toNat))
          = done ++ storeBE 8 c.toNat ++ List.replicate (v.length * 8) 0 := by
        rw [memcpyAt, storeLE_netToHostOrder, storeBE_length, List.take_left' h, ← h,
          List.drop_append, List.drop_of_length_le (by omega), List.nil_append,
          Nat.add_sub_cancel_left, List.drop_replicate, List.length_cons]
        congr 2
        omega
      rw [fill]
      simp only [hput]
      rw [fill_eq v (i + 1) (done ++ storeBE 8 c.toNat) (by simp [h]; omega), encode_cons,
        List.append_assoc]

lemma storage_ofComponents (v : List UInt64) : (ofComponents v).storage = encode v := by
  simpa [ofComponents] using fill_eq v 0 [] rfl

/-- The encodings are ordered as the vectors are, component by component. -/
lemma encode_lt_iff : ∀ {v w : List UInt64}, encode v < encode w ↔ v < w
  | [], [] => by simp
  | [], d :: w => by
      have hne : encode (d :: w) ≠ [] := by
        intro h
        have := congrArg List.length h
        simp at this
      obtain ⟨q, qs, hq⟩ := List.exists_cons_of_ne_nil hne
      rw [hq]
      exact iff_of_true (List.nil_lt_cons _ _) (List.nil_lt_cons _ _)
  | c :: v, [] => by simp
  | c :: v, d :: w => by
      rw [encode_cons, encode_cons, append_lt_append_iff (by simp), storeBE_lt_iff, storeBE_inj,
        encode_lt_iff, List.cons_lt_cons_iff]

lemma encode_inj : ∀ {v w : List UInt64}, encode v = encode w → v = w
  | [], [], _ => rfl
  | [], d :: w, h => by
      have := congrArg List.length h
      rw [encode_length, encode_length, List.length_cons, List.length_nil] at this
      omega
  | c :: v, [], h => by
      have := congrArg List.length h
      rw [encode_length, encode_length, List.length_cons, List.length_nil] at this
      omega
  | c :: v, d :: w, h => by
      rw [encode_cons, encode_cons] at h
      obtain ⟨h1, h2⟩ := List.append_inj h (by simp)
      rw [storeBE_inj.mp h1, encode_inj h2]

lemma storeBE_valueBE (h : a.length = 8) : storeBE 8 (valueBE a) = a := by
  have h1 := storeLE_valueLE a.reverse
  rw [List.length_reverse, h] at h1
  rw [storeBE, valueBE, h1, List.reverse_reverse]

/-- Every string of whole components is an encoding. -/
lemma exists_encode : ∀ {n : ℕ} {a : Bytes}, a.length = 8 * n → ∃ v, encode v = a
  | 0, a, h => ⟨[], (List.length_eq_zero_iff.mp (by omega)).symm⟩
  | n + 1, a, h => by
      obtain ⟨v, hv⟩ := exists_encode (n := n) (a := a.drop 8) (by simp [h]; omega)
      have h8 : (a.take 8).length = 8 := by simp [h]
      have hlt := valueBE_lt (a.take 8)
      rw [h8] at hlt
      refine ⟨UInt64.ofNat (valueBE (a.take 8)) :: v, ?_⟩
      rw [encode_cons, hv, UInt64.toNat_ofNat_of_lt' hlt, storeBE_valueBE h8,
        List.take_append_drop]

/-! ### The two directions -/

lemma len_ofString_eq (a : Bytes) : (Str.ofString a).len = (a.length : ℤ).bmod (2 ^ 32) := by
  rw [Str.ofString]

/-- A length below `2 ^ 31` is kept. -/
lemma len_ofString (h : a.length < 2 ^ 31) : (Str.ofString a).len = a.length := by
  rw [len_ofString_eq, Int.bmod_def, if_pos (by omega)]
  omega

/-- The loop of `decode` reads the components that are left. -/
lemma decodeFrom_eq : ∀ (v : List UInt64) (encoded : Str) (done : Bytes),
    encoded.data = done ++ encode v → encoded.len = done.length + 8 * v.length →
    decodeFrom encoded done.length = v
  | [], encoded, done, hd, hl => by
      rw [decodeFrom, if_neg (by simp [hl])]
  | c :: v, encoded, done, hd, hl => by
      have hload : (encoded.data.drop done.length).take 8 = storeBE 8 c.toNat := by
        rw [hd, List.drop_left, encode_cons, List.take_left' (by simp)]
      have ih := decodeFrom_eq v encoded (done ++ storeBE 8 c.toNat)
        (by rw [hd, encode_cons, List.append_assoc])
        (by rw [hl, List.length_append, storeBE_length, List.length_cons]; push_cast; ring)
      rw [List.length_append, storeBE_length] at ih
      rw [decodeFrom, if_pos (by rw [hl, List.length_cons]; omega)]
      simp only [hload, ih]
      rw [netToHostOrder_valueLE (by simp), valueBE_storeBE, UInt64.ofNat_toNat]

lemma decode_ofString (h : v.length < 2 ^ 28) : decode (Str.ofString (encode v)) = some v := by
  have hlen : (Str.ofString (encode v)).len = ((8 * v.length : ℕ) : ℤ) := by
    rw [len_ofString (by rw [encode_length]; omega), encode_length]
  rw [decode, if_neg, if_neg]
  · exact congrArg some (decodeFrom_eq v (Str.ofString (encode v)) [] rfl (by rw [hlen]; simp))
  · rw [hlen, Int.tdiv_eq_ediv_of_nonneg (by omega)]
    omega
  · rw [hlen, not_not, Int.tmod_eq_emod_of_nonneg (by omega)]
    omega

lemma asStr_ofComponents (v : List UInt64) :
    (ofComponents v).asStr = Str.ofString (encode v) := by
  rw [asStr, storage_ofComponents]

end PathKey

/-- The bytes of `str` are in memory at address `s`. -/
def Str.At (str : Str) (m : Memory) (s : ℕ) : Prop := m.bytes s str.len.toNat = str.data

/-- The key constructed from a `Str` at address `s`. -/
def Key.ofStrAt (m : Memory) (s : ℕ) (str : Str) : Key := Key.ofStr m s str.len.toNat

namespace PathKey

/-- A key made from a path, shifted `i` times. -/
lemma iterate_shift (h : m.bytes s (8 * v.length) = encode v) : ∀ i < v.length,
    Key.ShiftedFrom m (Key.ofStr m s (8 * v.length))
      ((Key.shift m)^[i] (Key.ofStr m s (8 * v.length))) ∧
    ((Key.shift m)^[i] (Key.ofStr m s (8 * v.length))).remaining m = encode (v.drop i)
  | 0, _ => ⟨.refl, h⟩
  | i + 1, hi => by
      obtain ⟨h1, h2⟩ := iterate_shift h i (by omega)
      have hlen := congrArg List.length h2
      rw [Key.remaining_length, encode_length, List.length_drop] at hlen
      have hs : ((Key.shift m)^[i] (Key.ofStr m s (8 * v.length))).hasSuffix = true := by
        rw [Key.hasSuffix, hlen]
        simp
        omega
      rw [Function.iterate_succ_apply']
      refine ⟨.shift h1 hs, ?_⟩
      rw [Key.remaining_shift m hs, h2, List.drop_eq_getElem_cons (show i < v.length by omega),
        encode_cons, List.drop_left' (by simp)]

lemma slice_encode_cons (c : UInt64) (v : List UInt64) : slice (encode (c :: v)) = c.toNat := by
  rw [slice, padTo_of_le (by rw [encode_length, List.length_cons]; omega), encode_cons,
    List.take_left' (by simp), valueBE_storeBE]

/-- The ikey after `i` shifts is component `i`. -/
lemma ikey_iterate_shift (h : m.bytes s (8 * v.length) = encode v) (hi : i < v.length) :
    ((Key.shift m)^[i] (Key.ofStr m s (8 * v.length))).ikey0 = v[i].toNat := by
  obtain ⟨h1, h2⟩ := iterate_shift h i hi
  have hsound := h1.within.sound
  rw [Key.Sound, h2, List.drop_eq_getElem_cons hi, slice_encode_cons] at hsound
  exact hsound

lemma ikey_singleComponent (h : m.bytes s 8 = makeSingleComponentKey c) :
    (Key.ofStr m s 8).ikey0 = c.toNat := by
  have hsound := Key.sound_ofStr m s 8
  rw [Key.Sound, Key.remaining, show (Key.ofStr m s 8).s = s from rfl,
    show (Key.ofStr m s 8).len = 8 from rfl, h, makeSingleComponentKey, storeLE_netToHostOrder,
    slice, padTo_of_le (by simp), List.take_of_length_le (by simp), valueBE_storeBE] at hsound
  exact hsound

/-- For vectors whose encoding fits the `int` length of a `Str`, the codec is a bijection onto the
strings of whole components.  The tree orders the encodings as the vectors are ordered, whether it
compares the strings or goes slice by slice, and the ikey after `i` shifts is component `i`, as in
the key for that component alone. -/
theorem codec_and_order :
    (∀ v : List UInt64, v.length < 2 ^ 28 → decode (ofComponents v).asStr = some v) ∧
    (∀ a : Bytes, a.length % 8 = 0 → a.length < 2 ^ 31 →
      ∃ v, decode (Str.ofString a) = some v ∧ (ofComponents v).asStr = Str.ofString a) ∧
    ∀ v w : List UInt64, v.length < 2 ^ 28 → w.length < 2 ^ 28 →
      ((ofComponents v).asStr.data < (ofComponents w).asStr.data ↔ v < w) ∧
      ∀ (m : Memory) (s t : ℕ), (ofComponents v).asStr.At m s → (ofComponents w).asStr.At m t →
        let k := Key.ofStrAt m s (ofComponents v).asStr
        let x := Key.ofStrAt m t (ofComponents w).asStr
        (k.compareSlices m x < 0 ↔ v < w) ∧ (k.compareSlices m x = 0 ↔ v = w) ∧
        (0 < k.compareSlices m x ↔ w < v) ∧
        ∀ (i : ℕ) (hi : i < v.length),
          Key.ShiftedFrom m k ((Key.shift m)^[i] k) ∧
          ((Key.shift m)^[i] k).ikey0 = v[i].toNat ∧
          ∀ (m' : Memory) (s' : ℕ), m'.bytes s' 8 = makeSingleComponentKey v[i] →
            (Key.ofStr m' s' 8).ikey0 = ((Key.shift m)^[i] k).ikey0 := by
  refine ⟨fun v hv => ?_, fun a h8 ha => ?_, fun v w hv hw => ⟨?_, fun m s t hs ht => ?_⟩⟩
  · rw [asStr_ofComponents, decode_ofString hv]
  · obtain ⟨v, rfl⟩ := exists_encode (n := a.length / 8) (a := a) (by omega)
    rw [encode_length] at ha
    exact ⟨v, decode_ofString (by omega), asStr_ofComponents v⟩
  · rw [asStr_ofComponents, asStr_ofComponents]
    exact encode_lt_iff
  have hlen (u : List UInt64) (hu : u.length < 2 ^ 28) :
      (Str.ofString (encode u)).len.toNat = 8 * u.length := by
    rw [len_ofString (by rw [encode_length]; omega), encode_length, Int.toNat_natCast]
  rw [asStr_ofComponents, Str.At, hlen v hv] at hs
  rw [asStr_ofComponents, Str.At, hlen w hw] at ht
  simp only [asStr_ofComponents, Key.ofStrAt, hlen v hv, hlen w hw]
  obtain ⟨hlt, heq, hgt⟩ := Key.compareSlices_sign m s (8 * v.length) t (8 * w.length)
  rw [hs, ht] at hlt heq hgt
  refine ⟨hlt.trans encode_lt_iff, heq.trans ⟨encode_inj, fun h => by rw [h]⟩,
    hgt.trans encode_lt_iff, fun i hi => ?_⟩
  have hik := ikey_iterate_shift hs hi
  exact ⟨(iterate_shift hs i hi).1, hik, fun m' s' h => (ikey_singleComponent h).trans hik.symm⟩

/-- The path of the components 1 and 256, in memory at address 8, and its second ikey. -/
theorem codec_and_order_two :
    decode (ofComponents [1, 256]).asStr = some [1, 256] ∧
    (∃ v, decode (Str.ofString [0, 1, 0, 0, 0, 0, 0, 0]) = some v ∧
      (ofComponents v).asStr = Str.ofString [0, 1, 0, 0, 0, 0, 0, 0]) ∧
    let m : Memory := fun i => (encode [1, 256]).getD (i - 8) 0
    ((Key.shift m)^[1] (Key.ofStrAt m 8 (ofComponents [1, 256]).asStr)).ikey0 = 256 :=
  ⟨codec_and_order.1 [1, 256] (by decide), codec_and_order.2.1 _ (by decide) (by decide),
    ((((codec_and_order.2.2 [1, 256] [1, 256] (by decide) (by decide)).2
      (fun i => (encode [1, 256]).getD (i - 8) 0) 8 8 (by unfold Str.At; decide)
      (by unfold Str.At; decide)).2.2.2) 1 (by decide)).2.1⟩

/-- From `2 ^ 28` components on the length of the encoding does not fit an `int`: it becomes
negative, and `decode` throws. -/
theorem decode_asStr_long : decode (ofComponents (List.replicate (2 ^ 28) 0)).asStr = none ∧
    decode (ofComponents (List.replicate (2 ^ 28) 0)).asStr
      ≠ some (List.replicate (2 ^ 28) 0) := by
  have hlen : (ofComponents (List.replicate (2 ^ 28) 0)).asStr.len = -2 ^ 31 := by
    rw [asStr_ofComponents, len_ofString_eq, encode_length, List.length_replicate]
    rw [Int.bmod_def, if_neg (by omega)]
    omega
  have hdec : decode (ofComponents (List.replicate (2 ^ 28) 0)).asStr = none := by
    rw [decode, hlen, if_neg (by decide), if_pos (by decide)]
  exact ⟨hdec, by rw [hdec]; exact fun h => (by cases h)⟩

end PathKey

end MasstreeLHM
