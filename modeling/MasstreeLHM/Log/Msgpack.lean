import MasstreeLHM.Log.Endian

/-!
# msgpack

`msgpack.hh` and `msgpack.cc`, as far as requests and log records use them: `parser`, the part of
`streaming_parser` that reads one request, and `unparser`.  A reader takes the bytes from its
position on and returns those behind what it has read.  `none` is a failed assertion, or a read
behind the last byte.

* `Msgpack.readInt`, `Msgpack.readStr`, `Msgpack.skipPrimitives` — `parser`, which reads a log
  again.
* `Msgpack.writeUnsigned`, `Msgpack.writeString`, `Msgpack.writeArrayHeader` — `unparser`.
* `Msgpack.consume`, `Msgpack.parseRequest` — `streaming_parser` on input that is there as a whole.

A request is read with `streaming_parser` and logged as bytes, and recovery reads those bytes with
`parser`.  The last section is about where the two agree.  `readUnsigned_of_consume` and
`readStr_of_consume` say that integers and strings are the same for both, and
`skipPrimitive_of_consume` that `skip_primitives` gets behind every value it knows.  It knows no
number of eight bytes: `skipPrimitive_of_not_isSkippable` says that it stays in front of one, and
that what is there is no string.
-/

namespace MasstreeLHM

namespace Msgpack

/-! ## Formats -/

/-- `is_fixint`. -/
def isFixint (x : UInt8) : Bool := x < 0x80 || 0xE0 ≤ x

/-- `is_fixmap`. -/
def isFixmap (x : UInt8) : Bool := 0x80 ≤ x && x < 0x90

/-- `is_fixarray`. -/
def isFixarray (x : UInt8) : Bool := 0x90 ≤ x && x < 0xA0

/-- `is_fixstr`. -/
def isFixstr (x : UInt8) : Bool := 0xA0 ≤ x && x < 0xC0

/-- `is_null_or_bool`. -/
def isNullOrBool (x : UInt8) : Bool := 0xC0 ≤ x && x < 0xC4

/-- `fuint8` to `fint64`: whether the format is signed, and its width in bytes. -/
def intFormat (x : UInt8) : Option (Bool × ℕ) :=
  match x.toNat with
  | 0xCC => some (false, 1)
  | 0xCD => some (false, 2)
  | 0xCE => some (false, 4)
  | 0xCF => some (false, 8)
  | 0xD0 => some (true, 1)
  | 0xD1 => some (true, 2)
  | 0xD2 => some (true, 4)
  | 0xD3 => some (true, 8)
  | _ => none

/-- `fbin8` to `fbin32` and `fstr8` to `fstr32`: the width of the length in bytes. -/
def strFormat (x : UInt8) : Option ℕ :=
  match x.toNat with
  | 0xC4 => some 1
  | 0xD9 => some 1
  | 0xC5 => some 2
  | 0xDA => some 2
  | 0xC6 => some 4
  | 0xDB => some 4
  | _ => none

/-! ## `parser` -/

/-- `parser::read_int` and `hard_read_int`, before the conversion to the type of the variable. -/
def readInt : Bytes → Option (ℤ × Bytes)
  | [] => none
  | x :: s =>
      if isFixint x then some (loadSignedBE 1 [x], s)
      else match intFormat x with
        | none => none
        | some (signed, w) =>
            if s.length < w then none
            else some (if signed then loadSignedBE w s else loadBE w s, s.drop w)

/-- `read_int` into an `unsigned`. -/
def readUnsigned (s : Bytes) : Option (ℕ × Bytes) :=
  (readInt s).map fun p => ((p.1 % 2 ^ 32).toNat, p.2)

/-- The header of a string: its length. -/
def readStrHeader : Bytes → Option (ℕ × Bytes)
  | [] => none
  | x :: s =>
      if isFixstr x then some (x.toNat - 0xA0, s)
      else match strFormat x with
        | none => none
        | some w => if s.length < w then none else some (loadBE w s, s.drop w)

/-- `parser::operator>>(Str&)`. -/
def readStr (s : Bytes) : Option (Bytes × Bytes) :=
  match readStrHeader s with
  | none => none
  | some (len, s) => if s.length < len then none else some (s.take len, s.drop len)

/-- One round of `parser::skip_primitives`.  It knows neither `fuint64`, `fint64` and `ffloat64`
nor arrays and maps, and stays where it is in front of one. -/
def skipPrimitive : Bytes → Bytes
  | [] => []
  | x :: s =>
      if isFixint x || isNullOrBool x then s
      else if isFixstr x then s.drop (x.toNat - 0xA0)
      else if x = 0xCC ∨ x = 0xD0 then s.drop 1
      else if x = 0xCD ∨ x = 0xD1 then s.drop 2
      else if x = 0xCE ∨ x = 0xD2 ∨ x = 0xCA then s.drop 4
      else match strFormat x with
        | some w => s.drop (w + loadBE w s)
        | none => x :: s

/-- `parser::skip_primitives`. -/
def skipPrimitives : ℕ → Bytes → Bytes
  | 0, s => s
  | n + 1, s => skipPrimitives n (skipPrimitive s)

/-- `parser::skip_array_size`. -/
def skipArraySize : Bytes → Option Bytes
  | [] => none
  | x :: s =>
      if isFixarray x then some s
      else if x = 0xDC then some (s.drop 2)
      else if x = 0xDD then some (s.drop 4)
      else none

/-! ## `unparser` -/

/-- `sized_writer<8>::write_unsigned`, which hands small numbers to `sized_writer<4>`. -/
def writeUnsigned (n : ℕ) : Bytes :=
  if n < 0x80 then storeBE 1 n
  else if n < 256 then 0xCC :: storeBE 1 n
  else if n < 65536 then 0xCD :: storeBE 2 n
  else if n < 4294967296 then 0xCE :: storeBE 4 n
  else 0xCF :: storeBE 8 n

/-- `sized_writer<8>::write_signed`. -/
def writeSigned (z : ℤ) : Bytes :=
  let low (w : ℕ) : ℕ := (z % (256 ^ w : ℕ)).toNat
  if -32 ≤ z ∧ z < 128 then storeBE 1 (low 1)
  else if -128 ≤ z ∧ z < 128 then 0xD0 :: storeBE 1 (low 1)
  else if -32768 ≤ z ∧ z < 32768 then 0xD1 :: storeBE 2 (low 2)
  else if -2147483648 ≤ z ∧ z < 2147483648 then 0xD2 :: storeBE 4 (low 4)
  else 0xD3 :: storeBE 8 (low 8)

/-- `write_string`. -/
def writeString (s : Bytes) : Bytes :=
  (if s.length < 0x20 then storeBE 1 (0xA0 + s.length)
  else if s.length < 256 then 0xD9 :: storeBE 1 s.length
  else if s.length < 65536 then 0xDA :: storeBE 2 s.length
  else 0xDB :: storeBE 4 s.length) ++ s

/-- `write_array_header`. -/
def writeArrayHeader (size : ℕ) : Bytes :=
  if size < 0x10 then storeBE 1 (0x90 + size)
  else if size < 65536 then 0xDC :: storeBE 2 size
  else 0xDD :: storeBE 4 size

/-- A written string is read back. -/
lemma readStr_writeString {s : Bytes} (rest : Bytes) (hs : s.length < 2 ^ 32) :
    readStr (writeString s ++ rest) = some (s, rest) := by
  have hbody : ∀ header : Bytes, readStrHeader (header ++ (s ++ rest)) =
    some (s.length, s ++ rest) →
      readStr (header ++ s ++ rest) = some (s, rest) := by
    intro header h
    rw [readStr, List.append_assoc, h]
    simp
  have hwide : ∀ (x : UInt8) (w : ℕ), isFixstr x = false → strFormat x = some w →
      s.length < 256 ^ w →
      readStrHeader ((x :: storeBE w s.length) ++ (s ++ rest)) = some (s.length, s ++ rest) := by
    intro x w h1 h2 h3
    rw [List.cons_append, readStrHeader, h1, h2]
    simp only [Bool.false_eq_true, if_false]
    rw [if_neg (by rw [List.length_append, storeBE_length]; omega),
      loadBE_storeBE_append _ h3, drop_storeBE_append]
  rw [writeString]
  split_ifs with h1 h2 h3
  · refine hbody _ ?_
    have hbyte : storeBE 1 (0xA0 + s.length) = [UInt8.ofNat (0xA0 + s.length)] := rfl
    have hnat : (UInt8.ofNat (0xA0 + s.length)).toNat = 0xA0 + s.length := by
      rw [UInt8.toNat_ofNat', Nat.mod_eq_of_lt (by omega)]
    have hfix : isFixstr (UInt8.ofNat (0xA0 + s.length)) = true := by
      simp only [isFixstr, Bool.and_eq_true, decide_eq_true_eq, UInt8.le_iff_toNat_le,
        UInt8.lt_iff_toNat_lt, hnat]
      exact ⟨by simp, by simp; omega⟩
    rw [hbyte, List.cons_append, readStrHeader, hfix, hnat]
    simp
  · exact hbody _ (hwide 0xD9 1 (by decide) (by decide) h2)
  · exact hbody _ (hwide 0xDA 2 (by decide) (by decide) h3)
  · exact hbody _ (hwide 0xDB 4 (by decide) (by decide) hs)

end Msgpack

/-! ## `streaming_parser` -/

/-- `Json`, as far as the elements of a request are looked at: arrays and objects are `compound`. -/
inductive Json where
  | null
  | bool (b : Bool)
  | int (z : ℤ)
  | unsigned (n : ℕ)
  | double (bits : UInt64)
  | str (s : Bytes)
  | compound
deriving Repr, DecidableEq

namespace Json

/-- `Json::as_u`.  `none` is its failed precondition. -/
def asU : Json → Option ℕ
  | .int z => some (z % 2 ^ 64).toNat
  | .unsigned n => some n
  | .double bits => some (Float.ofBits bits).toUInt64.toNat
  | _ => none

/-- `Json::as_i`. -/
def asI : Json → Option ℤ
  | .int z => some z
  | .unsigned n => some n
  | .double bits => some (Float.ofBits bits).toInt64.toInt
  | _ => none

/-- `Json::as_s`. -/
def asS : Json → Option Bytes
  | .str s => some s
  | _ => none

/-- `unparser::operator<<(const Json&)` for a number or a string. -/
def unparse : Json → Bytes
  | .null => [0xC0]
  | .bool b => [if b then 0xC3 else 0xC2]
  | .int z => Msgpack.writeSigned z
  | .unsigned n => Msgpack.writeUnsigned n
  | .double bits => 0xCB :: storeBE 8 bits.toNat
  | .str s => Msgpack.writeString s
  | .compound => []

end Json

namespace Msgpack

/-- The header of an array: the number of its elements. -/
def readArrayHeader : Bytes → Option (ℕ × Bytes)
  | [] => none
  | x :: s =>
      if isFixarray x then some (x.toNat - 0x90, s)
      else if x = 0xDC then if s.length < 2 then none else some (loadBE 2 s, s.drop 2)
      else if x = 0xDD then if s.length < 4 then none else some (loadBE 4 s, s.drop 4)
      else none

/-- The header of a map. -/
def readMapHeader : Bytes → Option (ℕ × Bytes)
  | [] => none
  | x :: s =>
      if isFixmap x then some (x.toNat - 0x80, s)
      else if x = 0xDE then if s.length < 2 then none else some (loadBE 2 s, s.drop 2)
      else if x = 0xDF then if s.length < 4 then none else some (loadBE 4 s, s.drop 4)
      else none

/-- A number as `streaming_parser` stores it. -/
def consumeNumber : Bytes → Option (Json × Bytes)
  | [] => none
  | x :: s =>
      if isFixint x then some (.int (loadSignedBE 1 [x]), s)
      else if x = 0xCA then
        if s.length < 4 then none
        else some (.double (Float32.ofBits (UInt32.ofNat (loadBE 4 s))).toFloat.toBits, s.drop 4)
      else if x = 0xCB then
        if s.length < 8 then none else some (.double (UInt64.ofNat (loadBE 8 s)), s.drop 8)
      else match intFormat x with
        | none => none
        | some (signed, w) =>
            if s.length < w then none
            -- `fuint8` and `fuint16` go through an `int`
            else if signed || w ≤ 2 then
              some (.int (if signed then loadSignedBE w s else loadBE w s), s.drop w)
            else some (.unsigned (loadBE w s), s.drop w)

/-- `streaming_parser::consume` on input that holds the value as a whole. -/
def consume : ℕ → Bytes → Option (Json × Bytes)
  | 0, _ => none
  | fuel + 1, s =>
      match s.head? with
      | none => none
      | some 0xC0 => some (.null, s.tail)
      | some 0xC2 => some (.bool false, s.tail)
      | some 0xC3 => some (.bool true, s.tail)
      | some _ =>
          match consumeNumber s with
          | some r => some r
          | none =>
              match readStr s with
              | some (v, rest) => some (.str v, rest)
              | none =>
                  match readArrayHeader s with
                  | some (n, rest) =>
                      ((List.range n).foldlM (fun rest _ => (consume fuel rest).map Prod.snd)
                        rest).map fun rest => (.compound, rest)
                  | none =>
                      match readMapHeader s with
                      | some (n, rest) =>
                          ((List.range n).foldlM (fun rest _ =>
                            -- a key is a string or an integer
                            match consume fuel rest with
                            | some (.str _, rest) => (consume fuel rest).map Prod.snd
                            | some (.int _, rest) => (consume fuel rest).map Prod.snd
                            | some (.unsigned _, rest) => (consume fuel rest).map Prod.snd
                            | _ => none) rest).map fun rest => (.compound, rest)
                      | none => none

/-- The elements of an array, `n` of them. -/
def consumeElements : ℕ → Bytes → Option (List Json × Bytes)
  | 0, s => some ([], s)
  | n + 1, s =>
      match consume (s.length + 1) s with
      | none => none
      | some (j, rest) => (consumeElements n rest).map fun p => (j :: p.1, p.2)

/-- A request: `streaming_parser` has found an array, and consumed all of the string. -/
def parseRequest (s : Bytes) : Option (List Json) :=
  match readArrayHeader s with
  | none => none
  | some (n, rest) =>
      match consumeElements n rest with
      | some (request, []) => some request
      | _ => none

/-! ## Where the parsers agree -/

lemma forall_byte {p : UInt8 → Prop} (h : ∀ i : Fin 256, p (UInt8.ofNat i.val)) (x : UInt8) :
    p x := by
  have h0 := h ⟨x.toNat, x.toNat_lt⟩
  simpa using h0

set_option maxRecDepth 4000 in
/-- No byte starts both a number and a string. -/
lemma format_exclusive (x : UInt8) :
    (isFixint x = true ∨ (intFormat x).isSome ∨ x = 0xCA ∨ x = 0xCB →
      isFixstr x = false ∧ strFormat x = none) ∧
    (x = 0xCA ∨ x = 0xCB → isFixint x = false ∧ intFormat x = none) :=
  forall_byte (p := fun x => (isFixint x = true ∨ (intFormat x).isSome ∨ x = 0xCA ∨ x = 0xCB →
      isFixstr x = false ∧ strFormat x = none) ∧
    (x = 0xCA ∨ x = 0xCB → isFixint x = false ∧ intFormat x = none)) (by decide) x

/-- The byte starts a value that `skip_primitives` knows. -/
def isSkippable (s : Bytes) : Bool :=
  match s with
  | [] => false
  | x :: _ => isFixint x || isNullOrBool x || isFixstr x || (strFormat x).isSome
      || x = 0xCA || (match intFormat x with
        | none => false
        | some (_, w) => w < 8)

lemma readStr_of_consumeNumber {s rest : Bytes} {j : Json} (h : consumeNumber s = some (j, rest)) :
    readStr s = none := by
  obtain _ | ⟨x, s⟩ := s
  · rfl
  have hx := (format_exclusive x).1
  rw [readStr, readStrHeader]
  rw [consumeNumber] at h
  obtain ⟨h1, h2⟩ := hx (by grind)
  simp [h1, h2]

/-- What `consume` returns came from one of the four readers, or from one byte. -/
lemma consume_cases {fuel : ℕ} {s rest : Bytes} {j : Json} (h : consume fuel s = some (j, rest)) :
    (∃ x, s = x :: rest ∧ isNullOrBool x ∧ (j = .null ∨ ∃ b, j = .bool b)) ∨
      consumeNumber s = some (j, rest) ∨
      (∃ v, j = .str v ∧ readStr s = some (v, rest)) ∨
      (j = .compound ∧ readStr s = none ∧ consumeNumber s = none ∧
        ((readArrayHeader s).isSome ∨ (readMapHeader s).isSome)) := by
  obtain _ | fuel := fuel
  · cases h
  obtain _ | ⟨x, s⟩ := s
  · cases h
  rw [consume] at h
  split at h
  · cases h
  · next hx =>
      obtain rfl : x = 0xC0 := by simpa using hx
      cases h
      exact Or.inl ⟨_, rfl, by decide, Or.inl rfl⟩
  · next hx =>
      obtain rfl : x = 0xC2 := by simpa using hx
      cases h
      exact Or.inl ⟨_, rfl, by decide, Or.inr ⟨_, rfl⟩⟩
  · next hx =>
      obtain rfl : x = 0xC3 := by simpa using hx
      cases h
      exact Or.inl ⟨_, rfl, by decide, Or.inr ⟨_, rfl⟩⟩
  · refine Or.inr ?_
    split at h
    · next r hr =>
        cases h
        exact Or.inl hr
    · next hnum =>
        refine Or.inr ?_
        split at h
        · next v r hr =>
            cases h
            exact Or.inl ⟨v, rfl, hr⟩
        · next hstr =>
            refine Or.inr ?_
            split at h
            · next n r hr =>
                obtain ⟨r', -, h'⟩ := Option.map_eq_some_iff.mp h
                cases h'
                exact ⟨rfl, hstr, hnum, Or.inl (by rw [hr]; rfl)⟩
            · split at h
              · next n r hr =>
                  obtain ⟨r', -, h'⟩ := Option.map_eq_some_iff.mp h
                  cases h'
                  exact ⟨rfl, hstr, hnum, Or.inr (by rw [hr]; rfl)⟩
              · cases h

lemma readStr_of_consume {fuel : ℕ} {s rest v : Bytes}
    (h : consume fuel s = some (.str v, rest)) : readStr s = some (v, rest) := by
  rcases consume_cases h with ⟨x, -, -, h1 | ⟨b, h1⟩⟩ | h1 | ⟨w, h1, h2⟩ | ⟨h1, -⟩
  · cases h1
  · cases h1
  · obtain _ | ⟨x, s⟩ := s
    · cases h1
    · rw [consumeNumber] at h1
      grind
  · cases h1
    exact h2
  · cases h1

/-- An integer is the same for `read_int` and for `streaming_parser`. -/
lemma readUnsigned_of_consume {fuel n : ℕ} {s rest : Bytes} {j : Json}
    (h : consume fuel s = some (j, rest)) (hj : ∀ bits, j ≠ .double bits) (hn : j.asU = some n) :
    readUnsigned s = some (n % 2 ^ 32, rest) := by
  have hnum : consumeNumber s = some (j, rest) := by
    rcases consume_cases h with ⟨x, -, -, rfl | ⟨b, rfl⟩⟩ | h1 | ⟨w, rfl, -⟩ | ⟨rfl, -⟩
    · cases hn
    · cases hn
    · exact h1
    · cases hn
    · cases hn
  obtain _ | ⟨x, s⟩ := s
  · cases hnum
  have key : ∃ z : ℤ, readInt (x :: s) = some (z, rest) ∧ (n : ℤ) % 2 ^ 32 = z % 2 ^ 32 := by
    rw [consumeNumber] at hnum
    rw [readInt]
    by_cases hx : isFixint x
    · rw [if_pos hx] at hnum ⊢
      cases hnum
      cases hn
      exact ⟨_, rfl, by omega⟩
    rw [if_neg hx] at hnum ⊢
    by_cases hCA : x = 0xCA
    · rw [if_pos hCA] at hnum
      split at hnum
      · cases hnum
      · cases hnum
        exact absurd rfl (hj _)
    rw [if_neg hCA] at hnum
    by_cases hCB : x = 0xCB
    · rw [if_pos hCB] at hnum
      split at hnum
      · cases hnum
      · cases hnum
        exact absurd rfl (hj _)
    rw [if_neg hCB] at hnum
    match hf : intFormat x with
    | none => simp [hf] at hnum
    | some (signed, w) =>
        simp only [hf] at hnum ⊢
        by_cases hl : s.length < w
        · rw [if_pos hl] at hnum
          cases hnum
        rw [if_neg hl] at hnum ⊢
        split at hnum
        · cases hnum
          cases hn
          exact ⟨_, rfl, by omega⟩
        · next hs =>
            cases hnum
            cases hn
            refine ⟨_, rfl, ?_⟩
            simp only [Bool.or_eq_true, not_or] at hs
            rw [if_neg hs.1]
  obtain ⟨z, hz, hmod⟩ := key
  rw [readUnsigned, hz, Option.map_some, ← hmod]
  congr 2

/-- `read_int` knows no floating-point number. -/
lemma readUnsigned_of_double {fuel : ℕ} {s rest : Bytes} {bits : UInt64}
    (h : consume fuel s = some (.double bits, rest)) : readUnsigned s = none := by
  have hnum : consumeNumber s = some (.double bits, rest) := by
    rcases consume_cases h with ⟨x, -, -, h1 | ⟨b, h1⟩⟩ | h1 | ⟨w, h1, -⟩ | ⟨h1, -⟩
    · cases h1
    · cases h1
    · exact h1
    · cases h1
    · cases h1
  obtain _ | ⟨x, s⟩ := s
  · cases hnum
  have hx : x = 0xCA ∨ x = 0xCB := by
    rw [consumeNumber] at hnum
    grind
  obtain ⟨h1, h2⟩ := (format_exclusive x).2 hx
  simp [readUnsigned, readInt, h1, h2]

/-- What `skip_primitives` makes of the first byte of an integer. -/
def SkipsInteger (x : UInt8) : Prop :=
  match intFormat x with
  | none => True
  | some (_, w) => isFixint x = false ∧ isNullOrBool x = false ∧ isFixstr x = false ∧
      (w = 1 ∧ (x = 0xCC ∨ x = 0xD0) ∨ w = 2 ∧ (x = 0xCD ∨ x = 0xD1) ∨
        w = 4 ∧ (x = 0xCE ∨ x = 0xD2) ∨ w = 8 ∧ (x = 0xCF ∨ x = 0xD3))

instance (x : UInt8) : Decidable (SkipsInteger x) := by
  unfold SkipsInteger
  split <;> infer_instance

set_option maxRecDepth 4000 in
lemma skipsInteger (x : UInt8) : SkipsInteger x :=
  forall_byte (p := SkipsInteger) (by decide) x

set_option maxRecDepth 4000 in
lemma strFormat_exclusive (x : UInt8) :
    ((strFormat x).isSome → isFixint x = false ∧ isNullOrBool x = false ∧ isFixstr x = false ∧
      x ≠ 0xCC ∧ x ≠ 0xD0 ∧ x ≠ 0xCD ∧ x ≠ 0xD1 ∧ x ≠ 0xCE ∧ x ≠ 0xD2 ∧ x ≠ 0xCA) ∧
    (isFixstr x = true → isFixint x = false ∧ isNullOrBool x = false) :=
  forall_byte (p := fun x => ((strFormat x).isSome → isFixint x = false ∧ isNullOrBool x = false ∧
      isFixstr x = false ∧ x ≠ 0xCC ∧ x ≠ 0xD0 ∧ x ≠ 0xCD ∧ x ≠ 0xD1 ∧ x ≠ 0xCE ∧ x ≠ 0xD2 ∧
      x ≠ 0xCA) ∧
    (isFixstr x = true → isFixint x = false ∧ isNullOrBool x = false)) (by decide) x

set_option maxRecDepth 4000 in
lemma not_isSkippable (x : UInt8) :
    (isFixarray x = true ∨ isFixmap x = true ∨ x = 0xDC ∨ x = 0xDD ∨ x = 0xDE ∨ x = 0xDF
      ∨ x = 0xCB) → isSkippable [x] = false :=
  forall_byte (p := fun x => (isFixarray x = true ∨ isFixmap x = true ∨ x = 0xDC ∨ x = 0xDD
    ∨ x = 0xDE ∨ x = 0xDF ∨ x = 0xCB) → isSkippable [x] = false) (by decide) x

lemma isSkippable_cons (x : UInt8) (s : Bytes) : isSkippable (x :: s) = isSkippable [x] := rfl

/-- `skip_primitives` gets behind every value it knows. -/
lemma skipPrimitive_of_consume {fuel : ℕ} {s rest : Bytes} {j : Json}
    (h : consume fuel s = some (j, rest)) (hs : isSkippable s) : skipPrimitive s = rest := by
  rcases consume_cases h with ⟨x, rfl, hx, -⟩ | hnum | ⟨v, -, hstr⟩ | ⟨-, -, -, hcomp⟩
  · simp [skipPrimitive, hx]
  · obtain _ | ⟨x, s⟩ := s
    · cases hnum
    rw [isSkippable_cons] at hs
    rw [consumeNumber] at hnum
    by_cases hx : isFixint x
    · rw [if_pos hx] at hnum
      cases hnum
      simp [skipPrimitive, hx]
    rw [if_neg hx] at hnum
    by_cases hCA : x = 0xCA
    · rw [if_pos hCA] at hnum
      split at hnum
      · cases hnum
      · cases hnum
        subst hCA
        simp [skipPrimitive, isFixint, isNullOrBool, isFixstr]
    rw [if_neg hCA] at hnum
    by_cases hCB : x = 0xCB
    · rw [not_isSkippable x (by simp [hCB])] at hs
      cases hs
    rw [if_neg hCB] at hnum
    have htable := skipsInteger x
    rw [SkipsInteger] at htable
    match hf : intFormat x with
    | none => simp [hf] at hnum
    | some (signed, w) =>
        simp only [hf] at hnum htable
        obtain ⟨h1, h2, h3, h4⟩ := htable
        have hrest : rest = s.drop w := by grind
        have hw : w ≠ 8 := by
          rintro rfl
          have hexcl := (format_exclusive x).1 (Or.inr (Or.inl (by rw [hf]; rfl)))
          simp [isSkippable, hf, h1, h2, h3, hexcl.2, hCA] at hs
        rw [hrest, skipPrimitive]
        rcases h4 with ⟨rfl, rfl | rfl⟩ | ⟨rfl, rfl | rfl⟩ | ⟨rfl, rfl | rfl⟩ | ⟨rfl, -⟩
        all_goals first
          | exact absurd rfl hw
          | simp [isFixint, isNullOrBool, isFixstr]
  · obtain _ | ⟨x, s⟩ := s
    · cases hstr
    rw [readStr, readStrHeader] at hstr
    by_cases hx : isFixstr x
    · obtain ⟨h1, h2⟩ := (strFormat_exclusive x).2 hx
      rw [if_pos hx] at hstr
      simp only at hstr
      rw [skipPrimitive]
      simp only [h1, h2, hx]
      grind
    rw [if_neg hx] at hstr
    match hf : strFormat x with
    | none => simp [hf] at hstr
    | some w =>
        obtain ⟨h1, h2, -, h3⟩ := (strFormat_exclusive x).1 (by rw [hf]; rfl)
        simp only [hf] at hstr
        have hrest : rest = (s.drop w).drop (loadBE w s) := by grind
        rw [hrest, skipPrimitive, List.drop_drop]
        simp [h1, h2, hx, h3, hf]
  · obtain _ | ⟨x, s⟩ := s
    · simp [readArrayHeader, readMapHeader] at hcomp
    rw [isSkippable_cons, not_isSkippable x] at hs
    · cases hs
    · rw [readArrayHeader, readMapHeader] at hcomp
      grind

/-- What `skip_primitives` does not know starts no string. -/
lemma skipPrimitive_of_not_isSkippable {s : Bytes} (hs : isSkippable s = false) :
    skipPrimitive s = s := by
  obtain _ | ⟨x, s⟩ := s
  · rfl
  have htable := skipsInteger x
  rw [SkipsInteger] at htable
  simp only [isSkippable, Bool.or_eq_false_iff] at hs
  obtain ⟨⟨⟨⟨⟨h1, h2⟩, h3⟩, h4⟩, h5⟩, h6⟩ := hs
  have h5' : x ≠ 0xCA := by simpa using h5
  have h4' : strFormat x = none := by simpa using h4
  rw [skipPrimitive]
  simp only [h1, h2, h3, h4']
  match hf : intFormat x with
  | none =>
      have hne : ∀ y : UInt8, (intFormat y).isSome → x ≠ y := by
        rintro y hy rfl
        rw [hf] at hy
        cases hy
      simp [hne 0xCC (by decide), hne 0xD0 (by decide), hne 0xCD (by decide),
        hne 0xD1 (by decide), hne 0xCE (by decide), hne 0xD2 (by decide), h5']
  | some (signed, w) =>
      simp only [hf] at htable h6
      have hw : ¬ w < 8 := by simpa using h6
      rcases htable.2.2.2 with ⟨rfl, -⟩ | ⟨rfl, -⟩ | ⟨rfl, -⟩ | ⟨-, rfl | rfl⟩
      all_goals first
        | exact absurd (by decide) hw
        | simp

end Msgpack

end MasstreeLHM
