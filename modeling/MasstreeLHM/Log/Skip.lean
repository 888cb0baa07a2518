import MasstreeLHM.Log.Query

/-!
# Skipping primitives

`parser::skip_primitives` against the formats that `unparser` writes.  The skipper does not know the
formats `fuint64`, `fint64` and `ffloat64`, and stays in front of a value in one of them, so the
bytes that `onego` logs of a put begin too early.

`Primitive` are the values that `unparser` writes, with `write` for the bytes of each.  One round is
`skipPrimitive_write` for a value of at most four bytes, and `skipPrimitive_wide` for a value of
eight.  Rounds over many values are by induction: `skipPrimitives_of_narrow` gets behind as many
values as there are rounds, and `lt_skipPrimitives_of_wide` says that too much is left as soon as
one of them is wide.  Both together are `skipPrimitives_iff`.

**`skipPrimitives_and_logged_tail`** adds what follows for a put, which is logged from the bytes
behind its first three values.
-/

namespace MasstreeLHM

/-- A primitive that `unparser` writes; `wide` integers are those of `write_wide`. -/
inductive Primitive where
  | null
  | bool (b : Bool)
  | unsigned (n : UInt64)
  | signed (z : Int64)
  | wideUnsigned (n : UInt64)
  | wideSigned (z : Int64)
  | float (bits : UInt32)
  | double (bits : UInt64)
  | str (s : Bytes)
deriving Repr, DecidableEq

namespace Primitive

/-- The bytes that `unparser` appends. -/
def write : Primitive → Bytes
  | null => [0xC0]
  | bool b => [if b then 0xC3 else 0xC2]
  | unsigned n => Msgpack.writeUnsigned n.toNat
  | signed z => Msgpack.writeSigned z.toInt
  | wideUnsigned n => 0xCF :: storeBE 8 n.toNat
  | wideSigned z => 0xD3 :: storeBE 8 (z.toInt % (256 ^ 8 : ℕ)).toNat
  | float bits => 0xCA :: storeBE 4 bits.toNat
  | double bits => 0xCB :: storeBE 8 bits.toNat
  | str s => Msgpack.writeString s

/-- A string has an `int` length. -/
def Storable : Primitive → Prop
  | str s => s.length < 2 ^ 31
  | _ => True

/-- The value takes eight bytes. -/
def Wide : Primitive → Prop
  | unsigned n => 2 ^ 32 ≤ n.toNat
  | signed z => z.toInt < -2 ^ 31 ∨ 2 ^ 31 ≤ z.toInt
  | wideUnsigned _ => True
  | wideSigned _ => True
  | double _ => True
  | _ => False

instance (p : Primitive) : Decidable p.Wide := by
  cases p <;> unfold Wide <;> infer_instance

/-- The bytes of several primitives. -/
def writeAll (ps : List Primitive) : Bytes := ps.flatMap write

end Primitive

namespace Msgpack

variable {rest : Bytes} {p : Primitive} {ps : List Primitive} {n : ℕ}

lemma skipPrimitive_fixint {x : UInt8} (h : isFixint x = true) :
    skipPrimitive (x :: rest) = rest := by
  rw [skipPrimitive, h]
  rfl

lemma isFixint_ofNat {n : ℕ} (h : n < 0x80 ∨ 0xE0 ≤ n ∧ n < 256) :
    isFixint (UInt8.ofNat n) = true := by
  have hn : (UInt8.ofNat n).toNat = n := by
    rw [UInt8.toNat_ofNat']
    omega
  simp only [isFixint, Bool.or_eq_true, decide_eq_true_eq, UInt8.lt_iff_toNat_lt,
    UInt8.le_iff_toNat_le, hn]
  exact h.imp id And.left

/-- A value behind one of the known formats is skipped. -/
lemma skipPrimitive_sized {x : UInt8} {w : ℕ} {body : Bytes} (hb : body.length = w)
    (hx : (w = 1 ∧ (x = 0xCC ∨ x = 0xD0)) ∨ (w = 2 ∧ (x = 0xCD ∨ x = 0xD1))
      ∨ (w = 4 ∧ (x = 0xCE ∨ x = 0xD2 ∨ x = 0xCA))) :
    skipPrimitive (x :: (body ++ rest)) = rest := by
  have hdrop : (body ++ rest).drop w = rest := List.drop_left' hb
  rcases hx with ⟨rfl, rfl | rfl⟩ | ⟨rfl, rfl | rfl⟩ | ⟨rfl, rfl | rfl | rfl⟩
  all_goals
    simp only [skipPrimitive]
    exact hdrop

lemma skipPrimitive_long {x : UInt8} {w : ℕ} {v : Bytes} (hv : v.length < 256 ^ w)
    (hx : (w = 1 ∧ x = 0xD9) ∨ (w = 2 ∧ x = 0xDA) ∨ (w = 4 ∧ x = 0xDB)) :
    skipPrimitive (x :: (storeBE w v.length ++ (v ++ rest))) = rest := by
  have hload : loadBE w (storeBE w v.length ++ (v ++ rest)) = v.length :=
    loadBE_storeBE_append _ hv
  have hdrop : (storeBE w v.length ++ (v ++ rest)).drop
      (w + loadBE w (storeBE w v.length ++ (v ++ rest))) = rest := by
    rw [hload, ← List.append_assoc]
    exact List.drop_left' (by simp)
  rcases hx with ⟨rfl, rfl⟩ | ⟨rfl, rfl⟩ | ⟨rfl, rfl⟩
  all_goals
    simp only [skipPrimitive]
    exact hdrop

lemma skipPrimitive_writeString {v : Bytes} (hv : v.length < 2 ^ 31) :
    skipPrimitive (writeString v ++ rest) = rest := by
  rw [writeString, List.append_assoc]
  split_ifs with h1 h2 h3
  · have hn : (UInt8.ofNat (0xA0 + v.length)).toNat = 0xA0 + v.length := by
      rw [UInt8.toNat_ofNat']
      omega
    have hfix : isFixstr (UInt8.ofNat (0xA0 + v.length)) = true := by
      simp only [isFixstr, Bool.and_eq_true, decide_eq_true_eq, UInt8.le_iff_toNat_le,
        UInt8.lt_iff_toNat_lt, hn]
      exact ⟨by simp, by simp; omega⟩
    obtain ⟨h4, h5⟩ := (strFormat_exclusive _).2 hfix
    change skipPrimitive (UInt8.ofNat (0xA0 + v.length) :: (v ++ rest)) = rest
    rw [skipPrimitive, h4, h5, hfix, hn]
    simp
  · exact skipPrimitive_long (w := 1) h2 (by simp)
  · exact skipPrimitive_long (w := 2) h3 (by simp)
  · exact skipPrimitive_long (w := 4) (by omega) (by simp)

lemma skipPrimitive_writeUnsigned {k : ℕ} (hk : k < 2 ^ 32) :
    skipPrimitive (writeUnsigned k ++ rest) = rest := by
  rw [writeUnsigned]
  split_ifs with h1 h2 h3 h4
  · exact skipPrimitive_fixint (isFixint_ofNat (Or.inl h1))
  · exact skipPrimitive_sized (storeBE_length 1 k) (by simp)
  · exact skipPrimitive_sized (storeBE_length 2 k) (by simp)
  · exact skipPrimitive_sized (storeBE_length 4 k) (by simp)
  · exact absurd hk (by simpa using h4)

lemma skipPrimitive_writeSigned {z : ℤ} (hlo : -2 ^ 31 ≤ z) (hhi : z < 2 ^ 31) :
    skipPrimitive (writeSigned z ++ rest) = rest := by
  rw [writeSigned]
  split_ifs with h1 h2 h3 h4
  · refine skipPrimitive_fixint (isFixint_ofNat ?_)
    simp only
    rw [show ((256 ^ 1 : ℕ) : ℤ) = 256 from rfl]
    omega
  · exact skipPrimitive_sized (storeBE_length 1 _) (by simp)
  · exact skipPrimitive_sized (storeBE_length 2 _) (by simp)
  · exact skipPrimitive_sized (storeBE_length 4 _) (by simp)
  · exact absurd ⟨hlo, hhi⟩ h4

/-- A primitive of at most four bytes is skipped. -/
lemma skipPrimitive_write (hp : p.Storable) (hw : ¬ p.Wide) :
    skipPrimitive (p.write ++ rest) = rest := by
  cases p with
  | null => rfl
  | bool b => cases b <;> rfl
  | unsigned k => exact skipPrimitive_writeUnsigned (Nat.not_le.mp hw)
  | signed z =>
    rw [Primitive.Wide, not_or, Int.not_lt, Int.not_le] at hw
    exact skipPrimitive_writeSigned hw.1 hw.2
  | wideUnsigned k => exact absurd trivial hw
  | wideSigned z => exact absurd trivial hw
  | float bits => exact skipPrimitive_sized (storeBE_length 4 _) (by simp)
  | double bits => exact absurd trivial hw
  | str v => exact skipPrimitive_writeString hp

/-- In front of an eight-byte primitive the skipper stays. -/
lemma skipPrimitive_wide (hw : p.Wide) : skipPrimitive (p.write ++ rest) = p.write ++ rest := by
  have hstay (x : UInt8) (t : Bytes) (hx : x = 0xCF ∨ x = 0xD3 ∨ x = 0xCB) :
      skipPrimitive (x :: t) = x :: t := by
    refine skipPrimitive_of_not_isSkippable ?_
    rcases hx with rfl | rfl | rfl
    all_goals rfl
  cases p with
  | null => exact hw.elim
  | bool b => exact hw.elim
  | unsigned k =>
    have hk : 4294967296 ≤ k.toNat := hw
    have hwrite : (Primitive.unsigned k).write = 0xCF :: storeBE 8 k.toNat := by
      rw [Primitive.write, writeUnsigned, if_neg (by omega), if_neg (by omega), if_neg (by omega),
        if_neg (by omega)]
    rw [hwrite]
    exact hstay _ _ (by simp)
  | signed z =>
    have hz : z.toInt < -2147483648 ∨ 2147483648 ≤ z.toInt := hw
    have hwrite : (Primitive.signed z).write
        = 0xD3 :: storeBE 8 (z.toInt % (256 ^ 8 : ℕ)).toNat := by
      rw [Primitive.write, writeSigned]
      simp only
      rw [if_neg (by omega), if_neg (by omega), if_neg (by omega), if_neg (by omega)]
    rw [hwrite]
    exact hstay _ _ (by simp)
  | wideUnsigned k => exact hstay _ _ (by simp)
  | wideSigned z => exact hstay _ _ (by simp)
  | float bits => exact hw.elim
  | double bits => exact hstay _ _ (by simp)
  | str v => exact hw.elim

lemma write_ne_nil (p : Primitive) : p.write ≠ [] := by
  cases p with
  | unsigned k =>
    rw [Primitive.write, writeUnsigned]
    split_ifs <;> simp [storeBE, storeLE]
  | signed z =>
    rw [Primitive.write, writeSigned]
    simp only
    split_ifs <;> simp [storeBE, storeLE]
  | str v =>
    rw [Primitive.write, writeString]
    split_ifs <;> simp [storeBE, storeLE]
  | _ => simp [Primitive.write]

lemma writeAll_cons (p : Primitive) (ps : List Primitive) :
    Primitive.writeAll (p :: ps) ++ rest = p.write ++ (Primitive.writeAll ps ++ rest) := by
  rw [Primitive.writeAll, List.flatMap_cons, List.append_assoc]
  rfl

lemma length_writeAll_drop_le (ps : List Primitive) (n : ℕ) :
    (Primitive.writeAll (ps.drop n)).length ≤ (Primitive.writeAll ps).length := by
  have h := congrArg List.length (congrArg Primitive.writeAll (List.take_append_drop n ps))
  rw [Primitive.writeAll, List.flatMap_append, List.length_append] at h
  exact (Nat.le_add_left _ _).trans h.le

lemma skipPrimitives_wide (hw : p.Wide) : ∀ n, skipPrimitives n (p.write ++ rest) = p.write ++ rest
  | 0 => rfl
  | n + 1 => by rw [skipPrimitives, skipPrimitive_wide hw, skipPrimitives_wide hw n]

/-- Rounds that meet only known formats get behind as many primitives. -/
lemma skipPrimitives_of_narrow : ∀ {n : ℕ} {ps : List Primitive}, (∀ p ∈ ps, p.Storable) →
    n ≤ ps.length → (∀ p ∈ ps.take n, ¬ p.Wide) →
    skipPrimitives n (Primitive.writeAll ps ++ rest) = Primitive.writeAll (ps.drop n) ++ rest
  | 0, ps, _, _, _ => rfl
  | n + 1, [], _, hn, _ => by simp at hn
  | n + 1, p :: ps, hs, hn, hw => by
      rw [writeAll_cons, skipPrimitives, skipPrimitive_write (hs p (by simp)) (hw p (by simp))]
      exact skipPrimitives_of_narrow (fun q hq => hs q (by simp [hq])) (by simpa using hn)
        fun q hq => hw q (by simp [hq])

/-- A round that meets an unknown format leaves too much. -/
lemma lt_skipPrimitives_of_wide : ∀ {n : ℕ} {ps : List Primitive}, (∀ p ∈ ps, p.Storable) →
    (∃ p ∈ ps.take n, p.Wide) →
    (Primitive.writeAll (ps.drop n) ++ rest).length
      < (skipPrimitives n (Primitive.writeAll ps ++ rest)).length
  | 0, ps, _, ⟨p, hp, _⟩ => by simp at hp
  | n + 1, [], _, ⟨p, hp, _⟩ => by simp at hp
  | n + 1, p :: ps, hs, ⟨q, hq, hw⟩ => by
      have hlen := length_writeAll_drop_le ps n
      have hpos := List.length_pos_iff.mpr (write_ne_nil p)
      rw [writeAll_cons, List.drop_succ_cons]
      by_cases hp : p.Wide
      · rw [skipPrimitives_wide hp]
        simp only [List.length_append]
        omega
      · rw [skipPrimitives, skipPrimitive_write (hs p (by simp)) hp]
        refine lt_skipPrimitives_of_wide (fun r hr => hs r (by simp [hr])) ⟨q, ?_, hw⟩
        rw [List.take_succ_cons, List.mem_cons] at hq
        refine hq.resolve_left ?_
        rintro rfl
        exact hp hw

/-- Exactly `n` primitives are skipped if and only if none of them takes eight bytes. -/
lemma skipPrimitives_iff (hs : ∀ p ∈ ps, p.Storable) (hn : n ≤ ps.length) :
    skipPrimitives n (Primitive.writeAll ps ++ rest) = Primitive.writeAll (ps.drop n) ++ rest
      ↔ ∀ p ∈ ps.take n, ¬ p.Wide := by
  refine ⟨fun h p hp hw => ?_, skipPrimitives_of_narrow hs hn⟩
  have hlt : (Primitive.writeAll (ps.drop n) ++ rest).length < _ :=
    lt_skipPrimitives_of_wide hs ⟨p, hp, hw⟩
  rw [h] at hlt
  exact Nat.lt_irrefl _ hlt

lemma skipArraySize_writeArrayHeader {size : ℕ} :
    skipArraySize (writeArrayHeader size ++ rest) = some rest := by
  rw [writeArrayHeader]
  split_ifs with h1 h2
  · have hx : ∀ k < 0x10, isFixarray (UInt8.ofNat (0x90 + k)) = true := by decide
    change skipArraySize (UInt8.ofNat (0x90 + size) :: rest) = some rest
    rw [skipArraySize, hx size h1]
    rfl
  · change skipArraySize (0xDC :: (storeBE 2 size ++ rest)) = some rest
    have hdrop : (storeBE 2 size ++ rest).drop 2 = rest := drop_storeBE_append 2 size rest
    simp only [skipArraySize, hdrop]
    rfl
  · change skipArraySize (0xDD :: (storeBE 4 size ++ rest)) = some rest
    have hdrop : (storeBE 4 size ++ rest).drop 4 = rest := drop_storeBE_append 4 size rest
    simp only [skipArraySize, hdrop]
    rfl

end Msgpack

/-- **What `skip_primitives` skips, and what `onego` logs.**  It gets exactly past the first `n`
primitives if and only if none of them takes eight bytes; so the logged tail of a put is the encoded
column and value list if and only if the sequence number, the command and the key take less. -/
theorem skipPrimitives_and_logged_tail (ps : List Primitive) (rest : Bytes)
    (hs : ∀ p ∈ ps, p.Storable) :
    (∀ n ≤ ps.length,
      (Msgpack.skipPrimitives n (Primitive.writeAll ps ++ rest)
          = Primitive.writeAll (ps.drop n) ++ rest ↔
        ∀ p ∈ ps.take n, ¬ p.Wide)) ∧
    ∀ (size : ℕ) (clock : Clock) (before : Option ValueBag) (owned : Bool) (freed : ℕ → UInt8)
      (e : Executed), 3 ≤ ps.length →
      (Update.putRaw (Msgpack.writeArrayHeader size
        ++ (Primitive.writeAll ps ++ rest))).execute clock before owned freed = some e →
      (e.logged.value = Primitive.writeAll (ps.drop 3) ++ rest ↔ ∀ p ∈ ps.take 3, ¬ p.Wide) := by
  refine ⟨fun n hn => Msgpack.skipPrimitives_iff hs hn, ?_⟩
  intro size clock before owned freed e h3 hexec
  have hvalue : e.logged.value = Msgpack.skipPrimitives 3 (Primitive.writeAll ps ++ rest) := by
    simp only [Update.execute] at hexec
    rw [Msgpack.skipArraySize_writeArrayHeader] at hexec
    split at hexec
    · cases hexec
    · split at hexec
      · next h1 h2 =>
          cases hexec
          cases h2
          rfl
      · cases hexec
  rw [hvalue]
  exact Msgpack.skipPrimitives_iff hs h3

/-- A put of the value `x` with the sequence number 1. -/
theorem skipPrimitives_and_logged_tail_small :
    ∃ e, (Update.putRaw [0x95, 1, 6, 0xA1, 107, 0, 0xA1, 120]).execute ⟨2, 0⟩ none false
        (fun _ => 0) = some e ∧ e.logged.value = [0, 0xA1, 120] :=
  ⟨_, rfl, ((skipPrimitives_and_logged_tail
    [.signed 1, .signed 6, .str [107], .signed 0, .str [120]] [] (by simp [Primitive.Storable])).2
      5 ⟨2, 0⟩ none false (fun _ => 0) _ (by decide) rfl).mpr (by decide)⟩

/-- The sequence number `2 ^ 32` is not skipped, and the rounds for the command and the key do not
get past it either. -/
theorem skipPrimitives_fuint64 :
    Msgpack.skipPrimitives 3
        (Primitive.writeAll [.unsigned 4294967296, .signed 6, .str [107], .signed 0, .str [120]])
      ≠ Primitive.writeAll [.signed 0, .str [120]] := by
  decide

end MasstreeLHM
