import MasstreeLHM.Keys.Key

/-!
# String bags

`stringbag<T>` of `stringbag.hh`, in which a leaf keeps its key suffixes.  A string that is no
longer than its predecessor at the same position takes that one's place, any other goes behind all
strings stored so far; what it leaves behind is not used again.  All sizes and offsets are cut to
the width of the offset type.

A `Stringbag` has the fields of the header on their own, and the bytes of the bag as memory from the
start of the bag on; `overhead` is where the header ends.  So a string that is placed inside the
header is seen as such by its offset, and does not destroy the fields.

`Stringbag.Ok` says that the strings lie behind the header and apart from each other and that every
offset fits its type; `Sound` is the same for a bag that may use the last offset of its type.
`make_sound` starts the invariant, and **`Sound.assign`** keeps it: `assign` stores its string and
leaves the others as they are.
-/

namespace MasstreeLHM

/-! ## Copying into memory -/

/-- `memcpy` of the string `a` to address `p`. -/
def Memory.copy (m : Memory) (p : ℕ) (a : Bytes) : Memory := fun i =>
  if p ≤ i ∧ i < p + a.length then a.getD (i - p) 0 else m i

namespace Memory

lemma bytes_copy_self (m : Memory) (p : ℕ) (a : Bytes) : (m.copy p a).bytes p a.length = a := by
  refine List.ext_getElem (bytes_length _ _ _) fun i h1 h2 => ?_
  simp [bytes, copy, h2]

@[simp] lemma copy_nil (m : Memory) (p : ℕ) : m.copy p [] = m :=
  funext fun i => if_neg (by simp only [List.length_nil]; omega)

lemma bytes_copy_of_disjoint {m : Memory} {p q n : ℕ} {a : Bytes}
    (h : q + n ≤ p ∨ p + a.length ≤ q) : (m.copy p a).bytes q n = m.bytes q n := by
  refine List.map_congr_left fun i hi => if_neg ?_
  rw [List.mem_range] at hi
  omega

end Memory

/-! ## Bags -/

/-- `stringbag<T>` for an offset type `T` of `w` bytes: `size_`, the last offset that `capacity_`
keeps, `info_` (offset and length of each string) and the memory that the bag lies in.  In the code
the first three are the first `overhead` bytes of that memory.  Here this header is kept apart from
the bytes, which makes a difference only where a string is written over it, in a bag whose size has
wrapped around. -/
structure Stringbag (w : ℕ) where
  size : ℕ
  lastOffset : ℕ
  info : List (ℕ × ℕ)
  memory : Memory

namespace Stringbag

variable {w : ℕ}

/-- `overhead`. -/
def overhead (w width : ℕ) : ℕ := 2 * w + width * (2 * w)

/-- `safe_size`. -/
def safeSize (w width len : ℕ) : ℕ := overhead w width + len + 7

/-- The constructor, with its assertion. -/
def make (w width capacity : ℕ) : Option (Stringbag w) :=
  if overhead w width ≤ capacity ∧ capacity ≤ 256 ^ w then
    some ⟨overhead w width % 256 ^ w, (capacity - 1) % 256 ^ w, List.replicate width (0, 0),
      fun _ => 0⟩
  else none

/-- `capacity`. -/
def capacity (b : Stringbag w) : ℕ := b.lastOffset + 1

/-- `get`. -/
def get (b : Stringbag w) (p : ℕ) : Bytes :=
  b.memory.bytes (b.info.getD p (0, 0)).1 (b.info.getD p (0, 0)).2

/-- Copy the string to offset `pos`, and note where it is and how much of the bag is used now. -/
def place (b : Stringbag w) (p pos size : ℕ) (a : Bytes) : Stringbag w :=
  { b with
    size := size
    memory := b.memory.copy pos a
    info := b.info.set p (pos % 256 ^ w, a.length % 256 ^ w) }

/-- `assign`; `none` is the result `false`. -/
def assign (b : Stringbag w) (p : ℕ) (a : Bytes) : Option (Stringbag w) :=
  if a.length ≤ (b.info.getD p (0, 0)).2 then some (b.place p (b.info.getD p (0, 0)).1 b.size a)
  else if b.size + max a.length 8 ≤ b.capacity then
    some (b.place p b.size ((b.size + a.length) % 256 ^ w) a)
  else none

/-- The strings of a bag lie behind the header and apart from each other, and every offset fits its
type. -/
structure Ok (width : ℕ) (b : Stringbag w) : Prop where
  length : b.info.length = width
  size_le : b.size ≤ b.capacity
  limit : b.capacity < 256 ^ w
  within : ∀ p, (b.info.getD p (0, 0)).1 + (b.info.getD p (0, 0)).2 ≤ b.size
  header : overhead w width ≤ b.size ∧
    ∀ p, (b.info.getD p (0, 0)).2 = 0 ∨ overhead w width ≤ (b.info.getD p (0, 0)).1
  apart : ∀ p q, p ≠ q → (b.info.getD p (0, 0)).2 = 0 ∨ (b.info.getD q (0, 0)).2 = 0 ∨
    (b.info.getD p (0, 0)).1 + (b.info.getD p (0, 0)).2 ≤ (b.info.getD q (0, 0)).1 ∨
    (b.info.getD q (0, 0)).1 + (b.info.getD q (0, 0)).2 ≤ (b.info.getD p (0, 0)).1

/-- The same of a bag that may use the last offset that its type has. -/
structure Sound (width : ℕ) (b : Stringbag w) : Prop where
  length : b.info.length = width
  size_le : b.size ≤ b.capacity
  size_lt : b.size < 256 ^ w
  within : ∀ p, (b.info.getD p (0, 0)).1 + (b.info.getD p (0, 0)).2 ≤ b.size
  header : overhead w width ≤ b.size ∧
    ∀ p, (b.info.getD p (0, 0)).2 = 0 ∨ overhead w width ≤ (b.info.getD p (0, 0)).1
  apart : ∀ p q, p ≠ q → (b.info.getD p (0, 0)).2 = 0 ∨ (b.info.getD q (0, 0)).2 = 0 ∨
    (b.info.getD p (0, 0)).1 + (b.info.getD p (0, 0)).2 ≤ (b.info.getD q (0, 0)).1 ∨
    (b.info.getD q (0, 0)).1 + (b.info.getD q (0, 0)).2 ≤ (b.info.getD p (0, 0)).1

lemma Ok.sound {width : ℕ} {b : Stringbag w} (h : b.Ok width) : b.Sound width :=
  ⟨h.length, h.size_le, h.size_le.trans_lt h.limit, h.within, h.header, h.apart⟩

lemma Sound.ok {width : ℕ} {b : Stringbag w} (h : b.Sound width) (hcap : b.capacity < 256 ^ w) :
    b.Ok width :=
  ⟨h.length, h.size_le, hcap, h.within, h.header, h.apart⟩

lemma getD_replicate (width p : ℕ) :
    (List.replicate width ((0, 0) : ℕ × ℕ)).getD p (0, 0) = (0, 0) := by
  simp only [List.getD_eq_getElem?_getD, List.getElem?_replicate]
  split_ifs <;> rfl

/-- A new bag whose header leaves an offset for its end. -/
lemma make_sound {w width capacity : ℕ} {b : Stringbag w} (h : make w width capacity = some b)
    (hcap : 0 < capacity) (hover : overhead w width < 256 ^ w) :
    b.Sound width ∧ b.capacity = capacity ∧ b.size = overhead w width ∧ ∀ p, b.get p = [] := by
  rw [make] at h
  split_ifs at h with h0
  obtain rfl : _ = b := by simpa using h
  have hinfo := getD_replicate width
  have hsize : overhead w width % 256 ^ w = overhead w width := Nat.mod_eq_of_lt hover
  have hlast : (capacity - 1) % 256 ^ w = capacity - 1 := Nat.mod_eq_of_lt (by omega)
  have hend : (capacity - 1) % 256 ^ w + 1 = capacity := by omega
  refine ⟨⟨by simp, ?_, ?_, ?_, ⟨hsize.ge, ?_⟩, ?_⟩, hend, hsize, ?_⟩
  · exact hsize.le.trans (h0.1.trans hend.ge)
  · exact hsize.trans_lt hover
  · intro p
    simp only [hinfo]
    exact Nat.zero_le _
  · intro p
    exact Or.inl (by simp only [hinfo])
  · intro p q _
    exact Or.inl (by simp only [hinfo])
  · intro p
    simp only [get, hinfo]
    rfl

lemma make_spec (w width capacity : ℕ) (h1 : overhead w width ≤ capacity) (h2 : capacity < 256 ^ w)
    (h3 : 0 < capacity) : ∃ b, make w width capacity = some b ∧ b.Ok width ∧ b.capacity = capacity ∧
      b.size = overhead w width ∧ ∀ p, b.get p = [] := by
  have hb : make w width capacity = some _ := if_pos ⟨h1, h2.le⟩
  obtain ⟨g1, g2, g3, g4⟩ := make_sound hb h3 (h1.trans_lt h2)
  exact ⟨_, hb, g1.ok (g2.trans_lt h2), g2, g3, g4⟩

section Place

variable {width p : ℕ} {b : Stringbag w}

lemma info_set (hb : b.info.length = width) (hp : p < width) (x : ℕ × ℕ) (q : ℕ) :
    (b.info.set p x).getD q (0, 0) = if q = p then x else b.info.getD q (0, 0) := by
  simp only [List.getD_eq_getElem?_getD, List.getElem?_set]
  by_cases hqp : p = q
  · subst hqp
    simp [hb, hp]
  · rw [if_neg hqp, if_neg (Ne.symm hqp)]

/-- A string placed where no other string is. -/
lemma Sound.place (hb : b.Sound width) (hp : p < width) (pos size' : ℕ) (a : Bytes)
    (h0 : size' < 256 ^ w) (h1 : size' ≤ b.capacity) (h2 : b.size ≤ size')
    (h3 : pos + a.length ≤ size') (h4 : a.length = 0 ∨ overhead w width ≤ pos)
    (hfree : ∀ q, q ≠ p → a.length = 0 ∨ (b.info.getD q (0, 0)).2 = 0 ∨
      (b.info.getD q (0, 0)).1 + (b.info.getD q (0, 0)).2 ≤ pos ∨
      pos + a.length ≤ (b.info.getD q (0, 0)).1) :
    (b.place p pos size' a).Sound width ∧
      (b.place p pos size' a).get p = a ∧
      ∀ q, q ≠ p → (b.place p pos size' a).get q = b.get q := by
  have hinfo : ∀ q, (b.place p pos size' a).info.getD q (0, 0)
      = if q = p then (pos, a.length) else b.info.getD q (0, 0) := by
    intro q
    rw [Stringbag.place, info_set hb.length hp, Nat.mod_eq_of_lt (by omega),
      Nat.mod_eq_of_lt (by omega)]
  refine ⟨⟨by simp [Stringbag.place, hb.length], h1, h0, ?_, ⟨hb.header.1.trans h2, ?_⟩, ?_⟩,
    ?_, ?_⟩
  · intro q
    rw [hinfo]
    split_ifs
    · exact h3
    · exact (hb.within q).trans h2
  · intro q
    rw [hinfo]
    split_ifs
    · exact h4
    · exact hb.header.2 q
  · intro q r hqr
    rw [hinfo, hinfo]
    split_ifs with hq hr hr
    · exact absurd (hq.trans hr.symm) hqr
    · have := hfree r hr
      omega
    · have := hfree q hq
      omega
    · exact hb.apart q r hqr
  · rw [get, hinfo, if_pos rfl]
    exact Memory.bytes_copy_self _ _ _
  · intro q hq
    rw [get, hinfo, if_neg hq, get]
    rcases Nat.eq_zero_or_pos (b.info.getD q (0, 0)).2 with h0 | h0
    · rw [h0]
      rfl
    · rcases Nat.eq_zero_or_pos a.length with ha | ha
      · rw [List.eq_nil_of_length_eq_zero ha, Stringbag.place, Memory.copy_nil]
      · exact Memory.bytes_copy_of_disjoint (by have := hfree q hq; omega)

end Place

variable {width p : ℕ} {b b' : Stringbag w} {a : Bytes}

/-- **`assign`** stores the string, and leaves the others as they are. -/
lemma Sound.assign (hb : b.Sound width) (hp : p < width) (h : b.assign p a = some b')
    (hend : a.length ≤ (b.info.getD p (0, 0)).2 ∨ b.size + a.length < 256 ^ w) :
    b'.Sound width ∧ b'.get p = a ∧ (∀ q, q ≠ p → b'.get q = b.get q) ∧ b'.capacity = b.capacity ∧
      b.size ≤ b'.size ∧ b'.size ≤ b.size + a.length := by
  rw [Stringbag.assign] at h
  split_ifs at h with h1 h2
  · obtain rfl : _ = b' := by simpa using h
    have hin := hb.within p
    obtain ⟨g1, g2, g3⟩ := hb.place hp (b.info.getD p (0, 0)).1 b.size a hb.size_lt
      hb.size_le le_rfl (by omega) (by have := hb.header.2 p; omega)
      (fun q hq => by have := hb.apart p q hq.symm; omega)
    exact ⟨g1, g2, g3, rfl, le_rfl, Nat.le_add_right _ _⟩
  · obtain rfl : _ = b' := by simpa using h
    have hlt : b.size + a.length < 256 ^ w := hend.resolve_left h1
    rw [Nat.mod_eq_of_lt hlt]
    obtain ⟨g1, g2, g3⟩ := hb.place hp b.size (b.size + a.length) a hlt (by omega)
      (Nat.le_add_right _ _) le_rfl (Or.inr hb.header.1) (fun q _ => by have := hb.within q; omega)
    exact ⟨g1, g2, g3, rfl, Nat.le_add_right _ _, le_rfl⟩

lemma assign_spec (hb : b.Ok width) (hp : p < width) (h : b.assign p a = some b') :
    b'.Ok width ∧ b'.get p = a ∧ (∀ q, q ≠ p → b'.get q = b.get q) ∧ b'.capacity = b.capacity ∧
      b'.size ≤ b.size + a.length := by
  have hend : a.length ≤ (b.info.getD p (0, 0)).2 ∨ b.size + a.length < 256 ^ w := by
    by_cases hle : a.length ≤ (b.info.getD p (0, 0)).2
    · exact Or.inl hle
    · have hlim := hb.limit
      rw [assign, if_neg hle] at h
      split_ifs at h
      exact Or.inr (by omega)
  obtain ⟨g1, g2, g3, g4, -, g5⟩ := hb.sound.assign hp h hend
  exact ⟨g1.ok (g4.trans_lt hb.limit), g2, g3, g4, g5⟩

lemma capacity_assign (h : b.assign p a = some b') : b'.capacity = b.capacity := by
  rw [assign] at h
  split_ifs at h <;> cases h <;> rfl

lemma exists_assign (h : b.size + max a.length 8 ≤ b.capacity) : ∃ b', b.assign p a = some b' := by
  rw [assign]
  split_ifs
  · exact ⟨_, rfl⟩
  · exact ⟨_, rfl⟩

end Stringbag

end MasstreeLHM
