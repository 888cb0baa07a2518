import MasstreeLHM.Keys.Key

/-!
# The order of keys

Comparing ikeys, then lengths, then the keys shifted by one slice is comparing the strings byte by
byte with a proper prefix first.  Shifts only move the boundary between the prefix and the rest.

A slice does not see zero bytes at the end of a string, and the comparison of lengths decides what
it leaves open.  `lt_of_slice_lt` and `prefix_of_slice_eq` say what a slice tells about its string.
One comparison either decides the order of the strings or finds that both keys continue behind equal
slices (`Decides`, `compare_decides`); **`compareSlices_sign`** is the induction over the slices.

`Within` says where a key that was shifted from a string stands: the prefix and the rest are two
parts of the string, whatever was shifted.  It is an invariant of `shift` (`ShiftedFrom.within`),
and `unshiftAll` goes back to the key of the whole string.
-/

namespace MasstreeLHM

variable {m : Memory} {k x : Key} {a b : Bytes}

/-- A slice that is smaller belongs to a smaller string. -/
lemma lt_of_slice_lt (h : slice a < slice b) : a < b :=
  lt_of_padTo_lt ((valueBE_lt_iff (by rw [padTo_length, padTo_length])).mp h)

lemma padTo_of_slice_eq (h : slice a = slice b) : padTo 8 a = padTo 8 b :=
  valueBE_inj (by rw [padTo_length, padTo_length]) h

/-- With the same slice the one that ends within it is a prefix of the other. -/
lemma prefix_of_slice_eq (h : slice a = slice b) (hl : a.length ≤ b.length) (ha : a.length ≤ 8) :
    a = b.take a.length := by
  have := take_eq_of_padTo (padTo_of_slice_eq h) hl
  rwa [List.take_of_length_le ha, Nat.min_eq_right ha] at this

lemma take_eq_of_slice_eq (h : slice a = slice b) (ha : 8 < a.length) (hb : 8 < b.length) :
    a.take 8 = b.take 8 := by
  rw [← padTo_of_le ha.le, ← padTo_of_le hb.le, padTo_of_slice_eq h]

lemma lt_of_take {n : ℕ} (h : a = b.take n) (hn : a.length < b.length) : a < b := by
  have hb : b = a ++ b.drop n := by rw [h, List.take_append_drop]
  have hne : b.drop n ≠ [] := by
    intro h0
    rw [h0, List.append_nil] at hb
    rw [hb] at hn
    exact Nat.lt_irrefl _ hn
  obtain ⟨c, cs, hc⟩ := List.exists_cons_of_ne_nil hne
  have h0 : a ++ [] < a ++ c :: cs := List.append_left_lt (List.nil_lt_cons c cs)
  rw [List.append_nil] at h0
  rwa [hb, hc]

lemma compareInts_lt {i j : ℕ} : compareInts i j < 0 ↔ i < j := by
  rw [compareInts]
  split_ifs with h1 h2
  · simp [h1]
  · simp [h2]
  · simp [h2]

lemma compareInts_eq {i j : ℕ} : compareInts i j = 0 ↔ i = j := by
  rw [compareInts]
  split_ifs with h1 h2
  · simp [h1]
  · simp [h1]
  · simp [h1]

namespace Key

/-- The ikey is the first slice of what the key stands for. -/
def Sound (m : Memory) (k : Key) : Prop := k.ikey0 = slice (k.remaining m)

lemma sound_ofStr (m : Memory) (s len : ℕ) : (ofStr m s len).Sound m :=
  sliceMakeComparable_eq m s len

lemma sound_shift (m : Memory) (k : Key) : (k.shift m).Sound m :=
  sliceMakeComparableSloppy_eq m (Nat.le_add_left 8 k.s) _

@[simp] lemma remaining_length (m : Memory) (k : Key) : (k.remaining m).length = k.len :=
  m.bytes_length _ _

lemma remaining_shift (m : Memory) (h : k.hasSuffix = true) :
    (k.shift m).remaining m = (k.remaining m).drop 8 := by
  have h8 : 8 < k.len := by simpa [hasSuffix] using h
  rw [remaining, remaining, Memory.drop_bytes h8.le]
  rfl

/-- What one comparison finds out about the strings. -/
structure Decides (cmp : ℤ) (a b : Bytes) : Prop where
  lt : cmp < 0 → a < b
  gt : 0 < cmp → b < a
  eq : cmp = 0 → a = b

/-- One comparison decides, unless the slices agree and both keys continue. -/
lemma compare_decides (hk : k.Sound m) (hx : x.Sound m)
    (h : ¬ (k.compare x = 0 ∧ k.hasSuffix ∧ x.hasSuffix)) :
    Decides (k.compare x) (k.remaining m) (x.remaining m) := by
  have hka := k.remaining_length m
  have hxa := x.remaining_length m
  rw [Sound] at hk hx
  have hcmp : k.compare x = if k.ikey0 = x.ikey0 then
      (if 8 < k.len then (if x.len ≤ 8 then 1 else 0) else (k.len : ℤ) - x.len)
      else compareInts k.ikey0 x.ikey0 := by
    simp only [compare, compareIkey, compareInts_eq]
  by_cases he : k.ikey0 = x.ikey0
  swap
  · rw [hcmp, if_neg he]
    refine ⟨fun hlt => ?_, fun hgt => ?_, fun h0 => absurd (compareInts_eq.mp h0) he⟩
    · rw [compareInts_lt, hk, hx] at hlt
      exact lt_of_slice_lt hlt
    · have hgt' : x.ikey0 < k.ikey0 := by
        have : ¬ k.ikey0 < x.ikey0 := fun hlt => by
          have := compareInts_lt.mpr hlt
          omega
        omega
      rw [hk, hx] at hgt'
      exact lt_of_slice_lt hgt'
  have hs : slice (k.remaining m) = slice (x.remaining m) := by rw [← hk, ← hx, he]
  rw [if_pos he] at hcmp
  by_cases hk8 : 8 < k.len
  · rw [if_pos hk8] at hcmp
    by_cases hx8 : x.len ≤ 8
    · -- the second one ends within the slice
      rw [if_pos hx8] at hcmp
      refine ⟨fun h0 => by omega, fun _ => ?_, fun h0 => by omega⟩
      exact lt_of_take (prefix_of_slice_eq hs.symm (by omega) (by omega)) (by omega)
    · rw [if_neg hx8] at hcmp
      refine absurd ⟨hcmp, ?_, ?_⟩ h
      · simpa [hasSuffix] using hk8
      · simpa [hasSuffix] using hx8
  rw [if_neg hk8] at hcmp
  rw [hcmp]
  refine ⟨fun h0 => ?_, fun h0 => ?_, fun h0 => ?_⟩
  · exact lt_of_take (prefix_of_slice_eq hs (by omega) (by omega)) (by omega)
  · exact lt_of_take (prefix_of_slice_eq hs.symm (by omega) (by omega)) (by omega)
  · have := prefix_of_slice_eq hs (by omega) (by omega)
    rwa [List.take_of_length_le (by omega)] at this

lemma compareSlices_decides (m : Memory) (k x : Key) (hk : k.Sound m) (hx : x.Sound m) :
    Decides (k.compareSlices m x) (k.remaining m) (x.remaining m) := by
  induction k, x using compareSlices.induct m with
  | case1 k x h ih =>
    obtain ⟨hcmp, hks, hxs⟩ := h
    have hk8 : 8 < k.len := by simpa [hasSuffix] using hks
    have hx8 : 8 < x.len := by simpa [hasSuffix] using hxs
    have ih := ih (sound_shift m k) (sound_shift m x)
    rw [remaining_shift m hks, remaining_shift m hxs] at ih
    have htake : (k.remaining m).take 8 = (x.remaining m).take 8 := by
      refine take_eq_of_slice_eq ?_ (by simpa using hk8) (by simpa using hx8)
      have he : k.ikey0 = x.ikey0 := by
        by_contra hne
        have hc : k.compare x = compareInts k.ikey0 x.ikey0 := by
          simp only [compare, compareIkey, compareInts_eq, if_neg hne]
        exact hne (compareInts_eq.mp (hc ▸ hcmp))
      rw [← hk, ← hx, he]
    rw [compareSlices, if_pos ⟨hcmp, hks, hxs⟩]
    -- the first slices agree, so the rest decides
    have hka := List.take_append_drop 8 (k.remaining m)
    have hxa := List.take_append_drop 8 (x.remaining m)
    rw [← hka, ← hxa, htake]
    exact ⟨fun h => List.append_left_lt (ih.lt h), fun h => List.append_left_lt (ih.gt h),
      fun h => by rw [ih.eq h]⟩
  | case2 k x h =>
    rw [compareSlices, if_neg h]
    exact compare_decides hk hx h

/-- Comparing two strings slice by slice gives the sign of comparing them byte by byte. -/
lemma compareSlices_sign (m : Memory) (s₁ len₁ s₂ len₂ : ℕ) :
    let cmp := (ofStr m s₁ len₁).compareSlices m (ofStr m s₂ len₂)
    (cmp < 0 ↔ m.bytes s₁ len₁ < m.bytes s₂ len₂)
      ∧ (cmp = 0 ↔ m.bytes s₁ len₁ = m.bytes s₂ len₂)
      ∧ (0 < cmp ↔ m.bytes s₂ len₂ < m.bytes s₁ len₁) := by
  have h := compareSlices_decides m _ _ (sound_ofStr m s₁ len₁) (sound_ofStr m s₂ len₂)
  simp only [remaining, ofStr] at h ⊢
  generalize compareSlices m _ _ = cmp at h ⊢
  generalize m.bytes s₁ len₁ = a at h ⊢
  generalize m.bytes s₂ len₂ = b at h ⊢
  have hirr (c : Bytes) : ¬ c < c := List.lt_irrefl c
  have hasymm (h1 : a < b) (h2 : b < a) : False := List.lt_asymm h1 h2
  refine ⟨⟨h.lt, fun hab => ?_⟩, ⟨h.eq, fun hab => ?_⟩, ⟨h.gt, fun hab => ?_⟩⟩
  · rcases lt_trichotomy cmp 0 with hc | hc | hc
    · exact hc
    · exact absurd (h.eq hc ▸ hab) (hirr _)
    · exact (hasymm hab (h.gt hc)).elim
  · rcases lt_trichotomy cmp 0 with hc | hc | hc
    · exact absurd (hab ▸ h.lt hc) (hirr _)
    · exact hc
    · exact absurd (hab ▸ h.gt hc) (hirr _)
  · rcases lt_trichotomy cmp 0 with hc | hc | hc
    · exact (hasymm (h.lt hc) hab).elim
    · exact absurd (h.eq hc ▸ hab) (hirr _)
    · exact hc

/-! ### Shifts -/

/-- Where a key shifted from a string stands. -/
structure Within (m : Memory) (s len : ℕ) (k : Key) : Prop where
  sound : k.Sound m
  first : k.first = s
  le : s ≤ k.s
  stop : k.s + k.len = s + len

variable {s len : ℕ}

lemma shift_s (m : Memory) (k : Key) : (k.shift m).s = k.s + 8 := rfl

lemma shift_first (m : Memory) (k : Key) : (k.shift m).first = k.first := by
  rw [shift]

lemma shift_len (m : Memory) (k : Key) : (k.shift m).len = k.len - 8 := rfl

lemma Within.shift (h : Within m s len k) (hs : k.hasSuffix = true) :
    Within m s len (k.shift m) := by
  have h8 : 8 < k.len := by simpa [hasSuffix] using hs
  have hle := h.le
  have hstop := h.stop
  refine ⟨sound_shift m k, ?_, ?_, ?_⟩
  · rw [shift_first, h.first]
  · rw [shift_s]
    omega
  · rw [shift_s, shift_len]
    omega

lemma ShiftedFrom.within (h : ShiftedFrom m (ofStr m s len) k) : Within m s len k := by
  induction h with
  | refl => exact ⟨sound_ofStr m s len, rfl, Nat.le_refl s, rfl⟩
  | shift _ hs ih => exact ih.shift hs

lemma Within.unshiftAll (h : Within m s len k) : k.unshiftAll m = ofStr m s len := by
  obtain ⟨hsound, hfirst, hle, hstop⟩ := h
  rw [Key.unshiftAll]
  split_ifs with hs
  · -- not shifted at all
    have hks : k.s = s := hs.trans hfirst
    have hlen : k.len = len := by omega
    rw [Sound, remaining, hks, hlen, ← sliceMakeComparable_eq] at hsound
    cases k
    simp only at hsound hfirst hks hlen
    rw [ofStr, hsound, hfirst, hks, hlen]
  · have hlen : k.len + (k.s - s) = len := by omega
    simp only [hfirst, hlen, ofStr]

lemma Within.prefix_append (h : Within m s len k) :
    k.prefixString m ++ k.remaining m = m.bytes s len := by
  obtain ⟨_, hfirst, hle, hstop⟩ := h
  have := m.bytes_add s (k.s - s) k.len
  rw [show k.s - s + k.len = len by omega, show s + (k.s - s) = k.s by omega] at this
  rw [prefixString, remaining, hfirst, this]

lemma Within.fullString (h : Within m s len k) : k.fullString m = m.bytes s len := by
  obtain ⟨_, hfirst, hle, hstop⟩ := h
  rw [Key.fullString, hfirst, hstop, Nat.add_sub_cancel_left]

/-- Comparing two strings slice by slice gives the sign of comparing them byte by byte, with a
proper prefix first.  After any number of shifts the key stands for the rest of its string, as if
it had been made from it; the prefix and the rest are the string, and `unshift_all` gives the
original key back. -/
theorem compareSlices_and_shifts (m : Memory) (s₁ len₁ s₂ len₂ : ℕ) :
    (let cmp := (ofStr m s₁ len₁).compareSlices m (ofStr m s₂ len₂)
     (cmp < 0 ↔ m.bytes s₁ len₁ < m.bytes s₂ len₂)
      ∧ (cmp = 0 ↔ m.bytes s₁ len₁ = m.bytes s₂ len₂)
      ∧ (0 < cmp ↔ m.bytes s₂ len₂ < m.bytes s₁ len₁)) ∧
    ∀ k : Key, ShiftedFrom m (ofStr m s₁ len₁) k →
      k.unshiftAll m = ofStr m s₁ len₁
      ∧ k.ikey0 = sliceMakeComparable m k.s k.len
      ∧ k.prefixString m ++ k.remaining m = m.bytes s₁ len₁
      ∧ k.fullString m = m.bytes s₁ len₁ := by
  refine ⟨compareSlices_sign m s₁ len₁ s₂ len₂, fun k hk => ?_⟩
  have h := hk.within
  exact ⟨h.unshiftAll, h.sound.trans (sliceMakeComparable_eq m k.s k.len).symm, h.prefix_append,
    h.fullString⟩

/-- A key of twenty bytes shifted once. -/
theorem compareSlices_and_shifts_twenty :
    (((ofStr UInt8.ofNat 0 20).shift UInt8.ofNat).unshiftAll UInt8.ofNat).ikey0
      = (ofStr UInt8.ofNat 0 20).ikey0 :=
  congrArg Key.ikey0 (((compareSlices_and_shifts UInt8.ofNat 0 20 0 20).2 _
    (.shift .refl rfl)).1)

end Key

end MasstreeLHM
