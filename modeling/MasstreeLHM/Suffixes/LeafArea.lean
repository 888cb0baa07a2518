import MasstreeLHM.Suffixes.Store

/-!
# The allocation of a node

How much memory a node has, and what lies in it.  A leaf is followed by its internal string bag, and
the root of a directory by a `directory_meta` at the end of its memory.  The sizes are kept in two
signed bytes, in cache lines; the sign of the first says which bag is in use.

`LeafArea` are the bags of a leaf with these two fields, and the functions that make a leaf return
the size that they allocate beside it.  A number is stored as `int8_t` with its wrap-around, and the
preconditions of the constructor are tests.

`Sized` says that the fields mean what they should: so many bytes for the leaf with its internal
bag, and so many for the metadata.  `Made` is a leaf at any time after it was made, through any
number of `assign_ksuf`, which turns the sign of the first field over once.  **`Made.sized`** keeps
the one along the other.  **`node_allocations`** is what follows for every leaf and internode.
-/

namespace MasstreeLHM

/-- `sizeof(directory_meta)`: an `inode_ref`, the hash, two bytes and the name, aligned to eight
bytes. -/
def sizeofDirectoryMeta : ℕ := iceil (8 + 8 + 1 + 1 + (kMaxEntryNameBytes + 1)) 8

/-- A value stored as `int8_t`. -/
def int8 (x : ℤ) : ℤ := x.bmod 256

lemma int8_eq {x : ℤ} (h : -128 ≤ x) (h' : x < 128) : int8 x = x :=
  Int.bmod_eq_of_le (by omega) (by omega)

/-! ## Leaves -/

/-- The bags of a leaf, and its fields `extrasize64_` and `root_meta_extra64_`. -/
structure LeafArea extends SuffixStore where
  extrasize64 : ℤ
  rootMetaExtra64 : ℤ

namespace LeafArea

/-- The constructor of a leaf, with its preconditions; `leafSize` is `sizeof(*this)`. -/
def construct (leafSize width internalSz totalSz : ℕ) : Option LeafArea :=
  if internalSz % 64 = 0 ∧ totalSz % 64 = 0 ∧ internalSz ≤ totalSz ∧ totalSz / 64 < 128 then
    let extrasize64 := int8 ((internalSz / 64 : ℕ) - ((leafSize + 63) / 64 : ℕ))
    let rootMetaExtra64 := int8 ((totalSz / 64 : ℕ) - (internalSz / 64 : ℕ))
    if 0 < extrasize64 then
      (Stringbag.make 1 width (internalSz - leafSize)).map fun b =>
        ⟨⟨some b, none⟩, extrasize64, rootMetaExtra64⟩
    else some ⟨⟨none, none⟩, extrasize64, rootMetaExtra64⟩
  else none

/-- `leaf::make`; the first component is the size passed to `pool_allocate`. -/
def make (leafSize width ksufsize : ℕ) : Option (ℕ × LeafArea) :=
  let sz := iceil (leafSize + min ksufsize 128) 64
  (construct leafSize width sz sz).map fun a => (sz, a)

/-- `leaf::make_root_with_meta`. -/
def makeRootWithMeta (leafSize width ksufsize : ℕ) : Option (ℕ × LeafArea) :=
  let internalSz := iceil (leafSize + min ksufsize 128) 64
  let totalSz := iceil (internalSz + sizeofDirectoryMeta) 64
  (construct leafSize width internalSz totalSz).map fun a => (totalSz, a)

/-- `allocated_size`. -/
def allocatedSize (leafSize : ℕ) (a : LeafArea) : ℕ :=
  let es := if 0 ≤ a.extrasize64 then a.extrasize64 else -a.extrasize64 - 1
  let es := es + a.rootMetaExtra64
  (leafSize + (es * 64).toNat + 63) / 64 * 64

/-- `leaf::clone_root_with_meta`, before it copies the slots of `src`. -/
def cloneRootWithMeta (leafSize width : ℕ) (src : LeafArea) : Option (ℕ × LeafArea) :=
  let internalSz := src.allocatedSize leafSize - (src.rootMetaExtra64 * 64).toNat
  let totalSz := iceil (internalSz + sizeofDirectoryMeta) 64
  (construct leafSize width internalSz totalSz).map fun a => (totalSz, a)

/-- `has_directory_meta`. -/
def hasDirectoryMeta (a : LeafArea) : Bool := 0 < a.rootMetaExtra64

/-- `directory_meta`: its offset from the leaf. -/
def directoryMeta (leafSize : ℕ) (a : LeafArea) : Option ℕ :=
  if a.hasDirectoryMeta then some (a.allocatedSize leafSize - sizeofDirectoryMeta) else none

/-- The first test of `assign_ksuf`: the suffix fits into the bag in use. -/
def assignInPlace (a : LeafArea) (p : ℕ) (s : Bytes) : Option LeafArea :=
  match a.ksuf.bind fun b => b.assign p s with
  | some b => some { a with ksuf := some b }
  | none =>
      if 0 < a.extrasize64 then
        (a.iksuf.bind fun b => b.assign p s).map fun b => { a with iksuf := some b }
      else none

/-- `assign_ksuf`, with the assertions that the suffixes fit into the new bag. -/
def assignKsuf (width : ℕ) (a : LeafArea) (active : List ℕ) (hasKsuf : ℕ → Bool)
    (p : ℕ) (s : Bytes) :
    Option LeafArea :=
  match a.assignInPlace p s with
  | some a => some a
  | none =>
      (a.grow width (active.filter fun q => q != p && hasKsuf q) p s).map fun st =>
        ⟨st, if 0 ≤ a.extrasize64 then int8 (-a.extrasize64 - 1) else a.extrasize64,
          a.rootMetaExtra64⟩

end LeafArea

/-! ## Internodes -/

namespace InternodeArea

/-- The constructor of an internode: `root_meta_extra64_`. -/
def construct (internodeSize totalSz : ℕ) : Option ℤ :=
  if totalSz % 64 = 0 ∧ totalSz / 64 < 128 then
    some (int8 ((totalSz / 64 : ℕ) - ((internodeSize + 63) / 64 : ℕ)))
  else none

/-- `internode::make`. -/
def make (internodeSize : ℕ) : Option (ℕ × ℤ) :=
  let sz := (internodeSize + 63) / 64 * 64
  (construct internodeSize sz).map fun e => (sz, e)

/-- `internode::make_root_with_meta`. -/
def makeRootWithMeta (internodeSize : ℕ) : Option (ℕ × ℤ) :=
  let totalSz := iceil ((internodeSize + 63) / 64 * 64 + sizeofDirectoryMeta) 64
  (construct internodeSize totalSz).map fun e => (totalSz, e)

/-- `internode::clone_root_with_meta`, before it copies the children of `src`. -/
def cloneRootWithMeta (internodeSize : ℕ) (_src : ℤ) : Option (ℕ × ℤ) :=
  makeRootWithMeta internodeSize

/-- `allocated_size`. -/
def allocatedSize (internodeSize : ℕ) (rootMetaExtra64 : ℤ) : ℕ :=
  let es := if 0 ≤ rootMetaExtra64 then rootMetaExtra64 else -rootMetaExtra64 - 1
  (internodeSize + (es * 64).toNat + 63) / 64 * 64

/-- `has_directory_meta`. -/
def hasDirectoryMeta (rootMetaExtra64 : ℤ) : Bool := 0 < rootMetaExtra64

/-- `directory_meta`. -/
def directoryMeta (internodeSize : ℕ) (rootMetaExtra64 : ℤ) : Option ℕ :=
  if hasDirectoryMeta rootMetaExtra64 then
    some (allocatedSize internodeSize rootMetaExtra64 - sizeofDirectoryMeta)
  else none

end InternodeArea

/-! ## The sizes of a leaf -/

lemma sizeofDirectoryMeta_eq : sizeofDirectoryMeta = 88 := by decide

/-- The sizes after adding a `directory_meta`. -/
lemma iceil_meta {x : ℕ} (hx : x % 64 = 0) : iceil (x + sizeofDirectoryMeta) 64 = x + 128 := by
  rw [sizeofDirectoryMeta_eq, iceil]
  split_ifs <;> omega

namespace LeafArea

/-- A leaf made by one of the functions, at any later time; `size` was passed to `pool_allocate`. -/
inductive Made (leafSize width : ℕ) : ℕ → Bool → LeafArea → Prop
  | make {size : ℕ} {a : LeafArea} (ksufsize : ℕ) (h : make leafSize width ksufsize =
      some (size, a)) :
      Made leafSize width size false a
  | makeRootWithMeta {size : ℕ} {a : LeafArea} (ksufsize : ℕ)
      (h : makeRootWithMeta leafSize width ksufsize = some (size, a)) :
      Made leafSize width size true a
  | cloneRootWithMeta {size₀ size : ℕ} {m : Bool} {src a : LeafArea}
      (hs : Made leafSize width size₀ m src) (h : cloneRootWithMeta leafSize width src =
        some (size, a)) : Made leafSize width size true a
  | assignKsuf {size : ℕ} {m : Bool} {a a' : LeafArea} (hs : Made leafSize width size m a)
      (active : List ℕ) (hasKsuf : ℕ → Bool) (p : ℕ) (s : Bytes)
      (h : a.assignKsuf width active hasKsuf p s = some a') : Made leafSize width size m a'

/-- The fields say what they are meant to: the leaf and its internal bag have `internalSz` bytes. -/
structure Sized (leafSize internalSz size : ℕ) (m : Bool) (a : LeafArea) : Prop where
  aligned : internalSz % 64 = 0
  body : leafSize ≤ internalSz ∧ internalSz < leafSize + 192
  size : size = internalSz + (if m then 128 else 0) ∧ size / 64 < 128
  extrasize : a.extrasize64 = (internalSz / 64 : ℕ) - ((leafSize + 63) / 64 : ℕ) ∨
    a.extrasize64 = -((internalSz / 64 : ℕ) - ((leafSize + 63) / 64 : ℕ)) - 1
  rootMeta : a.rootMetaExtra64 = if m then 2 else 0
  bag : ∀ b ∈ a.iksuf, leafSize + b.capacity = internalSz

variable {leafSize width internalSz totalSz size : ℕ} {m : Bool} {a a' : LeafArea}

lemma construct_sized (hi : internalSz % 64 = 0)
    (hb : leafSize ≤ internalSz ∧ internalSz < leafSize + 192)
    (ht : totalSz = internalSz + if m then 128 else 0)
    (h : construct leafSize width internalSz totalSz = some a) :
    Sized leafSize internalSz totalSz m a := by
  have he : int8 ((internalSz / 64 : ℕ) - ((leafSize + 63) / 64 : ℕ))
      = (internalSz / 64 : ℕ) - ((leafSize + 63) / 64 : ℕ) := int8_eq (by omega) (by omega)
  have hr : int8 ((totalSz / 64 : ℕ) - (internalSz / 64 : ℕ)) = if m then 2 else 0 := by
    rw [int8_eq (by split_ifs at ht <;> omega) (by split_ifs at ht <;> omega)]
    split_ifs at ht ⊢ <;> omega
  simp only [construct, he, hr] at h
  by_cases h1 : internalSz % 64 = 0 ∧ totalSz % 64 = 0 ∧ internalSz ≤ totalSz ∧ totalSz / 64 < 128
  swap
  · rw [if_neg h1] at h
    cases h
  rw [if_pos h1] at h
  by_cases h2 : (0 : ℤ) < (internalSz / 64 : ℕ) - ((leafSize + 63) / 64 : ℕ)
  · rw [if_pos h2] at h
    obtain ⟨b, hbag, rfl⟩ := Option.map_eq_some_iff.mp h
    refine ⟨hi, hb, ⟨ht, h1.2.2.2⟩, Or.inl rfl, rfl, ?_⟩
    rintro _ ⟨⟩
    rw [Stringbag.make] at hbag
    split_ifs at hbag
    cases hbag
    change leafSize + ((internalSz - leafSize - 1) % 256 ^ 1 + 1) = internalSz
    rw [Nat.mod_eq_of_lt (by omega)]
    omega
  · rw [if_neg h2] at h
    cases h
    exact ⟨hi, hb, ⟨ht, h1.2.2.2⟩, Or.inl rfl, rfl, by simp⟩

lemma Sized.allocatedSize_eq (h : Sized leafSize internalSz size m a) :
    a.allocatedSize leafSize = size := by
  have h1 := h.size.1
  have h2 := h.body
  have h3 := h.aligned
  rw [allocatedSize, h.rootMeta]
  have hes : (if 0 ≤ a.extrasize64 then a.extrasize64 else -a.extrasize64 - 1)
      = (internalSz / 64 : ℕ) - ((leafSize + 63) / 64 : ℕ) := by
    rcases h.extrasize with h0 | h0 <;> rw [h0] <;> split_ifs <;> omega
  simp only [hes]
  split_ifs at h1 ⊢ <;> omega

/-- The size that a clone takes over. -/
lemma Sized.internalSz_eq (h : Sized leafSize internalSz size m a) :
    a.allocatedSize leafSize - (a.rootMetaExtra64 * 64).toNat = internalSz := by
  rw [h.allocatedSize_eq, h.rootMeta]
  have := h.size.1
  split_ifs at this ⊢ <;> omega

lemma Sized.assignKsuf (h : Sized leafSize internalSz size m a) {active : List ℕ}
    {hasKsuf : ℕ → Bool} {p : ℕ} {s : Bytes}
    (ha : a.assignKsuf width active hasKsuf p s = some a') :
    Sized leafSize internalSz size m a' := by
  have hbody := h.body
  have haligned := h.aligned
  rw [LeafArea.assignKsuf] at ha
  cases hin : a.assignInPlace p s with
  | some a₁ =>
      obtain rfl : a₁ = a' := by simpa [hin] using ha
      rw [assignInPlace] at hin
      cases hk : a.ksuf.bind fun b => b.assign p s with
      | some b =>
          rw [hk] at hin
          cases hin
          exact ⟨h.aligned, h.body, h.size, h.extrasize, h.rootMeta, h.bag⟩
      | none =>
          simp only [hk] at hin
          split_ifs at hin
          obtain ⟨b, hb, rfl⟩ := Option.map_eq_some_iff.mp hin
          obtain ⟨b₀, hb₀, hb₁⟩ := Option.bind_eq_some_iff.mp hb
          refine ⟨h.aligned, h.body, h.size, h.extrasize, h.rootMeta, ?_⟩
          rintro _ ⟨⟩
          rw [Stringbag.capacity_assign hb₁]
          exact h.bag b₀ hb₀
  | none =>
      simp only [hin] at ha
      obtain ⟨st, hst, rfl⟩ := Option.map_eq_some_iff.mp ha
      refine ⟨h.aligned, h.body, h.size, ?_, h.rootMeta, ?_⟩
      · -- the sign says that the internal bag is dead
        split_ifs with h0
        · rcases h.extrasize with h1 | h1
          · exact Or.inr (by rw [int8_eq (by omega) (by omega), h1])
          · omega
        · exact h.extrasize
      · rw [(SuffixStore.grow_iksuf hst).1]
        exact h.bag

/-- **The fields of every leaf** say what they are meant to. -/
lemma Made.sized (h : Made leafSize width size m a) :
    ∃ internalSz, Sized leafSize internalSz size m a := by
  induction h with
  | make ksufsize h =>
      obtain ⟨a, h, h'⟩ := Option.map_eq_some_iff.mp h
      cases h'
      obtain ⟨h1, h2, h3⟩ := SuffixStore.iceil_spec (leafSize + min ksufsize 128)
      exact ⟨_, construct_sized h3 (by omega) (by simp) h⟩
  | makeRootWithMeta ksufsize h =>
      obtain ⟨a, h, h'⟩ := Option.map_eq_some_iff.mp h
      cases h'
      obtain ⟨h1, h2, h3⟩ := SuffixStore.iceil_spec (leafSize + min ksufsize 128)
      exact ⟨_, construct_sized h3 (by omega) (by rw [iceil_meta h3]; simp) h⟩
  | cloneRootWithMeta hs h ih =>
      obtain ⟨i, hi⟩ := ih
      obtain ⟨a, h, h'⟩ := Option.map_eq_some_iff.mp h
      cases h'
      rw [hi.internalSz_eq] at h ⊢
      exact ⟨_, construct_sized hi.aligned hi.body (by rw [iceil_meta hi.aligned]; simp) h⟩
  | assignKsuf hs active hasKsuf p s h ih =>
      obtain ⟨i, hi⟩ := ih
      exact ⟨i, hi.assignKsuf h⟩

/-- The constructor's preconditions hold, and its bag is admitted. -/
lemma exists_construct (hw : width ≤ 15) (hi : internalSz % 64 = 0)
    (hb : leafSize ≤ internalSz ∧ internalSz < leafSize + 192) (ht : totalSz % 64 = 0)
    (hle : internalSz ≤ totalSz) (hlt : totalSz / 64 < 128) :
    (construct leafSize width internalSz totalSz).isSome := by
  have he : int8 ((internalSz / 64 : ℕ) - ((leafSize + 63) / 64 : ℕ))
      = (internalSz / 64 : ℕ) - ((leafSize + 63) / 64 : ℕ) := int8_eq (by omega) (by omega)
  simp only [construct, he]
  rw [if_pos ⟨hi, ht, hle, hlt⟩]
  by_cases h2 : (0 : ℤ) < (internalSz / 64 : ℕ) - ((leafSize + 63) / 64 : ℕ)
  · have hover : Stringbag.overhead 1 width ≤ 32 := by
      simp only [Stringbag.overhead]
      omega
    rw [if_pos h2, Option.isSome_map, Stringbag.make, if_pos ⟨by omega, by omega⟩]
    rfl
  · rw [if_neg h2]
    rfl

end LeafArea

/-! ## Where the metadata is -/

/-- An internode made by one of the functions. -/
inductive InternodeArea.Made (internodeSize : ℕ) : ℕ → Bool → ℤ → Prop
  | make {size : ℕ} {e : ℤ} (h : make internodeSize = some (size, e)) :
      Made internodeSize size false e
  | makeRootWithMeta {size : ℕ} {e : ℤ} (h : makeRootWithMeta internodeSize = some (size, e)) :
      Made internodeSize size true e
  | cloneRootWithMeta {size₀ size : ℕ} {m : Bool} {src e : ℤ} (hs : Made internodeSize size₀ m src)
      (h : cloneRootWithMeta internodeSize src = some (size, e)) : Made internodeSize size true e

lemma InternodeArea.Made.sized {internodeSize size : ℕ} {m : Bool} {e : ℤ}
    (h : Made internodeSize size m e) : (e = if m then 2 else 0) ∧ size / 64 < 128 ∧
      size = (internodeSize + 63) / 64 * 64 + if m then 128 else 0 := by
  have hmeta : ∀ {size : ℕ} {e : ℤ}, InternodeArea.makeRootWithMeta internodeSize = some (size, e) →
    e = 2 ∧
      size / 64 < 128 ∧ size = (internodeSize + 63) / 64 * 64 + 128 := by
    intro size e h
    rw [InternodeArea.makeRootWithMeta, iceil_meta (by omega)] at h
    obtain ⟨a, h, h'⟩ := Option.map_eq_some_iff.mp h
    cases h'
    rw [construct] at h
    split_ifs at h with h0
    cases h
    exact ⟨by rw [int8_eq (by omega) (by omega)]; omega, h0.2, rfl⟩
  cases h with
  | make h =>
      obtain ⟨a, h, h'⟩ := Option.map_eq_some_iff.mp h
      cases h'
      rw [construct] at h
      split_ifs at h with h0
      cases h
      exact ⟨by rw [int8_eq (by omega) (by omega)]; simp, h0.2, rfl⟩
  | makeRootWithMeta h => exact hmeta h
  | cloneRootWithMeta hs h => exact hmeta h

/-- **The memory of a node.**  At any time `allocated_size` is what was allocated, a
`directory_meta` lies behind the leaf and its internal bag and ends with the allocation, exactly the
functions for roots of directories make one, and the signed bytes hold the numbers of cache lines
they stand for.  The functions succeed if the sizes are below 128 cache lines. -/
theorem node_allocations (leafSize internodeSize width : ℕ) :
    (∀ size m a, LeafArea.Made leafSize width size m a →
      a.allocatedSize leafSize = size ∧ a.hasDirectoryMeta = m ∧
      (a.directoryMeta leafSize).isSome = m ∧ (∀ off, a.directoryMeta leafSize = some off →
        leafSize ≤ off ∧ off + sizeofDirectoryMeta = size ∧
        ∀ b ∈ a.iksuf, leafSize + b.capacity ≤ off) ∧
      ∃ es ms : ℕ, es < 128 ∧ ms < 128 ∧ (a.extrasize64 = es ∨ a.extrasize64 = -es - 1) ∧
        a.rootMetaExtra64 = ms ∧ ((leafSize + 63) / 64 + es + ms) * 64 = size) ∧
    (∀ size m e, InternodeArea.Made internodeSize size m e →
      InternodeArea.allocatedSize internodeSize e = size ∧ InternodeArea.hasDirectoryMeta e = m ∧
      (InternodeArea.directoryMeta internodeSize e).isSome = m ∧
      (∀ off, InternodeArea.directoryMeta internodeSize e = some off →
        internodeSize ≤ off ∧ off + sizeofDirectoryMeta = size) ∧
      ∃ ms : ℕ, ms < 128 ∧ e = ms ∧ ((internodeSize + 63) / 64 + ms) * 64 = size) ∧
    (width ≤ 15 → (leafSize + 63) / 64 + 4 < 128 → (∀ ksufsize,
      (LeafArea.make leafSize width ksufsize).isSome ∧
      (LeafArea.makeRootWithMeta leafSize width ksufsize).isSome) ∧
      ∀ size m src, LeafArea.Made leafSize width size m src →
        (LeafArea.cloneRootWithMeta leafSize width src).isSome) ∧
    ((internodeSize + 63) / 64 + 2 < 128 → (InternodeArea.make internodeSize).isSome ∧
      (InternodeArea.makeRootWithMeta internodeSize).isSome) := by
  refine ⟨fun size m a h => ?_, fun size m e h => ?_, fun hw hlt => ⟨fun ksufsize => ?_, ?_⟩,
    fun hlt => ?_⟩
  · obtain ⟨i, hi⟩ := h.sized
    have h1 := hi.size
    have h2 := hi.body
    have h3 := hi.aligned
    have hsz := hi.allocatedSize_eq
    have hm : a.hasDirectoryMeta = m := by
      rw [LeafArea.hasDirectoryMeta, hi.rootMeta]
      cases m <;> rfl
    refine ⟨hsz, hm, ?_, fun off hoff => ?_, ?_⟩
    · rw [LeafArea.directoryMeta, hm]
      cases m <;> rfl
    · rw [LeafArea.directoryMeta, hm, hsz] at hoff
      cases m with
      | false => cases hoff
      | true =>
          cases hoff
          rw [sizeofDirectoryMeta_eq]
          simp only [if_true] at h1
          refine ⟨by omega, by omega, fun b hb => ?_⟩
          have := hi.bag b hb
          omega
    · refine ⟨i / 64 - (leafSize + 63) / 64, if m then 2 else 0, by omega, by split_ifs <;>
        omega, ?_, ?_, ?_⟩
      · rcases hi.extrasize with h0 | h0
        · exact Or.inl (by omega)
        · exact Or.inr (by omega)
      · rw [hi.rootMeta]
        cases m <;> rfl
      · cases m <;> simp only [if_true, Bool.false_eq_true, if_false] at h1 ⊢ <;> omega
  · obtain ⟨h1, h2, h3⟩ := h.sized
    have hsz : InternodeArea.allocatedSize internodeSize e = size := by
      rw [InternodeArea.allocatedSize, h1, h3]
      cases m <;> simp only [if_true, Bool.false_eq_true, if_false] <;> omega
    have hm : InternodeArea.hasDirectoryMeta e = m := by
      rw [InternodeArea.hasDirectoryMeta, h1]
      cases m <;> rfl
    refine ⟨hsz, hm, ?_, fun off hoff => ?_, if m then 2 else 0, by split_ifs <;> omega, ?_, ?_⟩
    · rw [InternodeArea.directoryMeta, hm]
      cases m <;> rfl
    · rw [InternodeArea.directoryMeta, hm, hsz] at hoff
      cases m with
      | false => cases hoff
      | true =>
          cases hoff
          rw [sizeofDirectoryMeta_eq]
          simp only [if_true] at h3
          omega
    · rw [h1]
      cases m <;> rfl
    · rw [h3]
      cases m <;> simp only [if_true, Bool.false_eq_true, if_false] <;> omega
  · obtain ⟨h1, h2, h3⟩ := SuffixStore.iceil_spec (leafSize + min ksufsize 128)
    rw [LeafArea.make, LeafArea.makeRootWithMeta, iceil_meta h3]
    simp only [Option.isSome_map]
    exact ⟨LeafArea.exists_construct hw h3 (by omega) h3 le_rfl (by omega),
      LeafArea.exists_construct hw h3 (by omega) (by omega) (by omega) (by omega)⟩
  · intro size m src h
    obtain ⟨i, hi⟩ := h.sized
    have hi2 := hi.body
    have hi3 := hi.aligned
    have hinternal := hi.internalSz_eq
    rw [LeafArea.cloneRootWithMeta, hinternal, iceil_meta hi.aligned]
    simp only [Option.isSome_map]
    exact LeafArea.exists_construct hw hi.aligned hi.body (by omega) (by omega) (by omega)
  · rw [InternodeArea.make, InternodeArea.makeRootWithMeta, iceil_meta (by omega)]
    simp only [Option.isSome_map, InternodeArea.construct]
    rw [if_pos (by omega), if_pos (by omega)]
    exact ⟨rfl, rfl⟩

/-- The root of a directory, with room for suffixes. -/
theorem node_allocations_directoryRoot :
    ∃ size a, LeafArea.makeRootWithMeta 408 15 64 = some (size, a) ∧
    a.allocatedSize 408 = size ∧ a.hasDirectoryMeta = true := by
  obtain ⟨h1, -, h2, -⟩ := node_allocations 408 168 15
  obtain ⟨⟨size, a⟩, h⟩ := Option.isSome_iff_exists.mp ((h2 (by decide) (by decide)).1 64).2
  obtain ⟨h3, h4, -⟩ := h1 size true a (.makeRootWithMeta 64 h)
  exact ⟨size, a, h, h3, h4⟩

end MasstreeLHM
