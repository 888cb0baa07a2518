import MasstreeLHM.Keys.Order
import MasstreeLHM.Layer
import MasstreeLHM.Suffixes.Store

/-!
# The slots of a table of byte strings

What a leaf keeps of a key besides its slice, how a cursor compares its key with a slot, and what it
writes into a new one.  The slots of a leaf are ordered by slice and then by the length of the key
within the slice; suffixes and layers come last, and a slice has at most one of them.

`keylenx_` is one number for three cases: a length up to 8, a suffix, or a layer.  `rank` maps it to
the length within the slice, with 9 for what is longer, and `keyLt` is the order of the slots.
`compareKey_pos` and `compareKey_neg` say that the comparison of the source is that order;
`compareEdge`, which the namespace uses, differs in what it calls equal.

An `Insertion` is a search that asks for a new slot, of either kind of table.  `compare_pos` and
`compare_neg` say on which side of the new slot the others are.  **`exists_other_ikey`** bounds the
slots of one slice: a leaf is never filled by a single one, so it can always be split.
-/

namespace MasstreeLHM.KeyTable

variable {V : Type}

/-- `leafvalue<P>`: a value, or the root of a layer. -/
inductive LeafValue (V : Type) where
  | value (v : V)
  | layer (n : Ptr)
deriving DecidableEq

/-- `make_empty`. -/
instance [Inhabited V] : Inhabited (LeafValue V) := ⟨.value default⟩

/-- `keylenx_[p]`, the suffix that belongs to it, and `lv_[p]`.  The bytes of the suffix are in the
string bag of the leaf. -/
structure Cell (V : Type) where
  keylenx : ℕ
  ksuf : Bytes
  lv : LeafValue V
deriving DecidableEq

instance [Inhabited V] : Inhabited (Cell V) := ⟨⟨0, [], default⟩⟩

/-- `ksuf_keylenx`. -/
def ksufKeylenx : ℕ := 64

/-- `layer_keylenx`. -/
def layerKeylenx : ℕ := 128

/-- `is_layer`. -/
def isLayer (s : Slot (Cell V)) : Bool := 127 < s.body.keylenx

/-- `has_ksuf`. -/
def hasKsuf (s : Slot (Cell V)) : Bool := s.body.keylenx = ksufKeylenx

/-- The key with the remaining bytes `k`. -/
def keyOf (k : Bytes) : Key := ⟨slice k, k.length, 0, 0⟩

/-- `leaf::compare_key`. -/
def compareKey (k : Bytes) (s : Slot (Cell V)) : ℤ := (keyOf k).compareIkey s.ikey s.body.keylenx

/-- `edge_comparator`. -/
def compareEdge (k : Bytes) (s : Slot (Cell V)) : ℤ :=
  let cmp := compareInts (keyOf k).ikey0 s.ikey
  if cmp ≠ 0 then cmp
  else if isLayer s then 0
  else compareKey k s

/-- `assign`, and `assign_initialize` from a key. -/
def assigned [Inhabited V] (k : Bytes) : Slot (Cell V) :=
  ⟨slice k, if (keyOf k).hasSuffix then ⟨ksufKeylenx, k.drop 8, default⟩ else
    ⟨k.length, [], default⟩⟩

/-- The tables of the repository: arbitrary keys, with leaves of 15 slots, and keys of one slice
with layers that are made on purpose, with leaves of 7 slots. -/
inductive Kind where
  | strings
  | slices

namespace Kind

/-- `leaf_width`. -/
def leafWidth : Kind → ℕ
  | strings => 15
  | slices => 7

/-- The keys a cursor may have in a layer. -/
def IsKey : Kind → Bytes → Prop
  | strings, k => k.length ≤ 1024
  | slices, k => k.length = 8

lemma leafWidth_le (kind : Kind) : kind.leafWidth ≤ 15 := by cases kind <;> decide

/-- What `keylenx_` may be. -/
def Keylenx : Kind → ℕ → Prop
  | strings, x => x ≤ 8 ∨ x = ksufKeylenx ∨ x = layerKeylenx
  | slices, x => x = 8 ∨ x = layerKeylenx

end Kind

/-- A search that asks for a new slot: `find_insert` with a value to be stored, or `create_layer`
and `attach_existing_layer` with the root of the layer. -/
inductive Insertion (V : Type) where
  | key (k : Bytes) (v : V)
  | edge (k : Bytes) (n : Ptr)

namespace Insertion

/-- The key of the cursor. -/
def bytes : Insertion V → Bytes
  | key k _ => k
  | edge k _ => k

/-- The comparison of the search. -/
def compare : Insertion V → Slot (Cell V) → ℤ
  | key k _ => compareKey k
  | edge k _ => compareEdge k

/-- The slot when it becomes live. -/
def slot [Inhabited V] : Insertion V → Slot (Cell V)
  | key k v => ⟨slice k, { (assigned k : Slot (Cell V)).body with lv := .value v }⟩
  | edge k n => ⟨slice k, ⟨layerKeylenx, [], .layer n⟩⟩

/-- The insertions a table knows. -/
def Ok (kind : Kind) : Insertion V → Prop
  | key k _ => kind.IsKey k
  | edge k _ => kind = .slices ∧ kind.IsKey k

end Insertion

/-! ## The order of the slots -/

/-- The length of the key within the slice; suffixes and layers are longer than any. -/
def rank (s : Slot (Cell V)) : ℕ := min s.body.keylenx 9

/-- By slice, then by length. -/
def keyLt (s t : Slot (Cell V)) : Prop := s.ikey < t.ikey ∨ (s.ikey = t.ikey ∧ rank s < rank t)

lemma keyLt_le (s t : Slot (Cell V)) (h : keyLt s t) : s.ikey ≤ t.ikey := by
  rcases h with h | h
  · exact h.le
  · exact h.1.le

lemma keyLt_congr {s s' t t' : Slot (Cell V)} (hs : s'.ikey = s.ikey) (hs' : rank s' = rank s)
    (ht : t'.ikey = t.ikey) (ht' : rank t' = rank t) : keyLt s' t' ↔ keyLt s t := by
  rw [keyLt, keyLt, hs, hs', ht, ht']

/-- Comparing a key with a slot is comparing slices, then ranks. -/
lemma compareKey_pos {k : Bytes} {s : Slot (Cell V)} : 0 < compareKey k s ↔
    s.ikey < slice k ∨ (s.ikey = slice k ∧ rank s < min k.length 9) := by
  simp only [compareKey, Key.compareIkey, keyOf, compareInts, rank]
  split_ifs <;> omega

lemma compareKey_neg {k : Bytes} {s : Slot (Cell V)} : compareKey k s < 0 ↔
    slice k < s.ikey ∨ (slice k = s.ikey ∧ min k.length 9 < rank s) := by
  simp only [compareKey, Key.compareIkey, keyOf, compareInts, rank]
  split_ifs <;> omega

/-- So is comparing an edge, but a layer of the same slice is what is looked for. -/
lemma compareEdge_pos {k : Bytes} {s : Slot (Cell V)} (hk : k.length = 8) : 0 < compareEdge k s ↔
    s.ikey < slice k ∨ (s.ikey = slice k ∧ rank s < 8) := by
  have h := compareKey_pos (k := k) (s := s)
  simp only [compareEdge, compareInts, keyOf, isLayer, decide_eq_true_eq]
  split_ifs <;> simp only [rank] at * <;> omega

lemma compareEdge_neg {k : Bytes} {s : Slot (Cell V)} (hk : k.length = 8)
    (hs : Kind.slices.Keylenx s.body.keylenx) : compareEdge k s < 0 ↔ slice k < s.ikey := by
  have h := compareKey_neg (k := k) (s := s)
  simp only [Kind.Keylenx, layerKeylenx] at hs
  simp only [compareEdge, compareInts, keyOf, isLayer, decide_eq_true_eq]
  split_ifs <;> simp only [rank] at * <;> omega

section

variable [Inhabited V] {k : Bytes} {s t : Slot (Cell V)} {kind : Kind} {q : Insertion V}

@[simp] lemma ikey_assigned : (assigned k : Slot (Cell V)).ikey = slice k := rfl

@[simp] lemma ikey_slot : q.slot.ikey = slice q.bytes := by cases q <;> rfl

lemma rank_assigned : rank (assigned k : Slot (Cell V)) = min k.length 9 := by
  rw [assigned]
  split_ifs with h
  · have h8 : 8 < k.length := of_decide_eq_true h
    simp only [rank, ksufKeylenx]
    omega
  · rfl

lemma rank_slot_key {v : V} : rank (Insertion.key k v).slot = min k.length 9 := rank_assigned

lemma rank_slot_edge {n : Ptr} : rank (Insertion.edge k n : Insertion V).slot = 9 := rfl

omit [Inhabited V] in
lemma Insertion.Ok.isKey (hq : q.Ok kind) : kind.IsKey q.bytes := by
  cases q with
  | key k v => exact hq
  | edge k n => exact hq.2

/-- **A search tells on which side of the new slot the others are.** -/
lemma Insertion.compare_pos (hq : q.Ok kind) : 0 < q.compare s → keyLt s q.slot := by
  cases q with
  | key k v =>
      rw [Insertion.compare, compareKey_pos, keyLt, ikey_slot, rank_slot_key]
      exact id
  | edge k n =>
      obtain ⟨rfl, hk⟩ := hq
      rw [Insertion.compare, compareEdge_pos hk, keyLt, ikey_slot, rank_slot_edge]
      simp only [Insertion.bytes]
      omega

lemma Insertion.compare_neg (hq : q.Ok kind) (hs : kind.Keylenx s.body.keylenx) :
    q.compare s < 0 → keyLt q.slot s := by
  cases q with
  | key k v =>
      rw [Insertion.compare, compareKey_neg, keyLt, ikey_slot, rank_slot_key]
      exact id
  | edge k n =>
      obtain ⟨rfl, hk⟩ := hq
      rw [Insertion.compare, compareEdge_neg hk hs, keyLt, ikey_slot, rank_slot_edge]
      simp only [Insertion.bytes]
      omega

omit [Inhabited V] in
/-- A key that compares greater than a slot does so with the slots before it. -/
lemma Insertion.compare_pos_of_lt (hq : q.Ok kind) (h : keyLt s t) :
    0 < q.compare t → 0 < q.compare s := by
  rw [keyLt] at h
  cases q with
  | key k v =>
      rw [Insertion.compare, compareKey_pos, compareKey_pos]
      omega
  | edge k n =>
      obtain ⟨rfl, hk⟩ := hq
      rw [Insertion.compare, compareEdge_pos hk, compareEdge_pos hk]
      omega

omit [Inhabited V] in
lemma Insertion.compare_neg_of_lt (hq : q.Ok kind) (hs : kind.Keylenx s.body.keylenx)
    (ht : kind.Keylenx t.body.keylenx) (h : keyLt s t) : q.compare s < 0 → q.compare t < 0 := by
  rw [keyLt] at h
  cases q with
  | key k v =>
      rw [Insertion.compare, compareKey_neg, compareKey_neg]
      omega
  | edge k n =>
      obtain ⟨rfl, hk⟩ := hq
      rw [Insertion.compare, compareEdge_neg hk hs, compareEdge_neg hk ht]
      omega

end

/-! ## How many slots a slice may have -/

/-- A list of different numbers between two bounds is short. -/
lemma length_le_of_pairwise_lt (lo hi : ℕ) {xs : List ℕ} (hs : xs.Pairwise (· < ·))
    (hx : ∀ x ∈ xs, lo ≤ x ∧ x ≤ hi) : xs.length ≤ hi + 1 - lo := by
  have hsub : xs ⊆ (List.range (hi + 1)).drop lo := by
    intro x hxm
    obtain ⟨h1, h2⟩ := hx x hxm
    rw [List.mem_iff_getElem?]
    refine ⟨x - lo, ?_⟩
    rw [List.getElem?_drop, Nat.add_sub_cancel' h1, List.getElem?_range (by omega)]
  have hnd : xs.Nodup := hs.imp (fun h => Nat.ne_of_lt h)
  have hle := (hnd.subperm hsub).length_le
  rwa [List.length_drop, List.length_range] at hle

/-- **A leaf is never filled by one slice.** -/
lemma exists_other_ikey {kind : Kind} {es : List (Slot (Cell V))} (hs : es.Pairwise keyLt)
    (hk : ∀ s ∈ es, kind.Keylenx s.body.keylenx) (hlen : kind.leafWidth ≤ es.length + 1) (x : ℕ) :
    ∃ s ∈ es, s.ikey ≠ x := by
  by_contra hall
  push Not at hall
  have hranks : (es.map rank).Pairwise (· < ·) := by
    rw [List.pairwise_map]
    refine hs.imp_of_mem fun {s t} hsm htm h => ?_
    rcases h with h | h
    · rw [hall s hsm, hall t htm] at h
      exact absurd h (lt_irrefl x)
    · exact h.2
  cases kind with
  | strings =>
      have h := length_le_of_pairwise_lt 0 9 hranks (by
        intro r hr
        obtain ⟨s, -, rfl⟩ := List.mem_map.mp hr
        exact ⟨Nat.zero_le _, min_le_right _ _⟩)
      rw [List.length_map] at h
      simp only [Kind.leafWidth] at hlen
      omega
  | slices =>
      have h := length_le_of_pairwise_lt 8 9 hranks (by
        intro r hr
        obtain ⟨s, hsm, rfl⟩ := List.mem_map.mp hr
        have := hk s hsm
        simp only [Kind.Keylenx, layerKeylenx] at this
        simp only [rank]
        omega)
      rw [List.length_map] at h
      simp only [Kind.leafWidth] at hlen
      omega

end MasstreeLHM.KeyTable
