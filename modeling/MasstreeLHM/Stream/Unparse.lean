import Mathlib.Tactic.IntervalCases
import MasstreeLHM.Stream.Calls

/-!
# Reading back what the unparser writes

`unparser::operator<<(const Json&)`, and what the streaming parser makes of its bytes.

The unparser chooses the shortest header for an integer, a length or a count, and the parser knows
each of them: `scanHeader_writeSigned`, `scanHeader_writeUnsigned`, `scanHeader_writeString`,
`scanHeader_writeArrayHeader` and `scanHeader_writeMapHeader`, one lemma for each way of writing,
with anything behind the header.  A nonnegative integer comes back as a signed or as an unsigned
one, whatever it was, so values are compared after `canonical`.

`Storable` are the values that a `Json` of the source can hold, doubles apart.  `Passes` is a
reading that meets only items that the parser can hold.  **`passes_unparse`**, `passes_elements` and
`passes_items` are one induction over the value: its bytes put an equal value in the hole, for every
half-built value around it and every rest behind it.
-/

namespace MasstreeLHM

namespace Msgpack

/-- `write_map_header`. -/
def writeMapHeader (size : ℕ) : Bytes :=
  if size < 0x10 then storeBE 1 (0x80 + size)
  else if size < 65536 then 0xDE :: storeBE 2 size
  else 0xDF :: storeBE 4 size

end Msgpack

namespace JsonTree

open Msgpack

mutual

/-- `unparser::operator<<(const Json&)`. -/
def unparse : JsonTree → Bytes
  | .null => [0xC0]
  | .bool b => [if b then 0xC3 else 0xC2]
  | .unsigned n => writeUnsigned n
  | .int z => writeSigned z
  | .double bits => 0xCB :: storeBE 8 bits.toNat
  | .str s => writeString s
  | .array elems => writeArrayHeader elems.length ++ unparseElements elems
  | .object items => writeMapHeader items.length ++ unparseItems items

/-- The elements of an array. -/
def unparseElements : List JsonTree → Bytes
  | [] => []
  | j :: elems => unparse j ++ unparseElements elems

/-- The items of an object. -/
def unparseItems : List (Bytes × JsonTree) → Bytes
  | [] => []
  | (k, j) :: items => writeString k ++ unparse j ++ unparseItems items

end

mutual

/-- The values without doubles that a `Json` can hold: its integers have 64 bits, its strings fewer
than 2^31 - 27 bytes (`copyCapacity`), its arrays up to 2^31 - 2^14 elements (`canResize`) and its
objects up to 2^30 items (`canInsert`), and no key stands twice in an object. -/
def Storable : JsonTree → Prop
  | .null => True
  | .bool _ => True
  | .int z => -9223372036854775808 ≤ z ∧ z < 9223372036854775808
  | .unsigned n => n < 18446744073709551616
  | .double _ => False
  | .str s => s.length < 2147483621
  | .array elems => elems.length ≤ 2147467264 ∧ StorableElements elems
  | .object items => items.length ≤ 1073741824 ∧ StorableItems items

/-- The elements of an array. -/
def StorableElements : List JsonTree → Prop
  | [] => True
  | j :: elems => Storable j ∧ StorableElements elems

/-- The items of an object. -/
def StorableItems : List (Bytes × JsonTree) → Prop
  | [] => True
  | (k, j) :: items =>
      k.length < 2147483621 ∧ k ∉ items.map Prod.fst ∧ Storable j ∧ StorableItems items

end

mutual

/-- The value with one representation for each integer. -/
def canonical : JsonTree → JsonTree
  | .unsigned n => .int n
  | .array elems => .array (canonicalElements elems)
  | .object items => .object (canonicalItems items)
  | j => j

/-- The elements of an array. -/
def canonicalElements : List JsonTree → List JsonTree
  | [] => []
  | j :: elems => canonical j :: canonicalElements elems

/-- The items of an object. -/
def canonicalItems : List (Bytes × JsonTree) → List (Bytes × JsonTree)
  | [] => []
  | (k, j) :: items => (k, canonical j) :: canonicalItems items

end

end JsonTree

namespace Msgpack

open JsonTree

/-! ## Headers -/

lemma scanHeader_long {x : UInt8} {s : Bytes} (t : Bytes) (hx : shortHeader x = none)
    (hn : nbytes x = s.length + 1) (hs : s ≠ []) :
    scanHeader (x :: s ++ t) = .found (longHeader x (s ++ t)) t := by
  have hpos := List.length_pos_iff.mpr hs
  rw [List.cons_append, scanHeader, hx]
  dsimp only
  rw [if_neg (by omega), if_neg (by rw [List.length_append]; omega), hn, Nat.add_sub_cancel,
    List.drop_left]

/-- A header of a format byte and an unsigned number. -/
lemma scanHeader_unsigned {x : UInt8} {w n : ℕ} (f : ℕ → Header ℕ) (t : Bytes)
    (hx : shortHeader x = none) (hw : nbytes x = w + 1) (hw0 : w ≠ 0)
    (hf : ∀ s, longHeader x s = f (loadBE w s)) (hn : n < 256 ^ w) :
    scanHeader (x :: storeBE w n ++ t) = .found (f n) t := by
  rw [scanHeader_long t hx (by rw [hw, storeBE_length]) fun h => hw0 ?_, hf,
    loadBE_storeBE_append t hn]
  rw [← storeBE_length w n, h, List.length_nil]

lemma scanHeader_short {x : UInt8} {header : Header ℕ} (t : Bytes)
    (hx : shortHeader x = some header) : scanHeader ([x] ++ t) = .found header t := by
  rw [List.singleton_append, scanHeader, hx]

lemma toNat_ofNat {n : ℕ} (h : n < 256) : (UInt8.ofNat n).toNat = n := by
  rw [UInt8.toNat_ofNat', Nat.mod_eq_of_lt h]

lemma loadSignedBE_storeBE {w : ℕ} {z : ℤ} (t : Bytes) (hw : w ≠ 0)
    (hlo : -((256 ^ w : ℕ) : ℤ) ≤ 2 * z) (hhi : 2 * z < ((256 ^ w : ℕ) : ℤ)) :
    loadSignedBE w (storeBE w (z % (256 ^ w : ℕ)).toNat ++ t) = z := by
  obtain ⟨m, hm⟩ : ∃ m, 256 ^ w = 2 * m := by
    obtain ⟨v, rfl⟩ := Nat.exists_eq_succ_of_ne_zero hw
    exact ⟨256 ^ v * 128, by rw [Nat.pow_succ]; omega⟩
  have hpos : 0 < 256 ^ w := Nat.pow_pos (by decide)
  rw [hm] at hlo hhi hpos
  have hlow : (z % (256 ^ w : ℕ)).toNat = (if 0 ≤ z then z else z + (2 * m : ℕ)).toNat := by
    rw [hm]
    split_ifs with h0
    · rw [Int.emod_eq_of_lt h0 (by omega)]
    · rw [← Int.add_emod_right, Int.emod_eq_of_lt (by omega) (by omega)]
  have hlt : (z % (256 ^ w : ℕ)).toNat < 256 ^ w := by
    rw [hlow, hm]
    split_ifs <;> omega
  rw [loadSignedBE, loadBE_storeBE_append t hlt, hlow, hm]
  split_ifs <;> omega

lemma shortHeader_fixint {z : ℤ} (hlo : -32 ≤ z) (hhi : z < 128) :
    shortHeader (UInt8.ofNat (z % (256 ^ 1 : ℕ)).toNat) = some (.scalar (.int z)) := by
  have hval : loadSignedBE 1 [UInt8.ofNat (z % (256 ^ 1 : ℕ)).toNat] = z :=
    loadSignedBE_storeBE [] (by decide) (by omega) (by omega)
  have hnat : (UInt8.ofNat (z % (256 ^ 1 : ℕ)).toNat).toNat = (z % 256).toNat :=
    toNat_ofNat (by omega)
  have hfix : isFixint (UInt8.ofNat (z % (256 ^ 1 : ℕ)).toNat) = true := by
    simp only [isFixint, Bool.or_eq_true, decide_eq_true_eq, UInt8.lt_iff_toNat_lt,
      UInt8.le_iff_toNat_le, hnat, UInt8.reduceToNat]
    omega
  rw [shortHeader, if_pos hfix, hval]

/-- A header of a format byte and a signed number. -/
lemma scanHeader_signed {x : UInt8} {w : ℕ} {z : ℤ} (t : Bytes) (hx : shortHeader x = none)
    (hw : nbytes x = w + 1) (hw0 : w ≠ 0)
    (hf : ∀ s, longHeader x s = .scalar (.int (loadSignedBE w s)))
    (hlo : -((256 ^ w : ℕ) : ℤ) ≤ 2 * z) (hhi : 2 * z < ((256 ^ w : ℕ) : ℤ)) :
    scanHeader (x :: storeBE w (z % (256 ^ w : ℕ)).toNat ++ t) = .found (.scalar (.int z)) t := by
  rw [scanHeader_long t hx (by rw [hw, storeBE_length]) fun h => hw0 ?_, hf,
    loadSignedBE_storeBE t hw0 hlo hhi]
  rw [← storeBE_length w (z % (256 ^ w : ℕ)).toNat, h, List.length_nil]

/-- A signed integer is read back. -/
lemma scanHeader_writeSigned {z : ℤ} (t : Bytes) (hlo : -9223372036854775808 ≤ z)
    (hhi : z < 9223372036854775808) :
    scanHeader (writeSigned z ++ t) = .found (.scalar (.int z)) t := by
  rw [writeSigned]
  dsimp only
  split_ifs with h1 h2 h3 h4
  · exact scanHeader_short t (shortHeader_fixint h1.1 h1.2)
  · exact scanHeader_signed t rfl rfl (by decide) (fun _ => rfl) (by omega) (by omega)
  · exact scanHeader_signed t rfl rfl (by decide) (fun _ => rfl) (by omega) (by omega)
  · exact scanHeader_signed t rfl rfl (by decide) (fun _ => rfl) (by omega) (by omega)
  · exact scanHeader_signed t rfl rfl (by decide) (fun _ => rfl) (by omega) (by omega)

/-- An unsigned integer is read back as a signed or as an unsigned one. -/
lemma scanHeader_writeUnsigned {n : ℕ} (t : Bytes) (hn : n < 18446744073709551616) :
    ∃ j, j.canonical = .int n ∧ scanHeader (writeUnsigned n ++ t) = .found (.scalar j) t := by
  have hint : JsonTree.canonical (.int n) = .int n := rfl
  have hunsigned : JsonTree.canonical (.unsigned n) = .int n := rfl
  rw [writeUnsigned]
  split_ifs with h1 h2 h3 h4
  · refine ⟨.int n, hint, scanHeader_short t ?_⟩
    have h := shortHeader_fixint (z := n) (by omega) (by omega)
    rwa [show ((n : ℤ) % (256 ^ 1 : ℕ)).toNat = n by omega] at h
  · exact ⟨.int n, hint,
      scanHeader_unsigned (fun n => .scalar (.int n)) t rfl rfl (by decide) (fun _ => rfl) h2⟩
  · exact ⟨.int n, hint,
      scanHeader_unsigned (fun n => .scalar (.int n)) t rfl rfl (by decide) (fun _ => rfl) h3⟩
  · exact ⟨.unsigned n, hunsigned,
      scanHeader_unsigned (fun n => .scalar (.unsigned n)) t rfl rfl (by decide) (fun _ => rfl) h4⟩
  · exact ⟨.unsigned n, hunsigned,
      scanHeader_unsigned (fun n => .scalar (.unsigned n)) t rfl rfl (by decide) (fun _ => rfl) hn⟩

/-- The length of a string, the bytes behind it. -/
lemma scanHeader_writeString {s : Bytes} (t : Bytes) (hs : s.length < 4294967296) :
    scanHeader (writeString s ++ t) = .found (.raw s.length) (s ++ t) := by
  rw [writeString, List.append_assoc]
  split_ifs with h1 h2 h3
  · refine scanHeader_short _ ?_
    generalize s.length = n at h1
    interval_cases n <;> rfl
  · exact scanHeader_unsigned .raw _ rfl rfl (by decide) (fun _ => rfl) h2
  · exact scanHeader_unsigned .raw _ rfl rfl (by decide) (fun _ => rfl) h3
  · exact scanHeader_unsigned .raw _ rfl rfl (by decide) (fun _ => rfl) hs

lemma scanHeader_writeArrayHeader {n : ℕ} (t : Bytes) (hn : n < 4294967296) :
    scanHeader (writeArrayHeader n ++ t) = .found (.array n) t := by
  rw [writeArrayHeader]
  split_ifs with h1 h2
  · refine scanHeader_short _ ?_
    interval_cases n <;> rfl
  · exact scanHeader_unsigned .array _ rfl rfl (by decide) (fun _ => rfl) h2
  · exact scanHeader_unsigned .array _ rfl rfl (by decide) (fun _ => rfl) hn

lemma scanHeader_writeMapHeader {n : ℕ} (t : Bytes) (hn : n < 4294967296) :
    scanHeader (writeMapHeader n ++ t) = .found (.map n) t := by
  rw [writeMapHeader]
  split_ifs with h1 h2
  · refine scanHeader_short _ ?_
    interval_cases n <;> rfl
  · exact scanHeader_unsigned .map _ rfl rfl (by decide) (fun _ => rfl) h2
  · exact scanHeader_unsigned .map _ rfl rfl (by decide) (fun _ => rfl) hn

/-! ## Values -/

/-- From `s` the parser gets to `s'`, and it can hold all items on the way. -/
def Passes (b : Building) (s : Bytes) (b' : Building) (s' : Bytes) : Prop :=
  Reads b s b' s' ∧ (LengthsFit b' s' → LengthsFit b s)

lemma Passes.refl (b : Building) (s : Bytes) : Passes b s b s := ⟨.refl b s, id⟩

lemma Passes.trans {b₁ b₂ b₃ : Building} {s₁ s₂ s₃ : Bytes} (h₁ : Passes b₁ s₁ b₂ s₂)
    (h₂ : Passes b₂ s₂ b₃ s₃) : Passes b₁ s₁ b₃ s₃ :=
  ⟨h₁.1.trans h₂.1, h₁.2 ∘ h₂.2⟩

lemma Passes.of_item {b : Building} {s s' rest : Bytes} {header : Header ℕ} {i : Item}
    (hb : b.done = false) (hs : scanHeader s = .found header s')
    (hbody : scanBody header s' = .found i rest) (hfit : ItemFits b s) :
    Passes b s (b.accept i) rest := by
  have hscan := scan_of_header hs hbody
  exact ⟨.item hb hscan (.refl _ _), .of_item hscan hfit⟩

lemma Passes.scalar {old j : JsonTree} {frames : List JsonFrame} {s t : Bytes}
    (hs : scanHeader s = .found (.scalar j) t) :
    Passes (.value old frames) s (Building.rise j frames) t :=
  .of_item rfl hs rfl (.of_header hs (fun _ hn => by cases hn) fun _ _ hi => by cases hi; rfl)

lemma Passes.string {b : Building} {s : Bytes} (t : Bytes) (hb : b.done = false)
    (hs : s.length < 2147483621) (hroom : b.hasRoom (.scalar (.str s)) = true) :
    Passes b (writeString s ++ t) (b.accept (.scalar (.str s))) t := by
  have hheader := scanHeader_writeString (s := s) t (by omega)
  have hbody : scanBody (.raw s.length) (s ++ t) = .found (.scalar (.str s)) t := by
    rw [scanBody, if_neg (by rw [List.length_append]; omega), List.take_left, List.drop_left]
  refine .of_item hb hheader hbody (.of_header hheader (fun n hn => ?_) fun i rest hi => ?_)
  · cases hn
    exact hs
  · rw [hbody] at hi
    cases hi
    exact hroom

namespace Building

/-- An array with the elements `before`: those in `after` are to be replaced. -/
def elements (before after : List JsonTree) (frames : List JsonFrame) : Building :=
  match after with
  | [] => rise (.array before) frames
  | e :: after => .value e (.element before after :: frames)

/-- An object with `items`: `left` more are to come. -/
def members (items : List (Bytes × JsonTree)) (left : ℕ) (frames : List JsonFrame) : Building :=
  match left with
  | 0 => rise (.object items) frames
  | left + 1 => .key items left frames

lemma accept_array (old : JsonTree) (n : ℕ) (frames : List JsonFrame) :
    accept (.value old frames) (.array n) = elements [] (resize old.elements n) frames := rfl

lemma accept_map (old : JsonTree) (n : ℕ) (frames : List JsonFrame) :
    accept (.value old frames) (.map n) = members [] n frames := by
  cases n <;> rfl

lemma rise_element (j : JsonTree) (before after : List JsonTree) (frames : List JsonFrame) :
    rise j (.element before after :: frames) = elements (before ++ [j]) after frames := by
  cases after <;> rfl

lemma rise_member (j : JsonTree) (items : List (Bytes × JsonTree)) (k : Bytes) (left : ℕ)
    (frames : List JsonFrame) :
    rise j (.member items k [] left :: frames) = members (items ++ [(k, j)]) left frames := by
  cases left <;> rfl

/-- A new key. -/
lemma accept_key {items : List (Bytes × JsonTree)} {k : Bytes} (left : ℕ) (frames : List JsonFrame)
    (hk : k ∉ items.map Prod.fst) :
    accept (.key items left frames) (.scalar (.str k))
      = .value .null (.member items k [] left :: frames) := by
  have hfind : items.findIdx? (fun item => item.1 == k) = none := by
    rw [List.findIdx?_eq_none_iff]
    intro item hitem
    simp only [beq_eq_false_iff_ne, ne_eq]
    rintro rfl
    exact hk (List.mem_map_of_mem hitem)
  have hinsert : getInsert items k = (items ++ [(k, .null)], items.length) := by
    rw [getInsert, hfind]
  rw [accept, keyString]
  simp only [insert, hinsert, List.getElem?_concat_length, List.take_left]
  rw [List.drop_eq_nil_of_le (by simp)]

end Building

mutual

/-- The bytes of a value put an equal value in the hole. -/
theorem passes_unparse : ∀ (j : JsonTree), j.Storable → ∀ (old : JsonTree) (frames : List JsonFrame)
    (t : Bytes), ∃ j', j'.canonical = j.canonical ∧
      Passes (.value old frames) (j.unparse ++ t) (Building.rise j' frames) t
  | .null, _, old, frames, t => ⟨.null, rfl, .scalar (j := .null) rfl⟩
  | .bool b, _, old, frames, t => ⟨.bool b, rfl, .scalar (j := .bool b) (by cases b <;> rfl)⟩
  | .int z, hj, old, frames, t =>
      ⟨.int z, rfl, .scalar (j := .int z) (scanHeader_writeSigned t hj.1 hj.2)⟩
  | .unsigned n, hj, old, frames, t => by
      obtain ⟨j', hj', hs⟩ := scanHeader_writeUnsigned t hj
      exact ⟨j', hj', .scalar hs⟩
  | .double _, hj, _, _, _ => hj.elim
  | .str s, hj, old, frames, t => ⟨.str s, rfl, .string t rfl hj rfl⟩
  | .array elems, hj, old, frames, t => by
      obtain ⟨elems', helems, hpass⟩ := passes_elements elems hj.2 []
        (resize old.elements elems.length) frames t (resize_length _ _)
      refine ⟨.array elems', by rw [canonical, canonical, helems], ?_⟩
      have hn := hj.1
      have hheader := scanHeader_writeArrayHeader (n := elems.length) (unparseElements elems ++ t)
        (by omega)
      rw [unparse, List.append_assoc]
      refine Passes.trans (.of_item rfl hheader rfl (.of_header hheader ?_ fun i rest hi => ?_)) ?_
      · rintro n ⟨⟩
        omega
      · cases hi
        exact old.canResize_of_le (by omega)
      · rw [Building.accept_array]
        exact hpass
  | .object items, hj, old, frames, t => by
      obtain ⟨items', hitems, hpass⟩ := passes_items items hj.2 [] frames t (by simp)
        (by simpa using hj.1)
      refine ⟨.object items', by rw [canonical, canonical, hitems], ?_⟩
      have hn := hj.1
      have hheader :=
        scanHeader_writeMapHeader (n := items.length) (unparseItems items ++ t) (by omega)
      rw [unparse, List.append_assoc]
      refine Passes.trans (.of_item rfl hheader rfl (.of_header hheader ?_ fun i rest hi => ?_)) ?_
      · rintro n ⟨⟩
        omega
      · cases hi
        rfl
      · rw [Building.accept_map]
        exact hpass

/-- The elements of an array. -/
theorem passes_elements : ∀ (elems : List JsonTree), StorableElements elems →
    ∀ (before after : List JsonTree) (frames : List JsonFrame) (t : Bytes),
      after.length = elems.length → ∃ elems', canonicalElements elems' = canonicalElements elems ∧
        Passes (Building.elements before after frames) (unparseElements elems ++ t)
          (Building.rise (.array (before ++ elems')) frames) t
  | [], _, before, after, frames, t, hlen => by
      obtain rfl := List.length_eq_zero_iff.mp hlen
      refine ⟨[], rfl, ?_⟩
      rw [List.append_nil]
      exact .refl _ _
  | j :: elems, hj, before, after, frames, t, hlen => by
      cases after with
      | nil => cases hlen
      | cons e after =>
          obtain ⟨j', hj', hpass⟩ := passes_unparse j hj.1 e (.element before after :: frames)
            (unparseElements elems ++ t)
          obtain ⟨elems', helems, hpass'⟩ :=
            passes_elements elems hj.2 (before ++ [j']) after frames t
            (Nat.succ.inj hlen)
          refine ⟨j' :: elems', by rw [canonicalElements, canonicalElements, hj', helems], ?_⟩
          rw [unparseElements, List.append_assoc]
          rw [Building.rise_element] at hpass
          rw [List.append_assoc] at hpass'
          exact hpass.trans hpass'

/-- The items of an object. -/
theorem passes_items : ∀ (items : List (Bytes × JsonTree)), StorableItems items →
    ∀ (before : List (Bytes × JsonTree)) (frames : List JsonFrame) (t : Bytes),
      (∀ k ∈ items.map Prod.fst, k ∉ before.map Prod.fst) →
      before.length + items.length ≤ 1073741824 →
      ∃ items', canonicalItems items' = canonicalItems items ∧
        Passes (Building.members before items.length frames) (unparseItems items ++ t)
          (Building.rise (.object (before ++ items')) frames) t
  | [], _, before, frames, t, _, _ => by
      refine ⟨[], rfl, ?_⟩
      rw [List.append_nil]
      exact .refl _ _
  | (k, j) :: items, hj, before, frames, t, hnew, hlen => by
      obtain ⟨hk, hfresh, hj, hitems⟩ := hj
      rw [List.length_cons] at hlen
      obtain ⟨j', hj', hpass⟩ := passes_unparse j hj .null
        (.member before k [] items.length :: frames) (unparseItems items ++ t)
      obtain ⟨items', hitems', hpass'⟩ :=
        passes_items items hitems (before ++ [(k, j')]) frames t (by
        intro k' hk'
        have hne : k' ≠ k := fun h => hfresh (h ▸ hk')
        simp [hnew k' (List.mem_cons_of_mem _ hk'), hne])
        (by rw [List.length_append, List.length_singleton]; omega)
      refine ⟨(k, j') :: items', by rw [canonicalItems, canonicalItems, hj', hitems'], ?_⟩
      rw [unparseItems, List.append_assoc, List.append_assoc]
      have hkey := Passes.string (b := .key before items.length frames)
        (unparse j ++ (unparseItems items ++ t)) rfl hk (canInsert_of_lt (by omega) hk)
      rw [Building.accept_key _ _ (hnew k List.mem_cons_self)] at hkey
      rw [Building.rise_member] at hpass
      rw [List.append_assoc] at hpass'
      exact hkey.trans (hpass.trans hpass')

end

end Msgpack

end MasstreeLHM
