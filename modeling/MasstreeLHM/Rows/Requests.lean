import MasstreeLHM.Rows.Arrays

/-!
# Rows of requests

What `onego` makes of a `Cmd_Put` or a `Cmd_Replace`: `apply_put` and `apply_replace` of `kvrow.hh`
on top of `value_bag`.  Nothing between the client and `value_bag` looks at the order of the columns
or at the lengths of the values.

`RowRequest.Sound` is what a client expects: the row is made inside its block, no number is cut off,
and every column of the request is read back.  `RowRequest.Harmless` is the condition on the request
and the old row: increasing columns, and a new row that 16-bit offsets can reach.

One direction is `put_sound`, by the layout of the new row.  The other needs to know what the second
loop does on changes that are not increasing.  To get back to an earlier column it would have to
mark columns as empty past the last `unsigned`, which takes a block of 2^33 bytes
(`markEmpty_wraps`), so in a block of ordinary size **it never goes back** (`fillTo_forward`), and a
run that comes out tells that the changes were increasing (`fill_forward`).  Empty columns are left
out of this direction, since going back over them does no harm.  **`sound_of_harmless`** has both.
-/

namespace MasstreeLHM

/-! ## What a run of the second loop leaves alone -/

/-- `w'` is a later stage of the row that `w` is a stage of. -/
structure Draft.After (w w' : Draft) : Prop where
  length : w'.d.length = w.d.length
  header : w'.d.take 2 = w.d.take 2
  wrapped : w'.wrapped = false → w.wrapped = false

namespace Draft

lemma After.refl (w : Draft) : w.After w := ⟨rfl, rfl, id⟩

lemma After.trans {w w' w'' : Draft} (h : w.After w') (h' : w'.After w'') : w.After w'' :=
  ⟨h'.length.trans h.length, h'.header.trans h.header, fun hw => h.wrapped (h'.wrapped hw)⟩

lemma poke_header {d d' bs : Bytes} {p : ℕ} (h : poke d p bs = some d') (hp : 2 ≤ p) :
    d'.take 2 = d.take 2 := by
  rw [poke] at h
  split_ifs at h with hlen
  cases h
  have htake : (d.take p).length = p := by
    rw [List.length_take]
    omega
  rw [List.append_assoc, List.take_append_of_le_length (by omega), List.take_take, min_eq_left hp]

lemma storePos_after {w w' : Draft} {i : ℕ} {x : ℤ} (h : w.storePos i x = some w') :
    w.After w' := by
  obtain ⟨d, hd, rfl⟩ := Option.map_eq_some_iff.mp h
  exact ⟨poke_length hd, poke_header hd (by omega), fun hw => (Bool.or_eq_false_iff.mp hw).1⟩

lemma storeOffset_lt {w w' : Draft} {p x : ℕ} (h : w.storeOffset p x = some w')
    (hw : w'.wrapped = false) : x < 2 ^ 16 := by
  obtain ⟨d, -, rfl⟩ := Option.map_eq_some_iff.mp h
  have := (Bool.or_eq_false_iff.mp hw).2
  rw [Bool.not_eq_false', decide_eq_true_eq] at this
  omega

lemma storePos_lt {w w' : Draft} {i x : ℕ} (h : w.storePos i x = some w')
    (hw : w'.wrapped = false) : x < 2 ^ 16 := storeOffset_lt h hw

/-- The offset is stored inside the block. -/
lemma storePos_inside {w w' : Draft} {i : ℕ} {x : ℤ} (h : w.storePos i x = some w') :
    2 * i + 4 ≤ w.d.length := by
  obtain ⟨d, hd, -⟩ := Option.map_eq_some_iff.mp h
  rw [poke] at hd
  split_ifs at hd with hlen
  rw [storeLE_length] at hlen
  omega

lemma copy_after {w w' : Draft} {p : ℕ} {bs : Bytes} (h : w.copy p bs = some w') (hp : 2 ≤ p) :
    w.After w' := by
  obtain ⟨d, hd, rfl⟩ := Option.map_eq_some_iff.mp h
  exact ⟨poke_length hd, poke_header hd hp, id⟩

end Draft

namespace Bag

open Draft

lemma moveOffsets_after (row : Bag) (delta : ℤ) (count col : ℕ) (w w' : Draft)
    (h : row.moveOffsets delta count col w = some w') : w.After w' := by
  induction count generalizing col w with
  | zero =>
      cases h
      exact After.refl _
  | succ count ih =>
      rw [moveOffsets] at h
      obtain ⟨p, -, h⟩ := Option.bind_eq_some_iff.mp h
      obtain ⟨w1, h1, h⟩ := Option.bind_eq_some_iff.mp h
      exact (storePos_after h1).trans (ih _ _ h)

lemma copyOffsets_after (row : Bag) (endCol col : UInt32) (p sz : ℕ) (w w' : Draft)
    (h : row.copyOffsets endCol col p sz w = some w') : w.After w' := by
  rw [copyOffsets] at h
  split_ifs at h
  · obtain ⟨table, -, h⟩ := Option.bind_eq_some_iff.mp h
    exact copy_after h (by omega)
  · exact moveOffsets_after row _ _ _ w w' h

lemma markEmpty_after (sz count : ℕ) (col : UInt32) (w w' : Draft)
    (h : markEmpty sz count col w = some w') : w.After w' := by
  induction count generalizing col w with
  | zero =>
      cases h
      exact After.refl _
  | succ count ih =>
      rw [markEmpty] at h
      obtain ⟨w1, h1, h⟩ := Option.bind_eq_some_iff.mp h
      exact (storePos_after h1).trans (ih _ _ h)

lemma copyOld_after (row : Bag) (n : ℕ) (thisCol col : UInt32) (sz : ℕ) (w : Draft)
    (r : UInt32 × ℕ × Draft) (h : row.copyOld n thisCol col sz w = some r) (hsz : 2 ≤ sz) :
    w.After r.2.2 ∧ sz ≤ r.2.1 := by
  rw [copyOld] at h
  split_ifs at h
  · obtain ⟨p, -, h⟩ := Option.bind_eq_some_iff.mp h
    obtain ⟨w1, h1, h⟩ := Option.bind_eq_some_iff.mp h
    obtain ⟨q, -, h⟩ := Option.bind_eq_some_iff.mp h
    split_ifs at h
    obtain ⟨bs, -, h⟩ := Option.bind_eq_some_iff.mp h
    obtain ⟨w2, h2, h⟩ := Option.bind_eq_some_iff.mp h
    cases h
    exact ⟨(copyOffsets_after row _ _ _ _ w w1 h1).trans (copy_after h2 hsz), Nat.le_add_right _ _⟩
  · cases h
    exact ⟨After.refl w, le_rfl⟩

lemma fillTo_after (row : Bag) (n : ℕ) (thisCol col : UInt32) (sz : ℕ) (w : Draft) (r : ℕ × Draft)
    (h : row.fillTo n thisCol col sz w = some r) (hsz : 2 ≤ sz) : w.After r.2 ∧ sz ≤ r.1 := by
  rw [fillTo] at h
  obtain ⟨⟨col', sz', w1⟩, h1, h⟩ := Option.bind_eq_some_iff.mp h
  obtain ⟨w2, h2, h⟩ := Option.bind_eq_some_iff.mp h
  cases h
  obtain ⟨ha, hle⟩ := copyOld_after row n thisCol col sz w _ h1 hsz
  exact ⟨ha.trans (markEmpty_after _ _ _ _ _ h2), hle⟩

lemma fill_after (row : Bag) (n : ℕ) (ncol : UInt32) (changes : List Assignment) (col : UInt32)
    (sz : ℕ) (w w' : Draft) (h : row.fill n ncol changes col sz w = some w') (hsz : 2 ≤ sz) :
    w.After w' := by
  induction changes generalizing col sz w with
  | nil =>
      rw [fill] at h
      obtain ⟨r, h1, h⟩ := Option.bind_eq_some_iff.mp h
      exact (fillTo_after row n ncol col sz w r h1 hsz).1.trans (storePos_after h)
  | cons a as ih =>
      rw [fill] at h
      obtain ⟨r, h1, h⟩ := Option.bind_eq_some_iff.mp h
      obtain ⟨hr, hle⟩ := fillTo_after row n _ col sz w r h1 hsz
      simp only at h
      split_ifs at h
      · exact hr.trans (storePos_after h)
      · obtain ⟨w2, h2, h⟩ := Option.bind_eq_some_iff.mp h
        obtain ⟨w3, h3, h⟩ := Option.bind_eq_some_iff.mp h
        exact hr.trans ((storePos_after h2).trans
          ((copy_after h3 (hsz.trans hle)).trans (ih _ _ _ h (by omega))))

/-- If no change is met at the end of the row, all values are written, and the last offset counts
them. -/
lemma fill_total (row : Bag) (n : ℕ) (ncol : UInt32) (changes : List Assignment) (col : UInt32)
    (sz : ℕ) (w w' : Draft) (h : row.fill n ncol changes col sz w = some w') (hsz : 2 ≤ sz)
    (hne : ∀ a ∈ changes, a.1.toUInt32 ≠ ncol) (hw : w'.wrapped = false) :
    sz + ValueBag.brought (indices changes) < 2 ^ 16 := by
  induction changes generalizing col sz w with
  | nil =>
      rw [fill] at h
      obtain ⟨r, h1, h⟩ := Option.bind_eq_some_iff.mp h
      have hle := (fillTo_after row n ncol col sz w r h1 hsz).2
      have hlt := storePos_lt h hw
      exact lt_of_le_of_lt hle hlt
  | cons a as ih =>
      rw [fill] at h
      obtain ⟨r, h1, h⟩ := Option.bind_eq_some_iff.mp h
      have hle := (fillTo_after row n _ col sz w r h1 hsz).2
      simp only [if_neg (hne a List.mem_cons_self)] at h
      obtain ⟨w2, h2, h⟩ := Option.bind_eq_some_iff.mp h
      obtain ⟨w3, h3, h⟩ := Option.bind_eq_some_iff.mp h
      have hrest := ih _ _ _ h (by omega) (fun b hb => hne b (List.mem_cons_of_mem _ hb))
      have hbr : ValueBag.brought (indices (a :: as))
          = a.2.length + ValueBag.brought (indices as) := rfl
      rw [hbr]
      omega

/-! ## Steps back -/

/-- Marking columns up to the last `unsigned` and on from 0 takes a block of `2 ^ 33` bytes. -/
lemma markEmpty_wraps (sz count : ℕ) (col : UInt32) (w w' : Draft)
    (h : markEmpty sz count col w = some w') (hwrap : 2 ^ 32 ≤ col.toNat + count) :
    2 ^ 33 ≤ w.d.length := by
  induction count generalizing col w with
  | zero =>
      have := col.toNat_lt
      omega
  | succ count ih =>
      rw [markEmpty] at h
      obtain ⟨w1, h1, h⟩ := Option.bind_eq_some_iff.mp h
      have hin := storePos_inside h1
      by_cases hmax : col.toNat + 1 < 2 ^ 32
      · have hsucc : (col + 1).toNat = col.toNat + 1 := by
          rw [UInt32.toNat_add]
          exact Nat.mod_eq_of_lt hmax
        have := ih (col + 1) w1 h (by omega)
        rwa [(storePos_after h1).length] at this
      · omega

variable {cols : List Bytes} {ts : UInt64}

/-- Columns that are not empty start at different places. -/
lemma columnStart_strict (hne : ∀ c ∈ cols, c ≠ []) {i j : ℕ} (hij : i < j) (hi : i < cols.length) :
    columnStart cols i < columnStart cols j := by
  have h1 := columnStart_succ cols i
  have h2 := columnStart_mono cols (show i + 1 ≤ j from hij)
  have h3 : 0 < (cols.getD i []).length := by
    rw [List.getD_eq_getElem?_getD, List.getElem?_eq_getElem hi, Option.getD_some]
    exact List.length_pos_iff.mpr (hne _ (List.getElem_mem hi))
  omega

/-- **The loop never goes back** and comes out with a block of ordinary size, unless the columns
that it goes back over are empty. -/
lemma fillTo_forward (h : ValueBag.Fits cols) (hne : ∀ c ∈ cols, c ≠ []) (thisCol col : UInt32)
    (sz : ℕ) (w : Draft) (r : ℕ × Draft) (hsz : 2 ≤ sz) (hblock : w.d.length < 2 ^ 33)
    (hfill : fillTo ⟨ts, encode cols⟩ cols.length thisCol col sz w = some r) :
    col.toNat ≤ thisCol.toNat ∧
      r.1 = sz + (ValueBag.oldColumns cols col.toNat thisCol.toNat).flatten.length := by
  have hlen := fits_length h
  rw [fillTo] at hfill
  obtain ⟨⟨col', sz', w1⟩, h1, hfill⟩ := Option.bind_eq_some_iff.mp hfill
  obtain ⟨w2, h2, hfill⟩ := Option.bind_eq_some_iff.mp hfill
  cases hfill
  simp only at h2 ⊢
  have hflat : col.toNat ≤ thisCol.toNat →
      (ValueBag.oldColumns cols col.toNat thisCol.toNat).flatten
        = ((cols.take thisCol.toNat).drop col.toNat).flatten := by
    intro hle
    rw [oldColumns_eq cols hle, List.flatten_append, List.flatten_replicate_nil, List.append_nil]
  have hafter := copyOld_after _ _ _ _ _ _ _ h1 hsz
  rw [copyOld] at h1
  split_ifs at h1 with hc
  · obtain ⟨hneq, hlt⟩ := hc
    have hneq' : col.toNat ≠ thisCol.toNat := fun he => hneq (UInt32.toNat_inj.mp he)
    have hofNat : (UInt32.ofNat cols.length).toNat = cols.length := by
      rw [UInt32.toNat_ofNat', Nat.mod_eq_of_lt (by omega)]
    have hend : (min thisCol (UInt32.ofNat cols.length)).toNat = min thisCol.toNat cols.length := by
      rw [UInt32.toNat_min, hofNat]
    obtain ⟨p, hp, h1⟩ := Option.bind_eq_some_iff.mp h1
    obtain ⟨w3, -, h1⟩ := Option.bind_eq_some_iff.mp h1
    obtain ⟨q, hq, h1⟩ := Option.bind_eq_some_iff.mp h1
    rw [encode_pos h hlt.le] at hp
    rw [hend, encode_pos h (min_le_right _ _)] at hq
    cases hp
    cases hq
    split_ifs at h1 with hqp
    obtain ⟨bs, -, h1⟩ := Option.bind_eq_some_iff.mp h1
    obtain ⟨w4, -, h1⟩ := Option.bind_eq_some_iff.mp h1
    cases h1
    have hle : col.toNat ≤ thisCol.toNat := by
      by_contra hback
      have := columnStart_strict hne (show min thisCol.toNat cols.length < col.toNat by omega)
        (by omega)
      omega
    have hadd := columnStart_add cols (show col.toNat ≤ min thisCol.toNat cols.length by omega)
    have hseg : (cols.take (min thisCol.toNat cols.length)).drop col.toNat
        = (cols.take thisCol.toNat).drop col.toNat := by
      rcases le_total thisCol.toNat cols.length with hl | hl
      · rw [min_eq_left hl]
      · rw [min_eq_right hl, List.take_of_length_le hl, List.take_length]
    rw [hseg] at hadd
    refine ⟨hle, ?_⟩
    rw [hflat hle, hadd, Nat.add_sub_cancel_left]
  · cases h1
    have hle : col.toNat ≤ thisCol.toNat := by
      by_contra hback
      have hcount : (thisCol - col).toNat = 2 ^ 32 - col.toNat + thisCol.toNat := by
        have := col.toNat_lt
        rw [UInt32.toNat_sub]
        omega
      have := col.toNat_lt
      have := markEmpty_wraps _ _ _ _ _ h2 (by omega)
      omega
    refine ⟨hle, ?_⟩
    have hnil : (cols.take thisCol.toNat).drop col.toNat = [] := by
      rw [List.drop_eq_nil_iff, List.length_take]
      rcases not_and_or.mp hc with hc | hc
      · rw [not_ne_iff.mp hc]
        exact min_le_left _ _
      · omega
    rw [hflat hle, hnil]
    rfl

/-- **What a run of the second loop says about its changes**: they are increasing, and the row they
make can be reached with its offsets. -/
lemma fill_forward (h : ValueBag.Fits cols) (hne : ∀ c ∈ cols, c ≠ []) (ncol : UInt32)
    (changes : List Assignment) (col : UInt32) (sz : ℕ) (w w' : Draft)
    (hfill : fill ⟨ts, encode cols⟩ cols.length ncol changes col sz w = some w') (hsz : 2 ≤ sz)
    (hblock : w.d.length < 2 ^ 33) (hncol : ∀ a ∈ changes, a.1.toUInt32 ≠ ncol)
    (hw : w'.wrapped = false) :
    col.toNat ≤ ncol.toNat ∧ (∀ a ∈ changes, col.toNat ≤ a.1.toUInt32.toNat) ∧
      (∀ a ∈ changes, a.1.toUInt32.toNat < ncol.toNat) ∧ Increasing (indices changes) ∧
      ∃ new, ValueBag.updateLoop cols ncol.toNat col.toNat (indices changes) = some new ∧
        sz + new.flatten.length < 2 ^ 16 := by
  induction changes generalizing col sz w with
  | nil =>
      rw [fill] at hfill
      obtain ⟨r, h1, hfill⟩ := Option.bind_eq_some_iff.mp hfill
      obtain ⟨hle, hr⟩ := fillTo_forward h hne ncol col sz w r hsz hblock h1
      have hlt := storePos_lt hfill hw
      refine ⟨hle, fun a ha => absurd ha List.not_mem_nil, fun a ha => absurd ha List.not_mem_nil,
        List.Pairwise.nil, ValueBag.oldColumns cols col.toNat ncol.toNat, ?_, by omega⟩
      exact if_pos hle
  | cons a as ih =>
      rw [fill] at hfill
      obtain ⟨r, h1, hfill⟩ := Option.bind_eq_some_iff.mp hfill
      obtain ⟨hle, hr⟩ := fillTo_forward h hne a.1.toUInt32 col sz w r hsz hblock h1
      have hr' := (fillTo_after _ _ _ _ _ _ _ h1 hsz).1
      simp only [if_neg (hncol a List.mem_cons_self)] at hfill
      obtain ⟨w2, h2, hfill⟩ := Option.bind_eq_some_iff.mp hfill
      obtain ⟨w3, h3, hfill⟩ := Option.bind_eq_some_iff.mp hfill
      have hin := storePos_inside h2
      have h2' := storePos_after h2
      have h3' := copy_after h3 (by omega)
      have hsucc : (a.1.toUInt32 + 1).toNat = a.1.toUInt32.toNat + 1 := by
        rw [UInt32.toNat_add]
        exact Nat.mod_eq_of_lt (by
          rw [hr'.length] at hin
          change a.1.toUInt32.toNat + 1 < 2 ^ 32
          omega)
      obtain ⟨i1, i2, i3, i4, new, i5, i6⟩ := ih (a.1.toUInt32 + 1) (r.1 + a.2.length) w3 hfill
        (by omega) (by rw [h3'.length, h2'.length, hr'.length]; exact hblock)
        (fun b hb => hncol b (List.mem_cons_of_mem _ hb))
      rw [hsucc] at i1 i2 i5
      refine ⟨by omega, List.forall_mem_cons.mpr ⟨hle, fun b hb => by have := i2 b hb; omega⟩,
        List.forall_mem_cons.mpr ⟨i1, i3⟩, ?_, ?_⟩
      · refine List.pairwise_cons.mpr ⟨fun b hb => ?_, i4⟩
        obtain ⟨b', hb', rfl⟩ := List.mem_map.mp hb
        exact i2 b' hb'
      · refine ⟨ValueBag.oldColumns cols col.toNat a.1.toUInt32.toNat ++ a.2 :: new, ?_, ?_⟩
        · change ValueBag.updateLoop cols ncol.toNat col.toNat
            ((a.1.toUInt32.toNat, a.2) :: indices as) = _
          rw [ValueBag.updateLoop, if_neg (by omega), if_neg (by omega), i5]
          rfl
        · simp only [List.flatten_append, List.flatten_cons, List.length_append]
          omega

end Bag

/-! ## Requests -/

namespace Bag

/-- `row_is_marker`. -/
def isMarker (row : Bag) : Bool := row.ts &&& 1 != 0

/-- The column that `run_get` emits: `f_` holds a `short`. -/
def getColumn (row : Bag) (c : UInt64) : Option Bytes :=
  row.col (UInt32.ofNat (toUnsigned (toShort c.toNat)))

end Bag

/-- What `onego` makes a row of: the arguments of `run_put` and of `run_replace`. -/
inductive RowRequest where
  | put (changes : List Assignment)
  | replace (value : Bytes)
deriving Repr, DecidableEq

namespace RowRequest

/-- `apply_put` and `apply_replace` on the value that was found. -/
def apply (init : ℕ → UInt8) (value : Option Bag) : RowRequest → Option Draft
  | .put changes =>
      match value with
      | none => Bag.empty.updateDraft init changes
      | some row => if row.isMarker then Bag.empty.updateDraft init changes
          else row.updateDraft init changes
  | .replace new => Bag.create1Draft init new

/-- The columns that the new row starts from. -/
def base : Option Bag → List Bytes
  | none => []
  | some row => if row.isMarker then [] else row.columns

/-- The row is made inside its block, no number is cut off, and every column of the request is read
back with the last value that the request gave it. -/
def Sound (init : ℕ → UInt8) (value : Option Bag) (ts : UInt64) (req : RowRequest) : Prop :=
  ∃ w, apply init value req = some w ∧ w.wrapped = false ∧
    match req with
    | .put changes => ∀ a ∈ changes,
        Bag.getColumn ⟨ts, w.d⟩ a.1 = requested (Bag.plain changes) a.1.toNat
    | .replace new => Bag.getColumn ⟨ts, w.d⟩ 0 = some new

/-- Increasing columns, as far as 32 bits go, and a row that 16-bit offsets can reach. -/
def Harmless (value : Option Bag) : RowRequest → Prop
  | .put changes => Increasing (Bag.indices changes) ∧
      ValueBag.Fits (assigned (base value) (Bag.indices changes)) ∧
        Bag.InTable (base value) changes
  | .replace new => 6 + new.length < 2 ^ 16

/-- No empty column anywhere. -/
def NoneEmpty (value : Option Bag) : RowRequest → Prop
  | .put changes => (∀ c ∈ base value, c ≠ []) ∧ ∀ a ∈ changes, a.2 ≠ []
  | .replace _ => True

end RowRequest

namespace Bag

variable {cols : List Bytes} {ts : UInt64}

/-- A column that fits is found again. -/
lemma encode_getColumn (h : ValueBag.Fits cols) {c : UInt64} (hc : c.toUInt32.toNat < cols.length) :
    getColumn ⟨ts, encode cols⟩ c = some (cols.getD c.toUInt32.toNat []) := by
  have hlen := fits_length h
  have hmod : c.toUInt32.toNat = c.toNat % 2 ^ 32 := UInt64.toNat_toUInt32 c
  have hidx : (UInt32.ofNat (toUnsigned (toShort c.toNat))).toNat = c.toUInt32.toNat := by
    rw [UInt32.toNat_ofNat', toUnsigned, toShort]
    omega
  rw [getColumn, encode_col h, hidx]

/-- The column behind the last one is read as empty. -/
lemma getColumn_end {row : Bag} {n : ℕ} (hn : row.ncol = some n) (hlt : n < 2 ^ 16) {c : UInt64}
    (hc : c.toUInt32.toNat = n) : getColumn row c = some [] := by
  have hmod : c.toUInt32.toNat = c.toNat % 2 ^ 32 := UInt64.toNat_toUInt32 c
  have hidx : ¬ (UInt32.ofNat (toUnsigned (toShort c.toNat))).toNat < n := by
    rw [UInt32.toNat_ofNat', toUnsigned, toShort]
    omega
  rw [getColumn, col, hn, Option.bind_eq_bind, Option.bind_some, if_neg hidx]

/-- With different columns every value is the last one for its column. -/
lemma requested_of_mem {changes : List Change} (h : changes.Pairwise fun a b => a.1 ≠ b.1)
    {a : Change} (ha : a ∈ changes) : requested changes a.1 = some a.2 := by
  induction changes with
  | nil => exact absurd ha List.not_mem_nil
  | cons b bs ih =>
      obtain ⟨h1, h2⟩ := List.pairwise_cons.mp h
      rw [requested]
      rcases List.mem_cons.mp ha with rfl | ha
      · rw [requested_eq_none (fun c hc => (h1 c hc).symm), if_pos rfl]
        rfl
      · rw [ih h2 ha]
        rfl

/-- The value that a column of the request was given is one of the values. -/
lemma requested_mem {changes : List Change} {i : ℕ} {v : Bytes} (h : requested changes i = some v) :
    ∃ a ∈ changes, a.2 = v := by
  induction changes with
  | nil => cases h
  | cons b bs ih =>
      rw [requested] at h
      cases hr : requested bs i with
      | some v' =>
          rw [hr] at h
          cases h
          obtain ⟨a, ha, hv⟩ := ih hr
          exact ⟨a, List.mem_cons_of_mem _ ha, hv⟩
      | none =>
          rw [hr, Option.none_or] at h
          split_ifs at h
          cases h
          exact ⟨b, List.mem_cons_self, rfl⟩

/-- **A harmless put.** -/
lemma put_sound (h : ValueBag.Fits cols) {changes : List Assignment}
    (hinc : Increasing (indices changes)) (hfit : ValueBag.Fits (assigned cols (indices changes)))
    (htable : InTable cols changes) (init : ℕ → UInt8) (ts' : UInt64) :
    ∃ w, updateDraft init ⟨ts, encode cols⟩ changes = some w ∧ w.wrapped = false ∧
      ∀ a ∈ changes, getColumn ⟨ts', w.d⟩ a.1 = requested (plain changes) a.1.toNat := by
  refine ⟨_, updateDraft_spec h hinc hfit htable init, rfl, fun a ha => ?_⟩
  have hlt := (changes_lt hinc hfit ha).1
  have hdiff : (plain changes).Pairwise fun a b => a.1 ≠ b.1 := by
    rw [plain, List.pairwise_map]
    refine (List.pairwise_map.mp hinc).imp fun {a b} hab heq => ?_
    have h1 := UInt64.toNat_toUInt32 a.1
    have h2 := UInt64.toNat_toUInt32 b.1
    simp only at hab heq
    omega
  have hone : requested (plain changes) a.1.toNat = some a.2 :=
    requested_of_mem hdiff (List.mem_map_of_mem ha)
  have hone' : requested (indices changes) a.1.toUInt32.toNat = some a.2 :=
    requested_of_mem (List.Pairwise.imp (fun hab => ne_of_lt hab) hinc) (List.mem_map_of_mem ha)
  rw [hone, encode_getColumn hfit hlt, assigned_getD cols hinc, hone']
  rfl

/-- If no value is empty, the changes bring at least as many bytes as there are changes. -/
lemma replaced_le (h : ValueBag.Fits cols) {changes : List Change}
    (hvals : ∀ a ∈ changes, a.2 ≠ []) :
    ValueBag.replaced cols changes ≤ 2 ^ 16 * ValueBag.brought changes := by
  induction changes with
  | nil => exact Nat.zero_le _
  | cons a as ih =>
      have hpos := List.length_pos_iff.mpr (hvals a List.mem_cons_self)
      have hi := ih (fun b hb => hvals b (List.mem_cons_of_mem _ hb))
      have hcol : (if a.1 < cols.length then (cols.getD a.1 []).length else 0) < 2 ^ 16 := by
        split_ifs
        · have h1 := columnStart_succ cols a.1
          have h2 := columnStart_le cols (a.1 + 1)
          have h3 : ValueBag.endOffset cols < 2 ^ 16 := h
          omega
        · omega
      have hrep : ValueBag.replaced cols (a :: as)
          = (if a.1 < cols.length then (cols.getD a.1 []).length else 0)
            + ValueBag.replaced cols as := rfl
      have hbr : ValueBag.brought (a :: as) = a.2.length + ValueBag.brought as := rfl
      rw [hrep, hbr]
      omega

/-- What is known of the size and the number of columns of the new row. -/
lemma extent_inv (h : ValueBag.Fits cols) {changes : List Assignment} {sz : UInt64} {ncol : UInt32}
    (hext : extent ⟨ts, encode cols⟩ cols.length (8 + ValueBag.endOffset cols) changes
      = some (sz, ncol)) :
    ((∀ a ∈ changes, a.1.toUInt32.toNat + 1 < 2 ^ 32) →
      ncol.toNat = ValueBag.newNcol cols.length (indices changes) cols.length) ∧
    (sz.toNat + ValueBag.replaced cols (indices changes)) % 2 ^ 64
      = (8 + ValueBag.endOffset cols + 2 * (ncol.toNat - cols.length)
        + ValueBag.brought (indices changes)) % 2 ^ 64 := by
  have hlen := fits_length h
  have hf : ValueBag.endOffset cols < 2 ^ 16 := h
  have hofNat : (UInt32.ofNat cols.length).toNat = cols.length := by
    rw [UInt32.toNat_ofNat', Nat.mod_eq_of_lt (by omega)]
  obtain ⟨r, hr, hsize⟩ := @measure_size cols ts h changes
    (UInt64.ofNat (8 + ValueBag.endOffset cols)) (UInt32.ofNat cols.length)
  have hm := fun hc => measure_ncol _ _ changes hc _ _ _ hr
  rw [hofNat] at hm
  rw [extent, hr, Option.map_some, Option.some.injEq, Prod.mk.injEq] at hext
  obtain ⟨hsz, rfl⟩ := hext
  refine ⟨hm, ?_⟩
  rw [UInt64.toNat_ofNat'] at hsize
  rw [← hsz]
  split_ifs with hgrow
  · rw [UInt64.toNat_add, UInt64.toNat_ofNat']
    omega
  · omega

/-- The path for one small column was right if it found its place in the table. -/
lemma replaceOne_harmless (h : ValueBag.Fits cols) {c : UInt64} {v block : Bytes} {sz : UInt64}
    {ncol : UInt32} {w : Draft}
    (hext : extent ⟨ts, encode cols⟩ cols.length (8 + ValueBag.endOffset cols) [(c, v)]
      = some (sz, ncol))
    (hncol : ncol.toNat = cols.length) (hsz : sz.toNat = 8 + ValueBag.endOffset cols)
    (hv : v.length ≤ 16) (hw : replaceOne ⟨ts, encode cols⟩ block c v = some w) :
    ValueBag.Fits (assigned cols (indices [(c, v)])) ∧ c.toNat < 2 ^ 32 := by
  have hf : ValueBag.endOffset cols < 2 ^ 16 := h
  obtain ⟨old, -, hw⟩ := Option.bind_eq_some_iff.mp hw
  obtain ⟨w1, -, hw⟩ := Option.bind_eq_some_iff.mp hw
  obtain ⟨p, hp, -⟩ := Option.bind_eq_some_iff.mp hw
  have hc : c.toNat < 2 ^ 15 := by
    obtain ⟨bs, hbs, -⟩ := Option.map_eq_some_iff.mp hp
    rw [peek] at hbs
    split_ifs at hbs with hlen
    simp only [encode_length] at hlen
    omega
  have hidx : c.toUInt32.toNat = c.toNat := toUInt32_toNat (by omega)
  obtain ⟨hm, hsize⟩ := extent_inv h hext
  have hnew : ValueBag.newNcol cols.length (indices [(c, v)]) cols.length
      = if c.toUInt32.toNat < cols.length then cols.length else c.toUInt32.toNat + 1 := rfl
  have hlt : c.toUInt32.toNat < cols.length := by
    by_contra hge
    have := hm (fun a ha => by
      rw [List.mem_singleton.mp ha]
      change c.toUInt32.toNat + 1 < 2 ^ 32
      omega)
    rw [hnew, if_neg hge] at this
    omega
  have hrep : ValueBag.replaced cols (indices [(c, v)])
      = (cols.getD c.toUInt32.toNat []).length := by
    simp only [ValueBag.replaced, indices, List.map_cons, List.map_nil, List.sum_cons, if_pos hlt]
    rfl
  have hbr : ValueBag.brought (indices [(c, v)]) = v.length := rfl
  have hone := columnStart_succ cols c.toUInt32.toNat
  have hone' := columnStart_le cols (c.toUInt32.toNat + 1)
  rw [hrep, hbr, hncol, hsz] at hsize
  have hlen : v.length = (cols.getD c.toUInt32.toNat []).length := by omega
  refine ⟨?_, by omega⟩
  have hset : assigned cols (indices [(c, v)]) = cols.set c.toUInt32.toNat v := assigned_one hlt v
  have hpoke := encode_set cols hlt v hlen
  have hend := poke_length hpoke
  rw [encode_length, encode_length] at hend
  change ValueBag.endOffset _ < 2 ^ 16
  rw [hset, hend]
  exact hf

/-- The general case. -/
lemma rebuild_harmless (h : ValueBag.Fits cols) (hne : ∀ c ∈ cols, c ≠ [])
    {changes : List Assignment} (hvals : ∀ a ∈ changes, a.2 ≠ []) {block : Bytes} {sz : UInt64}
    {ncol : UInt32} {w : Draft} (ts' : UInt64)
    (hext : extent ⟨ts, encode cols⟩ cols.length (8 + ValueBag.endOffset cols) changes
      = some (sz, ncol))
    (hsz : sz.toNat < 2 ^ 63) (hblock : block.length ≤ sz.toNat)
    (hreb : rebuild ⟨ts, encode cols⟩ block cols.length ncol changes = some w)
    (hw : w.wrapped = false)
    (hread : ∀ a ∈ changes,
      getColumn ⟨ts', w.d⟩ a.1 = requested (plain changes) a.1.toNat) :
    Increasing (indices changes) ∧ ValueBag.Fits (assigned cols (indices changes)) ∧
      ncol.toNat = (assigned cols (indices changes)).length := by
  have hf : ValueBag.endOffset cols < 2 ^ 16 := h
  obtain ⟨w1, h1, hfill⟩ := Option.bind_eq_some_iff.mp hreb
  have hafter := fill_after _ _ _ _ _ _ _ _ hfill (by omega)
  obtain ⟨d, hd, hw1⟩ := Option.map_eq_some_iff.mp h1
  -- the number of columns was stored, and still is
  have hlt : ncol.toNat < 2 ^ 16 := Draft.storeOffset_lt h1 (hafter.wrapped hw)
  have hx : ((ncol.toNat : ℤ) % 2 ^ 16).toNat = ncol.toNat := by omega
  rw [hx] at hd
  have hsame : d = w1.d := by rw [← hw1]
  have hhead : w.d.take 2 = storeLE 2 ncol.toNat ∧ 2 ≤ w.d.length := by
    rw [hafter.header, hafter.length, ← hsame]
    rw [poke] at hd
    split_ifs at hd with hlen
    cases hd
    rw [storeLE_length] at hlen
    refine ⟨?_, ?_⟩
    · rw [List.take_zero, List.nil_append, List.take_left' (storeLE_length _ _)]
    · simp only [List.length_append, List.length_take, List.length_drop, storeLE_length]
      omega
  have hnfield : Bag.ncol ⟨ts', w.d⟩ = some ncol.toNat := by
    rw [Bag.ncol, peek, if_pos (by simpa using hhead.2), List.drop_zero, hhead.1, Option.map_some,
      valueLE_two hlt]
  have hends : ∀ a ∈ changes, a.1.toUInt32 ≠ ncol := by
    intro a ha heq
    have hempty := getColumn_end hnfield hlt (show a.1.toUInt32.toNat = ncol.toNat by rw [heq])
    rw [hread a ha] at hempty
    obtain ⟨b, hb, hb'⟩ := requested_mem hempty
    obtain ⟨b', hb'', rfl⟩ := List.mem_map.mp hb
    exact hvals b' hb'' hb'
  have htotal := fill_total _ _ _ _ _ _ _ _ hfill (by omega) hends hw
  have hrep := @replaced_le cols h (indices changes) (fun a ha => by
    obtain ⟨b, hb, rfl⟩ := List.mem_map.mp ha
    exact hvals b hb)
  obtain ⟨hm, hsize⟩ := extent_inv h hext
  have hsmall : w1.d.length < 2 ^ 33 := by
    have hlen : d.length = block.length := poke_length hd
    rw [← hsame, hlen]
    omega
  obtain ⟨-, -, hltn, hinc, new, hloop, hnew⟩ :=
    fill_forward h hne ncol changes 0 _ w1 w hfill (by omega) hsmall hends hw
  have hn : ncol.toNat = (assigned cols (indices changes)).length := by
    rw [hm (fun a ha => by have := hltn a ha; omega),
      ValueBag.newNcol_eq _ hinc _ le_rfl (fun a _ ha => ha), assigned_length]
  have heq : new = assigned cols (indices changes) := by
    have hz : (0 : UInt32).toNat = 0 := rfl
    rw [hz, ValueBag.updateLoop_eq cols _ _ hinc 0 (Nat.zero_le _) (fun a _ => Nat.zero_le _)
      (fun a ha => by
        obtain ⟨b, hb, rfl⟩ := List.mem_map.mp ha
        exact hltn b hb)] at hloop
    rw [← Option.some.inj hloop, hn, assigned, List.length_map, List.length_range, Nat.sub_zero,
      List.range_eq_range']
  refine ⟨hinc, ?_, hn⟩
  change ValueBag.endOffset _ < 2 ^ 16
  rw [endOffset_eq, ← hn, ← heq]
  exact hnew

end Bag

namespace Bag

variable {cols : List Bytes} {ts : UInt64}

/-- **A put without empty columns that comes out right is harmless.** -/
lemma put_harmless (h : ValueBag.Fits cols) (hne : ∀ c ∈ cols, c ≠ []) {changes : List Assignment}
    (hvals : ∀ a ∈ changes, a.2 ≠ []) {init : ℕ → UInt8} {ts' : UInt64} {w : Draft}
    (hw : updateDraft init ⟨ts, encode cols⟩ changes = some w) (hwrapped : w.wrapped = false)
    (hread : ∀ a ∈ changes,
      getColumn ⟨ts', w.d⟩ a.1 = requested (plain changes) a.1.toNat) :
    Increasing (indices changes) ∧ ValueBag.Fits (assigned cols (indices changes)) ∧
      InTable cols changes := by
  rw [updateDraft, encode_ncol h, Option.bind_eq_bind, Option.bind_some, encode_size h,
    Option.bind_some] at hw
  obtain ⟨⟨sz, ncol⟩, hext, hw⟩ := Option.bind_eq_some_iff.mp hw
  simp only at hw
  split_ifs at hw with hsz
  have hblock : (allocate init (sz.toNat - 8)).length ≤ sz.toNat := by
    rw [allocate_length]
    omega
  -- the general case, where a single change would have taken the other path
  have hgeneral : rebuild ⟨ts, encode cols⟩ (allocate init (sz.toNat - 8)) cols.length ncol changes
        = some w →
      (∀ c v, changes = [(c, v)] → ¬ (ncol.toNat = cols.length ∧
        sz.toNat = 8 + ValueBag.endOffset cols ∧ v.length ≤ 16)) →
      Increasing (indices changes) ∧ ValueBag.Fits (assigned cols (indices changes)) ∧
        InTable cols changes := by
    intro hreb hpath
    obtain ⟨hinc, hfit, hn⟩ := rebuild_harmless h hne hvals ts' hext (by omega) hblock hreb hwrapped
      hread
    refine ⟨hinc, hfit, fun c v hchanges hlt hlen hv => ?_⟩
    subst hchanges
    refine absurd ⟨?_, ?_, hv⟩ (hpath c v rfl)
    · rw [hn, assigned_length]
      have : changedEnd (indices [(c, v)]) = c.toUInt32.toNat + 1 := rfl
      omega
    · have hset : assigned cols (indices [(c, v)]) = cols.set c.toUInt32.toNat v :=
        assigned_one hlt v
      have hend := poke_length (encode_set cols hlt v hlen)
      rw [encode_length, encode_length, ← hset] at hend
      have hspec := @extent_spec cols ts h [(c, v)] hinc hfit
      rw [hext, Option.some.injEq, Prod.mk.injEq] at hspec
      have hf : ValueBag.endOffset cols < 2 ^ 16 := h
      rw [hspec.1, hend, UInt64.toNat_ofNat', Nat.mod_eq_of_lt (by omega)]
  split at hw
  · rename_i c v
    split_ifs at hw with hfast
    · obtain ⟨h1, h2, h3⟩ := hfast
      obtain ⟨hfit, hc⟩ := replaceOne_harmless h hext h1 h2 h3 hw
      refine ⟨List.pairwise_singleton _ _, hfit, fun c' v' heq _ _ _ => ?_⟩
      cases heq
      exact hc
    · refine hgeneral hw fun c' v' heq => ?_
      cases heq
      exact hfast
  · rename_i hnot
    exact hgeneral hw fun c v heq => absurd heq (hnot c v)

end Bag

namespace RowRequest

/-- What a put starts from is laid out as its columns say. -/
lemma apply_put {value : Option Bag} (hvalue : ∀ row ∈ value, Bag.Made row) (init : ℕ → UInt8)
    (changes : List Assignment) :
    ∃ ts, apply init value (.put changes)
        = Bag.updateDraft init ⟨ts, encode (base value)⟩ changes ∧ ValueBag.Fits (base value) := by
  have hempty : ∀ row, value = some row → row.isMarker = true → apply init value (.put changes)
      = Bag.updateDraft init ⟨0, encode []⟩ changes ∧ base value = [] := by
    rintro row rfl hm
    exact ⟨by rw [apply, if_pos hm, Bag.empty_eq], by rw [base, if_pos hm]⟩
  cases hv : value with
  | none => exact ⟨0, by rw [apply, Bag.empty_eq]; rfl, by decide⟩
  | some row =>
      cases hm : row.isMarker with
      | true =>
          rw [hv] at hempty
          obtain ⟨h1, h2⟩ := hempty row rfl hm
          refine ⟨0, ?_, ?_⟩
          · rw [h1, h2]
          · rw [h2]
            decide
      | false =>
          obtain ⟨hd, hfit⟩ := (hvalue row (by rw [hv]; rfl)).eq_encode
          have hbase : base (some row) = row.columns := by rw [base, hm]; rfl
          refine ⟨row.ts, ?_, by rw [hbase]; exact hfit⟩
          rw [apply, hm, hbase, ← hd]
          rfl

/-- **When the row of a request is right**: if the request is harmless, and, for a request and a row
without empty columns, only then. -/
theorem sound_of_harmless (init : ℕ → UInt8) (value : Option Bag)
    (hvalue : ∀ row ∈ value, Bag.Made row) (ts : UInt64) (req : RowRequest) :
    (Harmless value req → Sound init value ts req) ∧
      (NoneEmpty value req → Sound init value ts req → Harmless value req) := by
  cases req with
  | put changes =>
      obtain ⟨ts₀, happly, hfits⟩ := apply_put hvalue init changes
      refine ⟨fun hharmless => ?_, fun hempty hsound => ?_⟩
      · obtain ⟨hinc, hfit, htable⟩ := hharmless
        obtain ⟨w, hw, hrest⟩ :=
          @Bag.put_sound (base value) ts₀ hfits changes hinc hfit htable init ts
        exact ⟨w, happly.trans hw, hrest⟩
      · obtain ⟨w, hw, hwrapped, hread⟩ := hsound
        exact Bag.put_harmless hfits hempty.1 hempty.2 (happly.symm.trans hw) hwrapped hread
  | replace new =>
      have hcreate := Bag.create1Draft_eq init new
      refine ⟨fun hlt => ?_, fun _ hsound => ?_⟩
      · have hlt' : 6 + new.length < 2 ^ 16 := hlt
        have hfit := (@Bag.create1_spec init new ts hlt').2
        have hspec := (@Bag.create1_spec init new ts hlt').1
        obtain ⟨w, hw, hrow⟩ := Option.map_eq_some_iff.mp hspec
        refine ⟨w, hw, ?_, ?_⟩
        · rw [hcreate] at hw
          cases hw
          rw [decide_eq_true hlt']
          rfl
        · have hd : w.d = encode [new] := congrArg Bag.d hrow
          have h0 : (0 : UInt64).toUInt32.toNat = 0 := rfl
          rw [hd, Bag.encode_getColumn hfit (by rw [h0]; exact Nat.zero_lt_one), h0]
          rfl
      · obtain ⟨w, hw, hwrapped, -⟩ := hsound
        change Bag.create1Draft init new = some w at hw
        rw [hcreate] at hw
        cases hw
        rw [Bool.not_eq_false', decide_eq_true_eq] at hwrapped
        exact hwrapped

/-- Two columns of a new key. -/
theorem sound_of_harmless_twoColumns :
    Sound (fun _ => 0) none 2 (.put [(0, [120]), (1, [121])]) :=
  (sound_of_harmless (fun _ => 0) none (fun _ h => by cases h) 2 _).1
    ⟨by decide, by decide, fun c v h => by cases h⟩

/-- A new key with column 2 before column 0: the loop marks columns far behind the row. -/
theorem not_sound_decreasing :
    ¬ Sound (fun _ => 0) none 2 (.put [(2, [120]), (0, [121])]) := by
  rintro ⟨w, hw, -⟩
  have hnone : apply (fun _ => 0) none (.put [(2, [120]), (0, [121])]) = none := by decide
  rw [hnone] at hw
  cases hw

end RowRequest

end MasstreeLHM
