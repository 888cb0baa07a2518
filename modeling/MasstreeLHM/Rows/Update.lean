import MasstreeLHM.Rows.Fill

/-!
# What an update does

For changes with increasing columns `value_bag::update` returns the row with the columns `assigned`,
in a block of the right size, if the offsets of that row fit.

`assigned` is what a caller asks for: a column that is changed has its last requested value, every
other one keeps what it had, and columns are added as far as the last change needs them.  The two
loops are compared with it one by one.  The first loop works with sizes modulo 2^64, so
`measure_size` says that its result is right up to a multiple of 2^64, and `extent_spec` that
nothing wraps for a row that fits.  The second loop has been run in `fill_spec`;
`updateLoop_assigned` says that what it lays out is `assigned`.

`rebuild_spec` and `replaceOne_spec` are the two ways through the function, and
**`updateDraft_spec`** joins them: both leave the same bytes, whatever the new block held before.
The short way reads the table of offsets at the column itself, not at its low 32 bits, which is the
condition `InTable`.
-/

namespace MasstreeLHM

/-- The last value that the changes give to column `i`. -/
def requested : List Change → ℕ → Option Bytes
  | [], _ => none
  | a :: as, i => (requested as i).or (if a.1 = i then some a.2 else none)

/-- One more than the last column that is changed. -/
def changedEnd (changes : List Change) : ℕ :=
  match changes.getLast? with
  | none => 0
  | some a => a.1 + 1

/-- The columns after the changes. -/
def assigned (cols : List Bytes) (changes : List Change) : List Bytes :=
  (List.range (max cols.length (changedEnd changes))).map
    fun i => (requested changes i).getD (cols.getD i [])

/-- The columns are strictly increasing. -/
def Increasing (changes : List Change) : Prop := changes.Pairwise fun a b => a.1 < b.1

instance (changes : List Change) : Decidable (Increasing changes) :=
  inferInstanceAs (Decidable (changes.Pairwise fun a b => a.1 < b.1))

@[simp] lemma assigned_length (cols : List Bytes) (changes : List Change) :
    (assigned cols changes).length = max cols.length (changedEnd changes) := by simp [assigned]

lemma requested_eq_none {changes : List Change} {i : ℕ} (h : ∀ a ∈ changes, a.1 ≠ i) :
    requested changes i = none := by
  induction changes with
  | nil => rfl
  | cons a as ih =>
      rw [requested, ih (fun b hb => h b (List.mem_cons_of_mem _ hb)),
        if_neg (h a List.mem_cons_self)]
      rfl

lemma changedEnd_cons (a : Change) {as : List Change} (h : as ≠ []) :
    changedEnd (a :: as) = changedEnd as := by
  rw [changedEnd, changedEnd, List.getLast?_cons_of_ne_nil h]

lemma Increasing.lt_changedEnd {changes : List Change} (h : Increasing changes) {a : Change}
    (ha : a ∈ changes) : a.1 < changedEnd changes := by
  induction changes generalizing a with
  | nil => exact absurd ha List.not_mem_nil
  | cons b bs ih =>
      obtain ⟨h1, h2⟩ := List.pairwise_cons.mp h
      rcases eq_or_ne bs [] with rfl | hne
      · rw [List.mem_singleton.mp ha]
        exact Nat.lt_succ_self _
      · rw [changedEnd_cons b hne]
        rcases List.mem_cons.mp ha with rfl | ha
        · obtain ⟨c, hc⟩ := List.exists_mem_of_ne_nil bs hne
          exact (h1 c hc).trans (ih h2 hc)
        · exact ih h2 ha

lemma assigned_getD (cols : List Bytes) {changes : List Change} (h : Increasing changes) (i : ℕ) :
    (assigned cols changes).getD i [] = (requested changes i).getD (cols.getD i []) := by
  rw [List.getD_eq_getElem?_getD, assigned, List.getElem?_map]
  by_cases hi : i < max cols.length (changedEnd changes)
  · rw [List.getElem?_range hi]
    rfl
  · rw [List.getElem?_eq_none (by rw [List.length_range]; omega),
      requested_eq_none (fun a ha => by have := h.lt_changedEnd ha; omega),
      List.getD_eq_getElem?_getD, List.getElem?_eq_none (by omega)]
    rfl

namespace ValueBag

/-- The first loop finds the number of columns. -/
lemma newNcol_eq {n : ℕ} (changes : List Change) (h : Increasing changes) (m : ℕ) (hnm : n ≤ m)
    (hm : ∀ a ∈ changes, n ≤ a.1 → m ≤ a.1) :
    newNcol n changes m = max m (changedEnd changes) := by
  induction changes generalizing m with
  | nil => simp [newNcol, changedEnd]
  | cons a as ih =>
      obtain ⟨h1, h2⟩ := List.pairwise_cons.mp h
      have htail : ∀ b ∈ as, n ≤ b.1 → m ≤ b.1 := fun b hb => hm b (List.mem_cons_of_mem _ hb)
      rw [newNcol]
      rcases eq_or_ne as [] with rfl | hne
      · have ha := hm a List.mem_cons_self
        have hend : changedEnd [a] = a.1 + 1 := rfl
        rw [hend, newNcol]
        split_ifs with hlt
        · omega
        · have := ha (not_lt.mp hlt)
          omega
      · rw [changedEnd_cons a hne]
        split_ifs with hlt
        · exact ih h2 m hnm htail
        · rw [ih h2 (a.1 + 1) (by omega) (fun b hb _ => h1 b hb)]
          obtain ⟨b, hb⟩ := List.exists_mem_of_ne_nil as hne
          have hb1 := h1 b hb
          have hb2 := Increasing.lt_changedEnd h2 hb
          have := hm a List.mem_cons_self (not_lt.mp hlt)
          omega

lemma range'_split {i j k : ℕ} (hij : i ≤ j) (hjk : j < k) :
    List.range' i (k - i) = List.range' i (j - i) ++ j :: List.range' (j + 1) (k - (j + 1)) := by
  have hj : j = i + 1 * (j - i) := by omega
  have htail : j :: List.range' (j + 1) (k - (j + 1)) = List.range' (i + 1 * (j - i)) (k - j) := by
    rw [← hj, ← List.range'_succ]
    congr 1
    omega
  rw [htail, List.range'_append]
  congr 1
  omega

/-- The second loop finds the columns `assigned`. -/
lemma updateLoop_eq (cols : List Bytes) (ncol : ℕ) (changes : List Change) (h : Increasing changes)
    (col : ℕ) (hcol : col ≤ ncol) (hle : ∀ a ∈ changes, col ≤ a.1)
    (hlt : ∀ a ∈ changes, a.1 < ncol) :
    updateLoop cols ncol col changes = some ((List.range' col (ncol - col)).map
      fun i => (requested changes i).getD (cols.getD i [])) := by
  induction changes generalizing col with
  | nil =>
      rw [updateLoop, if_pos hcol, oldColumns]
      rfl
  | cons a as ih =>
      obtain ⟨h1, h2⟩ := List.pairwise_cons.mp h
      have ha := hlt a List.mem_cons_self
      have ha' := hle a List.mem_cons_self
      rw [updateLoop, if_neg (by omega), if_neg (by omega),
        ih h2 (a.1 + 1) ha h1 (fun b hb => hlt b (List.mem_cons_of_mem _ hb)), Option.map_some]
      congr 1
      rw [range'_split ha' ha, List.map_append, List.map_cons]
      congr 1
      · refine List.map_congr_left fun i hi => ?_
        obtain ⟨-, hi⟩ := List.mem_range'_1.mp hi
        rw [requested_eq_none (fun b hb => ?_)]
        · rfl
        · rcases List.mem_cons.mp hb with rfl | hb
          · omega
          · have := h1 b hb
            omega
      · congr 1
        · rw [requested, requested_eq_none (fun b hb => ne_of_gt (h1 b hb)), if_pos rfl]
          rfl
        · refine List.map_congr_left fun i hi => ?_
          obtain ⟨hi, -⟩ := List.mem_range'_1.mp hi
          rw [requested, if_neg (by omega), Option.or_none]

/-- What the changes of old columns replace. -/
def replaced (cols : List Bytes) (changes : List Change) : ℕ :=
  (changes.map fun a => if a.1 < cols.length then (cols.getD a.1 []).length else 0).sum

/-- What the changes bring in. -/
def brought (changes : List Change) : ℕ := (changes.map fun a => a.2.length).sum

/-- The bytes of the columns, before and after. -/
lemma updateLoop_bytes (cols : List Bytes) (ncol : ℕ) (changes : List Change) (col : ℕ)
    (new : List Bytes) (hlt : ∀ a ∈ changes, a.1 < ncol)
    (hloop : updateLoop cols ncol col changes = some new) :
    new.flatten.length + replaced cols changes
      = (oldColumns cols col ncol).flatten.length + brought changes := by
  induction changes generalizing col new with
  | nil =>
      rw [updateLoop] at hloop
      split_ifs at hloop
      cases hloop
      rfl
  | cons a as ih =>
      have ha := hlt a List.mem_cons_self
      rw [updateLoop] at hloop
      split_ifs at hloop with hbad heq
      · omega
      · obtain ⟨new', hnew', rfl⟩ := Option.map_eq_some_iff.mp hloop
        have hi := ih (a.1 + 1) new' (fun b hb => hlt b (List.mem_cons_of_mem _ hb)) hnew'
        have hsplit : oldColumns cols col ncol
            = oldColumns cols col a.1 ++ cols.getD a.1 [] :: oldColumns cols (a.1 + 1) ncol := by
          rw [oldColumns, range'_split (by omega) ha, List.map_append, List.map_cons]
          rfl
        have hdrop : (if a.1 < cols.length then (cols.getD a.1 []).length else 0)
            = (cols.getD a.1 []).length := by
          split_ifs with hl
          · rfl
          · rw [List.getD_eq_getElem?_getD, List.getElem?_eq_none (not_lt.mp hl)]
            rfl
        rw [hsplit, replaced, brought, List.map_cons, List.map_cons, List.sum_cons, List.sum_cons,
          hdrop]
        simp only [List.flatten_append, List.flatten_cons, List.length_append]
        change _ + (_ + replaced cols as) = _ + (_ + brought as)
        omega

end ValueBag

namespace Bag

variable {cols : List Bytes} {ts : UInt64}

/-- Requested columns as numbers. -/
def plain (changes : List Assignment) : List Change := changes.map fun a => (a.1.toNat, a.2)

/-- The first loop: the size is right up to a multiple of `2 ^ 64`. -/
lemma measure_size (h : ValueBag.Fits cols) (changes : List Assignment) (sz : UInt64)
    (ncol : UInt32) :
    ∃ r, measure ⟨ts, encode cols⟩ cols.length changes sz ncol = some r ∧
      (r.1.toNat + ValueBag.replaced cols (indices changes)) % 2 ^ 64
        = (sz.toNat + ValueBag.brought (indices changes)) % 2 ^ 64 := by
  induction changes generalizing sz ncol with
  | nil => exact ⟨(sz, ncol), rfl, rfl⟩
  | cons a as ih =>
      have hrep : ValueBag.replaced cols (indices (a :: as))
          = (if a.1.toUInt32.toNat < cols.length
              then (cols.getD a.1.toUInt32.toNat []).length else 0)
            + ValueBag.replaced cols (indices as) := rfl
      have hbr : ValueBag.brought (indices (a :: as))
          = a.2.length + ValueBag.brought (indices as) := rfl
      rw [measure, hrep, hbr]
      split_ifs with hold
      · have hlen : (cols.getD a.1.toUInt32.toNat []).length < 2 ^ 64 := by
          have h1 := columnStart_succ cols a.1.toUInt32.toNat
          have h2 := columnStart_le cols (a.1.toUInt32.toNat + 1)
          have h3 : ValueBag.endOffset cols < 2 ^ 16 := h
          omega
        rw [encode_columnLength h hold]
        obtain ⟨r, h1, h2⟩ := ih (sz + UInt64.ofNat a.2.length
          - UInt64.ofNat (cols.getD a.1.toUInt32.toNat []).length) ncol
        refine ⟨r, h1, ?_⟩
        rw [UInt64.toNat_sub, UInt64.toNat_add, UInt64.toNat_ofNat', UInt64.toNat_ofNat'] at h2
        omega
      · obtain ⟨r, h1, h2⟩ := ih (sz + UInt64.ofNat a.2.length) (a.1.toUInt32 + 1)
        refine ⟨r, h1, ?_⟩
        rw [UInt64.toNat_add, UInt64.toNat_ofNat'] at h2
        omega

/-- The first loop: the number of columns. -/
lemma measure_ncol (row : Bag) (n : ℕ) (changes : List Assignment)
    (hc : ∀ a ∈ changes, a.1.toUInt32.toNat + 1 < 2 ^ 32) (sz : UInt64) (ncol : UInt32)
    (r : UInt64 × UInt32) (h : measure row n changes sz ncol = some r) :
    r.2.toNat = ValueBag.newNcol n (indices changes) ncol.toNat := by
  induction changes generalizing sz ncol with
  | nil =>
      cases h
      rfl
  | cons a as ih =>
      have hsucc : (a.1.toUInt32 + 1).toNat = a.1.toUInt32.toNat + 1 := by
        rw [UInt32.toNat_add]
        exact Nat.mod_eq_of_lt (hc a List.mem_cons_self)
      have hnew : ValueBag.newNcol n (indices (a :: as)) ncol.toNat
          = ValueBag.newNcol n (indices as)
            (if a.1.toUInt32.toNat < n then ncol.toNat else a.1.toUInt32.toNat + 1) := rfl
      have htail : ∀ b ∈ as, b.1.toUInt32.toNat + 1 < 2 ^ 32 :=
        fun b hb => hc b (List.mem_cons_of_mem _ hb)
      rw [measure] at h
      rw [hnew]
      split_ifs at h ⊢ with hold
      · cases hl : row.columnLength a.1.toUInt32.toNat with
        | none =>
            simp only [hl] at h
            cases h
        | some len =>
            simp only [hl] at h
            exact ih htail _ _ h
      · rw [← hsucc]
        exact ih htail _ _ h

lemma fits_length {cols : List Bytes} (h : ValueBag.Fits cols) : 2 * cols.length + 4 < 2 ^ 16 := by
  have := endOffset_eq cols
  have hf : ValueBag.endOffset cols < 2 ^ 16 := h
  omega

/-- The columns of the changes are in range. -/
lemma changes_lt {changes : List Assignment} (hinc : Increasing (indices changes))
    (hfit : ValueBag.Fits (assigned cols (indices changes))) {a : Assignment} (ha : a ∈ changes) :
    a.1.toUInt32.toNat < (assigned cols (indices changes)).length ∧
      a.1.toUInt32.toNat + 1 < 2 ^ 32 := by
  have hlt : a.1.toUInt32.toNat < changedEnd (indices changes) :=
    hinc.lt_changedEnd (List.mem_map_of_mem ha)
  have hlen := fits_length hfit
  rw [assigned_length] at hlen ⊢
  omega

/-- What the second loop has to lay out. -/
lemma updateLoop_assigned {changes : List Assignment} (hinc : Increasing (indices changes))
    (hfit : ValueBag.Fits (assigned cols (indices changes))) :
    ValueBag.updateLoop cols (assigned cols (indices changes)).length 0 (indices changes)
      = some (assigned cols (indices changes)) := by
  rw [ValueBag.updateLoop_eq cols _ _ hinc 0 (Nat.zero_le _) (fun a _ => Nat.zero_le _)
    (fun a ha => ?_)]
  · rw [assigned, List.length_map, List.length_range, Nat.sub_zero, List.range_eq_range']
  · obtain ⟨b, hb, rfl⟩ := List.mem_map.mp ha
    exact (changes_lt hinc hfit hb).1

lemma oldColumns_flatten (cols : List Bytes) {ncol : ℕ} (h : cols.length ≤ ncol) :
    (ValueBag.oldColumns cols 0 ncol).flatten = cols.flatten := by
  rw [oldColumns_eq cols (Nat.zero_le _), List.drop_zero, List.take_of_length_le h,
    List.flatten_append, List.flatten_replicate_nil, List.append_nil]

/-- The bytes of the columns, before and after. -/
lemma assigned_bytes {changes : List Assignment} (hinc : Increasing (indices changes))
    (hfit : ValueBag.Fits (assigned cols (indices changes))) :
    (assigned cols (indices changes)).flatten.length + ValueBag.replaced cols (indices changes)
      = cols.flatten.length + ValueBag.brought (indices changes) := by
  have hle : cols.length ≤ (assigned cols (indices changes)).length := by
    rw [assigned_length]
    exact le_max_left _ _
  rw [← oldColumns_flatten cols hle]
  refine ValueBag.updateLoop_bytes cols _ (indices changes) 0 _ (fun a ha => ?_)
    (updateLoop_assigned hinc hfit)
  obtain ⟨b, hb, rfl⟩ := List.mem_map.mp ha
  exact (changes_lt hinc hfit hb).1

/-- **The size** of the new row. -/
lemma extent_spec (h : ValueBag.Fits cols) {changes : List Assignment}
    (hinc : Increasing (indices changes))
    (hfit : ValueBag.Fits (assigned cols (indices changes))) :
    extent ⟨ts, encode cols⟩ cols.length (8 + ValueBag.endOffset cols) changes
      = some (UInt64.ofNat (8 + ValueBag.endOffset (assigned cols (indices changes))),
          UInt32.ofNat (assigned cols (indices changes)).length) := by
  have hlen := fits_length h
  have hlen' := fits_length hfit
  have hofNat : (UInt32.ofNat cols.length).toNat = cols.length := by
    rw [UInt32.toNat_ofNat', Nat.mod_eq_of_lt (by omega)]
  obtain ⟨⟨sz', ncol'⟩, h1, h2⟩ := @measure_size cols ts h changes
    (UInt64.ofNat (8 + ValueBag.endOffset cols)) (UInt32.ofNat cols.length)
  have hncol : ncol' = UInt32.ofNat (assigned cols (indices changes)).length := by
    apply UInt32.toNat_inj.mp
    have hm := measure_ncol _ _ changes (fun a ha => (changes_lt hinc hfit ha).2) _ _ _ h1
    rw [hofNat, ValueBag.newNcol_eq _ hinc _ le_rfl (fun a _ ha => ha), ← assigned_length] at hm
    rw [hm, UInt32.toNat_ofNat', Nat.mod_eq_of_lt (by omega)]
  subst hncol
  have hbytes := @assigned_bytes cols changes hinc hfit
  set new := assigned cols (indices changes) with hnew
  have hofNat' : (UInt32.ofNat new.length).toNat = new.length := by
    rw [UInt32.toNat_ofNat', Nat.mod_eq_of_lt (by omega)]
  have hle : cols.length ≤ new.length := by
    rw [hnew, assigned_length]
    exact le_max_left _ _
  have hold := endOffset_eq cols
  have hnewEnd := endOffset_eq new
  have hf : ValueBag.endOffset cols < 2 ^ 16 := h
  have hf' : ValueBag.endOffset new < 2 ^ 16 := hfit
  have hsmall := sz'.toNat_lt
  simp only [UInt64.toNat_ofNat'] at h2
  rw [extent, h1, Option.map_some]
  simp only [hofNat']
  congr 2
  apply UInt64.toNat_inj.mp
  rw [UInt64.toNat_ofNat']
  split_ifs with hgrow
  · rw [UInt64.toNat_add, UInt64.toNat_ofNat']
    omega
  · omega

/-- The general case. -/
lemma rebuild_spec (h : ValueBag.Fits cols) {changes : List Assignment}
    (hinc : Increasing (indices changes))
    (hfit : ValueBag.Fits (assigned cols (indices changes))) (block : Bytes)
    (hblock : block.length = ValueBag.endOffset (assigned cols (indices changes))) :
    rebuild ⟨ts, encode cols⟩ block cols.length
        (UInt32.ofNat (assigned cols (indices changes)).length) changes
      = some ⟨encode (assigned cols (indices changes)), false⟩ := by
  have hloop := updateLoop_assigned hinc hfit
  have hlen := fits_length hfit
  set new := assigned cols (indices changes)
  have hend := endOffset_eq new
  have hf' : ValueBag.endOffset new < 2 ^ 16 := hfit
  have hofNat : (UInt32.ofNat new.length).toNat = new.length := by
    rw [UInt32.toNat_ofNat', Nat.mod_eq_of_lt (by omega)]
  have hstart := @Draft.storeOffset_start new.length block (by omega) (by omega)
  obtain ⟨-, hfill⟩ := @fill_spec cols ts false h (UInt32.ofNat new.length) changes [] new
    ((block.drop 2).take (2 * (new.length + 1))) ((block.drop 2).drop (2 * (new.length + 1))) 0 rfl
    (by rw [hofNat]; exact hloop)
    (by rw [List.length_take, List.length_drop, hofNat, List.length_nil]; omega)
    (by rw [List.length_drop, List.length_drop]; omega)
    (by rw [hofNat, List.flatten_nil, List.length_nil]; omega)
  rw [hofNat] at hfill
  rw [rebuild, hofNat, hstart, Option.bind_eq_bind, Option.bind_some]
  exact hfill

/-- One column is replaced by one of the same length. -/
lemma encode_set (cols : List Bytes) {i : ℕ} (hi : i < cols.length) (v : Bytes)
    (hv : v.length = (cols.getD i []).length) :
    poke (encode cols) (columnStart cols i) v = some (encode (cols.set i v)) := by
  rw [List.getD_eq_getElem?_getD, List.getElem?_eq_getElem hi, Option.getD_some] at hv
  have hcols : cols = cols.take i ++ cols[i] :: cols.drop (i + 1) := by
    rw [← List.drop_eq_getElem_cons hi, List.take_append_drop]
  have hset : cols.set i v = cols.take i ++ v :: cols.drop (i + 1) :=
    List.set_eq_take_append_cons_drop.trans (if_pos hi)
  have hlens : ∀ p, offsetsFrom p (cols.set i v) = offsetsFrom p cols := by
    intro p
    rw [hset]
    conv_rhs => rw [hcols]
    rw [offsetsFrom_append, offsetsFrom_append, offsetsFrom, offsetsFrom, hv]
  have hflat : cols.flatten
      = (cols.take i).flatten ++ cols[i] ++ (cols.drop (i + 1)).flatten := by
    refine (congrArg List.flatten hcols).trans ?_
    simp only [List.flatten_append, List.flatten_cons, List.append_assoc]
  have hflat' : (cols.set i v).flatten
      = (cols.take i).flatten ++ v ++ (cols.drop (i + 1)).flatten := by
    rw [hset]
    simp
  have hend : ValueBag.endOffset (cols.set i v) = ValueBag.endOffset cols := by
    rw [endOffset_eq, endOffset_eq, hflat, hflat', List.length_set]
    simp only [List.length_append, hv]
  set table := storedOffsets (offsetsFrom (4 + 2 * cols.length) cols ++ [ValueBag.endOffset cols])
    with htable
  have henc : encode cols = (storeLE 2 cols.length ++ table ++ (cols.take i).flatten)
      ++ cols[i] ++ (cols.drop (i + 1)).flatten := by
    rw [encode, hflat]
    simp only [List.append_assoc, htable]
  have henc' : encode (cols.set i v) = (storeLE 2 cols.length ++ table ++ (cols.take i).flatten)
      ++ v ++ (cols.drop (i + 1)).flatten := by
    rw [encode, hflat', List.length_set, hlens, hend]
    simp only [List.append_assoc, htable]
  rw [henc, henc']
  refine poke_append ?_ hv
  simp only [htable, List.length_append, storeLE_length, storedOffsets_length, offsetsFrom_length,
    List.length_singleton, columnStart]
  omega

lemma assigned_one {i : ℕ} (hi : i < cols.length) (v : Bytes) :
    assigned cols [(i, v)] = cols.set i v := by
  refine List.ext_getElem ?_ fun j h1 h2 => ?_
  · have : changedEnd [((i, v) : Change)] = i + 1 := rfl
    rw [assigned_length, List.length_set, this]
    omega
  · rw [List.length_set] at h2
    simp only [assigned, List.getElem_map, List.getElem_range, List.getElem_set, requested,
      Option.none_or, List.getD_eq_getElem?_getD, List.getElem?_eq_getElem h2]
    split_ifs <;> rfl

/-- **The small column.** -/
lemma replaceOne_spec (h : ValueBag.Fits cols) {c : UInt64} {v : Bytes} (hc : c.toNat < cols.length)
    (hv : v.length = (cols.getD c.toNat []).length) (block : Bytes)
    (hblock : block.length = ValueBag.endOffset cols) :
    replaceOne ⟨ts, encode cols⟩ block c v
      = some ⟨encode (assigned cols (plain [(c, v)])), false⟩ := by
  have hpeek : peek (encode cols) 0 block.length = some (encode cols) := by
    rw [peek, if_pos (by rw [encode_length]; omega), List.drop_zero, hblock, ← encode_length,
      List.take_length]
  have hpoke : poke block 0 (encode cols) = some (encode cols) := by
    rw [poke, if_pos (by rw [encode_length]; omega), List.take_zero, encode_length,
      List.drop_of_length_le (by omega), List.nil_append, List.append_nil]
  have hset := encode_set cols hc v hv
  rw [replaceOne, hpeek, Option.bind_eq_bind, Option.bind_some, Draft.copy, hpoke, Option.map_some,
    Option.bind_eq_bind, Option.bind_some, encode_pos h hc.le, Option.bind_eq_bind,
    Option.bind_some, Draft.copy, hset, Option.map_some]
  exact congrArg (fun d => some (Draft.mk (encode d) false)) (assigned_one hc v).symm

/-- One change that keeps the number of columns and the size keeps the length of its column. -/
lemma keeps_length {c : UInt64} {v : Bytes} (hinc : Increasing (indices [(c, v)]))
    (hfit : ValueBag.Fits (assigned cols (indices [(c, v)])))
    (hncol : (assigned cols (indices [(c, v)])).length = cols.length)
    (hsize : ValueBag.endOffset (assigned cols (indices [(c, v)])) = ValueBag.endOffset cols) :
    c.toUInt32.toNat < cols.length ∧ v.length = (cols.getD c.toUInt32.toNat []).length := by
  have hbytes := @assigned_bytes cols [(c, v)] hinc hfit
  have hcend : changedEnd (indices [(c, v)]) = c.toUInt32.toNat + 1 := rfl
  have hlen := assigned_length cols (indices [(c, v)])
  rw [hcend] at hlen
  have hc : c.toUInt32.toNat < cols.length := by omega
  have hrep : ValueBag.replaced cols (indices [(c, v)])
      = (cols.getD c.toUInt32.toNat []).length := by
    simp only [ValueBag.replaced, indices, List.map_cons, List.map_nil, List.sum_cons, if_pos hc]
    rfl
  have hbr : ValueBag.brought (indices [(c, v)]) = v.length := rfl
  rw [endOffset_eq, endOffset_eq] at hsize
  rw [hrep, hbr] at hbytes
  exact ⟨hc, by omega⟩

/-- The path for one small column reads `pos_` at the column itself, not at its low 32 bits. -/
def InTable (cols : List Bytes) (changes : List Assignment) : Prop :=
  ∀ c v, changes = [(c, v)] → c.toUInt32.toNat < cols.length →
    v.length = (cols.getD c.toUInt32.toNat []).length → v.length ≤ 16 → c.toNat < 2 ^ 32

lemma toUInt32_toNat {c : UInt64} (h : c.toNat < 2 ^ 32) : c.toUInt32.toNat = c.toNat := by
  rw [UInt64.toNat_toUInt32, Nat.mod_eq_of_lt h]

/-- **`update`**, whatever the new block held. -/
lemma updateDraft_spec (h : ValueBag.Fits cols) {changes : List Assignment}
    (hinc : Increasing (indices changes))
    (hfit : ValueBag.Fits (assigned cols (indices changes))) (htable : InTable cols changes)
    (init : ℕ → UInt8) :
    updateDraft init ⟨ts, encode cols⟩ changes
      = some ⟨encode (assigned cols (indices changes)), false⟩ := by
  have hlen := fits_length hfit
  have hf' : ValueBag.endOffset (assigned cols (indices changes)) < 2 ^ 16 := hfit
  have hext := @extent_spec cols ts h changes hinc hfit
  have hreb := fun block => @rebuild_spec cols ts h changes hinc hfit block
  set new := assigned cols (indices changes) with hnew
  have hsz : (UInt64.ofNat (8 + ValueBag.endOffset new)).toNat = 8 + ValueBag.endOffset new := by
    rw [UInt64.toNat_ofNat', Nat.mod_eq_of_lt (by omega)]
  have hofNat : (UInt32.ofNat new.length).toNat = new.length := by
    rw [UInt32.toNat_ofNat', Nat.mod_eq_of_lt (by omega)]
  have hblock : (allocate init (8 + ValueBag.endOffset new - 8)).length =
    ValueBag.endOffset new := by
    rw [allocate_length]
    omega
  rw [updateDraft, encode_ncol h, Option.bind_eq_bind, Option.bind_some, encode_size h,
    Option.bind_some, hext, Option.bind_eq_bind, Option.bind_some]
  simp only [hsz]
  rw [if_neg (by omega)]
  split
  · rename_i c v
    rw [hofNat]
    split_ifs with hfast
    · obtain ⟨h1, h2, h3⟩ := hfast
      obtain ⟨hc, hv⟩ := @keeps_length cols c v hinc hfit h1 (by rw [← hnew]; omega)
      have hidx := toUInt32_toNat (htable c v rfl hc hv h3)
      have hplain : plain [(c, v)] = indices [(c, v)] := by
        rw [plain, indices, List.map_cons, List.map_cons, hidx]
        rfl
      rw [hidx] at hc hv
      have hone := @replaceOne_spec cols ts h c v hc hv _ (hblock.trans (by omega))
      rw [hplain, ← hnew] at hone
      exact hone
    · exact hreb _ hblock
  · exact hreb _ hblock

/-! ## Columns that fit -/

/-- Columns that fit are the same for all loops. -/
lemma indices_eq_plain {changes : List Assignment} (hinc : Increasing (plain changes))
    (hfit : ValueBag.Fits (assigned cols (plain changes))) :
    indices changes = plain changes ∧ InTable cols changes := by
  have hsmall : ∀ a ∈ changes, a.1.toNat < 2 ^ 32 := by
    intro a ha
    have hlt : a.1.toNat < changedEnd (plain changes) := hinc.lt_changedEnd (List.mem_map_of_mem ha)
    have hlen := fits_length hfit
    rw [assigned_length] at hlen
    omega
  refine ⟨List.map_congr_left fun a ha => by rw [toUInt32_toNat (hsmall a ha)], ?_⟩
  rintro c v rfl - - -
  exact hsmall _ (List.mem_singleton_self _)

/-- `update` for changes with strictly increasing columns. -/
lemma update_plain (h : ValueBag.Fits cols) {changes : List Assignment}
    (hinc : Increasing (plain changes)) (hfit : ValueBag.Fits (assigned cols (plain changes)))
    (init : ℕ → UInt8) (ts' : UInt64) :
    update init ⟨ts, encode cols⟩ changes ts' =
      some ⟨ts', encode (assigned cols (plain changes))⟩ := by
  obtain ⟨heq, htable⟩ := indices_eq_plain hinc hfit
  rw [← heq] at hinc hfit ⊢
  rw [update, updateDraft_spec h hinc hfit htable]
  rfl

end Bag

end MasstreeLHM
