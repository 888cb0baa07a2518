import MasstreeLHM.Rows.Histories

/-!
# The three row types

`value_array` and `value_versioned_array` keep a pointer for each column, null for an empty one.
Both are modelled with the integer types of the source (`toShort`, `toInt`, `toUnsigned`), and both
store their columns with the loop `storeColumns`.

An array that holds given columns is `pointers` of them, and `storeColumns_spec` says that the loop
stores the last value requested for each column.  From this come `ValueArray.update_spec` and
`VersionedArray.update_spec`.  They differ in one point: a versioned array that has room for the
changes is updated in place, and then its timestamp stays.

`Rows` is one row in all three representations.  `Hold` says that all three hold the same columns;
`create_hold` and `Hold.update` keep it along every history.  **`agree_iff_extending`** then counts
what a reader can see: number of columns, columns and timestamps agree after every update if and
only if no update is done in place.
-/

namespace MasstreeLHM

/-- `value_array::make_column`: an empty column is a null pointer. -/
def makeColumn (str : Bytes) : Option Bytes := if str.length ≠ 0 then some str else none

/-- A number stored in a `short`. -/
def toShort (x : ℤ) : ℤ := (x + 2 ^ 15) % 2 ^ 16 - 2 ^ 15

/-- A number stored in an `int`. -/
def toInt (x : ℤ) : ℤ := (x + 2 ^ 31) % 2 ^ 32 - 2 ^ 31

/-- A number converted to `unsigned`. -/
def toUnsigned (x : ℤ) : ℕ := (x % 2 ^ 32).toNat

/-- `col` of both array types, of an index converted to `unsigned`; a pointer outside the array is
`none`. -/
def columnOf (ncol : ℤ) (cols : List (Option Bytes)) (i : UInt32) : Option Bytes :=
  if i.toNat < toUnsigned ncol then (cols[i.toNat]?).map (·.getD []) else some []

/-- The loop that stores the new columns; `index` is the type of the index variable. -/
def storeColumns (index : UInt64 → ℕ) : List Assignment → List (Option Bytes) →
    Option (List (Option Bytes))
  | [], cols => some cols
  | (c, v) :: rest, cols =>
      if index c < cols.length then storeColumns index rest (cols.set (index c) (makeColumn v))
      else none

/-- `value_array`. -/
structure ValueArray where
  ts : UInt64
  ncol : ℤ
  cols : List (Option Bytes)
deriving Repr, DecidableEq

namespace ValueArray

/-- `col`. -/
def col (row : ValueArray) (i : UInt32) : Option Bytes := columnOf row.ncol row.cols i

/-- `update`.  `none` is a failed precondition or an access outside the array. -/
def update (row : ValueArray) (changes : List Assignment) (ts : UInt64) : Option ValueArray :=
  match changes.getLast? with
  | none => none
  | some last =>
      if ts < row.ts then none
      else
        let ncol := toUnsigned (max row.ncol (toInt last.1.toNat + 1))
        if row.cols.length < row.ncol.toNat ∨ ncol < row.ncol.toNat then none
        else
          (storeColumns UInt64.toNat changes
            (row.cols.take row.ncol.toNat ++ List.replicate (ncol - row.ncol.toNat) none)).map
            fun cols => ⟨ts, toShort ncol, cols⟩

/-- `create`. -/
def create (changes : List Assignment) (ts : UInt64) : Option ValueArray :=
  update ⟨0, 0, []⟩ changes ts

/-- `create1`. -/
def create1 (value : Bytes) (ts : UInt64) : ValueArray := ⟨ts, 1, [makeColumn value]⟩

end ValueArray

/-- `value_versioned_array`; `cols` are as many pointers as were allocated. -/
structure VersionedArray where
  ts : UInt64
  ver : UInt32
  ncol : ℤ
  ncolCap : ℤ
  cols : List (Option Bytes)
deriving Repr, DecidableEq

namespace VersionedArray

/-- `col`. -/
def col (row : VersionedArray) (i : UInt32) : Option Bytes := columnOf row.ncol row.cols i

/-- `rowversion::setdirty`. -/
def setdirty (v : UInt32) : UInt32 := v ||| 0x80000000

/-- `rowversion::clearandbump`. -/
def clearandbump (v : UInt32) : UInt32 := (v + 1) &&& 0x7fffffff

/-- `update`: the row that is returned, which is the old row itself if its capacity is enough. -/
def update (row : VersionedArray) (changes : List Assignment) (ts : UInt64) (alwaysCopy : Bool) :
    Option VersionedArray :=
  match changes.getLast? with
  | none => none
  | some last =>
      let ncol := toInt (last.1 + 1).toNat
      if row.ncolCap < ncol ∨ alwaysCopy then
        if row.cols.length < row.ncol.toNat ∨ ncol < row.ncol then none
        else
          -- the pointers that are not copied are cleared
          (storeColumns (fun c => c.toUInt32.toNat) changes
            (row.cols.take row.ncol.toNat ++ List.replicate (ncol - row.ncol).toNat none)).map
            fun cols => ⟨ts, 0, toShort ncol, toShort ncol, cols⟩
      else
        let cleared := if row.ncol < ncol then
          row.cols.take row.ncol.toNat ++ List.replicate (ncol - row.ncol).toNat none
            ++ row.cols.drop ncol.toNat else row.cols
        (storeColumns (fun c => c.toUInt32.toNat) changes cleared).map
          fun cols => { row with
            ver := clearandbump (setdirty row.ver)
            ncol := if row.ncol < ncol then toShort ncol else row.ncol
            cols := cols }

/-- `create`. -/
def create (changes : List Assignment) (ts : UInt64) : Option VersionedArray :=
  update ⟨0, 0, 0, 0, []⟩ changes ts true

/-- `create1`. -/
def create1 (value : Bytes) (ts : UInt64) : VersionedArray := ⟨ts, 0, 1, 1, [makeColumn value]⟩

end VersionedArray

/-! ## Arrays that hold given columns -/

/-- Pointers to given columns. -/
def pointers (cols : List Bytes) : List (Option Bytes) := cols.map makeColumn

lemma makeColumn_getD (c : Bytes) : (makeColumn c).getD [] = c := by
  rw [makeColumn]
  split_ifs with h
  · rfl
  · rw [not_not, List.length_eq_zero_iff] at h
    rw [h]
    rfl

lemma columnOf_pointers {cols : List Bytes} (h : cols.length < 2 ^ 15) (i : UInt32) :
    columnOf cols.length (pointers cols) i = some (cols.getD i.toNat []) := by
  have hn : toUnsigned (cols.length : ℤ) = cols.length := by
    rw [toUnsigned]
    omega
  rw [columnOf, hn, List.getD_eq_getElem?_getD]
  split_ifs with hi
  · rw [pointers, List.getElem?_map, List.getElem?_eq_getElem hi]
    exact congrArg some (makeColumn_getD _)
  · rw [List.getElem?_eq_none (not_lt.mp hi)]
    rfl

/-- The loop stores the last value requested for each column. -/
lemma storeColumns_spec (index : UInt64 → ℕ) (changes : List Assignment)
    (hindex : ∀ a ∈ changes, index a.1 = a.1.toNat) (n : ℕ) (f : ℕ → Bytes)
    (hlt : ∀ a ∈ changes, a.1.toNat < n) :
    storeColumns index changes ((List.range n).map fun i => makeColumn (f i))
      = some ((List.range n).map fun i =>
          makeColumn ((requested (Bag.plain changes) i).getD (f i))) := by
  induction changes generalizing f with
  | nil => rfl
  | cons a as ih =>
      have ha := hindex a List.mem_cons_self
      have hset : ((List.range n).map fun i => makeColumn (f i)).set a.1.toNat (makeColumn a.2)
          = (List.range n).map fun i => makeColumn (if a.1.toNat = i then a.2 else f i) := by
        refine List.ext_getElem (by simp) fun i h1 h2 => ?_
        rw [List.getElem_set, List.getElem_map, List.getElem_map, List.getElem_range]
        split_ifs <;> rfl
      rw [storeColumns, ha, if_pos (by simpa using hlt a List.mem_cons_self), hset,
        ih (fun b hb => hindex b (List.mem_cons_of_mem _ hb))
          (fun i => if a.1.toNat = i then a.2 else f i)
          (fun b hb => hlt b (List.mem_cons_of_mem _ hb))]
      congr 1
      refine List.map_congr_left fun i _ => ?_
      change makeColumn _ = makeColumn
        (((requested (Bag.plain as) i).or (if a.1.toNat = i then some a.2 else none)).getD (f i))
      cases requested (Bag.plain as) i with
      | some v => rfl
      | none =>
          rw [Option.none_or]
          split_ifs <;> rfl

/-- The pointers before the loop. -/
lemma pointers_padded (cols : List Bytes) {n : ℕ} (h : cols.length ≤ n) :
    pointers cols ++ List.replicate (n - cols.length) none
      = (List.range n).map fun i => makeColumn (cols.getD i []) := by
  refine List.ext_getElem (by simp [pointers]; omega) fun i h1 h2 => ?_
  rw [List.getElem_map, List.getElem_range, List.getElem_append]
  split_ifs with hi
  · rw [pointers, List.length_map] at hi
    simp only [pointers, List.getElem_map]
    rw [List.getD_eq_getElem?_getD, List.getElem?_eq_getElem hi, Option.getD_some]
  · rw [pointers, List.length_map] at hi
    rw [List.getElem_replicate, List.getD_eq_getElem?_getD, List.getElem?_eq_none (not_lt.mp hi)]
    rfl

/-- The loop makes of the old columns the new ones. -/
lemma storeColumns_assigned (index : UInt64 → ℕ) {cols : List Bytes} {changes : List Assignment}
    (hindex : ∀ a ∈ changes, index a.1 = a.1.toNat) (hinc : Increasing (Bag.plain changes)) :
    storeColumns index changes (pointers cols
        ++ List.replicate (max cols.length (changedEnd (Bag.plain changes)) - cols.length) none)
      = some (pointers (assigned cols (Bag.plain changes))) := by
  rw [pointers_padded cols (le_max_left _ _),
    storeColumns_spec index changes hindex _ _ (fun a ha => ?_)]
  · rw [pointers, assigned, List.map_map]
    rfl
  · exact (hinc.lt_changedEnd (List.mem_map_of_mem ha)).trans_le (le_max_right _ _)

/-- Changes that the array types can take: not empty, increasing, with columns below 32767. -/
structure Proper (changes : List Assignment) : Prop where
  nonempty : changes ≠ []
  increasing : Increasing (Bag.plain changes)
  small : ∀ a ∈ changes, a.1.toNat < 32767

lemma Proper.last {changes : List Assignment} (h : Proper changes) :
    ∃ last, changes.getLast? = some last ∧ last ∈ changes ∧
      changedEnd (Bag.plain changes) = last.1.toNat + 1 := by
  obtain ⟨last, hlast⟩ : ∃ last, changes.getLast? = some last :=
    ⟨_, List.getLast?_eq_some_getLast h.nonempty⟩
  refine ⟨last, hlast, List.mem_of_getLast? hlast, ?_⟩
  rw [changedEnd, Bag.plain, List.getLast?_map, hlast]
  rfl

lemma Proper.changedEnd_lt {changes : List Assignment} (h : Proper changes) :
    changedEnd (Bag.plain changes) < 2 ^ 15 := by
  obtain ⟨last, -, hmem, hend⟩ := h.last
  have := h.small last hmem
  omega

lemma ValueArray.update_spec {cols : List Bytes} {changes : List Assignment} {ts₀ ts : UInt64}
    (hcols : cols.length < 2 ^ 15) (h : Proper changes) (hts : ts₀ ≤ ts) :
    ValueArray.update ⟨ts₀, cols.length, pointers cols⟩ changes ts
      = some ⟨ts, (assigned cols (Bag.plain changes)).length,
          pointers (assigned cols (Bag.plain changes))⟩ := by
  obtain ⟨last, hlast, hmem, hend⟩ := h.last
  have hsmall := h.small last hmem
  have hncol : toUnsigned (max (cols.length : ℤ) (toInt last.1.toNat + 1))
      = max cols.length (changedEnd (Bag.plain changes)) := by
    have hint : toInt last.1.toNat = last.1.toNat := by
      rw [toInt]
      omega
    rw [hint, hend, toUnsigned]
    omega
  have hshort : toShort (max cols.length (changedEnd (Bag.plain changes)) : ℕ)
      = (max cols.length (changedEnd (Bag.plain changes)) : ℕ) := by
    rw [toShort]
    omega
  have hptr : (pointers cols).length = cols.length := List.length_map _
  have htake : (pointers cols).take cols.length = pointers cols := by rw [← hptr, List.take_length]
  have hstore := @storeColumns_assigned UInt64.toNat cols changes (fun _ _ => rfl) h.increasing
  rw [ValueArray.update, hlast]
  simp only [hncol, Int.toNat_natCast, hptr, htake]
  rw [if_neg (UInt64.not_lt.mpr hts), if_neg (by omega), hstore, Option.map_some, hshort,
    assigned_length]

/-- A row that is updated in place keeps its timestamp. -/
lemma VersionedArray.update_spec {cols : List Bytes} {changes : List Assignment} (ts₀ ts : UInt64)
    (ver : UInt32) (alwaysCopy : Bool) (h : Proper changes)
    (hcopy : alwaysCopy = true → cols = []) :
    ∃ ver', VersionedArray.update ⟨ts₀, ver, cols.length, cols.length, pointers cols⟩ changes ts
        alwaysCopy
      = some ⟨if cols.length < changedEnd (Bag.plain changes) then ts else ts₀, ver',
          (assigned cols (Bag.plain changes)).length, (assigned cols (Bag.plain changes)).length,
          pointers (assigned cols (Bag.plain changes))⟩ := by
  obtain ⟨last, hlast, hmem, hend⟩ := h.last
  have hsmall := h.small last hmem
  have hncol : toInt ((last.1 + 1).toNat : ℤ) = (changedEnd (Bag.plain changes) : ℕ) := by
    have hadd : (last.1 + 1).toNat = last.1.toNat + 1 := by
      rw [UInt64.toNat_add]
      exact Nat.mod_eq_of_lt (by simp; omega)
    rw [hadd, hend, toInt]
    omega
  have hindex : ∀ a ∈ changes, a.1.toUInt32.toNat = a.1.toNat := fun a ha => by
    have := h.small a ha
    rw [UInt64.toNat_toUInt32, Nat.mod_eq_of_lt (by omega)]
  have hptr : (pointers cols).length = cols.length := List.length_map _
  have htake : (pointers cols).take cols.length = pointers cols := by rw [← hptr, List.take_length]
  have hstore := @storeColumns_assigned (fun c => c.toUInt32.toNat) cols changes hindex h.increasing
  have hlt := h.changedEnd_lt
  set stop := changedEnd (Bag.plain changes) with hstop
  rw [VersionedArray.update, hlast]
  simp only [hncol, Int.toNat_natCast, hptr, htake, assigned_length, Nat.cast_lt]
  by_cases hgrow : cols.length < stop
  · have hmax : max cols.length stop = stop := max_eq_right hgrow.le
    have hpad : ((stop : ℤ) - (cols.length : ℕ)).toNat = stop - cols.length := by omega
    have hshort : toShort (stop : ℕ) = (stop : ℕ) := by
      rw [toShort]
      omega
    rw [hmax] at hstore
    rw [if_pos (Or.inl hgrow), if_neg (by omega), hpad, hstore, Option.map_some, hshort,
      if_pos hgrow, hmax]
    exact ⟨0, rfl⟩
  · have hmax : max cols.length stop = cols.length := max_eq_left (not_lt.mp hgrow)
    rw [hmax, Nat.sub_self, List.replicate_zero, List.append_nil] at hstore
    have hnocopy : alwaysCopy = false := by
      rw [Bool.eq_false_iff]
      intro hc
      rw [hcopy hc] at hgrow
      exact hgrow (by rw [hend]; exact Nat.succ_pos _)
    rw [if_neg (by rw [hnocopy]; simpa using hgrow), if_neg hgrow, if_neg hgrow, hstore,
      Option.map_some, if_neg hgrow, hmax]
    exact ⟨_, rfl⟩

/-! ## Three rows side by side -/

/-- The same row in the three representations. -/
structure Rows where
  bag : Bag
  array : ValueArray
  versioned : VersionedArray
deriving Repr, DecidableEq

/-- How a row is made. -/
inductive Creation where
  | create (changes : List Assignment)
  | create1 (value : Bytes)
deriving Repr, DecidableEq

/-- An update.  `init` is what new memory holds. -/
structure RowUpdate where
  changes : List Assignment
  ts : UInt64
  init : ℕ → UInt8

namespace Rows

/-- Make a row three times. -/
def create (init : ℕ → UInt8) (ts : UInt64) : Creation → Option Rows
  | .create changes => do
      let bag ← Bag.create init changes ts
      let array ← ValueArray.create changes ts
      let versioned ← VersionedArray.create changes ts
      some ⟨bag, array, versioned⟩
  | .create1 value => do
      let bag ← Bag.create1 init value ts
      some ⟨bag, ValueArray.create1 value ts, VersionedArray.create1 value ts⟩

/-- Update all three. -/
def update (r : Rows) (u : RowUpdate) : Option Rows := do
  let bag ← r.bag.update u.init u.changes u.ts
  let array ← r.array.update u.changes u.ts
  let versioned ← r.versioned.update u.changes u.ts false
  some ⟨bag, array, versioned⟩

/-- `ncol`, `col` and `timestamp` agree, and the timestamp is `ts`. -/
structure Agree (r : Rows) (ts : UInt64) : Prop where
  ncol : ∃ n : ℕ, r.bag.ncol = some n ∧ r.array.ncol = n ∧ r.versioned.ncol = n
  col : ∀ i, ∃ c, r.bag.col i = some c ∧ r.array.col i = some c ∧ r.versioned.col i = some c
  timestamp : r.bag.ts = ts ∧ r.array.ts = ts ∧ r.versioned.ts = ts

/-- The rows agree after every update. -/
def AgreeAlong : Rows → List RowUpdate → Prop
  | _, [] => True
  | r, u :: us => ∃ r', r.update u = some r' ∧ r'.Agree u.ts ∧ AgreeAlong r' us

/-- The columns that a creation makes. -/
def made : Creation → List Bytes
  | .create changes => assigned [] (Bag.plain changes)
  | .create1 value => [value]

/-- A creation that all three can do. -/
def Allowed : Creation → Prop
  | .create changes => Proper changes ∧ ValueBag.Fits (assigned [] (Bag.plain changes))
  | .create1 value => ValueBag.Fits [value]

/-- Updates with increasing timestamps that all three can do, from columns `cols` on. -/
def AllowedAlong : List Bytes → UInt64 → List RowUpdate → Prop
  | _, _, [] => True
  | cols, ts, u :: us =>
      Proper u.changes ∧ ts < u.ts ∧ ValueBag.Fits (assigned cols (Bag.plain u.changes)) ∧
        AllowedAlong (assigned cols (Bag.plain u.changes)) u.ts us

/-- Every update changes a column behind the last one. -/
def Extending : ℕ → List RowUpdate → Prop
  | _, [] => True
  | n, u :: us =>
      n < changedEnd (Bag.plain u.changes) ∧ Extending (changedEnd (Bag.plain u.changes)) us

/-- Three rows that hold the same columns. -/
structure Hold (r : Rows) (cols : List Bytes) (ts : UInt64) : Prop where
  bag : r.bag = ⟨ts, encode cols⟩
  array : r.array = ⟨ts, cols.length, pointers cols⟩
  versioned : ∃ ts' ver, r.versioned = ⟨ts', ver, cols.length, cols.length, pointers cols⟩ ∧
    ts' ≤ ts
  fits : ValueBag.Fits cols

lemma Hold.small {r : Rows} {cols : List Bytes} {ts : UInt64} (h : r.Hold cols ts) :
    cols.length < 2 ^ 15 := by
  have := Bag.fits_length h.fits
  omega

/-- They agree if the timestamp of the third is not out of date. -/
lemma Hold.agree_iff {r : Rows} {cols : List Bytes} {ts : UInt64} (h : r.Hold cols ts) :
    r.Agree ts ↔ r.versioned.ts = ts := by
  refine ⟨fun ha => ha.timestamp.2.2, fun hts => ?_⟩
  obtain ⟨ts', ver, hver, -⟩ := h.versioned
  refine ⟨⟨cols.length, ?_, ?_, ?_⟩, fun i => ⟨cols.getD i.toNat [], ?_, ?_, ?_⟩, ?_, ?_, hts⟩
  · rw [h.bag, Bag.encode_ncol h.fits]
  · rw [h.array]
  · rw [hver]
  · rw [h.bag, Bag.encode_col h.fits]
  · rw [h.array]
    exact columnOf_pointers h.small i
  · rw [hver]
    exact columnOf_pointers h.small i
  · rw [h.bag]
  · rw [h.array]

lemma create_hold (init : ℕ → UInt8) (ts : UInt64) (c : Creation) (hc : Allowed c) :
    ∃ r, create init ts c = some r ∧ r.Hold (made c) ts ∧ r.versioned.ts = ts := by
  cases c with
  | create changes =>
      obtain ⟨hp, hfit⟩ := hc
      have hbag : Bag.create init changes ts
          = some ⟨ts, encode (assigned [] (Bag.plain changes))⟩ := by
        rw [Bag.create, Bag.empty_eq, Bag.update_plain (by decide) hp.increasing hfit]
      have harray := @ValueArray.update_spec [] changes 0 ts (by decide) hp
        (UInt64.le_iff_toNat_le.mpr (Nat.zero_le _))
      obtain ⟨ver, hver⟩ :=
        @VersionedArray.update_spec [] changes 0 ts 0 true hp (fun _ => rfl)
      have hpos : ([] : List Bytes).length < changedEnd (Bag.plain changes) := by
        obtain ⟨last, -, -, hend⟩ := hp.last
        rw [hend]
        exact Nat.succ_pos _
      rw [if_pos hpos] at hver
      refine ⟨⟨_, _, _⟩, ?_, ⟨rfl, rfl, ⟨ts, ver, rfl, UInt64.le_refl ts⟩, hfit⟩, rfl⟩
      rw [create, hbag, ValueArray.create, VersionedArray.create]
      change (ValueArray.update ⟨0, (([] : List Bytes).length : ℕ), pointers []⟩ changes ts).bind
        (fun a => (VersionedArray.update ⟨0, 0, (([] : List Bytes).length : ℕ),
          (([] : List Bytes).length : ℕ), pointers []⟩ changes ts true).bind _) = _
      rw [harray, Option.bind_some, hver]
      rfl
  | create1 value =>
      have hend : ValueBag.endOffset [value] = 6 + value.length := by
        rw [endOffset_eq, List.flatten_singleton]
        rfl
      have hlt : ValueBag.endOffset [value] < 2 ^ 16 := hc
      obtain ⟨hbag, hfit⟩ := @Bag.create1_spec init value ts (by omega)
      refine ⟨⟨_, _, _⟩, ?_, ⟨rfl, rfl, ⟨ts, 0, rfl, UInt64.le_refl ts⟩, hfit⟩, rfl⟩
      rw [create, hbag]
      rfl

/-- **One update.** -/
lemma Hold.update {r : Rows} {cols : List Bytes} {ts : UInt64} (h : r.Hold cols ts) (u : RowUpdate)
    (hp : Proper u.changes) (hts : ts < u.ts)
    (hfit : ValueBag.Fits (assigned cols (Bag.plain u.changes))) :
    ∃ r', r.update u = some r' ∧ r'.Hold (assigned cols (Bag.plain u.changes)) u.ts ∧
      (r'.versioned.ts = u.ts ↔ cols.length < changedEnd (Bag.plain u.changes)) := by
  obtain ⟨ts', ver, hver, hle⟩ := h.versioned
  have hbag : r.bag.update u.init u.changes u.ts
      = some ⟨u.ts, encode (assigned cols (Bag.plain u.changes))⟩ := by
    rw [h.bag, Bag.update_plain h.fits hp.increasing hfit]
  have harray := @ValueArray.update_spec cols u.changes ts u.ts h.small hp (UInt64.le_of_lt hts)
  obtain ⟨ver', hversioned⟩ :=
    @VersionedArray.update_spec cols u.changes ts' u.ts ver false hp (fun hf => by cases hf)
  set stamp := if cols.length < changedEnd (Bag.plain u.changes) then u.ts else ts' with hstamp
  set new := assigned cols (Bag.plain u.changes) with hnew
  refine ⟨⟨⟨u.ts, encode new⟩, ⟨u.ts, new.length, pointers new⟩,
    ⟨stamp, ver', new.length, new.length, pointers new⟩⟩, ?_,
    ⟨rfl, rfl, ⟨stamp, ver', rfl, ?_⟩, hfit⟩, ?_⟩
  · rw [Rows.update, hbag, h.array, hver, harray, hversioned]
    rfl
  · rw [hstamp]
    split_ifs
    · exact UInt64.le_refl _
    · exact UInt64.le_trans hle (UInt64.le_of_lt hts)
  · change stamp = u.ts ↔ _
    rw [hstamp]
    split_ifs with hgrow
    · exact ⟨fun _ => hgrow, fun _ => rfl⟩
    · exact ⟨fun heq => absurd (heq ▸ hle) (UInt64.not_le.mpr hts), fun hg => absurd hg hgrow⟩

lemma Hold.agreeAlong_iff {r : Rows} {cols : List Bytes} {ts : UInt64} (h : r.Hold cols ts)
    (us : List RowUpdate) (hus : AllowedAlong cols ts us) :
    AgreeAlong r us ↔ Extending cols.length us := by
  induction us generalizing r cols ts with
  | nil => exact Iff.rfl
  | cons u us ih =>
      obtain ⟨hp, hts, hfit, hrest⟩ := hus
      obtain ⟨r', hr', hhold, hstamp⟩ := h.update u hp hts hfit
      have hlen : cols.length < changedEnd (Bag.plain u.changes) →
          (assigned cols (Bag.plain u.changes)).length = changedEnd (Bag.plain u.changes) := by
        intro hgrow
        rw [assigned_length, max_eq_right hgrow.le]
      constructor
      · rintro ⟨r'', hr'', hagree, halong⟩
        rw [hr'] at hr''
        cases hr''
        have hgrow := hstamp.mp (hhold.agree_iff.mp hagree)
        refine ⟨hgrow, ?_⟩
        rw [← hlen hgrow]
        exact (ih hhold hrest).mp halong
      · rintro ⟨hgrow, hextending⟩
        rw [← hlen hgrow] at hextending
        exact ⟨r', hr', hhold.agree_iff.mpr (hstamp.mpr hgrow), (ih hhold hrest).mpr hextending⟩

/-- **The three row types agree after every step of a history if and only if every update changes a
column behind the last one**: only then does `value_versioned_array` make a new row. -/
theorem agree_iff_extending (init : ℕ → UInt8) (ts : UInt64) (c : Creation) (hc : Allowed c)
    (us : List RowUpdate) (hus : AllowedAlong (made c) ts us) :
    (∃ r, create init ts c = some r ∧ r.Agree ts ∧ AgreeAlong r us)
      ↔ Extending (made c).length us := by
  obtain ⟨r, hr, hhold, hstamp⟩ := create_hold init ts c hc
  constructor
  · rintro ⟨r', hr', -, halong⟩
    rw [hr] at hr'
    cases hr'
    exact (hhold.agreeAlong_iff us hus).mp halong
  · intro hextending
    exact ⟨r, hr, hhold.agree_iff.mpr hstamp, (hhold.agreeAlong_iff us hus).mpr hextending⟩

/-- A second column behind the first one. -/
theorem agree_iff_extending_secondColumn :
    (∃ r, create (fun _ => 0) 2 (.create1 [120]) = some r ∧ r.Agree 2 ∧
      AgreeAlong r [⟨[(1, [121])], 4, fun _ => 0⟩]) := by
  have hp : Proper [(1, [121])] := ⟨by decide, by decide, by decide⟩
  refine (agree_iff_extending (fun _ => 0) 2 (.create1 [120]) (by change ValueBag.Fits _; decide)
    [⟨[(1, [121])], 4, fun _ => 0⟩] ⟨hp, by decide, by decide, trivial⟩).mpr ?_
  exact ⟨by decide, trivial⟩

/-- The first column is replaced in place, and the timestamp stays. -/
theorem not_agree_inPlace :
    Allowed (.create1 [120]) ∧ AllowedAlong [[120]] 2 [⟨[(0, [121])], 4, fun _ => 0⟩] ∧
      ¬ ∃ r, create (fun _ => 0) 2 (.create1 [120]) = some r ∧ r.Agree 2 ∧
        AgreeAlong r [⟨[(0, [121])], 4, fun _ => 0⟩] := by
  have hc : Allowed (.create1 [120]) := by
    change ValueBag.Fits _
    decide
  have hp : Proper [(0, [121])] := ⟨by decide, by decide, by decide⟩
  have hus : AllowedAlong [[120]] 2 [⟨[(0, [121])], 4, fun _ => 0⟩] :=
    ⟨hp, by decide, by decide, trivial⟩
  refine ⟨hc, hus, ?_⟩
  rintro ⟨r, hr, -, r', hr', hagree, -⟩
  obtain ⟨r₀, hr₀, hhold, -⟩ := create_hold (fun _ => 0) 2 (.create1 [120]) hc
  rw [hr₀] at hr
  cases hr
  obtain ⟨r₁, hr₁, hhold₁, hstamp⟩ := hhold.update _ hp (by decide) hus.2.2.1
  rw [hr₁] at hr'
  cases hr'
  have hgrow := hstamp.mp (hhold₁.agree_iff.mp hagree)
  exact absurd hgrow (by decide)

end Rows

end MasstreeLHM
