import MasstreeLHM.Rows.Bag

/-!
# The layout of a row

A row with given columns is laid out in one way: `encode`.  The number of columns comes first, then
the offsets where the columns start and the last one ends, and then the columns themselves.  The
second half of the file reads such a row: `encode_ncol`, `encode_pos`, `encode_size` and
`encode_columnLength` give the numbers in its head, and **`encode_col`** gives back every column as
long as the offsets fit their 16 bits.  `columnStart` is where a column starts by the lengths of
those before it; all that is known of offsets is known of it.

While a row is filled in, its block has the number of columns, the offsets written so far, room for
the others, the columns written so far and room for the rest.  That is `partlyFilled`, with the two
unwritten parts as parameters, and `partlyFilled_encode` says that nothing but the row is left when
both are empty.
-/

namespace MasstreeLHM

/-- The offsets of columns that start at `p`. -/
def offsetsFrom : ℕ → List Bytes → List ℕ
  | _, [] => []
  | p, c :: cs => p :: offsetsFrom (p + c.length) cs

/-- Offsets as they are stored. -/
def storedOffsets (offs : List ℕ) : Bytes := offs.flatMap (storeLE 2)

/-- The bytes of a row behind its timestamp. -/
def encode (cols : List Bytes) : Bytes :=
  storeLE 2 cols.length
    ++ storedOffsets (offsetsFrom (4 + 2 * cols.length) cols ++ [ValueBag.endOffset cols])
    ++ cols.flatten

/-- A block that is being filled in. -/
def partlyFilled (n : ℕ) (offs : List ℕ) (gap data rest : Bytes) : Bytes :=
  storeLE 2 n ++ storedOffsets offs ++ gap ++ data ++ rest

@[simp] lemma offsetsFrom_length : ∀ p cols, (offsetsFrom p cols).length = cols.length
  | _, [] => rfl
  | p, c :: cs => by rw [offsetsFrom, List.length_cons, offsetsFrom_length, List.length_cons]

lemma offsetsFrom_append : ∀ p (cs ds : List Bytes),
    offsetsFrom p (cs ++ ds) = offsetsFrom p cs ++ offsetsFrom (p + cs.flatten.length) ds
  | p, [], ds => rfl
  | p, c :: cs, ds => by
      rw [List.cons_append, offsetsFrom, offsetsFrom_append, offsetsFrom, List.cons_append,
        List.flatten_cons, List.length_append, Nat.add_assoc]

lemma offsetsFrom_replicate : ∀ p count,
    offsetsFrom p (List.replicate count []) = List.replicate count p
  | _, 0 => rfl
  | p, count + 1 => by
      rw [List.replicate_succ, offsetsFrom, List.replicate_succ]
      exact congrArg (p :: ·) (offsetsFrom_replicate p count)

@[simp] lemma storedOffsets_length (offs : List ℕ) :
    (storedOffsets offs).length = 2 * offs.length := by
  induction offs with
  | nil => rfl
  | cons x xs ih =>
      rw [storedOffsets, List.flatMap_cons, List.length_append, storeLE_length, List.length_cons]
      change 2 + (storedOffsets xs).length = _
      omega

@[simp] lemma storedOffsets_append (xs ys : List ℕ) :
    storedOffsets (xs ++ ys) = storedOffsets xs ++ storedOffsets ys := List.flatMap_append

@[simp] lemma storedOffsets_singleton (x : ℕ) : storedOffsets [x] = storeLE 2 x :=
  List.flatMap_singleton _ _

lemma endOffset_eq (cols : List Bytes) :
    ValueBag.endOffset cols = 4 + 2 * cols.length + cols.flatten.length := by
  rw [ValueBag.endOffset, List.length_flatten]

@[simp] lemma encode_length (cols : List Bytes) :
    (encode cols).length = ValueBag.endOffset cols := by
  simp only [encode, List.length_append, storeLE_length, storedOffsets_length, offsetsFrom_length,
    List.length_singleton, endOffset_eq]
  omega

/-- When everything has been filled in. -/
lemma partlyFilled_encode (cols : List Bytes) :
    partlyFilled cols.length
      (offsetsFrom (4 + 2 * cols.length) cols ++ [ValueBag.endOffset cols]) [] cols.flatten []
      = encode cols := by
  simp only [partlyFilled, encode, List.append_nil]

/-! ## Reading -/

lemma valueLE_two {x : ℕ} (hx : x < 2 ^ 16) : valueLE (storeLE 2 x) = x := by
  rw [valueLE_storeLE, Nat.mod_eq_of_lt (show x < 256 ^ 2 by omega)]

/-- Where column `i` starts, or the last column ends. -/
def columnStart (cols : List Bytes) (i : ℕ) : ℕ :=
  4 + 2 * cols.length + (cols.take i).flatten.length

lemma columnStart_length (cols : List Bytes) :
    columnStart cols cols.length = ValueBag.endOffset cols := by
  rw [columnStart, List.take_length, endOffset_eq]

lemma columnStart_succ (cols : List Bytes) (i : ℕ) :
    columnStart cols (i + 1) = columnStart cols i + (cols.getD i []).length := by
  simp only [columnStart, List.getD_eq_getElem?_getD]
  by_cases hi : i < cols.length
  · rw [List.take_succ_eq_append_getElem hi, List.flatten_append, List.length_append,
      List.getElem?_eq_getElem hi]
    simp
    omega
  · rw [List.take_of_length_le (by omega), List.take_of_length_le (by omega),
      List.getElem?_eq_none (by omega)]
    simp

lemma columnStart_mono (cols : List Bytes) {i j : ℕ} (h : i ≤ j) :
    columnStart cols i ≤ columnStart cols j := by
  induction j, h using Nat.le_induction with
  | base => exact le_rfl
  | succ j _ ih =>
      rw [columnStart_succ]
      omega

lemma columnStart_le (cols : List Bytes) (i : ℕ) :
    columnStart cols i ≤ ValueBag.endOffset cols := by
  rcases le_total i cols.length with h | h
  · rw [← columnStart_length]
    exact columnStart_mono cols h
  · rw [columnStart, List.take_of_length_le h, endOffset_eq]

/-- The table of offsets around offset `i`. -/
lemma table_split (cols : List Bytes) {i : ℕ} (hi : i ≤ cols.length) :
    ∃ after, offsetsFrom (4 + 2 * cols.length) cols ++ [ValueBag.endOffset cols]
      = offsetsFrom (4 + 2 * cols.length) (cols.take i) ++ columnStart cols i :: after := by
  rcases hi.lt_or_eq with hlt | rfl
  · refine ⟨offsetsFrom (columnStart cols i + cols[i].length) (cols.drop (i + 1))
      ++ [ValueBag.endOffset cols], ?_⟩
    have hcols : cols.take i ++ cols[i] :: cols.drop (i + 1) = cols := by
      rw [← List.drop_eq_getElem_cons hlt, List.take_append_drop]
    have hoffs : offsetsFrom (4 + 2 * cols.length) cols
        = offsetsFrom (4 + 2 * cols.length) (cols.take i ++ cols[i] :: cols.drop (i + 1)) := by
      rw [hcols]
    rw [hoffs, offsetsFrom_append, offsetsFrom, List.append_assoc]
    rfl
  · exact ⟨[], by rw [List.take_length, columnStart_length]⟩

namespace Bag

variable {cols : List Bytes} {ts : UInt64}

lemma encode_ncol (h : ValueBag.Fits cols) : ncol ⟨ts, encode cols⟩ = some cols.length := by
  have hlt : cols.length < 2 ^ 16 := by
    have := endOffset_eq cols
    have hf : ValueBag.endOffset cols < 2 ^ 16 := h
    omega
  have hsplit : encode cols = [] ++ storeLE 2 cols.length ++ (storedOffsets
      (offsetsFrom (4 + 2 * cols.length) cols ++ [ValueBag.endOffset cols]) ++ cols.flatten) := by
    simp [encode]
  change (peek (encode cols) 0 2).map valueLE = _
  rw [hsplit, peek_append List.length_nil.symm (storeLE_length _ _).symm, Option.map_some,
    valueLE_two hlt]

lemma encode_pos (h : ValueBag.Fits cols) {i : ℕ} (hi : i ≤ cols.length) :
    pos ⟨ts, encode cols⟩ i = some (columnStart cols i) := by
  obtain ⟨after, ht⟩ := table_split cols hi
  have hlt : columnStart cols i < 2 ^ 16 := (columnStart_le cols i).trans_lt h
  have hsplit : encode cols
      = (storeLE 2 cols.length ++ storedOffsets (offsetsFrom (4 + 2 * cols.length) (cols.take i)))
        ++ storeLE 2 (columnStart cols i) ++ (storedOffsets after ++ cols.flatten) := by
    rw [encode, ht]
    simp [storedOffsets, List.flatMap_append, List.flatMap_cons]
  change (peek (encode cols) (2 + 2 * i) 2).map valueLE = _
  rw [hsplit, peek_append _ (storeLE_length _ _).symm, Option.map_some, valueLE_two hlt]
  simp only [List.length_append, storeLE_length, storedOffsets_length, offsetsFrom_length,
    List.length_take]
  omega

lemma encode_size (h : ValueBag.Fits cols) :
    size ⟨ts, encode cols⟩ = some (8 + ValueBag.endOffset cols) := by
  rw [size, encode_ncol h, Option.bind_eq_bind, Option.bind_some, encode_pos h le_rfl,
    columnStart_length]
  rfl

lemma encode_columnLength (h : ValueBag.Fits cols) {i : ℕ} (hi : i < cols.length) :
    columnLength ⟨ts, encode cols⟩ i = some (cols.getD i []).length := by
  have hf : ValueBag.endOffset cols < 2 ^ 16 := h
  have hs := columnStart_succ cols i
  have hle := columnStart_le cols (i + 1)
  rw [columnLength, encode_pos h hi.le, encode_pos h hi]
  change some ((columnStart cols (i + 1) + 2 ^ 16 - columnStart cols i) % 2 ^ 16) = _
  congr 1
  omega

/-- The columns from `i` up to `j` as they stand in the row. -/
lemma encode_peek (i j : ℕ) (hij : i ≤ j) :
    peek (encode cols) (columnStart cols i) (columnStart cols j - columnStart cols i)
      = some ((cols.take j).drop i).flatten := by
  have hsplit : cols = cols.take i ++ (cols.take j).drop i ++ cols.drop j := by
    have h1 : cols.take i ++ (cols.take j).drop i = cols.take j := by
      have h2 : (cols.take j).take i = cols.take i := by rw [List.take_take, min_eq_left hij]
      rw [← h2, List.take_append_drop]
    rw [h1, List.take_append_drop]
  have hflat : cols.flatten
      = (cols.take i).flatten ++ ((cols.take j).drop i).flatten ++ (cols.drop j).flatten := by
    rw [← List.flatten_append, ← List.flatten_append, ← hsplit]
  have henc : encode cols
      = (storeLE 2 cols.length
          ++ storedOffsets (offsetsFrom (4 + 2 * cols.length) cols ++ [ValueBag.endOffset cols])
          ++ (cols.take i).flatten)
        ++ ((cols.take j).drop i).flatten ++ (cols.drop j).flatten := by
    rw [encode, hflat]
    simp only [List.append_assoc]
  have hj : (cols.take j).flatten.length
      = (cols.take i).flatten.length + ((cols.take j).drop i).flatten.length := by
    have h2 : (cols.take j).take i = cols.take i := by rw [List.take_take, min_eq_left hij]
    conv_lhs => rw [← List.take_append_drop i (cols.take j)]
    rw [h2, List.flatten_append, List.length_append]
  rw [henc]
  refine peek_append ?_ ?_
  · simp only [List.length_append, storeLE_length, storedOffsets_length, offsetsFrom_length,
      List.length_singleton, columnStart]
    omega
  · simp only [columnStart]
    omega

lemma encode_col (h : ValueBag.Fits cols) (i : UInt32) :
    col ⟨ts, encode cols⟩ i = some (cols.getD i.toNat []) := by
  rw [col, encode_ncol h, Option.bind_eq_bind, Option.bind_some]
  split_ifs with hi
  · rw [encode_pos h hi.le, Option.bind_some, encode_columnLength h hi, Option.bind_some]
    have hs := columnStart_succ cols i.toNat
    have hp := @encode_peek cols i.toNat (i.toNat + 1) (Nat.le_succ _)
    rw [hs, Nat.add_sub_cancel_left, List.take_succ_eq_append_getElem hi,
      List.drop_left' (by rw [List.length_take]; omega)] at hp
    rw [hp, List.getD_eq_getElem?_getD, List.getElem?_eq_getElem hi]
    simp
  · rw [List.getD_eq_getElem?_getD, List.getElem?_eq_none (not_lt.mp hi), Option.getD_none]

lemma encode_rowString (h : ValueBag.Fits cols) :
    rowString ⟨ts, encode cols⟩ = some (encode cols) := by
  rw [rowString, encode_ncol h, Option.bind_eq_bind, Option.bind_some, encode_pos h le_rfl,
    columnStart_length, Option.bind_some, peek, encode_length, if_pos (by simp), List.drop_zero,
    ← encode_length, List.take_length]

end Bag

end MasstreeLHM
