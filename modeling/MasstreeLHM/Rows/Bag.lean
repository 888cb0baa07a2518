import MasstreeLHM.Rows.Memory
import MasstreeLHM.Log.ValueBag
import MasstreeLHM.Log.Msgpack

/-!
# Rows in memory

`value_bag<uint16_t>` of `value_bag.hh`, byte by byte: the union `d_` starts with `ncol_`, the table
`pos_` follows, and an offset counts from the start of the union.

`Bag` is a row with the block that was allocated for it, and `Draft` is a row that is being filled
in.  The definitions follow `update` line by line.  `measure` is its first loop, which finds the
size of the new row.  `replaceOne` is the short way for one small column that keeps its length.
`rebuild` is the general case: `fill` runs the second loop, whose parts are `copyOld`, `markEmpty`
and `fillTo`.  Counters have the widths of the source: `idx` and `this_col` are 32 bits, an
`offset_type` is 16, and a size that has wrapped below zero is an allocation of almost 2^64 bytes.

Nothing is assumed of the changes here.  An access outside a block is `none`, and the flag `wrapped`
of a `Draft` records that a number did not fit the field that it was stored in.
-/

namespace MasstreeLHM

/-- A column and its new value in a request: `it[0].as_u()` and `it[1].as_s()`. -/
abbrev Assignment := UInt64 × Bytes

/-- A row: `ts_`, and the bytes allocated behind it. -/
structure Bag where
  ts : UInt64
  d : Bytes
deriving Repr, DecidableEq

/-- A row that is being filled in; `wrapped` is set when a number does not fit the field that it is
stored in. -/
structure Draft where
  d : Bytes
  wrapped : Bool
deriving Repr, DecidableEq

namespace Draft

/-- Store a number of the type `offset_type`. -/
def storeOffset (w : Draft) (p : ℕ) (x : ℤ) : Option Draft :=
  (poke w.d p (storeLE 2 (x % 2 ^ 16).toNat)).map
    fun d => ⟨d, w.wrapped || !decide (0 ≤ x ∧ x < 2 ^ 16)⟩

/-- Store `pos_[i]`. -/
def storePos (w : Draft) (i : ℕ) (x : ℤ) : Option Draft := w.storeOffset (2 + 2 * i) x

/-- `memcpy` to position `p`. -/
def copy (w : Draft) (p : ℕ) (bs : Bytes) : Option Draft :=
  (poke w.d p bs).map fun d => ⟨d, w.wrapped⟩

end Draft

namespace Bag

/-- `d_.ncol_`. -/
def ncol (row : Bag) : Option ℕ := (peek row.d 0 2).map valueLE

/-- `d_.pos_[i]`. -/
def pos (row : Bag) (i : ℕ) : Option ℕ := (peek row.d (2 + 2 * i) 2).map valueLE

/-- `size`. -/
def size (row : Bag) : Option ℕ := do
  let n ← row.ncol
  let p ← row.pos n
  some (8 + p)

/-- How many bytes were allocated for the row. -/
def allocated (row : Bag) : ℕ := 8 + row.d.length

/-- `column_length`; `offset_type` has 16 bits. -/
def columnLength (row : Bag) (i : ℕ) : Option ℕ := do
  let p ← row.pos i
  let q ← row.pos (i + 1)
  some ((q + 2 ^ 16 - p) % 2 ^ 16)

/-- `col`, of an index converted to `unsigned`. -/
def col (row : Bag) (i : UInt32) : Option Bytes := do
  let n ← row.ncol
  if i.toNat < n then
    let p ← row.pos i.toNat
    let len ← row.columnLength i.toNat
    peek row.d p len
  else some []

/-- `row_string`. -/
def rowString (row : Bag) : Option Bytes := do
  let n ← row.ncol
  let p ← row.pos n
  peek row.d 0 p

/-! ## `update` -/

/-- The first loop: the size of the new row, but for new offsets, and the number of its columns. -/
def measure (row : Bag) (n : ℕ) : List Assignment → UInt64 → UInt32 → Option (UInt64 × UInt32)
  | [], sz, ncol => some (sz, ncol)
  | (c, v) :: rest, sz, ncol =>
      let idx := c.toUInt32
      let sz := sz + UInt64.ofNat v.length
      if idx.toNat < n then
        match row.columnLength idx.toNat with
        | none => none
        | some len => measure row n rest (sz - UInt64.ofNat len) ncol
      else measure row n rest sz (idx + 1)

/-- The offsets of the columns from `col` on, `count` of them, moved by `delta`. -/
def moveOffsets (row : Bag) (delta : ℤ) : ℕ → ℕ → Draft → Option Draft
  | 0, _, w => some w
  | count + 1, col, w => do
      let p ← row.pos col
      let w ← w.storePos col (p + delta)
      moveOffsets row delta count (col + 1) w

/-- The offsets of the columns from `col` up to `endCol`; the first one, `p`, becomes `sz`. -/
def copyOffsets (row : Bag) (endCol col : UInt32) (p sz : ℕ) (w : Draft) : Option Draft :=
  if sz = p then do
    let table ← peek row.d (2 + 2 * col.toNat) (2 * (endCol - col).toNat)
    w.copy (2 + 2 * col.toNat) table
  else moveOffsets row ((sz : ℤ) - p) (endCol.toNat - col.toNat) col.toNat w

/-- Copy the columns of the old row, which has `n`, from `col` up to `thisCol`: the next column, the
next free position and the new row. -/
def copyOld (row : Bag) (n : ℕ) (thisCol col : UInt32) (sz : ℕ) (w : Draft) :
    Option (UInt32 × ℕ × Draft) :=
  if col ≠ thisCol ∧ col.toNat < n then do
    let endCol := min thisCol (UInt32.ofNat n)
    let p ← row.pos col.toNat
    let w ← row.copyOffsets endCol col p sz w
    let q ← row.pos endCol.toNat
    -- a negative `amt` is a `size_t` past every row
    if q < p then none
    else
      let bs ← peek row.d p (q - p)
      let w ← w.copy sz bs
      some (endCol, sz + (q - p), w)
  else some (col, sz, w)

/-- Mark columns as empty until `col` is `this_col`, which is `count` columns away. -/
def markEmpty (sz : ℕ) : ℕ → UInt32 → Draft → Option Draft
  | 0, _, w => some w
  | count + 1, col, w => do
      let w ← w.storePos col.toNat sz
      markEmpty sz count (col + 1) w

/-- The columns up to `thisCol`: the next free position and the new row. -/
def fillTo (row : Bag) (n : ℕ) (thisCol col : UInt32) (sz : ℕ) (w : Draft) : Option (ℕ × Draft) :=
  do
  let (col, sz, w) ← row.copyOld n thisCol col sz w
  let w ← markEmpty sz (thisCol - col).toNat col w
  some (sz, w)

/-- The second loop, and the last offset. -/
def fill (row : Bag) (n : ℕ) (ncol : UInt32) : List Assignment → UInt32 → ℕ → Draft → Option Draft
  | [], col, sz, w => do
      let (sz, w) ← row.fillTo n ncol col sz w
      w.storePos ncol.toNat sz
  | (c, v) :: rest, col, sz, w => do
      let (sz, w) ← row.fillTo n c.toUInt32 col sz w
      if c.toUInt32 = ncol then w.storePos ncol.toNat sz
      else
        let w ← w.storePos c.toUInt32.toNat sz
        let w ← w.copy sz v
        fill row n ncol rest (c.toUInt32 + 1) (sz + v.length) w

/-- The new row when one small column keeps its length. -/
def replaceOne (row : Bag) (block : Bytes) (c : UInt64) (v : Bytes) : Option Draft := do
  let old ← peek row.d 0 block.length
  let w ← Draft.copy ⟨block, false⟩ 0 old
  let p ← row.pos c.toNat
  w.copy p v

/-- The new row in the general case. -/
def rebuild (row : Bag) (block : Bytes) (n : ℕ) (ncol : UInt32) (changes : List Assignment) :
    Option Draft := do
  let w ← Draft.storeOffset ⟨block, false⟩ 0 ncol.toNat
  fill row n ncol changes 0 (4 + 2 * ncol.toNat) w

/-- The size and the number of columns of the new row. -/
def extent (row : Bag) (n size : ℕ) (changes : List Assignment) : Option (UInt64 × UInt32) :=
  (row.measure n changes (UInt64.ofNat size) (UInt32.ofNat n)).map fun (sz, ncol) =>
    (if n < ncol.toNat then sz + UInt64.ofNat (2 * (ncol.toNat - n)) else sz, ncol)

/-- `update`, without the timestamp.  The new block holds what `init` says.  An allocation of `2 ^
63` bytes or more fails, and the null pointer is written to. -/
def updateDraft (init : ℕ → UInt8) (row : Bag) (changes : List Assignment) : Option Draft := do
  let n ← row.ncol
  let size ← row.size
  let (sz, ncol) ← row.extent n size changes
  -- `ts_` itself must fit
  if sz.toNat < 8 ∨ 2 ^ 63 ≤ sz.toNat then none
  else
    let block := allocate init (sz.toNat - 8)
    match changes with
    | [(c, v)] =>
        if ncol.toNat = n ∧ sz.toNat = size ∧ v.length ≤ 16 then row.replaceOne block c v
        else row.rebuild block n ncol changes
    | _ => row.rebuild block n ncol changes

/-- `update`. -/
def update (init : ℕ → UInt8) (row : Bag) (changes : List Assignment) (ts : UInt64) : Option Bag :=
  (row.updateDraft init changes).map fun w => ⟨ts, w.d⟩

/-- `value_bag()`. -/
def empty : Bag := ⟨0, storeLE 2 0 ++ storeLE 2 4⟩

/-- `create`. -/
def create (init : ℕ → UInt8) (changes : List Assignment) (ts : UInt64) : Option Bag :=
  empty.update init changes ts

/-- `create1`, without the timestamp. -/
def create1Draft (init : ℕ → UInt8) (str : Bytes) : Option Draft := do
  let w ← Draft.storeOffset ⟨allocate init (4 + 2 + str.length), false⟩ 0 1
  let w ← w.storePos 0 6
  let w ← w.storePos 1 (6 + str.length)
  w.copy 6 str

/-- `create1`. -/
def create1 (init : ℕ → UInt8) (str : Bytes) (ts : UInt64) : Option Bag :=
  (create1Draft init str).map fun w => ⟨ts, w.d⟩

/-- `checkpoint_write`. -/
def checkpointWrite (row : Bag) : Option Bytes := row.rowString.map Msgpack.writeString

/-- `checkpoint_read`: the row, and what is left of the input. -/
def checkpointRead (init : ℕ → UInt8) (par : Bytes) (ts : UInt64) : Option (Bag × Bytes) := do
  let (value, par) ← Msgpack.readStr par
  let d ← poke (allocate init value.length) 0 value
  some (⟨ts, d⟩, par)

end Bag

end MasstreeLHM
