import Mathlib.Algebra.BigOperators.Group.List.Basic
import MasstreeLHM.Log.Endian

/-!
# Rows

`value_bag.hh` with 16-bit offsets, the row type of the server.  A row is its timestamp and its
columns.  `update` lays the new row out behind 16-bit offsets; a change that is not increasing in
its columns, and a row that the offsets cannot reach, leave the memory of the row, and are `none`.

This is the row as the log needs it, without its bytes.  `ValueBag.updateLoop` is the second loop of
`update` on the list of columns: runs of old columns and new values in between.  The row byte by
byte, and that it holds these columns, is the subject of `Rows/Bag` and `Rows/Update`.

Columns come as numbers of 64 bits out of a request.  The loops hold them in an `unsigned`, which is
`narrow`, but the path for one small column uses the number as it is.  `update_narrow` says that an
update does the same with columns of 32 bits, and `lt_of_update_one` that an update on that path has
named a column that the row has.
-/

namespace MasstreeLHM

/-- One column and its new value.  The column is a number of 64 bits, as `Json::as_u` gives it. -/
abbrev Change := ℕ × Bytes

/-- The columns as an `unsigned` holds them. -/
def narrow (changes : List Change) : List Change := changes.map fun c => (c.1 % 2 ^ 32, c.2)

lemma narrow_narrow (changes : List Change) : narrow (narrow changes) = narrow changes := by
  simp [narrow]

/-- `value_bag<uint16_t>`. -/
structure ValueBag where
  ts : UInt64
  cols : List Bytes
deriving Repr, DecidableEq

namespace ValueBag

/-- The offset behind the last column: `sizeof(bagdata)`, one more offset for each column, and
the columns themselves. -/
def endOffset (cols : List Bytes) : ℕ := 4 + 2 * cols.length + (cols.map List.length).sum

/-- Every offset fits its 16 bits. -/
def Fits (cols : List Bytes) : Prop := endOffset cols < 2 ^ 16

instance (cols : List Bytes) : Decidable (Fits cols) := inferInstanceAs (Decidable (_ < _))

/-- The number of columns after the changes, as the first loop of `update` finds it. -/
def newNcol (ncol : ℕ) : List Change → ℕ → ℕ
  | [], n => n
  | c :: cs, n => newNcol ncol cs (if c.1 < ncol then n else c.1 + 1)

/-- The columns of the old row from `col` up to `stop`; behind its end they are empty. -/
def oldColumns (cols : List Bytes) (col stop : ℕ) : List Bytes :=
  (List.range' col (stop - col)).map fun i => cols.getD i []

/-- The second loop of `update`, from column `col` on. -/
def updateLoop (cols : List Bytes) (ncol : ℕ) : ℕ → List Change → Option (List Bytes)
  | col, [] => if col ≤ ncol then some (oldColumns cols col ncol) else none
  | col, (this, val) :: rest =>
      -- the loop over empty columns only stops at `this`, and only `ncol` columns have offsets
      if this < col ∨ ncol < this then none
      else if this = ncol then some (oldColumns cols col ncol)
      else (updateLoop cols ncol (this + 1) rest).map
        fun new => oldColumns cols col this ++ val :: new

/-- `value_bag::update`. -/
def update (row : ValueBag) (changes : List Change) (ts : UInt64) : Option ValueBag :=
  let ncol := newNcol row.cols.length (narrow changes) row.cols.length
  if ¬ Fits row.cols then none
  else match changes with
    -- one small column of the same length is replaced in a copy of the row
    | [(idx, val)] =>
        if ncol = row.cols.length ∧ (row.cols.getD (idx % 2 ^ 32) []).length = val.length
            ∧ val.length ≤ 16 then
          -- `pos_` is indexed with all 64 bits of the column
          if idx < row.cols.length then some ⟨ts, row.cols.set idx val⟩ else none
        else match updateLoop row.cols ncol 0 (narrow changes) with
          | none => none
          | some cols => if Fits cols then some ⟨ts, cols⟩ else none
    | _ => match updateLoop row.cols ncol 0 (narrow changes) with
      | none => none
      | some cols => if Fits cols then some ⟨ts, cols⟩ else none

/-- `value_bag::create`. -/
def create (changes : List Change) (ts : UInt64) : Option ValueBag :=
  update ⟨0, []⟩ changes ts

/-- `value_bag::create1`.  The length of the one column is the difference of two 16-bit offsets. -/
def create1 (str : Bytes) (ts : UInt64) : ValueBag :=
  ⟨ts, [str.take (str.length % 2 ^ 16)]⟩

lemma update_ts {row row' : ValueBag} {changes : List Change} {ts : UInt64}
    (h : row.update changes ts = some row') : row'.ts = ts := by
  unfold update at h
  grind

/-- With columns of 32 bits an update does what it did with columns of 64 bits. -/
lemma update_narrow {row row' : ValueBag} {changes : List Change} {ts : UInt64}
    (h : row.update changes ts = some row') : row.update (narrow changes) ts = some row' := by
  have hnarrow := narrow_narrow changes
  match changes with
  | [(idx, val)] =>
      have hsmall : row.cols.length < 2 ^ 32 ∨ ¬ Fits row.cols := by
        rw [Fits, endOffset]
        omega
      simp only [update, narrow, List.map_cons, List.map_nil, Nat.mod_mod] at h ⊢
      split at h
      · cases h
      next hfits =>
      rw [if_neg hfits]
      split at h
      · next hone =>
          rw [if_pos hone]
          split at h
          · next hidx =>
              have hlt : idx % 2 ^ 32 = idx := Nat.mod_eq_of_lt
                (hidx.trans (hsmall.resolve_right fun h => hfits h))
              rw [hlt, if_pos hidx]
              exact h
          · cases h
      · next hone =>
          rw [if_neg hone]
          exact h
  | [] => exact h
  | a :: b :: rest =>
      have hcons : narrow (a :: b :: rest)
          = (a.1 % 2 ^ 32, a.2) :: (b.1 % 2 ^ 32, b.2) :: narrow rest := rfl
      rw [hcons] at hnarrow ⊢
      simp only [update, hcons, hnarrow] at h ⊢
      exact h

lemma create_narrow {row : ValueBag} {changes : List Change} {ts : UInt64}
    (h : create changes ts = some row) : create (narrow changes) ts = some row := update_narrow h

/-- A short column that is replaced by a value of its length is named with the columns that the
row has. -/
lemma lt_of_update_one {row row' : ValueBag} {idx : ℕ} {val : Bytes} {ts : UInt64}
    (h : row.update [(idx, val)] ts = some row') (hidx : idx % 2 ^ 32 < row.cols.length)
    (hlen : (row.cols.getD (idx % 2 ^ 32) []).length = val.length) (hshort : val.length ≤ 16) :
    idx < row.cols.length := by
  have hncol : newNcol row.cols.length (narrow [(idx, val)]) row.cols.length = row.cols.length := by
    simp only [narrow, newNcol, List.map_cons, List.map_nil, if_pos hidx]
  simp only [update, hncol, hlen, hshort, and_self, if_true] at h
  split at h
  · cases h
  · split at h
    · assumption
    · cases h

lemma create_ts {row : ValueBag} {changes : List Change} {ts : UInt64}
    (h : create changes ts = some row) : row.ts = ts := update_ts h

example : (ValueBag.mk 2 [[120]]).update [(2 ^ 32, [121])] 4 = none := by decide

end ValueBag

end MasstreeLHM
