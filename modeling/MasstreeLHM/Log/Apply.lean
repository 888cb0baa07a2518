import MasstreeLHM.Log.Msgpack
import MasstreeLHM.Log.Record
import MasstreeLHM.Log.ValueBag

/-!
# Applying log records to rows

`logrecord::run` and `logrecord::apply`.  What a key's value pointer leads to while logs are
replayed is a list of delta markers, linked by `prev_`, in front of an ordinary row or a null
pointer.  A marker stands for a change whose predecessor has not been seen.

`RowChain` is such a list.  `LogRecord.apply` finds the place of a record among the markers by its
timestamp, puts a row or a marker there (`LogRecord.change`), and folds the markers that have found
their predecessor into the row under them (`RowChain.cleanUp`).  `LogRecord.run` is what a record
does to the value of its key, and `LogRecord.applyAll` takes the records of one key in the order in
which they arrive.

A change is applied with `parseChangeset`, which reads the saved request again.  Two lengths are as
narrow as in the source: the length of a request is an `int`, and the length that a marker keeps of
its request is the difference of two 16-bit offsets (`DeltaMarker.reqLen`), so a long request comes
back cut off.
-/

namespace MasstreeLHM

/-- `parse_changeset` on the request at the start of `mem`, whose length is given as an `int`:
the loop stops where its position is the end, and reads on behind an end it has missed. -/
def parseChangesetLoop (mem : Bytes) (len : ℤ) : ℕ → ℕ → Option (List Change)
  | 0, _ => none
  | fuel + 1, pos =>
      if (pos : ℤ) = len then some []
      else match Msgpack.readUnsigned (mem.drop pos) with
        | none => none
        | some (index, rest) =>
            match Msgpack.readStr rest with
            | none => none
            | some (value, rest) =>
                (parseChangesetLoop mem len fuel (mem.length - rest.length)).map
                  fun changes => (index, value) :: changes

/-- `parse_changeset`. -/
def parseChangeset (mem : Bytes) (len : ℤ) : Option (List Change) :=
  parseChangesetLoop mem len (mem.length + 1) 0

/-- `row_delta_marker` with the row that holds it: `ts` is the timestamp of that row and `val`
the request saved behind the marker. -/
structure DeltaMarker where
  ts : UInt64
  prevTs : UInt64
  val : Bytes
deriving Repr, DecidableEq

namespace DeltaMarker

/-- `sizeof(row_delta_marker<row_type>)`. -/
def markerSize : ℕ := 24

/-- The length of the saved request, from the length of the marker's only column.  That is the
difference of two 16-bit offsets. -/
def reqLen (m : DeltaMarker) : ℤ := ((markerSize + m.val.length) % 2 ^ 16 : ℕ) - (markerSize : ℤ)

end DeltaMarker

/-- The rows behind a value pointer: delta markers, and the row under them. -/
structure RowChain where
  markers : List DeltaMarker
  base : Option ValueBag
deriving Repr, DecidableEq

namespace RowChain

/-- The chain of a key that is not in the table. -/
def absent : RowChain := ⟨[], none⟩

/-- `(*cur_value)->timestamp()`. -/
def headTs (c : RowChain) : Option UInt64 :=
  match c.markers with
  | m :: _ => some m.ts
  | [] => c.base.map ValueBag.ts

/-- The loop that cleans up, on the markers from the last one on. -/
def cleanUpLoop : List DeltaMarker → Option ValueBag → Option RowChain
  | [], base => some ⟨[], base⟩
  | m :: ms, none => some ⟨(m :: ms).reverse, none⟩
  | m :: ms, some row =>
      if m.prevTs = row.ts then
        match parseChangeset m.val m.reqLen with
        | none => none
        | some changes =>
            match row.update changes (m.ts - 1) with
            | none => none
            | some row' => cleanUpLoop ms (some row')
      else some ⟨(m :: ms).reverse, some row⟩

/-- Folding markers into the row under them, as long as they follow on it. -/
def cleanUp (c : RowChain) : Option RowChain := cleanUpLoop c.markers.reverse c.base

end RowChain

namespace LogRecord

/-- What `apply` puts at the place of the change, given the chain from there on.  A command other
than `logcmd_modify` has deleted that chain. -/
def change (lr : LogRecord) (cur : RowChain) : Option RowChain :=
  if lr.command = logcmdReplace then some ⟨[], some (ValueBag.create1 lr.val lr.ts)⟩
  else if lr.command ≠ logcmdModify then
    match parseChangeset lr.val lr.val.length with
    | none => none
    | some changes => (ValueBag.create changes lr.ts).map fun row => ⟨[], some row⟩
  else if cur.headTs = some lr.prevTs then
    match parseChangeset lr.val lr.val.length with
    | none => none
    | some changes =>
        match cur.markers, cur.base with
        | [], some row => (row.update changes lr.ts).map fun row => ⟨[], some row⟩
        -- the bytes of a marker are no row
        | _, _ => none
  else some ⟨⟨lr.ts ||| 1, lr.prevTs, lr.val⟩ :: cur.markers, cur.base⟩

/-- `logrecord::apply`. -/
def apply (lr : LogRecord) (value : RowChain) : Option RowChain :=
  -- the point of the change, possibly after some delta markers
  let later := value.markers.takeWhile fun m => lr.ts < m.ts
  let cur : RowChain := ⟨value.markers.dropWhile fun m => lr.ts < m.ts, value.base⟩
  if cur.headTs.any fun t => lr.ts ≤ t then some value
  else (lr.change cur).bind fun new => RowChain.cleanUp ⟨later ++ new.markers, new.base⟩

/-- `logrecord::run` on the value of the record's key. -/
def run (lr : LogRecord) (value : RowChain) : Option RowChain :=
  if lr.command = logcmdRemove then
    -- the value becomes a `row_marker` with `mt_remove`
    { lr with ts := lr.ts ||| 1, val := storeLE 4 1 }.apply value
  else lr.apply value

/-- The records of one key, in the order in which they arrive. -/
def applyAll : List LogRecord → RowChain → Option RowChain
  | [], c => some c
  | lr :: rest, c => (lr.apply c).bind (applyAll rest)

end LogRecord

end MasstreeLHM
