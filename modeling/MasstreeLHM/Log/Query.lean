import MasstreeLHM.Log.Apply

/-!
# Updates and what is logged of them

`query::run_put`, `run_replace` and `run_remove` of `kvrow.hh` on the row of one key, the dispatch
in `onego`, and the record that `loginfo::record` makes of an update.  A request whose Json has not
the form that an update asks for is not executed.

An `Update` holds what the server has of its request, since that decides what is logged: of a put
that is still in the input buffer the rest of its bytes behind the first three values, of one that
is not the columns encoded anew.  `Update.execute` runs an update on the row of its key and returns
the new row together with the arguments of `loginfo::record`.

The key of a put is a string in the request, and `request[2]` is overwritten with the result before
the put is logged.  If the parser has copied the bytes of the key, they are freed by then.
`loggedKey` is the key as the log sees it; whether the bytes were owned, and what their place holds
when they are freed, are parameters.
-/

namespace MasstreeLHM

/-- `threadinfo::update_timestamp(x)`: the timestamp of the thread, moved behind `x`. -/
def updateTimestamp (ts x : UInt64) : UInt64 :=
  if circularLessEqual ts x then (x ||| 1) + 1 else ts

/-- `threadinfo::observe_phantoms`. -/
def observePhantoms (ts phantom : UInt64) : UInt64 :=
  if circularLess ts phantom then phantom else ts

/-- `loginfo::query_times`, without the epoch. -/
structure QueryTimes where
  ts : UInt64
  prevTs : UInt64
deriving Repr, DecidableEq

/-- `row_is_marker`. -/
def ValueBag.isMarker (row : ValueBag) : Bool := row.ts &&& 1 != 0

/-- What the thread and the leaf know: `ts_`, and the phantom epoch of the leaf of the key. -/
structure Clock where
  ts : UInt64
  phantom : UInt64
deriving Repr, DecidableEq

/-- `run_put` and `apply_put` on the row of the key. -/
def runPut (clock : Clock) (value : Option ValueBag) (changes : List Change) :
    Option (ValueBag × QueryTimes) :=
  match value with
  | none =>
      let ts := observePhantoms clock.ts clock.phantom
      (ValueBag.create changes ts).map fun row => (row, ⟨ts, 0⟩)
  | some old =>
      let ts := updateTimestamp clock.ts old.ts
      if old.isMarker then (ValueBag.create changes ts).map fun row => (row, ⟨ts, 0⟩)
      else (old.update changes ts).map fun row => (row, ⟨ts, old.ts⟩)

/-- `run_replace` and `apply_replace`. -/
def runReplace (clock : Clock) (value : Option ValueBag) (newValue : Bytes) :
    ValueBag × QueryTimes :=
  match value with
  | none =>
      let ts := observePhantoms clock.ts clock.phantom
      (ValueBag.create1 newValue ts, ⟨ts, 0⟩)
  | some old =>
      let ts := updateTimestamp clock.ts old.ts
      (ValueBag.create1 newValue ts, ⟨ts, old.ts⟩)

/-- `run_remove` and `apply_remove`: the times of the removal, if there is a row. -/
def runRemove (clock : Clock) (value : Option ValueBag) : Option QueryTimes :=
  value.map fun old => ⟨updateTimestamp clock.ts old.ts, old.ts⟩

/-! ## Requests -/

/-- `Cmd_Put`. -/
def cmdPut : ℤ := 6

/-- The columns and values from the fourth element of a put on, as `as_u` and `as_s` give them. -/
def changesOf : List Json → Option (List Change)
  | [] => some []
  | [_] => none
  | c :: v :: rest =>
      match c.asU, v.asS, changesOf rest with
      | some index, some value, some changes => some ((index, value) :: changes)
      | _, _, _ => none

/-- A put: its key and its changes, and the Json of the changes. -/
def putOf (request : List Json) : Option (Bytes × List Json × List Change) :=
  match request with
  | _ :: command :: key :: req =>
      if (command.asI.map (· % 2 ^ 32)) = some cmdPut ∧ 3 < request.length
          ∧ request.length % 2 = 1 then
        match key.asS, changesOf req with
        | some key, some changes => some (key, req, changes)
        | _, _ => none
      else none
  | _ => none

/-- An update of one key, with what the server has of its request. -/
inductive Update where
  /-- `Cmd_Put`, with the bytes of the request. -/
  | putRaw (requestStr : Bytes)
  /-- `Cmd_Put`, after the bytes have left the input buffer. -/
  | putJson (request : List Json)
  | replace (key value : Bytes)
  | remove (key : Bytes)
deriving Repr, DecidableEq

/-- The arguments of `loginfo::record`. -/
structure Logged where
  command : ℕ
  times : QueryTimes
  key : Bytes
  value : Bytes
deriving Repr, DecidableEq

/-- The key of an update. -/
def Update.key : Update → Option Bytes
  | .putRaw requestStr => ((Msgpack.parseRequest requestStr).bind putOf).map Prod.fst
  | .putJson request => (putOf request).map Prod.fst
  | .replace key _ => some key
  | .remove key => some key

/-- What `onego` has done: the key whose row it has changed, the row afterwards, and what is
logged. -/
structure Executed where
  key : Bytes
  after : Option ValueBag
  logged : Logged
deriving Repr, DecidableEq

/-- The key that is logged of a put.  By then `request[2]` holds the result; if it has owned the
bytes of the key, they have been freed, and their place holds `freed`. -/
def loggedKey (owned : Bool) (freed : ℕ → UInt8) (key : Bytes) : Bytes :=
  if owned then (List.range key.length).map freed else key

/-- `onego` on the row of the update's key.  `request[2]` owns the bytes of the key if the parser
has copied them, since they came with two reads or end at the end of the input buffer.  `none` if
nothing is executed or logged, or the update leaves the memory of the row. -/
def Update.execute (clock : Clock) (before : Option ValueBag) (owned : Bool) (freed : ℕ → UInt8) :
    Update → Option Executed
  | .putRaw requestStr =>
      match (Msgpack.parseRequest requestStr).bind putOf with
      | none => none
      | some (key, _, changes) =>
          match runPut clock before changes, Msgpack.skipArraySize requestStr with
          | some (row, times), some elements =>
              some ⟨key, some row,
                ⟨logcmdPut, times, loggedKey owned freed key, Msgpack.skipPrimitives 3 elements⟩⟩
          | _, _ => none
  | .putJson request =>
      match putOf request with
      | none => none
      | some (key, req, changes) =>
          (runPut clock before changes).map fun p =>
            ⟨key, some p.1, ⟨logcmdPut, p.2, loggedKey owned freed key,
              Msgpack.writeArrayHeader req.length ++ req.flatMap Json.unparse⟩⟩
  | .replace key value =>
      let p := runReplace clock before value
      some ⟨key, some p.1, ⟨logcmdReplace, p.2, loggedKey owned freed key, value⟩⟩
  | .remove key =>
      -- here the result is stored behind the call of `record`
      (runRemove clock before).map fun times => ⟨key, none, ⟨logcmdRemove, times, key, []⟩⟩

/-- `loginfo::record` turns the put into a `logcmd_modify`. -/
def Logged.IsModify (l : Logged) : Prop :=
  l.command = logcmdPut ∧ l.times.prevTs ≠ 0 ∧ l.times.prevTs &&& 1 = 0

instance (l : Logged) : Decidable l.IsModify := inferInstanceAs (Decidable (_ ∧ _))

/-- The record that `loginfo::record` stores behind the epoch and the wake record. -/
def Logged.store (l : Logged) (pad : UInt32) : Bytes :=
  if l.IsModify then
    logrecKvdeltaStore logcmdModify l.key l.value l.times.prevTs l.times.ts pad
  else logrecKvStore l.command l.key l.value l.times.ts pad

/-- The size of a log buffer, `len_`. -/
def logBufferLen : ℕ := 20 * 1024 * 1024

/-- The room that `loginfo::record` waits for: `logrec_kvdelta`, an epoch and a wake record. -/
def Logged.room (l : Logged) : ℕ := 32 + l.key.length + l.value.length + 16 + 8

end MasstreeLHM
