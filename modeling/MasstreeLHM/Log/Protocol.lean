import MasstreeLHM.Log.Agreement
import MasstreeLHM.Log.Recovery

/-!
# Writing the logs

`loginfo::record` and the loop of `loginfo::run`, for a `logset` of `n` logs.  A step of the system
is an update (the log is acquired, the epoch is read and the update is recorded), a round of a
logger with its write, or a tick of the global epoch.  A crash leaves the files.

`LogInfo` is one log with the bytes of its buffer and of its file.  `LogInfo.record` is taken apart
into what it records of the epoch, what it does to `global_wake_epoch` and when it writes a wake
record; `LogInfo.run` is a round of the logger, with `LogInfo.absorbWake`, `LogInfo.quiesce` and
`LogInfo.flush`.

`LogSet.step` interleaves the logs in every possible order, and the order of the updates is kept in
the state, since recovery is measured by it: **`ReplaysPrefix`** says that what is run of each log
are its updates among the first `k` of all.  `Careful` is what is asked of a step; besides bounds it
asks that a logger takes over a wake epoch only when some file has a wake record of it.
-/

namespace MasstreeLHM

/-- `loginfo`, with the bytes of `buf_` up to `pos_` and the bytes that are in the file. -/
structure LogInfo where
  /-- epoch written to log (non-quiescent) -/
  logEpoch : UInt64
  /-- epoch we went quiescent -/
  quiescentEpoch : UInt64
  /-- epoch for which we recorded a wake command -/
  wakeEpoch : UInt64
  /-- epoch fsync()ed to disk -/
  flushedEpoch : UInt64
  buf : Bytes
  file : Bytes
deriving Repr, DecidableEq

namespace LogInfo

/-- `loginfo::loginfo`, with a file that has just been created. -/
def fresh : LogInfo := ⟨0, 0, 0, 0, [], []⟩

/-- A new epoch is recorded. -/
def recordEpoch (li : LogInfo) (epoch : UInt64) : LogInfo :=
  if epoch ≠ li.logEpoch then
    { li with logEpoch := epoch, buf := li.buf ++ logrecEpochStore epoch }
  else li

/-- `global_wake_epoch` after the `cmpxchg` loop of a log that was quiescent. -/
def raiseWake (li : LogInfo) (epoch wake : UInt64) : UInt64 :=
  if li.quiescentEpoch ≠ 0 ∧ circularLess wake epoch then epoch else wake

/-- The log is not quiescent any more. -/
def leaveQuiescence (li : LogInfo) (epoch : UInt64) : LogInfo :=
  if li.quiescentEpoch ≠ 0 then
    { li with
      flushedEpoch := if li.flushedEpoch = li.quiescentEpoch then epoch else li.flushedEpoch
      quiescentEpoch := 0 }
  else li

/-- The wake epoch that is recorded: it may be ahead of the epoch of the query. -/
def recordedWake (li : LogInfo) (epoch we : UInt64) : UInt64 :=
  if we ≠ li.wakeEpoch ∧ circularLess epoch we then epoch else we

/-- A new wake epoch is recorded. -/
def recordWake (li : LogInfo) (we : UInt64) : LogInfo :=
  if we ≠ li.wakeEpoch then
    { li with wakeEpoch := we, buf := li.buf ++ logrecBaseStore logcmdWake }
  else li

/-- `loginfo::record` when there is room in the buffer, given the epoch of the query and
`global_wake_epoch`. -/
def record (li : LogInfo) (epoch wake : UInt64) (l : Logged) (pad : UInt32) : LogInfo :=
  let li' := (li.recordEpoch epoch).leaveQuiescence epoch
  let li' := li'.recordWake (li'.recordedWake epoch (li.raiseWake epoch wake))
  { li' with buf := li'.buf ++ l.store pad }

/-- The logger takes over a new `global_wake_epoch`. -/
def absorbWake (li : LogInfo) (wake : UInt64) : LogInfo :=
  if li.wakeEpoch ≠ wake then { li with wakeEpoch := wake, quiescentEpoch := 0 } else li

/-- The logger writes a quiescence notification. -/
def quiesce (li : LogInfo) (epoch wake : UInt64) : LogInfo :=
  if li.buf = [] ∧ li.quiescentEpoch = 0 ∧ epoch ≠ li.logEpoch ∧ epoch ≠ wake then
    { li with
      quiescentEpoch := epoch
      logEpoch := epoch
      buf := logrecEpochStore epoch
        ++ (if epoch = li.wakeEpoch then logrecBaseStore logcmdWake else [])
        ++ logrecBaseStore logcmdQuiesce }
  else li

/-- `write` and `fsync`. -/
def flush (li : LogInfo) : LogInfo :=
  if li.buf ≠ [] then
    { li with flushedEpoch := li.logEpoch, file := li.file ++ li.buf, buf := [] }
  else li

/-- One round of the loop of `loginfo::run`, when no thread waits for the log. -/
def run (li : LogInfo) (epoch wake : UInt64) : LogInfo :=
  ((li.absorbWake wake).quiesce epoch wake).flush

end LogInfo

/-- A `logset` of `n` logs with the global epochs, and the updates in the order in which they were
recorded. -/
structure LogSet (n : ℕ) where
  globalLogEpoch : UInt64
  globalWakeEpoch : UInt64
  logs : Fin n → LogInfo
  history : List (Fin n × LogRecord)

/-- A step of the system. -/
inductive LogAction (n : ℕ)
  | update (i : Fin n) (l : Logged) (pad : UInt32)
  | logger (i : Fin n)
  | tick

namespace LogSet

variable {n : ℕ}

/-- The server starts with empty logs. -/
def start (n : ℕ) : LogSet n := ⟨1, 0, fun _ => LogInfo.fresh, []⟩

/-- The update can be recorded: it has one of the commands of the server, and there is room. -/
def CanRecord (li : LogInfo) (l : Logged) : Prop :=
  (l.command = logcmdPut ∨ l.command = logcmdReplace ∨ l.command = logcmdRemove) ∧
    li.buf.length + l.room ≤ logBufferLen

instance (li : LogInfo) (l : Logged) : Decidable (CanRecord li l) :=
  inferInstanceAs (Decidable (_ ∧ _))

/-- One step; `none` if an update has to wait for its log. -/
def step (s : LogSet n) : LogAction n → Option (LogSet n)
  | .update i l pad =>
      if CanRecord (s.logs i) l then
        some { s with
          globalWakeEpoch := (s.logs i).raiseWake s.globalLogEpoch s.globalWakeEpoch
          logs := Function.update s.logs i
            ((s.logs i).record s.globalLogEpoch s.globalWakeEpoch l pad)
          history := s.history ++ [(i, { l.asRecord with epoch := s.globalLogEpoch })] }
      else none
  | .logger i =>
      some { s with
        logs := Function.update s.logs i
          ((s.logs i).run s.globalLogEpoch s.globalWakeEpoch) }
  | .tick => some { s with globalLogEpoch := nextNonzero s.globalLogEpoch }

/-- A run of the system. -/
def steps : List (LogAction n) → LogSet n → Option (LogSet n)
  | [], s => some s
  | a :: as, s => (s.step a).bind (steps as)

/-- What a crash leaves. -/
def files (s : LogSet n) : List Bytes := List.ofFn fun i => (s.logs i).file

/-- The updates of log `i` among the first `k` updates. -/
def recordedIn (s : LogSet n) (k : ℕ) (i : Fin n) : List LogRecord :=
  ((s.history.take k).filter fun p => p.1 = i).map Prod.snd

/-- **The recovery replays a prefix of the updates**: in each log, the records that are run are
those of the first `k` updates that went to this log. -/
def ReplaysPrefix (s : LogSet n) : Prop :=
  ∀ junk, ∃ r k, recover 0 0 junk s.files = some r ∧
    r.logs.map Prod.fst = List.ofFn (s.recordedIn k)

/-- Each log has an epoch record in its file. -/
def Started (s : LogSet n) : Prop := ∀ i, epochsOf (infoRecords (s.logs i).file) ≠ []

/-- What is asked of a step: keys can be found again, epochs do not come near to wrapping, and a
logger takes over a wake epoch only when some file has a wake record of that epoch or a later
one. -/
def Careful (s : LogSet n) : LogAction n → Prop
  | .update _ l _ => l.key ≠ [] ∧ l.key.length ≤ maxKeyLen
  | .logger i => (s.logs i).wakeEpoch = s.globalWakeEpoch ∨
      ∃ j, s.globalWakeEpoch ≤ (logInfo (s.logs j).file).wakeEpoch
  | .tick => s.globalLogEpoch.toNat + 1 < 2 ^ 63

instance (s : LogSet n) : ∀ a, Decidable (s.Careful a)
  | .update _ _ _ => inferInstanceAs (Decidable (_ ∧ _))
  | .logger _ => inferInstanceAs (Decidable (_ ∨ _))
  | .tick => inferInstanceAs (Decidable (_ < _))

/-- All steps of a run are careful. -/
def CarefulSteps : List (LogAction n) → LogSet n → Prop
  | [], _ => True
  | a :: as, s => s.Careful a ∧
      match s.step a with
      | none => True
      | some s' => CarefulSteps as s'

instance decidableCarefulSteps : ∀ (as : List (LogAction n)) (s : LogSet n),
    Decidable (CarefulSteps as s)
  | [], _ => inferInstanceAs (Decidable True)
  | a :: as, s =>
      have : Decidable (match s.step a with
          | none => True
          | some s' => CarefulSteps as s') :=
        match s.step a with
        | none => inferInstanceAs (Decidable True)
        | some s' => decidableCarefulSteps as s'
      inferInstanceAs (Decidable (_ ∧ _))

end LogSet

end MasstreeLHM
