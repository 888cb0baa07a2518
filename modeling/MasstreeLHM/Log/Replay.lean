import MasstreeLHM.Log.Apply

/-!
# Recovery

`logreplay` of `log.cc` and `recover` of `mtd.cc`: each log is analysed, the bound of the epochs to
replay is computed from all of them, and then each log is replayed up to that bound and rewritten.
Three walks go over the records of a log, and each has its own idea of where they end.

* `logInfo` — the first pass: the first and last epoch, the wake epoch, and whether the log ends
  with a quiescence notification.
* `minPostQuiescentWakeEpoch` — the second pass: the first wake epoch behind the time at which some
  log went quiescent.
* `replayMaxEpoch` — the bound that follows from both.
* `replayAndClean` — the third pass: the records that are run, and the bytes that are kept.
* `recover` — all of it, for any number of log files and the epochs of a checkpoint.

The threads that replay the logs run in parallel, so the table is what `runAll` makes of some
`IsInterleaving` of their records.  A log without bytes leaves its entry uninitialized, and what it
holds is a parameter of `recover`.
-/

namespace MasstreeLHM

/-! ## `logreplay::info` -/

/-- `logreplay::info_type`. -/
structure InfoType where
  firstEpoch : UInt64
  lastEpoch : UInt64
  wakeEpoch : UInt64
  quiescent : Bool
deriving Repr, DecidableEq

namespace InfoType

/-- An epoch record. -/
def seeEpoch (x : InfoType) (e : UInt64) : InfoType :=
  { x with
    firstEpoch := if x.firstEpoch = 0 then e else x.firstEpoch
    lastEpoch := e
    -- a wake epoch behind the last epoch has wrapped around
    wakeEpoch := if x.wakeEpoch ≠ 0 ∧ circularLess e x.wakeEpoch then 0 else x.wakeEpoch }

/-- A wake record. -/
def seeWake (x : InfoType) : InfoType := { x with wakeEpoch := x.lastEpoch }

end InfoType

/-- A whole record is left: its size is possible, and it is there. -/
def Framed (buf : Bytes) : Prop := 8 ≤ buf.length ∧ 8 ≤ recSize buf ∧ recSize buf ≤ buf.length

instance (buf : Bytes) : Decidable (Framed buf) := inferInstanceAs (Decidable (_ ∧ _))

/-- A command that is stored with a key. -/
def IsUpdateCommand (command : ℕ) : Prop :=
  command = logcmdPut ∨ command = logcmdReplace ∨ command = logcmdModify ∨ command = logcmdRemove

instance (command : ℕ) : Decidable (IsUpdateCommand command) :=
  inferInstanceAs (Decidable (_ ∨ _))

/-- The loop of `logreplay::info`, on the bytes from the current record on. -/
def infoLoop : ℕ → Bytes → InfoType → InfoType
  | 0, _, x => x
  | fuel + 1, buf, x =>
      if ¬ Framed buf then x
      else
        let x := { x with quiescent := recCommand buf == logcmdQuiesce }
        let rest := buf.drop (recSize buf)
        if recCommand buf = logcmdEpoch then
          if recSize buf < 16 then x else infoLoop fuel rest (x.seeEpoch (recEpoch buf))
        else if recCommand buf = logcmdWake then infoLoop fuel rest x.seeWake
        -- an unknown command is corruption in a build with assertions
        else if ¬ (IsUpdateCommand (recCommand buf) ∨ recCommand buf = logcmdQuiesce) then x
        else infoLoop fuel rest x

/-- `logreplay::info`. -/
def logInfo (buf : Bytes) : InfoType := infoLoop buf.length buf ⟨0, 0, 0, true⟩

/-! ## `logreplay::min_post_quiescent_wake_epoch` -/

/-- Its loop; `e` is the epoch of the current record. -/
def minPostLoop (quiescentEpoch : UInt64) : ℕ → Bytes → UInt64 → UInt64
  | 0, _, _ => 0
  | fuel + 1, buf, e =>
      if ¬ Framed buf then 0
      else
        let rest := buf.drop (recSize buf)
        if recCommand buf = logcmdEpoch then
          if recSize buf < 16 then 0 else minPostLoop quiescentEpoch fuel rest (recEpoch buf)
        else if recCommand buf = logcmdWake ∧ e ≠ 0 ∧ ¬ circularLess e quiescentEpoch then e
        else minPostLoop quiescentEpoch fuel rest e

/-- `logreplay::min_post_quiescent_wake_epoch`. -/
def minPostQuiescentWakeEpoch (buf : Bytes) (quiescentEpoch : UInt64) : UInt64 :=
  minPostLoop quiescentEpoch buf.length buf 0

/-! ## `logreplay::replayandclean1` -/

/-- What `run` looks at: `prev_ts` is only read for a `logcmd_modify`, and else left over from an
earlier record. -/
def LogRecord.forget (lr : LogRecord) : LogRecord :=
  { lr with prevTs := if lr.command = logcmdModify then lr.prevTs else 0 }

/-- The variables of `replayandclean1`, and the records it has run. -/
structure ReplayState where
  lr : LogRecord
  pos : ℕ
  repbegin : Option ℕ
  repend : Option ℕ
  replayed : List LogRecord
deriving Repr, DecidableEq

/-- The loop of `replayandclean1`; `none` is a failed assertion. -/
def replayLoop (buf : Bytes) (minEpoch maxEpoch : UInt64) : ℕ → ReplayState → Option ReplayState
  | 0, st => some st
  | fuel + 1, st =>
      if buf.length ≤ st.pos then some st
      else
        let (lr, n) := st.lr.extract (buf.drop st.pos)
        let nextpos := st.pos + n
        let early : Prop := minEpoch ≠ 0 ∧ circularLess lr.epoch minEpoch
        if lr.command = logcmdNone then some { st with lr := lr }
        else
          let repbegin :=
            if lr.command = logcmdEpoch ∧ (early ∨ minEpoch = 0 ∧ st.repbegin = none)
            then some st.pos else st.repbegin
          if lr.command = logcmdEpoch ∧ ¬ circularLess lr.epoch maxEpoch then
            if repbegin = none then none
            else some { st with lr := lr, repbegin := repbegin, repend := some nextpos }
          else if lr.epoch = 0 ∨ early then
            replayLoop buf minEpoch maxEpoch fuel
              { st with
                lr := lr
                pos := nextpos
                repbegin := repbegin
                repend := if repbegin = none then st.repend else some nextpos }
          else if repbegin = none then none
          else
            replayLoop buf minEpoch maxEpoch fuel
              { lr := lr
                pos := nextpos
                repbegin := repbegin
                repend := some nextpos
                replayed := if lr.key ≠ [] ∧ IsUpdateCommand lr.command
                  then st.replayed ++ [lr.forget] else st.replayed }

/-- `logreplay::replayandclean1`: the records that are run, and the log as it is rewritten. -/
def replayAndClean (buf : Bytes) (minEpoch maxEpoch : UInt64) : Option (List LogRecord × Bytes) :=
  match replayLoop buf minEpoch maxEpoch buf.length ⟨LogRecord.blank, 0, none, none, []⟩ with
  | none => none
  | some st =>
      match st.repbegin with
      | none => some (st.replayed, [])
      | some b => some (st.replayed, (buf.take (st.repend.getD st.pos)).drop b)

/-! ## `recover` -/

/-- `rec_log_infos`: a log without bytes leaves its entry as it was allocated, with an
uninitialized `quiescent`. -/
def logInfos (junk : ℕ → Bool) (files : List Bytes) : List InfoType :=
  files.zipIdx.map fun p => if p.1 = [] then ⟨0, 0, 0, junk p.2⟩ else logInfo p.1

/-- The loops that take the maximum of an epoch over all logs. -/
def maxEpochOf (init : UInt64) (epochs : List UInt64) : UInt64 :=
  epochs.foldl (fun m e => if e ≠ 0 ∧ (m = 0 ∨ circularLess m e) then e else m) init

/-- The minimum `last_epoch` in quiescent logs. -/
def minQuiescentLastEpoch (infos : List InfoType) : UInt64 :=
  infos.foldl (fun m x =>
    if x.quiescent = true ∧ (m = 0 ∨ circularLess x.lastEpoch m) then x.lastEpoch else m) 0

/-- `rec_replay_min_quiescent_last_epoch`: zero unless a wake command may have been missed. -/
def replayMinQuiescent (infos : List InfoType) : UInt64 :=
  let maxWake := maxEpochOf 0 (infos.map InfoType.wakeEpoch)
  if maxWake ≠ 0 ∧ ¬ circularLess maxWake (minQuiescentLastEpoch infos) then
    minQuiescentLastEpoch infos else 0

/-- The wake epoch that a log contributes to the bound, in phase `REC_LOG_ANALYZE_WAKE`. -/
def postWake (minQuiescent : UInt64) (buf : Bytes) (x : InfoType) : UInt64 :=
  if buf ≠ [] ∧ minQuiescent ≠ 0 ∧ ¬ circularLess x.wakeEpoch minQuiescent then
    minPostQuiescentWakeEpoch buf minQuiescent else 0

/-- The loop for `rec_replay_max_epoch`. -/
def boundEpoch (init : UInt64) (logs : List (InfoType × UInt64)) : UInt64 :=
  logs.foldl (fun m p =>
    let m := if ¬ p.1.quiescent ∧ p.1.lastEpoch ≠ 0 ∧ circularLess p.1.lastEpoch m
      then p.1.lastEpoch else m
    if p.2 ≠ 0 ∧ circularLess p.2 m then p.2 else m) init

/-- `rec_replay_max_epoch`, with the epochs of the checkpoint if there is one. -/
def replayMaxEpoch (ckpMax : UInt64) (junk : ℕ → Bool) (files : List Bytes) : UInt64 :=
  let infos := logInfos junk files
  let init := if ckpMax = 0 then 0 else nextNonzero ckpMax
  let maxEpoch := maxEpochOf init (infos.map InfoType.lastEpoch)
  let minQuiescent := replayMinQuiescent infos
  boundEpoch maxEpoch ((files.zip infos).map fun p => (p.2, postWake minQuiescent p.1 p.2))

/-- What `recover` has computed: the bound, and for each log the records it ran and the bytes it
kept. -/
structure Recovery where
  maxEpoch : UInt64
  logs : List (List LogRecord × Bytes)
deriving Repr, DecidableEq

/-- The log files after the recovery. -/
def Recovery.files (r : Recovery) : List Bytes := r.logs.map Prod.snd

/-- The option of a list from a list of options. -/
def allSome {α : Type*} : List (Option α) → Option (List α)
  | [] => some []
  | none :: _ => none
  | some a :: rest => (allSome rest).map (a :: ·)

/-- `recover`, with the epochs of the checkpoint (zero if there is none).  A log without bytes is
not replayed, and not rewritten. -/
def recover (ckpMin ckpMax : UInt64) (junk : ℕ → Bool) (files : List Bytes) : Option Recovery :=
  let maxEpoch := replayMaxEpoch ckpMax junk files
  let maxFirst := maxEpochOf 0 ((logInfos junk files).map InfoType.firstEpoch)
  if ckpMin ≠ 0 ∧ ¬ (circularLess maxFirst ckpMin ∧ circularLess ckpMin maxEpoch
      ∧ circularLess ckpMax maxEpoch) then none
  else (allSome (files.map fun f =>
    if f = [] then some ([], []) else replayAndClean f ckpMin maxEpoch)).map (⟨maxEpoch, ·⟩)

/-! ## The table -/

/-- Run records on the table, in the order in which the replaying threads get to them. -/
def runAll : List LogRecord → (Bytes → RowChain) → Option (Bytes → RowChain)
  | [], t => some t
  | lr :: rest, t =>
      (lr.run (t lr.key)).bind fun c => runAll rest (fun k => if k = lr.key then c else t k)

/-- An order in which parallel threads can run the records of their logs. -/
def IsInterleaving (logs : List (List LogRecord)) (order : List (ℕ × LogRecord)) : Prop :=
  (∀ p ∈ order, p.1 < logs.length) ∧
    ∀ i < logs.length, (order.filter fun p => p.1 = i).map Prod.snd = logs.getD i []

/-- **The recovery completes**: the replaying threads run into no failed assertion, and at the end
every delta marker has been recycled. -/
def Recovery.Completes (r : Recovery) : Prop :=
  ∃ order t, IsInterleaving (r.logs.map Prod.fst) order ∧
    runAll (order.map Prod.snd) (fun _ => RowChain.absent) = some t ∧ ∀ k, (t k).markers = []

end MasstreeLHM
