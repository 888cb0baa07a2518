import MasstreeLHM.Log.Endian

/-!
# Log records

The record formats of `log.cc`: how `loginfo` stores them and how `logrecord::extract` reads them
back.  A record starts with its command and its size; the size counts the whole structure, and the
key starts in front of the structure's padding, so that the last four bytes of a record with a key
are whatever the buffer held before.

`logrecBaseStore`, `logrecEpochStore`, `logrecKvStore` and `logrecKvdeltaStore` are the four
structures.  The bytes of the padding are an argument, so every result about a stored record holds
for whatever they are.  `LogRecord.extract` reads the fields in the order of the source; a field
that the record at hand does not have keeps the value that it had before, since the caller hands the
same `logrecord` to every call.

`extract_kvStore` and `extract_kvdeltaStore` read back what was stored.  Epochs are compared as
`circular_int` does, by the sign of a difference; below 2^63 that is the usual order
(`circularLess_iff`).
-/

namespace MasstreeLHM

/-- `MASSTREE_MAXKEYLEN`, as configured by default. -/
def maxKeyLen : ℕ := 1024

/-! ## `circular_int` -/

/-- `circular_int::less`: the difference is negative as a signed number. -/
def circularLess (a b : UInt64) : Bool := 2 ^ 63 ≤ (a - b).toNat

/-- `circular_int::less_equal`. -/
def circularLessEqual (a b : UInt64) : Bool := a == b || circularLess a b

/-- `circular_int::next_nonzero`. -/
def nextNonzero (x : UInt64) : UInt64 := if x + 1 = 0 then 1 else x + 1

/-- Below `2 ^ 63` the circular order is the usual one. -/
lemma circularLess_iff {a b : UInt64} (ha : a.toNat < 2 ^ 63) (hb : b.toNat < 2 ^ 63) :
    circularLess a b = true ↔ a.toNat < b.toNat := by
  rw [circularLess, decide_eq_true_eq, UInt64.toNat_sub]
  omega

lemma circularLessEqual_iff {a b : UInt64} (ha : a.toNat < 2 ^ 63) (hb : b.toNat < 2 ^ 63) :
    circularLessEqual a b = true ↔ a.toNat ≤ b.toNat := by
  rw [circularLessEqual, Bool.or_eq_true, circularLess_iff ha hb, beq_iff_eq,
    ← UInt64.toNat_inj]
  omega

/-! ## Commands -/

/-- `logcmd_none`. -/
def logcmdNone : ℕ := 0

/-- `logcmd_put`. -/
def logcmdPut : ℕ := 0x5455506B

/-- `logcmd_replace`. -/
def logcmdReplace : ℕ := 0x3155506B

/-- `logcmd_modify`. -/
def logcmdModify : ℕ := 0x444F4D6B

/-- `logcmd_remove`. -/
def logcmdRemove : ℕ := 0x4D45526B

/-- `logcmd_epoch`. -/
def logcmdEpoch : ℕ := 0x4F50456B

/-- `logcmd_quiesce`. -/
def logcmdQuiesce : ℕ := 0x4955516B

/-- `logcmd_wake`. -/
def logcmdWake : ℕ := 0x4B41576B

/-! ## Storing -/

/-- `logrec_base::store`. -/
def logrecBaseStore (command : ℕ) : Bytes := storeLE 4 command ++ storeLE 4 8

/-- `logrec_epoch::store`. -/
def logrecEpochStore (epoch : UInt64) : Bytes :=
  storeLE 4 logcmdEpoch ++ storeLE 4 16 ++ storeLE 8 epoch.toNat

/-- `logrec_kv::store`; `pad` is what the buffer held in the last four bytes of the record. -/
def logrecKvStore (command : ℕ) (key val : Bytes) (ts : UInt64) (pad : UInt32) : Bytes :=
  storeLE 4 command ++ storeLE 4 (24 + key.length + val.length) ++ storeLE 8 ts.toNat
    ++ storeLE 4 key.length ++ key ++ val ++ storeLE 4 pad.toNat

/-- `logrec_kvdelta::store`. -/
def logrecKvdeltaStore (command : ℕ) (key val : Bytes) (prevTs ts : UInt64) (pad : UInt32) :
    Bytes :=
  storeLE 4 command ++ storeLE 4 (32 + key.length + val.length) ++ storeLE 8 ts.toNat
    ++ storeLE 8 prevTs.toNat ++ storeLE 4 key.length ++ key ++ val ++ storeLE 4 pad.toNat

/-! ## Reading -/

/-- `command_` of the record at the start of `buf`. -/
def recCommand (buf : Bytes) : ℕ := loadLE 4 buf

/-- `size_`. -/
def recSize (buf : Bytes) : ℕ := loadLE 4 (buf.drop 4)

/-- `logrec_epoch::epoch_`. -/
def recEpoch (buf : Bytes) : UInt64 := UInt64.ofNat (loadLE 8 (buf.drop 8))

/-- `logrecord`. -/
structure LogRecord where
  command : ℕ
  key : Bytes
  val : Bytes
  ts : UInt64
  prevTs : UInt64
  epoch : UInt64
deriving Repr, DecidableEq, Inhabited

namespace LogRecord

/-- The record that `extract` starts from: `kvepoch_t` is zero, nothing else is read. -/
def blank : LogRecord := ⟨logcmdNone, [], [], 0, 0, 0⟩

/-- `logrecord::extract` on the bytes up to the end of the log: the record, and how far it
reaches.  Fields that the record at hand does not have keep their values. -/
def extract (lr : LogRecord) (buf : Bytes) : LogRecord × ℕ :=
  let fail : LogRecord × ℕ := ({ lr with command := logcmdNone }, buf.length)
  let command := recCommand buf
  let size := recSize buf
  if buf.length < 8 ∨ size < 8 ∨ buf.length < size ∨ command = logcmdNone then fail
  else if command = logcmdPut ∨ command = logcmdReplace ∨ command = logcmdRemove then
    let keylen := loadLE 4 (buf.drop 16)
    if size < 24 ∨ maxKeyLen < keylen ∨ size < 24 + keylen then fail
    else
      ({ lr with
          command := command
          ts := UInt64.ofNat (loadLE 8 (buf.drop 8))
          key := (buf.drop 20).take keylen
          val := (buf.drop (20 + keylen)).take (size - 24 - keylen) }, size)
  else if command = logcmdModify then
    let keylen := loadLE 4 (buf.drop 24)
    if maxKeyLen < keylen ∨ size < 32 + keylen then fail
    else
      ({ lr with
          command := command
          ts := UInt64.ofNat (loadLE 8 (buf.drop 8))
          prevTs := UInt64.ofNat (loadLE 8 (buf.drop 16))
          key := (buf.drop 28).take keylen
          val := (buf.drop (28 + keylen)).take (size - 32 - keylen) }, size)
  else if command = logcmdEpoch then
    if size < 16 then fail else ({ lr with command := command, epoch := recEpoch buf }, size)
  else ({ lr with command := command }, size)

/-! ## Reading back what was stored -/

lemma recCommand_store {command : ℕ} (rest : Bytes) (h : command < 2 ^ 32) :
    recCommand (storeLE 4 command ++ rest) = command :=
  loadLE_storeLE_append rest h

lemma recSize_store {command size : ℕ} (rest : Bytes) (h : size < 2 ^ 32) :
    recSize (storeLE 4 command ++ (storeLE 4 size ++ rest)) = size := by
  rw [recSize, drop_storeLE_append, loadLE_storeLE_append rest h]

lemma load_ts {command size : ℕ} {ts : UInt64} (rest : Bytes) :
    UInt64.ofNat (loadLE 8 ((storeLE 4 command ++ (storeLE 4 size ++ (storeLE 8 ts.toNat
      ++ rest))).drop 8)) = ts := by
  have h : (storeLE 4 command ++ (storeLE 4 size ++ (storeLE 8 ts.toNat ++ rest))).drop 8
      = storeLE 8 ts.toNat ++ rest := by
    rw [← List.append_assoc]
    exact List.drop_left' (by simp)
  rw [h, loadLE_storeLE_append rest ts.toNat_lt]
  simp

lemma extract_kvStore (lr : LogRecord) {command : ℕ} {key val : Bytes} (ts : UInt64) (pad : UInt32)
    (rest : Bytes)
    (hc : command = logcmdPut ∨ command = logcmdReplace ∨ command = logcmdRemove)
    (hkey : key.length ≤ maxKeyLen) (hsize : 24 + key.length + val.length < 2 ^ 32) :
    lr.extract (logrecKvStore command key val ts pad ++ rest)
      = ({ lr with command := command, ts := ts, key := key, val := val },
          24 + key.length + val.length) := by
  have hcmd : command < 2 ^ 32 ∧ command ≠ logcmdNone := by
    rcases hc with rfl | rfl | rfl <;> decide
  have hassoc : logrecKvStore command key val ts pad ++ rest
      = storeLE 4 command ++ (storeLE 4 (24 + key.length + val.length) ++ (storeLE 8 ts.toNat
        ++ (storeLE 4 key.length ++ (key ++ (val ++ (storeLE 4 pad.toNat ++ rest)))))) := by
    simp only [logrecKvStore, List.append_assoc]
  have hlen : 24 + key.length + val.length
      ≤ (logrecKvStore command key val ts pad ++ rest).length := by
    simp [logrecKvStore]
    omega
  have h16 : (logrecKvStore command key val ts pad ++ rest).drop 16
      = storeLE 4 key.length ++ (key ++ (val ++ (storeLE 4 pad.toNat ++ rest))) := by
    rw [hassoc, ← List.append_assoc, ← List.append_assoc]
    exact List.drop_left' (by simp)
  have h20 : (logrecKvStore command key val ts pad ++ rest).drop 20
      = key ++ (val ++ (storeLE 4 pad.toNat ++ rest)) := by
    rw [← List.drop_drop (i := 4) (j := 16), h16, drop_storeLE_append]
  have h20k : (logrecKvStore command key val ts pad ++ rest).drop (20 + key.length)
      = val ++ (storeLE 4 pad.toNat ++ rest) := by
    rw [← List.drop_drop, h20, List.drop_left]
  have hkeylen : loadLE 4 ((logrecKvStore command key val ts pad ++ rest).drop 16)
      = key.length := by
    rw [h16, loadLE_storeLE_append]
    have : maxKeyLen < 256 ^ 4 := by decide
    omega
  have hts : UInt64.ofNat (loadLE 8 ((logrecKvStore command key val ts pad ++ rest).drop 8))
      = ts := by
    rw [hassoc]
    exact load_ts _
  have hvl : 24 + key.length + val.length - 24 - key.length = val.length := by omega
  have hc0 : recCommand (logrecKvStore command key val ts pad ++ rest) = command := by
    rw [hassoc]
    exact recCommand_store _ hcmd.1
  have hs0 : recSize (logrecKvStore command key val ts pad ++ rest)
      = 24 + key.length + val.length := by
    rw [hassoc]
    exact recSize_store _ hsize
  rw [extract]
  simp only [hc0, hs0, hkeylen, hts, h20, h20k]
  rw [if_neg (by omega), if_pos hc,
    if_neg (by omega), hvl, List.take_left' rfl, List.take_left' rfl]

lemma extract_kvdeltaStore (lr : LogRecord) {key val : Bytes} (prevTs ts : UInt64) (pad : UInt32)
    (rest : Bytes) (hkey : key.length ≤ maxKeyLen)
    (hsize : 32 + key.length + val.length < 2 ^ 32) :
    lr.extract (logrecKvdeltaStore logcmdModify key val prevTs ts pad ++ rest)
      = ({ lr with command := logcmdModify, ts := ts, prevTs := prevTs, key := key, val := val },
          32 + key.length + val.length) := by
  have hassoc : logrecKvdeltaStore logcmdModify key val prevTs ts pad ++ rest
      = storeLE 4 logcmdModify ++ (storeLE 4 (32 + key.length + val.length) ++ (storeLE 8 ts.toNat
        ++ (storeLE 8 prevTs.toNat ++ (storeLE 4 key.length ++ (key ++ (val
          ++ (storeLE 4 pad.toNat ++ rest))))))) := by
    simp only [logrecKvdeltaStore, List.append_assoc]
  have hlen : 32 + key.length + val.length
      ≤ (logrecKvdeltaStore logcmdModify key val prevTs ts pad ++ rest).length := by
    simp [logrecKvdeltaStore]
    omega
  have h16 : (logrecKvdeltaStore logcmdModify key val prevTs ts pad ++ rest).drop 16
      = storeLE 8 prevTs.toNat ++ (storeLE 4 key.length ++ (key ++ (val
          ++ (storeLE 4 pad.toNat ++ rest)))) := by
    rw [hassoc, ← List.append_assoc, ← List.append_assoc]
    exact List.drop_left' (by simp)
  have h24 : (logrecKvdeltaStore logcmdModify key val prevTs ts pad ++ rest).drop 24
      = storeLE 4 key.length ++ (key ++ (val ++ (storeLE 4 pad.toNat ++ rest))) := by
    rw [← List.drop_drop (i := 8) (j := 16), h16, drop_storeLE_append]
  have h28 : (logrecKvdeltaStore logcmdModify key val prevTs ts pad ++ rest).drop 28
      = key ++ (val ++ (storeLE 4 pad.toNat ++ rest)) := by
    rw [← List.drop_drop (i := 4) (j := 24), h24, drop_storeLE_append]
  have h28k : (logrecKvdeltaStore logcmdModify key val prevTs ts pad ++ rest).drop (28 + key.length)
      = val ++ (storeLE 4 pad.toNat ++ rest) := by
    rw [← List.drop_drop, h28, List.drop_left]
  have hkeylen : loadLE 4 ((logrecKvdeltaStore logcmdModify key val prevTs ts pad ++ rest).drop 24)
      = key.length := by
    rw [h24, loadLE_storeLE_append]
    have : maxKeyLen < 256 ^ 4 := by decide
    omega
  have hts : UInt64.ofNat
      (loadLE 8 ((logrecKvdeltaStore logcmdModify key val prevTs ts pad ++ rest).drop 8)) = ts := by
    rw [hassoc]
    exact load_ts _
  have hprev : UInt64.ofNat
      (loadLE 8 ((logrecKvdeltaStore logcmdModify key val prevTs ts pad ++ rest).drop 16))
        = prevTs := by
    rw [h16, loadLE_storeLE_append _ prevTs.toNat_lt]
    simp
  have hvl : 32 + key.length + val.length - 32 - key.length = val.length := by omega
  have hc0 : recCommand (logrecKvdeltaStore logcmdModify key val prevTs ts pad ++ rest)
      = logcmdModify := by
    rw [hassoc]
    exact recCommand_store _ (by decide)
  have hs0 : recSize (logrecKvdeltaStore logcmdModify key val prevTs ts pad ++ rest)
      = 32 + key.length + val.length := by
    rw [hassoc]
    exact recSize_store _ hsize
  have hnone : logcmdModify ≠ logcmdNone := by decide
  rw [extract]
  simp only [hc0, hs0, hkeylen, hts, hprev, h28, h28k]
  rw [if_neg (by omega), if_neg (by decide),
    if_pos trivial, if_neg (by omega), hvl, List.take_left' rfl, List.take_left' rfl]

end LogRecord

end MasstreeLHM
