import MasstreeLHM.Log.Journal

/-!
# Torn logs

What `logrecord::extract` reads of a buffer with any contents, and what it finds in a log that ends
in the middle of a record.

`extractWithin` is `extract` once more, with every read checked against the buffer.
**`extractWithin_eq`** says that the check never fails but for a `ShortModify`: a modify record that
is so close to the end of the buffer that its key length lies outside.  `extract_length` bounds
where the next record is.

`StoredRecord` are the records as the store functions write them, and `StoredRecord.log` is a log of
such records.  Each of them is read back, whatever comes behind it (`Storable.extract`), and none of
them is a short modify record.  A record that is torn is no record (`Storable.not_framed`), because
its size says that more was to come.  **`extractAll_take`** is the induction over the records: a log
that is cut off anywhere gives its complete records, and then none.
-/

namespace MasstreeLHM

/-- Read `w` bytes at `k`, if they are in the buffer. -/
def loadWithin (w : ℕ) (buf : Bytes) (k : ℕ) : Option ℕ :=
  if k + w ≤ buf.length then some (loadLE w (buf.drop k)) else none

/-- The `n` bytes at `k`, if they are in the buffer. -/
def strWithin (buf : Bytes) (k n : ℕ) : Option Bytes :=
  if k + n ≤ buf.length then some ((buf.drop k).take n) else none

lemma loadWithin_some {w k : ℕ} {buf : Bytes} (h : k + w ≤ buf.length) :
    loadWithin w buf k = some (loadLE w (buf.drop k)) := if_pos h

lemma strWithin_some {k n : ℕ} {buf : Bytes} (h : k + n ≤ buf.length) :
    strWithin buf k n = some ((buf.drop k).take n) := if_pos h

namespace LogRecord

/-- `logrecord::extract` with every read of the buffer: there is no result if one is outside. -/
def extractWithin (lr : LogRecord) (buf : Bytes) : Option (LogRecord × ℕ) :=
  let fail : Option (LogRecord × ℕ) := some ({ lr with command := logcmdNone }, buf.length)
  if buf.length < 8 then fail
  else do
    let size ← loadWithin 4 buf 4
    if size < 8 ∨ buf.length < size then fail
    else
      let command ← loadWithin 4 buf 0
      if command = logcmdNone then fail
      else if command = logcmdPut ∨ command = logcmdReplace ∨ command = logcmdRemove then
        if size < 24 then fail
        else
          let keylen ← loadWithin 4 buf 16
          if maxKeyLen < keylen ∨ size < 24 + keylen then fail
          else
            let ts ← loadWithin 8 buf 8
            let key ← strWithin buf 20 keylen
            let val ← strWithin buf (20 + keylen) (size - 24 - keylen)
            some ({ lr with command := command, ts := UInt64.ofNat ts, key := key, val := val },
              size)
      else if command = logcmdModify then
        -- the size has not been compared with the header's
        let keylen ← loadWithin 4 buf 24
        if maxKeyLen < keylen ∨ size < 32 + keylen then fail
        else
          let ts ← loadWithin 8 buf 8
          let prevTs ← loadWithin 8 buf 16
          let key ← strWithin buf 28 keylen
          let val ← strWithin buf (28 + keylen) (size - 32 - keylen)
          some ({ lr with
            command := command
            ts := UInt64.ofNat ts
            prevTs := UInt64.ofNat prevTs
            key := key
            val := val }, size)
      else if command = logcmdEpoch then
        if size < 16 then fail
        else
          let epoch ← loadWithin 8 buf 8
          some ({ lr with command := command, epoch := UInt64.ofNat epoch }, size)
      else some ({ lr with command := command }, size)

/-- A record of `logcmd_modify` so close to the end of the buffer that its `keylen_` is outside. -/
def ShortModify (buf : Bytes) : Prop :=
  Framed buf ∧ recCommand buf = logcmdModify ∧ buf.length < 28

instance (buf : Bytes) : Decidable (ShortModify buf) := inferInstanceAs (Decidable (_ ∧ _))

/-- **What `extract` reads** is in the buffer, but for the key length of a short modify record. -/
lemma extractWithin_eq (lr : LogRecord) (buf : Bytes) :
    lr.extractWithin buf = if ShortModify buf then none else some (lr.extract buf) := by
  have hne := commands_ne
  rw [extractWithin, extract]
  by_cases h8 : buf.length < 8
  · have hs : ¬ ShortModify buf := fun h => absurd h.1.1 (by omega)
    simp only [if_pos h8, if_neg hs, if_pos (Or.inl h8 : _ ∨ _)]
  have hsize : loadWithin 4 buf 4 = some (recSize buf) := loadWithin_some (by omega)
  have hcommand : loadWithin 4 buf 0 = some (recCommand buf) := loadWithin_some (by omega)
  simp only [if_neg h8, hsize, hcommand, Option.bind_eq_bind, Option.bind_some]
  by_cases hframed : recSize buf < 8 ∨ buf.length < recSize buf
  · have hs : ¬ ShortModify buf := by
      rintro ⟨⟨-, h1, h2⟩, -⟩
      omega
    rw [if_pos hframed, if_neg hs, if_pos (by omega)]
  by_cases hnone : recCommand buf = logcmdNone
  · have hs : ¬ ShortModify buf := by
      rintro ⟨-, h, -⟩
      rw [h] at hnone
      exact absurd hnone (by decide)
    rw [if_neg hframed, if_pos hnone, if_neg hs, if_pos (by omega)]
  rw [if_neg hframed, if_neg hnone,
    if_neg (show ¬ (buf.length < 8 ∨ recSize buf < 8 ∨ buf.length < recSize buf
      ∨ recCommand buf = logcmdNone) by omega)]
  by_cases hk : recCommand buf = logcmdPut ∨ recCommand buf = logcmdReplace
      ∨ recCommand buf = logcmdRemove
  · have hs : ¬ ShortModify buf := by
      rintro ⟨-, h, -⟩
      rcases hk with hk | hk | hk <;> rw [hk] at h <;> exact absurd h (by decide)
    rw [if_pos hk, if_pos hk, if_neg hs]
    by_cases h24 : recSize buf < 24
    · rw [if_pos h24, if_pos (Or.inl h24)]
    rw [if_neg h24, loadWithin_some (show 16 + 4 ≤ buf.length by omega), Option.bind_some]
    by_cases hfit : maxKeyLen < loadLE 4 (buf.drop 16) ∨ recSize buf < 24 + loadLE 4 (buf.drop 16)
    · rw [if_pos hfit, if_pos (by omega)]
    · rw [if_neg hfit, if_neg (by omega), loadWithin_some (by omega), Option.bind_some,
        strWithin_some (by omega), Option.bind_some, strWithin_some (by omega), Option.bind_some]
  rw [if_neg hk, if_neg hk]
  by_cases hm : recCommand buf = logcmdModify
  · rw [if_pos hm, if_pos hm]
    by_cases h28 : buf.length < 28
    · rw [if_pos ⟨⟨by omega, by omega, by omega⟩, hm, h28⟩, loadWithin, if_neg (by omega)]
      rfl
    · rw [if_neg fun h => h28 h.2.2, loadWithin_some (show 24 + 4 ≤ buf.length by omega),
        Option.bind_some]
      by_cases hfit : maxKeyLen < loadLE 4 (buf.drop 24) ∨ recSize buf < 32 + loadLE 4 (buf.drop 24)
      · rw [if_pos hfit, if_pos (by omega)]
      · rw [if_neg hfit, if_neg (by omega), loadWithin_some (by omega), Option.bind_some,
          loadWithin_some (by omega), Option.bind_some, strWithin_some (by omega), Option.bind_some,
          strWithin_some (by omega), Option.bind_some]
  have hs : ¬ ShortModify buf := fun h => hm h.2.1
  rw [if_neg hm, if_neg hm, if_neg hs]
  by_cases he : recCommand buf = logcmdEpoch
  · rw [if_pos he, if_pos he]
    by_cases h16 : recSize buf < 16
    · rw [if_pos h16, if_pos h16]
    · rw [if_neg h16, if_neg h16, loadWithin_some (by omega), Option.bind_some]
      rfl
  · rw [if_neg he, if_neg he]

/-- What `extract` returns is behind the start of the buffer, and not behind its end. -/
lemma extract_length (lr : LogRecord) {buf : Bytes} (h : buf ≠ []) :
    0 < (lr.extract buf).2 ∧ (lr.extract buf).2 ≤ buf.length := by
  rw [extract_eq]
  split
  · next hx =>
      obtain ⟨-, h1, h2⟩ := hx.1
      exact ⟨by omega, h2⟩
  · exact ⟨List.length_pos_iff.mpr h, le_rfl⟩

end LogRecord

/-! ## Stored records -/

/-- A record as the store functions write it. -/
inductive StoredRecord where
  | base (command : ℕ)
  | epoch (e : UInt64)
  | kv (command : ℕ) (key val : Bytes) (ts : UInt64) (pad : UInt32)
  | kvdelta (key val : Bytes) (prevTs ts : UInt64) (pad : UInt32)

namespace StoredRecord

/-- What is in the buffer. -/
def bytes : StoredRecord → Bytes
  | .base command => logrecBaseStore command
  | .epoch e => logrecEpochStore e
  | .kv command key val ts pad => logrecKvStore command key val ts pad
  | .kvdelta key val prevTs ts pad => logrecKvdeltaStore logcmdModify key val prevTs ts pad

/-- The command is one of those that are stored so, the key is not too long, and the value is one
that a `Str` can hold. -/
def Storable : StoredRecord → Prop
  | .base command => command = logcmdQuiesce ∨ command = logcmdWake
  | .epoch _ => True
  | .kv command key val _ _ =>
      (command = logcmdPut ∨ command = logcmdReplace ∨ command = logcmdRemove) ∧
        key.length ≤ maxKeyLen ∧ val.length < 2 ^ 31
  | .kvdelta key val _ _ _ => key.length ≤ maxKeyLen ∧ val.length < 2 ^ 31

/-- What was stored, in a `logrecord` that held `lr`. -/
def into (lr : LogRecord) : StoredRecord → LogRecord
  | .base command => { lr with command := command }
  | .epoch e => { lr with command := logcmdEpoch, epoch := e }
  | .kv command key val ts _ => { lr with command := command, key := key, val := val, ts := ts }
  | .kvdelta key val prevTs ts _ =>
      { lr with command := logcmdModify, key := key, val := val, ts := ts, prevTs := prevTs }

variable {r : StoredRecord}

/-- The bytes of a record are a frame of at least 8 bytes; a modify record has at least 32. -/
lemma Storable.isFrame (h : r.Storable) : IsFrame r.bytes := by
  have hmax : maxKeyLen = 1024 := rfl
  cases r with
  | base command => exact isFrame_base
  | epoch e => exact isFrame_epoch e
  | kv command key val ts pad =>
      obtain ⟨hc, hkey, hval⟩ := h
      have hlen : (bytes (.kv command key val ts pad)).length = 24 + key.length + val.length := by
        simp [bytes, logrecKvStore]
        omega
      refine ⟨by omega, ?_⟩
      rw [hlen, bytes]
      simp only [logrecKvStore, List.append_assoc]
      exact LogRecord.recSize_store _ (by omega)
  | kvdelta key val prevTs ts pad =>
      obtain ⟨hkey, hval⟩ := h
      have hlen : (bytes (.kvdelta key val prevTs ts pad)).length
          = 32 + key.length + val.length := by
        simp [bytes, logrecKvdeltaStore]
        omega
      refine ⟨by omega, ?_⟩
      rw [hlen, bytes]
      simp only [logrecKvdeltaStore, List.append_assoc]
      exact LogRecord.recSize_store _ (by omega)

/-- `extract` on a frame that is taken. -/
lemma frame {fr : Bytes} (hf : IsFrame fr) (hx : Extractable fr) (lr : LogRecord) (rest : Bytes) :
    lr.extract (fr ++ rest) = (lr.fields fr, fr.length) := by
  rw [LogRecord.extract_eq, if_pos ⟨hf.framed rest, (extractable_append rest hf).mpr hx⟩,
    LogRecord.fields_append lr rest hf hx, recSize_append rest hf.le, hf.size]

/-- **`extract` reads back what was stored**, whatever comes behind it. -/
lemma Storable.extract (h : r.Storable) (lr : LogRecord) (rest : Bytes) :
    lr.extract (r.bytes ++ rest) = (r.into lr, r.bytes.length) := by
  have hmax : maxKeyLen = 1024 := rfl
  cases r with
  | base command =>
      have hc : recCommand (logrecBaseStore command) = command :=
        recCommand_base (by rcases h with rfl | rfl <;> decide)
      have hx : Extractable (logrecBaseStore command) := by
        rw [Extractable, hc]
        rcases h with rfl | rfl <;> decide
      refine (frame isFrame_base hx lr rest).trans (Prod.ext ?_ rfl)
      rw [LogRecord.fields, hc]
      rcases h with rfl | rfl <;> rfl
  | epoch e =>
      have hc := recCommand_epoch e
      have hf := isFrame_epoch e
      have hlen : (logrecEpochStore e).length = 16 := by simp [logrecEpochStore]
      have hx : Extractable (logrecEpochStore e) := by
        rw [Extractable, hc, hf.size, hlen]
        exact ⟨by decide, fun h => absurd h (by decide), fun h => absurd h (by decide),
          fun _ => le_rfl⟩
      refine (frame hf hx lr rest).trans (Prod.ext ?_ rfl)
      rw [LogRecord.fields, hc, recEpoch_epoch]
      rfl
  | kv command key val ts pad =>
      obtain ⟨hc, hkey, hval⟩ := h
      rw [bytes, LogRecord.extract_kvStore lr ts pad rest hc hkey (by omega)]
      refine Prod.ext rfl ?_
      simp [logrecKvStore]
      omega
  | kvdelta key val prevTs ts pad =>
      obtain ⟨hkey, hval⟩ := h
      rw [bytes, LogRecord.extract_kvdeltaStore lr prevTs ts pad rest hkey (by omega)]
      refine Prod.ext rfl ?_
      simp [logrecKvdeltaStore]
      omega

/-- A torn record is none. -/
lemma Storable.not_framed (h : r.Storable) {n : ℕ} (hn : n < r.bytes.length) :
    ¬ Framed (r.bytes.take n) := by
  rintro ⟨h1, -, h2⟩
  have hlen : (r.bytes.take n).length = n := by
    rw [List.length_take]
    omega
  have hsize := recSize_append (r.bytes.drop n) h1
  rw [List.take_append_drop, h.isFrame.size] at hsize
  omega

/-- A modify record is never short. -/
lemma Storable.not_shortModify (h : r.Storable) (rest : Bytes) :
    ¬ LogRecord.ShortModify (r.bytes ++ rest) := by
  rintro ⟨-, hc, hlt⟩
  rw [recCommand_append rest h.isFrame.le] at hc
  rw [List.length_append] at hlt
  cases r with
  | base command =>
      rw [bytes, recCommand_base (by rcases h with rfl | rfl <;> decide)] at hc
      rcases h with rfl | rfl <;> exact absurd hc (by decide)
  | epoch e =>
      rw [bytes, recCommand_epoch] at hc
      exact absurd hc (by decide)
  | kv command key val ts pad =>
      obtain ⟨hcmd, -⟩ := h
      simp only [bytes, logrecKvStore, List.append_assoc] at hc
      rw [LogRecord.recCommand_store _ (by rcases hcmd with rfl | rfl | rfl <;> decide)] at hc
      rcases hcmd with rfl | rfl | rfl <;> exact absurd hc (by decide)
  | kvdelta key val prevTs ts pad =>
      simp [bytes, logrecKvdeltaStore] at hlt
      omega

/-- The complete records among the first `cut` bytes. -/
def complete : ℕ → List StoredRecord → List StoredRecord
  | _, [] => []
  | cut, r :: rs => if r.bytes.length ≤ cut then r :: complete (cut - r.bytes.length) rs else []

/-- A log that consists of the records. -/
def log (rs : List StoredRecord) : Bytes := rs.flatMap bytes

/-- The records that reading one after the other gives, each in the `logrecord` of the one
before. -/
def readings (lr : LogRecord) : List StoredRecord → List LogRecord
  | [] => []
  | r :: rs => r.into lr :: readings (r.into lr) rs

end StoredRecord

/-- Extract records until there is none, or the buffer is at its end. -/
def extractAll : ℕ → LogRecord → Bytes → Option (List LogRecord)
  | 0, _, _ => some []
  | fuel + 1, lr, buf =>
      if buf = [] then some []
      else do
        let (lr, n) ← lr.extractWithin buf
        if lr.command = logcmdNone then some [lr]
        else
          let lrs ← extractAll fuel lr (buf.drop n)
          some (lr :: lrs)

open StoredRecord

/-- The record that is read next. -/
lemma extractAll_record {r : StoredRecord} (h : r.Storable) (fuel : ℕ) (lr : LogRecord)
    (rest : Bytes) : extractAll (fuel + 1) lr (r.bytes ++ rest)
      = (extractAll fuel (r.into lr) rest).map (r.into lr :: ·) := by
  have hne : r.bytes ++ rest ≠ [] := by
    have hle := h.isFrame.le
    rw [← List.length_pos_iff, List.length_append]
    omega
  have hcommand : (r.into lr).command ≠ logcmdNone := by
    cases r with
    | base command => rcases h with rfl | rfl <;> simp [into, logcmdQuiesce, logcmdWake, logcmdNone]
    | epoch e => simp [into, logcmdEpoch, logcmdNone]
    | kv command key val ts pad =>
        obtain ⟨hc, -⟩ := h
        rcases hc with rfl | rfl | rfl <;>
          simp [into, logcmdPut, logcmdReplace, logcmdRemove, logcmdNone]
    | kvdelta key val prevTs ts pad => simp [into, logcmdModify, logcmdNone]
  rw [extractAll, if_neg hne, LogRecord.extractWithin_eq, if_neg (h.not_shortModify rest),
    h.extract]
  simp only [Option.bind_eq_bind, Option.bind_some, if_neg hcommand, List.drop_left]
  cases extractAll fuel (r.into lr) rest <;> rfl

/-- What is left of a torn record. -/
lemma extractAll_torn {buf : Bytes} (hne : buf ≠ []) (h : ¬ Framed buf) (fuel : ℕ)
    (lr : LogRecord) : extractAll (fuel + 1) lr buf = some [{ lr with command := logcmdNone }] := by
  rw [extractAll, if_neg hne, LogRecord.extractWithin_eq, if_neg fun hs => h hs.1,
    LogRecord.extract_eq, if_neg fun hx => h hx.1]
  simp

/-- **A log that is cut off** gives its complete records, and then none. -/
lemma extractAll_take : ∀ (rs : List StoredRecord), (∀ r ∈ rs, r.Storable) →
    ∀ (cut fuel : ℕ) (lr : LogRecord), ((log rs).take cut).length ≤ fuel →
    ∃ torn, (log rs).take cut = log (complete cut rs) ++ torn ∧
      extractAll fuel lr ((log rs).take cut) = some (readings lr (complete cut rs) ++
        if torn = [] then [] else [{ (complete cut rs).foldl into lr with command := logcmdNone }])
  | [], _, cut, fuel, lr, _ => by
      refine ⟨[], by simp [log, complete], ?_⟩
      rw [log, List.flatMap_nil, List.take_nil]
      cases fuel <;> rfl
  | r :: rs, hrs, cut, fuel, lr, hfuel => by
      have hr := hrs r List.mem_cons_self
      have hle := hr.isFrame.le
      have hlog : log (r :: rs) = r.bytes ++ log rs := List.flatMap_cons
      rw [hlog] at hfuel ⊢
      rw [complete]
      split_ifs with hcut
      · -- the record is complete
        rw [List.take_append, List.take_of_length_le hcut] at hfuel ⊢
        obtain ⟨fuel, rfl⟩ : ∃ f, fuel = f + 1 := by
          rw [List.length_append] at hfuel
          exact ⟨fuel - 1, by omega⟩
        obtain ⟨torn, h1, h2⟩ := extractAll_take rs (fun x hx => hrs x (List.mem_cons_of_mem _ hx))
          (cut - r.bytes.length) fuel (r.into lr) (by rw [List.length_append] at hfuel; omega)
        refine ⟨torn, ?_, ?_⟩
        · rw [h1, log, log, List.flatMap_cons, List.append_assoc]
        · rw [extractAll_record hr, h2]
          rfl
      · rw [List.take_append_of_le_length (by omega)] at hfuel ⊢
        refine ⟨r.bytes.take cut, rfl, ?_⟩
        have hlen : (r.bytes.take cut).length = cut := by
          rw [List.length_take]
          omega
        by_cases h0 : r.bytes.take cut = []
        · rw [if_pos h0, h0]
          cases fuel <;> rfl
        · obtain ⟨fuel, rfl⟩ : ∃ f, fuel = f + 1 := by
            have := List.length_pos_iff.mpr h0
            exact ⟨fuel - 1, by omega⟩
          rw [extractAll_torn h0 (hr.not_framed (not_le.mp hcut)), if_neg h0]
          rfl

/-- **`extract`** on a buffer with any contents reads nothing outside the buffer, and returns where
the next record is, unless the buffer starts with a modify record and ends in front of its
`keylen_`.  On a log of stored records that is cut off at any byte, it finds the complete records as
they were stored, and then none if anything is left. -/
theorem extract_within_and_torn (lr : LogRecord) (buf : Bytes) (hbuf : buf ≠ [])
    (rs : List StoredRecord) (hrs : ∀ r ∈ rs, r.Storable) (cut : ℕ) :
    ((∃ p, lr.extractWithin buf = some p ∧ 0 < p.2 ∧ p.2 ≤ buf.length) ↔
      ¬ LogRecord.ShortModify buf) ∧
    ∃ torn, (log rs).take cut = log (complete cut rs) ++ torn ∧
      extractAll ((log rs).take cut).length lr ((log rs).take cut)
        = some (readings lr (complete cut rs) ++
          if torn = [] then [] else
          [{ (complete cut rs).foldl into lr with command := logcmdNone }]) := by
  refine ⟨⟨?_, fun hs => ⟨lr.extract buf, ?_, lr.extract_length hbuf⟩⟩,
    extractAll_take rs hrs cut _ lr le_rfl⟩
  · rintro ⟨p, hp, -⟩ hs
    rw [LogRecord.extractWithin_eq, if_pos hs] at hp
    exact absurd hp (by simp)
  · rw [LogRecord.extractWithin_eq, if_neg hs]

/-- A modify record as the buffer; and a log of an epoch, a replace and a modify record that ends
behind the first eight bytes of the third. -/
theorem extract_within_and_torn_modify :
    ((∃ p, LogRecord.blank.extractWithin (kvdelta [97] [99] 3 5 0).bytes = some p ∧ 0 < p.2 ∧
        p.2 ≤ (kvdelta [97] [99] 3 5 0).bytes.length) ↔
      ¬ LogRecord.ShortModify (kvdelta [97] [99] 3 5 0).bytes) ∧
    ∃ torn, (log [.epoch 5, .kv logcmdReplace [97] [98] 3 0, .kvdelta [97] [99] 3 5 0]).take 50
        = log [.epoch 5, .kv logcmdReplace [97] [98] 3 0] ++ torn ∧
      extractAll 50 LogRecord.blank
        ((log [.epoch 5, .kv logcmdReplace [97] [98] 3 0, .kvdelta [97] [99] 3 5 0]).take 50)
          = some ([⟨logcmdEpoch, [], [], 0, 0, 5⟩, ⟨logcmdReplace, [97], [98], 3, 0, 5⟩] ++
            if torn = [] then [] else [⟨logcmdNone, [97], [98], 3, 0, 5⟩]) := by
  have hrs : ∀ r ∈ [StoredRecord.epoch 5, .kv logcmdReplace [97] [98] 3 0,
      .kvdelta [97] [99] 3 5 0], r.Storable := by
    intro r hr
    simp only [List.mem_cons, List.not_mem_nil, or_false] at hr
    rcases hr with rfl | rfl | rfl
    · exact trivial
    · exact ⟨Or.inr (Or.inl rfl), by decide, by decide⟩
    · exact ⟨by decide, by decide⟩
  exact extract_within_and_torn LogRecord.blank (kvdelta [97] [99] 3 5 0).bytes (by decide) _ hrs 50

/-- A modify record of eight bytes at the end of the buffer: its key length is read sixteen bytes
behind it. -/
theorem extractWithin_short_modify :
    LogRecord.blank.extractWithin [0x6B, 0x4D, 0x4F, 0x44, 8, 0, 0, 0] = none := by decide

end MasstreeLHM
