import MasstreeLHM.Log.Protocol

/-!
# Logs as lists of entries

What the server writes to a log is a list of entries: epochs, wake records, quiescence
notifications, and updates.  Updates carry their place in the order of all updates, which is not in
the file.

`frames` are the records of the entries.  A `Sound` entry can be written and found again:
`Logged.store_sound` says so for an update, for whatever the padding of its record holds.  With
that, what the passes of recovery find in a file becomes a function of the entries:
`infoRecords_frames` and `extractRecords_frames` for the records, `quiescent_frames` for the
notification at the end, and `lastOf_frames_cons` for the last epoch.

`updatesOf` are the updates of a list of entries with the epochs that they were recorded in.
**`replays_frames`** says what the replay of a list of ordered entries runs: the updates of the
epochs below the bound.
-/

namespace MasstreeLHM

/-- What is written to a log at one go. -/
inductive LogEntry
  | epoch (e : UInt64)
  | wake
  | quiesce
  | update (seq : ℕ) (l : Logged) (pad : UInt32)

namespace LogEntry

/-- The record of an entry. -/
def bytes : LogEntry → Bytes
  | .epoch e => logrecEpochStore e
  | .wake => logrecBaseStore logcmdWake
  | .quiesce => logrecBaseStore logcmdQuiesce
  | .update _ l pad => l.store pad

/-- The entry can be written, and its record can be found again. -/
def Sound : LogEntry → Prop
  | .update _ l _ =>
      (l.command = logcmdPut ∨ l.command = logcmdReplace ∨ l.command = logcmdRemove) ∧
        l.room ≤ logBufferLen ∧ l.key ≠ [] ∧ l.key.length ≤ maxKeyLen
  | _ => True

end LogEntry

/-- The records of the entries. -/
def frames (es : List LogEntry) : List Bytes := es.map LogEntry.bytes

@[simp] lemma frames_nil : frames [] = [] := rfl

@[simp] lemma frames_cons (x : LogEntry) (es : List LogEntry) :
    frames (x :: es) = x.bytes :: frames es := rfl

@[simp] lemma frames_append (es fs : List LogEntry) : frames (es ++ fs) = frames es ++ frames fs :=
  List.map_append

/-! ## The records of entries -/

lemma isFrame_base {command : ℕ} : IsFrame (logrecBaseStore command) := by
  have hlen : (logrecBaseStore command).length = 8 := by simp [logrecBaseStore]
  refine ⟨hlen.ge, ?_⟩
  have hsize : recSize (storeLE 4 command ++ (storeLE 4 8 ++ [])) = 8 :=
    LogRecord.recSize_store [] (by decide)
  rw [List.append_nil] at hsize
  rw [logrecBaseStore, hsize, ← hlen]
  rfl

lemma recCommand_base {command : ℕ} (h : command < 2 ^ 32) :
    recCommand (logrecBaseStore command) = command := LogRecord.recCommand_store _ h

lemma isFrame_epoch (e : UInt64) : IsFrame (logrecEpochStore e) := by
  have hlen : (logrecEpochStore e).length = 16 := by simp [logrecEpochStore]
  refine ⟨by omega, ?_⟩
  rw [hlen, logrecEpochStore, List.append_assoc]
  exact LogRecord.recSize_store _ (by decide)

lemma recCommand_epoch (e : UInt64) : recCommand (logrecEpochStore e) = logcmdEpoch := by
  rw [logrecEpochStore, List.append_assoc]
  exact LogRecord.recCommand_store _ (by decide)

lemma recEpoch_epoch (e : UInt64) : recEpoch (logrecEpochStore e) = e := by
  have hload : UInt64.ofNat (loadLE 8 ((storeLE 4 logcmdEpoch ++ (storeLE 4 16
      ++ (storeLE 8 e.toNat ++ []))).drop 8)) = e := LogRecord.load_ts []
  rw [List.append_nil] at hload
  rw [recEpoch, logrecEpochStore, List.append_assoc]
  exact hload

/-- The record of an update, as `extract` reads it in epoch `e`. -/
lemma Logged.extract_store_epoch {l : Logged} (pad : UInt32) (e : UInt64)
    (hc : l.command = logcmdPut ∨ l.command = logcmdReplace ∨ l.command = logcmdRemove)
    (hroom : l.room ≤ logBufferLen) (hkey : l.key.length ≤ maxKeyLen) :
    ({ LogRecord.blank with epoch := e } : LogRecord).extract (l.store pad)
      = ({ l.asRecord with epoch := e }, (l.store pad).length) := by
  have hsize : 32 + l.key.length + l.value.length < 2 ^ 32 := by
    simp only [Logged.room, logBufferLen] at hroom
    omega
  by_cases hm : l.IsModify
  · have h := LogRecord.extract_kvdeltaStore { LogRecord.blank with epoch := e } l.times.prevTs
      l.times.ts pad [] hkey hsize
    rw [List.append_nil] at h
    rw [Logged.store, Logged.asRecord, if_pos hm, if_pos hm, h]
    refine Prod.ext rfl ?_
    simp [logrecKvdeltaStore]
    omega
  · have hlen : 24 + l.key.length + l.value.length < 2 ^ 32 := by omega
    have h :=
      LogRecord.extract_kvStore { LogRecord.blank with epoch := e } l.times.ts pad [] hc hkey
      hlen
    rw [List.append_nil] at h
    rw [Logged.store, Logged.asRecord, if_neg hm, if_neg hm, h]
    refine Prod.ext rfl ?_
    simp [logrecKvStore]
    omega

lemma Logged.asRecord_command {l : Logged}
    (hc : l.command = logcmdPut ∨ l.command = logcmdReplace ∨ l.command = logcmdRemove) :
    IsUpdateCommand l.asRecord.command := by
  rw [Logged.asRecord]
  split
  · exact Or.inr (Or.inr (Or.inl rfl))
  · rcases hc with h | h | h
    · exact Or.inl h
    · exact Or.inr (Or.inl h)
    · exact Or.inr (Or.inr (Or.inr h))

/-- An update is no other record. -/
lemma IsUpdateCommand.ne {command : ℕ} (h : IsUpdateCommand command) :
    command ≠ logcmdNone ∧ command ≠ logcmdEpoch ∧ command ≠ logcmdWake ∧
      command ≠ logcmdQuiesce := by
  rcases h with rfl | rfl | rfl | rfl <;> decide

/-- The record of an update is a record, and the update can be read from it. -/
lemma Logged.store_sound {l : Logged} (pad : UInt32)
    (hc : l.command = logcmdPut ∨ l.command = logcmdReplace ∨ l.command = logcmdRemove)
    (hroom : l.room ≤ logBufferLen) (hkey : l.key.length ≤ maxKeyLen) :
    IsFrame (l.store pad) ∧ Extractable (l.store pad) ∧
      recCommand (l.store pad) = l.asRecord.command ∧
      ∀ e, recordOf e (l.store pad) = { l.asRecord with epoch := e } := by
  have hcmd := Logged.asRecord_command hc
  have hx : ∀ e, (Framed (l.store pad) ∧ Extractable (l.store pad)) ∧
      ({ LogRecord.blank with epoch := e } : LogRecord).fields (l.store pad)
        = { l.asRecord with epoch := e } ∧
      recSize (l.store pad) = (l.store pad).length := by
    intro e
    have h := Logged.extract_store_epoch pad e hc hroom hkey
    rw [LogRecord.extract_eq] at h
    split at h
    · next hf =>
        obtain ⟨h1, h2⟩ := Prod.mk.inj h
        exact ⟨hf, h1, h2⟩
    · exact absurd (congrArg (fun p : LogRecord × ℕ => p.1.command) h).symm hcmd.ne.1
  obtain ⟨⟨hf, hext⟩, hfields, hsize⟩ := hx 0
  refine ⟨⟨hf.1, hsize⟩, hext, ?_, ?_⟩
  · rw [← LogRecord.fields_command { LogRecord.blank with epoch := 0 }, hfields]
  · intro e
    rw [recordOf, (hx e).2.1, LogRecord.forget, Logged.asRecord]
    split
    · rfl
    · have hne : l.command ≠ logcmdModify := by
        rcases hc with h | h | h <;> rw [h] <;> decide
      rw [if_neg hne]

namespace LogEntry

variable {x : LogEntry}

lemma Sound.accepted (h : x.Sound) :
    IsFrame x.bytes ∧ infoAccepts x.bytes = true ∧ extractAccepts x.bytes = true := by
  have hbase : ∀ command, command = logcmdWake ∨ command = logcmdQuiesce →
      IsFrame (logrecBaseStore command) ∧ infoAccepts (logrecBaseStore command) = true ∧
        extractAccepts (logrecBaseStore command) = true := by
    rintro command (rfl | rfl) <;> exact ⟨isFrame_base, by decide, by decide⟩
  cases x with
  | epoch e =>
      have hf := isFrame_epoch e
      have hlen : (logrecEpochStore e).length = 16 := by simp [logrecEpochStore]
      have hc := recCommand_epoch e
      refine ⟨hf, ?_, ?_⟩
      · rw [bytes, infoAccepts, if_pos hc, hf.size, hlen]
        rfl
      · rw [bytes, extractAccepts_iff]
        refine ⟨by simpa using hf.framed [], ?_⟩
        rw [Extractable, hc, hf.size, hlen]
        exact ⟨by decide, fun h => absurd h (by decide), fun h => absurd h (by decide),
          fun _ => le_rfl⟩
  | wake => exact hbase _ (Or.inl rfl)
  | quiesce => exact hbase _ (Or.inr rfl)
  | update seq l pad =>
      obtain ⟨hc, hroom, -, hkey⟩ := h
      obtain ⟨hf, hx, hcmd, -⟩ := Logged.store_sound pad hc hroom hkey
      have hu := Logged.asRecord_command hc
      refine ⟨hf, ?_, ?_⟩
      · have hne : recCommand (l.store pad) ≠ logcmdEpoch := by
          rw [hcmd]
          exact hu.ne.2.1
        rw [bytes, infoAccepts, if_neg hne, hcmd]
        exact decide_eq_true (Or.inr (Or.inl hu))
      · rw [bytes, extractAccepts_iff]
        exact ⟨by simpa using hf.framed [], hx⟩

lemma recCommand_bytes (h : x.Sound) :
    (recCommand x.bytes = logcmdEpoch ↔ ∃ e, x = .epoch e) ∧
    (recCommand x.bytes = logcmdWake ↔ x = .wake) ∧
    (recCommand x.bytes = logcmdQuiesce ↔ x = .quiesce) := by
  cases x with
  | epoch e =>
      rw [bytes, recCommand_epoch e]
      exact ⟨⟨fun _ => ⟨e, rfl⟩, fun _ => rfl⟩, by simp [logcmdEpoch, logcmdWake],
        by simp [logcmdEpoch, logcmdQuiesce]⟩
  | wake =>
      rw [bytes, recCommand_base (by decide)]
      exact ⟨by simp [logcmdEpoch, logcmdWake], by simp, by simp [logcmdWake, logcmdQuiesce]⟩
  | quiesce =>
      rw [bytes, recCommand_base (by decide)]
      exact ⟨by simp [logcmdEpoch, logcmdQuiesce], by simp [logcmdWake, logcmdQuiesce], by simp⟩
  | update seq l pad =>
      obtain ⟨hc, hroom, -, hkey⟩ := h
      obtain ⟨-, -, hcmd, -⟩ := Logged.store_sound pad hc hroom hkey
      rw [bytes, hcmd]
      simp [(Logged.asRecord_command hc).ne]

end LogEntry

/-! ## Lists of entries -/

section Lists

variable {es : List LogEntry}

lemma infoRecords_frames (h : ∀ x ∈ es, x.Sound) : infoRecords (frames es).flatten = frames es := by
  have hacc : ∀ fr ∈ frames es, IsFrame fr ∧ infoAccepts fr = true := by
    intro fr hfr
    obtain ⟨x, hx, rfl⟩ := List.mem_map.mp hfr
    exact ⟨(h x hx).accepted.1, (h x hx).accepted.2.1⟩
  have := walk_flatten infoAccepts_local [] (fun h => absurd h.1.1 (by simp)) _
    (frames es).flatten.length hacc (length_le_flatten fun fr hfr => (hacc fr hfr).1)
  rwa [List.append_nil] at this

lemma extractRecords_frames (h : ∀ x ∈ es, x.Sound) :
    extractRecords (frames es).flatten = frames es := by
  have hacc : ∀ fr ∈ frames es, IsFrame fr ∧ extractAccepts fr = true := by
    intro fr hfr
    obtain ⟨x, hx, rfl⟩ := List.mem_map.mp hfr
    exact ⟨(h x hx).accepted.1, (h x hx).accepted.2.2⟩
  have := walk_flatten extractAccepts_local [] (fun h => absurd h.1.1 (by simp)) _
    (frames es).flatten.length hacc (length_le_flatten fun fr hfr => (hacc fr hfr).1)
  rwa [List.append_nil] at this

lemma logInfo_frames (h : ∀ x ∈ es, x.Sound) :
    logInfo (frames es).flatten = infoOf (frames es) := by
  refine logInfo_flatten ?_
  intro fr hfr
  obtain ⟨x, hx, rfl⟩ := List.mem_map.mp hfr
  exact ⟨(h x hx).accepted.1, (h x hx).accepted.2.1⟩

/-- The log ends with a quiescence notification. -/
def Asleep (es : List LogEntry) : Prop := ∃ init, es = init ++ [.quiesce]

lemma quiescent_frames (h : ∀ x ∈ es, x.Sound) (hne : es ≠ []) :
    (infoOf (frames es)).quiescent = true ↔ Asleep es := by
  obtain rfl | ⟨init, x, rfl⟩ := List.eq_nil_or_concat' es
  · exact absurd rfl hne
  rw [frames_append, frames_cons, frames_nil, infoOf_quiescent_concat, beq_iff_eq,
    (LogEntry.recCommand_bytes (h x (by simp))).2.2]
  constructor
  · rintro rfl
    exact ⟨init, rfl⟩
  · rintro ⟨init', h'⟩
    exact (List.append_inj' h' rfl).2 |> List.singleton_inj.mp

lemma frames_flatten_eq_nil (h : ∀ x ∈ es, x.Sound) : (frames es).flatten = [] ↔ es = [] := by
  cases es with
  | nil => simp
  | cons x es =>
      have hx := (h x List.mem_cons_self).accepted.1.le
      simp only [frames_cons, List.flatten_cons, List.append_eq_nil_iff, reduceCtorEq, iff_false,
        not_and]
      intro h0
      rw [h0] at hx
      simp at hx

/-- The epoch behind an entry. -/
def LogEntry.after (e : UInt64) : LogEntry → UInt64
  | .epoch e' => e'
  | _ => e

lemma epochAfter_bytes {x : LogEntry} (h : x.Sound) (e : UInt64) :
    epochAfter e x.bytes = x.after e := by
  obtain ⟨h1, -⟩ := LogEntry.recCommand_bytes h
  rw [epochAfter]
  by_cases hx : ∃ e', x = .epoch e'
  · rw [if_pos (h1.mpr hx)]
    obtain ⟨e', rfl⟩ := hx
    exact recEpoch_epoch e'
  · rw [if_neg (fun hc => hx (h1.mp hc))]
    cases x with
    | epoch e' => exact absurd ⟨e', rfl⟩ hx
    | wake => rfl
    | quiesce => rfl
    | update => rfl

lemma lastOf_frames_cons {x : LogEntry} (h : x.Sound) (e : UInt64) (es : List LogEntry) :
    lastOf e (frames (x :: es)) = lastOf (x.after e) (frames es) := by
  rw [← epochAfter_bytes h e]
  rfl

lemma lastOf_frames_single {x : LogEntry} (h : x.Sound) (e : UInt64) :
    lastOf e (frames [x]) = x.after e := epochAfter_bytes h e

lemma wakesOf_frames_wake (e : UInt64) : wakesOf e (frames [.wake]) = [e] := by
  rw [frames_cons, wakesOf, LogEntry.bytes, if_pos (recCommand_base (by decide))]
  rfl

/-- The updates, with their places in the order and with the epoch that they were recorded in. -/
def updatesOf : UInt64 → List LogEntry → List (ℕ × LogRecord)
  | _, [] => []
  | _, .epoch e :: es => updatesOf e es
  | e, .wake :: es => updatesOf e es
  | e, .quiesce :: es => updatesOf e es
  | e, .update seq l _ :: es => (seq, { l.asRecord with epoch := e }) :: updatesOf e es

lemma updatesOf_append : ∀ (e : UInt64) (es fs : List LogEntry), (∀ x ∈ es, x.Sound) →
    updatesOf e (es ++ fs) = updatesOf e es ++ updatesOf (lastOf e (frames es)) fs
  | _, [], _, _ => rfl
  | e, x :: es, fs, h => by
      have ih := fun e => updatesOf_append e es fs fun y hy => h y (List.mem_cons_of_mem _ hy)
      rw [lastOf_frames_cons (h x List.mem_cons_self)]
      cases x with
      | epoch e' => exact ih e'
      | wake => exact ih e
      | quiesce => exact ih e
      | update seq l pad => exact congrArg _ (ih e)

/-- In ordered entries the epochs of the updates lie between the first and the last one. -/
lemma updatesOf_epoch : ∀ (e : UInt64) (es : List LogEntry), (∀ x ∈ es, x.Sound) →
    Ordered (frames es) → (∀ x ∈ epochsOf (frames es), e ≤ x) →
    ∀ p ∈ updatesOf e es, e ≤ p.2.epoch
  | _, [], _, _, _, _, hp => by cases hp
  | e, x :: es, h, hO, he, p, hp => by
      have hx := h x List.mem_cons_self
      have hes := fun y hy => h y (List.mem_cons_of_mem _ hy)
      cases x with
      | epoch e' =>
          have hc := recCommand_epoch e'
          have h1 := epochsOf_cons_epoch (frames es) hc
          rw [recEpoch_epoch] at h1
          change epochsOf (frames (.epoch e' :: es)) = _ at h1
          have hle := he e' (by rw [h1]; exact List.mem_cons_self)
          have hrest := hO.le_of_cons hc
          rw [LogEntry.bytes, recEpoch_epoch] at hrest
          exact UInt64.le_trans hle (updatesOf_epoch e' es hes hO.tail hrest p hp)
      | wake =>
          rw [frames_cons, epochsOf_cons_other _ (by decide)] at he
          exact updatesOf_epoch e es hes hO.tail he p hp
      | quiesce =>
          rw [frames_cons, epochsOf_cons_other _ (by decide)] at he
          exact updatesOf_epoch e es hes hO.tail he p hp
      | update seq l pad =>
          have hne : recCommand (LogEntry.update seq l pad).bytes ≠ logcmdEpoch := by
            rw [ne_eq, (LogEntry.recCommand_bytes hx).1]
            simp
          rw [frames_cons, epochsOf_cons_other _ hne] at he
          rcases List.mem_cons.mp hp with rfl | hp
          · exact UInt64.le_refl _
          · exact updatesOf_epoch e es hes hO.tail he p hp

/-- **The replay of a list of entries** up to epoch `M`: the updates of earlier epochs. -/
lemma replays_frames {M : UInt64} (hM : M.toNat < 2 ^ 63) : ∀ (e : UInt64) (es : List LogEntry),
    (∀ x ∈ es, x.Sound) → Ordered (frames es) → (∀ x ∈ epochsOf (frames es), e ≤ x) →
    e.toNat < M.toNat → (∀ p ∈ updatesOf e es, p.2.epoch ≠ 0) →
    replays M e (frames es)
      = ((updatesOf e es).filter fun p => p.2.epoch.toNat < M.toNat).map Prod.snd
  | _, [], _, _, _, _, _ => rfl
  | e, x :: es, h, hO, he, heM, hne => by
      have hx := h x List.mem_cons_self
      have hes := fun y hy => h y (List.mem_cons_of_mem _ hy)
      have hafter := epochAfter_bytes hx e
      obtain ⟨hc, hw, hq⟩ := LogEntry.recCommand_bytes hx
      rw [frames_cons, replays, hafter]
      cases x with
      | epoch e' =>
          have hce := recCommand_epoch e'
          have hrest := hO.le_of_cons hce
          have hb : e'.toNat < 2 ^ 63 := hO.bounded e' (by
            rw [frames_cons, LogEntry.bytes, epochsOf_cons_epoch _ hce, recEpoch_epoch]
            exact List.mem_cons_self)
          rw [LogEntry.bytes, recEpoch_epoch] at hrest
          have hends : Ends M (LogEntry.epoch e').bytes ↔ ¬ e'.toNat < M.toNat := by
            rw [Ends, LogEntry.bytes, recEpoch_epoch, circularLess_iff hb hM]
            exact and_iff_right hce
          by_cases hlt : e'.toNat < M.toNat
          · have hnu : ¬ IsUpdateCommand (recCommand (LogEntry.epoch e').bytes) := fun hu =>
              hu.ne.2.1 hce
            rw [if_neg (fun h => hends.mp h hlt), if_neg (fun h => hnu h.2.1), List.nil_append]
            exact replays_frames hM e' es hes hO.tail hrest hlt hne
          · rw [if_pos (hends.mpr hlt)]
            have hnone : (updatesOf e' es).filter (fun p => p.2.epoch.toNat < M.toNat) = [] := by
              rw [List.filter_eq_nil_iff]
              intro p hp
              have := UInt64.le_iff_toNat_le.mp (updatesOf_epoch e' es hes hO.tail hrest p hp)
              simp
              omega
            rw [updatesOf, hnone]
            rfl
      | wake =>
          rw [frames_cons, epochsOf_cons_other _ (by decide)] at he
          rw [if_neg (fun h => by have := hc.mp h.1; simp at this),
            if_neg (fun h => h.2.1.ne.2.2.1 (hw.mpr rfl))]
          exact replays_frames hM e es hes hO.tail he heM hne
      | quiesce =>
          rw [frames_cons, epochsOf_cons_other _ (by decide)] at he
          rw [if_neg (fun h => by have := hc.mp h.1; simp at this),
            if_neg (fun h => h.2.1.ne.2.2.2 (hq.mpr rfl))]
          exact replays_frames hM e es hes hO.tail he heM hne
      | update seq l pad =>
          obtain ⟨hcmd, hroom, hkey0, hkey⟩ := hx
          obtain ⟨-, -, hrec, hof⟩ := Logged.store_sound pad hcmd hroom hkey
          have hnc : recCommand (LogEntry.update seq l pad).bytes ≠ logcmdEpoch := by
            rw [ne_eq, hc]
            simp
          rw [frames_cons, epochsOf_cons_other _ hnc] at he
          have hne0 : e ≠ 0 := hne (seq, { l.asRecord with epoch := e }) List.mem_cons_self
          have hk : (recordOf e (l.store pad)).key ≠ [] := by
            rw [hof, Logged.asRecord]
            split <;> exact hkey0
          have ih := replays_frames hM e es hes hO.tail he heM
            fun p hp => hne p (List.mem_cons_of_mem _ hp)
          have hu : IsUpdateCommand (recCommand (l.store pad)) := by
            rw [hrec]
            exact Logged.asRecord_command hcmd
          have hsame : (LogEntry.update seq l pad).after e = e := rfl
          rw [if_neg (fun h => hnc h.1), hsame, LogEntry.bytes, if_pos ⟨hne0, hu, hk⟩, hof, ih,
            updatesOf, List.filter_cons_of_pos (by simpa using heM)]
          rfl

end Lists

end MasstreeLHM
