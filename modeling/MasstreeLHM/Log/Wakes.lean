import Mathlib.Data.List.Induction
import MasstreeLHM.Log.Journal

/-!
# Wake records

A log that has gone to sleep bounds the replay only through wake records: an update that is recorded
after a sleeping log has been written to must have a wake record in front of it, or there must be
one in some file.  This is the invariant that every careful step keeps.

`LogOk` is the part about one log, in terms of the entries in its file and in its buffer: its epochs
are in order and not behind the global ones, and a log that has gone to sleep has a wake epoch
announced since, or its next update will announce one.  `LogOk.record` keeps it when an update is
recorded, and `LogOk.run` in a round of the logger, which either writes the buffer (`LogOk.flushed`)
or the notification (`LogOk.asleepNow`).

`LogInv` adds what the logs have to do with each other, with the updates numbered in their order.
`LogInv.tick`, `LogInv.logger` and `LogInv.update` are its step lemmas, one for each kind of step,
and **`LogInv.steps`** carries it through a careful run.
-/

namespace MasstreeLHM

/-! ## The order of the updates -/

section Tagged

variable {n : ℕ}

/-- The updates of log `i`, with their places in the order. -/
def tagged (h : List (Fin n × LogRecord)) (i : Fin n) : List (ℕ × LogRecord) :=
  (h.zipIdx.filter fun p => p.1.1 = i).map fun p => (p.2, p.1.2)

lemma tagged_concat (h : List (Fin n × LogRecord)) (j : Fin n) (r : LogRecord) (i : Fin n) :
    tagged (h ++ [(j, r)]) i = tagged h i ++ if j = i then [(h.length, r)] else [] := by
  rw [tagged, List.zipIdx_append, List.filter_append, List.map_append]
  congr 1
  by_cases hj : j = i <;> simp [hj]

lemma mem_tagged {h : List (Fin n × LogRecord)} {i : Fin n} {m : ℕ} {r : LogRecord} :
    (m, r) ∈ tagged h i ↔ h[m]? = some (i, r) := by
  simp only [tagged, List.mem_map, List.mem_filter, decide_eq_true_eq, Prod.mk.injEq]
  constructor
  · rintro ⟨⟨⟨j, r'⟩, m'⟩, ⟨hmem, rfl⟩, rfl, rfl⟩
    exact List.mem_zipIdx_iff_getElem?.mp hmem
  · intro hm
    exact ⟨((i, r), m), ⟨List.mem_zipIdx_iff_getElem?.mpr hm, rfl⟩, rfl, rfl⟩

/-- The places increase. -/
lemma tagged_sorted (h : List (Fin n × LogRecord)) (i : Fin n) :
    ((tagged h i).map Prod.fst).Pairwise (· < ·) := by
  have hsub : ((tagged h i).map Prod.fst).Sublist (h.zipIdx.map Prod.snd) := by
    rw [tagged, List.map_map]
    exact List.filter_sublist.map _
  refine List.Pairwise.sublist hsub ?_
  rw [List.zipIdx_map_snd]
  exact List.pairwise_lt_range'

/-- The updates of log `i` among the first `k` updates. -/
lemma tagged_take (k : ℕ) (i : Fin n) (h : List (Fin n × LogRecord)) :
    ((tagged h i).filter fun p => p.1 < k).map Prod.snd
      = ((h.take k).filter fun p => p.1 = i).map Prod.snd := by
  induction h using List.reverseRecOn with
  | nil => simp [tagged]
  | append_singleton h p ih =>
      obtain ⟨j, r⟩ := p
      rw [tagged_concat, List.filter_append, List.map_append, ih, List.take_append,
        List.filter_append, List.map_append]
      congr 1
      by_cases hk : h.length < k
      · have htake : [(j, r)].take (k - h.length) = [(j, r)] :=
          List.take_of_length_le (by simp; omega)
        rw [htake]
        by_cases hj : j = i <;> simp [hj, hk]
      · have htake : [(j, r)].take (k - h.length) = [] := by
          rw [show k - h.length = 0 by omega, List.take_zero]
        rw [htake]
        by_cases hj : j = i <;> simp [hj, hk]

end Tagged

/-! ## One log -/

/-- A wake record of epoch `e` or later. -/
def HasWake (e : UInt64) (es : List LogEntry) : Prop := ∃ w ∈ wakesOf 0 (frames es), e ≤ w

lemma HasWake.append {e : UInt64} {es : List LogEntry} (h : HasWake e es) (fs : List LogEntry) :
    HasWake e (es ++ fs) := by
  obtain ⟨w, hw, hle⟩ := h
  refine ⟨w, ?_, hle⟩
  rw [frames_append, wakesOf_append]
  exact List.mem_append_left _ hw

lemma Ordered.of_append {es fs : List LogEntry} (h : Ordered (frames (es ++ fs))) :
    Ordered (frames es) := by
  refine h.of_epochs (epochsOf_sublist ?_)
  rw [frames_append]
  exact List.sublist_append_left _ _

/-- The epoch behind the last entry is not before any other. -/
lemma Ordered.last_le {es fs : List LogEntry} (h : Ordered (frames (es ++ fs))) :
    lastOf 0 (frames es) ≤ lastOf 0 (frames (es ++ fs)) := by
  rcases lastOf_mem 0 (frames es) with h0 | h0
  · rw [h0]
    exact UInt64.zero_le
  · refine (le_lastOf 0 _ h fun _ _ => UInt64.zero_le).2 _ ?_
    rw [frames_append, epochsOf_append]
    exact List.mem_append_left _ h0

/-- Wake records are not later than the last epoch. -/
lemma Ordered.wake_le {es : List LogEntry} (h : Ordered (frames es)) {w : UInt64}
    (hw : w ∈ wakesOf 0 (frames es)) : w ≤ lastOf 0 (frames es) := by
  rcases mem_wakesOf hw with rfl | hw
  · exact UInt64.zero_le
  · exact (le_lastOf 0 _ h fun _ _ => UInt64.zero_le).2 _ hw

/-- What holds of a log, with the entries in its file and in its buffer. -/
structure LogOk (ge gw : UInt64) (li : LogInfo) (disk pending : List LogEntry) : Prop where
  file : li.file = (frames disk).flatten
  buf : li.buf = (frames pending).flatten
  sound : ∀ x ∈ disk ++ pending, x.Sound
  ordered : Ordered (frames (disk ++ pending))
  last : li.logEpoch = lastOf 0 (frames (disk ++ pending))
  last_le : li.logEpoch ≤ ge
  wake_le : li.wakeEpoch ≤ gw
  begun : disk ≠ [] → lastOf 0 (frames disk) ≠ 0
  begunBuf : pending ≠ [] → li.logEpoch ≠ 0
  /-- What is in the buffer ends with an update. -/
  ends : pending = [] ∨ ∃ init seq l pad, pending = init ++ [.update seq l pad]
  /-- A wake epoch has been announced since the log went to sleep, or it will be by the next
  update. -/
  asleep : Asleep disk → lastOf 0 (frames disk) ≤ gw ∨
    pending = [] ∧ li.wakeEpoch = gw ∧ li.quiescentEpoch ≠ 0

namespace LogOk

variable {ge gw : UInt64} {li : LogInfo} {disk pending : List LogEntry}

lemma disk_le (h : LogOk ge gw li disk pending) : lastOf 0 (frames disk) ≤ ge := by
  refine UInt64.le_trans h.ordered.last_le ?_
  rw [← h.last]
  exact h.last_le

/-- Global epochs go on. -/
lemma mono (h : LogOk ge gw li disk pending) {ge' gw' : UInt64} (hge : ge ≤ ge')
    (hgw : gw' = gw ∨ gw ≤ gw' ∧ gw' = ge) : LogOk ge' gw' li disk pending := by
  have hle : gw ≤ gw' := by
    rcases hgw with rfl | hgw
    · exact UInt64.le_refl _
    · exact hgw.1
  refine { h with
    last_le := UInt64.le_trans h.last_le hge
    wake_le := UInt64.le_trans h.wake_le hle
    asleep := ?_ }
  intro ha
  rcases hgw with rfl | ⟨-, rfl⟩
  · exact h.asleep ha
  · exact Or.inl h.disk_le

/-- The entries of an update that is recorded. -/
def newEntries (ge we : UInt64) (li : LogInfo) (seq : ℕ) (l : Logged) (pad : UInt32) :
    List LogEntry :=
  (if ge ≠ li.logEpoch then [.epoch ge] else [])
    ++ (if we ≠ li.wakeEpoch then [.wake] else []) ++ [.update seq l pad]

lemma raiseWake_spec (li : LogInfo) (hge : ge.toNat < 2 ^ 63) (hgw : gw ≤ ge) :
    li.raiseWake ge gw = gw ∧ (li.quiescentEpoch ≠ 0 → gw = ge) ∨
      gw ≤ li.raiseWake ge gw ∧ li.raiseWake ge gw = ge := by
  have hle := UInt64.le_iff_toNat_le.mp hgw
  rw [LogInfo.raiseWake]
  split
  · exact Or.inr ⟨hgw, rfl⟩
  · next hq =>
      refine Or.inl ⟨rfl, ?_⟩
      intro hne
      rw [circularLess_iff (by omega) hge] at hq
      have hnlt : ¬ gw.toNat < ge.toNat := fun h => hq ⟨hne, h⟩
      exact UInt64.toNat_inj.mp (by omega)

lemma raiseWake_le (li : LogInfo) (hge : ge.toNat < 2 ^ 63) (hgw : gw ≤ ge) :
    gw ≤ li.raiseWake ge gw ∧ li.raiseWake ge gw ≤ ge := by
  rcases raiseWake_spec li hge hgw with ⟨h, -⟩ | ⟨h1, h2⟩
  · rw [h]
    exact ⟨UInt64.le_refl _, hgw⟩
  · exact ⟨h1, by rw [h2]; exact UInt64.le_refl _⟩

/-- What `record` leaves. -/
lemma record_eq (hge : ge.toNat < 2 ^ 63) (hgw : gw ≤ ge) (hbuf : li.buf = (frames pending).flatten)
    (seq : ℕ) (l : Logged) (pad : UInt32) :
    (li.record ge gw l pad).logEpoch = ge ∧
    (li.record ge gw l pad).wakeEpoch = li.raiseWake ge gw ∧
    (li.record ge gw l pad).file = li.file ∧
    (li.record ge gw l pad).buf
      = (frames (pending ++ newEntries ge (li.raiseWake ge gw) li seq l pad)).flatten := by
  obtain ⟨-, hle⟩ := raiseWake_le li hge hgw
  have hnot : ¬ circularLess ge (li.raiseWake ge gw) = true := by
    have := UInt64.le_iff_toNat_le.mp hle
    rw [circularLess_iff hge (by omega)]
    omega
  have h1 : (li.recordEpoch ge).logEpoch = ge ∧ (li.recordEpoch ge).wakeEpoch = li.wakeEpoch ∧
      (li.recordEpoch ge).file = li.file ∧ (li.recordEpoch ge).buf
        = (frames (pending ++ if ge ≠ li.logEpoch then [.epoch ge] else [])).flatten := by
    rw [LogInfo.recordEpoch]
    split
    · simp [hbuf, LogEntry.bytes]
    · next h => simp [hbuf, not_not.mp h]
  have h2 : ∀ lj : LogInfo, (lj.leaveQuiescence ge).logEpoch = lj.logEpoch ∧
      (lj.leaveQuiescence ge).wakeEpoch = lj.wakeEpoch ∧
      (lj.leaveQuiescence ge).file = lj.file ∧ (lj.leaveQuiescence ge).buf = lj.buf := by
    intro lj
    rw [LogInfo.leaveQuiescence]
    split <;> exact ⟨rfl, rfl, rfl, rfl⟩
  obtain ⟨h3, h4, h5, h6⟩ := h2 (li.recordEpoch ge)
  rw [h1.1] at h3
  rw [h1.2.1] at h4
  rw [h1.2.2.1] at h5
  rw [h1.2.2.2] at h6
  have hwe : ((li.recordEpoch ge).leaveQuiescence ge).recordedWake ge (li.raiseWake ge gw)
      = li.raiseWake ge gw := by
    rw [LogInfo.recordedWake, if_neg fun h => hnot h.2]
  simp only [LogInfo.record, hwe, newEntries]
  generalize li.raiseWake ge gw = we
  generalize (li.recordEpoch ge).leaveQuiescence ge = lj at h3 h4 h5 h6
  rw [LogInfo.recordWake]
  by_cases hw : we = li.wakeEpoch
  · rw [if_neg (by rw [h4]; exact not_not.mpr hw)]
    refine ⟨h3, h4.trans hw.symm, h5, ?_⟩
    simp [h6, hw, LogEntry.bytes]
  · rw [if_pos (by rw [h4]; exact hw)]
    refine ⟨h3, rfl, h5, ?_⟩
    simp [h6, hw, LogEntry.bytes]

/-- The epoch and the wake record of the update. -/
lemma newEntries_spec (h : LogOk ge gw li disk pending) (hge : ge.toNat < 2 ^ 63)
    (we : UInt64) (seq : ℕ) (l : Logged) (pad : UInt32) :
    ∃ front, newEntries ge we li seq l pad = front ++ [.update seq l pad] ∧
      (∀ x ∈ front, x.Sound) ∧ (∀ x ∈ front, ∀ s l p, x ≠ .update s l p) ∧
      Ordered (frames (disk ++ pending ++ front)) ∧
      lastOf 0 (frames (disk ++ pending ++ front)) = ge ∧
      (we ≠ li.wakeEpoch → ge ∈ wakesOf 0 (frames (disk ++ pending ++ front))) := by
  have hepoch : ∃ ep, (if ge ≠ li.logEpoch then [LogEntry.epoch ge] else []) = ep ∧
      (∀ x ∈ ep, x = .epoch ge) ∧ Ordered (frames (disk ++ pending ++ ep)) ∧
      lastOf 0 (frames (disk ++ pending ++ ep)) = ge := by
    refine ⟨_, rfl, ?_, ?_⟩
    · split <;> simp
    split
    · next hne =>
        have hsingle : epochsOf (frames [LogEntry.epoch ge]) = [ge] := by
          rw [frames_cons, LogEntry.bytes, epochsOf_cons_epoch _ (recCommand_epoch ge),
            recEpoch_epoch]
          rfl
        refine ⟨⟨?_, ?_⟩, ?_⟩
        · rw [frames_append, epochsOf_append, hsingle, List.pairwise_append]
          refine ⟨h.ordered.sorted, List.pairwise_singleton _ _, ?_⟩
          intro a ha b hb
          rw [List.mem_singleton.mp hb]
          refine UInt64.le_trans ((le_lastOf 0 _ h.ordered fun _ _ => UInt64.zero_le).2 a ha) ?_
          rw [← h.last]
          exact h.last_le
        · intro e he
          rw [frames_append, epochsOf_append, hsingle] at he
          rcases List.mem_append.mp he with he | he
          · exact h.ordered.bounded e he
          · rw [List.mem_singleton.mp he]
            exact hge
        · rw [frames_append, lastOf_append, lastOf_frames_single (x := .epoch ge) trivial]
          rfl
    · next heq =>
        rw [List.append_nil, ← h.last]
        exact ⟨h.ordered, (not_not.mp heq).symm⟩
  obtain ⟨ep, hep, hall, hO, hlast⟩ := hepoch
  refine ⟨ep ++ (if we ≠ li.wakeEpoch then [.wake] else []), by rw [newEntries, hep], ?_, ?_, ?_⟩
  · intro x hx
    rcases List.mem_append.mp hx with hx | hx
    · rw [hall x hx]
      trivial
    · split at hx
      · rw [List.mem_singleton.mp hx]
        trivial
      · cases hx
  · intro x hx s l p
    rcases List.mem_append.mp hx with hx | hx
    · rw [hall x hx]
      simp
    · split at hx
      · rw [List.mem_singleton.mp hx]
        simp
      · cases hx
  · have hnone : epochsOf (frames [LogEntry.wake]) = [] := rfl
    rw [← List.append_assoc]
    split
    · refine ⟨?_, ?_, ?_⟩
      · refine hO.of_epochs ?_
        rw [frames_append, epochsOf_append, hnone, List.append_nil]
      · rw [frames_append, lastOf_append, hlast, lastOf_frames_single (x := .wake) trivial]
        rfl
      · intro _
        rw [frames_append, wakesOf_append, hlast, wakesOf_frames_wake]
        exact List.mem_append_right _ List.mem_cons_self
    · next hw =>
        rw [List.append_nil]
        exact ⟨hO, hlast, fun h => absurd h hw⟩

/-- An update is recorded. -/
lemma record (h : LogOk ge gw li disk pending) (hpos : ge ≠ 0) (hge : ge.toNat < 2 ^ 63)
    (hgw : gw ≤ ge) {seq : ℕ} {l : Logged} {pad : UInt32} (hl : (LogEntry.update seq l pad).Sound) :
    LogOk ge (li.raiseWake ge gw) (li.record ge gw l pad) disk
      (pending ++ newEntries ge (li.raiseWake ge gw) li seq l pad) := by
  obtain ⟨h1, h2, h3, h4⟩ := record_eq hge hgw h.buf seq l pad
  obtain ⟨front, hnew, hsound, -, hO, hlast, -⟩ :=
    h.newEntries_spec hge (li.raiseWake ge gw) seq l pad
  have hnc : epochsOf (frames [LogEntry.update seq l pad]) = [] := by
    refine epochsOf_nil_of ?_
    intro g hg
    rw [List.mem_singleton.mp hg, ne_eq, (LogEntry.recCommand_bytes hl).1]
    simp
  rw [hnew] at h4 ⊢
  have hassoc : disk ++ (pending ++ (front ++ [LogEntry.update seq l pad]))
      = disk ++ pending ++ front ++ [LogEntry.update seq l pad] := by simp only [List.append_assoc]
  constructor
  · rw [h3, h.file]
  · exact h4
  · intro x hx
    rw [hassoc] at hx
    rcases List.mem_append.mp hx with hx | hx
    · rcases List.mem_append.mp hx with hx | hx
      · exact h.sound x hx
      · exact hsound x hx
    · rw [List.mem_singleton.mp hx]
      exact hl
  · refine hO.of_epochs ?_
    rw [hassoc, frames_append, epochsOf_append, hnc, List.append_nil]
  · rw [h1, hassoc, frames_append, lastOf_append, hlast, lastOf_frames_single hl]
    rfl
  · rw [h1]
    exact UInt64.le_refl _
  · rw [h2]
    exact UInt64.le_refl _
  · exact h.begun
  · rw [h1]
    exact fun _ => hpos
  · exact Or.inr ⟨pending ++ front, seq, l, pad, by simp only [List.append_assoc]⟩
  · intro ha
    refine Or.inl ?_
    rcases h.asleep ha with h0 | ⟨-, -, hq⟩
    · exact UInt64.le_trans h0 (raiseWake_le li hge hgw).1
    · have hraise : li.raiseWake ge gw = ge := by
        rcases raiseWake_spec li hge hgw with ⟨h5, h6⟩ | ⟨-, h5⟩
        · rw [h5, h6 hq]
        · exact h5
      rw [hraise]
      exact h.disk_le

/-- The two records of the notification that a log goes to sleep. -/
lemma sound_epoch_quiesce (ge : UInt64) : ∀ x ∈ [LogEntry.epoch ge, .quiesce], x.Sound := by
  intro x hx
  rcases List.mem_cons.mp hx with rfl | hx
  · trivial
  · rw [List.mem_singleton.mp hx]
    trivial

/-- The log after the notification that it goes to sleep, with nothing in its buffer. -/
lemma asleepNow (h : LogOk ge gw li disk []) (hpos : ge ≠ 0) (hge : ge.toNat < 2 ^ 63)
    {lj : LogInfo} (hfile : lj.file = (frames (disk ++ [.epoch ge, .quiesce])).flatten)
    (hbuf : lj.buf = []) (hlog : lj.logEpoch = ge) (hwake : lj.wakeEpoch = gw)
    (hq : lj.quiescentEpoch = ge) : LogOk ge gw lj (disk ++ [.epoch ge, .quiesce]) [] := by
  have hepochs : epochsOf (frames [LogEntry.epoch ge, .quiesce]) = [ge] := by
    rw [frames_cons, LogEntry.bytes, epochsOf_cons_epoch _ (recCommand_epoch ge), recEpoch_epoch]
    rfl
  have hlast : lastOf 0 (frames (disk ++ [.epoch ge, .quiesce])) = ge := by
    rw [frames_append, lastOf_append, lastOf_frames_cons (x := .epoch ge) trivial,
      lastOf_frames_single (x := .quiesce) trivial]
    rfl
  have hO := h.ordered
  rw [List.append_nil] at hO
  have hordered : Ordered (frames (disk ++ [.epoch ge, .quiesce])) := by
    constructor
    · rw [frames_append, epochsOf_append, hepochs, List.pairwise_append]
      refine ⟨hO.sorted, List.pairwise_singleton _ _, ?_⟩
      intro a ha b hb
      rw [List.mem_singleton.mp hb]
      exact UInt64.le_trans ((le_lastOf 0 _ hO fun _ _ => UInt64.zero_le).2 a ha) h.disk_le
    · intro e he
      rw [frames_append, epochsOf_append, hepochs] at he
      rcases List.mem_append.mp he with he | he
      · exact hO.bounded e he
      · rw [List.mem_singleton.mp he]
        exact hge
  exact {
    file := hfile
    buf := hbuf
    sound := by
      intro x hx
      rw [List.append_nil] at hx
      rcases List.mem_append.mp hx with hx | hx
      · exact h.sound x (List.mem_append_left _ hx)
      · exact sound_epoch_quiesce ge x hx
    ordered := by rwa [List.append_nil]
    last := by rw [List.append_nil, hlast, hlog]
    last_le := by rw [hlog]; exact UInt64.le_refl _
    wake_le := by rw [hwake]; exact UInt64.le_refl _
    begun := fun _ => by rw [hlast]; exact hpos
    begunBuf := fun h0 => absurd rfl h0
    ends := Or.inl rfl
    asleep := fun _ => Or.inr ⟨rfl, hwake, by rw [hq]; exact hpos⟩ }

/-- The log after what was in its buffer has been written to its file. -/
lemma flushed (h : LogOk ge gw li disk pending) {lj : LogInfo} (hfile : lj.file = li.file ++ li.buf)
    (hbuf : lj.buf = []) (hlog : lj.logEpoch = li.logEpoch) (hwake : lj.wakeEpoch = gw)
    (hq : li.wakeEpoch = gw → lj.quiescentEpoch = li.quiescentEpoch) :
    LogOk ge gw lj (disk ++ pending) [] where
  file := by rw [hfile, h.file, h.buf, frames_append, List.flatten_append]
  buf := hbuf
  sound := by rw [List.append_nil]; exact h.sound
  ordered := by rw [List.append_nil]; exact h.ordered
  last := by rw [List.append_nil, hlog]; exact h.last
  last_le := by rw [hlog]; exact h.last_le
  wake_le := by rw [hwake]; exact UInt64.le_refl _
  begun := by
    intro hne
    by_cases hp : pending = []
    · rw [hp, List.append_nil] at hne ⊢
      exact h.begun hne
    · rw [← h.last]
      exact h.begunBuf hp
  begunBuf := fun h0 => absurd rfl h0
  ends := Or.inl rfl
  asleep := by
    rintro ⟨init, ha⟩
    rcases h.ends with hp | ⟨init', seq, l, pad, hp⟩
    · rw [hp, List.append_nil] at ha ⊢
      rcases h.asleep ⟨init, ha⟩ with h0 | ⟨-, h1, h2⟩
      · exact Or.inl h0
      · exact Or.inr ⟨rfl, hwake, by rw [hq h1]; exact h2⟩
    · -- the buffer ends with an update, so the log is awake
      rw [hp, ← List.append_assoc] at ha
      cases (List.singleton_inj.mp (List.append_inj' ha rfl).2)

/-- One round of the logger. -/
lemma run (h : LogOk ge gw li disk pending) (hpos : ge ≠ 0) (hge : ge.toNat < 2 ^ 63) :
    ∃ disk', (disk' = disk ++ pending ∨
        pending = [] ∧ disk' = disk ++ [.epoch ge, .quiesce]) ∧
      LogOk ge gw (li.run ge gw) disk' [] ∧ (li.run ge gw).wakeEpoch = gw := by
  have hnil : li.buf = [] ↔ pending = [] := by
    rw [h.buf]
    exact frames_flatten_eq_nil fun x hx => h.sound x (List.mem_append_right _ hx)
  have habs : (li.absorbWake gw).wakeEpoch = gw ∧ (li.absorbWake gw).buf = li.buf ∧
      (li.absorbWake gw).file = li.file ∧ (li.absorbWake gw).logEpoch = li.logEpoch ∧
      (li.wakeEpoch = gw → (li.absorbWake gw).quiescentEpoch = li.quiescentEpoch) := by
    rw [LogInfo.absorbWake]
    split
    · next hne => exact ⟨rfl, rfl, rfl, rfl, fun h => absurd h hne⟩
    · next heq => exact ⟨not_not.mp heq, rfl, rfl, rfl, fun _ => rfl⟩
  obtain ⟨a1, a2, a3, a4, a5⟩ := habs
  rw [LogInfo.run]
  generalize li.absorbWake gw = la at a1 a2 a3 a4 a5
  rw [LogInfo.quiesce]
  split
  · -- the quiescence notification
    next hc =>
      obtain ⟨c1, c2, c3, c4⟩ := hc
      rw [a2, hnil] at c1
      subst c1
      have hne : ge ≠ la.wakeEpoch := by rw [a1]; exact c4
      have hbytes : logrecEpochStore ge ++ (if ge = la.wakeEpoch then logrecBaseStore logcmdWake
          else []) ++ logrecBaseStore logcmdQuiesce
            = (frames [LogEntry.epoch ge, .quiesce]).flatten := by
        rw [if_neg hne]
        simp [LogEntry.bytes]
      have hflush : (frames [LogEntry.epoch ge, .quiesce]).flatten ≠ [] := by
        rw [ne_eq, frames_flatten_eq_nil (sound_epoch_quiesce ge)]
        simp
      refine ⟨disk ++ [.epoch ge, .quiesce], Or.inr ⟨rfl, rfl⟩, ?_⟩
      rw [LogInfo.flush, if_pos (by rw [hbytes]; exact hflush)]
      refine ⟨h.asleepNow hpos hge ?_ rfl rfl a1 rfl, a1⟩
      simp only [a3, h.file, hbytes, frames_append, List.flatten_append]
  · have hflush : la.flush.file = li.file ++ li.buf ∧ la.flush.buf = [] ∧
        la.flush.logEpoch = li.logEpoch ∧ la.flush.wakeEpoch = gw ∧
        la.flush.quiescentEpoch = la.quiescentEpoch := by
      rw [LogInfo.flush]
      split
      · exact ⟨by simp [a2, a3], rfl, a4, a1, rfl⟩
      · next hb =>
          have hb' := not_not.mp hb
          rw [a2] at hb'
          exact ⟨by simp [a3, hb'], by rw [a2]; exact hb', a4, a1, rfl⟩
    obtain ⟨f1, f2, f3, f4, f5⟩ := hflush
    exact ⟨disk ++ pending, Or.inl rfl,
      h.flushed f1 f2 f3 f4 fun h0 => f5.trans (a5 h0), f4⟩

end LogOk

/-! ## All logs -/

/-- Where an entry of two lists is. -/
lemma append_eq_split {es fs pre post : List LogEntry} {x : LogEntry}
    (h : es ++ fs = pre ++ x :: post) :
    (∃ post', es = pre ++ x :: post') ∨ ∃ pre', pre = es ++ pre' ∧ fs = pre' ++ x :: post := by
  rcases List.append_eq_append_iff.mp h with ⟨pre', h1, h2⟩ | ⟨c, h1, h2⟩
  · exact Or.inr ⟨pre', h1, h2⟩
  · cases c with
    | nil => exact Or.inr ⟨[], by simpa using h1.symm, h2.symm⟩
    | cons y c =>
        obtain ⟨rfl, h2⟩ := List.cons.inj h2
        exact Or.inl ⟨c, h1⟩

/-- An update among other entries. -/
lemma mem_updatesOf : ∀ (e : UInt64) (es : List LogEntry) {seq : ℕ} {l : Logged} {pad : UInt32},
    LogEntry.update seq l pad ∈ es → ∃ r, (seq, r) ∈ updatesOf e es
  | e, x :: es, seq, l, pad, h => by
      rcases List.mem_cons.mp h with rfl | hmem
      · exact ⟨_, List.mem_cons_self⟩
      · cases x with
        | epoch e' => exact mem_updatesOf e' es hmem
        | wake => exact mem_updatesOf e es hmem
        | quiesce => exact mem_updatesOf e es hmem
        | update seq' l' pad' =>
            obtain ⟨r, hr⟩ := mem_updatesOf e es hmem
            exact ⟨r, List.mem_cons_of_mem _ hr⟩

lemma updatesOf_eq_nil : ∀ (e : UInt64) {es : List LogEntry},
    (∀ x ∈ es, ∀ s l p, x ≠ .update s l p) → updatesOf e es = []
  | _, [], _ => rfl
  | e, x :: es, h => by
      have ih := fun e => updatesOf_eq_nil e fun y hy => h y (List.mem_cons_of_mem _ hy)
      cases x with
      | epoch e' => exact ih e'
      | wake => exact ih e
      | quiesce => exact ih e
      | update s l p => exact absurd rfl (h _ List.mem_cons_self s l p)

variable {n : ℕ}

/-- The invariant of the system, with the entries in the files and in the buffers. -/
structure LogInv (s : LogSet n) (disk pending : Fin n → List LogEntry) : Prop where
  log : ∀ i, LogOk s.globalLogEpoch s.globalWakeEpoch (s.logs i) (disk i) (pending i)
  pos : s.globalLogEpoch ≠ 0
  lt : s.globalLogEpoch.toNat < 2 ^ 63
  wake_le : s.globalWakeEpoch ≤ s.globalLogEpoch
  updates : ∀ i, updatesOf 0 (disk i ++ pending i) = tagged s.history i
  sorted : (s.history.map fun p => p.2.epoch).Pairwise (· ≤ ·)
  epochs : ∀ p ∈ s.history, p.2.epoch ≤ s.globalLogEpoch ∧ p.2.epoch ≠ 0
  /-- A log that takes part in the global wake epoch has a wake record, or some file has one. -/
  awake : ∀ i, (s.logs i).wakeEpoch = s.globalWakeEpoch → s.globalWakeEpoch ≠ 0 →
    HasWake s.globalWakeEpoch (disk i ++ pending i) ∨ ∃ j, HasWake s.globalWakeEpoch (disk j)
  /-- Updates that follow on an update in the buffer of a sleeping log are guarded by a wake
  record. -/
  guarded : ∀ i j, i ≠ j → Asleep (disk i) → ∀ m l' pad', .update m l' pad' ∈ pending i →
    ∀ pre seq l pad post, disk j ++ pending j = pre ++ .update seq l pad :: post → m < seq →
    ∃ w, lastOf 0 (frames (disk i)) ≤ w ∧ w ≤ lastOf 0 (frames pre) ∧
      (w ∈ wakesOf 0 (frames pre) ∨ ∃ k, w ∈ wakesOf 0 (frames (disk k)))

namespace LogInv

variable {s : LogSet n} {disk pending : Fin n → List LogEntry}

lemma seq_lt (h : LogInv s disk pending) {i : Fin n} {seq : ℕ} {l : Logged} {pad : UInt32}
    (hmem : .update seq l pad ∈ disk i ++ pending i) : seq < s.history.length := by
  obtain ⟨r, hr⟩ := mem_updatesOf 0 _ hmem
  rw [h.updates i, mem_tagged] at hr
  exact (List.getElem?_eq_some_iff.mp hr).1

lemma start (n : ℕ) : LogInv (LogSet.start n) (fun _ => []) (fun _ => []) where
  log i :=
    { file := rfl
      buf := rfl
      sound := by simp
      ordered := ⟨List.Pairwise.nil, by simp [epochsOf]⟩
      last := rfl
      last_le := UInt64.zero_le
      wake_le := UInt64.le_refl _
      begun := fun h => absurd rfl h
      begunBuf := fun h => absurd rfl h
      ends := Or.inl rfl
      asleep := by
        rintro ⟨init, h⟩
        simp at h }
  pos := by change (1 : UInt64) ≠ 0; decide
  lt := by change (1 : UInt64).toNat < 2 ^ 63; decide
  wake_le := UInt64.zero_le
  updates i := rfl
  sorted := List.Pairwise.nil
  epochs p hp := by cases hp
  awake i _ hne := absurd rfl hne
  guarded i j _ _ m l' pad' hmem := by cases hmem

lemma nextNonzero_spec {e : UInt64} (h : e.toNat + 1 < 2 ^ 63) :
    (nextNonzero e).toNat = e.toNat + 1 := by
  have hadd : (e + 1).toNat = e.toNat + 1 := by
    rw [UInt64.toNat_add]
    exact Nat.mod_eq_of_lt (by change e.toNat + 1 < _; omega)
  rw [nextNonzero, if_neg]
  · exact hadd
  · intro h0
    rw [h0] at hadd
    simp at hadd

/-- The epoch goes on. -/
lemma tick (h : LogInv s disk pending) (hc : s.globalLogEpoch.toNat + 1 < 2 ^ 63) :
    LogInv { s with globalLogEpoch := nextNonzero s.globalLogEpoch } disk pending := by
  have hnext := nextNonzero_spec hc
  have hle : s.globalLogEpoch ≤ nextNonzero s.globalLogEpoch :=
    UInt64.le_iff_toNat_le.mpr (by omega)
  refine { h with
    log := fun i => (h.log i).mono hle (Or.inl rfl)
    pos := ?_
    lt := by rw [hnext]; exact hc
    wake_le := UInt64.le_trans h.wake_le hle
    epochs := fun p hp => ⟨UInt64.le_trans (h.epochs p hp).1 hle, (h.epochs p hp).2⟩ }
  intro h0
  change nextNonzero s.globalLogEpoch = 0 at h0
  rw [h0] at hnext
  simp at hnext

/-- A round of the logger of log `i`. -/
lemma logger (h : LogInv s disk pending) (i : Fin n) (hc : s.Careful (.logger i)) :
    ∃ disk', LogInv
      { s with
        logs := Function.update s.logs i
          ((s.logs i).run s.globalLogEpoch s.globalWakeEpoch) }
      (Function.update disk i disk') (Function.update pending i []) := by
  obtain ⟨disk', hcases, hok, hwake⟩ := (h.log i).run h.pos h.lt
  have hsub : ∃ more, disk' = disk i ++ pending i ++ more ∧
      ∀ x ∈ more, ∀ s l p, x ≠ LogEntry.update s l p := by
    rcases hcases with h1 | ⟨h1, h2⟩
    · exact ⟨[], by rw [h1, List.append_nil], by simp⟩
    · refine ⟨[.epoch s.globalLogEpoch, .quiesce], by rw [h1, h2, List.append_nil], ?_⟩
      intro x hx
      rcases List.mem_cons.mp hx with rfl | hx
      · simp
      · rw [List.mem_singleton.mp hx]
        simp
  obtain ⟨more, hmore, hnone⟩ := hsub
  -- files only grow
  have hgrow : ∀ j, ∃ rest, Function.update disk i disk' j = disk j ++ rest := by
    intro j
    by_cases hj : j = i
    · subst hj
      exact ⟨pending j ++ more, by rw [Function.update_self, hmore, List.append_assoc]⟩
    · exact ⟨[], by rw [Function.update_of_ne hj, List.append_nil]⟩
  have hwakes : ∀ {w : UInt64}, (∃ k, w ∈ wakesOf 0 (frames (disk k))) →
      ∃ k, w ∈ wakesOf 0 (frames (Function.update disk i disk' k)) := by
    rintro w ⟨k, hk⟩
    obtain ⟨rest, hrest⟩ := hgrow k
    refine ⟨k, ?_⟩
    rw [hrest, frames_append, wakesOf_append]
    exact List.mem_append_left _ hk
  have hhas : ∀ {e : UInt64}, (∃ k, HasWake e (disk k)) →
      ∃ k, HasWake e (Function.update disk i disk' k) := by
    rintro e ⟨k, w, hw, hle⟩
    obtain ⟨k', hk'⟩ := hwakes ⟨k, hw⟩
    exact ⟨k', w, hk', hle⟩
  refine ⟨disk', { h with log := ?_, updates := ?_, awake := ?_, guarded := ?_ }⟩
  · intro j
    by_cases hj : j = i
    · subst hj
      simp only [Function.update_self]
      exact hok
    · simp only [Function.update_of_ne hj]
      exact h.log j
  · intro j
    by_cases hj : j = i
    · subst hj
      simp only [Function.update_self, List.append_nil]
      rw [hmore, updatesOf_append _ _ _ (h.log j).sound, updatesOf_eq_nil _ hnone, List.append_nil]
      exact h.updates j
    · simp only [Function.update_of_ne hj]
      exact h.updates j
  · intro j heq hne
    by_cases hj : j = i
    · subst hj
      simp only [Function.update_self, List.append_nil]
      rcases hc with hc | ⟨k, hk⟩
      · rcases h.awake j hc hne with h1 | h1
        · exact Or.inl (by rw [hmore]; exact h1.append more)
        · exact Or.inr (hhas h1)
      · -- the wake record is in a file
        refine Or.inr (hhas ⟨k, ?_⟩)
        have hk0 := h.log k
        have hs : ∀ x ∈ disk k, x.Sound := fun x hx => hk0.sound x (List.mem_append_left _ hx)
        rw [hk0.file, logInfo_frames hs] at hk
        rcases (infoOf_spec hk0.ordered.of_append).2.1 with h0 | h0
        · rw [h0] at hk
          exact absurd (UInt64.le_antisymm hk UInt64.zero_le) hne
        · exact ⟨_, h0, hk⟩
    · simp only [Function.update_of_ne hj] at heq ⊢
      exact (h.awake j heq hne).imp id hhas
  · intro a b hab ha m l' pad' hm pre seq l pad post hpre hlt
    have hai : a ≠ i := by
      rintro rfl
      simp at hm
    rw [Function.update_of_ne hai] at ha hm ⊢
    have hb : ∃ post', disk b ++ pending b = pre ++ .update seq l pad :: post' := by
      by_cases hbi : b = i
      · subst hbi
        simp only [Function.update_self, List.append_nil, hmore] at hpre
        rcases append_eq_split hpre with h1 | ⟨pre', -, h2⟩
        · exact h1
        · exact absurd rfl (hnone _ (by rw [h2]; simp) seq l pad)
      · simp only [Function.update_of_ne hbi] at hpre
        exact ⟨post, hpre⟩
    obtain ⟨post', hpost⟩ := hb
    obtain ⟨w, h1, h2, h3⟩ := h.guarded a b hab ha m l' pad' hm pre seq l pad post' hpost hlt
    exact ⟨w, h1, h2, h3.imp id hwakes⟩

/-- What goes in front of a new update of log `i`: the entries `front`, an epoch and a wake record
where they are needed.  `we` is the global wake epoch behind the update. -/
structure NewFront (s : LogSet n) (disk pending : Fin n → List LogEntry) (i : Fin n) (we : UInt64)
    (front : List LogEntry) : Prop where
  wake_ge : s.globalWakeEpoch ≤ we
  wake_le : we ≤ s.globalLogEpoch
  sound : ∀ x ∈ front, x.Sound
  noUpdate : ∀ x ∈ front, ∀ m l pad, x ≠ .update m l pad
  ordered : Ordered (frames (disk i ++ pending i ++ front))
  last : lastOf 0 (frames (disk i ++ pending i ++ front)) = s.globalLogEpoch
  wake : we ≠ (s.logs i).wakeEpoch →
    s.globalLogEpoch ∈ wakesOf 0 (frames (disk i ++ pending i ++ front))

section Record

variable {i : Fin n} {we : UInt64} {front : List LogEntry}

/-- The new update is the last one of its log. -/
lemma updates_record (h : LogInv s disk pending) (hf : NewFront s disk pending i we front)
    (l : Logged) (pad : UInt32) :
    updatesOf 0 (disk i ++ pending i ++ (front ++ [.update s.history.length l pad]))
      = tagged s.history i
        ++ [(s.history.length, { l.asRecord with epoch := s.globalLogEpoch })] := by
  have hsound : ∀ x ∈ disk i ++ pending i ++ front, x.Sound := by
    intro x hx
    rcases List.mem_append.mp hx with hx | hx
    · exact (h.log i).sound x hx
    · exact hf.sound x hx
  rw [← List.append_assoc, updatesOf_append _ _ _ hsound, updatesOf_append _ _ _ (h.log i).sound,
    updatesOf_eq_nil _ hf.noUpdate, List.append_nil, hf.last, h.updates i]
  rfl

/-- A log that writes an update takes part in the new wake epoch: it has a wake record, or some
file has one. -/
lemma awake_record (h : LogInv s disk pending) (hf : NewFront s disk pending i we front)
    (hne : we ≠ 0) : HasWake we (disk i ++ pending i ++ front) ∨ ∃ k, HasWake we (disk k) := by
  by_cases hw : we = (s.logs i).wakeEpoch
  · have hsame : we = s.globalWakeEpoch :=
      UInt64.le_antisymm (by rw [hw]; exact (h.log i).wake_le) hf.wake_ge
    rw [hsame] at hw hne ⊢
    rcases h.awake i hw.symm hne with h1 | h1
    · exact Or.inl (h1.append _)
    · exact Or.inr h1
  · exact Or.inl ⟨_, hf.wake hw, hf.wake_le⟩

/-- The new update is guarded by a wake record, if a sleeping log has an update in its buffer. -/
lemma guarded_new (h : LogInv s disk pending) (hf : NewFront s disk pending i we front)
    {a : Fin n} (ha : Asleep (disk a)) (hne : pending a ≠ []) :
    ∃ w, lastOf 0 (frames (disk a)) ≤ w ∧
      w ≤ lastOf 0 (frames (disk i ++ pending i ++ front)) ∧
      (w ∈ wakesOf 0 (frames (disk i ++ pending i ++ front)) ∨
        ∃ k, w ∈ wakesOf 0 (frames (disk k))) := by
  have hle : lastOf 0 (frames (disk a)) ≤ we := by
    rcases (h.log a).asleep ha with h1 | ⟨h1, -⟩
    · exact UInt64.le_trans h1 hf.wake_ge
    · exact absurd h1 hne
  have hwe : we ≠ 0 := by
    intro h0
    rw [h0] at hle
    have hd : disk a ≠ [] := by
      obtain ⟨init, hinit⟩ := ha
      rw [hinit]
      simp
    exact (h.log a).begun hd (UInt64.le_antisymm hle UInt64.zero_le)
  rcases h.awake_record hf hwe with ⟨w, hw1, hw2⟩ | ⟨k, w, hw1, hw2⟩
  · exact ⟨w, UInt64.le_trans hle hw2, hf.ordered.wake_le hw1, Or.inl hw1⟩
  · refine ⟨w, UInt64.le_trans hle hw2, ?_, Or.inr ⟨k, hw1⟩⟩
    rw [hf.last]
    exact UInt64.le_trans ((h.log k).ordered.of_append.wake_le hw1) (h.log k).disk_le

/-- Where an update stands in log `i`: it was there before, or it is the new one. -/
lemma split_record (hf : NewFront s disk pending i we front) {seq m : ℕ} {l l' : Logged}
    {pad pad' : UInt32} {pre post : List LogEntry}
    (hpre : disk i ++ pending i ++ (front ++ [.update m l pad])
      = pre ++ .update seq l' pad' :: post) :
    (∃ post', disk i ++ pending i = pre ++ .update seq l' pad' :: post') ∨
      pre = disk i ++ pending i ++ front := by
  rcases append_eq_split hpre with h1 | ⟨pre', h1, h2⟩
  · exact Or.inl h1
  · refine Or.inr ?_
    rcases append_eq_split h2 with ⟨post', h3⟩ | ⟨pre'', h3, h4⟩
    · exact absurd rfl (hf.noUpdate (.update seq l' pad') (by rw [h3]; simp) _ _ _)
    · cases pre'' with
      | nil => rw [h1, h3, List.append_nil]
      | cons y ys => simp at h4

/-- Updates that follow on an update in the buffer of a sleeping log stay guarded. -/
lemma guarded_record (h : LogInv s disk pending) (hf : NewFront s disk pending i we front)
    {l : Logged} {pad : UInt32} {buf : Fin n → List LogEntry}
    (hbuf : buf = Function.update pending i
      (pending i ++ (front ++ [.update s.history.length l pad])))
    {a b : Fin n} (hab : a ≠ b) (ha : Asleep (disk a)) {m seq : ℕ} {l' l₁ : Logged}
    {pad' pad₁ : UInt32} {pre post : List LogEntry} (hm : .update m l' pad' ∈ buf a)
    (hpre : disk b ++ buf b = pre ++ .update seq l₁ pad₁ :: post) (hlt : m < seq) :
    ∃ w, lastOf 0 (frames (disk a)) ≤ w ∧ w ≤ lastOf 0 (frames pre) ∧
      (w ∈ wakesOf 0 (frames pre) ∨ ∃ k, w ∈ wakesOf 0 (frames (disk k))) := by
  by_cases hbi : b = i
  · subst hbi
    rw [hbuf, Function.update_of_ne hab] at hm
    rw [hbuf, Function.update_self, ← List.append_assoc] at hpre
    rcases split_record hf hpre with ⟨post', h1⟩ | rfl
    · exact h.guarded a b hab ha m l' pad' hm pre seq l₁ pad₁ post' h1 hlt
    · exact h.guarded_new hf ha (List.ne_nil_of_mem hm)
  · rw [hbuf, Function.update_of_ne hbi] at hpre
    by_cases hai : a = i
    · subst hai
      rw [hbuf, Function.update_self] at hm
      rcases List.mem_append.mp hm with hm | hm
      · exact h.guarded a b hab ha m l' pad' hm pre seq l₁ pad₁ post hpre hlt
      · -- nothing follows on the new update
        rcases List.mem_append.mp hm with hm | hm
        · exact absurd rfl (hf.noUpdate _ hm m l' pad')
        · obtain ⟨rfl, -⟩ := LogEntry.update.inj (List.mem_singleton.mp hm)
          have hmem : .update seq l₁ pad₁ ∈ disk b ++ pending b := by
            rw [hpre]
            exact List.mem_append_right _ List.mem_cons_self
          have hseq := h.seq_lt hmem
          omega
    · rw [hbuf, Function.update_of_ne hai] at hm
      exact h.guarded a b hab ha m l' pad' hm pre seq l₁ pad₁ post hpre hlt

end Record

/-- An update is recorded in log `i`. -/
lemma update (h : LogInv s disk pending) (i : Fin n) {l : Logged} {pad : UInt32}
    (hl : (LogEntry.update s.history.length l pad).Sound) :
    LogInv
      { s with
        globalWakeEpoch := (s.logs i).raiseWake s.globalLogEpoch s.globalWakeEpoch
        logs := Function.update s.logs i
          ((s.logs i).record s.globalLogEpoch s.globalWakeEpoch l pad)
        history := s.history ++ [(i, { l.asRecord with epoch := s.globalLogEpoch })] }
      disk (Function.update pending i (pending i ++ LogOk.newEntries s.globalLogEpoch
        ((s.logs i).raiseWake s.globalLogEpoch s.globalWakeEpoch) (s.logs i) s.history.length
          l pad)) := by
  have hok := (h.log i).record h.pos h.lt h.wake_le hl
  obtain ⟨hgw, hgw'⟩ := LogOk.raiseWake_le (s.logs i) h.lt h.wake_le
  have hspec := LogOk.raiseWake_spec (s.logs i) h.lt h.wake_le
  obtain ⟨front, hnew, hsound, hnone, hO, hlast, hfront⟩ := (h.log i).newEntries_spec h.lt
    ((s.logs i).raiseWake s.globalLogEpoch s.globalWakeEpoch) s.history.length l pad
  have hf : NewFront s disk pending i _ front := ⟨hgw, hgw', hsound, hnone, hO, hlast, hfront⟩
  generalize (s.logs i).raiseWake s.globalLogEpoch s.globalWakeEpoch = we at *
  rw [hnew] at hok ⊢
  constructor
  · intro j
    by_cases hj : j = i
    · subst hj
      simp only [Function.update_self]
      exact hok
    · simp only [Function.update_of_ne hj]
      exact (h.log j).mono (UInt64.le_refl _) (hspec.imp And.left id)
  · exact h.pos
  · exact h.lt
  · exact hgw'
  · intro j
    rw [tagged_concat]
    by_cases hj : j = i
    · subst hj
      rw [Function.update_self, ← List.append_assoc, if_pos rfl]
      exact h.updates_record hf l pad
    · rw [Function.update_of_ne hj, if_neg (Ne.symm hj), List.append_nil]
      exact h.updates j
  · rw [List.map_append, List.pairwise_append]
    refine ⟨h.sorted, List.pairwise_singleton _ _, ?_⟩
    intro a ha b hb
    rw [List.map_singleton, List.mem_singleton] at hb
    rw [hb]
    obtain ⟨p, hp, rfl⟩ := List.mem_map.mp ha
    exact (h.epochs p hp).1
  · intro p hp
    rcases List.mem_append.mp hp with hp | hp
    · exact h.epochs p hp
    · rw [List.mem_singleton.mp hp]
      exact ⟨UInt64.le_refl _, h.pos⟩
  · intro j heq hne
    by_cases hj : j = i
    · subst hj
      rw [Function.update_self, ← List.append_assoc, ← List.append_assoc]
      exact (h.awake_record hf hne).imp (fun h1 => h1.append _) id
    · simp only [Function.update_of_ne hj] at heq ⊢
      have hsame : we = s.globalWakeEpoch :=
        UInt64.le_antisymm (by rw [← heq]; exact (h.log j).wake_le) hgw
      rw [hsame]
      exact h.awake j (heq.trans hsame) (by rw [← hsame]; exact hne)
  · intro a b hab ha m l' pad' hm pre seq l₁ pad₁ post hpre hlt
    exact h.guarded_record hf rfl hab ha hm hpre hlt

end LogInv

/-- Every careful step keeps the invariant. -/
lemma LogInv.step {s s' : LogSet n} {disk pending : Fin n → List LogEntry}
    (h : LogInv s disk pending) {a : LogAction n} (hc : s.Careful a) (hs : s.step a = some s') :
    ∃ disk' pending', LogInv s' disk' pending' := by
  cases a with
  | update i l pad =>
      rw [LogSet.step] at hs
      split at hs
      · next hrec =>
          obtain rfl := Option.some.inj hs
          refine ⟨_, _, h.update i ⟨hrec.1, ?_, hc.1, hc.2⟩⟩
          have := hrec.2
          omega
      · cases hs
  | logger i =>
      obtain rfl := Option.some.inj hs
      obtain ⟨disk', h'⟩ := h.logger i hc
      exact ⟨_, _, h'⟩
  | tick =>
      obtain rfl := Option.some.inj hs
      exact ⟨_, _, h.tick hc⟩

/-- The invariant holds after every careful run. -/
lemma LogInv.steps : ∀ (as : List (LogAction n)) {s s' : LogSet n}
    {disk pending : Fin n → List LogEntry}, LogInv s disk pending → LogSet.CarefulSteps as s →
    LogSet.steps as s = some s' → ∃ disk' pending', LogInv s' disk' pending'
  | [], s, s', disk, pending, h, _, hs => by
      obtain rfl := Option.some.inj hs
      exact ⟨disk, pending, h⟩
  | a :: as, s, s', disk, pending, h, hc, hs => by
      obtain ⟨s₁, h₁, h₂⟩ := Option.bind_eq_some_iff.mp hs
      obtain ⟨disk₁, pending₁, hinv⟩ := h.step hc.1 h₁
      have hrest := hc.2
      rw [h₁] at hrest
      exact LogInv.steps as hinv hrest h₂

end MasstreeLHM
