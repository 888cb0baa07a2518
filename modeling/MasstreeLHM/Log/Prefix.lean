import MasstreeLHM.Log.Wakes

/-!
# Recovery replays a prefix

The bound that recovery computes from the files excludes every update that was recorded after one
which is not in a file: a log that is awake bounds the replay by its last epoch, and a log that is
asleep by the wake records that guard the updates of the other logs.

`LogInv` describes the files and the buffers at the moment of a crash as lists of entries.  The
records that are found in a file (`infoRecords_file`, `extractRecords_file`), its last epoch and
whether it is quiescent follow from the entries.  **`replayed_of_lt`** is the argument: take an
update that is replayed and an earlier one.  If the earlier one is still in the buffer of a log that
is awake, the last epoch of that log bounds the replay in front of the later one; if its log sleeps,
a wake record does.

**`replaysPrefix_of_careful`** puts this together with the invariant, for every careful run.
`lostWakeSteps` is a run with one step that is not careful: a logger takes over the wake epoch while
the only wake record is still in a buffer.
-/

namespace MasstreeLHM

variable {n : ℕ}

/-! ## After a crash -/

/-- Where an update stands among the entries. -/
lemma updatesOf_split : ∀ (e : UInt64) (es : List LogEntry), (∀ x ∈ es, x.Sound) →
    ∀ {m : ℕ} {r : LogRecord}, (m, r) ∈ updatesOf e es →
    ∃ pre l pad post, es = pre ++ .update m l pad :: post ∧ r.epoch = lastOf e (frames pre)
  | _, [], _, _, _, h => by cases h
  | e, x :: es, hs, m, r, h => by
      have hx := hs x List.mem_cons_self
      have ih := fun e' => @updatesOf_split e' es (fun y hy => hs y (List.mem_cons_of_mem _ hy)) m r
      have hcons : ∀ e', (m, r) ∈ updatesOf e' es → x.after e = e' →
          ∃ pre l pad post, x :: es = pre ++ .update m l pad :: post ∧
            r.epoch = lastOf e (frames pre) := by
        rintro e' hmem rfl
        obtain ⟨pre, l, pad, post, h1, h2⟩ := ih _ hmem
        exact ⟨x :: pre, l, pad, post, by rw [h1]; rfl, by rw [lastOf_frames_cons hx]; exact h2⟩
      cases x with
      | epoch e' => exact hcons e' h rfl
      | wake => exact hcons e h rfl
      | quiesce => exact hcons e h rfl
      | update seq l pad =>
          rcases List.mem_cons.mp h with heq | h
          · obtain ⟨rfl, rfl⟩ := Prod.mk.inj heq
            exact ⟨[], l, pad, es, rfl, rfl⟩
          · exact hcons e h rfl

/-- The epochs of the quiescent logs bound their minimum. -/
lemma minQuiescent_le : ∀ (infos : List InfoType) (m : UInt64),
    (∀ x ∈ infos, x.lastEpoch.toNat < 2 ^ 63 ∧ x.lastEpoch ≠ 0) → m.toNat < 2 ^ 63 →
    let f := fun (m : UInt64) (x : InfoType) =>
      if x.quiescent = true ∧ (m = 0 ∨ circularLess x.lastEpoch m = true) then x.lastEpoch else m
    (m ≠ 0 → infos.foldl f m ≠ 0 ∧ infos.foldl f m ≤ m) ∧
      ∀ x ∈ infos, x.quiescent = true → infos.foldl f m ≠ 0 ∧ infos.foldl f m ≤ x.lastEpoch
  | [], m, _, _ => ⟨fun h => ⟨h, UInt64.le_refl _⟩, by simp⟩
  | y :: infos, m, hall, hm => by
      intro f
      obtain ⟨hy, hy0⟩ := hall y List.mem_cons_self
      have hrest := fun x hx => hall x (List.mem_cons_of_mem _ hx)
      have hstep : (f m y).toNat < 2 ^ 63 ∧ (m ≠ 0 → f m y ≠ 0 ∧ f m y ≤ m) ∧
          (y.quiescent = true → f m y ≠ 0 ∧ f m y ≤ y.lastEpoch) := by
        change (if _ then _ else _ : UInt64).toNat < _ ∧ (_ → (if _ then _ else _ : UInt64) ≠ 0 ∧
          (if _ then _ else _ : UInt64) ≤ _) ∧ (_ → (if _ then _ else _ : UInt64) ≠ 0 ∧
          (if _ then _ else _ : UInt64) ≤ _)
        split
        · next hc =>
            refine ⟨hy, fun hne => ⟨hy0, ?_⟩, fun _ => ⟨hy0, UInt64.le_refl _⟩⟩
            have := hc.2.resolve_left hne
            rw [circularLess_iff hy hm] at this
            exact UInt64.le_iff_toNat_le.mpr this.le
        · next hc =>
            refine ⟨hm, fun hne => ⟨hne, UInt64.le_refl _⟩, fun hq => ?_⟩
            have h1 : ¬ (m = 0 ∨ circularLess y.lastEpoch m = true) := fun h => hc ⟨hq, h⟩
            rw [not_or, circularLess_iff hy hm, not_lt] at h1
            exact ⟨h1.1, UInt64.le_iff_toNat_le.mpr h1.2⟩
      obtain ⟨h1, h2, h3⟩ := hstep
      obtain ⟨h4, h5⟩ := minQuiescent_le infos (f m y) hrest h1
      refine ⟨?_, ?_⟩
      · intro hne
        obtain ⟨h6, h7⟩ := h2 hne
        exact ⟨(h4 h6).1, UInt64.le_trans (h4 h6).2 h7⟩
      · intro x hx hq
        rcases List.mem_cons.mp hx with rfl | hx
        · obtain ⟨h6, h7⟩ := h3 hq
          exact ⟨(h4 h6).1, UInt64.le_trans (h4 h6).2 h7⟩
        · exact h5 x hx hq

namespace LogInv

variable {s : LogSet n} {disk pending : Fin n → List LogEntry}

lemma sound (h : LogInv s disk pending) (i : Fin n) : ∀ x ∈ disk i, x.Sound :=
  fun x hx => (h.log i).sound x (List.mem_append_left _ hx)

lemma infoRecords_file (h : LogInv s disk pending) (i : Fin n) :
    infoRecords (s.logs i).file = frames (disk i) := by
  rw [(h.log i).file]
  exact infoRecords_frames (h.sound i)

lemma extractRecords_file (h : LogInv s disk pending) (i : Fin n) :
    extractRecords (s.logs i).file = frames (disk i) := by
  rw [(h.log i).file]
  exact extractRecords_frames (h.sound i)

lemma ordered_file (h : LogInv s disk pending) (i : Fin n) :
    Ordered (infoRecords (s.logs i).file) := by
  rw [h.infoRecords_file]
  exact (h.log i).ordered.of_append

lemma cleanLog (h : LogInv s disk pending) (hst : s.Started) (M : UInt64) (i : Fin n) :
    CleanLog M (s.logs i).file where
  epoch := hst i
  bounded := (h.ordered_file i).bounded
  same := by rw [h.infoRecords_file, h.extractRecords_file]
  ordered := (h.ordered_file i).sorted.sublist (epochsOf_sublist (List.dropWhile_sublist _))

lemma disk_ne_nil (h : LogInv s disk pending) (hst : s.Started) (i : Fin n) : disk i ≠ [] := by
  intro h0
  have := hst i
  rw [h.infoRecords_file, h0] at this
  exact this rfl

lemma lastEpoch_file (h : LogInv s disk pending) (i : Fin n) :
    (logInfo (s.logs i).file).lastEpoch = lastOf 0 (frames (disk i)) := by
  rw [(h.log i).file, logInfo_frames (h.sound i)]
  exact (infoOf_spec (h.log i).ordered.of_append).1

lemma quiescent_file (h : LogInv s disk pending) (hst : s.Started) (i : Fin n) :
    (logInfo (s.logs i).file).quiescent = true ↔ Asleep (disk i) := by
  rw [(h.log i).file, logInfo_frames (h.sound i)]
  exact quiescent_frames (h.sound i) (h.disk_ne_nil hst i)

/-- The updates in the buffer are not before the last epoch in the file. -/
lemma pending_epoch (h : LogInv s disk pending) (i : Fin n) {p : ℕ × LogRecord}
    (hp : p ∈ updatesOf (lastOf 0 (frames (disk i))) (pending i)) :
    lastOf 0 (frames (disk i)) ≤ p.2.epoch := by
  have hO := (h.log i).ordered
  refine updatesOf_epoch _ _ (fun x hx => (h.log i).sound x (List.mem_append_right _ hx)) ?_ ?_ p hp
  · refine hO.of_epochs (epochsOf_sublist ?_)
    rw [frames_append]
    exact List.sublist_append_right _ _
  · intro x hx
    rcases lastOf_mem 0 (frames (disk i)) with h0 | h0
    · rw [h0]
      exact UInt64.zero_le
    · have hsorted := hO.sorted
      rw [frames_append, epochsOf_append, List.pairwise_append] at hsorted
      exact hsorted.2.2 _ h0 x hx

lemma updates_split (h : LogInv s disk pending) (i : Fin n) :
    tagged s.history i = updatesOf 0 (disk i)
      ++ updatesOf (lastOf 0 (frames (disk i))) (pending i) := by
  rw [← h.updates i, updatesOf_append _ _ _ (h.sound i)]

/-- The update is replayed up to epoch `M`: it is in a file, in an earlier epoch. -/
def Replayed (disk : Fin n → List LogEntry) (M : UInt64) (k : ℕ) : Prop :=
  ∃ i r, (k, r) ∈ updatesOf 0 (disk i) ∧ r.epoch.toNat < M.toNat

/-- **With an update, all earlier ones are replayed.** -/
lemma replayed_of_lt (h : LogInv s disk pending) (hst : s.Started) {M : UInt64}
    (hB : IsBound s.files M) {k m : ℕ} (hk : Replayed disk M k) (hlt : m < k) :
    Replayed disk M m := by
  have hfiles : ∀ f ∈ s.files, EpochLog f := by
    intro f hf
    obtain ⟨i, rfl⟩ := List.mem_ofFn.mp hf
    exact (h.cleanLog hst M i).toEpochLog
  have hmem : ∀ i, (s.logs i).file ∈ s.files := fun i => List.mem_ofFn.mpr ⟨i, rfl⟩
  obtain ⟨b, r, hr, hrM⟩ := hk
  have hkh : s.history[k]? = some (b, r) := by
    rw [← mem_tagged, h.updates_split b]
    exact List.mem_append_left _ hr
  obtain ⟨hklen, hkget⟩ := List.getElem?_eq_some_iff.mp hkh
  -- the earlier update, and its log
  obtain ⟨⟨a, r'⟩, hget⟩ : ∃ p, s.history[m]? = some p :=
    ⟨_, List.getElem?_eq_getElem (by omega)⟩
  have hle : r'.epoch ≤ r.epoch := by
    obtain ⟨hmlen, hmget⟩ := List.getElem?_eq_some_iff.mp hget
    have := List.pairwise_iff_getElem.mp h.sorted m k (by simpa using hmlen) (by simpa using hklen)
      hlt
    simpa [hkget, hmget] using this
  have hle' := UInt64.le_iff_toNat_le.mp hle
  have hm := mem_tagged.mpr hget
  rw [h.updates_split a, List.mem_append] at hm
  rcases hm with hm | hm
  · exact ⟨a, r', hm, by omega⟩
  exfalso
  have hep : _ ≤ r'.epoch.toNat := UInt64.le_iff_toNat_le.mp (h.pending_epoch a hm)
  by_cases ha : Asleep (disk a)
  · have hab : a ≠ b := by
      rintro rfl
      have hsorted := tagged_sorted s.history a
      rw [h.updates_split a, List.map_append, List.pairwise_append] at hsorted
      have := hsorted.2.2 k (List.mem_map.mpr ⟨_, hr, rfl⟩) m (List.mem_map.mpr ⟨_, hm, rfl⟩)
      omega
    obtain ⟨pre', l', pad', post', hsplit', -⟩ := updatesOf_split _ _
      (fun x hx => (h.log a).sound x (List.mem_append_right _ hx)) hm
    obtain ⟨pre, l, pad, post, hsplit, hepoch⟩ := updatesOf_split _ _ (h.sound b) hr
    obtain ⟨w, hw1, hw2, hw3⟩ := h.guarded a b hab ha m l' pad' (by rw [hsplit']; simp) pre k l pad
      (post ++ pending b) (by rw [hsplit]; simp) hlt
    have hw4 : ∃ j, w ∈ wakesOf 0 (infoRecords (s.logs j).file) := by
      rcases hw3 with hw3 | ⟨j, hw3⟩
      · refine ⟨b, ?_⟩
        rw [h.infoRecords_file, hsplit, frames_append, wakesOf_append]
        exact List.mem_append_left _ hw3
      · exact ⟨j, by rw [h.infoRecords_file]; exact hw3⟩
    obtain ⟨j, hw4⟩ := hw4
    have hmin := (minQuiescent_le (s.files.map logInfo) 0 (by
      intro x hx
      obtain ⟨f, hf, rfl⟩ := List.mem_map.mp hx
      refine ⟨(hfiles f hf).lastEpoch_lt, ?_⟩
      obtain ⟨i, rfl⟩ := List.mem_ofFn.mp hf
      rw [h.lastEpoch_file]
      exact (h.log i).begun (h.disk_ne_nil hst i)) (by decide)).2 (logInfo (s.logs a).file)
        (List.mem_map.mpr ⟨_, hmem a, rfl⟩) ((h.quiescent_file hst a).mpr ha)
    rw [h.lastEpoch_file] at hmin
    have hQw := UInt64.le_trans hmin.2 hw1
    have hgate := UInt64.le_trans hQw ((infoOf_spec (h.ordered_file j)).2.2 w hw4)
    rw [← EpochLog.wakeEpoch_eq] at hgate
    have hMw := UInt64.le_iff_toNat_le.mp
      (hB.le_wake hfiles (hmem j) (h.cleanLog hst M j) hw4 hmin.1 hgate hQw).1
    have hw5 := UInt64.le_iff_toNat_le.mp hw2
    rw [← hepoch] at hw5
    omega
  · have hq : (logInfo (s.logs a).file).quiescent = false := by
      rw [← Bool.not_eq_true, h.quiescent_file hst a]
      exact ha
    have hM := hB.least _ (hmem a) _ (.last hq (by
      change (logInfo _).lastEpoch ≠ 0
      rw [h.lastEpoch_file]
      exact (h.log a).begun (h.disk_ne_nil hst a)) rfl)
    change M ≤ (logInfo _).lastEpoch at hM
    rw [h.lastEpoch_file] at hM
    have := UInt64.le_iff_toNat_le.mp hM
    omega

lemma replaysPrefix (h : LogInv s disk pending) (hst : s.Started) : s.ReplaysPrefix := by
  intro junk
  have hfiles : ∀ f ∈ s.files, EpochLog f := by
    intro f hf
    obtain ⟨i, rfl⟩ := List.mem_ofFn.mp hf
    exact (h.cleanLog hst 0 i).toEpochLog
  have hB := isBound hfiles junk
  have hM := hB.lt hfiles
  have hrec := recover_eq junk fun f hf => (hfiles f hf).ne_nil
  generalize replayMaxEpoch 0 junk s.files = M at hB hM hrec
  -- the first update that is not replayed
  have hex : ∃ k, ¬ Replayed disk M k := by
    refine ⟨s.history.length, ?_⟩
    rintro ⟨i, r, hr, -⟩
    have : (s.history.length, r) ∈ tagged s.history i := by
      rw [h.updates_split i]
      exact List.mem_append_left _ hr
    rw [mem_tagged] at this
    simp at this
  classical
  have hiff : ∀ m, Replayed disk M m ↔ m < Nat.find hex := by
    intro m
    constructor
    · intro hm
      by_contra hge
      rcases Nat.lt_or_eq_of_le (not_lt.mp hge) with hlt | heq
      · exact Nat.find_spec hex (h.replayed_of_lt hst hB hm hlt)
      · rw [← heq] at hm
        exact Nat.find_spec hex hm
    · intro hlt
      by_contra hm
      exact Nat.find_min hex hlt hm
  refine ⟨_, Nat.find hex, hrec, ?_⟩
  generalize Nat.find hex = k at hiff
  simp only [LogSet.files, List.map_ofFn]
  congr 1
  funext i
  change replays M 0 (extractRecords (s.logs i).file) = s.recordedIn k i
  have hM0 : (0 : UInt64).toNat < M.toNat := by
    have hne : M ≠ 0 := by
      rcases hB.asked with h1 | ⟨f, hf, h1⟩
      · intro h0
        have h2 := (maxLast_spec hfiles).2 _ (List.mem_ofFn.mpr ⟨i, rfl⟩)
        rw [← h1, h0, h.lastEpoch_file] at h2
        exact (h.log i).begun (h.disk_ne_nil hst i) (UInt64.le_antisymm h2 UInt64.zero_le)
      · exact (asksFor_mem hfiles hf h1).1
    change 0 < M.toNat
    rcases Nat.eq_zero_or_pos M.toNat with h0 | h0
    · exact absurd (UInt64.toNat_inj.mp h0) hne
    · exact h0
  have hmemh : ∀ p ∈ tagged s.history i, (i, p.2) ∈ s.history := by
    intro p hp
    exact List.mem_of_getElem? (mem_tagged.mp hp)
  rw [h.extractRecords_file, replays_frames hM 0 (disk i) (h.sound i) (h.log i).ordered.of_append
    (fun _ _ => UInt64.zero_le) hM0, LogSet.recordedIn, ← tagged_take, h.updates_split i,
    List.filter_append, List.map_append]
  · have hpend : (updatesOf (lastOf 0 (frames (disk i))) (pending i)).filter (fun p => p.1 < k)
        = [] := by
      rw [List.filter_eq_nil_iff]
      intro p hp
      simp only [decide_eq_true_eq]
      intro hlt
      obtain ⟨j, r, hr, -⟩ := (hiff p.1).mpr hlt
      -- the same update would be in a file
      have h1 : (p.1, r) ∈ tagged s.history j := by
        rw [h.updates_split j]
        exact List.mem_append_left _ hr
      have h2 : (p.1, p.2) ∈ tagged s.history i := by
        rw [h.updates_split i]
        exact List.mem_append_right _ hp
      rw [mem_tagged] at h1 h2
      obtain ⟨rfl, -⟩ := Prod.mk.inj (Option.some.inj (h1.symm.trans h2))
      have hsorted := tagged_sorted s.history j
      rw [h.updates_split j, List.map_append, List.pairwise_append] at hsorted
      exact absurd (hsorted.2.2 p.1 (List.mem_map.mpr ⟨_, hr, rfl⟩) p.1
        (List.mem_map.mpr ⟨_, hp, rfl⟩)) (lt_irrefl _)
    rw [hpend, List.map_nil, List.append_nil]
    congr 1
    refine List.filter_congr ?_
    intro p hp
    rw [decide_eq_decide, ← hiff]
    constructor
    · exact fun hlt => ⟨i, p.2, hp, hlt⟩
    · rintro ⟨j, r, hr, hlt⟩
      have h1 : (p.1, r) ∈ tagged s.history j := by
        rw [h.updates_split j]
        exact List.mem_append_left _ hr
      have h2 : (p.1, p.2) ∈ tagged s.history i := by
        rw [h.updates_split i]
        exact List.mem_append_left _ hp
      rw [mem_tagged] at h1 h2
      obtain ⟨-, rfl⟩ := Prod.mk.inj (Option.some.inj (h1.symm.trans h2))
      exact hlt
  · intro p hp
    refine (h.epochs _ (hmemh p ?_)).2
    rw [h.updates_split i]
    exact List.mem_append_left _ hp

end LogInv

/-- **Recovery replays a prefix of the updates** after every careful run in which each log has got
to its first epoch record. -/
theorem replaysPrefix_of_careful {n : ℕ} (as : List (LogAction n)) (s : LogSet n)
    (hrun : LogSet.steps as (LogSet.start n) = some s)
    (hcareful : LogSet.CarefulSteps as (LogSet.start n)) (hst : s.Started) : s.ReplaysPrefix := by
  obtain ⟨disk, pending, h⟩ := LogInv.steps as (LogInv.start n) hcareful hrun
  exact h.replaysPrefix hst

/-- Log 0 has gone to sleep and is woken up by an update; log 1 takes over the wake epoch after
the wake record of log 0 has been flushed. -/
def sampleSteps : List (LogAction 2) :=
  [.logger 0, .update 1 ⟨logcmdReplace, ⟨2, 0⟩, [97], [120]⟩ 0, .logger 1, .tick,
   .update 0 ⟨logcmdReplace, ⟨4, 0⟩, [98], [120]⟩ 0, .logger 0, .logger 1,
   .update 1 ⟨logcmdReplace, ⟨6, 0⟩, [99], [120]⟩ 0, .tick,
   .update 1 ⟨logcmdReplace, ⟨8, 0⟩, [100], [120]⟩ 0, .logger 1]

/-- The sample run is careful, so its recovery replays a prefix. -/
theorem replaysPrefix_sampleSteps :
    ∃ s, LogSet.steps sampleSteps (LogSet.start 2) = some s ∧ s.Started ∧ s.ReplaysPrefix := by
  obtain ⟨s, hs⟩ := Option.isSome_iff_exists.mp
    (show (LogSet.steps sampleSteps (LogSet.start 2)).isSome = true by decide)
  have hst : ((LogSet.steps sampleSteps (LogSet.start 2)).getD (LogSet.start 2)).Started := by
    unfold LogSet.Started
    decide +kernel
  rw [hs] at hst
  exact ⟨s, hs, hst, replaysPrefix_of_careful sampleSteps s hs (by decide +kernel) hst⟩

/-- The same, but log 1 takes over the wake epoch while the wake record of log 0 is still in the
buffer, and log 0 is not flushed before the crash. -/
def lostWakeSteps : List (LogAction 2) :=
  [.logger 0, .update 1 ⟨logcmdReplace, ⟨2, 0⟩, [97], [120]⟩ 0, .logger 1, .tick,
   .update 0 ⟨logcmdReplace, ⟨4, 0⟩, [98], [120]⟩ 0, .logger 1,
   .update 1 ⟨logcmdReplace, ⟨6, 0⟩, [99], [120]⟩ 0, .tick,
   .update 1 ⟨logcmdReplace, ⟨8, 0⟩, [100], [120]⟩ 0, .logger 1]

/-- The third update is replayed and the second one, which is only in the buffer of log 0, is
not. -/
theorem not_replaysPrefix_lostWakeSteps :
    ∃ s, LogSet.steps lostWakeSteps (LogSet.start 2) = some s ∧ s.Started ∧ ¬ s.ReplaysPrefix := by
  obtain ⟨s, hs⟩ := Option.isSome_iff_exists.mp
    (show (LogSet.steps lostWakeSteps (LogSet.start 2)).isSome = true by decide)
  have hst : ((LogSet.steps lostWakeSteps (LogSet.start 2)).getD (LogSet.start 2)).Started := by
    unfold LogSet.Started
    decide +kernel
  have hhist : ((LogSet.steps lostWakeSteps (LogSet.start 2)).getD (LogSet.start 2)).history
      = [(1, ⟨logcmdReplace, [97], [120], 2, 0, 1⟩), (0, ⟨logcmdReplace, [98], [120], 4, 0, 2⟩),
         (1, ⟨logcmdReplace, [99], [120], 6, 0, 2⟩),
         (1, ⟨logcmdReplace, [100], [120], 8, 0, 3⟩)] := by
    decide +kernel
  have hrec : (recover 0 0 (fun _ => false)
      ((LogSet.steps lostWakeSteps (LogSet.start 2)).getD (LogSet.start 2)).files).map
        (fun r => r.logs.map Prod.fst)
      =
        some [[],
          [⟨logcmdReplace, [97], [120], 2, 0, 1⟩, ⟨logcmdReplace, [99], [120], 6, 0, 2⟩]] := by
    decide +kernel
  rw [hs] at hst hhist hrec
  refine ⟨s, hs, hst, ?_⟩
  intro h
  obtain ⟨r, k, hr, hk⟩ := h fun _ => false
  rw [Option.getD_some, hr, Option.map_some, hk] at hrec
  have heq := Option.some.inj hrec
  simp only [List.ofFn_succ, List.ofFn_zero, List.cons.injEq] at heq
  obtain ⟨h0, h1, -⟩ := heq
  rw [Option.getD_some] at hhist
  rw [LogSet.recordedIn, hhist] at h0 h1
  match k with
  | 0 => simp at h1
  | 1 => simp at h1
  | k + 2 => simp at h0

end MasstreeLHM
