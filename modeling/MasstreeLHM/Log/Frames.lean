import MasstreeLHM.Log.Replay

/-!
# Logs as lists of records

The walks of `info` and `replayandclean1` go over the same frames but accept different ones.
`infoRecords` and `extractRecords` are the lists of frames that the two accept; everything that
recovery computes from a log is a function of these lists.

A frame (`IsFrame`) is the bytes of one record with its size in it, and a `Local` test of a frame
does not look behind it.  `walk` collects frames as long as a local test accepts them.  So both
passes are walks (`infoAccepts_local`, `extractAccepts_local`), and one lemma serves both:
`walk_split` cuts a log into the frames that are walked over and what is left behind them, and
`walk_flatten` finds the frames of a log that was put together from accepted ones.

`logInfo_eq` gives what `info` finds as a fold over its records.  **`replayAndClean_eq`** does the
same for `replayandclean1` without a checkpoint: `replays` are the records that it runs, each in its
epoch, and `kept` are those that it leaves in the file.
-/

namespace MasstreeLHM

/-! ## Bytes behind a frame -/

lemma load_append {fr : Bytes} (rest : Bytes) {k w : ℕ} (h : k + w ≤ fr.length) :
    loadLE w ((fr ++ rest).drop k) = loadLE w (fr.drop k) := by
  rw [loadLE, loadLE, List.drop_append_of_le_length (by omega),
    List.take_append_of_le_length (by simp; omega)]

lemma slice_append {fr : Bytes} (rest : Bytes) {k n : ℕ} (h : k + n ≤ fr.length) :
    ((fr ++ rest).drop k).take n = (fr.drop k).take n := by
  rw [List.drop_append_of_le_length (by omega), List.take_append_of_le_length (by simp; omega)]

lemma recCommand_append {fr : Bytes} (rest : Bytes) (h : 8 ≤ fr.length) :
    recCommand (fr ++ rest) = recCommand fr := by
  have := load_append (k := 0) (w := 4) rest (show 0 + 4 ≤ fr.length by omega)
  simpa [recCommand] using this

lemma recSize_append {fr : Bytes} (rest : Bytes) (h : 8 ≤ fr.length) :
    recSize (fr ++ rest) = recSize fr := load_append rest (by omega)

lemma recEpoch_append {fr : Bytes} (rest : Bytes) (h : 16 ≤ fr.length) :
    recEpoch (fr ++ rest) = recEpoch fr := by
  rw [recEpoch, recEpoch, load_append rest (by omega)]

/-- A frame: the bytes of one record, with its size in it. -/
structure IsFrame (fr : Bytes) : Prop where
  le : 8 ≤ fr.length
  size : recSize fr = fr.length

lemma IsFrame.framed {fr : Bytes} (h : IsFrame fr) (rest : Bytes) : Framed (fr ++ rest) := by
  rw [Framed, recSize_append rest h.le, h.size]
  have := h.le
  simp
  omega

/-- The first frame of what is left. -/
lemma Framed.isFrame {buf : Bytes} (h : Framed buf) : IsFrame (buf.take (recSize buf)) := by
  obtain ⟨h1, h2, h3⟩ := h
  have hlen : (buf.take (recSize buf)).length = recSize buf := by simp; omega
  refine ⟨by omega, ?_⟩
  rw [hlen]
  have :=
    recSize_append (buf.drop (recSize buf)) (show 8 ≤ (buf.take (recSize buf)).length by omega)
  rw [List.take_append_drop] at this
  exact this.symm

/-- What holds of a frame holds of it in the log. -/
lemma Framed.split {buf : Bytes} (h : Framed buf) :
    ∃ fr, IsFrame fr ∧ recSize buf = fr.length ∧ buf = fr ++ buf.drop (recSize buf) ∧
      buf.take (recSize buf) = fr := by
  refine ⟨buf.take (recSize buf), h.isFrame, ?_, (List.take_append_drop _ _).symm, rfl⟩
  have := h.2.2
  simp
  omega

/-! ## Walks -/

/-- The frames up to the first one that is not accepted. -/
def walk (accept : Bytes → Bool) : ℕ → Bytes → List Bytes
  | 0, _ => []
  | fuel + 1, buf =>
      if Framed buf ∧ accept buf = true then
        buf.take (recSize buf) :: walk accept fuel (buf.drop (recSize buf))
      else []

/-- A test of a frame that does not look behind it. -/
structure Local (accept : Bytes → Bool) : Prop where
  append : ∀ fr rest, IsFrame fr → accept (fr ++ rest) = accept fr

variable {accept : Bytes → Bool}

lemma walk_accepted (hl : Local accept) : ∀ fuel buf, ∀ fr ∈ walk accept fuel buf,
    IsFrame fr ∧ accept fr = true
  | 0, _, _, h => by cases h
  | fuel + 1, buf, fr, h => by
      rw [walk] at h
      split at h
      · next hacc =>
          rcases List.mem_cons.mp h with rfl | h
          · refine ⟨hacc.1.isFrame, ?_⟩
            rw [← hl.append _ (buf.drop (recSize buf)) hacc.1.isFrame, List.take_append_drop]
            exact hacc.2
          · exact walk_accepted hl fuel _ fr h
      · cases h

/-- The frames of a list of accepted frames, with something in its rear that is not accepted. -/
lemma walk_flatten (hl : Local accept) (tail : Bytes)
    (htail : ¬ (Framed tail ∧ accept tail = true)) :
    ∀ (fs : List Bytes) (fuel : ℕ), (∀ fr ∈ fs, IsFrame fr ∧ accept fr = true) →
    fs.length ≤ fuel → walk accept fuel (fs.flatten ++ tail) = fs
  | [], 0, _, _ => rfl
  | [], fuel + 1, _, _ => by rw [walk, List.flatten_nil, List.nil_append, if_neg htail]
  | fr :: fs, 0, _, h => by simp at h
  | fr :: fs, fuel + 1, hall, h => by
      obtain ⟨hf, ha⟩ := hall fr List.mem_cons_self
      have hsize : recSize (fr ++ (fs.flatten ++ tail)) = fr.length := by
        rw [recSize_append _ hf.le, hf.size]
      rw [List.flatten_cons, List.append_assoc, walk,
        if_pos ⟨hf.framed _, by rw [hl.append _ _ hf, ha]⟩, hsize, List.take_left, List.drop_left,
        walk_flatten hl tail htail fs fuel (fun g hg => hall g (List.mem_cons_of_mem _ hg))
          (by simpa using h)]

/-- The frames that are walked over, and what is left behind them. -/
lemma walk_split (accept : Bytes → Bool) : ∀ fuel buf, buf.length ≤ fuel →
    ∃ tail, buf = (walk accept fuel buf).flatten ++ tail ∧ ¬ (Framed tail ∧ accept tail = true)
  | 0, buf, h => by
      obtain rfl : buf = [] := List.length_eq_zero_iff.mp (by omega)
      exact ⟨[], rfl, fun h => absurd h.1.1 (by simp)⟩
  | fuel + 1, buf, h => by
      by_cases hacc : Framed buf ∧ accept buf = true
      · obtain ⟨h1, h2, h3⟩ := hacc.1
        obtain ⟨tail, ht, hn⟩ := walk_split accept fuel (buf.drop (recSize buf)) (by simp; omega)
        refine ⟨tail, ?_, hn⟩
        rw [walk, if_pos hacc, List.flatten_cons, List.append_assoc, ← ht, List.take_append_drop]
      · exact ⟨buf, by rw [walk, if_neg hacc]; rfl, hacc⟩

lemma length_le_flatten {fs : List Bytes} (h : ∀ fr ∈ fs, IsFrame fr) :
    fs.length ≤ fs.flatten.length := by
  induction fs with
  | nil => simp
  | cons fr fs ih =>
      have h1 := (h fr List.mem_cons_self).le
      have h2 := ih fun g hg => h g (List.mem_cons_of_mem _ hg)
      simp only [List.length_cons, List.flatten_cons, List.length_append]
      omega

/-! ## The records of `info` -/

/-- `info` goes on behind the record. -/
def infoAccepts (buf : Bytes) : Bool :=
  if recCommand buf = logcmdEpoch then decide (16 ≤ recSize buf)
  else decide (recCommand buf = logcmdWake ∨ IsUpdateCommand (recCommand buf)
    ∨ recCommand buf = logcmdQuiesce)

lemma infoAccepts_local : Local infoAccepts where
  append fr rest h := by
    simp only [infoAccepts, recCommand_append rest h.le, recSize_append rest h.le]

/-- The records that `info` looks at. -/
def infoRecords (f : Bytes) : List Bytes := walk infoAccepts f.length f

/-- What `info` makes of one record. -/
def infoStep (x : InfoType) (fr : Bytes) : InfoType :=
  let x := { x with quiescent := recCommand fr == logcmdQuiesce }
  if recCommand fr = logcmdEpoch then x.seeEpoch (recEpoch fr)
  else if recCommand fr = logcmdWake then x.seeWake
  else x

/-- `info` of a list of records. -/
def infoOf (fs : List Bytes) : InfoType := fs.foldl infoStep ⟨0, 0, 0, true⟩

/-- The loop of `info` folds over its records.  In front of a record that it does not go behind it
still takes the log for not quiescent. -/
lemma infoLoop_eq : ∀ fuel buf x, buf.length ≤ fuel →
    infoLoop fuel buf x = (walk infoAccepts fuel buf).foldl infoStep x ∨
      (∃ tail, buf = (walk infoAccepts fuel buf).flatten ++ tail ∧ tail ≠ []) ∧
      infoLoop fuel buf x
        = { (walk infoAccepts fuel buf).foldl infoStep x with quiescent := false }
  | 0, _, _, _ => Or.inl rfl
  | fuel + 1, buf, x, hfuel => by
      rw [infoLoop, walk]
      by_cases hf : Framed buf
      swap
      · rw [if_pos hf, if_neg fun h => hf h.1]
        exact Or.inl rfl
      rw [if_neg (not_not.mpr hf)]
      obtain ⟨fr, hfr, hsize, hsplit, htake⟩ := hf.split
      have hrest : (buf.drop (recSize buf)).length ≤ fuel := by
        have := hf.2.1
        simp
        omega
      have hc : recCommand buf = recCommand fr := by
        conv_lhs => rw [hsplit]
        exact recCommand_append _ hfr.le
      have hgo : ∀ y, infoAccepts buf = true → infoStep x fr = y →
          infoLoop fuel (buf.drop (recSize buf)) y = (fr :: walk infoAccepts fuel
            (buf.drop (recSize buf))).foldl infoStep x ∨
          (∃ tail, buf = (fr :: walk infoAccepts fuel (buf.drop (recSize buf))).flatten ++ tail
            ∧ tail ≠ []) ∧
          infoLoop fuel (buf.drop (recSize buf)) y = { (fr :: walk infoAccepts fuel
            (buf.drop (recSize buf))).foldl infoStep x with quiescent := false } := by
        rintro y - rfl
        rcases infoLoop_eq fuel (buf.drop (recSize buf)) (infoStep x fr) hrest with
          h | ⟨⟨tail, ht, hne⟩, h⟩
        · exact Or.inl h
        · refine Or.inr ⟨⟨tail, ?_, hne⟩, h⟩
          rw [List.flatten_cons, List.append_assoc, ← ht]
          exact hsplit
      have hstop : infoAccepts buf = false → recCommand buf ≠ logcmdQuiesce →
          ({ x with quiescent := recCommand buf == logcmdQuiesce } : InfoType)
            = ([] : List Bytes).foldl infoStep x ∨
          (∃ tail, buf = ([] : List Bytes).flatten ++ tail ∧ tail ≠ []) ∧
          ({ x with quiescent := recCommand buf == logcmdQuiesce } : InfoType)
            = { ([] : List Bytes).foldl infoStep x with quiescent := false } := by
        intro _ hq
        refine Or.inr ⟨⟨buf, rfl, ?_⟩, ?_⟩
        · rintro rfl
          exact absurd hf.1 (by simp)
        · rw [beq_eq_false_iff_ne.mpr hq]
          rfl
      by_cases he : recCommand buf = logcmdEpoch
      · have hnw : recCommand buf ≠ logcmdQuiesce := by rw [he]; decide
        simp only [if_pos he]
        by_cases hs : recSize buf < 16
        · have hacc : infoAccepts buf = false := by
            rw [infoAccepts, if_pos he]
            exact decide_eq_false (by omega)
          rw [if_pos hs, if_neg fun h => by rw [hacc] at h; cases h.2]
          exact hstop hacc hnw
        · have hacc : infoAccepts buf = true := by
            rw [infoAccepts, if_pos he]
            exact decide_eq_true (by omega)
          rw [if_neg hs, if_pos ⟨hf, hacc⟩, htake]
          refine hgo _ hacc ?_
          rw [infoStep, ← hc, if_pos he]
          have : recEpoch buf = recEpoch fr := by
            conv_lhs => rw [hsplit]
            exact recEpoch_append _ (by omega)
          rw [this]
      simp only [if_neg he]
      by_cases hw : recCommand buf = logcmdWake
      · have hacc : infoAccepts buf = true := by
          rw [infoAccepts, if_neg he]
          exact decide_eq_true (Or.inl hw)
        rw [if_pos hw, if_pos ⟨hf, hacc⟩, htake]
        refine hgo _ hacc ?_
        rw [infoStep, ← hc, if_neg he, if_pos hw]
      rw [if_neg hw]
      by_cases hu : IsUpdateCommand (recCommand buf) ∨ recCommand buf = logcmdQuiesce
      · have hacc : infoAccepts buf = true := by
          rw [infoAccepts, if_neg he]
          exact decide_eq_true (Or.inr hu)
        rw [if_neg (not_not.mpr hu), if_pos ⟨hf, hacc⟩, htake]
        refine hgo _ hacc ?_
        rw [infoStep, ← hc, if_neg he, if_neg hw]
      · have hacc : infoAccepts buf = false := by
          rw [infoAccepts, if_neg he]
          exact decide_eq_false fun h => hu (h.resolve_left hw)
        rw [if_pos hu, if_neg fun h => by rw [hacc] at h; cases h.2]
        exact hstop hacc fun h => hu (Or.inr h)

/-- What `info` finds in a log. -/
lemma logInfo_eq (f : Bytes) : logInfo f = infoOf (infoRecords f) ∨
    (∃ tail, f = (infoRecords f).flatten ++ tail ∧ tail ≠ []) ∧
    logInfo f = { infoOf (infoRecords f) with quiescent := false } :=
  infoLoop_eq f.length f _ le_rfl

/-- A log that consists of records is found as it is. -/
lemma logInfo_flatten {fs : List Bytes} (h : ∀ fr ∈ fs, IsFrame fr ∧ infoAccepts fr = true) :
    logInfo fs.flatten = infoOf fs := by
  have hrec : infoRecords fs.flatten = fs := by
    have := walk_flatten infoAccepts_local [] (fun h => absurd h.1.1 (by simp)) fs
      fs.flatten.length h (length_le_flatten fun fr hfr => (h fr hfr).1)
    rwa [List.append_nil] at this
  rcases logInfo_eq fs.flatten with h1 | ⟨⟨tail, ht, hne⟩, -⟩
  · rw [h1, hrec]
  · rw [hrec] at ht
    exact absurd (List.append_right_eq_self.mp ht.symm) hne

/-! ## The records of `replayandclean1` -/

/-- `extract` finds a record. -/
def extractAccepts (buf : Bytes) : Bool := (LogRecord.blank.extract buf).1.command ≠ logcmdNone

/-- The key length of a record with a key, if its other fields leave room for one. -/
def keyFits (buf : Bytes) (hdr at' : ℕ) : Prop :=
  hdr ≤ recSize buf ∧ loadLE 4 (buf.drop at') ≤ maxKeyLen ∧
    hdr + loadLE 4 (buf.drop at') ≤ recSize buf

/-- What `extract` asks of a record. -/
def Extractable (buf : Bytes) : Prop :=
  recCommand buf ≠ logcmdNone ∧
  (recCommand buf = logcmdPut ∨ recCommand buf = logcmdReplace ∨ recCommand buf = logcmdRemove →
    keyFits buf 24 16) ∧
  (recCommand buf = logcmdModify → keyFits buf 32 24) ∧
  (recCommand buf = logcmdEpoch → 16 ≤ recSize buf)

instance (buf : Bytes) (hdr at' : ℕ) : Decidable (keyFits buf hdr at') :=
  inferInstanceAs (Decidable (_ ∧ _))

instance (buf : Bytes) : Decidable (Extractable buf) := inferInstanceAs (Decidable (_ ∧ _))

lemma keyFits_append {fr : Bytes} (rest : Bytes) (h : IsFrame fr) {hdr at' : ℕ}
    (hat : at' + 4 ≤ hdr) : keyFits (fr ++ rest) hdr at' ↔ keyFits fr hdr at' := by
  rw [keyFits, keyFits, recSize_append rest h.le, h.size]
  constructor
  · rintro ⟨h1, h2⟩
    rw [load_append rest (by omega)] at h2
    exact ⟨h1, h2⟩
  · rintro ⟨h1, h2⟩
    rw [load_append rest (by omega)]
    exact ⟨h1, h2⟩

lemma extractable_append {fr : Bytes} (rest : Bytes) (h : IsFrame fr) :
    Extractable (fr ++ rest) ↔ Extractable fr := by
  rw [Extractable, Extractable, recCommand_append rest h.le, recSize_append rest h.le,
    keyFits_append rest h (by decide), keyFits_append rest h (by decide)]

/-- The commands of records are different numbers. -/
lemma commands_ne : logcmdPut ≠ logcmdModify ∧ logcmdReplace ≠ logcmdModify ∧
    logcmdRemove ≠ logcmdModify ∧ logcmdPut ≠ logcmdEpoch ∧ logcmdReplace ≠ logcmdEpoch ∧
    logcmdRemove ≠ logcmdEpoch ∧ logcmdModify ≠ logcmdEpoch ∧ logcmdModify ≠ logcmdPut ∧
    logcmdModify ≠ logcmdReplace ∧ logcmdModify ≠ logcmdRemove ∧ logcmdEpoch ≠ logcmdPut ∧
    logcmdEpoch ≠ logcmdReplace ∧ logcmdEpoch ≠ logcmdRemove ∧ logcmdEpoch ≠ logcmdModify := by
  decide

namespace LogRecord

/-- The record in a frame: the fields that it has, and those of `lr` for the others. -/
def fields (lr : LogRecord) (fr : Bytes) : LogRecord :=
  if recCommand fr = logcmdPut ∨ recCommand fr = logcmdReplace ∨ recCommand fr = logcmdRemove then
    { lr with
      command := recCommand fr
      ts := UInt64.ofNat (loadLE 8 (fr.drop 8))
      key := (fr.drop 20).take (loadLE 4 (fr.drop 16))
      val := (fr.drop (20 + loadLE 4 (fr.drop 16))).take
        (recSize fr - 24 - loadLE 4 (fr.drop 16)) }
  else if recCommand fr = logcmdModify then
    { lr with
      command := recCommand fr
      ts := UInt64.ofNat (loadLE 8 (fr.drop 8))
      prevTs := UInt64.ofNat (loadLE 8 (fr.drop 16))
      key := (fr.drop 28).take (loadLE 4 (fr.drop 24))
      val := (fr.drop (28 + loadLE 4 (fr.drop 24))).take
        (recSize fr - 32 - loadLE 4 (fr.drop 24)) }
  else if recCommand fr = logcmdEpoch then
    { lr with command := recCommand fr, epoch := recEpoch fr }
  else { lr with command := recCommand fr }

lemma fields_command (lr : LogRecord) (fr : Bytes) : (lr.fields fr).command = recCommand fr := by
  rw [fields]
  split
  · rfl
  · split
    · rfl
    · split <;> rfl

lemma fields_epoch (lr : LogRecord) (fr : Bytes) : (lr.fields fr).epoch =
    if recCommand fr = logcmdEpoch then recEpoch fr else lr.epoch := by
  have hne := commands_ne
  rw [fields]
  split
  · next h => rw [if_neg (by rcases h with h | h | h <;> rw [h] <;> simp [hne])]
  · split
    · next h => rw [if_neg (by rw [h]; simp [hne])]
    · split <;> rfl

/-- `extract` takes a record that is there and fits, and nothing else. -/
lemma extract_eq (lr : LogRecord) (buf : Bytes) : lr.extract buf =
    if Framed buf ∧ Extractable buf then (lr.fields buf, recSize buf)
    else ({ lr with command := logcmdNone }, buf.length) := by
  have hne := commands_ne
  rw [extract]
  by_cases h0 : Framed buf ∧ recCommand buf ≠ logcmdNone
  swap
  · simp only [Framed] at h0
    rw [if_pos (by omega), if_neg (by rw [Framed, Extractable]; omega)]
  simp only
  rw [if_neg (by have := h0.1; rw [Framed] at this; omega)]
  by_cases hk : recCommand buf = logcmdPut ∨ recCommand buf = logcmdReplace
      ∨ recCommand buf = logcmdRemove
  · have hm : recCommand buf ≠ logcmdModify ∧ recCommand buf ≠ logcmdEpoch := by
      rcases hk with h | h | h <;> rw [h] <;> simp [hne]
    have hext : (Framed buf ∧ Extractable buf) ↔ keyFits buf 24 16 :=
      ⟨fun h => h.2.2.1 hk, fun h => ⟨h0.1, h0.2, fun _ => h, fun h' => absurd h' hm.1,
        fun h' => absurd h' hm.2⟩⟩
    rw [if_pos hk, if_congr hext rfl rfl, fields, if_pos hk]
    split
    · rw [if_neg (by rw [keyFits]; omega)]
    · rw [if_pos (by rw [keyFits]; omega)]
  rw [if_neg hk]
  by_cases hm : recCommand buf = logcmdModify
  · have hE : recCommand buf ≠ logcmdEpoch := by rw [hm]; simp [hne]
    have hext : (Framed buf ∧ Extractable buf) ↔ keyFits buf 32 24 :=
      ⟨fun h => h.2.2.2.1 hm, fun h => ⟨h0.1, h0.2, fun h' => absurd h' hk, fun _ => h,
        fun h' => absurd h' hE⟩⟩
    rw [if_pos hm, if_congr hext rfl rfl, fields, if_neg hk, if_pos hm]
    split
    · rw [if_neg (by rw [keyFits]; omega)]
    · rw [if_pos (by rw [keyFits]; omega)]
  rw [if_neg hm]
  by_cases he : recCommand buf = logcmdEpoch
  · have hext : (Framed buf ∧ Extractable buf) ↔ 16 ≤ recSize buf :=
      ⟨fun h => h.2.2.2.2 he, fun h => ⟨h0.1, h0.2, fun h' => absurd h' hk,
        fun h' => absurd h' hm, fun _ => h⟩⟩
    rw [if_pos he, if_congr hext rfl rfl, fields, if_neg hk, if_neg hm, if_pos he]
    split
    · rw [if_neg (by omega)]
    · rw [if_pos (by omega)]
  · have hext : Framed buf ∧ Extractable buf :=
      ⟨h0.1, h0.2, fun h' => absurd h' hk, fun h' => absurd h' hm, fun h' => absurd h' he⟩
    rw [if_neg he, if_pos hext, fields, if_neg hk, if_neg hm, if_neg he]

/-- The fields of a record do not depend on what follows it. -/
lemma fields_append (lr : LogRecord) {fr : Bytes} (rest : Bytes) (h : IsFrame fr)
    (hx : Extractable fr) : lr.fields (fr ++ rest) = lr.fields fr := by
  have hle := h.le
  have hsize := h.size
  simp only [fields, recCommand_append rest hle, recSize_append rest hle]
  by_cases hk : recCommand fr = logcmdPut ∨ recCommand fr = logcmdReplace
      ∨ recCommand fr = logcmdRemove
  · obtain ⟨h1, -, h2⟩ := hx.2.1 hk
    simp only [if_pos hk]
    rw [load_append rest (by omega : 16 + 4 ≤ fr.length),
      load_append rest (by omega : 8 + 8 ≤ fr.length), slice_append rest (by omega),
      slice_append rest (by omega)]
  simp only [if_neg hk]
  by_cases hm : recCommand fr = logcmdModify
  · obtain ⟨h1, -, h2⟩ := hx.2.2.1 hm
    simp only [if_pos hm]
    rw [load_append rest (by omega : 24 + 4 ≤ fr.length),
      load_append rest (by omega : 8 + 8 ≤ fr.length),
      load_append rest (by omega : 16 + 8 ≤ fr.length), slice_append rest (by omega),
      slice_append rest (by omega)]
  simp only [if_neg hm]
  by_cases he : recCommand fr = logcmdEpoch
  · have h1 := hx.2.2.2 he
    simp only [if_pos he, recEpoch_append rest (by omega : 16 ≤ fr.length)]
  · simp only [if_neg he]

end LogRecord

lemma extractAccepts_iff {buf : Bytes} :
    extractAccepts buf = true ↔ Framed buf ∧ Extractable buf := by
  rw [extractAccepts, LogRecord.extract_eq, decide_eq_true_eq]
  split
  · next h =>
      rw [LogRecord.fields_command]
      exact ⟨fun _ => h, fun _ => h.2.1⟩
  · next h => exact ⟨fun h0 => absurd rfl h0, fun h0 => absurd h0 h⟩

lemma extractAccepts_local : Local extractAccepts where
  append fr rest h := by
    have hfr : Framed fr := by simpa using h.framed []
    rw [Bool.eq_iff_iff, extractAccepts_iff, extractAccepts_iff, extractable_append rest h]
    exact ⟨fun h' => ⟨hfr, h'.2⟩, fun h' => ⟨h.framed rest, h'.2⟩⟩

/-- The records that `replayandclean1` goes over. -/
def extractRecords (f : Bytes) : List Bytes := walk extractAccepts f.length f

/-- The epoch of the records behind `fr`. -/
def epochAfter (e : UInt64) (fr : Bytes) : UInt64 :=
  if recCommand fr = logcmdEpoch then recEpoch fr else e

/-- The record ends the replay up to epoch `M`. -/
def Ends (M : UInt64) (fr : Bytes) : Prop :=
  recCommand fr = logcmdEpoch ∧ ¬ circularLess (recEpoch fr) M

instance (M : UInt64) (fr : Bytes) : Decidable (Ends M fr) := inferInstanceAs (Decidable (_ ∧ _))

/-- The record in a frame, when it is run in epoch `e`. -/
def recordOf (e : UInt64) (fr : Bytes) : LogRecord :=
  ({ LogRecord.blank with epoch := e }.fields fr).forget

/-- The records up to the one that ends the replay, and that one. -/
def keepTo (M : UInt64) : List Bytes → List Bytes
  | [] => []
  | fr :: fs => if Ends M fr then [fr] else fr :: keepTo M fs

/-- The records from the first epoch record on. -/
def fromEpoch (fs : List Bytes) : List Bytes := fs.dropWhile (recCommand · != logcmdEpoch)

/-- What is kept of a log. -/
def kept (M : UInt64) (fs : List Bytes) : List Bytes := keepTo M (fromEpoch fs)

/-- The records that are run, from epoch `e` on. -/
def replays (M : UInt64) : UInt64 → List Bytes → List LogRecord
  | _, [] => []
  | e, fr :: fs =>
      if Ends M fr then []
      else
        (if epochAfter e fr ≠ 0 ∧ IsUpdateCommand (recCommand fr)
            ∧ (recordOf (epochAfter e fr) fr).key ≠ [] then [recordOf (epochAfter e fr) fr] else [])
          ++ replays M (epochAfter e fr) fs

lemma keepTo_append (M : UInt64) : ∀ fs, ∃ more, fs = keepTo M fs ++ more
  | [] => ⟨[], rfl⟩
  | fr :: fs => by
      rw [keepTo]
      split
      · exact ⟨fs, rfl⟩
      · obtain ⟨more, h⟩ := keepTo_append M fs
        exact ⟨more, by rw [List.cons_append, ← h]⟩

lemma fields_forget (lr : LogRecord) {fr : Bytes} (h : IsUpdateCommand (recCommand fr)) :
    (lr.fields fr).forget = recordOf lr.epoch fr := by
  have hne := commands_ne
  rw [recordOf, LogRecord.fields, LogRecord.fields]
  by_cases hk : recCommand fr = logcmdPut ∨ recCommand fr = logcmdReplace
      ∨ recCommand fr = logcmdRemove
  · have hm : recCommand fr ≠ logcmdModify := by
      rcases hk with h | h | h <;> rw [h] <;> simp [hne]
    simp only [if_pos hk, LogRecord.forget, if_neg hm]
  · have hm : recCommand fr = logcmdModify := by
      rcases h with h | h | h | h
      · exact absurd (Or.inl h) hk
      · exact absurd (Or.inr (Or.inl h)) hk
      · exact h
      · exact absurd (Or.inr (Or.inr h)) hk
    simp only [if_neg hk, LogRecord.forget, if_pos hm]

lemma recordOf_key (lr : LogRecord) {fr : Bytes} (h : IsUpdateCommand (recCommand fr)) :
    (recordOf lr.epoch fr).key = (lr.fields fr).key := by
  rw [← fields_forget lr h]
  rfl

/-- One round of the replay without a checkpoint, at a record. -/
lemma replayLoop_record {buf : Bytes} {M : UInt64} {fuel : ℕ} {st : ReplayState} {fr rest : Bytes}
    (hpos : buf.drop st.pos = fr ++ rest) (hfr : IsFrame fr) (hx : Extractable fr) :
    replayLoop buf 0 M (fuel + 1) st =
      (let lr := st.lr.fields fr
       let repbegin := if recCommand fr = logcmdEpoch ∧ st.repbegin = none then some st.pos
         else st.repbegin
       if Ends M fr then
         if repbegin = none then none
         else some { st with
           lr := lr, repbegin := repbegin, repend := some (st.pos + fr.length) }
       else if lr.epoch = 0 then
         replayLoop buf 0 M fuel { st with
           lr := lr
           pos := st.pos + fr.length
           repbegin := repbegin
           repend := if repbegin = none then st.repend else some (st.pos + fr.length) }
       else if repbegin = none then none
       else replayLoop buf 0 M fuel
         { lr := lr
           pos := st.pos + fr.length
           repbegin := repbegin
           repend := some (st.pos + fr.length)
           replayed := if lr.key ≠ [] ∧ IsUpdateCommand lr.command
             then st.replayed ++ [lr.forget] else st.replayed }) := by
  have hlen : st.pos < buf.length := by
    have h1 := congrArg List.length hpos
    have h2 := hfr.le
    simp at h1
    omega
  have hext : st.lr.extract (buf.drop st.pos) = (st.lr.fields fr, fr.length) := by
    rw [hpos, LogRecord.extract_eq, if_pos ⟨hfr.framed rest, (extractable_append rest hfr).mpr hx⟩,
      LogRecord.fields_append _ rest hfr hx, recSize_append rest hfr.le, hfr.size]
  have hcmd := LogRecord.fields_command st.lr fr
  have hepoch := LogRecord.fields_epoch st.lr fr
  have hends : ((st.lr.fields fr).command = logcmdEpoch ∧
      ¬ circularLess (st.lr.fields fr).epoch M) ↔ Ends M fr := by
    rw [hcmd, Ends]
    constructor
    · rintro ⟨h1, h2⟩
      rw [hepoch, if_pos h1] at h2
      exact ⟨h1, h2⟩
    · rintro ⟨h1, h2⟩
      rw [hepoch, if_pos h1]
      exact ⟨h1, h2⟩
  have hnone : (st.lr.fields fr).command ≠ logcmdNone := by
    rw [hcmd]
    exact hx.1
  rw [replayLoop, if_neg (by omega), hext]
  simp only [if_neg hnone, ne_eq, not_true_eq_false, false_and, false_or, true_and, or_false]
  rw [if_congr hends rfl rfl, hcmd]

/-- The replay stops at the end of the records. -/
lemma replayLoop_end {buf : Bytes} {M : UInt64} (fuel : ℕ) {st : ReplayState}
    (h : ¬ (Framed (buf.drop st.pos) ∧ extractAccepts (buf.drop st.pos) = true)) :
    ∃ lr, replayLoop buf 0 M fuel st = some { st with lr := lr } := by
  obtain _ | fuel := fuel
  · exact ⟨st.lr, rfl⟩
  rw [replayLoop]
  split
  · exact ⟨st.lr, rfl⟩
  · have hx : ¬ (Framed (buf.drop st.pos) ∧ Extractable (buf.drop st.pos)) := by
      intro h0
      exact h ⟨h0.1, extractAccepts_iff.mpr h0⟩
    rw [LogRecord.extract_eq, if_neg hx]
    simp only
    rw [if_pos trivial]
    exact ⟨_, rfl⟩

/-- The frame at the start of what is left, if it is accepted. -/
lemma walk_cases (fuel : ℕ) (buf : Bytes) :
    (¬ (Framed buf ∧ extractAccepts buf = true) ∧ walk extractAccepts (fuel + 1) buf = []) ∨
      ∃ fr rest, buf = fr ++ rest ∧ IsFrame fr ∧ Extractable fr ∧
        walk extractAccepts (fuel + 1) buf = fr :: walk extractAccepts fuel rest := by
  by_cases h : Framed buf ∧ extractAccepts buf = true
  · refine Or.inr ⟨buf.take (recSize buf), buf.drop (recSize buf),
      (List.take_append_drop _ _).symm, h.1.isFrame, ?_, by rw [walk, if_pos h]⟩
    have hx := (extractAccepts_iff.mp h.2).2
    rwa [← List.take_append_drop (recSize buf) buf, extractable_append _ h.1.isFrame] at hx
  · exact Or.inl ⟨h, by rw [walk, if_neg h]⟩

/-- The replay from the first epoch record on. -/
lemma replayLoop_begun {buf : Bytes} {M : UInt64} {b : ℕ} : ∀ (fuel : ℕ) (st : ReplayState),
    (buf.drop st.pos).length ≤ fuel → st.repbegin = some b → st.repend = some st.pos →
    ∃ st', replayLoop buf 0 M fuel st = some st' ∧ st'.repbegin = some b ∧
      st'.repend =
        some (st.pos + (keepTo M (walk extractAccepts fuel (buf.drop st.pos))).flatten.length)
      ∧ st'.replayed
        = st.replayed ++ replays M st.lr.epoch (walk extractAccepts fuel (buf.drop st.pos))
  | 0, st, _, hb, he => ⟨st, rfl, hb, by simpa [walk, keepTo] using he, by simp [walk, replays]⟩
  | fuel + 1, st, hfuel, hb, he => by
      rcases walk_cases fuel (buf.drop st.pos) with ⟨hend, hw⟩ | ⟨fr, rest, hpos, hfr, hx, hw⟩
      · obtain ⟨lr, hlr⟩ := replayLoop_end (M := M) (fuel + 1) hend
        rw [hw]
        exact ⟨_, hlr, hb, by simpa [keepTo] using he, by simp [replays]⟩
      have hlen := hfr.le
      have hdrop : buf.drop (st.pos + fr.length) = rest := by
        rw [← List.drop_drop, hpos, List.drop_left]
      have hfuel' : rest.length ≤ fuel := by
        have := congrArg List.length hpos
        simp only [List.length_append] at this
        omega
      rw [replayLoop_record hpos hfr hx, hw, keepTo, replays]
      simp only [hb, reduceCtorEq, and_false, if_false, LogRecord.fields_epoch,
        LogRecord.fields_command]
      by_cases hends : Ends M fr
      · simp only [if_pos hends]
        exact ⟨_, rfl, rfl, by simp, by simp⟩
      simp only [if_neg hends]
      by_cases hzero : epochAfter st.lr.epoch fr = 0
      · rw [if_pos (show (if recCommand fr = logcmdEpoch then recEpoch fr else st.lr.epoch) = 0
          from hzero)]
        obtain ⟨st', h1, h2, h3, h4⟩ := replayLoop_begun (M := M) fuel
          { st with lr := st.lr.fields fr, pos := st.pos + fr.length, repbegin := some b,
                    repend := some (st.pos + fr.length) } (by simp only; rw [hdrop]; exact hfuel')
          rfl rfl
        refine ⟨st', h1, h2, ?_, ?_⟩
        · rw [h3, hdrop]
          simp only [List.flatten_cons, List.length_append, Nat.add_assoc]
        · rw [h4, hdrop]
          have hfe : (st.lr.fields fr).epoch = epochAfter st.lr.epoch fr :=
            LogRecord.fields_epoch st.lr fr
          simp only [hfe, hzero, ne_eq, not_true_eq_false, false_and, if_false, List.nil_append]
      · rw [if_neg (show ¬ (if recCommand fr = logcmdEpoch then recEpoch fr else st.lr.epoch) = 0
          from hzero)]
        have hfe : (st.lr.fields fr).epoch = epochAfter st.lr.epoch fr :=
          LogRecord.fields_epoch st.lr fr
        obtain ⟨st', h1, h2, h3, h4⟩ := replayLoop_begun (M := M) fuel
          { lr := st.lr.fields fr, pos := st.pos + fr.length, repbegin := some b,
            repend := some (st.pos + fr.length),
            replayed := if (st.lr.fields fr).key ≠ [] ∧ IsUpdateCommand (recCommand fr)
             then st.replayed ++ [(st.lr.fields fr).forget] else st.replayed }
          (by simp only; rw [hdrop]; exact hfuel') rfl rfl
        refine ⟨st', h1, h2, ?_, ?_⟩
        · rw [h3, hdrop]
          simp only [List.flatten_cons, List.length_append, Nat.add_assoc]
        · rw [h4, hdrop, hfe]
          by_cases hu : IsUpdateCommand (recCommand fr)
          · have hne : epochAfter st.lr.epoch fr = st.lr.epoch := by
              have := commands_ne
              rw [epochAfter, if_neg]
              rcases hu with h | h | h | h <;> rw [h] <;> simp [this]
            rw [hne] at hzero ⊢
            simp only [hu, and_true, true_and, ne_eq, hzero, not_false_eq_true,
              recordOf_key st.lr hu, fields_forget st.lr hu]
            split <;> simp
          · simp [hu]

/-- The replay in front of the first epoch record: nothing is run. -/
lemma replayLoop_waiting {buf : Bytes} {M : UInt64} : ∀ (fuel : ℕ) (st : ReplayState),
    (buf.drop st.pos).length ≤ fuel → st.repbegin = none → st.repend = none → st.lr.epoch = 0 →
    ∃ st', replayLoop buf 0 M fuel st = some st' ∧
      (fromEpoch (walk extractAccepts fuel (buf.drop st.pos)) = [] ∧ st'.repbegin = none ∨
        ∃ b, st'.repbegin = some b ∧ st'.repend
          = some (b + (kept M (walk extractAccepts fuel (buf.drop st.pos))).flatten.length) ∧
        ∃ rest, buf.drop b
          = (fromEpoch (walk extractAccepts fuel (buf.drop st.pos))).flatten ++ rest) ∧
      st'.replayed
        = st.replayed ++ replays M 0 (walk extractAccepts fuel (buf.drop st.pos))
  | 0, st, _, hb, _, _ => by
      refine ⟨st, rfl, Or.inl ⟨rfl, hb⟩, ?_⟩
      simp [walk, replays]
  | fuel + 1, st, hfuel, hb, he, hz => by
      rcases walk_cases fuel (buf.drop st.pos) with ⟨hend, hw⟩ | ⟨fr, rest, hpos, hfr, hx, hw⟩
      · obtain ⟨lr, hlr⟩ := replayLoop_end (M := M) (fuel + 1) hend
        rw [hw]
        exact ⟨_, hlr, Or.inl ⟨rfl, hb⟩, by simp [replays]⟩
      have hlen := hfr.le
      have hdrop : buf.drop (st.pos + fr.length) = rest := by
        rw [← List.drop_drop, hpos, List.drop_left]
      have hfuel' : rest.length ≤ fuel := by
        have := congrArg List.length hpos
        simp only [List.length_append] at this
        omega
      by_cases hep : recCommand fr = logcmdEpoch
      · -- the replay begins here, and goes on as one that has begun
        obtain ⟨st', h1, h2, h3, h4⟩ := replayLoop_begun (M := M) (b := st.pos) (fuel + 1)
          { st with repbegin := some st.pos, repend := some st.pos } hfuel rfl rfl
        have hfrom : fromEpoch (walk extractAccepts (fuel + 1) (buf.drop st.pos))
            = walk extractAccepts (fuel + 1) (buf.drop st.pos) := by
          rw [hw, fromEpoch, List.dropWhile_cons_of_neg (by simp [hep])]
        have hsame : replayLoop buf 0 M (fuel + 1) st = replayLoop buf 0 M (fuel + 1)
            { st with repbegin := some st.pos, repend := some st.pos } := by
          rw [replayLoop_record hpos hfr hx, replayLoop_record (by exact hpos) hfr hx]
          simp [hb, hep]
        refine ⟨st', hsame.trans h1, Or.inr ⟨st.pos, h2, ?_, ?_⟩, ?_⟩
        · rw [kept, hfrom]
          exact h3
        · obtain ⟨tail, ht, -⟩ := walk_split extractAccepts (fuel + 1) (buf.drop st.pos) hfuel
          exact ⟨tail, by rw [hfrom]; exact ht⟩
        · rw [← hz]
          exact h4
      · have hends : ¬ Ends M fr := fun h => hep h.1
        have hfe : (st.lr.fields fr).epoch = 0 := by
          rw [LogRecord.fields_epoch, if_neg hep, hz]
        obtain ⟨st', h1, h2, h3⟩ := replayLoop_waiting (M := M) fuel
          { st with lr := st.lr.fields fr, pos := st.pos + fr.length }
          (by simp only; rw [hdrop]; exact hfuel') hb he hfe
        simp only [hdrop] at h2 h3
        have hfrom : fromEpoch (walk extractAccepts (fuel + 1) (buf.drop st.pos))
            = fromEpoch (walk extractAccepts fuel rest) := by
          rw [hw, fromEpoch, List.dropWhile_cons_of_pos (by simp [hep])]
          rfl
        have hafter : epochAfter 0 fr = 0 := by rw [epochAfter, if_neg hep]
        refine ⟨st', ?_, ?_, ?_⟩
        · rw [replayLoop_record hpos hfr hx]
          simp only [hep, false_and, if_false, if_neg hends, if_pos hfe, hb, if_true, he]
          simp only [hb, he] at h1
          exact h1
        · rw [kept, hfrom]
          exact h2
        · rw [h3, hw, replays, if_neg hends, hafter]
          simp

/-- **`replayandclean1` without a checkpoint**, in terms of the records of the log. -/
lemma replayAndClean_eq (f : Bytes) (M : UInt64) :
    replayAndClean f 0 M
      = some (replays M 0 (extractRecords f), (kept M (extractRecords f)).flatten) := by
  obtain ⟨st', h1, h2, h3⟩ := @replayLoop_waiting f M f.length
    ⟨LogRecord.blank, 0, none, none, []⟩ (by simp) rfl rfl rfl
  simp only [List.drop_zero, List.nil_append] at h2 h3
  change _ = replays M 0 (extractRecords f) at h3
  rw [replayAndClean, h1]
  rcases h2 with ⟨h2, h4⟩ | ⟨b, h4, h5, rest, h6⟩
  · change fromEpoch (extractRecords f) = [] at h2
    simp only [h4, h3, kept, h2, keepTo, List.flatten_nil]
  · change f.drop b = (fromEpoch (extractRecords f)).flatten ++ rest at h6
    change st'.repend = some (b + (kept M (extractRecords f)).flatten.length) at h5
    simp only [h4, h3, h5, Option.getD_some]
    have hpre : ∃ more, fromEpoch (extractRecords f) = kept M (extractRecords f) ++ more :=
      keepTo_append M _
    obtain ⟨more, hmore⟩ := hpre
    rw [List.drop_take, Nat.add_sub_cancel_left, h6, hmore, List.flatten_append, List.append_assoc,
      List.take_left]

end MasstreeLHM
