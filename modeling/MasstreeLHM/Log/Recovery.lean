import MasstreeLHM.Log.Epochs

/-!
# Recovering twice

The replay of a log ends at the first epoch record that is not below the bound; what lies behind
that record is cut off.  When `info` and `extract` find the same records up to the cut, and the
epochs do not decrease from there on, a second recovery from the logs as the first one rewrote them
computes the same bound, runs the same records and leaves the logs alone: `CleanLog`.

The argument is about three numbers of each log: its last epoch, its wake epochs, and whether it is
quiescent.  A log that is cut ends in the epoch of its cut and is awake then; a log that is not cut
looks as before.  So the bound is asked for again, and no log asks for less.  A log that `extract`
leaves too early is rewritten to one that does ask for less: `CutShort`.
-/

namespace MasstreeLHM

/-! ## Maxima and minima over the logs -/

lemma maxEpochOf_spec : ∀ (es : List UInt64) (m : UInt64), m.toNat < 2 ^ 63 →
    (∀ e ∈ es, e.toNat < 2 ^ 63) →
    (maxEpochOf m es = m ∨ maxEpochOf m es ∈ es) ∧ m ≤ maxEpochOf m es ∧
      ∀ e ∈ es, e ≤ maxEpochOf m es
  | [], m, _, _ => ⟨Or.inl rfl, UInt64.le_refl _, by simp⟩
  | e :: es, m, hm, hes => by
      have he := hes e List.mem_cons_self
      have hrest : ∀ x ∈ es, x.toNat < 2 ^ 63 := fun x hx => hes x (List.mem_cons_of_mem _ hx)
      rw [maxEpochOf, List.foldl_cons]
      change (maxEpochOf _ es = m ∨ maxEpochOf _ es ∈ e :: es) ∧ m ≤ maxEpochOf _ es ∧
        ∀ x ∈ e :: es, x ≤ maxEpochOf _ es
      have key : ∀ m', m'.toNat < 2 ^ 63 → m ≤ m' → e ≤ m' → (m' = m ∨ m' = e) →
          (maxEpochOf m' es = m ∨ maxEpochOf m' es ∈ e :: es) ∧ m ≤ maxEpochOf m' es ∧
            ∀ x ∈ e :: es, x ≤ maxEpochOf m' es := by
        intro m' hm' h1 h2 h3
        obtain ⟨h4, h5, h6⟩ := maxEpochOf_spec es m' hm' hrest
        refine ⟨?_, UInt64.le_trans h1 h5, ?_⟩
        · rcases h4 with h4 | h4
          · rw [h4]
            exact h3.imp id fun h => by rw [h]; exact List.mem_cons_self
          · exact Or.inr (List.mem_cons_of_mem _ h4)
        · intro x hx
          rcases List.mem_cons.mp hx with rfl | hx
          · exact UInt64.le_trans h2 h5
          · exact h6 x hx
      split
      · next h =>
          refine key e he ?_ (UInt64.le_refl _) (Or.inr rfl)
          rcases h.2 with rfl | h
          · exact UInt64.zero_le
          · exact UInt64.le_iff_toNat_le.mpr ((circularLess_iff hm he).mp h).le
      · next h =>
          refine key m hm (UInt64.le_refl _) ?_ (Or.inl rfl)
          by_cases hz : e = 0
          · rw [hz]
            exact UInt64.zero_le
          · rw [not_and, not_or, circularLess_iff hm he] at h
            exact UInt64.le_iff_toNat_le.mpr (not_lt.mp (h hz).2)

/-- The log asks for a bound of at most `b`. -/
inductive AsksFor (p : InfoType × UInt64) (b : UInt64) : Prop
  | last : p.1.quiescent = false → p.1.lastEpoch ≠ 0 → b = p.1.lastEpoch → AsksFor p b
  | wake : p.2 ≠ 0 → b = p.2 → AsksFor p b

lemma boundEpoch_spec : ∀ (logs : List (InfoType × UInt64)) (m : UInt64), m.toNat < 2 ^ 63 →
    (∀ p ∈ logs, p.1.lastEpoch.toNat < 2 ^ 63 ∧ p.2.toNat < 2 ^ 63) →
    (boundEpoch m logs = m ∨ ∃ p ∈ logs, AsksFor p (boundEpoch m logs)) ∧ boundEpoch m logs ≤ m ∧
      ∀ p ∈ logs, ∀ b, AsksFor p b → boundEpoch m logs ≤ b
  | [], m, _, _ => ⟨Or.inl rfl, UInt64.le_refl _, by simp⟩
  | p :: logs, m, hm, hlogs => by
      obtain ⟨hl, hw⟩ := hlogs p List.mem_cons_self
      have hrest : ∀ x ∈ logs, x.1.lastEpoch.toNat < 2 ^ 63 ∧ x.2.toNat < 2 ^ 63 :=
        fun x hx => hlogs x (List.mem_cons_of_mem _ hx)
      rw [boundEpoch, List.foldl_cons]
      simp only
      generalize hm1 : (if ¬ p.1.quiescent = true ∧ p.1.lastEpoch ≠ 0
        ∧ circularLess p.1.lastEpoch m = true then p.1.lastEpoch else m) = m1
      have h1 : m1.toNat < 2 ^ 63 ∧ (m1 = m ∨ AsksFor p m1) ∧ m1 ≤ m ∧
          (p.1.quiescent = false → p.1.lastEpoch ≠ 0 → m1 ≤ p.1.lastEpoch) := by
        rw [← hm1]
        split
        · next h =>
            rw [circularLess_iff hl hm] at h
            exact ⟨hl, Or.inr (.last (by simpa using h.1) h.2.1 rfl),
              UInt64.le_iff_toNat_le.mpr h.2.2.le, fun _ _ => UInt64.le_refl _⟩
        · next h =>
            refine ⟨hm, Or.inl rfl, UInt64.le_refl _, ?_⟩
            intro hq hz
            rw [circularLess_iff hl hm] at h
            refine UInt64.le_iff_toNat_le.mpr (not_lt.mp fun h' => h ⟨?_, hz, h'⟩)
            rw [hq]
            decide
      generalize hm2 : (if p.2 ≠ 0 ∧ circularLess p.2 m1 = true then p.2 else m1) = m2
      have h2 : m2.toNat < 2 ^ 63 ∧ (m2 = m ∨ AsksFor p m2) ∧ m2 ≤ m ∧
          ∀ b, AsksFor p b → m2 ≤ b := by
        obtain ⟨h3, h4, h5, h6⟩ := h1
        rw [← hm2]
        split
        · next h =>
            rw [circularLess_iff hw h3] at h
            have hle : p.2 ≤ m1 := UInt64.le_iff_toNat_le.mpr h.2.le
            refine ⟨hw, Or.inr (.wake h.1 rfl), UInt64.le_trans hle h5, ?_⟩
            rintro b (⟨hq, hz, rfl⟩ | ⟨hz, rfl⟩)
            · exact UInt64.le_trans hle (h6 hq hz)
            · exact UInt64.le_refl _
        · next h =>
            refine ⟨h3, h4, h5, ?_⟩
            rintro b (⟨hq, hz, rfl⟩ | ⟨hz, rfl⟩)
            · exact h6 hq hz
            · rw [circularLess_iff hw h3] at h
              exact UInt64.le_iff_toNat_le.mpr (not_lt.mp fun h' => h ⟨hz, h'⟩)
      obtain ⟨h3, h4, h5, h6⟩ := h2
      obtain ⟨h7, h8, h9⟩ := boundEpoch_spec logs m2 h3 hrest
      change (boundEpoch m2 logs = m ∨ ∃ x ∈ p :: logs, AsksFor x (boundEpoch m2 logs)) ∧
        boundEpoch m2 logs ≤ m ∧ ∀ x ∈ p :: logs, ∀ b, AsksFor x b → boundEpoch m2 logs ≤ b
      refine ⟨?_, UInt64.le_trans h8 h5, ?_⟩
      · rcases h7 with h7 | ⟨x, hx, h7⟩
        · rw [h7]
          exact h4.imp id fun h => ⟨p, List.mem_cons_self, h⟩
        · exact Or.inr ⟨x, List.mem_cons_of_mem _ hx, h7⟩
      · intro x hx b hb
        rcases List.mem_cons.mp hx with rfl | hx
        · exact UInt64.le_trans h8 (h6 b hb)
        · exact h9 x hx b hb

/-- How the analysis of a log may change when the log is rewritten. -/
structure Rewritten (x x' : InfoType) : Prop where
  asleep : x'.quiescent = true →
    x.quiescent = true ∧ x'.lastEpoch = x.lastEpoch ∨ x'.lastEpoch = 0
  zero : x.quiescent = true → x.lastEpoch = 0 → x'.quiescent = true ∧ x'.lastEpoch = 0
  bounded : x.lastEpoch.toNat < 2 ^ 63
  bounded' : x'.lastEpoch.toNat < 2 ^ 63

/-- The least epoch of the quiescent logs does not get smaller by the rewriting, unless it gets
zero. -/
lemma minQuiescent_rewritten {α : Type*} (g g' : α → InfoType) : ∀ (as : List α) (m m' : UInt64),
    (∀ a ∈ as, Rewritten (g a) (g' a)) → m.toNat < 2 ^ 63 → m'.toNat < 2 ^ 63 →
    (m' = 0 ∨ m ≠ 0 ∧ m ≤ m') →
    let f := fun (m : UInt64) (x : InfoType) =>
      if x.quiescent = true ∧ (m = 0 ∨ circularLess x.lastEpoch m = true) then x.lastEpoch else m
    (as.map g').foldl f m' = 0 ∨
      (as.map g).foldl f m ≠ 0 ∧ (as.map g).foldl f m ≤ (as.map g').foldl f m'
  | [], m, m', _, _, _, h => h
  | a :: as, m, m', hR, hm, hm', h => by
      intro f
      rw [List.map_cons, List.map_cons, List.foldl_cons, List.foldl_cons]
      have hRa := hR a List.mem_cons_self
      have hl := hRa.bounded
      have hl' := hRa.bounded'
      have hbound : ∀ (x : InfoType) (n : UInt64), x.lastEpoch.toNat < 2 ^ 63 →
          n.toNat < 2 ^ 63 → (f n x).toNat < 2 ^ 63 := by
        intro x n hx hn
        change (if _ then _ else _ : UInt64).toNat < _
        split <;> assumption
      refine minQuiescent_rewritten g g' as _ _ (fun b hb => hR b (List.mem_cons_of_mem _ hb))
        (hbound _ _ hl hm) (hbound _ _ hl' hm') ?_
      -- the two minima after this log
      have key : ∀ n n' : UInt64, (n' = 0 ∨ n ≠ 0 ∧ n ≤ n') ↔
          (n'.toNat = 0 ∨ n.toNat ≠ 0 ∧ n.toNat ≤ n'.toNat) := by
        intro n n'
        rw [UInt64.le_iff_toNat_le, ← UInt64.toNat_inj, ne_eq, ← UInt64.toNat_inj]
        rfl
      rw [key] at h ⊢
      have hf : ∀ (x : InfoType) (n : UInt64), x.lastEpoch.toNat < 2 ^ 63 → n.toNat < 2 ^ 63 →
          (f n x).toNat = if x.quiescent = true ∧ (n.toNat = 0 ∨ x.lastEpoch.toNat < n.toNat)
            then x.lastEpoch.toNat else n.toNat := by
        intro x n hx hn
        change (if _ then _ else _ : UInt64).toNat = _
        rw [apply_ite UInt64.toNat]
        refine if_congr ?_ rfl rfl
        rw [circularLess_iff hx hn, ← UInt64.toNat_inj]
        rfl
      rw [hf _ _ hl hm, hf _ _ hl' hm']
      have hz : (g a).quiescent = true → (g a).lastEpoch.toNat = 0 →
          (g' a).quiescent = true ∧ (g' a).lastEpoch.toNat = 0 := by
        intro h1 h2
        obtain ⟨h3, h4⟩ := hRa.zero h1 (UInt64.toNat_inj.mp h2)
        exact ⟨h3, by rw [h4]; rfl⟩
      have ha : (g' a).quiescent = true → (g a).quiescent = true ∧
          (g' a).lastEpoch.toNat = (g a).lastEpoch.toNat ∨ (g' a).lastEpoch.toNat = 0 := by
        intro h1
        rcases hRa.asleep h1 with ⟨h2, h3⟩ | h2
        · exact Or.inl ⟨h2, by rw [h3]⟩
        · exact Or.inr (by rw [h2]; rfl)
      by_cases hq' : (g' a).quiescent = true
      · rcases ha hq' with ⟨hq, heq⟩ | h0
        · simp only [hq, hq', true_and, heq]
          split <;> split <;> omega
        · simp only [hq', true_and, h0]
          left
          split <;> omega
      · simp only [hq', Bool.false_eq_true, false_and, if_false]
        by_cases hq : (g a).quiescent = true
        · have hne : (g a).lastEpoch.toNat ≠ 0 := fun h0 => hq' (hz hq h0).1
          simp only [hq, true_and]
          split <;> omega
        · simp only [hq, Bool.false_eq_true, false_and, if_false]
          exact h

/-! ## The second recovery -/

/-- A log with an epoch record, in which no epoch has come near to wrapping. -/
structure EpochLog (f : Bytes) : Prop where
  epoch : epochsOf (infoRecords f) ≠ []
  bounded : Bounded (infoRecords f)

/-- A log that is replayed up to epoch `M`.  Up to the record that ends the replay `info` and
`extract` find the same records, and from there on the epochs do not decrease. -/
structure CleanLog (M : UInt64) (f : Bytes) : Prop extends EpochLog f where
  same : keepTo M (extractRecords f) = keepTo M (infoRecords f)
  ordered : (epochsOf (fromCut M (infoRecords f))).Pairwise (· ≤ ·)

/-- The log as it is rewritten. -/
def cleanedLog (M : UInt64) (f : Bytes) : Bytes := (kept M (extractRecords f)).flatten

lemma extractRecords_cleanedLog (M : UInt64) (f : Bytes) :
    extractRecords (cleanedLog M f) = kept M (extractRecords f) := by
  have hacc : ∀ fr ∈ kept M (extractRecords f), IsFrame fr ∧ extractAccepts fr = true :=
    fun fr hfr => walk_accepted extractAccepts_local _ _ fr ((kept_sublist M _).subset hfr)
  have := walk_flatten extractAccepts_local [] (fun h => absurd h.1.1 (by simp)) _
    (kept M (extractRecords f)).flatten.length hacc (length_le_flatten fun fr hfr =>
      (hacc fr hfr).1)
  rwa [List.append_nil] at this

namespace EpochLog

variable {f : Bytes}

lemma ne_nil (h : EpochLog f) : f ≠ [] := by
  rintro rfl
  exact h.epoch rfl

lemma lastEpoch_eq (f : Bytes) : (logInfo f).lastEpoch = lastOf 0 (infoRecords f) := by
  rcases logInfo_eq f with h1 | ⟨-, h1⟩ <;> rw [h1] <;> exact infoOf_lastEpoch _

lemma wakeEpoch_eq (f : Bytes) :
    (logInfo f).wakeEpoch = (infoOf (infoRecords f)).wakeEpoch := by
  rcases logInfo_eq f with h1 | ⟨-, h1⟩ <;> rw [h1]

lemma lastEpoch_mem (h : EpochLog f) : (logInfo f).lastEpoch ∈ epochsOf (infoRecords f) := by
  rw [lastEpoch_eq]
  exact lastOf_mem_of_ne h.epoch

lemma lastEpoch_lt (h : EpochLog f) : (logInfo f).lastEpoch.toNat < 2 ^ 63 :=
  h.bounded _ h.lastEpoch_mem

lemma wakeEpoch_mem (f : Bytes) : (logInfo f).wakeEpoch = 0 ∨
    (logInfo f).wakeEpoch ∈ wakesOf 0 (infoRecords f) := by
  rw [wakeEpoch_eq]
  exact infoOf_wakeEpoch _

lemma wakeEpoch_lt (h : EpochLog f) : (logInfo f).wakeEpoch.toNat < 2 ^ 63 := by
  rcases wakeEpoch_mem f with h1 | h1
  · rw [h1]
    decide
  · exact h.bounded.wake h1

end EpochLog

namespace CleanLog

variable {f : Bytes} {M : UInt64}

lemma kept_same (h : CleanLog M f) : kept M (extractRecords f) = kept M (infoRecords f) := by
  rw [kept_eq, kept_eq, h.same]

lemma kept_accepted (M : UInt64) (f : Bytes) : ∀ fr ∈ kept M (infoRecords f),
    IsFrame fr ∧ infoAccepts fr = true :=
  fun fr hfr => walk_accepted infoAccepts_local _ _ fr ((kept_sublist M _).subset hfr)

lemma infoRecords_cleanedLog (h : CleanLog M f) :
    infoRecords (cleanedLog M f) = kept M (infoRecords f) := by
  have hacc := kept_accepted M f
  rw [cleanedLog, h.kept_same]
  have := walk_flatten infoAccepts_local [] (fun h => absurd h.1.1 (by simp)) _
    (kept M (infoRecords f)).flatten.length hacc (length_le_flatten fun fr hfr => (hacc fr hfr).1)
  rwa [List.append_nil] at this

lemma logInfo_cleanedLog (h : CleanLog M f) :
    logInfo (cleanedLog M f) = infoOf (kept M (infoRecords f)) := by
  rw [cleanedLog, h.kept_same]
  exact logInfo_flatten (kept_accepted M f)

/-- Rewritten logs keep an epoch record. -/
lemma again (h : CleanLog M f) : EpochLog (cleanedLog M f) where
  epoch := by
    rw [h.infoRecords_cleanedLog]
    rcases kept_cases M (infoRecords f) with
      ⟨skip, pre, fr, post, h1, h2, h3, h4, h5⟩ | ⟨skip, h1, h2, -⟩
    · rw [h2, epochsOf_append, epochsOf_cons_epoch [] h3.1]
      simp
    · have hne := h.epoch
      rw [h1, epochsOf_append, epochsOf_nil_of h2, List.nil_append] at hne
      exact hne
  bounded := by
    rw [h.infoRecords_cleanedLog]
    exact h.bounded.mono (epochsOf_sublist (kept_sublist M _))

/-- A log that is cut is awake then, and ends in the epoch of the cut. -/
lemma cut (h : CleanLog M f) (hM : M.toNat < 2 ^ 63) (hcut : fromCut M (infoRecords f) ≠ []) :
    (logInfo (cleanedLog M f)).quiescent = false ∧ M ≤ (logInfo (cleanedLog M f)).lastEpoch ∧
      (logInfo (cleanedLog M f)).lastEpoch ≤ (logInfo f).lastEpoch ∧
      (logInfo (cleanedLog M f)).wakeEpoch ≤ (logInfo f).wakeEpoch := by
  obtain ⟨fr, post, hfr⟩ := List.exists_cons_of_ne_nil hcut
  obtain ⟨h1, h2, h3, h4, h5⟩ := infoOf_kept_cut h.bounded hM hfr h.ordered
  rw [h.logInfo_cleanedLog, EpochLog.lastEpoch_eq, ← infoOf_lastEpoch, EpochLog.wakeEpoch_eq, h2]
  exact ⟨h1, UInt64.le_iff_toNat_le.mpr h3, h4, h5⟩

/-- A log that is not cut looks as before. -/
lemma whole (h : CleanLog M f) (hcut : fromCut M (infoRecords f) = []) :
    logInfo f = logInfo (cleanedLog M f) ∨
      logInfo f = { logInfo (cleanedLog M f) with quiescent := false } := by
  rw [h.logInfo_cleanedLog, infoOf_kept_whole h.epoch hcut]
  exact (logInfo_eq f).imp id And.right

/-- If nothing is cut off, all epochs are below the bound. -/
lemma lt_of_whole (h : CleanLog M f) (hM : M.toNat < 2 ^ 63)
    (hcut : fromCut M (infoRecords f) = []) {e : UInt64} (he : e ∈ epochsOf (infoRecords f)) :
    e.toNat < M.toNat := by
  refine lt_of_not_ends hM h.bounded ?_ he
  intro g hg
  simpa using List.dropWhile_eq_nil_iff.mp hcut g hg

/-- The analysis of a rewritten log, when the bound is what the logs ask for. -/
lemma rewritten (h : CleanLog M f) (hM : M.toNat < 2 ^ 63) (hpos : M ≠ 0)
    (hask : (logInfo f).quiescent = false → (logInfo f).lastEpoch ≠ 0 → M ≤ (logInfo f).lastEpoch) :
    Rewritten (logInfo f) (logInfo (cleanedLog M f)) := by
  refine ⟨?_, ?_, h.lastEpoch_lt, h.again.lastEpoch_lt⟩
  · intro hq'
    by_cases hcut : fromCut M (infoRecords f) = []
    · rcases h.whole hcut with h1 | h1
      · exact Or.inl ⟨by rw [h1, hq'], by rw [h1]⟩
      · -- only a log without epochs in use is awake and all below the bound
        refine Or.inr ?_
        by_contra hne
        have hlast : (logInfo f).lastEpoch = (logInfo (cleanedLog M f)).lastEpoch := by rw [h1]
        rw [← hlast] at hne
        have h2 := UInt64.le_iff_toNat_le.mp (hask (by rw [h1]) hne)
        have h3 := h.lt_of_whole hM hcut h.lastEpoch_mem
        omega
    · have := (h.cut hM hcut).1
      rw [hq'] at this
      cases this
  · intro hq h0
    by_cases hcut : fromCut M (infoRecords f) = []
    · rcases h.whole hcut with h1 | h1
      · exact ⟨by rw [← h1, hq], by rw [← h1, h0]⟩
      · rw [h1] at hq
        cases hq
    · obtain ⟨-, h2, h3, -⟩ := h.cut hM hcut
      rw [h0] at h3
      exact absurd (UInt64.le_antisymm (UInt64.le_trans h2 h3) UInt64.zero_le) hpos

/-- A rewritten log that is not quiescent does not end below the bound. -/
lemma le_lastEpoch_again (h : CleanLog M f) (hM : M.toNat < 2 ^ 63)
    (hask : (logInfo f).quiescent = false → (logInfo f).lastEpoch ≠ 0 → M ≤ (logInfo f).lastEpoch)
    (hq : (logInfo (cleanedLog M f)).quiescent = false)
    (hne : (logInfo (cleanedLog M f)).lastEpoch ≠ 0) :
    M ≤ (logInfo (cleanedLog M f)).lastEpoch := by
  by_cases hcut : fromCut M (infoRecords f) = []
  · have hlast : (logInfo f).lastEpoch = (logInfo (cleanedLog M f)).lastEpoch ∧
        (logInfo f).quiescent = false := by
      rcases h.whole hcut with h1 | h1 <;> rw [h1]
      · exact ⟨rfl, hq⟩
      · exact ⟨rfl, rfl⟩
    rw [← hlast.1] at hne ⊢
    exact hask hlast.2 hne
  · exact (h.cut hM hcut).2.1

/-- The wake epoch of a log does not grow when the log is rewritten. -/
lemma wakeEpoch_again (h : CleanLog M f) (hM : M.toNat < 2 ^ 63) :
    (logInfo (cleanedLog M f)).wakeEpoch ≤ (logInfo f).wakeEpoch := by
  by_cases hcut : fromCut M (infoRecords f) = []
  · rcases h.whole hcut with h1 | h1 <;> rw [h1] <;> exact UInt64.le_refl _
  · exact (h.cut hM hcut).2.2.2

end CleanLog

lemma logInfos_of_ne_nil (junk : ℕ → Bool) {files : List Bytes} (h : ∀ f ∈ files, f ≠ []) :
    logInfos junk files = files.map logInfo := by
  refine List.ext_getElem (by simp [logInfos]) ?_
  intro i h1 h2
  have hlt : i < files.length := by simpa [logInfos] using h1
  have hne := h files[i] (List.getElem_mem hlt)
  simp [logInfos, hne]

/-- What the log contributes to the bound. -/
def contribution (files : List Bytes) (f : Bytes) : InfoType × UInt64 :=
  (logInfo f, postWake (replayMinQuiescent (files.map logInfo)) f (logInfo f))

lemma replayMaxEpoch_eq (junk : ℕ → Bool) {files : List Bytes} (h : ∀ f ∈ files, f ≠ []) :
    replayMaxEpoch 0 junk files
      = boundEpoch (maxEpochOf 0 (files.map fun f => (logInfo f).lastEpoch))
          (files.map (contribution files)) := by
  have hzip : files.zip (files.map logInfo) = files.map fun f => (f, logInfo f) := by
    simpa using List.zip_map' (f := id) (g := logInfo) (l := files)
  rw [replayMaxEpoch, logInfos_of_ne_nil junk h]
  simp only [if_true, hzip, List.map_map]
  rfl

lemma recover_eq (junk : ℕ → Bool) {files : List Bytes} (h : ∀ f ∈ files, f ≠ []) :
    recover 0 0 junk files = some ⟨replayMaxEpoch 0 junk files, files.map fun f =>
      (replays (replayMaxEpoch 0 junk files) 0 (extractRecords f),
        cleanedLog (replayMaxEpoch 0 junk files) f)⟩ := by
  have hall : ∀ (M : UInt64) (fs : List Bytes), (∀ f ∈ fs, f ≠ []) →
      allSome (fs.map fun f => if f = [] then some ([], []) else replayAndClean f 0 M)
        = some (fs.map fun f => (replays M 0 (extractRecords f), cleanedLog M f)) := by
    intro M fs
    induction fs with
    | nil => exact fun _ => rfl
    | cons f fs ih =>
        intro hfs
        rw [List.map_cons, if_neg (hfs f List.mem_cons_self), replayAndClean_eq, allSome,
          ih fun g hg => hfs g (List.mem_cons_of_mem _ hg)]
        rfl
  rw [recover]
  simp only [ne_eq, not_true_eq_false, false_and, if_false]
  rw [hall _ _ h]
  rfl

/-- What is known of the bound that logs give. -/
structure IsBound (files : List Bytes) (M : UInt64) : Prop where
  /-- The logs do not ask for less. -/
  least : ∀ f ∈ files, ∀ b, AsksFor (contribution files f) b → M ≤ b
  /-- It is the greatest last epoch, or one of the logs asks for it. -/
  asked : M = maxEpochOf 0 (files.map fun f => (logInfo f).lastEpoch) ∨
    ∃ f ∈ files, AsksFor (contribution files f) M

/-- The wake epoch that a log contributes is the first one of the log that counts. -/
lemma postWake_spec {f : Bytes} (h : EpochLog f) {q : UInt64} (hq : q.toNat < 2 ^ 63)
    (hne : postWake q f (logInfo f) ≠ 0) : q ≠ 0 ∧ q ≤ (logInfo f).wakeEpoch ∧
      (wakesOf 0 (infoRecords f)).find? (fun w => Counts q w)
        = some (postWake q f (logInfo f)) := by
  rw [postWake] at hne ⊢
  split at hne
  · next hc =>
      rw [if_pos hc]
      obtain ⟨-, hq0, hless⟩ := hc
      have hle : q ≤ (logInfo f).wakeEpoch := by
        rw [circularLess_iff h.wakeEpoch_lt hq, not_lt] at hless
        exact UInt64.le_iff_toNat_le.mpr hless
      have hwake : (logInfo f).wakeEpoch ≠ 0 := by
        intro h0
        rw [h0] at hle
        exact hq0 (UInt64.le_antisymm hle UInt64.zero_le)
      exact ⟨hq0, hle, minPost_find
        ⟨_, (EpochLog.wakeEpoch_mem f).resolve_left hwake, hwake, hless⟩⟩
  · exact absurd rfl hne

lemma replayMinQuiescent_lt {infos : List InfoType}
    (h : ∀ x ∈ infos, x.lastEpoch.toNat < 2 ^ 63) : (replayMinQuiescent infos).toNat < 2 ^ 63 := by
  have hmin : (minQuiescentLastEpoch infos).toNat < 2 ^ 63 := by
    rw [minQuiescentLastEpoch]
    refine List.foldlRecOn (motive := fun m : UInt64 => m.toNat < 2 ^ 63) infos _ (by decide) ?_
    intro m hm x hx
    change (if _ then _ else _ : UInt64).toNat < _
    split
    · exact h x hx
    · exact hm
  rw [replayMinQuiescent]
  split
  · exact hmin
  · decide

section Logs

variable {files : List Bytes} {M : UInt64} (hfiles : ∀ f ∈ files, EpochLog f)
include hfiles

lemma minQuiescent_lt : (replayMinQuiescent (files.map logInfo)).toNat < 2 ^ 63 := by
  refine replayMinQuiescent_lt ?_
  intro x hx
  obtain ⟨f, hf, rfl⟩ := List.mem_map.mp hx
  exact (hfiles f hf).lastEpoch_lt

lemma maxLast_spec :
    (maxEpochOf 0 (files.map fun f => (logInfo f).lastEpoch) = 0 ∨
      ∃ f ∈ files, maxEpochOf 0 (files.map fun f => (logInfo f).lastEpoch) =
      (logInfo f).lastEpoch) ∧
    (∀ f ∈ files, (logInfo f).lastEpoch ≤ maxEpochOf 0 (files.map fun f => (logInfo f).lastEpoch))
      := by
  obtain ⟨h1, -, h2⟩ := maxEpochOf_spec (files.map fun f => (logInfo f).lastEpoch) 0 (by decide) (by
    intro e he
    obtain ⟨f, hf, rfl⟩ := List.mem_map.mp he
    exact (hfiles f hf).lastEpoch_lt)
  constructor
  · refine h1.imp id ?_
    intro h
    obtain ⟨f, hf, he⟩ := List.mem_map.mp h
    exact ⟨f, hf, he.symm⟩
  · intro f hf
    exact h2 _ (List.mem_map.mpr ⟨f, hf, rfl⟩)

/-- A wake epoch that a log contributes is a wake epoch of the log. -/
lemma contribution_wake {f : Bytes} (hf : f ∈ files) (hne : (contribution files f).2 ≠ 0) :
    (contribution files f).2 ∈ wakesOf 0 (infoRecords f) :=
  List.mem_of_find?_eq_some (postWake_spec (hfiles f hf) (minQuiescent_lt hfiles) hne).2.2

/-- What a log asks for is one of its epochs. -/
lemma asksFor_mem {f : Bytes} (hf : f ∈ files) {b : UInt64} (h : AsksFor (contribution files f) b) :
    b ≠ 0 ∧ b ∈ epochsOf (infoRecords f) := by
  rcases h with ⟨-, hne, rfl⟩ | ⟨hne, rfl⟩
  · exact ⟨hne, (hfiles f hf).lastEpoch_mem⟩
  · exact ⟨hne, (mem_wakesOf (contribution_wake hfiles hf hne)).resolve_left hne⟩

lemma isBound (junk : ℕ → Bool) : IsBound files (replayMaxEpoch 0 junk files) := by
  have hne : ∀ f ∈ files, f ≠ [] := fun f hf => (hfiles f hf).ne_nil
  have hmax : (maxEpochOf 0 (files.map fun f => (logInfo f).lastEpoch)).toNat < 2 ^ 63 := by
    rcases (maxLast_spec hfiles).1 with h | ⟨f, hf, h⟩ <;> rw [h]
    · decide
    · exact (hfiles f hf).lastEpoch_lt
  obtain ⟨h1, -, h3⟩ := boundEpoch_spec (files.map (contribution files)) _ hmax (by
    intro p hp
    obtain ⟨f, hf, rfl⟩ := List.mem_map.mp hp
    refine ⟨(hfiles f hf).lastEpoch_lt, ?_⟩
    by_cases h0 : (contribution files f).2 = 0
    · rw [h0]
      decide
    · exact (hfiles f hf).bounded.wake (contribution_wake hfiles hf h0))
  rw [replayMaxEpoch_eq junk hne]
  constructor
  · intro f hf b hb
    exact h3 _ (List.mem_map.mpr ⟨f, hf, rfl⟩) b hb
  · refine h1.imp id ?_
    rintro ⟨p, hp, hask⟩
    obtain ⟨f, hf, rfl⟩ := List.mem_map.mp hp
    exact ⟨f, hf, hask⟩

lemma IsBound.attained (hB : IsBound files M) :
    M = 0 ∨ ∃ f ∈ files, M ∈ epochsOf (infoRecords f) := by
  rcases hB.asked with h | ⟨f, hf, h⟩
  · rcases (maxLast_spec hfiles).1 with h0 | ⟨f, hf, h1⟩
    · exact Or.inl (h.trans h0)
    · refine Or.inr ⟨f, hf, ?_⟩
      rw [h, h1]
      exact (hfiles f hf).lastEpoch_mem
  · exact Or.inr ⟨f, hf, (asksFor_mem hfiles hf h).2⟩

lemma IsBound.lt (hB : IsBound files M) : M.toNat < 2 ^ 63 := by
  rcases hB.attained hfiles with h | ⟨f, hf, h⟩
  · rw [h]
    decide
  · exact (hfiles f hf).bounded _ h

/-- When a quiescent log may have missed wake records of a log, the first one that counts bounds
the replay. -/
lemma IsBound.le_first (hB : IsBound files M) {f : Bytes} (hf : f ∈ files)
    (hQ : minQuiescentLastEpoch (files.map logInfo) ≠ 0)
    (hgate : minQuiescentLastEpoch (files.map logInfo) ≤ (logInfo f).wakeEpoch) :
    ∃ v, (wakesOf 0 (infoRecords f)).find?
      (fun w => Counts (minQuiescentLastEpoch (files.map logInfo)) w) = some v ∧ M ≤ v := by
  have hc := hfiles f hf
  generalize hQdef : minQuiescentLastEpoch (files.map logInfo) = Q at hQ hgate
  have hQlt : Q.toNat < 2 ^ 63 := by
    have := hc.wakeEpoch_lt
    have := UInt64.le_iff_toNat_le.mp hgate
    omega
  have hQ0 : Q.toNat ≠ 0 := fun h0 => hQ (UInt64.toNat_inj.mp h0)
  have hrmq : replayMinQuiescent (files.map logInfo) = Q := by
    obtain ⟨hW1, -, hW2⟩ := maxEpochOf_spec ((files.map logInfo).map InfoType.wakeEpoch) 0
      (by decide) (by
        intro e he
        obtain ⟨y, hy, rfl⟩ := List.mem_map.mp he
        obtain ⟨g, hg, rfl⟩ := List.mem_map.mp hy
        exact (hfiles g hg).wakeEpoch_lt)
    have hW3 := hW2 _ (List.mem_map.mpr ⟨logInfo f, List.mem_map.mpr ⟨f, hf, rfl⟩, rfl⟩)
    have hW4 : (maxEpochOf 0 ((files.map logInfo).map InfoType.wakeEpoch)).toNat < 2 ^ 63 := by
      rcases hW1 with h | h
      · rw [h]
        decide
      · obtain ⟨y, hy, he⟩ := List.mem_map.mp h
        obtain ⟨g, hg, rfl⟩ := List.mem_map.mp hy
        rw [← he]
        exact (hfiles g hg).wakeEpoch_lt
    have hW5 := UInt64.le_iff_toNat_le.mp (UInt64.le_trans hgate hW3)
    rw [replayMinQuiescent, hQdef, if_pos]
    refine ⟨?_, ?_⟩
    · intro h0
      rw [h0] at hW5
      exact hQ0 (Nat.le_zero.mp hW5)
    · rw [circularLess_iff hW4 hQlt]
      omega
  have hless : ¬ circularLess (logInfo f).wakeEpoch Q = true := by
    rw [circularLess_iff hc.wakeEpoch_lt hQlt, not_lt]
    exact UInt64.le_iff_toNat_le.mp hgate
  have hwake : (logInfo f).wakeEpoch ≠ 0 := by
    intro h0
    rw [h0] at hgate
    exact hQ (UInt64.le_antisymm hgate UInt64.zero_le)
  have hfind := minPost_find (f := f) (q := Q)
    ⟨_, (EpochLog.wakeEpoch_mem f).resolve_left hwake, hwake, hless⟩
  have hpost : (contribution files f).2 = minPostQuiescentWakeEpoch f Q := by
    change postWake _ _ _ = _
    rw [hrmq, postWake, if_pos ⟨hc.ne_nil, hQ, hless⟩]
  have hne : minPostQuiescentWakeEpoch f Q ≠ 0 := by
    have : Counts Q (minPostQuiescentWakeEpoch f Q) := by simpa using List.find?_some hfind
    exact this.1
  exact ⟨_, hfind, hB.least f hf _ (.wake (by rwa [hpost]) hpost.symm)⟩

/-- A wake record bounds the replay, when a quiescent log may have missed it. -/
lemma IsBound.le_wake (hB : IsBound files M) {f : Bytes} (hf : f ∈ files) (hc : CleanLog M f)
    {x : UInt64} (hx : x ∈ wakesOf 0 (infoRecords f))
    (hQ : minQuiescentLastEpoch (files.map logInfo) ≠ 0)
    (hgate : minQuiescentLastEpoch (files.map logInfo) ≤ (logInfo f).wakeEpoch)
    (hQx : minQuiescentLastEpoch (files.map logInfo) ≤ x) :
    M ≤ x ∧ x ∉ wakesOf 0 (front M (infoRecords f)) := by
  obtain ⟨v, hfind, hv⟩ := hB.le_first hfiles hf hQ hgate
  generalize minQuiescentLastEpoch (files.map logInfo) = Q at hQ hQx hgate hfind
  have hcounts : Counts Q x := by
    refine ⟨?_, ?_⟩
    · rintro rfl
      exact hQ (UInt64.le_antisymm hQx UInt64.zero_le)
    · have h1 := hc.bounded.wake hx
      have h2 := UInt64.le_iff_toNat_le.mp hQx
      rw [circularLess_iff h1 (by omega)]
      omega
  obtain ⟨h1, h2⟩ := le_of_counts hc.bounded (hB.lt hfiles) hc.ordered hfind
    (UInt64.le_iff_toNat_le.mp hv) hx hcounts
  exact ⟨UInt64.le_iff_toNat_le.mpr h1, h2⟩

end Logs

section Clean

variable {files : List Bytes} {M : UInt64} (hfiles : ∀ f ∈ files, CleanLog M f)
include hfiles

lemma again_logs : ∀ g ∈ files.map (cleanedLog M), EpochLog g := by
  intro g hg
  obtain ⟨f, hf, rfl⟩ := List.mem_map.mp hg
  exact (hfiles f hf).again

/-- In the second recovery no log contributes a wake epoch: the first one has cut them all. -/
lemma postWake_again (hB : IsBound files M) (hpos : M ≠ 0) {f : Bytes} (hf : f ∈ files) :
    (contribution (files.map (cleanedLog M)) (cleanedLog M f)).2 = 0 := by
  have hlogs : ∀ f ∈ files, EpochLog f := fun f hf => (hfiles f hf).toEpochLog
  have hM := hB.lt hlogs
  have hc := hfiles f hf
  by_contra hne
  have hlt := minQuiescent_lt (again_logs hfiles)
  obtain ⟨h1, h2, h3⟩ := postWake_spec hc.again hlt hne
  generalize hx : postWake (replayMinQuiescent ((files.map (cleanedLog M)).map logInfo))
    (cleanedLog M f) (logInfo (cleanedLog M f)) = x at h3
  have h4 := List.mem_of_find?_eq_some h3
  have h5 : Counts (replayMinQuiescent ((files.map (cleanedLog M)).map logInfo)) x := by
    simpa using List.find?_some h3
  rw [hc.infoRecords_cleanedLog] at h4
  have h6 := wakes_kept h4
  have hmem : x ∈ wakesOf 0 (infoRecords f) := by
    rw [← front_append_fromCut M (infoRecords f), wakesOf_append]
    exact List.mem_append_left _ h6
  -- the wake epoch counted in the first recovery already
  have hmin := minQuiescent_rewritten (fun f => logInfo f) (fun f => logInfo (cleanedLog M f)) files
    0 0 (fun g hg => (hfiles g hg).rewritten hM hpos fun hq hl =>
      hB.least g hg _ (.last hq hl rfl)) (by decide) (by decide) (Or.inl rfl)
  change minQuiescentLastEpoch _ = 0 ∨ minQuiescentLastEpoch _ ≠ 0 ∧
    minQuiescentLastEpoch _ ≤ minQuiescentLastEpoch _ at hmin
  have hq' : replayMinQuiescent ((files.map (cleanedLog M)).map logInfo)
      = minQuiescentLastEpoch (files.map fun f => logInfo (cleanedLog M f)) := by
    rw [List.map_map] at h1 ⊢
    rw [replayMinQuiescent] at h1 ⊢
    split at h1
    · next hcond =>
        rw [if_pos hcond]
        rfl
    · exact absurd rfl h1
  rw [hq'] at h1 h2 h5 hlt
  obtain ⟨hQ, hle⟩ := hmin.resolve_left h1
  have hgate := UInt64.le_trans hle (UInt64.le_trans h2 (hc.wakeEpoch_again hM))
  have hQx : minQuiescentLastEpoch (files.map fun f => logInfo (cleanedLog M f)) ≤ x := by
    have := h5.2
    rw [circularLess_iff (hc.bounded.wake hmem) hlt, not_lt] at this
    exact UInt64.le_iff_toNat_le.mpr this
  exact (hB.le_wake hlogs hf hc hmem hQ hgate (UInt64.le_trans hle hQx)).2 h6

/-- The last epoch of a log does not grow when the log is rewritten. -/
lemma lastEpoch_again_le (hM : M.toNat < 2 ^ 63) {f : Bytes} (hf : f ∈ files) :
    (logInfo (cleanedLog M f)).lastEpoch ≤ (logInfo f).lastEpoch := by
  have hc := hfiles f hf
  by_cases hcut : fromCut M (infoRecords f) = []
  · rcases hc.whole hcut with h1 | h1 <;> rw [h1] <;> exact UInt64.le_refl _
  · exact (hc.cut hM hcut).2.2.1

/-- Some log is cut at the bound, if that is not zero. -/
lemma exists_cut_at_bound (hB : IsBound files M) (hpos : M ≠ 0) :
    ∃ f ∈ files, (logInfo (cleanedLog M f)).quiescent = false ∧
      (logInfo (cleanedLog M f)).lastEpoch = M := by
  have hlogs : ∀ f ∈ files, EpochLog f := fun f hf => (hfiles f hf).toEpochLog
  have hM := hB.lt hlogs
  obtain ⟨f, hf, hmem⟩ := (hB.attained hlogs).resolve_left hpos
  have hc := hfiles f hf
  refine ⟨f, hf, ?_⟩
  -- the epoch record of the bound is at the cut or behind it
  have hcut : M ∈ epochsOf (fromCut M (infoRecords f)) := by
    rw [← front_append_fromCut M (infoRecords f), epochsOf_append, List.mem_append] at hmem
    refine hmem.resolve_left fun h => ?_
    have := lt_of_not_ends hM (hc.bounded.mono (epochsOf_sublist (List.takeWhile_sublist _)))
      not_ends_of_mem_front h
    omega
  obtain ⟨fr, post, hfr⟩ := List.exists_cons_of_ne_nil (show fromCut M (infoRecords f) ≠ [] by
    intro h0
    rw [h0] at hcut
    cases hcut)
  obtain ⟨h1, h2, h3, -, -⟩ := infoOf_kept_cut hc.bounded hM hfr hc.ordered
  have hO := hc.ordered
  rw [hfr, epochsOf_cons_epoch post (fromCut_ends hfr).1] at hcut hO
  rw [hc.logInfo_cleanedLog, h2]
  refine ⟨h1, UInt64.le_antisymm ?_ (UInt64.le_iff_toNat_le.mpr h3)⟩
  rcases List.mem_cons.mp hcut with h4 | h4
  · rw [← h4]
    exact UInt64.le_refl _
  · exact (List.pairwise_cons.mp hO).1 M h4

/-- The bound of the second recovery is the one of the first. -/
lemma IsBound.again (hB : IsBound files M) {M' : UInt64}
    (hB' : IsBound (files.map (cleanedLog M)) M') : M' = M := by
  have hlogs : ∀ f ∈ files, EpochLog f := fun f hf => (hfiles f hf).toEpochLog
  have hlogs' := again_logs hfiles
  have hM := hB.lt hlogs
  by_cases hpos : M = 0
  · -- the last epochs are all zero
    have hmax : ∀ f ∈ files, (logInfo f).lastEpoch = 0 := by
      intro f hf
      refine UInt64.le_antisymm (UInt64.le_trans ((maxLast_spec hlogs).2 f hf) ?_) UInt64.zero_le
      rcases hB.asked with h | ⟨g, hg, h⟩
      · rw [← h, hpos]
        exact UInt64.le_refl _
      · exact absurd hpos (asksFor_mem hlogs hg h).1
    have hmax' : ∀ f ∈ files, (logInfo (cleanedLog M f)).lastEpoch = 0 := fun f hf =>
      UInt64.le_antisymm (hmax f hf ▸ lastEpoch_again_le hfiles hM hf) UInt64.zero_le
    rcases hB'.asked with h | ⟨g, hg, h⟩
    · rcases (maxLast_spec hlogs').1 with h0 | ⟨g, hg, h0⟩
      · rw [h, h0, hpos]
      · obtain ⟨f, hf, rfl⟩ := List.mem_map.mp hg
        rw [h, h0, hmax' f hf, hpos]
    · obtain ⟨f, hf, rfl⟩ := List.mem_map.mp hg
      rcases h with ⟨-, hne, -⟩ | ⟨hne, -⟩
      · exact absurd (hmax' f hf) hne
      · have hc := hfiles f hf
        have hmem := contribution_wake hlogs' hg hne
        rw [hc.infoRecords_cleanedLog] at hmem
        have := front_wake_lt hc.bounded hM (wakes_kept hmem) hne
        rw [hpos] at this
        exact absurd this (Nat.not_lt_zero _)
  obtain ⟨f, hf, hq, hlast⟩ := exists_cut_at_bound hfiles hB hpos
  have hf' : cleanedLog M f ∈ files.map (cleanedLog M) := List.mem_map.mpr ⟨f, hf, rfl⟩
  refine UInt64.le_antisymm ?_ ?_
  · refine hB'.least _ hf' M (.last hq ?_ hlast.symm)
    change (logInfo (cleanedLog M f)).lastEpoch ≠ 0
    rw [hlast]
    exact hpos
  · rcases hB'.asked with h | ⟨g, hg, h⟩
    · rw [h]
      have := (maxLast_spec hlogs').2 _ hf'
      rwa [hlast] at this
    · obtain ⟨f, hf, rfl⟩ := List.mem_map.mp hg
      rcases h with ⟨hq, hne, rfl⟩ | ⟨hne, -⟩
      · exact (hfiles f hf).le_lastEpoch_again hM (fun h1 h2 => hB.least f hf _ (.last h1 h2 rfl))
          hq hne
      · exact absurd (postWake_again hfiles hB hpos hf) hne

end Clean

/-- **Recovering again changes nothing**: whenever a recovery without a checkpoint completes, the
next one from the files that it leaves computes the same bound, runs the same records of each log
and leaves the same files. -/
def RecoversAgain (files : List Bytes) : Prop :=
  ∀ junk junk' r, recover 0 0 junk files = some r → r.Completes →
    recover 0 0 junk' r.files = some r

/-- **Logs that are clean up to their cuts can be recovered again.** -/
theorem recoversAgain_of_clean {files : List Bytes}
    (hfiles : ∀ junk, ∀ f ∈ files, CleanLog (replayMaxEpoch 0 junk files) f) :
    RecoversAgain files ∧ ∀ junk, ∃ r, recover 0 0 junk files = some r := by
  have hne : ∀ f ∈ files, f ≠ [] := fun f hf => (hfiles (fun _ => false) f hf).ne_nil
  constructor
  · intro junk junk' r hr _
    rw [recover_eq junk hne] at hr
    obtain rfl := Option.some.inj hr
    have hclean := hfiles junk
    have hB := isBound (fun f hf => (hclean f hf).toEpochLog) junk
    generalize replayMaxEpoch 0 junk files = M at hclean hB
    have hM := hB.again hclean (isBound (again_logs hclean) junk')
    have hfs : Recovery.files ⟨M, files.map fun f =>
        (replays M 0 (extractRecords f), cleanedLog M f)⟩ = files.map (cleanedLog M) := by
      simp [Recovery.files]
    rw [hfs, recover_eq junk' (fun g hg => (again_logs hclean g hg).ne_nil), hM, List.map_map]
    congr 2
    refine List.map_congr_left ?_
    intro f hf
    rw [Function.comp_apply, extractRecords_cleanedLog, replays_kept, cleanedLog,
      extractRecords_cleanedLog, kept_kept, cleanedLog]
  · exact fun junk => ⟨_, recover_eq junk hne⟩

/-- A log in which `extract` stops too early: it finds only the first records of `info`, none of
which ends the replay up to epoch `M`, and what is kept of them has an epoch in use and does not
end in a quiesce record. -/
structure CutShort (M : UInt64) (f : Bytes) : Prop extends EpochLog f where
  short : extractRecords f <+: infoRecords f
  goes : ∀ fr ∈ extractRecords f, ¬ Ends M fr
  awake : (infoOf (kept M (extractRecords f))).quiescent = false
  begun : (infoOf (kept M (extractRecords f))).lastEpoch ≠ 0

namespace CutShort

variable {M : UInt64} {f : Bytes}

lemma cleanedLog_eq (h : CutShort M f) :
    infoRecords (cleanedLog M f) = kept M (extractRecords f) ∧
      logInfo (cleanedLog M f) = infoOf (kept M (extractRecords f)) := by
  have hacc : ∀ fr ∈ kept M (extractRecords f), IsFrame fr ∧ infoAccepts fr = true :=
    fun fr hfr => walk_accepted infoAccepts_local _ _ fr
      (h.short.subset ((kept_sublist M _).subset hfr))
  have := walk_flatten infoAccepts_local [] (fun h => absurd h.1.1 (by simp)) _
    (kept M (extractRecords f)).flatten.length hacc (length_le_flatten fun fr hfr =>
      (hacc fr hfr).1)
  rw [List.append_nil] at this
  exact ⟨this, logInfo_flatten hacc⟩

lemma lastEpoch_mem (h : CutShort M f) :
    (logInfo (cleanedLog M f)).lastEpoch ∈ epochsOf (kept M (extractRecords f)) := by
  have hne := h.begun
  rw [infoOf_lastEpoch] at hne
  rw [h.cleanedLog_eq.2, infoOf_lastEpoch]
  exact (lastOf_mem 0 _).resolve_left hne

lemma again (h : CutShort M f) : EpochLog (cleanedLog M f) where
  epoch := by
    rw [h.cleanedLog_eq.1]
    exact List.ne_nil_of_mem h.lastEpoch_mem
  bounded := by
    rw [h.cleanedLog_eq.1]
    exact h.bounded.mono (epochsOf_sublist ((kept_sublist M _).trans h.short.sublist))

/-- The log ends below the bound when it is rewritten. -/
lemma lastEpoch_lt_bound (h : CutShort M f) (hM : M.toNat < 2 ^ 63) :
    (logInfo (cleanedLog M f)).lastEpoch.toNat < M.toNat :=
  lt_of_not_ends hM (h.bounded.mono (epochsOf_sublist h.short.sublist)) h.goes
    ((epochsOf_sublist (kept_sublist M _)).subset h.lastEpoch_mem)

end CutShort

/-- **A log that is cut short makes the next recovery stop earlier**, whatever the recovery from
the clean logs beside it does. -/
theorem not_recoversAgain_of_cutShort {files : List Bytes} {junk : ℕ → Bool} {r : Recovery}
    (hr : recover 0 0 junk files = some r) (hcompletes : r.Completes)
    (hfiles : ∀ f ∈ files, CleanLog (replayMaxEpoch 0 junk files) f ∨
      CutShort (replayMaxEpoch 0 junk files) f)
    (hex : ∃ f ∈ files, CutShort (replayMaxEpoch 0 junk files) f) : ¬ RecoversAgain files := by
  intro hagain
  have hlogs : ∀ f ∈ files, EpochLog f :=
    fun f hf => (hfiles f hf).elim CleanLog.toEpochLog CutShort.toEpochLog
  have hsecond := hagain junk junk r hr hcompletes
  rw [recover_eq junk fun f hf => (hlogs f hf).ne_nil] at hr
  obtain rfl := Option.some.inj hr
  have hM := (isBound hlogs junk).lt hlogs
  generalize replayMaxEpoch 0 junk files = M at hfiles hex hM hsecond
  have hlogs' : ∀ g ∈ files.map (cleanedLog M), EpochLog g := by
    intro g hg
    obtain ⟨f, hf, rfl⟩ := List.mem_map.mp hg
    exact (hfiles f hf).elim CleanLog.again CutShort.again
  have hfs : Recovery.files ⟨M, files.map fun f =>
      (replays M 0 (extractRecords f), cleanedLog M f)⟩ = files.map (cleanedLog M) := by
    simp [Recovery.files]
  rw [hfs, recover_eq junk fun g hg => (hlogs' g hg).ne_nil] at hsecond
  have hbound := congrArg Recovery.maxEpoch (Option.some.inj hsecond)
  simp only at hbound
  -- the log that was cut short asks for less
  obtain ⟨f, hf, hcut⟩ := hex
  have hask := (isBound hlogs' junk).least (cleanedLog M f) (List.mem_map.mpr ⟨f, hf, rfl⟩) _
    (.last (by rw [contribution, hcut.cleanedLog_eq.2]; exact hcut.awake)
      (by rw [contribution, hcut.cleanedLog_eq.2]; exact hcut.begun) rfl)
  rw [hbound] at hask
  have h1 := UInt64.le_iff_toNat_le.mp hask
  have h2 := hcut.lastEpoch_lt_bound hM
  change M.toNat ≤ (logInfo (cleanedLog M f)).lastEpoch.toNat at h1
  omega

/-- Two logs as a server writes them, with an unknown command behind the cut of the second one.
One log has gone to sleep, and the other one has been written to since. -/
def sampleLogs : List Bytes :=
  [logrecEpochStore 5 ++ logrecKvStore logcmdReplace [107] [120] 2 0 ++
    logrecBaseStore logcmdQuiesce,
   logrecEpochStore 7 ++ logrecBaseStore logcmdWake ++ logrecKvStore logcmdReplace [108] [121] 4 0
     ++ logrecEpochStore 8 ++ logrecBaseStore 9 ++ logrecEpochStore 6]

/-- The wake record bounds the replay of the sample logs by its epoch, and what lies behind the
cut is never looked at again. -/
theorem recoversAgain_sampleLogs : RecoversAgain sampleLogs := by
  refine (recoversAgain_of_clean ?_).1
  intro junk
  have hbound : replayMaxEpoch 0 junk sampleLogs = 7 := by
    rw [replayMaxEpoch_eq junk (by decide)]
    decide
  rw [hbound]
  have hone : epochsOf (infoRecords (logrecEpochStore 5
      ++ logrecKvStore logcmdReplace [107] [120] 2 0 ++ logrecBaseStore logcmdQuiesce)) = [5] := by
    decide
  have htwo : epochsOf (infoRecords (logrecEpochStore 7 ++ logrecBaseStore logcmdWake
      ++ logrecKvStore logcmdReplace [108] [121] 4 0 ++ logrecEpochStore 8 ++ logrecBaseStore 9
      ++ logrecEpochStore 6)) = [7, 8] := by decide
  intro f hf
  rcases List.mem_cons.mp hf with rfl | hf
  · refine ⟨⟨by rw [hone]; decide, ?_⟩, by decide, by decide⟩
    rw [Bounded, hone]
    exact List.forall_mem_singleton.mpr (by decide)
  · obtain rfl := List.mem_singleton.mp hf
    refine ⟨⟨by rw [htwo]; decide, ?_⟩, by decide, by decide⟩
    rw [Bounded, htwo]
    exact List.forall_mem_cons.mpr ⟨by decide, List.forall_mem_singleton.mpr (by decide)⟩

/-- A log whose third record has a key length that only `extract` finds too large. -/
def longKeyLog : Bytes :=
  logrecEpochStore 5 ++ logrecKvStore logcmdReplace [107] [120] 2 0
    ++ (storeLE 4 logcmdReplace ++ storeLE 4 24 ++ storeLE 8 4 ++ storeLE 4 256 ++ storeLE 4 0)
    ++ logrecEpochStore 10

/-- The first recovery of this log completes, with the row of the first update; the second one
finds an earlier bound and runs nothing. -/
theorem not_recoversAgain_longKeyLog : ¬ RecoversAgain [longKeyLog] := by
  intro h
  have h1 : recover 0 0 (fun _ => false) [longKeyLog] = some ⟨10,
      [([⟨logcmdReplace, [107], [120], 2, 0, 5⟩],
        logrecEpochStore 5 ++ logrecKvStore logcmdReplace [107] [120] 2 0)]⟩ := by decide
  have h2 := h (fun _ => false) (fun _ => false) _ h1 ?_
  · revert h2
    decide
  · refine ⟨[(0, ⟨logcmdReplace, [107], [120], 2, 0, 5⟩)],
      fun k => if k = [107] then ⟨[], some ⟨2, [[120]]⟩⟩ else RowChain.absent, ?_, ?_, ?_⟩
    · refine ⟨by simp, ?_⟩
      intro i hi
      obtain rfl : i = 0 := by simpa using hi
      decide
    · rfl
    · intro k
      by_cases hk : k = [107]
      · simp only [if_pos hk]
      · simp only [if_neg hk]
        rfl

end MasstreeLHM
