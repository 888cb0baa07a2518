import Mathlib.Data.List.TakeWhile
import MasstreeLHM.Log.Frames

/-!
# Epochs of logs

The epochs of the epoch records of a log, and the epochs in which its wake records were written:
what `info` and `min_post_quiescent_wake_epoch` find of them, and what is left of them when the log
is rewritten.

`epochsOf`, `lastOf` and `wakesOf` are functions of a list of records, and `Ordered` says that the
epochs do not decrease.  `infoOf_spec` computes what `info` finds in ordered records;
`infoOf_lastEpoch` and `infoOf_wakeEpoch` say which of the epochs it finds in any order.
`minPost_find` does the same for the first wake epoch that counts.

A rewritten log is `kept`: the records up to the first epoch record that is not below the bound, and
that one.  `kept_cases` has the two ways in which this can go.  The records in front of the cut are
`front`, those from it on `fromCut`; `infoOf_kept_cut` and `infoOf_kept_whole` compare what `info`
finds in the log before and after, and **`kept_kept`** and `replays_kept` say that rewriting twice
is rewriting once.
-/

namespace MasstreeLHM

/-! ## Epochs and wake epochs of a list of records -/

/-- The epochs of the epoch records. -/
def epochsOf (fs : List Bytes) : List UInt64 :=
  (fs.filter (recCommand · == logcmdEpoch)).map recEpoch

/-- The epoch behind the last record. -/
def lastOf (e : UInt64) (fs : List Bytes) : UInt64 := fs.foldl epochAfter e

/-- The epochs in which wake records were written. -/
def wakesOf : UInt64 → List Bytes → List UInt64
  | _, [] => []
  | e, fr :: fs => (if recCommand fr = logcmdWake then [e] else []) ++ wakesOf (epochAfter e fr) fs

/-- Epochs do not decrease, and none has come near to wrapping. -/
structure Ordered (fs : List Bytes) : Prop where
  sorted : (epochsOf fs).Pairwise (· ≤ ·)
  bounded : ∀ e ∈ epochsOf fs, e.toNat < 2 ^ 63

lemma epochsOf_append (fs gs : List Bytes) : epochsOf (fs ++ gs) = epochsOf fs ++ epochsOf gs := by
  simp [epochsOf]

lemma epochsOf_cons_epoch {fr : Bytes} (fs : List Bytes) (h : recCommand fr = logcmdEpoch) :
    epochsOf (fr :: fs) = recEpoch fr :: epochsOf fs := by
  simp [epochsOf, h]

lemma epochsOf_cons_other {fr : Bytes} (fs : List Bytes) (h : recCommand fr ≠ logcmdEpoch) :
    epochsOf (fr :: fs) = epochsOf fs := by
  simp [epochsOf, h]

lemma mem_epochsOf {fs : List Bytes} {e : UInt64} :
    e ∈ epochsOf fs ↔ ∃ fr ∈ fs, recCommand fr = logcmdEpoch ∧ recEpoch fr = e := by
  simp only [epochsOf, List.mem_map, List.mem_filter, beq_iff_eq, and_assoc]

lemma Ordered.tail {fr : Bytes} {fs : List Bytes} (h : Ordered (fr :: fs)) : Ordered fs := by
  have hsub : List.Sublist (epochsOf fs) (epochsOf (fr :: fs)) :=
    ((List.sublist_cons_self fr fs).filter _).map _
  exact ⟨h.sorted.sublist hsub, fun e he => h.bounded e (hsub.subset he)⟩

lemma Ordered.le_of_cons {fr : Bytes} {fs : List Bytes} (h : Ordered (fr :: fs))
    (he : recCommand fr = logcmdEpoch) : ∀ e ∈ epochsOf fs, recEpoch fr ≤ e := by
  have hs := h.sorted
  rw [epochsOf_cons_epoch fs he] at hs
  exact (List.pairwise_cons.mp hs).1

lemma lastOf_append (e : UInt64) (fs gs : List Bytes) :
    lastOf e (fs ++ gs) = lastOf (lastOf e fs) gs := List.foldl_append

lemma lastOf_mem : ∀ (e : UInt64) (fs : List Bytes), lastOf e fs = e ∨ lastOf e fs ∈ epochsOf fs
  | e, [] => Or.inl rfl
  | e, fr :: fs => by
      have ih := lastOf_mem (epochAfter e fr) fs
      change lastOf (epochAfter e fr) fs = e ∨ lastOf (epochAfter e fr) fs ∈ _
      by_cases h : recCommand fr = logcmdEpoch
      · rw [epochsOf_cons_epoch fs h]
        rw [epochAfter, if_pos h] at ih ⊢
        rcases ih with ih | ih
        · exact Or.inr (by rw [ih]; exact List.mem_cons_self)
        · exact Or.inr (List.mem_cons_of_mem _ ih)
      · rw [epochsOf_cons_other fs h]
        rw [epochAfter, if_neg h] at ih ⊢
        exact ih

/-- If there is an epoch record, the last epoch is one of the epochs. -/
lemma lastOf_mem_of_ne : ∀ {e : UInt64} {fs : List Bytes}, epochsOf fs ≠ [] →
    lastOf e fs ∈ epochsOf fs
  | e, [], h => absurd rfl h
  | e, fr :: fs, h => by
      by_cases hc : recCommand fr = logcmdEpoch
      · rw [epochsOf_cons_epoch fs hc]
        change lastOf (epochAfter e fr) fs ∈ _
        rw [epochAfter, if_pos hc]
        rcases lastOf_mem (recEpoch fr) fs with h1 | h1
        · rw [h1]
          exact List.mem_cons_self
        · exact List.mem_cons_of_mem _ h1
      · rw [epochsOf_cons_other fs hc] at h ⊢
        exact lastOf_mem_of_ne h

/-- In ordered records the last epoch is the greatest. -/
lemma le_lastOf : ∀ (e : UInt64) (fs : List Bytes), Ordered fs → (∀ x ∈ epochsOf fs, e ≤ x) →
    e ≤ lastOf e fs ∧ ∀ x ∈ epochsOf fs, x ≤ lastOf e fs
  | e, [], _, _ => ⟨UInt64.le_refl _, by simp [epochsOf]⟩
  | e, fr :: fs, hO, he => by
      change e ≤ lastOf (epochAfter e fr) fs ∧ ∀ x ∈ _, x ≤ lastOf (epochAfter e fr) fs
      by_cases h : recCommand fr = logcmdEpoch
      · obtain ⟨h1, h2⟩ := le_lastOf (recEpoch fr) fs hO.tail (hO.le_of_cons h)
        have h3 := he (recEpoch fr) (by rw [epochsOf_cons_epoch fs h]; exact List.mem_cons_self)
        rw [epochAfter, if_pos h, epochsOf_cons_epoch fs h]
        refine ⟨UInt64.le_trans h3 h1, ?_⟩
        intro x hx
        rcases List.mem_cons.mp hx with rfl | hx
        · exact h1
        · exact h2 x hx
      · rw [epochsOf_cons_other fs h] at he ⊢
        rw [epochAfter, if_neg h]
        exact le_lastOf e fs hO.tail he

/-- A wake record is written in the starting epoch or in one of the epochs. -/
lemma mem_wakesOf : ∀ {e w : UInt64} {fs : List Bytes}, w ∈ wakesOf e fs →
    w = e ∨ w ∈ epochsOf fs
  | e, w, [], h => by cases h
  | e, w, fr :: fs, h => by
      rw [wakesOf, List.mem_append] at h
      rcases h with h | h
      · split at h
        · exact Or.inl (by simpa using h)
        · cases h
      · rcases mem_wakesOf h with h1 | h1
        · by_cases he : recCommand fr = logcmdEpoch
          · rw [epochAfter, if_pos he] at h1
            refine Or.inr ?_
            rw [epochsOf_cons_epoch fs he, h1]
            exact List.mem_cons_self
          · rw [epochAfter, if_neg he] at h1
            exact Or.inl h1
        · refine Or.inr ?_
          by_cases he : recCommand fr = logcmdEpoch
          · rw [epochsOf_cons_epoch fs he]
            exact List.mem_cons_of_mem _ h1
          · rw [epochsOf_cons_other fs he]
            exact h1

lemma wakesOf_append : ∀ (e : UInt64) (fs gs : List Bytes),
    wakesOf e (fs ++ gs) = wakesOf e fs ++ wakesOf (lastOf e fs) gs
  | e, [], gs => rfl
  | e, fr :: fs, gs => by
      rw [List.cons_append, wakesOf, wakesOf, wakesOf_append (epochAfter e fr) fs gs,
        List.append_assoc]
      rfl

/-! ## What `info` finds -/

/-- The epochs that `info` finds in ordered records. -/
lemma foldl_infoStep : ∀ (fs : List Bytes) (x : InfoType), Ordered fs →
    (∀ e ∈ epochsOf fs, x.lastEpoch ≤ e) → x.lastEpoch.toNat < 2 ^ 63 →
    x.wakeEpoch ≤ x.lastEpoch →
    (fs.foldl infoStep x).lastEpoch = lastOf x.lastEpoch fs ∧
    ((fs.foldl infoStep x).wakeEpoch = x.wakeEpoch ∨
      (fs.foldl infoStep x).wakeEpoch ∈ wakesOf x.lastEpoch fs) ∧
    (∀ w ∈ wakesOf x.lastEpoch fs, w ≤ (fs.foldl infoStep x).wakeEpoch) ∧
    x.wakeEpoch ≤ (fs.foldl infoStep x).wakeEpoch
  | [], x, _, _, _, _ => ⟨rfl, Or.inl rfl, by simp [wakesOf], UInt64.le_refl _⟩
  | fr :: fs, x, hO, he, hb, hw => by
      have hle : x.lastEpoch ≤ epochAfter x.lastEpoch fr := by
        rw [epochAfter]
        split
        · next h => exact he _ (by rw [epochsOf_cons_epoch fs h]; exact List.mem_cons_self)
        · exact UInt64.le_refl _
      have hb' : (epochAfter x.lastEpoch fr).toNat < 2 ^ 63 := by
        rw [epochAfter]
        split
        · next h => exact hO.bounded _ (by rw [epochsOf_cons_epoch fs h]; exact List.mem_cons_self)
        · exact hb
      have hrest : ∀ e ∈ epochsOf fs, epochAfter x.lastEpoch fr ≤ e := by
        intro e hx
        rw [epochAfter]
        split
        · next h => exact hO.le_of_cons h e hx
        · next h => exact he e (by rw [epochsOf_cons_other fs h]; exact hx)
      -- the record that is seen now
      have hstep : (infoStep x fr).lastEpoch = epochAfter x.lastEpoch fr ∧
          (infoStep x fr).wakeEpoch
            = (if recCommand fr = logcmdWake then x.lastEpoch else x.wakeEpoch) := by
        rw [infoStep, epochAfter]
        by_cases h : recCommand fr = logcmdEpoch
        · have hne : recCommand fr ≠ logcmdWake := by rw [h]; decide
          have hepoch : epochAfter x.lastEpoch fr = recEpoch fr := if_pos h
          have hwrap : ¬ (x.wakeEpoch ≠ 0 ∧ circularLess (recEpoch fr) x.wakeEpoch = true) := by
            rintro ⟨-, h1⟩
            rw [hepoch] at hle hb'
            have h2 := UInt64.le_iff_toNat_le.mp hw
            have h3 := UInt64.le_iff_toNat_le.mp hle
            rw [circularLess_iff hb' (by omega)] at h1
            omega
          simp only [if_pos h, if_neg hne, InfoType.seeEpoch, if_neg hwrap, and_self]
        · simp only [if_neg h]
          by_cases h1 : recCommand fr = logcmdWake
          · simp only [if_pos h1, InfoType.seeWake, and_self]
          · simp only [if_neg h1, and_self]
      have hw' : (infoStep x fr).wakeEpoch ≤ (infoStep x fr).lastEpoch := by
        rw [hstep.1, hstep.2]
        split
        · exact hle
        · exact UInt64.le_trans hw hle
      obtain ⟨h1, h2, h3, h4⟩ := foldl_infoStep fs (infoStep x fr) hO.tail
        (by rw [hstep.1]; exact hrest) (by rw [hstep.1]; exact hb') hw'
      rw [hstep.1] at h1 h2 h3
      rw [hstep.2] at h2 h4
      rw [List.foldl_cons]
      refine ⟨h1, ?_, ?_, ?_⟩
      · rw [wakesOf]
        split
        · next hc =>
            rw [if_pos hc] at h2
            rcases h2 with h2 | h2
            · exact Or.inr (by rw [h2]; exact List.mem_cons_self)
            · exact Or.inr (List.mem_cons_of_mem _ h2)
        · next hc =>
            rw [if_neg hc] at h2
            exact h2
      · intro w hmem
        rw [wakesOf, List.mem_append] at hmem
        rcases hmem with hmem | hmem
        · split at hmem
          · next hc =>
              rw [if_pos hc] at h4
              rw [List.mem_singleton.mp hmem]
              exact h4
          · cases hmem
        · exact h3 w hmem
      · split at h4
        · exact UInt64.le_trans hw h4
        · exact h4

lemma infoOf_spec {fs : List Bytes} (hO : Ordered fs) :
    (infoOf fs).lastEpoch = lastOf 0 fs ∧
    ((infoOf fs).wakeEpoch = 0 ∨ (infoOf fs).wakeEpoch ∈ wakesOf 0 fs) ∧
    ∀ w ∈ wakesOf 0 fs, w ≤ (infoOf fs).wakeEpoch := by
  obtain ⟨h1, h2, h3, -⟩ := foldl_infoStep fs ⟨0, 0, 0, true⟩ hO (fun e _ => UInt64.zero_le)
    (by decide) (UInt64.le_refl _)
  exact ⟨h1, h2, h3⟩

/-- The last epoch and the wake epoch that `info` finds, in whatever order the epochs are. -/
lemma foldl_infoStep_mem : ∀ (fs : List Bytes) (x : InfoType),
    (fs.foldl infoStep x).lastEpoch = lastOf x.lastEpoch fs ∧
      ((fs.foldl infoStep x).wakeEpoch = 0 ∨ (fs.foldl infoStep x).wakeEpoch = x.wakeEpoch ∨
        (fs.foldl infoStep x).wakeEpoch ∈ wakesOf x.lastEpoch fs)
  | [], x => ⟨rfl, Or.inr (Or.inl rfl)⟩
  | fr :: fs, x => by
      have hlast : (infoStep x fr).lastEpoch = epochAfter x.lastEpoch fr := by
        rw [infoStep, epochAfter]
        split
        · rfl
        · split <;> rfl
      have hwake : (infoStep x fr).wakeEpoch = 0 ∨ (infoStep x fr).wakeEpoch = x.wakeEpoch ∨
          recCommand fr = logcmdWake ∧ (infoStep x fr).wakeEpoch = x.lastEpoch := by
        rw [infoStep]
        split
        · rw [InfoType.seeEpoch]
          simp only
          split
          · exact Or.inl rfl
          · exact Or.inr (Or.inl rfl)
        · split
          · next h => exact Or.inr (Or.inr ⟨h, rfl⟩)
          · exact Or.inr (Or.inl rfl)
      obtain ⟨h1, h2⟩ := foldl_infoStep_mem fs (infoStep x fr)
      rw [hlast] at h1 h2
      rw [List.foldl_cons, wakesOf]
      refine ⟨h1, ?_⟩
      rcases h2 with h2 | h2 | h2
      · exact Or.inl h2
      · rw [h2]
        rcases hwake with h3 | h3 | ⟨h3, h4⟩
        · exact Or.inl h3
        · exact Or.inr (Or.inl h3)
        · rw [if_pos h3, h4]
          exact Or.inr (Or.inr List.mem_cons_self)
      · exact Or.inr (Or.inr (List.mem_append_right _ h2))

lemma infoOf_lastEpoch (fs : List Bytes) : (infoOf fs).lastEpoch = lastOf 0 fs :=
  (foldl_infoStep_mem fs ⟨0, 0, 0, true⟩).1

lemma infoOf_wakeEpoch (fs : List Bytes) :
    (infoOf fs).wakeEpoch = 0 ∨ (infoOf fs).wakeEpoch ∈ wakesOf 0 fs := by
  rcases (foldl_infoStep_mem fs ⟨0, 0, 0, true⟩).2 with h | h | h
  · exact Or.inl h
  · exact Or.inl h
  · exact Or.inr h

/-- Records in front of the first epoch record leave no trace, if there are any behind them. -/
lemma infoOf_skip {skip fs : List Bytes} (hskip : ∀ g ∈ skip, recCommand g ≠ logcmdEpoch)
    (hne : fs ≠ []) : infoOf (skip ++ fs) = infoOf fs := by
  have hzero : ∀ (gs : List Bytes) (b : Bool), (∀ g ∈ gs, recCommand g ≠ logcmdEpoch) →
      ∃ b', gs.foldl infoStep ⟨0, 0, 0, b⟩ = ⟨0, 0, 0, b'⟩ := by
    intro gs
    induction gs with
    | nil => exact fun b _ => ⟨b, rfl⟩
    | cons g gs ih =>
        intro b hgs
        have hstep : infoStep ⟨0, 0, 0, b⟩ g = ⟨0, 0, 0, recCommand g == logcmdQuiesce⟩ := by
          rw [infoStep, if_neg (hgs g List.mem_cons_self)]
          split <;> rfl
        rw [List.foldl_cons, hstep]
        exact ih _ fun x hx => hgs x (List.mem_cons_of_mem _ hx)
  obtain ⟨b, hb⟩ := hzero skip true hskip
  obtain ⟨fr, rest, rfl⟩ := List.exists_cons_of_ne_nil hne
  rw [infoOf, infoOf, List.foldl_append, hb]
  rfl

/-- The log is quiescent if its last record says so. -/
lemma infoOf_quiescent_concat (fs : List Bytes) (fr : Bytes) :
    (infoOf (fs ++ [fr])).quiescent = (recCommand fr == logcmdQuiesce) := by
  rw [infoOf, List.foldl_append, List.foldl_cons, List.foldl_nil, infoStep]
  split
  · rfl
  · split <;> rfl

/-! ## The wake epoch after a quiescent one -/

/-- The wake epoch counts for a log that went quiescent in epoch `q`. -/
def Counts (q w : UInt64) : Prop := w ≠ 0 ∧ ¬ circularLess w q

instance (q w : UInt64) : Decidable (Counts q w) := inferInstanceAs (Decidable (_ ∧ _))

/-- If one of the records has a wake epoch that counts, the first one is found. -/
lemma minPostLoop_eq (q : UInt64) (tail : Bytes) : ∀ (fs : List Bytes) (e : UInt64) (fuel : ℕ),
    (∀ fr ∈ fs, IsFrame fr ∧ infoAccepts fr = true) → fs.length ≤ fuel →
    (∃ w ∈ wakesOf e fs, Counts q w) →
    minPostLoop q fuel (fs.flatten ++ tail) e ∈ (wakesOf e fs).find? (fun w => Counts q w)
  | [], e, _, _, _, h => by
      obtain ⟨w, hw, -⟩ := h
      cases hw
  | fr :: fs, e, 0, _, hfuel, _ => by simp at hfuel
  | fr :: fs, e, fuel + 1, hall, hfuel, hex => by
      obtain ⟨hfr, hacc⟩ := hall fr List.mem_cons_self
      have hsize : recSize (fr ++ (fs.flatten ++ tail)) = fr.length := by
        rw [recSize_append _ hfr.le, hfr.size]
      have hcmd := recCommand_append (fs.flatten ++ tail) hfr.le
      have ih := minPostLoop_eq q tail fs (epochAfter e fr) fuel
        (fun g hg => hall g (List.mem_cons_of_mem _ hg)) (by simpa using hfuel)
      rw [List.flatten_cons, List.append_assoc, minPostLoop,
        if_neg (not_not.mpr (hfr.framed _)), hsize, hcmd]
      simp only [List.drop_left]
      rw [wakesOf] at hex ⊢
      by_cases he : recCommand fr = logcmdEpoch
      · have hle : 16 ≤ fr.length := by
          rw [infoAccepts, if_pos he, hfr.size] at hacc
          exact of_decide_eq_true hacc
        have hne : recCommand fr ≠ logcmdWake := by rw [he]; decide
        rw [if_neg hne, List.nil_append] at hex ⊢
        rw [epochAfter, if_pos he] at ih hex ⊢
        rw [if_pos he, if_neg (by omega), recEpoch_append _ hle]
        exact ih hex
      rw [if_neg he]
      rw [epochAfter, if_neg he] at ih hex ⊢
      by_cases hw : recCommand fr = logcmdWake
      · rw [if_pos hw, List.singleton_append] at hex ⊢
        by_cases hc : Counts q e
        · rw [if_pos ⟨hw, hc⟩, List.find?_cons_of_pos (by simpa using hc)]
          rfl
        · rw [if_neg fun h => hc h.2, List.find?_cons_of_neg (by simpa using hc)]
          refine ih ?_
          obtain ⟨w, hmem, hcw⟩ := hex
          rcases List.mem_cons.mp hmem with rfl | hmem
          · exact absurd hcw hc
          · exact ⟨w, hmem, hcw⟩
      · rw [if_neg hw, List.nil_append] at hex ⊢
        rw [if_neg fun h => hw h.1]
        exact ih hex

/-- The first wake epoch that counts, in a log that `info` has walked over. -/
lemma minPost_find {f : Bytes} {q : UInt64} (hex : ∃ w ∈ wakesOf 0 (infoRecords f), Counts q w) :
    (wakesOf 0 (infoRecords f)).find? (fun w => Counts q w)
      = some (minPostQuiescentWakeEpoch f q) := by
  obtain ⟨tail, ht, -⟩ := walk_split infoAccepts f.length f le_rfl
  have hacc := walk_accepted infoAccepts_local f.length f
  have hlen : (infoRecords f).length ≤ f.length := by
    have h1 := length_le_flatten fun fr hfr => (hacc fr hfr).1
    have h2 := congrArg List.length ht
    rw [List.length_append] at h2
    change (infoRecords f).length ≤ (infoRecords f).flatten.length at h1
    change f.length = (infoRecords f).flatten.length + _ at h2
    omega
  have hfind := minPostLoop_eq q tail (infoRecords f) 0 f.length hacc hlen hex
  have heq : (infoRecords f).flatten ++ tail = f := ht.symm
  rw [heq] at hfind
  exact hfind

/-! ## What is kept of a log -/

/-- The replay ends at a record, or goes to the end. -/
lemma keepTo_cases (M : UInt64) : ∀ fs : List Bytes,
    (∃ pre fr post, fs = pre ++ fr :: post ∧ Ends M fr ∧ (∀ g ∈ pre, ¬ Ends M g) ∧
      keepTo M fs = pre ++ [fr]) ∨ (∀ g ∈ fs, ¬ Ends M g) ∧ keepTo M fs = fs
  | [] => Or.inr ⟨by simp, rfl⟩
  | fr :: fs => by
      by_cases h : Ends M fr
      · exact Or.inl ⟨[], fr, fs, rfl, h, by simp, by rw [keepTo, if_pos h]; rfl⟩
      · rw [keepTo, if_neg h]
        rcases keepTo_cases M fs with ⟨pre, g, post, h1, h2, h3, h4⟩ | ⟨h1, h2⟩
        · refine Or.inl ⟨fr :: pre, g, post, by rw [h1]; rfl, h2, ?_, by rw [h4]; rfl⟩
          intro x hx
          rcases List.mem_cons.mp hx with rfl | hx
          · exact h
          · exact h3 x hx
        · refine Or.inr ⟨?_, by rw [h2]⟩
          intro x hx
          rcases List.mem_cons.mp hx with rfl | hx
          · exact h
          · exact h1 x hx

lemma fromEpoch_split (fs : List Bytes) : ∃ pre, fs = pre ++ fromEpoch fs ∧
    (∀ g ∈ pre, recCommand g ≠ logcmdEpoch) ∧
    ∀ fr rest, fromEpoch fs = fr :: rest → recCommand fr = logcmdEpoch := by
  refine ⟨fs.takeWhile (recCommand · != logcmdEpoch), List.takeWhile_append_dropWhile.symm, ?_, ?_⟩
  · intro g hg
    simpa using List.mem_takeWhile_imp hg
  · intro fr rest h
    have := List.head?_dropWhile_not (recCommand · != logcmdEpoch) fs
    rw [fromEpoch] at h
    rw [h] at this
    simpa using this

lemma epochsOf_nil_of {fs : List Bytes} (h : ∀ g ∈ fs, recCommand g ≠ logcmdEpoch) :
    epochsOf fs = [] := by
  rw [List.eq_nil_iff_forall_not_mem]
  intro e he
  obtain ⟨fr, hfr, hc, -⟩ := mem_epochsOf.mp he
  exact h fr hfr hc

lemma lastOf_of_no_epoch {e : UInt64} {fs : List Bytes}
    (h : ∀ g ∈ fs, recCommand g ≠ logcmdEpoch) : lastOf e fs = e := by
  rcases lastOf_mem e fs with h1 | h1
  · exact h1
  · rw [epochsOf_nil_of h] at h1
    cases h1

lemma wakesOf_of_no_wake {e : UInt64} {fr : Bytes} (h : recCommand fr ≠ logcmdWake) :
    wakesOf e [fr] = [] := by
  rw [wakesOf, if_neg h]
  rfl

/-- A record that does not end the replay has an epoch below the bound. -/
lemma lt_of_not_ends {M e : UInt64} {fs : List Bytes} (hM : M.toNat < 2 ^ 63)
    (hb : ∀ e ∈ epochsOf fs, e.toNat < 2 ^ 63) (hfs : ∀ g ∈ fs, ¬ Ends M g)
    (he : e ∈ epochsOf fs) : e.toNat < M.toNat := by
  obtain ⟨fr, hfr, hc, rfl⟩ := mem_epochsOf.mp he
  have hless : circularLess (recEpoch fr) M = true := by
    by_contra h
    exact hfs fr hfr ⟨hc, h⟩
  exact (circularLess_iff (hb _ he) hM).mp hless

lemma le_of_ends {M : UInt64} {fr : Bytes} (hM : M.toNat < 2 ^ 63)
    (hb : (recEpoch fr).toNat < 2 ^ 63) (h : Ends M fr) : M.toNat ≤ (recEpoch fr).toNat := by
  have h1 := h.2
  rw [circularLess_iff hb hM] at h1
  omega

/-- What is kept of the records of a log: either they are cut behind an epoch record that is not
below the bound, or all epochs are below the bound and only what is in front of the first epoch
record is lost. -/
lemma kept_cases (M : UInt64) (fs : List Bytes) :
    (∃ skip pre fr post, fs = skip ++ pre ++ fr :: post ∧ kept M fs = pre ++ [fr] ∧ Ends M fr ∧
      (∀ g ∈ skip, recCommand g ≠ logcmdEpoch) ∧ ∀ g ∈ pre, ¬ Ends M g) ∨
    ∃ skip, fs = skip ++ kept M fs ∧ (∀ g ∈ skip, recCommand g ≠ logcmdEpoch) ∧
      ∀ g ∈ fs, ¬ Ends M g := by
  obtain ⟨skip, hskip, hno, -⟩ := fromEpoch_split fs
  rcases keepTo_cases M (fromEpoch fs) with ⟨pre, fr, post, h1, h2, h3, h4⟩ | ⟨h1, h2⟩
  · refine Or.inl ⟨skip, pre, fr, post, ?_, h4, h2, hno, h3⟩
    rw [List.append_assoc, ← h1]
    exact hskip
  · refine Or.inr ⟨skip, ?_, hno, ?_⟩
    · rw [kept, h2]
      exact hskip
    · intro g hg
      rw [hskip] at hg
      rcases List.mem_append.mp hg with hg | hg
      · exact fun h => hno g hg h.1
      · exact h1 g hg

lemma Ordered.of_epochs {fs gs : List Bytes} (h : Ordered fs)
    (hsub : (epochsOf gs).Sublist (epochsOf fs)) : Ordered gs :=
  ⟨h.sorted.sublist hsub, fun e he => h.bounded e (hsub.subset he)⟩

lemma kept_sublist (M : UInt64) (fs : List Bytes) : (kept M fs).Sublist fs := by
  rcases kept_cases M fs with ⟨skip, pre, fr, post, h1, h2, -⟩ | ⟨skip, h1, -⟩
  · rw [h2, h1, List.append_assoc]
    refine (List.Sublist.append_left ?_ pre).trans (List.sublist_append_right skip _)
    simp
  · conv_rhs => rw [h1]
    exact List.sublist_append_right skip _

lemma epochsOf_sublist {fs gs : List Bytes} (h : gs.Sublist fs) :
    (epochsOf gs).Sublist (epochsOf fs) := (h.filter _).map _

/-- The records in front of the one that ends the replay. -/
def front (M : UInt64) (fs : List Bytes) : List Bytes := fs.takeWhile fun fr => ¬ Ends M fr

/-- The records from the one on that ends the replay. -/
def fromCut (M : UInt64) (fs : List Bytes) : List Bytes := fs.dropWhile fun fr => ¬ Ends M fr

lemma front_append_fromCut (M : UInt64) (fs : List Bytes) : front M fs ++ fromCut M fs = fs :=
  List.takeWhile_append_dropWhile

lemma not_ends_of_mem_front {M : UInt64} {fs : List Bytes} : ∀ g ∈ front M fs, ¬ Ends M g := by
  intro g hg
  simpa using List.mem_takeWhile_imp hg

lemma fromCut_append {M : UInt64} {fs gs : List Bytes} (h : ∀ g ∈ fs, ¬ Ends M g) :
    fromCut M (fs ++ gs) = fromCut M gs :=
  List.dropWhile_append_of_pos fun g hg => by simpa using h g hg

lemma fromCut_cons {M : UInt64} {fr : Bytes} (fs : List Bytes) (h : Ends M fr) :
    fromCut M (fr :: fs) = fr :: fs := List.dropWhile_cons_of_neg (by simpa using h)

lemma fromCut_eq_nil {M : UInt64} {fs : List Bytes} (h : ∀ g ∈ fs, ¬ Ends M g) :
    fromCut M fs = [] := List.dropWhile_eq_nil_iff.mpr fun g hg => by simpa using h g hg

/-- The record that ends the replay, if there is one. -/
lemma fromCut_ends {M : UInt64} {fs post : List Bytes} {fr : Bytes}
    (h : fromCut M fs = fr :: post) : Ends M fr := by
  have := List.head?_dropWhile_not (fun fr => decide ¬ Ends M fr) fs
  rw [fromCut] at h
  rw [h] at this
  simpa using this

/-- No epoch of a list of records has come near to wrapping. -/
def Bounded (fs : List Bytes) : Prop := ∀ e ∈ epochsOf fs, e.toNat < 2 ^ 63

lemma Bounded.mono {fs gs : List Bytes} (h : Bounded fs)
    (hsub : (epochsOf gs).Sublist (epochsOf fs)) : Bounded gs := fun e he => h e (hsub.subset he)

lemma Bounded.wake {fs : List Bytes} (h : Bounded fs) {w : UInt64} (hw : w ∈ wakesOf 0 fs) :
    w.toNat < 2 ^ 63 := by
  rcases mem_wakesOf hw with rfl | hw
  · decide
  · exact h w hw

/-- Wake records in front of the cut were written below the bound. -/
lemma front_wake_lt {M : UInt64} {fs : List Bytes} (hb : Bounded fs) (hM : M.toNat < 2 ^ 63)
    {w : UInt64} (hw : w ∈ wakesOf 0 (front M fs)) (hne : w ≠ 0) : w.toNat < M.toNat := by
  refine lt_of_not_ends hM ?_ not_ends_of_mem_front ((mem_wakesOf hw).resolve_left hne)
  exact hb.mono (epochsOf_sublist (List.takeWhile_sublist _))

/-- Wake records that are kept are in front of the cut. -/
lemma wakes_kept {M : UInt64} {fs : List Bytes} {w : UInt64} (hw : w ∈ wakesOf 0 (kept M fs)) :
    w ∈ wakesOf 0 (front M fs) := by
  rcases kept_cases M fs with ⟨skip, pre, fr, post, h1, h2, h3, h4, h5⟩ | ⟨skip, h1, h2, h3⟩
  · have hnw : recCommand fr ≠ logcmdWake := by rw [h3.1]; decide
    have hfront : front M fs = skip ++ pre := by
      rw [h1, front, List.takeWhile_append_of_pos, List.takeWhile_cons_of_neg (by simpa using h3),
        List.append_nil]
      intro g hg
      rcases List.mem_append.mp hg with hg | hg
      · simpa using fun h : Ends M g => h4 g hg h.1
      · simpa using h5 g hg
    rw [h2, wakesOf_append, wakesOf_of_no_wake hnw, List.append_nil] at hw
    rw [hfront, wakesOf_append, lastOf_of_no_epoch h4]
    exact List.mem_append_right _ hw
  · have hfront : front M fs = fs :=
      List.takeWhile_eq_self_iff.mpr fun g hg => by simpa using h3 g hg
    rw [hfront, h1, wakesOf_append, lastOf_of_no_epoch h2]
    exact List.mem_append_right _ hw

/-- If the first wake epoch that counts is not below the bound, none of those in front of the cut
counts, and those behind it are not below the bound. -/
lemma le_of_counts {M q v w : UInt64} {fs : List Bytes} (hb : Bounded fs) (hM : M.toNat < 2 ^ 63)
    (hO : (epochsOf (fromCut M fs)).Pairwise (· ≤ ·))
    (hfind : (wakesOf 0 fs).find? (fun w => Counts q w) = some v) (hv : M.toNat ≤ v.toNat)
    (hw : w ∈ wakesOf 0 fs) (hcount : Counts q w) :
    M.toNat ≤ w.toNat ∧ w ∉ wakesOf 0 (front M fs) := by
  have hsplit : wakesOf 0 fs
      = wakesOf 0 (front M fs) ++ wakesOf (lastOf 0 (front M fs)) (fromCut M fs) := by
    rw [← wakesOf_append, front_append_fromCut]
  have hnone : ∀ x ∈ wakesOf 0 (front M fs), ¬ Counts q x := by
    intro x hx hc
    rw [hsplit, List.find?_append] at hfind
    obtain ⟨y, hy⟩ : ∃ y, (wakesOf 0 (front M fs)).find? (fun w => Counts q w) = some y :=
      Option.isSome_iff_exists.mp (List.find?_isSome.mpr ⟨x, hx, decide_eq_true hc⟩)
    rw [hy, Option.some_or] at hfind
    obtain rfl := Option.some.inj hfind
    have hy1 := List.mem_of_find?_eq_some hy
    have hy2 : Counts q y := by simpa using List.find?_some hy
    have := front_wake_lt hb hM hy1 hy2.1
    omega
  refine ⟨?_, fun h => hnone w h hcount⟩
  rw [hsplit] at hw
  have hw := (List.mem_append.mp hw).resolve_left fun h => hnone w h hcount
  cases hcut : fromCut M fs with
  | nil => rw [hcut] at hw; cases hw
  | cons fr post =>
      have hends := fromCut_ends hcut
      have hfr : recEpoch fr ∈ epochsOf fs := by
        rw [← front_append_fromCut M fs, hcut]
        exact mem_epochsOf.mpr ⟨fr, by simp, hends.1, rfl⟩
      have hle := le_of_ends hM (hb _ hfr) hends
      have hnw : recCommand fr ≠ logcmdWake := by rw [hends.1]; decide
      rw [hcut, epochsOf_cons_epoch post hends.1] at hO
      rw [hcut, wakesOf, if_neg hnw, List.nil_append, epochAfter, if_pos hends.1] at hw
      rcases mem_wakesOf hw with rfl | hw
      · exact hle
      · exact hle.trans (UInt64.le_iff_toNat_le.mp ((List.pairwise_cons.mp hO).1 w hw))

/-- What `info` finds in a log that is cut behind an epoch record, the epochs behind the cut being
in order. -/
lemma infoOf_kept_cut {M : UInt64} {fs post : List Bytes} {fr : Bytes} (hb : Bounded fs)
    (hM : M.toNat < 2 ^ 63) (hcut : fromCut M fs = fr :: post)
    (hO : (epochsOf (fromCut M fs)).Pairwise (· ≤ ·)) :
    (infoOf (kept M fs)).quiescent = false ∧ (infoOf (kept M fs)).lastEpoch = recEpoch fr ∧
      M.toNat ≤ (recEpoch fr).toNat ∧ recEpoch fr ≤ (infoOf fs).lastEpoch ∧
      (infoOf (kept M fs)).wakeEpoch ≤ (infoOf fs).wakeEpoch := by
  rcases kept_cases M fs with ⟨skip, pre, fr', post', h1, h2, h3, h4, h5⟩ | ⟨skip, -, -, h3⟩
  swap
  · rw [fromCut_eq_nil h3] at hcut
    cases hcut
  have hno : ∀ g ∈ skip ++ pre, ¬ Ends M g := by
    intro g hg
    rcases List.mem_append.mp hg with hg | hg
    · exact fun h => h4 g hg h.1
    · exact h5 g hg
  have hcut' : fromCut M fs = fr' :: post' := by rw [h1, fromCut_append hno, fromCut_cons _ h3]
  obtain ⟨rfl, rfl⟩ := List.cons.inj (hcut'.symm.trans hcut)
  rw [hcut'] at hO
  have hfr : recEpoch fr' ∈ epochsOf fs := mem_epochsOf.mpr ⟨fr', by rw [h1]; simp, h3.1, rfl⟩
  have hlast : (infoOf (kept M fs)).lastEpoch = recEpoch fr' := by
    rw [infoOf_lastEpoch, h2, lastOf_append]
    exact if_pos h3.1
  -- the wake epoch at the cut is not behind the epoch there
  have hwake : (infoOf (kept M fs)).wakeEpoch ≤ recEpoch fr' := by
    have hy : infoOf (kept M fs) = infoStep (infoOf pre) fr' := by
      rw [h2, infoOf, List.foldl_append]
      rfl
    have hlt : (infoOf pre).wakeEpoch.toNat < 2 ^ 63 := by
      rcases infoOf_wakeEpoch pre with h | h
      · rw [h]
        decide
      · refine Bounded.wake (hb.mono (epochsOf_sublist ?_)) h
        rw [h1, List.append_assoc]
        exact (List.sublist_append_left _ _).trans (List.sublist_append_right _ _)
    rw [hy, infoStep, if_pos h3.1, InfoType.seeEpoch]
    simp only
    split
    · exact UInt64.zero_le
    · next hc =>
        rw [circularLess_iff (hb _ hfr) hlt, not_and_or, not_not, not_lt] at hc
        rcases hc with hc | hc
        · rw [hc]
          exact UInt64.zero_le
        · exact UInt64.le_iff_toNat_le.mpr hc
  have hinfo : infoOf fs = post'.foldl infoStep (infoOf (kept M fs)) := by
    rw [h2]
    conv_lhs => rw [h1, List.append_assoc, infoOf_skip h4 (by simp)]
    rw [infoOf, infoOf, ← List.foldl_append, List.append_assoc, List.singleton_append]
  have hpost : Ordered post' :=
    ⟨(List.pairwise_cons.mp (epochsOf_cons_epoch post' h3.1 ▸ hO)).2, hb.mono (epochsOf_sublist (by
      rw [h1]
      exact (List.sublist_cons_self _ _).trans (List.sublist_append_right _ _)))⟩
  have hafter : ∀ e ∈ epochsOf post', recEpoch fr' ≤ e :=
    (List.pairwise_cons.mp (epochsOf_cons_epoch post' h3.1 ▸ hO)).1
  obtain ⟨-, -, -, h6⟩ := foldl_infoStep post' (infoOf (kept M fs)) hpost (by rwa [hlast])
    (by rw [hlast]; exact hb _ hfr) (by rw [hlast]; exact hwake)
  refine ⟨?_, hlast, le_of_ends hM (hb _ hfr) h3, ?_, by rw [hinfo]; exact h6⟩
  · rw [h2, infoOf_quiescent_concat, h3.1]
    decide
  · rw [infoOf_lastEpoch, h1, lastOf_append]
    change _ ≤ lastOf (epochAfter _ fr') post'
    rw [epochAfter, if_pos h3.1]
    exact (le_lastOf _ _ hpost hafter).1

/-- A log whose epochs are all below the bound is the same to `info`. -/
lemma infoOf_kept_whole {M : UInt64} {fs : List Bytes} (hne : epochsOf fs ≠ [])
    (hcut : fromCut M fs = []) : infoOf (kept M fs) = infoOf fs := by
  rcases kept_cases M fs with ⟨skip, pre, fr, post, h1, -, h3, -, -⟩ | ⟨skip, h1, h2, -⟩
  · have := List.dropWhile_eq_nil_iff.mp hcut fr (by rw [h1]; simp)
    exact absurd h3 (by simpa using this)
  · conv_rhs => rw [h1]
    refine (infoOf_skip h2 ?_).symm
    intro h0
    rw [h0, List.append_nil] at h1
    rw [h1] at hne
    exact hne (epochsOf_nil_of h2)

lemma keepTo_keepTo (M : UInt64) : ∀ fs, keepTo M (keepTo M fs) = keepTo M fs
  | [] => rfl
  | fr :: fs => by
      by_cases h : Ends M fr
      · simp only [keepTo, if_pos h]
      · simp only [keepTo, if_neg h, keepTo_keepTo M fs]

/-- What is kept are the records up to the cut, from the first epoch record on. -/
lemma kept_eq (M : UInt64) : ∀ fs, kept M fs = fromEpoch (keepTo M fs)
  | [] => rfl
  | fr :: fs => by
      by_cases h : recCommand fr = logcmdEpoch
      · have hfrom : ∀ gs, fromEpoch (fr :: gs) = fr :: gs :=
          fun gs => List.dropWhile_cons_of_neg (by simp [h])
        rw [kept, hfrom, keepTo]
        split
        · exact (hfrom []).symm
        · exact (hfrom _).symm
      · have hfrom : ∀ gs, fromEpoch (fr :: gs) = fromEpoch gs :=
          fun gs => List.dropWhile_cons_of_pos (by simp [h])
        rw [kept, hfrom, keepTo, if_neg fun hc => h hc.1, hfrom]
        exact kept_eq M fs

/-- What is kept is kept again. -/
lemma kept_kept (M : UInt64) (fs : List Bytes) : kept M (kept M fs) = kept M fs := by
  have hfrom : fromEpoch (kept M fs) = kept M fs := by
    obtain ⟨-, -, -, hhead⟩ := fromEpoch_split fs
    rw [kept]
    cases hfs : fromEpoch fs with
    | nil => rfl
    | cons fr rest =>
        have hc := hhead fr rest hfs
        rw [keepTo]
        split <;> exact List.dropWhile_cons_of_neg (by simp [hc])
  rw [kept, hfrom]
  exact keepTo_keepTo M _

lemma replays_keepTo (M : UInt64) : ∀ (e : UInt64) (fs : List Bytes),
    replays M e (keepTo M fs) = replays M e fs
  | _, [] => rfl
  | e, fr :: fs => by
      by_cases h : Ends M fr
      · simp only [keepTo, if_pos h, replays]
      · simp only [keepTo, if_neg h, replays, replays_keepTo M (epochAfter e fr) fs]

lemma replays_skip (M : UInt64) : ∀ {skip : List Bytes} (fs : List Bytes),
    (∀ g ∈ skip, recCommand g ≠ logcmdEpoch) → replays M 0 (skip ++ fs) = replays M 0 fs
  | [], _, _ => rfl
  | fr :: skip, fs, h => by
      have hc := h fr List.mem_cons_self
      have hends : ¬ Ends M fr := fun h => hc h.1
      have hafter : epochAfter 0 fr = 0 := if_neg hc
      rw [List.cons_append, replays, if_neg hends, hafter,
        replays_skip M fs fun g hg => h g (List.mem_cons_of_mem _ hg)]
      simp

/-- What is kept is replayed as before. -/
lemma replays_kept (M : UInt64) (fs : List Bytes) :
    replays M 0 (kept M fs) = replays M 0 fs := by
  obtain ⟨skip, hskip, hno, -⟩ := fromEpoch_split fs
  rw [kept, replays_keepTo]
  conv_rhs => rw [hskip]
  exact (replays_skip M _ hno).symm

end MasstreeLHM
