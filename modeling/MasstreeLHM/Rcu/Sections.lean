import MasstreeLHM.Rcu.Limbo
import Mathlib.Data.List.Induction

/-!
# Critical sections

`rcu_start`, `rcu_stop`, `rcu_quiesce` and `record_rcu` of `threadinfo`, and the timer's `epochinc`,
on any number of threads.  Every step has a number; an object in a limbo list carries the number of
the step that retired it, and a thread in a critical section the number of the step that began it.

`ThreadInfo` is one thread with its limbo list, and `RcuState.step` interleaves the threads and the
timer in every possible order.  The numbers of steps are only there to state the result; no
operation looks at them.

`Inv` is the invariant: who is in a critical section has registered an epoch from `activeEpoch` on,
and whatever was retired after that section began waits with an epoch that this section holds back.
`minActiveEpoch_spec` and `collect_spec` are what it needs of the code, **`Inv.step`** is the step
lemma and **`run_inv`** the run lemma.  **`freed_before_sections`** then says that what a step frees
was retired before every critical section that a thread is in.
-/

namespace MasstreeLHM

/-- `threadinfo`, as far as RCU goes. -/
structure ThreadInfo (α : Type) where
  gcEpoch : UInt64
  performGcEpoch : UInt64
  limbo : Limbo α
deriving Repr, DecidableEq

namespace ThreadInfo

variable {α : Type}

/-- `threadinfo::make`. -/
def make : ThreadInfo α := ⟨0, 0, .fresh⟩

/-- `rcu_start`. -/
def rcuStart (t : ThreadInfo α) (globalepoch : UInt64) : ThreadInfo α :=
  if t.gcEpoch ≠ globalepoch then { t with gcEpoch := globalepoch } else t

/-- `hard_rcu_quiesce` if `perform_gc_epoch_` is out of date: the thread and the freed objects. -/
def collect (freeing : α → List α) (globalepoch activeEpoch : UInt64) (t : ThreadInfo α) :
    ThreadInfo α × List α :=
  if t.performGcEpoch ≠ activeEpoch then
    let r := t.limbo.hardRcuQuiesce (fun o => (freeing o).map (·, globalepoch)) activeEpoch
    ({ t with limbo := r.1, performGcEpoch := r.2.1 }, r.2.2)
  else (t, [])

/-- `rcu_stop`. -/
def rcuStop (freeing : α → List α) (globalepoch activeEpoch : UInt64) (t : ThreadInfo α) :
    ThreadInfo α × List α :=
  let r := t.collect freeing globalepoch activeEpoch
  ({ r.1 with gcEpoch := 0 }, r.2)

/-- `rcu_quiesce`. -/
def rcuQuiesce (freeing : α → List α) (globalepoch activeEpoch : UInt64) (t : ThreadInfo α) :
    ThreadInfo α × List α :=
  (t.rcuStart globalepoch).collect freeing globalepoch activeEpoch

/-- `record_rcu`. -/
def recordRcu (t : ThreadInfo α) (o : α) (globalepoch : UInt64) : ThreadInfo α :=
  { t with limbo := t.limbo.record o globalepoch }

/-- `min_active_epoch`. -/
def minActiveEpoch (allthreads : List (ThreadInfo α)) (globalepoch : UInt64) : UInt64 :=
  allthreads.foldl
    (fun ae t => if t.gcEpoch ≠ 0 ∧ circularLess t.gcEpoch ae then t.gcEpoch else ae) globalepoch

lemma rcuStart_eq (t : ThreadInfo α) (e : UInt64) : t.rcuStart e = { t with gcEpoch := e } := by
  rw [rcuStart]
  split_ifs with h
  · rfl
  · rw [← not_not.mp h]

/-- **`collect`** frees objects that were waiting and whose epoch is before `activeEpoch`. -/
lemma collect_spec (freeing : α → List α) (globalepoch activeEpoch : UInt64) (t : ThreadInfo α)
    (h : t.limbo.Ok) :
    (t.collect freeing globalepoch activeEpoch).1.gcEpoch = t.gcEpoch ∧
      (t.collect freeing globalepoch activeEpoch).1.limbo.Ok ∧
      ∃ fs, (t.collect freeing globalepoch activeEpoch).2 = fs.map Prod.fst ∧
        (∀ f ∈ fs, ¬ circularLess (activeEpoch - 1) f.2) ∧
        t.limbo.pending ++ (fs.flatMap (fun f => freeing f.1)).map (·, globalepoch)
          = fs ++ (t.collect freeing globalepoch activeEpoch).1.limbo.pending := by
  rw [collect]
  split_ifs with hp
  · obtain ⟨fs, h1, h2, h3, h4⟩ := t.limbo.hardRcuQuiesce_spec
      (fun o => (freeing o).map (·, globalepoch)) activeEpoch h
    exact ⟨rfl, h4, fs, h1, h2, by rw [List.map_flatMap]; exact h3⟩
  · exact ⟨rfl, h, [], by simp, by simp, by simp⟩

/-- **`min_active_epoch`** is at most every epoch that a thread is in. -/
lemma minActiveEpoch_spec (ts : List (ThreadInfo α)) (e : UInt64) (he : e.toNat < 2 ^ 63)
    (h0 : e ≠ 0) (hts : ∀ t ∈ ts, t.gcEpoch.toNat < 2 ^ 63) :
    minActiveEpoch ts e ≠ 0 ∧ (minActiveEpoch ts e).toNat ≤ e.toNat ∧
      ∀ t ∈ ts, t.gcEpoch ≠ 0 → (minActiveEpoch ts e).toNat ≤ t.gcEpoch.toNat := by
  rw [minActiveEpoch]
  induction ts generalizing e with
  | nil => exact ⟨h0, le_rfl, fun t ht => absurd ht List.not_mem_nil⟩
  | cons t ts ih =>
      have ht := hts t List.mem_cons_self
      rw [List.foldl_cons]
      split_ifs with hc
      · obtain ⟨i1, i2, i3⟩ := ih t.gcEpoch ht hc.1 (fun t' h => hts t' (List.mem_cons_of_mem _ h))
        have hlt := (circularLess_iff ht he).mp hc.2
        exact ⟨i1, i2.trans hlt.le, List.forall_mem_cons.mpr ⟨fun _ => i2, i3⟩⟩
      · obtain ⟨i1, i2, i3⟩ := ih e he h0 (fun t' h => hts t' (List.mem_cons_of_mem _ h))
        refine ⟨i1, i2, List.forall_mem_cons.mpr ⟨fun hne => ?_, i3⟩⟩
        have hle : ¬ t.gcEpoch.toNat < e.toNat :=
          fun hlt => hc ⟨hne, (circularLess_iff ht he).mpr hlt⟩
        exact i2.trans (not_lt.mp hle)

end ThreadInfo

/-! ## Runs -/

/-- A state of `n` threads. -/
structure RcuState (n : ℕ) (α : Type) where
  globalepoch : UInt64
  activeEpoch : UInt64
  threads : Fin n → ThreadInfo (α × ℕ)
  /-- The number of the next step. -/
  time : ℕ
  /-- When the critical section that a thread is in began. -/
  began : Fin n → Option ℕ

/-- A step of a thread or of the timer.  `freeing o` are the objects that the callback `o` retires
if this step runs it. -/
inductive RcuAction (n : ℕ) (α : Type) where
  | start (i : Fin n)
  | stop (i : Fin n) (freeing : α → List α)
  | quiesce (i : Fin n) (freeing : α → List α)
  | retire (i : Fin n) (o : α)
  | epochinc

namespace RcuState

variable {n : ℕ} {α : Type}

/-- The state before the first step. -/
def initial (n : ℕ) (α : Type) : RcuState n α := ⟨1, 1, fun _ => .make, 0, fun _ => none⟩

/-- What a callback retires in step `time`. -/
def stamped (freeing : α → List α) (time : ℕ) (x : α × ℕ) : List (α × ℕ) :=
  (freeing x.1).map (·, time)

/-- The timer. -/
def epochinc (s : RcuState n α) : RcuState n α :=
  { s with
    globalepoch := s.globalepoch + 2
    activeEpoch := ThreadInfo.minActiveEpoch (List.ofFn s.threads) (s.globalepoch + 2) }

/-- Thread `i` becomes `t`; its critical section is now the one that began at `b`. -/
def update (s : RcuState n α) (i : Fin n) (t : ThreadInfo (α × ℕ)) (b : Option ℕ) : RcuState n α :=
  { s with threads := Function.update s.threads i t, began := Function.update s.began i b }

/-- What an action does, and the objects that it frees. -/
def perform (s : RcuState n α) : RcuAction n α → RcuState n α × List (α × ℕ)
  | .start i => (s.update i ((s.threads i).rcuStart s.globalepoch) (some s.time), [])
  | .stop i freeing =>
      let r := (s.threads i).rcuStop (stamped freeing s.time) s.globalepoch s.activeEpoch
      (s.update i r.1 none, r.2)
  | .quiesce i freeing =>
      let r := (s.threads i).rcuQuiesce (stamped freeing s.time) s.globalepoch s.activeEpoch
      (s.update i r.1 (some s.time), r.2)
  | .retire i o =>
      (s.update i ((s.threads i).recordRcu (o, s.time) s.globalepoch) (s.began i), [])
  | .epochinc => (s.epochinc, [])

/-- One step. -/
def step (s : RcuState n α) (a : RcuAction n α) : RcuState n α :=
  { (s.perform a).1 with time := s.time + 1 }

/-- The objects that one step frees, with the steps that retired them. -/
def freed (s : RcuState n α) (a : RcuAction n α) : List (α × ℕ) := (s.perform a).2

/-- A run. -/
def run (s : RcuState n α) (as : List (RcuAction n α)) : RcuState n α := as.foldl step s

/-- How often the timer has gone off. -/
def ticks (as : List (RcuAction n α)) : ℕ :=
  as.countP (fun a => match a with | .epochinc => true | _ => false)

/-! ## The invariant -/

/-- Who is in a critical section has registered an epoch from `activeEpoch` on, and whatever was
retired after that section began waits with an epoch from the registered one on. -/
structure Inv (s : RcuState n α) : Prop where
  small : s.globalepoch.toNat < 2 ^ 63
  active_pos : s.activeEpoch ≠ 0
  active_le : s.activeEpoch.toNat ≤ s.globalepoch.toNat
  outside : ∀ u, s.began u = none → (s.threads u).gcEpoch = 0
  inside : ∀ u b, s.began u = some b → s.activeEpoch.toNat ≤ (s.threads u).gcEpoch.toNat
  registered : ∀ u, (s.threads u).gcEpoch.toNat ≤ s.globalepoch.toNat
  limbo : ∀ u, (s.threads u).limbo.Ok
  past : ∀ u, ∀ f ∈ (s.threads u).limbo.pending, f.1.2 < s.time
  epoch_le : ∀ u, ∀ f ∈ (s.threads u).limbo.pending, f.2.toNat ≤ s.globalepoch.toNat
  guarded : ∀ u v b, s.began v = some b → ∀ f ∈ (s.threads u).limbo.pending, b ≤ f.1.2 →
    (s.threads v).gcEpoch.toNat ≤ f.2.toNat

lemma initial_inv : (initial n α).Inv where
  small := by
    change (1 : UInt64).toNat < 2 ^ 63
    decide
  active_pos := by
    change (1 : UInt64) ≠ 0
    decide
  active_le := le_rfl
  outside := fun _ _ => rfl
  inside := fun _ _ h => by cases h
  registered := fun _ => Nat.zero_le _
  limbo := fun _ => Limbo.fresh_ok
  past := fun _ f hf => absurd hf List.not_mem_nil
  epoch_le := fun _ f hf => absurd hf List.not_mem_nil
  guarded := fun _ _ _ h => by cases h

/-- The step lemma for everything but the timer.  An object waiting afterwards was waiting before or
has just been retired, and a thread goes on as it was, begins a section or ends one. -/
lemma Inv.next {s s' : RcuState n α} (h : s.Inv) (hglobal : s'.globalepoch = s.globalepoch)
    (hactive : s'.activeEpoch = s.activeEpoch) (htime : s'.time = s.time + 1)
    (hlimbo : ∀ u, (s'.threads u).limbo.Ok)
    (hpending : ∀ u, ∀ f ∈ (s'.threads u).limbo.pending,
      f ∈ (s.threads u).limbo.pending ∨ f.1.2 = s.time ∧ f.2 = s.globalepoch)
    (hsection : ∀ v, (s'.began v = s.began v ∧ (s'.threads v).gcEpoch = (s.threads v).gcEpoch) ∨
      (s'.began v = some s.time ∧ (s'.threads v).gcEpoch = s.globalepoch) ∨
      (s'.began v = none ∧ (s'.threads v).gcEpoch = 0)) : s'.Inv := by
  have hregistered : ∀ v, (s'.threads v).gcEpoch.toNat ≤ s.globalepoch.toNat := by
    intro v
    rcases hsection v with ⟨-, h2⟩ | ⟨-, h2⟩ | ⟨-, h2⟩
    · rw [h2]
      exact h.registered v
    · rw [h2]
    · rw [h2]
      exact Nat.zero_le _
  refine ⟨by rw [hglobal]; exact h.small, by rw [hactive]; exact h.active_pos,
    by rw [hactive, hglobal]; exact h.active_le, fun u hu => ?_, fun u b hb => ?_,
    by rwa [hglobal], hlimbo, fun u f hf => ?_, fun u f hf => ?_, fun u v b hb f hf hle => ?_⟩
  · rcases hsection u with ⟨h1, h2⟩ | ⟨h1, -⟩ | ⟨-, h2⟩
    · rw [h2]
      exact h.outside u (by rw [← h1, hu])
    · rw [h1] at hu
      cases hu
    · exact h2
  · rw [hactive]
    rcases hsection u with ⟨h1, h2⟩ | ⟨-, h2⟩ | ⟨h1, -⟩
    · rw [h2]
      exact h.inside u b (by rw [← h1, hb])
    · rw [h2]
      exact h.active_le
    · rw [h1] at hb
      cases hb
  · rw [htime]
    rcases hpending u f hf with hf | ⟨hf, -⟩
    · exact (h.past u f hf).trans (Nat.lt_succ_self _)
    · rw [hf]
      exact Nat.lt_succ_self _
  · rw [hglobal]
    rcases hpending u f hf with hf | ⟨-, hf⟩
    · exact h.epoch_le u f hf
    · rw [hf]
  · rcases hpending u f hf with hf | ⟨-, hf⟩
    · rcases hsection v with ⟨h1, h2⟩ | ⟨h1, -⟩ | ⟨h1, -⟩
      · rw [h2]
        exact h.guarded u v b (by rw [← h1, hb]) f hf hle
      · -- what is waiting was retired before the section began
        rw [h1] at hb
        cases hb
        exact absurd (h.past u f hf) (not_lt.mpr hle)
      · rw [h1] at hb
        cases hb
    · rw [hf]
      exact hregistered v

lemma Inv.update {s : RcuState n α} (h : s.Inv) (i : Fin n) {t : ThreadInfo (α × ℕ)}
    {b : Option ℕ} (hlimbo : t.limbo.Ok)
    (hpending : ∀ f ∈ t.limbo.pending,
      f ∈ (s.threads i).limbo.pending ∨ f.1.2 = s.time ∧ f.2 = s.globalepoch)
    (hsection : (b = s.began i ∧ t.gcEpoch = (s.threads i).gcEpoch) ∨
      (b = some s.time ∧ t.gcEpoch = s.globalepoch) ∨ (b = none ∧ t.gcEpoch = 0)) :
    ({ s.update i t b with time := s.time + 1 } : RcuState n α).Inv := by
  refine h.next rfl rfl rfl (fun u => ?_) (fun u => ?_) (fun v => ?_)
  · by_cases hu : u = i
    · subst hu
      simpa only [RcuState.update, Function.update_self] using hlimbo
    · simpa only [RcuState.update, Function.update_of_ne hu] using h.limbo u
  · by_cases hu : u = i
    · subst hu
      simpa only [RcuState.update, Function.update_self] using hpending
    · simp only [RcuState.update, Function.update_of_ne hu]
      exact fun f hf => Or.inl hf
  · by_cases hv : v = i
    · subst hv
      simpa only [RcuState.update, Function.update_self] using hsection
    · have ht : Function.update s.threads i t v = s.threads v := Function.update_of_ne hv _ _
      exact Or.inl ⟨Function.update_of_ne hv _ _, congrArg ThreadInfo.gcEpoch ht⟩

/-- What `collect` leaves waiting was waiting or has just been retired; what it frees was waiting,
with an epoch before `activeEpoch`. -/
lemma Inv.collect {s : RcuState n α} (h : s.Inv) (i : Fin n) (freeing : α → List α)
    (t : ThreadInfo (α × ℕ)) (ht : t.limbo = (s.threads i).limbo) :
    let r := t.collect (stamped freeing s.time) s.globalepoch s.activeEpoch
    r.1.gcEpoch = t.gcEpoch ∧ r.1.limbo.Ok ∧
      (∀ f ∈ r.1.limbo.pending,
        f ∈ (s.threads i).limbo.pending ∨ f.1.2 = s.time ∧ f.2 = s.globalepoch) ∧
      (∀ x ∈ r.2, ∃ e, (x, e) ∈ (s.threads i).limbo.pending ∧ e.toNat < s.activeEpoch.toNat) := by
  intro r
  obtain ⟨h1, h2, fs, h3, h4, h5⟩ := t.collect_spec (stamped freeing s.time) s.globalepoch
    s.activeEpoch (by rw [ht]; exact h.limbo i)
  rw [ht] at h5
  -- both lists are made of what was waiting and what the callbacks retired
  have hsplit : ∀ f ∈ fs ++ r.1.limbo.pending,
      f ∈ (s.threads i).limbo.pending ∨ f.1.2 = s.time ∧ f.2 = s.globalepoch := by
    intro f hf
    rw [← h5] at hf
    rcases List.mem_append.mp hf with hf | hf
    · exact Or.inl hf
    · obtain ⟨x, hx, rfl⟩ := List.mem_map.mp hf
      obtain ⟨g, -, hg⟩ := List.mem_flatMap.mp hx
      obtain ⟨o, -, rfl⟩ := List.mem_map.mp hg
      exact Or.inr ⟨rfl, rfl⟩
  refine ⟨h1, h2, fun f hf => hsplit f (List.mem_append_right _ hf), fun x hx => ?_⟩
  rw [h3] at hx
  obtain ⟨f, hf, rfl⟩ := List.mem_map.mp hx
  have hpos : 0 < s.activeEpoch.toNat := by
    have := h.active_pos
    rw [ne_eq, ← UInt64.toNat_inj] at this
    exact Nat.pos_of_ne_zero this
  have hle := h.active_le
  have hsmall := h.small
  have hsub : (s.activeEpoch - 1).toNat = s.activeEpoch.toNat - 1 := by
    rw [UInt64.toNat_sub_of_le _ _ (UInt64.le_iff_toNat_le.mpr (by exact hpos))]
    rfl
  have hold := h4 f hf
  rcases hsplit f (List.mem_append_left _ hf) with hmem | ⟨-, he⟩
  · have hfe := h.epoch_le i f hmem
    rw [circularLess_iff (by omega) (by omega), hsub] at hold
    exact ⟨f.2, hmem, by omega⟩
  · rw [he, circularLess_iff (by omega) hsmall, hsub] at hold
    omega

/-- **The step lemma.** -/
lemma Inv.step {s : RcuState n α} (h : s.Inv) (a : RcuAction n α)
    (hep : a = .epochinc → s.globalepoch.toNat + 2 < 2 ^ 63) : (s.step a).Inv := by
  cases a with
  | start i =>
      refine h.update i ?_ ?_ ?_ <;> rw [ThreadInfo.rcuStart_eq]
      · exact h.limbo i
      · exact fun f hf => Or.inl hf
      · exact Or.inr (Or.inl ⟨rfl, rfl⟩)
  | stop i freeing =>
      obtain ⟨-, h2, h3, -⟩ := h.collect i freeing (s.threads i) rfl
      exact h.update i h2 h3 (Or.inr (Or.inr ⟨rfl, rfl⟩))
  | quiesce i freeing =>
      obtain ⟨h1, h2, h3, -⟩ := h.collect i freeing ((s.threads i).rcuStart s.globalepoch)
        (by rw [ThreadInfo.rcuStart_eq])
      refine h.update i h2 h3 (Or.inr (Or.inl ⟨rfl, ?_⟩))
      rw [ThreadInfo.rcuQuiesce, h1, ThreadInfo.rcuStart_eq]
  | retire i o =>
      obtain ⟨h1, h2⟩ := (h.limbo i).record (o, s.time) s.globalepoch
      refine h.update i h1 (fun f hf => ?_) (Or.inl ⟨rfl, rfl⟩)
      rw [ThreadInfo.recordRcu, h2] at hf
      rcases List.mem_append.mp hf with hf | hf
      · exact Or.inl hf
      · rw [List.mem_singleton.mp hf]
        exact Or.inr ⟨rfl, rfl⟩
  | epochinc =>
      have hlt := hep rfl
      have hsum : (s.globalepoch + 2).toNat = s.globalepoch.toNat + 2 := by
        rw [UInt64.toNat_add, Nat.mod_eq_of_lt (by simp; omega)]
        rfl
      obtain ⟨k1, k2, k3⟩ := ThreadInfo.minActiveEpoch_spec (List.ofFn s.threads)
        (s.globalepoch + 2) (by omega) (by rw [ne_eq, ← UInt64.toNat_inj, hsum]; simp)
        (fun t ht => by
          obtain ⟨u, rfl⟩ := List.mem_ofFn.mp ht
          exact (h.registered u).trans_lt h.small)
      exact {
        small := by
          change (s.globalepoch + 2).toNat < 2 ^ 63
          omega
        active_pos := k1
        active_le := k2
        outside := h.outside
        inside := fun u b hb => k3 _ (List.mem_ofFn.mpr ⟨u, rfl⟩) (fun h0 => by
          have hin := h.inside u b hb
          have h0' : (s.threads u).gcEpoch = 0 := h0
          rw [h0'] at hin
          exact h.active_pos (UInt64.toNat_inj.mp (Nat.le_zero.mp hin)))
        registered := fun u =>
          (h.registered u).trans (by change _ ≤ (s.globalepoch + 2).toNat; omega)
        limbo := h.limbo
        past := fun u f hf => (h.past u f hf).trans (Nat.lt_succ_self _)
        epoch_le := fun u f hf =>
          (h.epoch_le u f hf).trans (by change _ ≤ (s.globalepoch + 2).toNat; omega)
        guarded := h.guarded }

/-- What a step frees was retired before every critical section that a thread is in, when the step
starts or when it is done. -/
lemma Inv.freed {s : RcuState n α} (h : s.Inv) (a : RcuAction n α) (x : α × ℕ)
    (hx : x ∈ s.freed a) (v : Fin n) (b : ℕ)
    (hb : s.began v = some b ∨ (s.step a).began v = some b) : x.2 < b := by
  have hpre : ∀ i e, (x, e) ∈ (s.threads i).limbo.pending → e.toNat < s.activeEpoch.toNat →
      ∀ b, s.began v = some b → x.2 < b := by
    intro i e hmem he b hb
    by_contra hle
    have h1 := h.guarded i v b hb _ hmem (not_lt.mp hle)
    have h2 := h.inside v b hb
    simp only at h1
    omega
  cases a with
  | start i => exact absurd hx List.not_mem_nil
  | stop i freeing =>
      obtain ⟨-, -, -, h4⟩ := h.collect i freeing (s.threads i) rfl
      obtain ⟨e, hmem, he⟩ := h4 x hx
      refine hpre i e hmem he b (hb.elim id fun hb => ?_)
      by_cases hv : v = i
      · subst hv
        simp only [RcuState.step, RcuState.perform, RcuState.update, Function.update_self] at hb
        cases hb
      · simpa only [RcuState.step, RcuState.perform, RcuState.update, Function.update_of_ne hv]
          using hb
  | quiesce i freeing =>
      obtain ⟨-, -, -, h4⟩ := h.collect i freeing ((s.threads i).rcuStart s.globalepoch)
        (by rw [ThreadInfo.rcuStart_eq])
      obtain ⟨e, hmem, he⟩ := h4 x hx
      rcases hb with hb | hb
      · exact hpre i e hmem he b hb
      · by_cases hv : v = i
        · subst hv
          simp only [RcuState.step, RcuState.perform, RcuState.update, Function.update_self] at hb
          cases hb
          exact h.past v _ hmem
        · simp only [RcuState.step, RcuState.perform, RcuState.update, Function.update_of_ne hv]
            at hb
          exact hpre i e hmem he b hb
  | retire i o => exact absurd hx List.not_mem_nil
  | epochinc => exact absurd hx List.not_mem_nil

/-- **The run lemma.** -/
lemma run_inv (as : List (RcuAction n α)) (hep : 1 + 2 * ticks as < 2 ^ 63) :
    (run (initial n α) as).Inv ∧
      (run (initial n α) as).globalepoch.toNat = 1 + 2 * ticks as := by
  induction as using List.reverseRecOn with
  | nil => exact ⟨initial_inv, rfl⟩
  | append_singleton as a ih =>
      have hsplit : ticks (as ++ [a]) = ticks as + ticks [a] := List.countP_append
      rw [hsplit] at hep ⊢
      obtain ⟨h1, h2⟩ := ih (by omega)
      have hrun : run (initial n α) (as ++ [a]) = (run (initial n α) as).step a := by
        rw [run, List.foldl_append]
        rfl
      rw [hrun]
      refine ⟨h1.step a (fun ha => ?_), ?_⟩
      · subst ha
        have : ticks [(.epochinc : RcuAction n α)] = 1 := rfl
        omega
      · cases a with
        | epochinc =>
            have ht : ticks [(.epochinc : RcuAction n α)] = 1 := rfl
            change ((run (initial n α) as).globalepoch + 2).toNat = _
            rw [UInt64.toNat_add, h2, ht, Nat.mod_eq_of_lt]
            · rfl
            · simp
              omega
        | start i => exact h2
        | stop i freeing => exact h2
        | quiesce i freeing => exact h2
        | retire i o => exact h2

/-- **No object is freed while a thread is in a critical section that began before the object was
retired.** -/
theorem freed_before_sections (as : List (RcuAction n α)) (a : RcuAction n α)
    (hep : 1 + 2 * ticks (as ++ [a]) < 2 ^ 63) (x : α × ℕ)
    (hx : x ∈ (run (initial n α) as).freed a) (v : Fin n) (b : ℕ)
    (hb : (run (initial n α) as).began v = some b ∨
      (run (initial n α) (as ++ [a])).began v = some b) : x.2 < b := by
  have hsplit : ticks (as ++ [a]) = ticks as + ticks [a] := List.countP_append
  have hrun : run (initial n α) (as ++ [a]) = (run (initial n α) as).step a := by
    rw [run, List.foldl_append]
    rfl
  rw [hrun] at hb
  exact (run_inv as (by omega)).1.freed a x hx v b hb

/-- Thread 0 retires an object; after a tick it frees it, while thread 1 is in a later section. -/
theorem freed_before_sections_stop :
    let as : List (RcuAction 2 ℕ) :=
      [.start 0, .retire 0 7, .stop 0 (fun _ => []), .epochinc, .start 0, .start 1]
    (run (initial 2 ℕ) as).freed (.stop 0 (fun _ => [])) = [(7, 1)] ∧ 1 < 5 := by
  intro as
  have hthread : (run (initial 2 ℕ) as).threads 0
      = ⟨3, 1, ⟨[⟨0, [.marker 1, .object (7, 1)], 1⟩], []⟩⟩ := rfl
  have hactive : (run (initial 2 ℕ) as).activeEpoch = 3 := rfl
  have hfreed : (run (initial 2 ℕ) as).freed (.stop 0 (fun _ => [])) = [(7, 1)] := by
    have hclean : Limbo.cleanUntil (fun o => (stamped (fun _ : ℕ => []) 6 o).map (·, 3)) 2 0
        ⟨⟨[⟨0, [.marker 1, .object (7, 1)], 1⟩], []⟩, 128, []⟩
          = ⟨⟨[⟨0, [], 1⟩], []⟩, 127, [(7, 1)]⟩ := by
      rw [Limbo.cleanUntil_marker (h := rfl), Limbo.cleanUntil_object (h := rfl),
        Limbo.cleanUntil_none]
      · rfl
      · rfl
      · decide
      · decide
    have hgroups : Limbo.cleanGroups (fun o => (stamped (fun _ : ℕ => []) 6 o).map (·, 3)) 2 []
        ⟨⟨[⟨0, [.marker 1, .object (7, 1)], 1⟩], []⟩, 128, []⟩
          = ⟨⟨[⟨0, [], 1⟩], []⟩, 127, [(7, 1)]⟩ := by
      rw [Limbo.cleanGroups, dif_neg (by decide), hclean]
      rfl
    rw [freed, perform, hthread, hactive, ThreadInfo.rcuStop, ThreadInfo.collect,
      if_pos (by decide)]
    change (Limbo.hardRcuQuiesce (fun o => (stamped (fun _ => []) 6 o).map (·, 3)) 3 _).2.2 = _
    rw [Limbo.hardRcuQuiesce_freed (h := rfl)]
    · exact congrArg Cleaning.freed hgroups
    · decide
  refine ⟨hfreed, freed_before_sections as (.stop 0 (fun _ => [])) (by decide) (7, 1) ?_ 1 5
    (Or.inl rfl)⟩
  rw [hfreed]
  exact List.mem_singleton_self _

end RcuState

end MasstreeLHM
