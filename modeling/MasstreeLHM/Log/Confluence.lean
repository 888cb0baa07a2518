import Mathlib.Data.List.Nodup
import Mathlib.Data.List.Range
import Mathlib.Data.List.TakeWhile
import Mathlib.Data.Nat.Bitwise
import Mathlib.Tactic.IntervalCases
import MasstreeLHM.Log.Apply

/-!
# Replaying the records of one key in any order

`recover` replays logs in parallel, without a merge by time.  The records of one key's history
therefore arrive in any order.  While they arrive, the chain of the key is determined by the set of
versions seen: `Settled` says that the row under the markers is a version with everything before it
folded in, and that the markers are the later versions seen, none of which follows on that row.

A `History` has the versions of the key with the record and the row of each.  `chainOf` is the chain
when a set of versions has been seen.  **`apply_settled`** is the step lemma: a record that is older
than the row changes nothing (`apply_of_lt`), a newer one goes to its place among the markers
(`apply_of_le`), and cleaning up folds what then follows on the row (`cleanUpLoop_settles`).
`applyAll_settled` is the run.

A marker keeps the length of its request in 16 bits.  `Short` are the histories in which no length
is lost there; `not_confluent_of_lost` says that a change whose length is lost has an order in which
it is never found.
-/

namespace MasstreeLHM

open LogRecord

/-! ## Timestamps -/

lemma toNat_or_one {t : UInt64} (h : t.toNat % 2 = 0) : (t ||| 1).toNat = t.toNat + 1 := by
  have h1 : (t ||| 1).toNat = t.toNat ||| 1 := by simp
  have h2 := Nat.two_pow_add_eq_or_of_lt (i := 1) (b := 1) (by norm_num) (t.toNat / 2)
  have h3 : 2 ^ 1 * (t.toNat / 2) = t.toNat := by omega
  rw [h1, ← h3, ← h2, h3]

lemma or_one_sub_one {t : UInt64} (h : t.toNat % 2 = 0) : (t ||| 1) - 1 = t := by
  apply UInt64.toNat_inj.mp
  have h1 := toNat_or_one h
  have h2 : (1 : UInt64) ≤ t ||| 1 := by
    rw [UInt64.le_iff_toNat_le, h1]
    simp
  rw [UInt64.toNat_sub_of_le _ _ h2, h1]
  simp

/-! ## Histories -/

/-- The history of one key: its versions, with the log record and the row of each. -/
structure History where
  n : ℕ
  record : ℕ → LogRecord
  row : ℕ → ValueBag
  pos : 0 < n
  even : ∀ i < n, (record i).ts.toNat % 2 = 0
  increasing : ∀ i j, i < j → j < n → (record i).ts < (record j).ts
  /-- The first version is a put or a replace. -/
  first : (record 0).command ≠ logcmdModify
  command : ∀ i < n, (record i).command = logcmdPut ∨ (record i).command = logcmdReplace ∨
    (record i).command = logcmdModify
  replaced : ∀ i < n, (record i).command = logcmdReplace →
    row i = ValueBag.create1 (record i).val (record i).ts
  put : ∀ i < n, (record i).command = logcmdPut →
    ∃ changes, parseChangeset (record i).val (record i).val.length = some changes ∧
      ValueBag.create changes (record i).ts = some (row i)
  modified : ∀ i, i + 1 < n → (record (i + 1)).command = logcmdModify →
    (record (i + 1)).prevTs = (record i).ts ∧
    ∃ changes, parseChangeset (record (i + 1)).val (record (i + 1)).val.length = some changes ∧
      (row i).update changes (record (i + 1)).ts = some (row (i + 1))

namespace History

variable (H : History)

/-- The chain that holds just the row of version `i`. -/
def version (i : ℕ) : RowChain := ⟨[], some (H.row i)⟩

/-- **The order does not matter**: whatever the order in which the records arrive, at an absent
key or at the row of any version, the last version is what remains. -/
def Confluent : Prop :=
  ∀ order : List ℕ, order.Perm (List.range H.n) →
    ∀ start, (start = RowChain.absent ∨ ∃ i < H.n, start = H.version i) →
      applyAll (order.map H.record) start = some (H.version (H.n - 1))

variable {H}

lemma row_ts {i : ℕ} (hi : i < H.n) : (H.row i).ts = (H.record i).ts := by
  rcases H.command i hi with hc | hc | hc
  · obtain ⟨changes, -, h⟩ := H.put i hi hc
    exact ValueBag.create_ts h
  · rw [H.replaced i hi hc]
    rfl
  · obtain _ | j := i
    · exact absurd hc H.first
    · obtain ⟨-, changes, -, h⟩ := H.modified j hi hc
      exact ValueBag.update_ts h

lemma ts_inj {i j : ℕ} (hi : i < H.n) (hj : j < H.n) (h : (H.record i).ts = (H.record j).ts) :
    i = j := by
  rcases lt_trichotomy i j with h0 | h0 | h0
  · exact absurd h (UInt64.ne_of_lt (H.increasing i j h0 hj))
  · exact h0
  · exact absurd h.symm (UInt64.ne_of_lt (H.increasing j i h0 hi))

lemma ts_lt_iff {i j : ℕ} (hi : i < H.n) (hj : j < H.n) :
    (H.record i).ts < (H.record j).ts ↔ i < j := by
  constructor
  · intro h
    by_contra h0
    rcases Nat.lt_or_eq_of_le (not_lt.mp h0) with h1 | h1
    · exact UInt64.lt_asymm h (H.increasing j i h1 hi)
    · rw [h1] at h
      exact UInt64.lt_irrefl _ h
  · exact fun h => H.increasing i j h hj

/-- The marker of version `k`. -/
def marker (H : History) (k : ℕ) : DeltaMarker :=
  ⟨(H.record k).ts ||| 1, (H.record k).prevTs, (H.record k).val⟩

lemma marker_ts {k : ℕ} (hk : k < H.n) : (H.marker k).ts.toNat = (H.record k).ts.toNat + 1 :=
  toNat_or_one (H.even k hk)

/-- A marker stands behind a version exactly if it is a later one. -/
lemma lt_marker_iff {t k : ℕ} (ht : t < H.n) (hk : k < H.n) :
    (H.record t).ts < (H.marker k).ts ↔ t ≤ k := by
  have h1 := marker_ts hk
  have h2 := H.even t ht
  have h3 := H.even k hk
  have h4 := ts_lt_iff hk ht
  rw [UInt64.lt_iff_toNat_lt, h1]
  rw [UInt64.lt_iff_toNat_lt] at h4
  omega

lemma marker_ts_ne {t k : ℕ} (ht : t < H.n) (hk : k < H.n) :
    (H.marker k).ts ≠ (H.record t).ts := by
  intro h
  have h1 := marker_ts hk
  have h2 := H.even t ht
  have h3 := H.even k hk
  rw [h] at h1
  omega

/-! ## The state after some of the records -/

/-- The versions of `A` from `a` up to `b`, in ascending order. -/
def between (A : List ℕ) (a b : ℕ) : List ℕ := (List.range' a (b - a)).filter (· ∈ A)

lemma mem_between {A : List ℕ} {a b k : ℕ} : k ∈ between A a b ↔ k ∈ A ∧ a ≤ k ∧ k < b := by
  simp only [between, List.mem_filter, List.mem_range'_1, decide_eq_true_eq]
  constructor
  · rintro ⟨⟨h1, h2⟩, h3⟩
    exact ⟨h3, h1, by omega⟩
  · rintro ⟨h1, h2, h3⟩
    exact ⟨⟨h2, by omega⟩, h1⟩

lemma between_append (A : List ℕ) {a b c : ℕ} (h1 : a ≤ b) (h2 : b ≤ c) :
    between A a c = between A a b ++ between A b c := by
  rw [between, between, between, ← List.filter_append]
  congr 1
  have h3 := @List.range'_append_1 a (b - a) (c - b)
  rw [Nat.add_sub_cancel' h1] at h3
  rw [h3]
  congr 1
  omega

lemma between_self (A : List ℕ) (a : ℕ) : between A a a = [] := by simp [between]

lemma between_cons_of_not_mem (A : List ℕ) {t a b : ℕ} (h : t < a ∨ b ≤ t) :
    between (t :: A) a b = between A a b := by
  apply List.filter_congr
  intro k hk
  have h1 := List.mem_range'_1.mp hk
  have h2 : k ≠ t := by omega
  simp [h2]

lemma between_succ (A : List ℕ) (t : ℕ) :
    between A t (t + 1) = if t ∈ A then [t] else [] := by
  rw [between, Nat.add_sub_cancel_left]
  by_cases h : t ∈ A <;> simp [List.range', h]

/-- The row under the markers once the versions below `lo` are folded in. -/
def baseOf (H : History) : ℕ → Option ValueBag
  | 0 => none
  | j + 1 => some (H.row j)

/-- The chain of the versions of `A` from `lo` on, above the versions below `lo`. -/
def chainOf (H : History) (A : List ℕ) (lo : ℕ) : RowChain :=
  ⟨((between A lo H.n).map H.marker).reverse, H.baseOf lo⟩

/-- **After the records of `A`** nothing seen follows on the row under the markers. -/
structure Settled (H : History) (A : List ℕ) (lo : ℕ) : Prop where
  le : lo ≤ H.n
  fresh : lo ∉ A
  modify : ∀ k ∈ A, lo ≤ k → k < H.n ∧ (H.record k).command = logcmdModify

/-- Every change that may have to wait in a marker keeps its length there. -/
def Short (H : History) : Prop :=
  ∀ i < H.n, (H.record i).command = logcmdModify → (H.record i).val.length ≤ 65511

lemma marker_reqLen {k : ℕ} (h : (H.record k).val.length ≤ 65511) :
    (H.marker k).reqLen = (H.record k).val.length := by
  have h1 : (DeltaMarker.markerSize + (H.record k).val.length) % 2 ^ 16
      = 24 + (H.record k).val.length := Nat.mod_eq_of_lt (by simp [DeltaMarker.markerSize]; omega)
  simp only [DeltaMarker.reqLen, marker, h1]
  simp [DeltaMarker.markerSize]

/-- Cleaning up folds the versions that follow on the row, and settles. -/
lemma cleanUpLoop_settles (hS : H.Short) (A : List ℕ) : ∀ d lo, d = H.n - lo → lo ≤ H.n →
    (∀ k ∈ A, lo ≤ k → k < H.n ∧ (H.record k).command = logcmdModify) → (lo = 0 → 0 ∉ A) →
    ∃ lo', lo ≤ lo' ∧ RowChain.cleanUpLoop ((between A lo H.n).map H.marker) (H.baseOf lo)
      = some (H.chainOf A lo') ∧ H.Settled A lo'
  | 0, lo, hd, hle, hmod, _ => by
      obtain rfl : lo = H.n := by omega
      refine ⟨H.n, le_rfl, ?_, le_rfl, fun hA => absurd (hmod _ hA le_rfl).1 (lt_irrefl _), hmod⟩
      rw [chainOf, between_self]
      rfl
  | d + 1, lo, hd, hle, hmod, h0 => by
      have hlt : lo < H.n := by omega
      by_cases hA : lo ∈ A
      · -- the version `lo` has been seen, so that it is a change of the row at hand
        obtain _ | j := lo
        · exact absurd hA (h0 rfl)
        obtain ⟨-, hc⟩ := hmod _ hA le_rfl
        obtain ⟨hprev, changes, hparse, hupd⟩ := H.modified j hlt hc
        obtain ⟨lo', h1, h2, h3⟩ := cleanUpLoop_settles hS A d (j + 2) (by omega) hlt
          (fun k hk hle' => hmod k hk (by omega)) (by omega)
        refine ⟨lo', by omega, ?_, h3⟩
        have hts : (H.marker (j + 1)).prevTs = (H.row j).ts := by
          rw [row_ts (by omega), ← hprev]
          rfl
        have hreq : parseChangeset (H.marker (j + 1)).val (H.marker (j + 1)).reqLen
            = some changes := by
          rw [marker_reqLen (hS _ hlt hc)]
          exact hparse
        have hsub : (H.marker (j + 1)).ts - 1 = (H.record (j + 1)).ts :=
          or_one_sub_one (H.even _ hlt)
        rw [between_append A (Nat.le_succ (j + 1)) hlt, between_succ, if_pos hA,
          List.singleton_append, List.map_cons, baseOf, RowChain.cleanUpLoop, if_pos hts, hreq]
        simp only
        rw [hsub, hupd]
        exact h2
      · -- nothing follows on the row
        refine ⟨lo, le_rfl, ?_, hle, hA, hmod⟩
        match hb : between A lo H.n with
        | [] =>
            rw [chainOf, hb]
            rfl
        | k :: ks =>
            have hk : k ∈ between A lo H.n := by rw [hb]; exact List.mem_cons_self
            obtain ⟨hkA, hlk, hkn⟩ := mem_between.mp hk
            rw [chainOf, hb, List.map_cons]
            obtain _ | j := lo
            · rfl
            obtain ⟨-, hc⟩ := hmod k hkA hlk
            have hkj : k ≠ j + 1 := fun h => hA (h ▸ hkA)
            obtain _ | i := k
            · omega
            obtain ⟨hprev, -⟩ := H.modified i hkn hc
            have hne : (H.marker (i + 1)).prevTs ≠ (H.row j).ts := by
              rw [row_ts (by omega)]
              change (H.record (i + 1)).prevTs ≠ _
              rw [hprev]
              intro h
              have := ts_inj (by omega) (by omega) h
              omega
            rw [baseOf, RowChain.cleanUpLoop, if_neg hne]

/-! ## One more record -/

/-- The markers below version `t`, and the row under them. -/
def before (H : History) (A : List ℕ) (lo t : ℕ) : RowChain :=
  ⟨((between A lo t).map H.marker).reverse, H.baseOf lo⟩

lemma change_fresh {t : ℕ} (ht : t < H.n) (hc : (H.record t).command ≠ logcmdModify)
    (cur : RowChain) : (H.record t).change cur = some (H.version t) := by
  rcases H.command t ht with h | h | h
  · obtain ⟨changes, h1, h2⟩ := H.put t ht h
    rw [change, if_neg (by rw [h]; decide), if_pos hc, h1]
    simp only [h2, Option.map_some]
    rfl
  · rw [change, if_pos h, ← H.replaced t ht h]
    rfl
  · exact absurd h hc

lemma change_follow {j : ℕ} (hj : j + 1 < H.n)
    (hc : (H.record (j + 1)).command = logcmdModify) :
    (H.record (j + 1)).change (H.version j) = some (H.version (j + 1)) := by
  obtain ⟨h1, changes, h2, h3⟩ := H.modified j hj hc
  have h4 : (H.version j).headTs = some (H.record (j + 1)).prevTs := by
    rw [h1, ← row_ts (by omega)]
    rfl
  rw [change, if_neg (by rw [hc]; decide), if_neg (not_not.mpr hc), if_pos h4, h2]
  simp only [version, h3, Option.map_some]

lemma change_wait {t : ℕ} (hc : (H.record t).command = logcmdModify) {cur : RowChain}
    (h : cur.headTs ≠ some (H.record t).prevTs) :
    (H.record t).change cur = some ⟨H.marker t :: cur.markers, cur.base⟩ := by
  rw [change, if_neg (by rw [hc]; decide), if_neg (not_not.mpr hc), if_neg h]
  rfl

/-- In front of version `t` there are markers of earlier versions, or an earlier row, or
nothing. -/
lemma headTs_before (A : List ℕ) (lo t : ℕ) :
    (∃ k ∈ between A lo t, (H.before A lo t).headTs = some (H.marker k).ts) ∨
      between A lo t = [] ∧ (H.before A lo t).headTs = (H.baseOf lo).map ValueBag.ts := by
  rcases List.eq_nil_or_concat (between A lo t) with hb | ⟨ks, k, hb⟩
  · exact Or.inr ⟨hb, by simp [before, hb, RowChain.headTs]⟩
  · refine Or.inl ⟨k, by rw [hb]; simp, ?_⟩
    simp [before, hb, RowChain.headTs]

lemma not_outOfDate {A : List ℕ} {lo t : ℕ} (ht : t < H.n) (hlo : lo ≤ t) :
    ¬ (H.before A lo t).headTs.any fun s => (H.record t).ts ≤ s := by
  rcases headTs_before A lo t with ⟨k, hk, h⟩ | ⟨-, h⟩
  · obtain ⟨-, -, hkt⟩ := mem_between.mp hk
    have h1 := marker_ts (show k < H.n by omega)
    have h2 := (ts_lt_iff (show k < H.n by omega) ht).mpr hkt
    have h3 := H.even t ht
    have h4 := H.even k (by omega)
    rw [UInt64.lt_iff_toNat_lt] at h2
    rw [h, Option.any_some, decide_eq_true_eq, UInt64.le_iff_toNat_le]
    omega
  · rw [h]
    obtain _ | j := lo
    · simp [baseOf]
    · have h1 := (ts_lt_iff (show j < H.n by omega) ht).mpr hlo
      simp only [baseOf, Option.map_some, Option.any_some, decide_eq_true_eq,
        row_ts (show j < H.n by omega)]
      exact UInt64.not_le.mpr h1

/-- A record that is older than the row under the markers changes nothing. -/
lemma apply_of_lt {A : List ℕ} {lo t : ℕ} (hlt : t < lo) (hle : lo ≤ H.n) :
    (H.record t).apply (H.chainOf A lo) = some (H.chainOf A lo) := by
  have hall : ∀ m ∈ (H.chainOf A lo).markers, (H.record t).ts < m.ts := by
    intro m hm
    obtain ⟨k, hk, rfl⟩ := List.mem_map.mp (List.mem_reverse.mp hm)
    obtain ⟨-, h1, h2⟩ := mem_between.mp hk
    exact (lt_marker_iff (by omega) h2).mpr (by omega)
  have hdrop : (H.chainOf A lo).markers.dropWhile (fun m => (H.record t).ts < m.ts) = [] := by
    rw [List.dropWhile_eq_nil_iff]
    exact fun m hm => decide_eq_true (hall m hm)
  obtain _ | j := lo
  · omega
  have hts : (H.record t).ts ≤ (H.row j).ts := by
    rw [row_ts (by omega)]
    rcases Nat.lt_or_eq_of_le (Nat.le_of_lt_succ hlt) with h | h
    · exact UInt64.le_of_lt ((ts_lt_iff (by omega) (by omega)).mpr h)
    · rw [h]
      exact UInt64.le_refl _
  rw [apply]
  simp only [hdrop]
  rw [if_pos]
  simp [RowChain.headTs, chainOf, baseOf, hts]

/-- A record that is newer than the row goes behind the markers of later versions. -/
lemma apply_of_le {A : List ℕ} {lo t : ℕ} (ht : t < H.n) (hA : t ∉ A) (hlo : lo ≤ t) :
    (H.record t).apply (H.chainOf A lo) = ((H.record t).change (H.before A lo t)).bind
      fun new => RowChain.cleanUp
        ⟨((between A (t + 1) H.n).map H.marker).reverse ++ new.markers, new.base⟩ := by
  have hsplit : (H.chainOf A lo).markers = ((between A (t + 1) H.n).map H.marker).reverse
      ++ ((between A lo t).map H.marker).reverse := by
    rw [chainOf, between_append A hlo ht.le, between_append A (Nat.le_succ t) ht, between_succ,
      if_neg hA, List.nil_append, List.map_append, List.reverse_append]
  have hlate : ∀ m ∈ ((between A (t + 1) H.n).map H.marker).reverse,
      (decide ((H.record t).ts < m.ts)) = true := by
    intro m hm
    obtain ⟨k, hk, rfl⟩ := List.mem_map.mp (List.mem_reverse.mp hm)
    obtain ⟨-, h1, h2⟩ := mem_between.mp hk
    exact decide_eq_true ((lt_marker_iff ht h2).mpr (by omega))
  have hearly : ∀ m ∈ ((between A lo t).map H.marker).reverse,
      ¬ (decide ((H.record t).ts < m.ts)) = true := by
    intro m hm
    obtain ⟨k, hk, rfl⟩ := List.mem_map.mp (List.mem_reverse.mp hm)
    obtain ⟨-, h1, h2⟩ := mem_between.mp hk
    rw [decide_eq_true_eq, lt_marker_iff ht (by omega)]
    omega
  have htake : (H.chainOf A lo).markers.takeWhile (fun m => (H.record t).ts < m.ts)
      = ((between A (t + 1) H.n).map H.marker).reverse := by
    rw [hsplit, List.takeWhile_append_of_pos hlate]
    match hb : ((between A lo t).map H.marker).reverse with
    | [] => simp
    | m :: ms =>
        have := hearly m (by rw [hb]; exact List.mem_cons_self)
        rw [List.takeWhile_cons, if_neg this, List.append_nil]
  have hdrop : (H.chainOf A lo).markers.dropWhile (fun m => (H.record t).ts < m.ts)
      = ((between A lo t).map H.marker).reverse := by
    rw [hsplit, List.dropWhile_append_of_pos hlate]
    match hb : ((between A lo t).map H.marker).reverse with
    | [] => simp
    | m :: ms =>
        have := hearly m (by rw [hb]; exact List.mem_cons_self)
        rw [List.dropWhile_cons, if_neg this]
  have hcur : (⟨(H.chainOf A lo).markers.dropWhile (fun m => (H.record t).ts < m.ts),
      (H.chainOf A lo).base⟩ : RowChain) = H.before A lo t := by
    rw [hdrop]
    rfl
  rw [apply]
  simp only [hcur, htake]
  rw [if_neg (not_outOfDate ht hlo)]

/-- **One more record settles again.** -/
lemma apply_settled (hS : H.Short) {A : List ℕ} {lo t : ℕ} (hA : H.Settled A lo) (ht : t < H.n)
    (htA : t ∉ A) :
    ∃ lo', (H.record t).apply (H.chainOf A lo) = some (H.chainOf (t :: A) lo') ∧
      H.Settled (t :: A) lo' := by
  have hmod : ∀ lo', lo ≤ lo' → t < lo' ∨ (H.record t).command = logcmdModify →
      ∀ k ∈ t :: A, lo' ≤ k → k < H.n ∧ (H.record k).command = logcmdModify := by
    intro lo' h1 h2 k hk hle
    rcases List.mem_cons.mp hk with rfl | hk
    · exact ⟨ht, h2.resolve_left (by omega)⟩
    · exact hA.modify k hk (by omega)
  rcases Nat.lt_or_ge t lo with hlt | hge
  · refine ⟨lo, ?_, hA.le, ?_, hmod lo le_rfl (Or.inl hlt)⟩
    · rw [apply_of_lt hlt hA.le, chainOf, chainOf, between_cons_of_not_mem A (Or.inl hlt)]
    · rw [List.mem_cons, not_or]
      exact ⟨by omega, hA.fresh⟩
  -- what is left to clean up once `t` is the row under the markers
  have hbase : ∃ lo', RowChain.cleanUp
      ⟨((between A (t + 1) H.n).map H.marker).reverse, some (H.row t)⟩
        = some (H.chainOf (t :: A) lo') ∧ H.Settled (t :: A) lo' := by
    obtain ⟨lo', -, h1, h2⟩ := cleanUpLoop_settles hS (t :: A) _ (t + 1) rfl ht
      (hmod (t + 1) (by omega) (Or.inl (Nat.lt_succ_self t))) (by omega)
    rw [between_cons_of_not_mem A (Or.inl (Nat.lt_succ_self t))] at h1
    refine ⟨lo', ?_, h2⟩
    rw [RowChain.cleanUp, List.reverse_reverse]
    exact h1
  rw [apply_of_le ht htA hge]
  by_cases hc : (H.record t).command = logcmdModify
  · by_cases hnext : lo = t ∧ t ≠ 0
    · -- the record follows on the row under the markers
      obtain ⟨rfl, h0⟩ := hnext
      obtain _ | j := lo
      · exact absurd rfl h0
      have hb : H.before A (j + 1) (j + 1) = H.version j := by
        rw [before, between_self]
        rfl
      rw [hb, change_follow ht hc]
      simpa [version] using hbase
    · -- it waits in a marker
      have hwait : (H.before A lo t).headTs ≠ some (H.record t).prevTs := by
        obtain _ | i := t
        · exact absurd hc H.first
        rw [(H.modified i ht hc).1]
        rcases headTs_before A lo (i + 1) with ⟨k, hk, h⟩ | ⟨-, h⟩
        · obtain ⟨-, -, hkt⟩ := mem_between.mp hk
          rw [h]
          exact fun h0 => marker_ts_ne (by omega) (by omega) (Option.some.inj h0)
        · rw [h]
          obtain _ | j := lo
          · simp [baseOf]
          · rw [baseOf, Option.map_some, row_ts (by omega)]
            intro h0
            have := ts_inj (by omega) (by omega) (Option.some.inj h0)
            exact hnext ⟨by omega, by omega⟩
      rw [change_wait hc hwait]
      rw [Option.bind_some]
      have h0 : lo = 0 → 0 ∉ t :: A := by
        rintro rfl
        rw [List.mem_cons, not_or]
        refine ⟨?_, hA.fresh⟩
        rintro rfl
        exact H.first hc
      obtain ⟨lo', -, h1, h2⟩ := cleanUpLoop_settles hS (t :: A) _ lo rfl hA.le
        (hmod lo le_rfl (Or.inr hc)) h0
      refine ⟨lo', ?_, h2⟩
      rw [← h1, RowChain.cleanUp, between_append (t :: A) hge ht.le,
        between_append (t :: A) (Nat.le_succ t) ht, between_succ, if_pos List.mem_cons_self,
        between_cons_of_not_mem A (Or.inl (Nat.lt_succ_self t)),
        between_cons_of_not_mem A (Or.inr le_rfl)]
      simp [before]
  · rw [change_fresh ht hc]
    simpa [version] using hbase

/-- The records of `order`, after those of `A`. -/
lemma applyAll_settled (hS : H.Short) : ∀ (order A : List ℕ) (lo : ℕ), H.Settled A lo →
    (order ++ A).Nodup → (∀ t ∈ order, t < H.n) →
    ∃ lo', applyAll (order.map H.record) (H.chainOf A lo) =
      some (H.chainOf (order.reverse ++ A) lo')
      ∧ H.Settled (order.reverse ++ A) lo'
  | [], A, lo, hA, _, _ => ⟨lo, rfl, hA⟩
  | t :: order, A, lo, hA, hnd, hlt => by
      have hnd' : (order ++ t :: A).Nodup := by
        rw [List.nodup_middle]
        exact hnd
      have htA : t ∉ A := fun h => (List.nodup_cons.mp hnd).1 (List.mem_append_right _ h)
      obtain ⟨lo₁, h1, h2⟩ := apply_settled hS hA (hlt t List.mem_cons_self) htA
      obtain ⟨lo₂, h3, h4⟩ := applyAll_settled hS order (t :: A) lo₁ h2 hnd'
        (fun s hs => hlt s (List.mem_cons_of_mem _ hs))
      refine ⟨lo₂, ?_, ?_⟩
      · rw [List.map_cons, applyAll, h1, Option.bind_some, h3, List.reverse_cons,
          List.append_assoc]
        rfl
      · rw [List.reverse_cons, List.append_assoc]
        exact h4

lemma confluent_of_short (hS : H.Short) : H.Confluent := by
  intro order hperm start hstart
  obtain ⟨lo, hlo, hset⟩ : ∃ lo, start = H.chainOf [] lo ∧ H.Settled [] lo := by
    have hb : ∀ a b, between [] a b = [] := by simp [between]
    rcases hstart with rfl | ⟨i, hi, rfl⟩
    · refine ⟨0, ?_, Nat.zero_le _, by simp, by simp⟩
      rw [chainOf, hb]
      rfl
    · refine ⟨i + 1, ?_, hi, by simp, by simp⟩
      rw [chainOf, hb]
      rfl
  have hlt : ∀ t ∈ order, t < H.n := fun t ht => List.mem_range.mp (hperm.mem_iff.mp ht)
  obtain ⟨lo', h1, h2⟩ := applyAll_settled hS order [] lo hset
    (by rw [List.append_nil]; exact hperm.nodup_iff.mpr List.nodup_range) hlt
  -- every version has been seen, so that only the end is fresh
  have hend : lo' = H.n := by
    by_contra hne
    refine h2.fresh ?_
    rw [List.append_nil, List.mem_reverse, hperm.mem_iff, List.mem_range]
    exact lt_of_le_of_ne h2.le hne
  obtain ⟨m, hm⟩ : ∃ m, H.n = m + 1 := ⟨H.n - 1, by have := H.pos; omega⟩
  rw [hlo, h1, hend, chainOf, between_self, hm]
  rfl

/-! ## A change that loses its length -/

lemma parseChangesetLoop_of_neg {mem : Bytes} {len : ℤ} (h : len < 0) :
    ∀ fuel pos, parseChangesetLoop mem len fuel pos = none
  | 0, _ => rfl
  | fuel + 1, pos => by
      have hpos : (pos : ℤ) ≠ len := by omega
      rw [parseChangesetLoop, if_neg hpos]
      match Msgpack.readUnsigned (mem.drop pos) with
      | none => rfl
      | some (index, rest) =>
          match hs : Msgpack.readStr rest with
          | none => simp only [hs]
          | some (value, rest') =>
              simp only [hs, parseChangesetLoop_of_neg h fuel, Option.map_none]

/-- The length of the marker's column has wrapped around. -/
def Lost (H : History) (k : ℕ) : Prop :=
  65511 < (H.record k).val.length ∧ (H.record k).val.length < 65536

lemma parse_lost {k : ℕ} (h : H.Lost k) :
    parseChangeset (H.marker k).val (H.marker k).reqLen = none := by
  refine parseChangesetLoop_of_neg ?_ _ _
  obtain ⟨h1, h2⟩ := h
  have h3 : (DeltaMarker.markerSize + (H.record k).val.length) % 2 ^ 16
      = DeltaMarker.markerSize + (H.record k).val.length - 65536 := by
    simp only [DeltaMarker.markerSize]
    omega
  simp only [DeltaMarker.reqLen, marker, h3]
  simp only [DeltaMarker.markerSize]
  omega

lemma between_singleton {k a b : ℕ} (h1 : a ≤ k) (h2 : k < b) : between [k] a b = [k] := by
  rw [between_append [k] h1 h2.le, between_append [k] (Nat.le_succ k) h2, between_succ,
    if_pos List.mem_cons_self, between_cons_of_not_mem [] (Or.inr le_rfl),
    between_cons_of_not_mem [] (Or.inl (Nat.lt_succ_self k))]
  simp [between]

/-- While the marker of `k` waits, the versions before `k` are applied in their order. -/
lemma apply_below {k i : ℕ} (hk : k < H.n) (hc : (H.record k).command = logcmdModify)
    (hlost : H.Lost k) (hi : i < k) :
    (H.record i).apply (H.chainOf [k] i) =
      if i + 1 = k then none else some (H.chainOf [k] (i + 1)) := by
  have hne : i ∉ [k] := by simp; omega
  have hchange : (H.record i).change (H.before [k] i i) = some (H.version i) := by
    by_cases hm : (H.record i).command = logcmdModify
    · obtain _ | j := i
      · exact absurd hm H.first
      · have hb : H.before [k] (j + 1) (j + 1) = H.version j := by
          rw [before, between_self]
          rfl
        rw [hb, change_follow (by omega) hm]
    · exact change_fresh (by omega) hm _
  obtain _ | m := k
  · omega
  obtain ⟨hprev, -⟩ := H.modified m hk hc
  rw [apply_of_le (by omega) hne le_rfl, hchange, Option.bind_some,
    between_singleton (by omega) hk]
  simp only [version, List.map_cons, List.map_nil, List.append_nil, RowChain.cleanUp,
    List.reverse_reverse]
  rw [RowChain.cleanUpLoop]
  by_cases him : i = m
  · have hts : (H.marker (m + 1)).prevTs = (H.row i).ts := by
      rw [row_ts (by omega), him, ← hprev]
      rfl
    rw [if_pos hts, parse_lost hlost, if_pos (by omega)]
  · have hts : (H.marker (m + 1)).prevTs ≠ (H.row i).ts := by
      rw [row_ts (by omega)]
      change (H.record (m + 1)).prevTs ≠ _
      rw [hprev]
      exact fun h => him (ts_inj (by omega) (by omega) h.symm)
    rw [if_neg hts, if_neg (by omega), chainOf, between_singleton (by omega) hk]
    rfl

lemma applyAll_append (l l' : List LogRecord) (c : RowChain) :
    applyAll (l ++ l') c = (applyAll l c).bind (applyAll l') := by
  induction l generalizing c with
  | nil => rfl
  | cons lr l ih =>
      simp only [List.cons_append, applyAll]
      cases lr.apply c with
      | none => rfl
      | some c' => exact ih c'

lemma applyAll_below {k : ℕ} (hk : k < H.n) (hc : (H.record k).command = logcmdModify)
    (hlost : H.Lost k) : ∀ d i, d + i + 1 = k →
    applyAll ((List.range' i (d + 1)).map H.record) (H.chainOf [k] i) = none
  | 0, i, hd => by
      simp only [List.range', List.map_cons, List.map_nil, applyAll]
      rw [apply_below hk hc hlost (by omega), if_pos (by omega)]
      rfl
  | d + 1, i, hd => by
      rw [List.range'_succ, List.map_cons, applyAll, apply_below hk hc hlost (by omega),
        if_neg (by omega), Option.bind_some]
      exact applyAll_below hk hc hlost d (i + 1) (by omega)

/-- A change whose marker loses its length cannot arrive before its predecessor. -/
lemma not_confluent_of_lost {k : ℕ} (hk : k < H.n) (hc : (H.record k).command = logcmdModify)
    (hlost : H.Lost k) : ¬ H.Confluent := by
  intro hconf
  obtain _ | m := k
  · exact H.first hc
  have hperm : ((m + 1) :: List.range (m + 1) ++ List.range' (m + 2) (H.n - (m + 2))).Perm
      (List.range H.n) := by
    have hsplit : List.range H.n
        = List.range (m + 1) ++ (m + 1) :: List.range' (m + 2) (H.n - (m + 2)) := by
      have h0 : (m + 1) :: List.range' (m + 2) (H.n - (m + 2))
          = List.range' (m + 1) (H.n - (m + 2) + 1) := rfl
      rw [List.range_eq_range', List.range_eq_range', h0]
      have h1 := @List.range'_append_1 0 (m + 1) (H.n - (m + 2) + 1)
      rw [Nat.zero_add] at h1
      rw [h1]
      congr 1
      omega
    rw [hsplit]
    exact List.perm_middle.symm
  have h := hconf _ hperm RowChain.absent (Or.inl rfl)
  have hstart : (H.record (m + 1)).apply RowChain.absent = some (H.chainOf [m + 1] 0) := by
    have habs : RowChain.absent = H.chainOf [] 0 := by
      simp [RowChain.absent, chainOf, between, baseOf]
    have hwait : (H.before [] 0 (m + 1)).headTs ≠ some (H.record (m + 1)).prevTs := by
      simp [before, between, RowChain.headTs, baseOf]
    rw [habs, apply_of_le hk (by simp) (Nat.zero_le _), change_wait hc hwait, Option.bind_some,
      chainOf, between_singleton (Nat.zero_le _) hk]
    simp [before, between, baseOf, RowChain.cleanUp, RowChain.cleanUpLoop]
  have hnone := applyAll_below hk hc hlost m 0 (by omega)
  rw [List.cons_append, List.map_cons, applyAll, hstart, Option.bind_some, List.map_append,
    applyAll_append, List.range_eq_range', hnone] at h
  cases h

/-- **Replaying a key's records in any order.**  The order does not matter as long as no change
is so long that its delta marker loses its length; a change of 65512 to 65535 bytes is lost if it
arrives before its predecessor. -/
theorem confluent_of_short_changes (H : History) :
    (H.Short → H.Confluent) ∧
      ∀ k < H.n, (H.record k).command = logcmdModify → H.Lost k → ¬ H.Confluent :=
  ⟨confluent_of_short, fun _ hk hc hlost => not_confluent_of_lost hk hc hlost⟩

/-! ## Two versions -/

/-- A replaced value and a change of it. -/
def pair (value val : Bytes) (changes : List Change) (row : ValueBag)
    (hparse : parseChangeset val val.length = some changes)
    (hrow : (ValueBag.create1 value 2).update changes 4 = some row) : History where
  n := 2
  record
    | 0 => ⟨logcmdReplace, [107], value, 2, 0, 0⟩
    | _ + 1 => ⟨logcmdModify, [107], val, 4, 2, 0⟩
  row
    | 0 => ValueBag.create1 value 2
    | _ + 1 => row
  pos := Nat.zero_lt_two
  even i hi := by
    interval_cases i
    · exact (by decide : (2 : UInt64).toNat % 2 = 0)
    · exact (by decide : (4 : UInt64).toNat % 2 = 0)
  increasing i j hij hj := by
    obtain ⟨rfl, rfl⟩ : i = 0 ∧ j = 1 := by omega
    exact (by decide : (2 : UInt64) < 4)
  first := (by decide : logcmdReplace ≠ logcmdModify)
  command i hi := by
    interval_cases i
    · exact Or.inr (Or.inl rfl)
    · exact Or.inr (Or.inr rfl)
  replaced i hi hc := by
    interval_cases i
    · rfl
    · exact absurd hc (by decide : logcmdModify ≠ logcmdReplace)
  put i hi hc := by
    interval_cases i
    · exact absurd hc (by decide : logcmdReplace ≠ logcmdPut)
    · exact absurd hc (by decide : logcmdModify ≠ logcmdPut)
  modified i hi hc := by
    obtain rfl : i = 0 := by omega
    exact ⟨rfl, changes, hparse, hrow⟩

/-- A change of one short column. -/
def shortPair : History :=
  pair [120] [0, 0xA1, 121] [(0, [121])] ⟨4, [[121]]⟩ (by decide) (by decide)

/-- The two records of `shortPair` arrive in either order. -/
theorem shortPair_confluent : shortPair.Short ∧ shortPair.Confluent := by
  have hshort : shortPair.Short := by
    intro i hi hc
    obtain _ | i := i
    · exact absurd hc (by decide)
    · exact (by decide : ([0, 0xA1, 121] : Bytes).length ≤ 65511)
  exact ⟨hshort, (confluent_of_short_changes shortPair).1 hshort⟩

/-- The change that sets column 0 to a string of 65520 bytes, in msgpack. -/
def longChange (column : Bytes) : Bytes := 0 :: 0xDA :: 0xFF :: 0xF0 :: column

section

variable {column : Bytes} (hlen : column.length = 65520)

include hlen

lemma longChange_length : (longChange column).length = 65524 := by
  simp only [longChange, List.length_cons, hlen]

lemma parse_longChange :
    parseChangeset (longChange column) (longChange column).length = some [(0, column)] := by
  have hint : Msgpack.readUnsigned (longChange column)
      = some (0, 0xDA :: 0xFF :: 0xF0 :: column) := by
    simp [longChange, Msgpack.readUnsigned, Msgpack.readInt, Msgpack.isFixint, loadSignedBE,
      loadBE, valueLE]
  have hheader : Msgpack.readStrHeader (0xDA :: 0xFF :: 0xF0 :: column)
      = some (65520, column) := by
    simp [Msgpack.readStrHeader, Msgpack.isFixstr, Msgpack.strFormat, loadBE, valueLE]
  have hstr : Msgpack.readStr (0xDA :: 0xFF :: 0xF0 :: column) = some (column, []) := by
    simp [Msgpack.readStr, hheader, hlen, List.take_of_length_le hlen.le,
      List.drop_of_length_le hlen.le]
  have hpos : ((0 : ℕ) : ℤ) ≠ (longChange column).length := by
    rw [longChange_length hlen]
    decide
  rw [parseChangeset, parseChangesetLoop, if_neg hpos, List.drop_zero, hint]
  simp only [hstr, List.length_nil, Nat.sub_zero]
  rw [longChange_length hlen, parseChangesetLoop, if_pos rfl, Option.map_some]

lemma update_longChange :
    (ValueBag.create1 [120] 2).update [(0, column)] 4 = some ⟨4, [column]⟩ := by
  have hfits : ValueBag.Fits [column] := by
    simp [ValueBag.Fits, ValueBag.endOffset, hlen]
  have hold : ValueBag.Fits (ValueBag.create1 [120] 2).cols := by decide
  have hloop : ValueBag.updateLoop (ValueBag.create1 [120] 2).cols 1 0 [(0, column)]
      = some [column] := by
    simp [ValueBag.updateLoop, ValueBag.oldColumns]
  have hnarrow : narrow [(0, column)] = [(0, column)] := rfl
  have hncol : ValueBag.newNcol (ValueBag.create1 [120] 2).cols.length [(0, column)]
      (ValueBag.create1 [120] 2).cols.length = 1 := rfl
  rw [ValueBag.update, if_neg (not_not.mpr hold)]
  simp only [hnarrow, hncol, hloop, if_pos hfits]
  rw [if_neg]
  rw [hlen]
  decide

/-- A change of one long column. -/
def longPair : History :=
  pair [120] (longChange column) [(0, column)] ⟨4, [column]⟩ (parse_longChange hlen)
    (update_longChange hlen)

lemma longPair_lost : (longPair hlen).Lost 1 := by
  have h : ((longPair hlen).record 1).val.length = 65524 := longChange_length hlen
  rw [Lost, h]
  decide

end

/-- The change arrives before the value it changes: its marker has lost the length of the
request, and the request is never found. -/
theorem longPair_not_confluent :
    ¬ (@longPair (List.replicate 65520 120) List.length_replicate).Confluent :=
  not_confluent_of_lost Nat.one_lt_two rfl (longPair_lost _)

end History

end MasstreeLHM
