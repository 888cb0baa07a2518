import MasstreeLHM.Suffixes.Stringbag
import MasstreeLHM.Node
import Mathlib.Algebra.Group.Action.Defs
import Mathlib.Algebra.Order.BigOperators.Group.List
import Mathlib.Data.List.Perm.Subperm
import Mathlib.Data.Nat.Log

/-!
# The suffixes of a leaf

A leaf keeps its key suffixes in a string bag behind the leaf, if it was made with room for one,
until a suffix does not fit; then and later `assign_ksuf` copies the suffixes that are in use to a
new bag of their own.

`SuffixStore` are the two bags, without the other fields of the leaf.  `assignKsuf` follows the
source: it tries the bag in use, and if the string does not fit it computes the size of a new bag
from the suffixes that it has to copy (`SuffixStore.grow`).  Which positions are in use is an
argument, and so is what `keylenx_` says of them.

`make_spec` is a new leaf.  `grow_spec` says that the new bag has room, so that no assertion fails,
and has the copied suffixes and the new one.  **`assignKsuf_spec`** stores a suffix and keeps the
suffixes in use, and **`assignInitialize_spec`** does the same for the positions of a leaf that is
being filled, one after another.
-/

namespace MasstreeLHM

/-- `iksuf_`, where there is one, and `ksuf_`.  `extrasize64_` is positive as long as the former is
there and the latter is not. -/
structure SuffixStore where
  iksuf : Option (Stringbag 1)
  ksuf : Option (Stringbag 2)

instance : Inhabited SuffixStore := ⟨⟨none, none⟩⟩

/-- The longest suffix: that of a key of `MASSTREE_MAXKEYLEN` bytes. -/
def maxSuffixLen : ℕ := 1024 - 8

/-- `iceil`. -/
def iceil (x y : ℕ) : ℕ := x + if x % y = 0 then 0 else y - x % y

/-- `iceil_log2`. -/
def iceilLog2 (x : ℕ) : ℕ := 2 ^ Nat.clog 2 x

namespace SuffixStore

/-- What `leaf::make` and the constructor of a leaf set up, for a leaf of `leafSize` bytes. -/
def make (leafSize width ksufsize : ℕ) : Option SuffixStore :=
  let sz := iceil (leafSize + min ksufsize 128) 64
  if (leafSize + 63) / 64 < sz / 64 then
    (Stringbag.make 1 width (sz - leafSize)).map fun b => ⟨some b, none⟩
  else some ⟨none, none⟩

/-- `leaf::ksuf`; without a bag there is nothing to read. -/
def get (st : SuffixStore) (p : ℕ) : Option Bytes :=
  match st.ksuf with
  | some b => some (b.get p)
  | none => st.iksuf.map fun b => b.get p

/-- `ksuf_used_capacity`. -/
def usedCapacity (st : SuffixStore) : ℕ :=
  match st.ksuf with
  | some b => b.size
  | none => match st.iksuf with
    | some b => b.size
    | none => 0

/-- `assign` of the bag in use. -/
def assign (st : SuffixStore) (p : ℕ) (a : Bytes) : Option SuffixStore :=
  match st.ksuf with
  | some b => (b.assign p a).map fun b => { st with ksuf := some b }
  | none => match st.iksuf with
    | some b => (b.assign p a).map fun b => { st with iksuf := some b }
    | none => none

/-- Store strings one after another. -/
def assignAll (b : Stringbag 2) (as : List (ℕ × Bytes)) : Option (Stringbag 2) :=
  as.foldlM (fun b a => b.assign a.1 a.2) b

/-- The new bag of `assign_ksuf`: `copied` are the positions whose suffixes are copied. -/
def grow (width : ℕ) (st : SuffixStore) (copied : List ℕ) (p : ℕ) (a : Bytes) :
    Option SuffixStore := do
  let olds ← copied.mapM fun q => (st.get q).map fun t => (q, t)
  let sz := iceilLog2 (Stringbag.safeSize 2 width ((olds.map fun o => o.2.length).sum + a.length))
  let sz := match st.ksuf with
    | some b => max sz b.capacity
    | none => sz
  let nksuf ← Stringbag.make 2 width sz
  let nksuf ← assignAll nksuf (olds ++ [(p, a)])
  return { st with ksuf := some nksuf }

/-- `assign_ksuf`, with its assertions: the suffixes at the positions `active` are in use, and
`hasKsuf` reads `keylenx_`. -/
def assignKsuf (width : ℕ) (st : SuffixStore) (active : List ℕ) (hasKsuf : ℕ → Bool)
    (modstate : Modstate) (p : ℕ) (a : Bytes) : Option SuffixStore :=
  match st.assign p a with
  | some st => some st
  | none =>
      if modstate = .remove then none
      else st.grow width (active.filter fun q => q != p && hasKsuf q) p a

/-- The suffixes of a new leaf, `assign_initialize` at one position after another: `active` are the
positions before. -/
def assignInitialize (width : ℕ) (st : SuffixStore) (suffixes : List (Option Bytes)) :
    Option SuffixStore :=
  (List.range suffixes.length).foldlM (fun st p =>
    match suffixes.getD p none with
    | none => some st
    | some a =>
        st.assignKsuf width (List.range p) (fun q => (suffixes.getD q none).isSome) .insert p a) st

/-- The bags in use are in order, and not larger than needed. -/
structure Ok (width : ℕ) (st : SuffixStore) : Prop where
  iksuf : ∀ b ∈ st.iksuf, b.Ok width
  ksuf : ∀ b ∈ st.ksuf, b.Ok width ∧ b.capacity ≤ 2 ^ 14

end SuffixStore

lemma mapM_eq_some {α γ : Type} {f : α → Option γ} {g : α → γ} : ∀ {xs : List α},
    (∀ x ∈ xs, f x = some (g x)) → xs.mapM f = some (xs.map g)
  | [], _ => rfl
  | x :: xs, h => by
      rw [List.mapM_cons, h x List.mem_cons_self, mapM_eq_some fun y hy =>
        h y (List.mem_cons_of_mem _ hy)]
      rfl

/-- A suffix: not empty, and not longer than the keys allow. -/
def IsSuffix (a : Bytes) : Prop := 0 < a.length ∧ a.length ≤ maxSuffixLen

namespace SuffixStore

variable {width : ℕ}

lemma iceil_spec (x : ℕ) : x ≤ iceil x 64 ∧ iceil x 64 < x + 64 ∧ iceil x 64 % 64 = 0 := by
  rw [iceil]
  split_ifs <;> omega

/-- **A new leaf** has its bags in order. -/
lemma make_spec (leafSize ksufsize : ℕ) (hw : width ≤ 15) :
    ∃ st, make leafSize width ksufsize = some st ∧ st.Ok width := by
  obtain ⟨h1, h2, h3⟩ := iceil_spec (leafSize + min ksufsize 128)
  have hover : Stringbag.overhead 1 width ≤ 32 := by
    simp only [Stringbag.overhead]
    omega
  simp only [make]
  split_ifs with hlt
  · obtain ⟨b, hb, hok, -⟩ := Stringbag.make_spec 1 width
      (iceil (leafSize + min ksufsize 128) 64 - leafSize) (by omega) (by omega) (by omega)
    refine ⟨⟨some b, none⟩, by rw [hb]; rfl, ?_, by simp⟩
    rintro _ ⟨⟩
    exact hok
  · exact ⟨_, rfl, by simp, by simp⟩

/-- Storing strings at different positions of a bag with room for them. -/
lemma assignAll_spec : ∀ (as : List (ℕ × Bytes)) {b : Stringbag 2}, b.Ok width →
    (as.map Prod.fst).Nodup → (∀ a ∈ as, a.1 < width ∧ 0 < a.2.length) →
    b.size + (as.map fun a => a.2.length).sum + 7 ≤ b.capacity →
    ∃ b', assignAll b as = some b' ∧ b'.Ok width ∧ b'.capacity = b.capacity ∧
      (∀ a ∈ as, b'.get a.1 = a.2) ∧ ∀ q, q ∉ as.map Prod.fst → b'.get q = b.get q
  | [], b, hb, _, _, _ => ⟨b, rfl, hb, rfl, by simp, fun _ _ => rfl⟩
  | a :: as, b, hb, hnd, hlt, hcap => by
      obtain ⟨hp, ha⟩ := hlt a List.mem_cons_self
      rw [List.map_cons, List.nodup_cons] at hnd
      rw [List.map_cons, List.sum_cons] at hcap
      obtain ⟨b₁, h1⟩ := Stringbag.exists_assign (b := b) (p := a.1) (a := a.2) (by omega)
      obtain ⟨g1, g2, g3, g4, g5⟩ := Stringbag.assign_spec hb hp h1
      obtain ⟨b', e1, e2, e3, e4, e5⟩ := assignAll_spec as g1 hnd.2
        (fun c hc => hlt c (List.mem_cons_of_mem _ hc)) (by omega)
      refine ⟨b', ?_, e2, e3.trans g4, ?_, ?_⟩
      · rw [assignAll, List.foldlM_cons, h1]
        exact e1
      · intro c hc
        rcases List.mem_cons.mp hc with rfl | hc
        · rw [e5 _ hnd.1, g2]
        · exact e4 c hc
      · intro q hq
        rw [List.map_cons, List.mem_cons, not_or] at hq
        rw [e5 q hq.2, g3 q hq.1]

variable {st st' : SuffixStore} {p : ℕ} {a : Bytes}

lemma assign_spec (hst : st.Ok width) (hp : p < width) (h : st.assign p a = some st') :
    st'.Ok width ∧ st'.get p = some a ∧ ∀ q, q ≠ p → st'.get q = st.get q := by
  rw [assign] at h
  cases hk : st.ksuf with
  | some b =>
      rw [hk] at h
      obtain ⟨b', h1, rfl⟩ := Option.map_eq_some_iff.mp h
      obtain ⟨hb, hcap⟩ := hst.ksuf b hk
      obtain ⟨g1, g2, g3, g4, -⟩ := Stringbag.assign_spec hb hp h1
      refine ⟨⟨hst.iksuf, ?_⟩, by simp [get, g2], fun q hq => by simp [get, hk, g3 q hq]⟩
      rintro _ ⟨⟩
      exact ⟨g1, g4.trans_le hcap⟩
  | none =>
      rw [hk] at h
      cases hi : st.iksuf with
      | none => simp [hi] at h
      | some b =>
          simp only [hi] at h
          obtain ⟨b', h1, rfl⟩ := Option.map_eq_some_iff.mp h
          obtain ⟨g1, g2, g3, g4, -⟩ := Stringbag.assign_spec (hst.iksuf b hi) hp h1
          refine ⟨⟨?_, by simp⟩, by simp [get, g2], fun q hq => by simp [get, hk, hi, g3 q hq]⟩
          rintro _ ⟨⟩
          exact g1

/-- Reading the suffixes that are copied. -/
lemma mapM_get {f : ℕ → Bytes} {qs : List ℕ} (h : ∀ q ∈ qs, st.get q = some (f q)) :
    (qs.mapM fun q => (st.get q).map fun t => (q, t)) = some (qs.map fun q => (q, f q)) :=
  mapM_eq_some fun q hq => by rw [h q hq]; rfl

/-- **The new bag** has the suffixes that were copied, and the new one. -/
lemma grow_spec (hst : st.Ok width) (hw : width ≤ 15) (hp : p < width)
    (ha : IsSuffix a) {qs : List ℕ} (hnd : qs.Nodup) (hpq : p ∉ qs) (hqs : ∀ q ∈ qs, q < width ∧
      ∃ t, st.get q = some t ∧ IsSuffix t) :
    ∃ st', st.grow width qs p a = some st' ∧ st'.Ok width ∧ st'.get p = some a ∧
      ∀ q ∈ qs, st'.get q = st.get q := by
  set f : ℕ → Bytes := fun q => (st.get q).getD [] with hf
  have hget : ∀ q ∈ qs, st.get q = some (f q) ∧ IsSuffix (f q) := by
    intro q hq
    obtain ⟨-, t, h1, h2⟩ := hqs q hq
    exact ⟨by simp [hf, h1], by simpa [hf, h1] using h2⟩
  set olds := qs.map fun q => (q, f q) with holds
  have hfst : (olds ++ [(p, a)]).map Prod.fst = qs ++ [p] := by
    simp [holds, Function.comp_def]
  -- how much there is to store
  have hlen : qs.length ≤ width := by
    have hsub : qs ⊆ List.range width := fun q hq => List.mem_range.mpr (hqs q hq).1
    have := (hnd.subperm hsub).length_le
    rwa [List.length_range] at this
  have hsum : (olds.map fun o => o.2.length).sum ≤ 15 * 1016 := by
    have h1 :
      (olds.map fun o => o.2.length).sum ≤ (olds.map fun o => o.2.length).length • 1016 := by
      refine List.sum_le_card_nsmul _ _ fun n hn => ?_
      obtain ⟨o, ho, rfl⟩ := List.mem_map.mp hn
      obtain ⟨q, hq, rfl⟩ := List.mem_map.mp ho
      exact (hget q hq).2.2
    rw [List.length_map, holds, List.length_map, smul_eq_mul] at h1
    exact h1.trans (Nat.mul_le_mul_right _ (hlen.trans hw))
  have ha2 : a.length ≤ 1016 := ha.2
  set need := Stringbag.safeSize 2 width ((olds.map fun o => o.2.length).sum + a.length) with hneed
  have hneed1 : need = 4 + width * 4 + ((olds.map fun o => o.2.length).sum + a.length) + 7 := rfl
  have hlog : need ≤ iceilLog2 need := Nat.le_pow_clog (by decide) _
  have hlog' : iceilLog2 need ≤ 2 ^ 14 :=
    Nat.pow_le_pow_right (by decide) (Nat.clog_le_of_le_pow (by omega))
  set sz := match st.ksuf with
    | some b => max (iceilLog2 need) b.capacity
    | none => iceilLog2 need with hsz
  have hsz1 : iceilLog2 need ≤ sz ∧ sz ≤ 2 ^ 14 := by
    rw [hsz]
    cases hk : st.ksuf with
    | none => exact ⟨le_rfl, hlog'⟩
    | some b => exact ⟨le_max_left _ _, max_le hlog' (hst.ksuf b hk).2⟩
  have hover : Stringbag.overhead 2 width = 4 + width * 4 := rfl
  obtain ⟨b, h1, h2, h3, h4, -⟩ := Stringbag.make_spec 2 width sz (by omega) (by omega) (by omega)
  obtain ⟨b', g1, g2, g3, g4, -⟩ := assignAll_spec (olds ++ [(p, a)]) h2
    (by
      rw [hfst]
      exact List.Nodup.append hnd (List.nodup_singleton p) (by simpa using hpq))
    (by
      intro o ho
      rcases List.mem_append.mp ho with ho | ho
      · obtain ⟨q, hq, rfl⟩ := List.mem_map.mp ho
        exact ⟨(hqs q hq).1, (hget q hq).2.1⟩
      · rw [List.mem_singleton.mp ho]
        exact ⟨hp, ha.1⟩)
    (by
      rw [List.map_append, List.sum_append, List.map_singleton, List.sum_singleton]
      change _ + (_ + a.length) + 7 ≤ _
      omega)
  refine ⟨{ st with ksuf := some b' }, ?_, ⟨hst.iksuf, ?_⟩, ?_, ?_⟩
  · rw [grow, mapM_get fun q hq => (hget q hq).1]
    simp only [Option.bind_eq_bind, Option.bind_some]
    rw [← hneed, ← hsz, h1, Option.bind_some, g1]
    rfl
  · rintro _ ⟨⟩
    exact ⟨g2, by omega⟩
  · have := g4 (p, a) (List.mem_append_right _ (List.mem_singleton_self _))
    simp [get, this]
  · intro q hq
    have := g4 (q, f q) (List.mem_append_left _ (List.mem_map_of_mem hq))
    rw [(hget q hq).1]
    simp [get, this]

/-- A new bag leaves the internal one alone. -/
lemma grow_iksuf {qs : List ℕ} (h : st.grow width qs p a = some st') :
    st'.iksuf = st.iksuf ∧ st'.ksuf.isSome := by
  simp only [grow, Option.bind_eq_bind, Option.bind_eq_some_iff, Option.pure_def,
    Option.some.injEq] at h
  obtain ⟨_, -, _, -, _, -, rfl⟩ := h
  exact ⟨rfl, rfl⟩

/-- **`assign_ksuf`** stores the suffix, and keeps the suffixes in use. -/
lemma assignKsuf_spec (hst : st.Ok width) (hw : width ≤ 15) (hp : p < width) (ha : IsSuffix a)
    (active : List ℕ) (hasKsuf : ℕ → Bool) (modstate : Modstate) (hmod : modstate ≠ .remove)
    (hnd : active.Nodup)
    (hact : ∀ q ∈ active, q < width ∧ (hasKsuf q = true → ∃ t, st.get q = some t ∧ IsSuffix t)) :
    ∃ st', st.assignKsuf width active hasKsuf modstate p a = some st' ∧ st'.Ok width ∧
      st'.get p = some a ∧ ∀ q ∈ active, q ≠ p → hasKsuf q = true → st'.get q = st.get q := by
  rw [assignKsuf]
  cases h : st.assign p a with
  | some st' =>
      obtain ⟨h1, h2, h3⟩ := assign_spec hst hp h
      exact ⟨st', rfl, h1, h2, fun q _ hq _ => h3 q hq⟩
  | none =>
      have hmem : ∀ q, q ∈ active.filter (fun q => q != p && hasKsuf q) ↔
          q ∈ active ∧ q ≠ p ∧ hasKsuf q = true := by
        intro q
        simp [List.mem_filter]
      obtain ⟨st', h1, h2, h3, h4⟩ := grow_spec hst hw hp ha
        (hnd.filter fun q => q != p && hasKsuf q) (fun h0 => ((hmem p).mp h0).2.1 rfl) (by
          intro q hq
          obtain ⟨g1, -, g3⟩ := (hmem q).mp hq
          exact ⟨(hact q g1).1, (hact q g1).2 g3⟩)
      refine ⟨st', by rw [if_neg hmod]; exact h1, h2, h3, ?_⟩
      intro q hq hqp hk
      exact h4 q ((hmem q).mpr ⟨hq, hqp, hk⟩)

/-- **The suffixes of a new leaf**: each one is where it was put, because the positions are filled
in increasing order. -/
lemma assignInitialize_spec (hst : st.Ok width) (hw : width ≤ 15) (suffixes : List (Option Bytes))
    (hlen : suffixes.length ≤ width) (hsuf : ∀ a, some a ∈ suffixes → IsSuffix a) :
    ∃ st', st.assignInitialize width suffixes = some st' ∧ st'.Ok width ∧
      ∀ p a, suffixes[p]? = some (some a) → st'.get p = some a := by
  suffices h : ∀ n ≤ suffixes.length, ∃ st',
      (List.range n).foldlM (fun st p =>
        match suffixes.getD p none with
        | none => some st
        | some a =>
            st.assignKsuf width (List.range p) (fun q => (suffixes.getD q none).isSome) .insert p a)
        st = some st' ∧ st'.Ok width ∧ ∀ p < n, ∀ a, suffixes[p]? = some (some a) →
          st'.get p = some a by
    obtain ⟨st', h1, h2, h3⟩ := h suffixes.length le_rfl
    refine ⟨st', h1, h2, fun p a hp => ?_⟩
    exact h3 p (List.getElem?_eq_some_iff.mp hp).1 a hp
  intro n
  induction n with
  | zero => exact fun _ => ⟨st, rfl, hst, fun p hp => absurd hp (Nat.not_lt_zero _)⟩
  | succ n ih =>
      intro hn
      obtain ⟨st₁, h1, h2, h3⟩ := ih (Nat.le_of_succ_le hn)
      rw [List.range_succ, List.foldlM_append, h1]
      simp only [Option.bind_eq_bind, Option.bind_some, List.foldlM_cons, List.foldlM_nil]
      have hget : ∀ q < suffixes.length, suffixes[q]? = some (suffixes.getD q none) := by
        intro q hq
        simp [List.getD_eq_getElem?_getD, hq]
      cases hs : suffixes.getD n none with
      | none =>
          refine ⟨st₁, rfl, h2, fun p hp a hpa => ?_⟩
          rcases Nat.lt_succ_iff_lt_or_eq.mp hp with hp | rfl
          · exact h3 p hp a hpa
          · rw [hget p hn, hs] at hpa
            cases hpa
      | some a =>
          have hmem : ∀ {q b}, q < suffixes.length → suffixes.getD q none = some b →
            IsSuffix b := by
            intro q b hq hb
            exact hsuf b (List.mem_of_getElem? ((hget q hq).trans (by rw [hb])))
          obtain ⟨st', g1, g2, g3, g4⟩ :=
            assignKsuf_spec h2 hw (show n < width by omega) (hmem hn hs)
            (List.range n) (fun q => (suffixes.getD q none).isSome) .insert
              (by decide) List.nodup_range (by
              intro q hq
              rw [List.mem_range] at hq
              refine ⟨by omega, fun hk => ?_⟩
              obtain ⟨b, hb⟩ := Option.isSome_iff_exists.mp hk
              have hq' : q < suffixes.length := by omega
              exact ⟨b, h3 q hq b ((hget q hq').trans (by rw [hb])), hmem hq' hb⟩)
          refine ⟨st', by simp only [g1, Option.bind_some]; rfl, g2, fun p hp b hpb => ?_⟩
          rcases Nat.lt_succ_iff_lt_or_eq.mp hp with hp | rfl
          · rw [g4 p (List.mem_range.mpr hp) hp.ne (by
              rw [List.getD_eq_getElem?_getD, hpb]
              rfl)]
            exact h3 p hp b hpb
          · rw [hget p hn, hs] at hpb
            cases hpb
            exact g3

end SuffixStore

end MasstreeLHM
