import MasstreeLHM.Optimistic.Calm

/-!
# A search without a lock

What a search knows between two loads, as long as the leaf stays clean: it compares as if all words
had been loaded when the permutation was, and the value that it has loaded belongs to a leaf that it
has passed.  `H` are the leaves from the stable version on.

`Searched` has a case for each of the loads: `Begun` when the permutation has been loaded, `Between`
inside the binary search, `Hit` when a slot compares equal, `Taken` with a value, and `Ended`.  It
has to be kept by two things.  **`Searched.calm`** says that it stays true when another thread
stores a word, and **`Searched.next`** that a load of its own takes it to the next case.

`Passed` is what makes both work: a value that a slot has now, it has had in a leaf in which the
slot was live.  **`Ended.answers`** reads off the result: it is that of a lookup in one of the
leaves that the search has passed.
-/

namespace MasstreeLHM.KeyTable.Shared

variable {V : Type} [Inhabited V] {P : NodeParams}

/-- A leaf that has been passed, and what has become of it: the value that a slot has now, it has
had in a leaf in which the slot was live. -/
structure Passed (H : Leaf (Cell V) → Prop) (l₁ now : Leaf (Cell V)) : Prop where
  mem : H l₁
  since : Since l₁ now
  held : ∀ p ∈ l₁.permutation.live, ∃ l₂, H l₂ ∧ Since l₁ l₂ ∧ p ∈ l₂.permutation.live ∧
    (l₂.slot p).body.lv = (now.slot p).body.lv

/-- The leaf `l₁` whose permutation the lower search has loaded. -/
structure Begun (H : Leaf (Cell V) → Prop) (now : Leaf (Cell V)) (s : Search V)
    (l₁ : Leaf (Cell V)) : Prop where
  passed : Passed H l₁ now
  first : s.call.isGet = false → ∃ l₀, Since l₀ l₁ ∧ l₀.permutation = s.first

/-- The rest of the lower search. -/
def lowerFrom (l : Leaf (Cell V)) (k : Bytes) (a b : ℕ) : ℕ × Option ℕ :=
  lowerLoop (fun p => compareKey k (l.slot p)) l.permutation.live (b - a) a b

/-- The lower search is between the positions `a` and `b` of the permutation `perm`. -/
structure Between (H : Leaf (Cell V) → Prop) (now : Leaf (Cell V)) (s : Search V)
    (perm : Kpermuter) (a b : ℕ) (l₁ : Leaf (Cell V)) : Prop where
  begun : Begun H now s l₁
  perm : l₁.permutation = perm
  le : b ≤ l₁.permutation.live.length
  rest : lowerFrom l₁ s.k a b = plainLower l₁ s.k

/-- The lower search has come to slot `p`. -/
structure Hit (H : Leaf (Cell V) → Prop) (now : Leaf (Cell V)) (s : Search V) (i p : ℕ)
    (l₁ : Leaf (Cell V)) :
    Prop where
  begun : Begun H now s l₁
  hit : plainLower l₁ s.k = (i, some p)

/-- `lv` is what slot `p` has had while it was live. -/
def Taken (H : Leaf (Cell V) → Prop) (l₁ : Leaf (Cell V)) (p : ℕ) (lv : LeafValue V) : Prop :=
  ∃ l₂, H l₂ ∧ Since l₁ l₂ ∧ p ∈ l₂.permutation.live ∧ lv = (l₂.slot p).body.lv

/-- A search is over, with the result of one in the leaf `l₁`, and a value taken on the way. -/
structure Ended (H : Leaf (Cell V) → Prop) (now : Leaf (Cell V)) (s : Search V)
    (kx : ℕ × Option ℕ) (state : ℤ) (lv : Option (LeafValue V)) (l₁ : Leaf (Cell V)) : Prop where
  begun : Begun H now s l₁
  lower : plainLower l₁ s.k = kx
  state : state = kx.2.elim 0 fun p => slotMatches (l₁.slot p) s.k
  missed : kx.2 = none → lv = none
  taken : ∀ p, kx.2 = some p → ∃ w, lv = some w ∧ Taken H l₁ p w

/-- **What a search knows.** -/
def Searched (H : Leaf (Cell V) → Prop) (now : Leaf (Cell V)) (s : Search V) : Prop :=
  match s.load with
  | .permutation => True
  | .again => ∃ l₀, Passed H l₀ now ∧ l₀.permutation = s.first
  | .ikey perm a b => a < b ∧ ∃ l₁, Between H now s perm a b l₁
  | .keylenx perm a b x =>
      a < b ∧ ∃ l₁, Between H now s perm a b l₁ ∧ x = (l₁.slot (perm.get ((a + b) / 2))).ikey
  | .lv i p => ∃ l₁, Hit H now s i p l₁
  | .kind i p lv => ∃ l₁, Hit H now s i p l₁ ∧ Taken H l₁ p lv
  | .ksuf i p lv => ∃ l₁, Hit H now s i p l₁ ∧ Taken H l₁ p lv ∧
      slotMatches (l₁.slot p) s.k = if (l₁.slot p).body.ksuf = s.k.drop 8 then 1 else 0
  | .done kx state lv => ∃ l₁, Ended H now s kx state lv l₁

section

variable {H H' : Leaf (Cell V) → Prop} {now later l₁ : Leaf (Cell V)} {s s' : Search V}
  {perm : Kpermuter}
  {a b i p : ℕ} {kx : ℕ × Option ℕ} {state : ℤ} {lv : LeafValue V} {k : Bytes}

/-! ## The leaf goes on -/

lemma Passed.refl (h : H now) : Passed H now now := ⟨h, .refl, fun _ hp => ⟨now, h, .refl, hp, rfl⟩⟩

/-- **The leaf goes on calmly.**  A slot that is not live any more keeps the value that it had. -/
lemma Passed.calm (h : Passed H l₁ now) (hc : Calm now later) (hH : ∀ l, H l → H' l)
    (hlater : H' later) :
    Passed H' l₁ later := by
  refine ⟨hH _ h.mem, h.since.tail hc, fun p hp => ?_⟩
  by_cases hpn : p ∈ later.permutation.live
  · exact ⟨later, hlater, h.since.tail hc, hpn, rfl⟩
  · have hins : now.modstate ≠ .insert := by
      intro h0
      have hpnow : p ∈ now.permutation.live := by
        by_cases h1 : l₁.modstate = .insert
        · exact (h.since.spec.1 h1).1.subset hp
        · exact absurd h0 (h.since.spec.2.1 h1).2
      exact hpn ((hc.grows h0).subset hpnow)
    obtain ⟨l₂, h1, h2, h3, h4⟩ := h.held p hp
    exact ⟨l₂, hH _ h1, h2, h3, h4.trans (hc.kept p hins hpn).symm⟩

lemma Begun.calm (h : Begun H now s l₁) (hc : Calm now later) (hH : ∀ l, H l → H' l)
    (hlater : H' later) :
    Begun H' later s l₁ := ⟨h.passed.calm hc hH hlater, h.first⟩

lemma Between.calm (h : Between H now s perm a b l₁) (hc : Calm now later) (hH : ∀ l, H l → H' l)
    (hlater : H' later) : Between H' later s perm a b l₁ :=
  ⟨h.begun.calm hc hH hlater, h.perm, h.le, h.rest⟩

lemma Hit.calm (h : Hit H now s i p l₁) (hc : Calm now later) (hH : ∀ l, H l → H' l)
    (hlater : H' later) :
    Hit H' later s i p l₁ := ⟨h.begun.calm hc hH hlater, h.hit⟩

lemma Taken.mono (h : Taken H l₁ p lv) (hH : ∀ l, H l → H' l) : Taken H' l₁ p lv := by
  obtain ⟨l₂, h1, h2⟩ := h
  exact ⟨l₂, hH _ h1, h2⟩

/-- What a search knows stays true. -/
lemma Searched.calm (h : Searched H now s) (hc : Calm now later) (hH : ∀ l, H l → H' l)
    (hlater : H' later) :
    Searched H' later s := by
  unfold Searched at h ⊢
  cases hl : s.load with
  | permutation => trivial
  | again =>
      simp only [hl] at h ⊢
      obtain ⟨l₀, h1, h2⟩ := h
      exact ⟨l₀, h1.calm hc hH hlater, h2⟩
  | ikey perm a b =>
      simp only [hl] at h ⊢
      obtain ⟨h0, l₁, h1⟩ := h
      exact ⟨h0, l₁, h1.calm hc hH hlater⟩
  | keylenx perm a b x =>
      simp only [hl] at h ⊢
      obtain ⟨h0, l₁, h1, h2⟩ := h
      exact ⟨h0, l₁, h1.calm hc hH hlater, h2⟩
  | lv i p =>
      simp only [hl] at h ⊢
      obtain ⟨l₁, h1⟩ := h
      exact ⟨l₁, h1.calm hc hH hlater⟩
  | kind i p lv =>
      simp only [hl] at h ⊢
      obtain ⟨l₁, h1, h2⟩ := h
      exact ⟨l₁, h1.calm hc hH hlater, h2.mono hH⟩
  | ksuf i p lv =>
      simp only [hl] at h ⊢
      obtain ⟨l₁, h1, h2, h3⟩ := h
      exact ⟨l₁, h1.calm hc hH hlater, h2.mono hH, h3⟩
  | done kx state lv =>
      simp only [hl] at h ⊢
      obtain ⟨l₁, h1⟩ := h
      refine ⟨l₁, h1.begun.calm hc hH hlater, h1.lower, h1.state, h1.missed, fun p hp => ?_⟩
      obtain ⟨w, h2, h3⟩ := h1.taken p hp
      exact ⟨w, h2, h3.mono hH⟩

/-! ## One load -/

omit [Inhabited V] in
lemma lowerLoop_fuel {cmp : ℕ → ℤ} {perm : List ℕ} :
    ∀ fuel fuel' l r, r ≤ l + fuel → r ≤ l + fuel' →
    lowerLoop cmp perm fuel l r = lowerLoop cmp perm fuel' l r
  | 0, 0, _, _, _, _ => rfl
  | 0, fuel' + 1, l, r, h, _ => by rw [lowerLoop, lowerLoop, if_neg (by omega)]
  | fuel + 1, 0, l, r, _, h => by rw [lowerLoop, lowerLoop, if_neg (by omega)]
  | fuel + 1, fuel' + 1, l, r, h, h' => by
      rw [lowerLoop, lowerLoop]
      split_ifs with hlr
      · simp only
        rw [lowerLoop_fuel fuel fuel' l ((l + r) / 2) (by omega) (by omega),
          lowerLoop_fuel fuel fuel' ((l + r) / 2 + 1) r (by omega) (by omega)]
      · rfl

lemma lowerFrom_self (h : ¬ a < b) : lowerFrom now k a b = (a, none) := by
  rw [lowerFrom, show b - a = 0 by omega, lowerLoop]

/-- One round of the lower search. -/
lemma lowerFrom_step (h : a < b) : lowerFrom now k a b =
    if compareKey k (now.slot (now.permutation.live.getD ((a + b) / 2) 0)) < 0 then
      lowerFrom now k a ((a + b) / 2)
    else if compareKey k (now.slot (now.permutation.live.getD ((a + b) / 2) 0)) = 0 then
      ((a + b) / 2, some (now.permutation.live.getD ((a + b) / 2) 0))
    else lowerFrom now k ((a + b) / 2 + 1) b := by
  rw [lowerFrom, show b - a = (b - a - 1) + 1 by omega, lowerLoop, if_pos h]
  simp only [lowerFrom]
  rw [lowerLoop_fuel (b - a - 1) ((a + b) / 2 - a) a _ (by omega) (by omega),
    lowerLoop_fuel (b - a - 1) (b - ((a + b) / 2 + 1)) _ b (by omega) (by omega)]

omit [Inhabited V] in
lemma live_getD {q : Kpermuter} {m : ℕ} (h : m < q.live.length) :
    q.live.getD m 0 = q.get m ∧ q.get m ∈ q.live := by
  have hm : m < q.size := by
    rw [Kpermuter.live, List.length_take] at h
    omega
  have heq : q.live.getD m 0 = q.get m := by
    simp [Kpermuter.live, Kpermuter.get, List.getD_eq_getElem?_getD, hm]
  refine ⟨heq, ?_⟩
  rw [← heq, List.getD_eq_getElem?_getD, List.getElem?_eq_getElem h]
  exact List.getElem_mem h

/-- The top of the loop. -/
lemma Between.searched (h : Between H now s perm a b l₁) :
    Searched H now { s with load := between perm a b } := by
  have hb : Begun H now { s with load := between perm a b } l₁ := ⟨h.begun.passed, h.begun.first⟩
  unfold Searched
  by_cases hab : a < b
  · simp only [between, if_pos hab] at hb ⊢
    exact ⟨hab, l₁, hb, h.perm, h.le, h.rest⟩
  · simp only [between, if_neg hab] at hb ⊢
    refine ⟨l₁, hb, ?_, rfl, fun _ => rfl, fun p hp => by cases hp⟩
    exact h.rest.symm.trans (lowerFrom_self hab)

lemma Begun.searched (h : Begun H now s l₁) (hl : LeafSound P l₁) (hperm : l₁.permutation = perm) :
    Searched H now { s with load := between perm 0 perm.size } := by
  have hbetween : Between H now s perm 0 perm.size l₁ := by
    refine ⟨h, hperm, ?_, ?_⟩
    · rw [hl.perm.length_live, hperm]
    · rw [← hperm, ← hl.perm.length_live]
      rfl
  exact hbetween.searched

/-- **A load adds to what a search knows.** -/
lemma Searched.next (hH : ∀ l, H l → LeafSound P l) (hnow : H now) (h : Searched H now s)
    (hs : s.next now = some s') : Searched H now s' := by
  unfold Searched at h
  unfold Search.next at hs
  cases hl : s.load with
  | permutation =>
      simp only [hl, Option.some.injEq] at hs
      cases hget : s.call.isGet with
      | true =>
          rw [if_pos hget] at hs
          rw [← hs]
          have hb : Begun H now { s with first := now.permutation } now :=
            ⟨.refl hnow, fun h0 => absurd hget (by rw [h0]; exact Bool.false_ne_true)⟩
          exact hb.searched (hH now hnow) rfl
      | false =>
          rw [if_neg (by simp [hget])] at hs
          rw [← hs]
          exact ⟨now, .refl hnow, rfl⟩
  | again =>
      simp only [hl, Option.some.injEq] at h hs
      rw [← hs]
      obtain ⟨l₀, h1, h2⟩ := h
      have hb : Begun H now s now := ⟨.refl hnow, fun _ => ⟨l₀, h1.since, h2⟩⟩
      exact hb.searched (hH now hnow) rfl
  | ikey perm a b =>
      simp only [hl, Option.some.injEq] at h hs
      rw [← hs]
      obtain ⟨hab, l₁, h1⟩ := h
      obtain ⟨-, hmem⟩ :=
        live_getD (show (a + b) / 2 < l₁.permutation.live.length by have := h1.le; omega)
      have hp := h1.begun.passed.since.sameKey hmem
      rw [h1.perm] at hp
      exact ⟨hab, l₁, ⟨⟨h1.begun.passed, h1.begun.first⟩, h1.perm, h1.le, h1.rest⟩, hp.ikey⟩
  | keylenx perm a b x =>
      simp only [hl, Option.some.injEq] at h hs
      obtain ⟨hab, l₁, h1, hx⟩ := h
      obtain ⟨hget, hmem⟩ :=
        live_getD (show (a + b) / 2 < l₁.permutation.live.length by have := h1.le; omega)
      have hp := h1.begun.passed.since.sameKey hmem
      rw [h1.perm] at hget hmem hp
      -- the two words that have been loaded are those of the leaf `l₁`
      have hcmp : (keyOf s.k).compareIkey x (now.slot (perm.get ((a + b) / 2))).body.keylenx
          = compareKey s.k (l₁.slot (perm.get ((a + b) / 2))) := by
        rw [hx, hp.keylenx]
        rfl
      have hstep : lowerFrom l₁ s.k a b = _ := lowerFrom_step hab
      rw [h1.perm, hget, h1.rest] at hstep
      rw [hcmp] at hs
      split_ifs at hs with c1 c2
      · rw [if_pos c1] at hstep
        rw [← hs]
        exact Between.searched ⟨h1.begun, h1.perm, by have := h1.le; omega, hstep.symm⟩
      · rw [if_neg c1, if_pos c2] at hstep
        rw [← hs]
        exact ⟨l₁, ⟨h1.begun.passed, h1.begun.first⟩, hstep⟩
      · rw [if_neg c1, if_neg c2] at hstep
        rw [← hs]
        exact Between.searched ⟨h1.begun, h1.perm, h1.le, hstep.symm⟩
  | lv i p =>
      simp only [hl, Option.some.injEq] at h hs
      rw [← hs]
      obtain ⟨l₁, h1⟩ := h
      obtain ⟨l₂, h2, h3, h4, h5⟩ :=
        h1.begun.passed.held p (List.mem_of_getElem? (lowerBy_some h1.hit).1)
      exact ⟨l₁, ⟨⟨h1.begun.passed, h1.begun.first⟩, h1.hit⟩, l₂, h2, h3, h4, h5.symm⟩
  | kind i p lv =>
      simp only [hl, Option.some.injEq] at h hs
      obtain ⟨l₁, h1, h2⟩ := h
      have hp := h1.begun.passed.since.sameKey (List.mem_of_getElem? (lowerBy_some h1.hit).1)
      rw [hp.keylenx] at hs
      have hdone : ∀ state, state = slotMatches (l₁.slot p) s.k →
          Searched H now { s with load := .done (i, some p) state (some lv) } := fun state hstate =>
        ⟨l₁, ⟨h1.begun.passed, h1.begun.first⟩, h1.hit, hstate, fun h0 => (by cases h0),
          fun q hq => by
          cases hq
          exact ⟨lv, rfl, h2⟩⟩
      split_ifs at hs with c1 c2
      · rw [← hs]
        exact hdone 1 (by rw [slotMatches, if_pos c1])
      · rw [← hs]
        exact hdone (-8) (by rw [slotMatches, if_neg c1, if_pos c2])
      · rw [← hs]
        exact ⟨l₁, ⟨⟨h1.begun.passed, h1.begun.first⟩, h1.hit⟩,
          h2, by rw [slotMatches, if_neg c1, if_neg c2]⟩
  | ksuf i p lv =>
      simp only [hl, Option.some.injEq] at h hs
      rw [← hs]
      obtain ⟨l₁, h1, h2, h3⟩ := h
      have hp := h1.begun.passed.since.sameKey (List.mem_of_getElem? (lowerBy_some h1.hit).1)
      refine ⟨l₁, ⟨h1.begun.passed, h1.begun.first⟩, h1.hit, ?_, fun h0 => (by cases h0),
        fun q hq => ?_⟩
      · rw [hp.ksuf]
        exact h3.symm
      · cases hq
        exact ⟨lv, rfl, h2⟩
  | done kx state lv =>
      simp only [hl] at hs
      cases hs

omit [Inhabited V] in
lemma lowerLoop_congr {f g : ℕ → ℤ} {perm : List ℕ} (h : ∀ p ∈ perm, f p = g p) :
    ∀ fuel l r, r ≤ perm.length →
    lowerLoop f perm fuel l r = lowerLoop g perm fuel l r
  | 0, _, _, _ => rfl
  | fuel + 1, l, r, hr => by
      rw [lowerLoop, lowerLoop]
      split_ifs with hlr
      · have hm : (l + r) / 2 < perm.length := by omega
        have hget : perm.getD ((l + r) / 2) 0 ∈ perm := by
          rw [List.getD_eq_getElem?_getD, List.getElem?_eq_getElem hm]
          exact List.getElem_mem hm
        simp only [h _ hget]
        rw [lowerLoop_congr h fuel l _ (by omega), lowerLoop_congr h fuel _ r hr]
      · rfl

omit [Inhabited V] in
lemma lowerBy_congr {f g : ℕ → ℤ} {perm : List ℕ} (h : ∀ p ∈ perm, f p = g p) :
    lowerBy f perm = lowerBy g perm :=
  lowerLoop_congr h _ _ _ le_rfl

/-! ## What a search has found -/

/-- **The result of a search is that of a lookup**, in one of the leaves that it has passed. -/
lemma Ended.answers (hH : ∀ l, H l → LeafSound P l) {lv : Option (LeafValue V)}
    (h : Ended H now s kx state lv l₁) :
    ∃ l, H l ∧ lookup l s.k = found state lv ∧ (found state lv).isSome = true := by
  obtain ⟨i, kp⟩ := kx
  cases kp with
  | none =>
      have hlv := h.missed rfl
      have hst : state = 0 := h.state
      refine ⟨l₁, h.begun.passed.mem, ?_⟩
      rw [lookup_of_none fun s hs => (hH _ h.begun.passed.mem).not_mem_of_miss h.lower hs, hlv, hst]
      exact ⟨rfl, rfl⟩
  | some p =>
      obtain ⟨w, hw, l₂, h1, h2, h3, h4⟩ := h.taken p rfl
      obtain ⟨hlive, hzero⟩ := lowerBy_some h.lower
      have hsame := h2.sameKey (List.mem_of_getElem? hlive)
      have hst : state = slotMatches (l₂.slot p) s.k := by
        rw [hsame.slotMatches]
        exact h.state
      have hsound := hH l₂ h1
      have hlook := hsound.lookup_of_mem (mem_entries h3) ((hsame.compareKey s.k).trans hzero)
      refine ⟨l₂, h1, ?_, ?_⟩
      · rw [hlook, hst, hw, h4]
      · rw [hst, hw, h4]
        exact hsound.found_isSome (mem_entries h3) s.k

/-- **A search whose permutation is there again** has the result of a search in the leaf as it is
now. -/
lemma Ended.again {lv : Option (LeafValue V)} (h : Ended H now s kx state lv l₁)
    (hget : s.call.isGet = false) (hperm : now.permutation = s.first) :
    plainLower now s.k = kx ∧ state = kx.2.elim 0 fun p => slotMatches (now.slot p) s.k := by
  obtain ⟨l₀, h1, h2⟩ := h.begun.first hget
  have hlive : l₁.permutation.live = now.permutation.live :=
    h1.live_eq h.begun.passed.since (by rw [hperm, h2])
  have hkey : ∀ p ∈ l₁.permutation.live, SameKey (l₁.slot p) (now.slot p) := fun p hp =>
    h.begun.passed.since.sameKey hp
  have hlower : plainLower now s.k = plainLower l₁ s.k := by
    rw [plainLower, plainLower, ← hlive]
    exact lowerBy_congr fun p hp => (hkey p hp).compareKey s.k
  refine ⟨hlower.trans h.lower, ?_⟩
  obtain ⟨i, kp⟩ := kx
  cases kp with
  | none => exact h.state
  | some p =>
      have := h.state
      rw [this]
      exact ((hkey p (List.mem_of_getElem? (lowerBy_some h.lower).1)).slotMatches s.k).symm

end

end MasstreeLHM.KeyTable.Shared
