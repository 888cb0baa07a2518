import MasstreeLHM.Optimistic.Locking
import MasstreeLHM.Optimistic.Searches
import MasstreeLHM.Optimistic.Sections

/-!
# Runs of threads on a shared leaf

What holds after every run from a leaf at rest, whatever the threads do and in whatever order: a
clean leaf is in order, and a search that nothing has changed behind has the result of a lookup in
the leaf as it was at some moment since its stable version.

`InOrder` is about the present: while the version is clean the leaf is in order, and what the thread
with the lock has still to store is fine.  An `Attempt` is about the past of one search: the state
in which it began, and the events since.  Its leaves are calm as long as its version is unchanged
(`Attempt.cleanOn`), so what it knows is `Searched`.

**`InOrder.step`** is the step lemma and **`AtRest.runOk`** the run.  They depend on each other:
that a critical section stores something fine rests on its search being right, and that a search is
right rests on the stores since it began.  `Brisk` excludes searches so late that the counters of
the version have come around.
-/

namespace MasstreeLHM.KeyTable.Shared

open Optimistic Nodeversion

variable {V ι : Type} [Inhabited V] [DecidableEq ι] {P : NodeParams}

/-- No thread is at the leaf, and it is in order. -/
structure AtRest (P : NodeParams) (s : LeafSystem ι V) : Prop where
  idle : ∀ i, s.threads i = .idle
  sound : LeafSound P s.shared.leaf
  shows : ∃ leaf root deleted count, Shows s.shared.version leaf root deleted count

/-- No search comes so late to its lock that the counters of the version have come around. -/
def Brisk (es : List (LeafEvent ι V)) : Prop :=
  ∀ i c k a es₁ es₂ es₃, es = es₁ ++ .stable i c k :: es₂ ++ .lock i a :: es₃ →
    (∀ c k, .stable i c k ∉ es₂) → es₂.countP LeafEvent.isUnlock < 2 ^ 19

/-- The leaves on the way. -/
def Leaves (P : NodeParams) (u : LeafSystem ι V) (es : List (LeafEvent ι V)) (l : Leaf (Cell V)) :
    Prop :=
  ∃ w, Visits (LeafSystem.step P) u es w ∧ l = w.shared.leaf

/-- The version has been clean on the way. -/
def CleanOn (P : NodeParams) (u : LeafSystem ι V) (es : List (LeafEvent ι V)) : Prop :=
  ∀ w, Visits (LeafSystem.step P) u es w → w.shared.version.test dirtyMask = false

/-- **While the version is clean the leaf is in order**, and what is still to be stored is fine. -/
structure InOrder (P : NodeParams) (g : LockGhost ι) (s : LeafSystem ι V) : Prop where
  ok : LockOk g s
  clean : g.marks = [] → LeafSound P s.shared.leaf
  writing : ∀ i todo, s.threads i = .writing todo → Fine P (!g.marks.isEmpty) todo s.shared.leaf

/-- The search `r` of thread `i`: it has started in the state `u`, and `es₂` has taken place
since. -/
structure Attempt (P : NodeParams) (s : LeafSystem ι V) (es : List (LeafEvent ι V))
    (t : LeafSystem ι V) (i : ι)
    (r : Search V) (es₁ es₂ : List (LeafEvent ι V)) (u : LeafSystem ι V) : Prop where
  run : es = es₁ ++ .stable i r.call r.k :: es₂
  start : after (LeafSystem.step P) s (es₁ ++ [.stable i r.call r.k]) = some u
  rest : after (LeafSystem.step P) u es₂ = some t
  only : ∀ c k, .stable i c k ∉ es₂
  version : u.shared.version = r.v
  clean : u.shared.version.test dirtyMask = false
  searched : CleanOn P u es₂ → Searched (Leaves P u es₂) t.shared.leaf r

/-- **What holds after a run.** -/
structure RunOk (P : NodeParams) (s : LeafSystem ι V) (es : List (LeafEvent ι V))
    (t : LeafSystem ι V) : Prop where
  order : ∃ g, InOrder P g t
  past : ∀ w, Visits (LeafSystem.step P) s es w → w.shared.version.test dirtyMask = false →
    LeafSound P w.shared.leaf
  attempts : ∀ i r, t.threads i = .searching r → ∃ es₁ es₂ u, Attempt P s es t i r es₁ es₂ u

section

variable {g : LockGhost ι} {s t u : LeafSystem ι V} {e : LeafEvent ι V}
  {es es₁ es₂ : List (LeafEvent ι V)} {i j : ι}
  {r r' : Search V} {kx : ℕ × Option ℕ} {state : ℤ} {lv : Option (LeafValue V)} {l : Leaf (Cell V)}
  {todo : List (LeafStore V)} {v : Nodeversion}

/-! ## One step -/

omit [Inhabited V] in
/-- A thread after another one, or it itself, has gone on. -/
lemma update_cases {f : ι → LeafThread V} {x y : LeafThread V} (h : Function.update f i x j = y) :
    (j = i ∧ x = y) ∨ (j ≠ i ∧ f j = y) := by
  by_cases hji : j = i
  · subst hji
    rw [Function.update_self] at h
    exact Or.inl ⟨rfl, h⟩
  · rw [Function.update_of_ne hji] at h
    exact Or.inr ⟨hji, h⟩

omit [DecidableEq ι] in
lemma AtRest.inOrder (h : AtRest P s) : ∃ g, InOrder P g s := by
  obtain ⟨leaf, root, deleted, count, hshows⟩ := h.shows
  refine ⟨⟨s.shared.version, leaf, root, deleted, count, none, []⟩,
    ⟨hshows, by simp [Mark.all], fun i => ?_,
    fun _ => rfl⟩, fun _ => h.sound, fun i todo hi => ?_⟩
  · simp [h.idle i]
  · rw [h.idle i] at hi
    cases hi

namespace InOrder

/-- A thread goes on without having the lock. -/
lemma become (h : InOrder P g s) {x : LeafThread V} (hi : ∀ todo, s.threads i ≠ .writing todo)
    (hx : ∀ todo, x ≠ .writing todo) : InOrder P g (s.become i x) := by
  refine ⟨h.ok.become hi hx, h.clean, fun j todo hj => ?_⟩
  rcases update_cases hj with ⟨-, hj⟩ | ⟨-, hj⟩
  · exact absurd hj (hx todo)
  · exact h.writing j todo hj

/-- A thread takes the lock: the leaf is clean, and in order. -/
lemma lock (h : InOrder P g s) (hv : s.shared.version.lock = some v)
    (hf : LeafSound P s.shared.leaf → Fine P false todo s.shared.leaf) :
    ∃ g', InOrder P g'
    (⟨⟨v, s.shared.leaf⟩, Function.update s.threads i (.writing todo)⟩ : LeafSystem ι V) := by
  have hnil : g.marks = [] := h.ok.free (h.ok.owner_of_lock hv)
  have hok := h.ok.lock (i := i) hv todo
  refine ⟨_, hok, fun _ => h.clean hnil, fun j todo' hj => ?_⟩
  rcases update_cases hj with ⟨-, hj⟩ | ⟨hji, -⟩
  · cases hj
    rw [hnil]
    exact hf (h.clean hnil)
  · exact absurd (Option.some.inj ((hok.owner j).mp ⟨todo', hj⟩)).symm hji

/-- A word is stored. -/
lemma store (h : InOrder P g s) {st : LeafStore V} {sh : SharedLeaf V}
    (hi : s.threads i = .writing (st :: todo))
    (hsh : st.apply s.shared = some sh) :
    ∃ g', InOrder P g' (⟨sh, Function.update s.threads i (.writing todo)⟩ : LeafSystem ι V) := by
  obtain ⟨ms, hok, hno, hyes, hleaf⟩ := h.ok.store hi hsh
  have hfine : Fine P (!(ms ++ g.marks).isEmpty) todo sh.leaf := by
    have h1 := (h.writing i _ hi).2
    have hd : (!(ms ++ g.marks).isEmpty) = (!g.marks.isEmpty || st.isMark) := by
      cases hm : st.isMark with
      | false => rw [hno hm, List.nil_append, Bool.or_false]
      | true =>
          rw [Bool.or_true, List.isEmpty_eq_false_iff.mpr
            (List.append_ne_nil_of_left_ne_nil (hyes hm) _)]; rfl
    rw [hd, hleaf]
    exact h1
  refine ⟨_, hok, fun hnil => ?_, fun j todo' hj => ?_⟩
  · change ms ++ g.marks = [] at hnil
    rw [hnil] at hfine
    exact hfine.sound
  · rcases update_cases hj with ⟨-, hj⟩ | ⟨hji, hj⟩
    · cases hj
      exact hfine
    · have hown := ((h.ok.owner j).mp ⟨_, hj⟩).symm.trans ((h.ok.owner i).mp ⟨_, hi⟩)
      exact absurd (Option.some.inj hown) hji

/-- The lock is given back. -/
lemma unlock (h : InOrder P g s) (hi : s.threads i = .writing [])
    (hv : s.shared.version.unlock = some v) :
    ∃ g',
    InOrder P g' (⟨⟨v, s.shared.leaf⟩, Function.update s.threads i .idle⟩ : LeafSystem ι V) := by
  obtain ⟨root, deleted, hok⟩ := h.ok.unlock hi hv
  refine ⟨_, hok, fun _ => h.writing i [] hi, fun j todo' hj => ?_⟩
  have hown := (hok.owner j).mp ⟨todo', hj⟩
  cases hown

/-- **One step keeps the leaf in order**, if a search behind which nothing has changed is right. -/
lemma step (hW : P.leafWidth = Kind.strings.leafWidth) (h : InOrder P g s)
    (hst : s.step P e = some t)
    (hright : ∀ i a r kx state lv, e = .lock i a → s.threads i = .searching r →
      r.load = .done kx state lv →
      r.call.isGet = false → s.shared.version.hasChanged r.v = false →
      s.shared.leaf.permutation = r.first →
      plainLower s.shared.leaf r.k = kx ∧ state = kx.2.elim 0 fun p =>
        slotMatches (s.shared.leaf.slot p) r.k) :
    ∃ g', InOrder P g' t := by
  cases LeafSystem.effect_of_step hst with
  | stable c k hi _ _ => exact ⟨g, h.become (by simp [hi]) (by simp)⟩
  | load hi _ => exact ⟨g, h.become (by simp [hi]) (by simp)⟩
  | hasChanged hi => exact ⟨g, h.become (by simp [hi]) (by simp)⟩
  | @lock i r a kx state lv v todo hi hr hget hv hchanged hsame =>
      refine h.lock hv fun hl => ?_
      by_cases hc : v.hasChanged r.v = true ∨ s.shared.leaf.permutation ≠ r.first
      · rw [hchanged hc]
        exact hl
      · rw [not_or, Bool.not_eq_true, not_not] at hc
        obtain ⟨hc1, hc2⟩ := hc
        obtain ⟨h1, h2⟩ :=
          hright i a r kx state lv rfl hi hr hget ((hasChanged_lock hv).symm.trans hc1) hc2
        obtain ⟨todo', h3, h4⟩ := fine_sectionWords hl hW h1 h2 a r.call
        rw [hsame hc1 hc2, Option.some.injEq] at h3
        rw [h3]
        exact h4
  | collect hi hv htodo =>
      refine h.lock hv fun hl => ?_
      rcases htodo with rfl | ⟨h0, rfl⟩
      · exact hl
      · exact fine_deletedLayer hl h0
  | store hi hsh => exact h.store hi hsh
  | unlock hi hv => exact h.unlock hi hv

/-- **A clean leaf goes on calmly.** -/
lemma calm (h : InOrder P g s) (hclean : s.shared.version.test dirtyMask = false)
    (hst : s.step P e = some t) :
    Calm s.shared.leaf t.shared.leaf := by
  cases LeafSystem.effect_of_step hst with
  | store hi hsh =>
      obtain ⟨-, -, -, -, hleaf⟩ := h.ok.store hi hsh
      have hf := h.writing _ _ hi
      rw [h.ok.clean_iff.mp hclean] at hf
      change Calm _ (SharedLeaf.leaf _)
      rw [hleaf]
      exact (hf.1 rfl).2
  | _ => exact .refl _

end InOrder

/-- A load leaves the call, the key and the version of a search as they are. -/
lemma Search.next_same (h : r.next l = some r') : r'.call = r.call ∧ r'.k = r.k ∧ r'.v = r.v := by
  rw [Search.next] at h
  cases hl : r.load with
  | done kx state lv =>
      simp only [hl] at h
      cases h
  | _ =>
      simp only [hl, Option.some.injEq] at h
      rw [← h]
      exact ⟨rfl, rfl, rfl⟩

/-- **A thread that searches** has just begun, has loaded a word, or has been left alone. -/
lemma searching_of_step (hst : s.step P e = some t) (hj : t.threads j = .searching r') :
    (∃ c k, e = .stable j c k ∧ r' = ⟨c, k, s.shared.version, default, .permutation⟩ ∧
      t.shared = s.shared ∧
      s.shared.version.test dirtyMask = false) ∨
    ∃ r, s.threads j = .searching r ∧ (∀ c k, e ≠ .stable j c k) ∧
      (r' = r ∨ (r.next s.shared.leaf = some r' ∧ t.shared = s.shared)) := by
  cases LeafSystem.effect_of_step hst with
  | @stable i c k hi hclean _ =>
      rcases update_cases hj with ⟨rfl, h0⟩ | ⟨hji, hj⟩
      · cases h0
        exact Or.inl ⟨c, k, rfl, rfl, rfl, hclean⟩
      · refine Or.inr ⟨r', hj, fun c' k' h0 => ?_, Or.inl rfl⟩
        cases h0
        exact hji rfl
  | @load i r r'' hi hr =>
      rcases update_cases hj with ⟨rfl, h0⟩ | ⟨-, hj⟩
      · cases h0
        exact Or.inr ⟨r, hi, fun c k h0 => (by cases h0), Or.inr ⟨hr, rfl⟩⟩
      · exact Or.inr ⟨r', hj, fun c k h0 => (by cases h0), Or.inl rfl⟩
  | hasChanged _ | lock _ _ _ _ _ _ | collect _ _ _ | store _ _ | unlock _ _ =>
      rcases update_cases hj with ⟨-, hj⟩ | ⟨-, hj⟩
      · cases hj
      · exact Or.inr ⟨r', hj, fun c k h0 => (by cases h0), Or.inl rfl⟩

/-! ## One search -/

namespace Attempt

variable (h : Attempt P s es t i r es₁ es₂ u)
include h

/-- **Nothing has changed**: the version has been clean since the search began. -/
lemma cleanOn (hs : LockOk g s) (hfew : es₂.countP LeafEvent.isUnlock < 2 ^ 19)
    (hsame : t.shared.version.hasChanged r.v = false) : CleanOn P u es₂ := by
  obtain ⟨g', hg', -⟩ := (ticking (P := P)).run hs h.start
  intro w hw
  exact hg'.clean_of_unchanged h.clean h.rest hfew (by rw [h.version]; exact hsame) hw

lemma ended (hs : LockOk g s) (hfew : es₂.countP LeafEvent.isUnlock < 2 ^ 19)
    (hsame : t.shared.version.hasChanged r.v = false) (hr : r.load = .done kx state lv) :
    ∃ l₁, Ended (Leaves P u es₂) t.shared.leaf r kx state lv l₁ := by
  have hsearched := h.searched (h.cleanOn hs hfew hsame)
  unfold Searched at hsearched
  simp only [hr] at hsearched
  exact hsearched

/-- **Its permutation is there again**, when the leaf is to be locked: it has found what is
there. -/
lemma again (hs : LockOk g s) {a : Surroundings} (hb : Brisk (es ++ [.lock i a]))
    (hsame : t.shared.version.hasChanged r.v = false) (hperm : t.shared.leaf.permutation = r.first)
    (hr : r.load = .done kx state lv) (hget : r.call.isGet = false) :
    plainLower t.shared.leaf r.k = kx ∧ state = kx.2.elim 0 fun p =>
      slotMatches (t.shared.leaf.slot p) r.k := by
  have hfew := hb i r.call r.k a es₁ es₂ [] (by rw [h.run]) h.only
  obtain ⟨l₁, hl₁⟩ := h.ended hs hfew hsame hr
  exact hl₁.again hget hperm

/-- The leaves that it has passed are in order. -/
lemma sound (hpast : ∀ w, Visits (LeafSystem.step P) s es w →
    w.shared.version.test dirtyMask = false →
    LeafSound P w.shared.leaf) (hclean : CleanOn P u es₂) : ∀ l, Leaves P u es₂ l →
      LeafSound P l := by
  rintro l ⟨w, hw, rfl⟩
  refine hpast w ?_ (hclean w hw)
  rw [h.run, List.append_cons]
  exact hw.append h.start

/-- It goes on. -/
lemma concat (hg : InOrder P g t) (hpast : ∀ w, Visits (LeafSystem.step P) s es w →
    w.shared.version.test dirtyMask = false → LeafSound P w.shared.leaf) {t' : LeafSystem ι V}
    (hst : t.step P e = some t') (hne : ∀ c k, e ≠ .stable i c k)
    (hr : r' = r ∨ (r.next t.shared.leaf = some r' ∧ t'.shared = t.shared)) :
    Attempt P s (es ++ [e]) t' i r' es₁ (es₂ ++ [e]) u := by
  obtain ⟨c1, c2, c3⟩ : r'.call = r.call ∧ r'.k = r.k ∧ r'.v = r.v := by
    rcases hr with rfl | ⟨h0, -⟩
    · exact ⟨rfl, rfl, rfl⟩
    · exact Search.next_same h0
  have hrest : after (LeafSystem.step P) u (es₂ ++ [e]) = some t' :=
    after_concat.mpr ⟨t, h.rest, hst⟩
  have hlater : ∀ l, Leaves P u es₂ l → Leaves P u (es₂ ++ [e]) l := by
    rintro l ⟨w, hw, rfl⟩
    exact ⟨w, (visits_concat hrest).mpr (Or.inl hw), rfl⟩
  refine ⟨?_, ?_, hrest, fun c k hm => ?_, h.version.trans c3.symm, h.clean, fun hclean => ?_⟩
  · rw [c1, c2, h.run, List.append_assoc, List.cons_append]
  · rw [c1, c2]
    exact h.start
  · rcases List.mem_append.mp hm with hm | hm
    · exact h.only c k hm
    · exact hne c k (List.mem_singleton.mp hm).symm
  · have hold : CleanOn P u es₂ := fun w hw => hclean w ((visits_concat hrest).mpr (Or.inl hw))
    have hnow := h.searched hold
    have hmem : Leaves P u es₂ t.shared.leaf := ⟨t, visits_last h.rest, rfl⟩
    rcases hr with rfl | ⟨hnext, hshared⟩
    · exact hnow.calm (hg.calm (hold t (visits_last h.rest)) hst) hlater
        ⟨t', visits_last hrest, rfl⟩
    · rw [hshared]
      exact (Searched.next (h.sound hpast hold) hmem hnow hnext).calm (.refl _) hlater
        (hlater _ hmem)

end Attempt

/-! ## Runs -/

omit [Inhabited V] [DecidableEq ι] in
lemma Brisk.of_append (h : Brisk (es₁ ++ es₂)) : Brisk es₁ := by
  intro i c k a fs₁ fs₂ fs₃ hrun
  refine h i c k a fs₁ fs₂ (fs₃ ++ es₂) ?_
  rw [hrun]
  simp

/-- **Every run**: by induction on it, with the attempts of the threads that search. -/
lemma AtRest.runOk (hW : P.leafWidth = Kind.strings.leafWidth) (hs : AtRest P s)
    (ht : after (LeafSystem.step P) s es = some t) (hb : Brisk es) : RunOk P s es t := by
  obtain ⟨g₀, hg₀⟩ := hs.inOrder
  revert hb
  refine run_induction (P := fun es t => Brisk es → RunOk P s es t) (fun _ => ?_) ?_ ht
  · refine ⟨⟨g₀, hg₀⟩, fun w hw _ => ?_, fun i r hi => ?_⟩
    · rw [visits_nil hw]
      exact hs.sound
    · rw [hs.idle i] at hi
      cases hi
  · intro es t e t' hrun ih hst hb
    have ht' : after (LeafSystem.step P) s (es ++ [e]) = some t' := after_concat.mpr ⟨t, hrun, hst⟩
    obtain ⟨⟨g, hg⟩, hpast, hatt⟩ := ih hb.of_append
    have hstep : ∃ g', InOrder P g' t' := by
      refine hg.step hW hst ?_
      rintro i a r kx state lv rfl hi hr hget hsame hperm
      obtain ⟨es₁, es₂, u, hA⟩ := hatt i r hi
      exact hA.again hg₀.ok hb hsame hperm hr hget
    obtain ⟨g', hg'⟩ := hstep
    refine ⟨⟨g', hg'⟩, fun w hw hclean => ?_, fun j r' hj => ?_⟩
    · rcases (visits_concat ht').mp hw with hw | rfl
      · exact hpast w hw hclean
      · exact hg'.clean (hg'.ok.clean_iff.mp hclean)
    · rcases searching_of_step hst hj with ⟨c, k, rfl, rfl, hshared, hclean⟩ | ⟨r, hr, hne, h⟩
      · exact ⟨es, [], t', rfl, ht', rfl,
          fun _ _ => List.not_mem_nil, by rw [hshared], by rw [hshared]; exact hclean,
          fun _ => trivial⟩
      · obtain ⟨es₁, es₂, u, hA⟩ := hatt j r hr
        exact ⟨es₁, es₂ ++ [e], u, hA.concat hg hpast hst hne h⟩

omit [Inhabited V] [DecidableEq ι] in
/-- Few critical sections cannot take the counters around. -/
lemma brisk_of_few (h : es.countP LeafEvent.isUnlock < 2 ^ 19) : Brisk es := by
  rintro i c k a es₁ es₂ es₃ rfl -
  simp only [List.countP_append, List.countP_cons] at h
  omega

/-! ## A leaf that has just been made -/

/-- `leaf::make`, and threads that have not found the leaf yet. -/
def LeafSystem.new (P : NodeParams) : LeafSystem ι V :=
  ⟨⟨Nodeversion.make true, Leaf.make P⟩, fun _ => .idle⟩

omit [DecidableEq ι] in
lemma atRest_new : AtRest P (LeafSystem.new P : LeafSystem ι V) := by
  refine ⟨fun _ => rfl, ?_, true, false, false, 0, shows_make true⟩
  have hnil : (Leaf.make P : Leaf (Cell V)).entries = [] := rfl
  exact ⟨.makeEmpty _, by simp [LeafSystem.new, Leaf.make], by simp [LeafSystem.new, hnil],
    by simp [LeafSystem.new, hnil], by simp [LeafSystem.new, hnil]⟩

/-- One thread puts `7` under the key `a`, behind the stable version of another one that looks for
it. -/
def putMeanwhile : List (LeafEvent Bool ℕ) :=
  [.stable true (.put fun _ => 7) [97], .load true, .load true] ++
    [.lock true ⟨none, none, 0, [], false⟩, .store true, .store true, .store true, .store true,
      .store true, .unlock true] ++ [.load false, .load false, .load false, .load false,
      .load false]

/-! ## What the threads may rely on -/

/-- **A search behind which nothing has changed** has the result of a lookup in the leaf as it was
at one clean moment since its stable version, and not parts of several leaves. -/
theorem unlocked_search_linearizes {c : LeafCall V} {k : Bytes}
    (hW : P.leafWidth = Kind.strings.leafWidth)
    (hs : AtRest P s) (ht : after (LeafSystem.step P) s (es₁ ++ .stable i c k :: es₂) = some t)
    (hb : Brisk (es₁ ++ .stable i c k :: es₂)) (honly : ∀ c k, .stable i c k ∉ es₂)
    (hfew : es₂.countP LeafEvent.isUnlock < 2 ^ 19) (hi : t.threads i = .searching r)
    (hr : r.load = .done kx state lv) (hsame : t.shared.version.hasChanged r.v = false) :
    ∃ es w, es <+: es₂ ∧ after (LeafSystem.step P) s (es₁ ++ .stable i c k :: es) = some w ∧
      w.shared.version.test dirtyMask = false ∧ lookup w.shared.leaf k = found state lv ∧
      (found state lv).isSome = true := by
  obtain ⟨-, hpast, hatt⟩ := hs.runOk hW ht hb
  obtain ⟨g, hg⟩ := hs.inOrder
  obtain ⟨fs₁, fs₂, u, hA⟩ := hatt i r hi
  -- the attempt is the one that has begun with the event in question
  obtain ⟨rfl, hev, rfl⟩ :=
    last_unique (p := fun e => ∃ c k, e = .stable i c k) hA.run ⟨c, k, rfl⟩ ⟨_, _, rfl⟩
    (fun e he h0 => by obtain ⟨c, k, rfl⟩ := h0; exact honly c k he)
    (fun e he h0 => by obtain ⟨c, k, rfl⟩ := h0; exact hA.only c k he)
  cases hev
  have hclean : CleanOn P u es₂ := hA.cleanOn hg.ok hfew hsame
  obtain ⟨l₁, hl₁⟩ := hA.ended hg.ok hfew hsame hr
  obtain ⟨l, ⟨w, hw, rfl⟩, h1, h2⟩ := hl₁.answers (hA.sound hpast hclean)
  obtain ⟨es, h3, h4⟩ := hw
  refine ⟨es, w, h3, ?_, hclean w ⟨es, h3, h4⟩, h1, h2⟩
  rw [List.append_cons, after_append, hA.start, Option.bind_some, h4]

/-- A `get` that begins before the `put` and ends behind it finds the new value, which the leaf held
at a moment in between. -/
theorem unlocked_search_linearizes_putMeanwhile :
    ∃ es w, es <+: putMeanwhile ∧
      after (LeafSystem.step stringTableParams) (.new stringTableParams)
      (.stable false .get [97] :: es) = some w ∧
      w.shared.version.test dirtyMask = false ∧ lookup w.shared.leaf [97] = some (.value 7) := by
  obtain ⟨t, ht⟩ : ∃ t, after (LeafSystem.step stringTableParams) (.new stringTableParams)
      (.stable false .get [97] :: putMeanwhile) = some t := ⟨_, rfl⟩
  have hi : (after (LeafSystem.step stringTableParams) (.new stringTableParams)
      (.stable false .get [97] :: putMeanwhile)).map (fun t => t.threads false)
        = some (.searching ⟨.get, [97], .make true, (Kpermuter.makeEmpty 15).insertFromBack 0,
            .done (0, some 0) 1 (some (.value 7))⟩) := rfl
  have hsame : (after (LeafSystem.step stringTableParams) (.new stringTableParams)
      (.stable false .get [97] :: putMeanwhile)).map (fun t =>
        t.shared.version.hasChanged (.make true))
        = some false := rfl
  rw [ht, Option.map_some, Option.some.injEq] at hi hsame
  obtain ⟨es, w, h1, h2, h3, h4, -⟩ := unlocked_search_linearizes rfl atRest_new
    (show after _ _ ([] ++ .stable false .get [97] :: putMeanwhile) = some t from ht)
      (brisk_of_few (by decide))
    (by simp [putMeanwhile]) (by decide) hi rfl hsame
  exact ⟨es, w, h1, h2, h3, h4⟩

/-- **A search that locks the leaf** starts again, or has the result of a search in the leaf that it
has locked, and then the call that it belongs to can be carried out. -/
theorem locked_search_holds {a : Surroundings} (hW : P.leafWidth = Kind.strings.leafWidth)
    (hs : AtRest P s)
    (ht : after (LeafSystem.step P) s es = some t) (hb : Brisk (es ++ [.lock i a]))
    (hi : t.threads i = .searching r) (hr : r.load = .done kx state lv)
    (hget : r.call.isGet = false)
    (hv : t.shared.version.lock = some v) :
    ∃ todo, t.step P (.lock i a) = some
      ⟨⟨v, t.shared.leaf⟩, Function.update t.threads i (.writing todo)⟩ ∧
      (((v.hasChanged r.v = true ∨ t.shared.leaf.permutation ≠ r.first) ∧ todo = []) ∨
        (LeafSound P t.shared.leaf ∧ plainLower t.shared.leaf r.k = kx ∧
          (state = kx.2.elim 0 fun p => slotMatches (t.shared.leaf.slot p) r.k) ∧
          sectionWords P a r.call r.k kx state t.shared.leaf = some todo)) := by
  obtain ⟨⟨g', hg'⟩, -, hatt⟩ := hs.runOk hW ht hb.of_append
  obtain ⟨g, hg⟩ := hs.inOrder
  have hstep : ∀ todo, (if v.hasChanged r.v = true ∨ t.shared.leaf.permutation ≠ r.first then
    some []
      else sectionWords P a r.call r.k kx state t.shared.leaf) = some todo →
      t.step P (.lock i a) = some ⟨⟨v, t.shared.leaf⟩, Function.update t.threads i
        (.writing todo)⟩ := by
    intro todo htodo
    obtain ⟨c, k, v₀, first, load⟩ := r
    obtain rfl : load = .done kx state lv := hr
    simp only [LeafSystem.step, hi, LeafSystem.lockFor, hv, Option.bind_some]
    rw [if_neg (by simp [hget]), htodo]
    rfl
  by_cases hc : v.hasChanged r.v = true ∨ t.shared.leaf.permutation ≠ r.first
  · exact ⟨[], hstep [] (if_pos hc), Or.inl ⟨hc, rfl⟩⟩
  · have hc' := hc
    rw [not_or, Bool.not_eq_true, not_not] at hc'
    obtain ⟨hc1, hc2⟩ := hc'
    obtain ⟨fs₁, fs₂, u, hA⟩ := hatt i r hi
    obtain ⟨h1, h2⟩ := hA.again hg.ok hb ((hasChanged_lock hv).symm.trans hc1) hc2 hr hget
    have hl : LeafSound P t.shared.leaf := hg'.clean (hg'.ok.free (hg'.ok.owner_of_lock hv))
    obtain ⟨todo, h3, -⟩ := fine_sectionWords hl hW h1 h2 a r.call
    exact ⟨todo, hstep todo (by rw [if_neg hc, h3]), Or.inr ⟨hl, h1, h2, h3⟩⟩

/-- The lock of the `put`: its search is repeated, or it still holds in the locked leaf. -/
theorem locked_search_holds_putMeanwhile :
    ∃ t v todo, after (LeafSystem.step stringTableParams) (.new stringTableParams)
    (putMeanwhile.take 3) = some t ∧
      t.step stringTableParams (.lock true ⟨none, none, 0, [], false⟩)
        = some ⟨⟨v, t.shared.leaf⟩, Function.update t.threads true (.writing todo)⟩ ∧
      (todo = [] ∨ plainLower t.shared.leaf [97] = (0, none)) := by
  obtain ⟨t, ht⟩ : ∃ t, after (LeafSystem.step stringTableParams) (.new stringTableParams)
      (putMeanwhile.take 3) = some t := ⟨_, rfl⟩
  have hi : (after (LeafSystem.step stringTableParams) (.new stringTableParams)
      (putMeanwhile.take 3)).map (fun t => t.threads true)
        = some (.searching ⟨.put fun _ => 7, [97], .make true, .makeEmpty 15,
          .done (0, none) 0 none⟩) := rfl
  have hv : (after (LeafSystem.step stringTableParams) (.new stringTableParams)
      (putMeanwhile.take 3)).map (fun t => t.shared.version.lock)
        = some (some ⟨isleafBit ||| lockBit⟩) := rfl
  rw [ht, Option.map_some, Option.some.injEq] at hi hv
  obtain ⟨todo, h1, h2⟩ := locked_search_holds (a := ⟨none, none, 0, [], false⟩) rfl atRest_new ht
    (brisk_of_few (by decide)) hi rfl rfl hv
  refine ⟨t, _, todo, ht, h1, ?_⟩
  rcases h2 with ⟨-, h2⟩ | ⟨-, h2, -⟩
  · exact Or.inl h2
  · exact Or.inr h2

/-- **After every run** one thread at most is in a critical section, which goes on without a failed
assertion and leaves the leaf in order whenever the version is clean; and without one the lock is
free. -/
theorem shared_leaf_in_order (hW : P.leafWidth = Kind.strings.leafWidth) (hs : AtRest P s)
    (ht : after (LeafSystem.step P) s es = some t) (hb : Brisk es) :
    (∀ i j todo todo', t.threads i = .writing todo → t.threads j = .writing todo' → i = j) ∧
      (∀ i st todo, t.threads i = .writing (st :: todo) → (t.step P (.store i)).isSome = true) ∧
      (∀ i, t.threads i = .writing [] → (t.step P (.unlock i)).isSome = true) ∧
      ((∀ i todo, t.threads i ≠ .writing todo) → t.shared.version.lock.isSome = true) ∧
      (t.shared.version.test dirtyMask = false →
        LeafSound P t.shared.leaf ∧ ∀ k, (lookup t.shared.leaf k).isSome = true) := by
  obtain ⟨⟨g, hg⟩, -, -⟩ := hs.runOk hW ht hb
  have hlocked : ∀ i todo, t.threads i = .writing todo → t.shared.version.locked = true :=
    fun i todo hi => by
    rw [hg.ok.locked, (hg.ok.owner i).mp ⟨todo, hi⟩]
    rfl
  refine ⟨fun i j todo todo' hi hj => ?_, fun i st todo hi => ?_, fun i hi => ?_, fun hno => ?_,
    fun hclean => ?_⟩
  · exact Option.some.inj (((hg.ok.owner i).mp ⟨todo, hi⟩).symm.trans
      ((hg.ok.owner j).mp ⟨todo', hj⟩))
  · have hl := hlocked i _ hi
    cases st with
    | mark m =>
        cases m <;> simp [LeafSystem.step, hi, LeafStore.apply, Mark.apply, markInsert, markSplit,
          markDeleted,
        mark, hl]
    | _ => simp [LeafSystem.step, hi, LeafStore.apply]
  · simp [LeafSystem.step, hi, Nodeversion.unlock, hlocked i _ hi]
  · have hnone : g.owner = none := by
      by_contra h0
      obtain ⟨i, hown⟩ := Option.ne_none_iff_exists'.mp h0
      obtain ⟨todo, hi⟩ := (hg.ok.owner i).mpr hown
      exact hno i todo hi
    rw [Nodeversion.lock, hg.ok.locked, hnone, hg.ok.clean_iff.mpr (hg.ok.free hnone)]
    rfl
  · have hl : LeafSound P t.shared.leaf := hg.clean (hg.ok.clean_iff.mp hclean)
    exact ⟨hl, hl.lookup_isSome⟩

/-- Behind both calls the leaf is sound, and can be locked. -/
theorem shared_leaf_in_order_putMeanwhile :
    ∃ t, after (LeafSystem.step stringTableParams) (.new stringTableParams)
    (.stable false .get [97] :: putMeanwhile)
        = some t ∧ LeafSound stringTableParams t.shared.leaf ∧
        t.shared.version.lock.isSome = true := by
  obtain ⟨t, ht⟩ : ∃ t, after (LeafSystem.step stringTableParams) (.new stringTableParams)
      (.stable false .get [97] :: putMeanwhile) = some t := ⟨_, rfl⟩
  have hv : (after (LeafSystem.step stringTableParams) (.new stringTableParams)
      (.stable false .get [97] :: putMeanwhile)).map (fun t =>
        t.shared.version) = some (.make true) := rfl
  rw [ht, Option.map_some, Option.some.injEq] at hv
  obtain ⟨-, -, -, -, h⟩ := shared_leaf_in_order rfl atRest_new ht (brisk_of_few (by decide))
  exact ⟨t, ht, (h (by rw [hv]; decide)).1, by rw [hv]; decide⟩

end

end MasstreeLHM.KeyTable.Shared
