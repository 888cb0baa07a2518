import MasstreeLHM.KeyTable.ScanSteps
import MasstreeLHM.Trie.Enumeration

/-!
# Scanning a layer

From any place in a layer the scan visits the keys ahead in order, those of the layers below in
their place, and gets to the end of the layer with the stack it had.

`Under` are the keys of a slot, and `Later` those of some slots that are behind the key of the scan.
`later_cons` takes the first slot off, so that `Enumerates.append` puts the lists of the slots
together.

`Finishes` is the statement about runs: from this state the scan gets to the end of the layer, and
has visited then what the map holds at the keys in question, in order.  `Finishes.of_round` goes one
round back and `Finishes.cons` adds what has been visited on the way; `Stands.enter` and
`Finishes.up` enter and leave a layer.  `AtSlot` is a scan at one slot, and `AtSlot.finishes` its
cases: a value, a layer, a slot passed.  **`finishes_layer`** is the induction, over the bytes by
which the prefix can still get longer and, within a layer, over the slots ahead.
-/

namespace MasstreeLHM.KeyTable

open Trie

variable {V : Type} {P : NodeParams} {S : Layers V} {G : Ghost} {M : LayerMap Bytes (ℕ × ℕ) V Ptr}
  {R f g n r : Ptr} {l : Leaf (Cell V)} {t t' : Slot (Cell V)} {k q u : Bytes} {p ki : ℕ}
  {ka : BufferKey}
  {s s₁ s₂ : StringScan V} {m : Bytes → Option V} {A B : Set Bytes} {L : List (Bytes × V)}
  {stack : List (Ptr × Ptr)} {out : List (Bytes × V)}

/-! ## The keys of a slot -/

/-- The keys that begin with `u` and go on in the cell of the slot `t`. -/
def Under (u : Bytes) (t : Slot (Cell V)) : Set Bytes :=
  {k | ∃ q, k = u ++ q ∧ byteCut.cell q = cellOf t}

lemma lt_of_under {a b : Bytes} (h : keyLt t t') (ha : a ∈ Under u t) (hb : b ∈ Under u t') :
    a < b := by
  obtain ⟨q, rfl, hq⟩ := ha
  obtain ⟨q', rfl, hq'⟩ := hb
  exact (append_lt_append_iff rfl).mpr (Or.inr ⟨rfl, lt_of_keyLt h hq hq'⟩)

/-- Nothing ahead of a key is empty. -/
lemma ne_nil_of_compare (hc : ka.compare t < 0) (hq : byteCut.cell q = cellOf t) : q ≠ [] := by
  rintro rfl
  obtain ⟨h1, h2⟩ := Prod.mk.inj hq
  rcases BufferKey.compare_neg.mp hc with h | ⟨h, h'⟩
  · rw [← h1] at h
    exact absurd h (Nat.not_lt_zero _)
  · rw [← h2] at h'
    exact absurd h' (Nat.not_lt_zero _)

lemma LayerAt.get_eq (h : LayerAt M R u f) (hk : k ≠ [] ∨ u = []) :
    get byteCut M R (u ++ k) = get byteCut M f k := by
  rcases hk with hk | rfl
  · exact (h.leads hk).get_eq
  · generalize hu : ([] : Bytes) = w at h
    cases h with
    | root => rfl
    | step _ hq =>
        have := congrArg List.length hu
        rw [List.length_append, List.length_take_of_le hq.le, List.length_nil] at this
        omega

lemma LayerAt.get_eq_of_cell (h : LayerAt M R u f) (hk : k ≠ [] ∨ u = [])
    (hc : byteCut.cell q = byteCut.cell k) :
    get byteCut M R (u ++ q) = get byteCut M f q := by
  refine h.get_eq (hk.imp_left fun hk h0 => hk ?_)
  have h1 := (Prod.mk.inj hc).2
  rw [h0] at h1
  exact List.length_eq_zero_iff.mp (by simpa using h1.symm)

/-- The keys of a value. -/
lemma enumerates_value {v : V} (hu : LayerAt M R u f)
    (hM : M f (cellOf t) = some (.value (restOf t) v)) (hc : byteCut.cell q = cellOf t)
    (hr : byteCut.rest q = restOf t) (hq : q ≠ [] ∨ u = []) :
    Enumerates (get byteCut M R) (Under u t) [(u ++ q, v)] := by
  have hget : ∀ q', byteCut.cell q' = cellOf t →
      get byteCut M R (u ++ q') = if restOf t = byteCut.rest q' then some v else none := by
    intro q' hc'
    rw [hu.get_eq_of_cell hq (hc'.trans hc.symm), get_of_value (hc' ▸ hM)]
  refine .single ⟨q, rfl, hc⟩ (by rw [hget q hc, if_pos hr.symm]) ?_
  rintro a ⟨q', rfl, hc'⟩ hne
  rw [hget q' hc', if_neg]
  exact fun h0 => hne (congrArg (u ++ ·) (byteCut.ext (hc'.trans hc.symm) (h0.symm.trans hr.symm)))

/-- The keys of the slots `es` that are behind the key of the scan. -/
def Later (ka : BufferKey) (u : Bytes) (es : List (Slot (Cell V))) : Set Bytes :=
  {k | ∃ t ∈ es, ka.compare t < 0 ∧ k ∈ Under u t}

/-- The first slot may be the one where the scan is. -/
lemma later_cons {es : List (Slot (Cell V))} (hes : (t :: es).Pairwise keyLt)
    (hc : ka.compare t ≤ 0) {ka' : BufferKey} (hc' : ka'.compare t ≤ 0) :
    Later ka u (t :: es) = {k | ka.compare t < 0 ∧ k ∈ Under u t} ∪ Later ka' u es := by
  have h1 : ∀ t' ∈ es, ka.compare t' < 0 ∧ ka'.compare t' < 0 := fun t' ht' =>
    have hlt := List.rel_of_pairwise_cons hes ht'
    ⟨BufferKey.compare_neg_of_keyLt hlt hc, BufferKey.compare_neg_of_keyLt hlt hc'⟩
  ext k
  constructor
  · rintro ⟨t', ht', h2, h3⟩
    rcases List.mem_cons.mp ht' with rfl | ht'
    · exact Or.inl ⟨h2, h3⟩
    · exact Or.inr ⟨t', ht', (h1 t' ht').2, h3⟩
  · rintro (⟨h2, h3⟩ | ⟨t', ht', -, h3⟩)
    · exact ⟨t, List.mem_cons_self, h2, h3⟩
    · exact ⟨t', List.mem_cons_of_mem _ ht', (h1 t' ht').1, h3⟩

/-- The keys of a slot are in front of those of the next ones. -/
lemma lt_of_later {es : List (Slot (Cell V))} (hes : (t :: es).Pairwise keyLt) {a b : Bytes}
    (ha : a ∈ Under u t) (hb : b ∈ Later ka u es) : a < b := by
  obtain ⟨t', ht', -, hb⟩ := hb
  exact lt_of_under (List.rel_of_pairwise_cons hes ht') ha hb

/-- Where in front of all of them the scan is does not matter. -/
lemma later_congr {ka' : BufferKey} {es : List (Slot (Cell V))} (h : ∀ t ∈ es, ka.compare t < 0)
    (h' : ∀ t ∈ es, ka'.compare t < 0) : Later ka' u es = Later ka u es := by
  ext k
  constructor
  · rintro ⟨t, ht, -, hk⟩
    exact ⟨t, ht, h t ht, hk⟩
  · rintro ⟨t, ht, -, hk⟩
    exact ⟨t, ht, h' t ht, hk⟩

/-- Nothing is in front of the key that a layer is entered with. -/
lemma compare_entered (hk : ka.ikey = 0) (hlen : ka.len = 0) : ka.compare t ≤ 0 :=
  not_lt.mp fun h0 => by
  have := BufferKey.compare_pos.mp h0
  omega

/-- All keys of a layer, behind its prefix. -/
lemma mem_later_of_entered (hk : ka.ikey = 0) (hlen : ka.len = 0) {es : List (Slot (Cell V))} :
    k ∈ Later ka u es ↔ ∃ t ∈ es, k ∈ Under u t ∧ k ≠ u := by
  constructor
  · rintro ⟨t, ht, hc, q, rfl, hq⟩
    exact ⟨t, ht, ⟨q, rfl, hq⟩, by simpa using ne_nil_of_compare hc hq⟩
  · rintro ⟨t, ht, ⟨q, rfl, hq⟩, hne⟩
    refine ⟨t, ht, BufferKey.compare_neg.mpr ?_, q, rfl, hq⟩
    have hpos : 0 < q.length := List.length_pos_iff.mpr (by simpa using hne)
    have := (Prod.mk.inj hq).2
    omega

/-! ## The keys of a layer -/

/-- The keys in the layer below a slot are keys of the slot. -/
lemma under_of_below (hc : byteCut.cell q = cellOf t) (hq : 8 < q.length)
    (hk : k ∈ Under (u ++ q.take 8) t') (hne : k ≠ u ++ q.take 8) : k ∈ Under u t := by
  obtain ⟨x, rfl, -⟩ := hk
  have hx : x ≠ [] := fun h0 => hne (by rw [h0, List.append_nil])
  exact ⟨q.take 8 ++ x, List.append_assoc _ _ _, (byteCut_take_append hq hx).1.trans hc⟩

/-- The keys of the slot of a layer are in that layer. -/
lemma exists_below {E : Ptr → Slot (Cell V) → Prop} {fam : Ptr → Ptr} (hE : Denotes E fam M)
    (hu : LayerAt M R u f) (hM : M f (cellOf t) = some (.layer g)) (hc : byteCut.cell q = cellOf t)
    (hq : 8 < q.length) (hk : get byteCut M R k ≠ none) (hkt : k ∈ Under u t) :
    ∃ t', E g t' ∧ k ∈ Under (u ++ q.take 8) t' ∧ k ≠ u ++ q.take 8 := by
  obtain ⟨x, rfl, hx⟩ := hkt
  obtain ⟨h1, h2⟩ := Prod.mk.inj (hx.trans hc.symm)
  have hx8 : 8 < x.length := by omega
  have htake : x.take 8 = q.take 8 := take_eq_of_slice_eq h1 hx8 hq
  rw [hu.get_eq (Or.inl (List.ne_nil_of_length_pos (by omega))), get_of_layer (hx ▸ hM),
    byteCut_rest_of_lt hx8, Option.bind_some] at hk
  cases hi : M g (byteCut.cell (x.drop 8)) with
  | none => exact absurd (get_of_none hi) hk
  | some i =>
      obtain ⟨t', e1, e2, -⟩ := (hE _ _ _).mp hi
      have heq : u ++ x = u ++ q.take 8 ++ x.drop 8 := by
        rw [← htake, List.append_assoc, List.take_append_drop]
      refine ⟨t', e1, ⟨x.drop 8, heq, e2.symm⟩, fun h0 => ?_⟩
      have := congrArg List.length (heq.symm.trans h0)
      rw [List.length_append, List.length_drop] at this
      omega

/-! ## Rounds -/

section

variable [Inhabited V]

/-- One round leads to another, as long as the visitor goes on. -/
def Round (S : Layers V) (s s' : StringScan V) : Prop :=
  StringScan.step S.heap S.stores (fun _ => true) s = some (.inr s')

/-- From `s` the scan gets to the end of the layer of the prefix `u`.  The stack is `stack` then,
and behind `out` it has visited what `m` holds at the keys of `A`. -/
def Finishes (S : Layers V) (m : Bytes → Option V) (u : Bytes) (s : StringScan V)
    (stack : List (Ptr × Ptr)) (out : List (Bytes × V)) (A : Set Bytes) : Prop :=
  ∃ s' L, Relation.ReflTransGen (Round S) s s' ∧ s'.state = .up ∧ s'.stack = stack ∧
    s'.out = out ++ L ∧ s'.ka.At u ∧
    Enumerates m A L

namespace Finishes

lemma of_round (h : Finishes S m u s₂ stack out A) (h1 : Round S s₁ s₂) :
    Finishes S m u s₁ stack out A := by
  obtain ⟨s', L, h2, h3⟩ := h
  exact ⟨s', L, .head h1 h2, h3⟩

/-- A place in a leaf from which the same search starts. -/
lemma of_step (h : Finishes S m u s₂ stack out A) (hs : s₂.state = .findNext)
    (h1 : StringScan.step S.heap S.stores (fun _ => true) s₁ = StringScan.step S.heap S.stores
      (fun _ => true) s₂) :
    Finishes S m u s₁ stack out A := by
  obtain ⟨s', L, h2, h3, h4⟩ := h
  rcases h2.cases_head with rfl | ⟨s₃, h5, h6⟩
  · rw [hs] at h3
    cases h3
  · exact ⟨s', L, .head (h1.trans h5) h6, h3, h4⟩

lemma of_reach (h : Finishes S m u s₂ stack out A) (h1 : Relation.ReflTransGen (Round S) s₁ s₂) :
    Finishes S m u s₁ stack out A := by
  obtain ⟨s', L, h2, h3⟩ := h
  exact ⟨s', L, h1.trans h2, h3⟩

/-- What has been visited on the way comes first. -/
lemma cons (h : Finishes S m u s stack (out ++ L) B) (hL : Enumerates m A L)
    (hlt : ∀ a ∈ A, ∀ b ∈ B, a < b) :
    Finishes S m u s stack out (A ∪ B) := by
  obtain ⟨s', L', h2, h3, h4, h5, h6, h7⟩ := h
  exact ⟨s', L ++ L', h2, h3, h4, by rw [h5, List.append_assoc], h6, hL.append h7 hlt⟩

lemma congr (h : Finishes S m u s stack out A) (hB : ∀ k, m k ≠ none → (k ∈ B ↔ k ∈ A)) :
    Finishes S m u s stack out B := by
  obtain ⟨s', L, h2, h3, h4, h5, h6, h7⟩ := h
  exact ⟨s', L, h2, h3, h4, h5, h6, h7.congr hB⟩

end Finishes

/-! ## Moves -/

/-- Searching on. -/
lemma step_findNext (hs : s.state = .findNext) : StringScan.step S.heap S.stores (fun _ => true) s
    = (StringScan.findNext S.heap S.stores s).map Sum.inr := by
  rw [StringScan.step, hs]

/-- A value is visited. -/
lemma step_emit (hs : s.state = .emit) {v : V} (hv : s.entry = .value v) :
    StringScan.step S.heap S.stores (fun _ => true) s = StringScan.step S.heap S.stores
    (fun _ => true)
      { s with ki := s.ki + 1, out := s.out ++ [(s.ka.fullString, v)], state := .findNext } := by
  refine Eq.trans ?_ (step_findNext rfl).symm
  rw [StringScan.step, hs]
  simp only [hv, if_true]
  rfl

/-- **A layer is entered** at its first slot. -/
lemma Stands.enter (hS : Stands P S G M) (hr : Held S.heap G s.root) (hk : s.ka.ikey = 0)
    (hlen : s.ka.len = 0) :
    ∃ n l, StringScan.findRetry S.heap s = some { s with n := n, ki := 0, state := .findNext } ∧
    G.live n ∧
      G.fam n = G.fam s.root ∧ S.heap.node n = .leaf l ∧ G.lo n = 0 := by
  obtain ⟨c, l, h1, h2⟩ := hS.lower hr []
  have hslice : slice [] = 0 := rfl
  have hok := hS.ok.heap.leaves c.n { l with parent := none } h2.live (by rw [h2.leaf]; rfl)
  have hleaf := Stands.heap_leaf h2.leaf
  have hlo := h2.lo
  rw [hslice] at hlo
  refine ⟨c.n, l, ?_, h2.live, h2.fam, h2.leaf, Nat.le_zero.mp hlo⟩
  have hw : l.permutation.WF P.leafWidth := hok.perm
  have hsorted : l.entries.Pairwise keyLt := hok.sorted
  have hpos : (StringScan.lowerPosition S.heap c.n s.ka).1 = 0 :=
    lowerPosition_fst hw hsorted hleaf (Nat.zero_le _) (by simp) fun t _ => compare_entered hk hlen
  obtain ⟨h3, h4, -⟩ := lower_eq_some h1
  rw [hslice] at h3
  simp only [StringScan.findRetry, hk, h3, h4, hpos, Bool.false_eq_true, if_false]

/-- **A layer is left**, and the scan is at its slot again. -/
lemma Finishes.up (hS : Stands P S G M) (hu : LayerAt M R u (G.fam n)) (hn : G.live n)
    (hl : S.heap.node n = .leaf l) (hki : ki < l.size) (ht : l.slot (l.permutation.get ki) = t)
    (hq : Spells S G n (l.permutation.get ki) t u q) (hv : isLayer t = true)
    (h : Finishes S m (u ++ q.take 8) s ((n, r) :: stack) out A) (hlt : ∀ a ∈ A, ∀ b ∈ B, a < b)
    (hon : ∀ s', InLeaf S G M R s' u l → s'.n = n → s'.ki = ki → s'.state = .findNext →
      s'.stack = stack →
      s'.ka.compare t = 0 → Finishes S m u s' stack s'.out B) :
        Finishes S m u s stack out (A ∪ B) := by
  obtain ⟨s₁, L, h1, h2, h3, h4, h5, h6⟩ := h
  obtain ⟨h8, -⟩ := hq.layer hv
  have hlen : (q.take 8).length = 8 := List.length_take_of_le h8.le
  have hw : l.permutation.WF P.leafWidth :=
    (hS.ok.heap.leaves n { l with parent := none } hn (by rw [hl]; rfl)).perm
  have hsorted : l.entries.Pairwise keyLt :=
    (hS.ok.heap.leaves n { l with parent := none } hn (by rw [hl]; rfl)).sorted
  -- the slice is read back
  have hpos : s₁.ka.pos - 8 = u.length := by
    rw [h5.pos, List.length_append, hlen, Nat.add_sub_cancel]
  have hat : s₁.ka.unshift.At u := ⟨h5.length, hpos, (List.prefix_append _ _).trans h5.before⟩
  have hslice : slice ((s₁.ka.buf.drop u.length).take 8) = t.ikey := by
    obtain ⟨ys, hys⟩ := h5.before
    rw [← hys, List.append_assoc, List.drop_left, List.take_left' hlen, ← (Prod.mk.inj hq.cell).1,
      slice, slice, padTo_of_le hlen.ge, padTo_of_le h8.le, List.take_take, Nat.min_self]
  have hcmp : s₁.ka.unshift.compare t = 0 := by
    refine BufferKey.compare_eq.mpr ⟨?_, ?_⟩
    · rw [BufferKey.unshift, hpos, hslice]
    · have := (Prod.mk.inj hq.cell).2
      change rank t = min 9 9
      omega
  have hki' : (StringScan.lowerPosition S.heap n s₁.ka.unshift).1 = ki :=
    lowerPosition_of_eq hw hsorted (Stands.heap_leaf hl) hki (ht ▸ hcmp)
  set s₂ : StringScan V := ⟨r, n, ki, stack, s₁.ka.unshift, s₁.entry, .findNext, s₁.out⟩ with hs₂
  have hstep : StringScan.step S.heap S.stores (fun _ => true) s₁ = StringScan.step S.heap S.stores
    (fun _ => true) s₂ := by
    refine Eq.trans ?_ (step_findNext rfl).symm
    rw [StringScan.step, h2]
    simp only [h3, hki']
    rfl
  have hfin := hon s₂ ⟨hu, hn, hl, hat⟩ rfl rfl rfl rfl hcmp
  have hout : s₂.out = out ++ L := h4
  rw [hout] at hfin
  exact .cons ((hfin.of_step rfl hstep).of_reach h1) h6 hlt

/-! ## Layers -/

/-- From any place in the layer of the prefix `u` the scan gets to the end of the layer. -/
def LayerFinishes (S : Layers V) (G : Ghost) (M : LayerMap Bytes (ℕ × ℕ) V Ptr) (R : Ptr)
    (u : Bytes) : Prop :=
  ∀ (s : StringScan V) (l : Leaf (Cell V)) (es : List (Slot (Cell V))), Ahead S.heap s.n s.ki es →
    s.state = .findNext → InLeaf S G M R s u l → es.Pairwise keyLt →
      (∀ t ∈ es, s.ka.compare t ≤ 0) →
        Finishes S (get byteCut M R) u s s.stack s.out (Later s.ka u es)

/-- The scan is in front of the slot `t`, which spells `q`, or at it.  `es` are the slots behind,
and from there the scan gets to the end of the layer. -/
structure AtSlot (S : Layers V) (G : Ghost) (M : LayerMap Bytes (ℕ × ℕ) V Ptr) (R : Ptr)
    (s : StringScan V) (u : Bytes) (l : Leaf (Cell V)) (t : Slot (Cell V)) (q : Bytes)
    (es : List (Slot (Cell V))) : Prop where
  state : s.state = .findNext
  leaf : InLeaf S G M R s u l
  lt : s.ki < l.size
  slot : l.slot (l.permutation.get s.ki) = t
  spells : Spells S G s.n (l.permutation.get s.ki) t u q
  sorted : (t :: es).Pairwise keyLt
  compare : s.ka.compare t ≤ 0
  behind : ∀ s', InLeaf S G M R s' u l → s'.n = s.n → s'.ki = s.ki + 1 → s'.state = .findNext →
    s'.ka.compare t ≤ 0 →
      Finishes S (get byteCut M R) u s' s'.stack s'.out (Later s'.ka u es)

namespace AtSlot

variable {es : List (Slot (Cell V))}

lemma item (h : AtSlot S G M R s u l t q es) (hS : Stands P S G M) :
    M (G.fam s.n) (cellOf t) = some (itemOf G.fam t) := by
  refine hS.denotes.item ?_
  rw [← h.slot]
  exact entry_of_mem h.leaf.live h.leaf.leaf (h.leaf.mem_entries hS h.lt)

/-- What is behind the slot does not depend on where in front of it the scan is. -/
lemma later_eq (h : AtSlot S G M R s u l t q es) (hka : ka.compare t ≤ 0) :
    Later ka u es = Later s.ka u es :=
  later_congr
    (fun _ h' => BufferKey.compare_neg_of_keyLt (List.rel_of_pairwise_cons h.sorted h') h.compare)
    fun _ h' => BufferKey.compare_neg_of_keyLt (List.rel_of_pairwise_cons h.sorted h') hka

/-- A scan that is at the slot goes on behind it. -/
lemma passed (h : AtSlot S G M R s u l t q es) (hS : Stands P S G M) {s' : StringScan V}
    (h1 : InLeaf S G M R s' u l) (h2 : s'.n = s.n) (h3 : s'.ki = s.ki)
    (h4 : s'.state = .findNext) (h5 : s'.ka.compare t = 0) :
    Finishes S (get byteCut M R) u s' s'.stack s'.out (Later s.ka u es) := by
  obtain ⟨ka', e1, e2, e3, e4⟩ :=
    h1.findNext_skip hS (h3 ▸ h.lt) (h3 ▸ h.slot) (h2 ▸ h3 ▸ h.spells) h5.ge
  have h6 : ka'.compare t ≤ 0 := by
    rw [BufferKey.compare, e3, e4]
    exact h5.le
  rw [← h.later_eq h6]
  exact .of_round
    (h.behind { s' with ka := ka', entry := t.body.lv, ki := s'.ki + 1, state := .findNext }
      ⟨h1.layer, h1.live, h1.leaf, e2⟩ h2 (congrArg (· + 1) h3) rfl h6)
    (by rw [Round, step_findNext h4, e1]; rfl)

/-- **A value** that the scan comes to is visited first. -/
lemma finishes_value (h : AtSlot S G M R s u l t q es) (hS : Stands P S G M)
    (hlt : s.ka.compare t < 0) (hv : isLayer t = false) :
    Finishes S (get byteCut M R) u s s.stack s.out (Later s.ka u (t :: es)) := by
  obtain ⟨v, g1, g2, -⟩ := h.spells.value hv
  obtain ⟨ka', e1, e2, e3, e4⟩ := h.leaf.findNext_value hS h.lt h.slot h.spells hlt hv
  have hval := h.item hS
  rw [itemOf, g1] at hval
  set s₁ : StringScan V := { s with ka := ka', entry := t.body.lv, state := .emit } with hs₁
  set s₂ : StringScan V :=
    { s₁ with ki := s₁.ki + 1, out := s₁.out ++ [(s₁.ka.fullString, v)], state := .findNext }
    with hs₂
  have hfin : Finishes S (get byteCut M R) u s₂ s.stack (s.out ++ [(u ++ q, v)])
      (Later ka' u es) :=
    e3 ▸ h.behind s₂ ⟨h.leaf.layer, h.leaf.live, h.leaf.leaf, e2⟩ rfl rfl rfl e4.le
  have hone := enumerates_value h.leaf.layer hval h.spells.cell g2
    (Or.inl (ne_nil_of_compare hlt h.spells.cell))
  refine .of_round
    (.of_step (.congr (hfin.cons hone fun a ha b => lt_of_later h.sorted ha) fun k _ => ?_) rfl
      (step_emit (s := s₁) rfl g1))
    (by rw [Round, step_findNext h.state, e1]; rfl)
  rw [later_cons h.sorted h.compare e4.le]
  simp [hlt]

/-- **A layer** that the scan comes to is entered, scanned and left, and then the scan is at its
slot. -/
lemma finishes_layer (h : AtSlot S G M R s u l t q es) (hS : Stands P S G M)
    (hlt : s.ka.compare t < 0) (hv : isLayer t = true)
    (hbelow : LayerFinishes S G M R (u ++ q.take 8)) :
    Finishes S (get byteCut M R) u s s.stack s.out (Later s.ka u (t :: es)) := by
  obtain ⟨h8, -, r, g1, g2⟩ := h.spells.layer hv
  obtain ⟨ka', e1, e2⟩ := h.leaf.findNext_layer hS h.lt h.slot h.spells hlt hv g1
  have hval := h.item hS
  rw [itemOf, g1] at hval
  set s₁ : StringScan V :=
    ⟨r, s.n, s.ki, (s.n, s.root) :: s.stack, ka', t.body.lv, .down, s.out⟩ with hs₁
  obtain ⟨b, lb, f1, f2, f3, f4, f5⟩ :=
    hS.enter (s := { s₁ with ka := ka'.shiftClear }) g2 rfl rfl
  set s₂ : StringScan V :=
    { s₁ with ka := ka'.shiftClear, n := b, ki := 0, state := .findNext } with hs₂
  -- all slots of the layer
  obtain ⟨bs, b1, b2, b3⟩ := Ahead.exists_from hS.ok.heap f2 f4
  have hlayer : LayerAt M R (u ++ q.take 8) (G.fam b) := by
    rw [f3]
    exact .step h.leaf.layer h8 (h.spells.cell ▸ hval)
  have hfin := hbelow s₂ lb (lb.entries ++ bs) (b1 0 (Nat.zero_le _)) rfl ⟨hlayer, f2, f4, e2⟩ b2
    fun t _ => (compare_entered rfl rfl)
  have hunder : ∀ {k}, k ∈ Later s₂.ka (u ++ q.take 8) (lb.entries ++ bs) → k ∈ Under u t := by
    intro k hk
    obtain ⟨t', -, h1, h2⟩ := (mem_later_of_entered rfl rfl).mp hk
    exact under_of_below h.spells.cell h8 h1 h2
  have hround : Round S s₁ s₂ := congrArg (Option.map Sum.inr) f1
  have hup := Finishes.up hS h.leaf.layer h.leaf.live h.leaf.leaf h.lt h.slot h.spells hv hfin
    (fun a ha b => lt_of_later h.sorted (hunder ha))
    fun s' h1 h2 h3 h4 h5 h6 => h5 ▸ h.passed hS h1 h2 h3 h4 h6
  refine .congr (.of_round (.of_round hup hround)
    (by rw [Round, step_findNext h.state, e1]; rfl)) fun k hk => ?_
  rw [later_cons h.sorted h.compare h.compare, Set.mem_union, Set.mem_union]
  refine or_congr_left ⟨fun h0 => ?_, fun h0 => ⟨hlt, hunder h0⟩⟩
  obtain ⟨t', h1, h2⟩ := exists_below hS.denotes h.leaf.layer hval h.spells.cell h8 hk h0.2
  exact (mem_later_of_entered rfl rfl).mpr
    ⟨t', (b3 t').mpr ⟨f3 ▸ h1, f5 ▸ Nat.zero_le _⟩, h2⟩

/-- **The slot and what is behind it.** -/
lemma finishes (h : AtSlot S G M R s u l t q es) (hS : Stands P S G M)
    (hbelow : isLayer t = true → LayerFinishes S G M R (u ++ q.take 8)) :
    Finishes S (get byteCut M R) u s s.stack s.out (Later s.ka u (t :: es)) := by
  rcases h.compare.lt_or_eq with hlt | heq
  · cases hv : isLayer t with
    | false => exact h.finishes_value hS hlt hv
    | true => exact h.finishes_layer hS hlt hv (hbelow hv)
  · rw [later_cons h.sorted h.compare h.compare]
    refine (h.passed hS h.leaf rfl rfl h.state heq).congr fun k _ => ?_
    simp [heq]

end AtSlot

/-- The scan goes on in the next leaf. -/
lemma InLeaf.next (hS : Stands P S G M) (hL : InLeaf S G M R s u l) (hst : s.state = .findNext)
    {es : List (Slot (Cell V))} {m : Ptr} (hsize : l.size ≤ s.ki) (hnext : l.next = some m)
    (hm : Ahead S.heap m 0 es) (hc : ∀ t ∈ es, s.ka.compare t ≤ 0) :
    ∃ l', InLeaf S G M R { s with n := m, ki := 0, state := .findNext } u l' ∧
      Round S s { s with n := m, ki := 0, state := .findNext } := by
  have hend := hL.findNext_end hS hsize
  obtain ⟨g1, g2, -, lm, g4, -⟩ := (hS.ok.heap.chain s.n { l with parent := none } hL.live
    (by rw [hL.leaf]; rfl)).next_some m hnext
  cases hlm : S.heap.node m with
  | internode j => simp [hlm] at g4
  | leaf l' =>
      have hok := hS.ok.heap.leaves m { l' with parent := none } g1 (by rw [hlm]; rfl)
      have hw : l'.permutation.WF P.leafWidth := hok.perm
      have hpos : (StringScan.lowerPosition S.heap m s.ka).1 = 0 :=
        lowerPosition_fst hw hok.sorted (Stands.heap_leaf hlm) (Nat.zero_le _) (by simp)
          fun t ht => hc t (hm.mem_of_entries hw (Stands.heap_leaf hlm) ht)
      rw [hnext, Option.elim_some, hpos] at hend
      refine ⟨l', ⟨g2.symm ▸ hL.layer, g1, hlm, hL.key⟩, ?_⟩
      rw [Round, step_findNext hst, hend]
      rfl

/-- **The rest of a layer.** -/
lemma finishes_layer (hS : Stands P S G M) (hM : Spelled M R) {es : List (Slot (Cell V))}
    (hA : Ahead S.heap n ki es) (hn : s.n = n) (hki : s.ki = ki) (hst : s.state = .findNext)
    (hL : InLeaf S G M R s u l) (hes : es.Pairwise keyLt) (hc : ∀ t ∈ es, s.ka.compare t ≤ 0) :
    Finishes S (get byteCut M R) u s s.stack s.out (Later s.ka u es) := by
  -- the prefixes of the layers below are longer, and none is longer than a key
  induction hd : 1024 - u.length using Nat.strong_induction_on generalizing u n ki es l s with
  | _ d ih =>
      induction hA generalizing l s with
      | @last n ki hsize hnext =>
          subst hn hki
          rw [Stands.heap_leaf hL.leaf] at hsize hnext
          have hend := hL.findNext_end hS hsize
          rw [hnext] at hend
          have hround : Round S s { s with state := .up } := by
            rw [Round, step_findNext hst, hend]
            rfl
          exact ⟨_, [], .single hround, rfl, rfl, (List.append_nil _).symm, hL.key,
            .nil (by simp [Later])⟩
      | @next n m ki es hsize hnext hm ihA =>
          subst hn hki
          rw [Stands.heap_leaf hL.leaf] at hsize hnext
          obtain ⟨l', hL', hround⟩ := hL.next hS hst hsize hnext hm hc
          refine .of_round ?_ hround
          exact ihA (s := { s with n := m, ki := 0, state := .findNext }) rfl rfl rfl hL' hes hc
      | @slot n ki es hsize he ihA =>
          subst hn hki
          rw [Stands.heap_leaf hL.leaf] at hsize hes hc ⊢
          obtain ⟨q, hq⟩ := hL.spells hS hM hsize
          have hes' := (List.pairwise_cons.mp hes).2
          have hat : AtSlot S G M R s u l (l.slot (l.permutation.get s.ki)) q es :=
            ⟨hst, hL, hsize, rfl, hq, hes, hc _ List.mem_cons_self,
              fun s' h1 h2 h3 h4 h5 => ihA h2 h3 h4 h1 hes' fun t' ht' =>
                (BufferKey.compare_neg_of_keyLt (List.rel_of_pairwise_cons hes ht') h5).le⟩
          refine hat.finishes hS fun hv s' l' es' h1 h2 h3 h4 h5 => ?_
          have hlen : (u ++ q.take 8).length = u.length + 8 := by
            rw [List.length_append, List.length_take_of_le (hq.layer hv).1.le]
          have hroom := hq.room
          exact ih (1024 - (u ++ q.take 8).length) (by omega) h1 rfl rfl h2 h3 h4 h5 rfl

end

end MasstreeLHM.KeyTable
