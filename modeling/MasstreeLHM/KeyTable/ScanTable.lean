import MasstreeLHM.KeyTable.MapRuns
import MasstreeLHM.KeyTable.ScanRuns

/-!
# Scanning a table

A scan goes down along its first key, layer by layer, and from there through what is ahead in each
of these layers.  After any calls it visits the keys of the map in order, until the visitor has
enough.

`From` are the keys from the first one on, and `Here` those of them that share its cell: each layer
on the way contributes what is under the cell, and then what is ahead.  `find_initial` either misses
the cell (`findInitial_miss`) or hits a slot (`Hits`), which is a layer to go down to, a key from
the first one on, or one in front of it.  `Landed` is the place where the search stops, with what is
ahead of it, and has a lemma for each of these cases.  **`Stands.descend`** is the induction over
the layers.

The visitor is dealt with last: one that stops has seen the beginning of what one that goes on sees
(`loop_visit`).  `StringTable.Ok.scan` is a scan of one table, and **`scan_shows_map`** is about
every table that any calls lead to.
-/

namespace MasstreeLHM.KeyTable

open Trie

variable {V : Type} [Inhabited V] {P : NodeParams} {S : Layers V} {G : Ghost}
  {M : LayerMap Bytes (ℕ × ℕ) V Ptr}
  {R f : Ptr} {l : Leaf (Cell V)} {t : Slot (Cell V)} {k q u x : Bytes} {p : ℕ} {ka : BufferKey}
  {s : StringScan V}
  {es : List (Slot (Cell V))} {c : Cursor} {emit : Bool}

/-! ## The first key -/

/-- The key of the scan is `k`, behind the prefix `u`. -/
structure BufferKey.Holds (ka : BufferKey) (u k : Bytes) : Prop where
  place : ka.At u
  before : u ++ k <+: ka.buf
  ikey : ka.ikey = slice k
  len : ka.len = k.length

namespace BufferKey.Holds

omit [Inhabited V] in
lemma compare_eq (hk : ka.Holds u k) (t : Slot (Cell V)) : ka.compare t = compareKey k t := by
  rw [BufferKey.compare, hk.ikey, hk.len]
  rfl

lemma fullString_eq (hk : ka.Holds u k) : ka.fullString = u ++ k := by
  rw [BufferKey.fullString, hk.place.pos, hk.len, ← List.length_append]
  exact (List.prefix_iff_eq_take.mp hk.before).symm

lemma suffix_eq (hk : ka.Holds u k) : ka.suffix = k.drop 8 := by
  obtain ⟨xs, hxs⟩ := hk.before
  rw [BufferKey.suffix, hk.place.pos, hk.len, ← hxs, List.append_assoc, ← List.drop_drop,
    List.drop_left, ← List.length_drop]
  rcases Nat.lt_or_ge k.length 8 with h8 | h8
  · simp [List.drop_of_length_le h8.le]
  · rw [List.drop_append_of_le_length h8, List.take_left]

/-- **The key is shifted.** -/
lemma shift (hk : ka.Holds u k) (h8 : 8 < k.length) :
    ka.shift.Holds (u ++ k.take 8) (k.drop 8) := by
  refine ⟨⟨hk.place.length, ?_, ?_⟩, ?_, ?_, ?_⟩
  · rw [BufferKey.shift, hk.place.pos, List.length_append, List.length_take_of_le h8.le]
  · refine List.IsPrefix.trans ?_ hk.before
    exact (List.prefix_append_right_inj u).mpr (List.take_prefix 8 k)
  · rw [List.append_assoc, List.take_append_drop]
    exact hk.before
  · rw [BufferKey.shift, hk.suffix_eq]
  · rw [BufferKey.shift, hk.len, List.length_drop]

end BufferKey.Holds

/-- The keys from `k` on behind the prefix `u`. -/
def From (u k : Bytes) (emit : Bool) : Set Bytes :=
  {x | ∃ q, x = u ++ q ∧ (k < q ∨ (emit = true ∧ q = k))}

/-- Those of them that share the cell of `k`. -/
def Here (u k : Bytes) (emit : Bool) : Set Bytes :=
  {x | ∃ q, x = u ++ q ∧ byteCut.cell q = byteCut.cell k ∧ (k < q ∨ (emit = true ∧ q = k))}

lemma mem_from_iff (hE : Denotes (Entry S.heap G) G.fam M) (hu : LayerAt M R u f)
    (hk : ka.Holds u k)
    (hes : ∀ t, t ∈ es ↔ Entry S.heap G f t ∧ compareKey k t < 0) (hx : get byteCut M R x ≠ none) :
    x ∈ From u k emit ↔ x ∈ Here u k emit ∪ Later ka u es := by
  constructor
  · rintro ⟨q, rfl, hq⟩
    by_cases hc : byteCut.cell q = byteCut.cell k
    · exact Or.inl ⟨q, rfl, hc, hq⟩
    · have hlt : k < q := hq.resolve_right fun h0 => hc (congrArg byteCut.cell h0.2)
      have hne : q ≠ [] := by
        rintro rfl
        exact List.not_lt_nil _ hlt
      rw [hu.get_eq (Or.inl hne)] at hx
      cases hi : M f (byteCut.cell q) with
      | none => exact absurd (get_of_none hi) hx
      | some i =>
          obtain ⟨t, e1, e2, -⟩ := (hE _ _ _).mp hi
          have hneg : compareKey k t < 0 := by
            rcases lt_trichotomy (compareKey k t) 0 with h0 | h0 | h0
            · exact h0
            · exact absurd (e2.symm.trans (cellOf_eq_iff.mpr h0)) hc
            · exact absurd (lt_of_compareKey_pos h0 e2.symm) (List.lt_asymm hlt)
          exact Or.inr ⟨t, (hes t).mpr ⟨e1, hneg⟩, hk.compare_eq t ▸ hneg, q, rfl, e2.symm⟩
  · rintro (⟨q, rfl, -, hq⟩ | ⟨t, -, hc, q, rfl, hq⟩)
    · exact ⟨q, rfl, hq⟩
    · exact ⟨q, rfl, Or.inl (lt_of_compareKey_neg (hk.compare_eq t ▸ hc) hq)⟩

/-! ## `find_initial` -/

/-- A slot that a search for `k` has hit. -/
structure Hits (S : Layers V) (G : Ghost) (s : StringScan V) (u k : Bytes) (c : Cursor)
    (l : Leaf (Cell V)) (p : ℕ)
    (t : Slot (Cell V)) (q : Bytes) : Prop where
  key : s.ka.Holds u k
  lower : KeyTable.lower S.heap s.root k = some c
  leaf : S.heap.leaf c.n = l
  hit : c.p = some p
  slot : l.slot p = t
  cell : cellOf t = byteCut.cell k
  spells : Spells S G c.n p t u q

lemma lowerPosition_eq (hk : s.ka.Holds u k) (hc : KeyTable.lower S.heap s.root k = some c) :
    StringScan.lowerPosition S.heap c.n s.ka = (c.i, c.p) := by
  obtain ⟨-, -, h3⟩ := lower_eq_some hc
  rw [← h3, StringScan.lowerPosition]
  exact congrArg (lowerBy · _) (funext fun p => hk.compare_eq _)

lemma findInitial_miss (hk : s.ka.Holds u k) (hc : KeyTable.lower S.heap s.root k = some c)
    (hp : c.p = none) :
    StringScan.findInitial S.heap S.stores emit s = some
      { s with n := c.n, ki := c.i, state := .findNext } := by
  obtain ⟨h1, h2, -⟩ := lower_eq_some hc
  simp only [StringScan.findInitial, hk.ikey, h1, h2, lowerPosition_eq hk hc, hp,
    Option.bind_eq_bind, Option.bind_some, Bool.false_eq_true, if_false]
  rfl

namespace Hits

lemma findInitial_layer (h : Hits S G s u k c l p t q) (hv : isLayer t = true) {r : Ptr}
    (hr : t.body.lv = .layer r) :
    StringScan.findInitial S.heap S.stores emit s = some { s with
      n := c.n, ki := c.i, entry := t.body.lv, stack := (c.n, s.root) :: s.stack, root := r,
      state := .down } := by
  obtain ⟨h1, h2, -⟩ := lower_eq_some h.lower
  rw [h.leaf] at h2
  simp only [StringScan.findInitial, h.key.ikey, h1, h.leaf, h2, lowerPosition_eq h.key h.lower,
    h.hit, h.slot, hv, hr, Option.bind_eq_bind, Option.bind_some, Bool.false_eq_true, if_false,
    if_true]
  rfl

/-- A slot without a suffix has the key itself. -/
lemma eq_of_not_hasKsuf (h : Hits S G s u k c l p t q) (hv : isLayer t = false)
    (hs : hasKsuf t = false) : q = k := by
  obtain ⟨v, -, h1, -⟩ := h.spells.value hv
  rw [restOf, hs, if_neg Bool.false_ne_true] at h1
  have hcell := h.spells.cell.trans h.cell
  refine byteCut.ext hcell (h1.trans ?_)
  rw [byteCut_rest] at h1 ⊢
  split_ifs at h1 with h8
  have := (Prod.mk.inj hcell).2
  rw [if_neg (by omega)]

lemma lt_length (h : Hits S G s u k c l p t q) (hs : hasKsuf t = true) : 8 < k.length := by
  have h1 := (h.spells.ksuf hs).1
  have h2 := (Prod.mk.inj (h.spells.cell.trans h.cell)).2
  omega

lemma take_eq (h : Hits S G s u k c l p t q) (hs : hasKsuf t = true) : q.take 8 = k.take 8 :=
  take_eq_of_slice_eq (Prod.mk.inj (h.spells.cell.trans h.cell)).1 (h.spells.ksuf hs).1
    (h.lt_length hs)

/-- The suffixes decide. -/
lemma suffix_iff (h : Hits S G s u k c l p t q) (hs : hasKsuf t = true) :
    (k < q ∨ (emit = true ∧ q = k)) ↔
    s.ka.suffix < q.drop 8 ∨ (q.drop 8 = s.ka.suffix ∧ emit = true) := by
  rw [h.key.suffix_eq, lt_iff_drop (h.cell.symm.trans h.spells.cell.symm) (h.lt_length hs),
    and_comm (a := emit = true)]
  refine or_congr_right (and_congr_left fun _ => ⟨fun h0 => h0 ▸ rfl, fun h0 => ?_⟩)
  rw [← List.take_append_drop 8 q, h0, h.take_eq hs, List.take_append_drop]

/-- What is in front of the key is passed. -/
lemma findInitial_skip (h : Hits S G s u k c l p t q) (hv : isLayer t = false)
    (hq : ¬ (k < q ∨ (emit = true ∧ q = k))) :
    StringScan.findInitial S.heap S.stores emit s
      = some { s with n := c.n, ki := c.i + 1, entry := t.body.lv, state := .findNext } := by
  obtain ⟨h1, h2, -⟩ := lower_eq_some h.lower
  rw [h.leaf] at h2
  cases hs : hasKsuf t with
  | true =>
      have hsuf := h.spells.ksuf hs
      simp only [StringScan.findInitial, h.key.ikey, h1, h.leaf, h2, lowerPosition_eq h.key h.lower,
        h.hit, h.slot, hv, hs, hsuf.2, ← h.suffix_iff hs, hq, Option.bind_eq_bind, Option.bind_some,
        Bool.false_eq_true, if_false, if_true]
      rfl
  | false =>
      have hne : emit = false := by
        rw [h.eq_of_not_hasKsuf hv hs] at hq
        simpa using hq
      simp only [StringScan.findInitial, h.key.ikey, h1, h.leaf, h2, lowerPosition_eq h.key h.lower,
        h.hit, h.slot, hv, hs, hne, Option.bind_eq_bind, Option.bind_some, Bool.false_eq_true,
        if_false]
      rfl

/-- **A key from the first one on** is visited. -/
lemma findInitial_value (h : Hits S G s u k c l p t q) (hv : isLayer t = false)
    (hq : k < q ∨ (emit = true ∧ q = k)) :
    ∃ ka', StringScan.findInitial S.heap S.stores emit s
        = some { s with n := c.n, ki := c.i, ka := ka', entry := t.body.lv, state := .emit } ∧
      ka'.At u ∧ ka'.fullString = u ++ q ∧ ka'.compare t = 0 := by
  obtain ⟨h1, h2, -⟩ := lower_eq_some h.lower
  rw [h.leaf] at h2
  cases hs : hasKsuf t with
  | true =>
      obtain ⟨h8, hsuf⟩ := h.spells.ksuf hs
      have hdrop : (q.drop 8).length = q.length - 8 := List.length_drop
      have hlen := h.spells.length
      obtain ⟨ka₁, g1, g2, g3, -, g5⟩ := h.key.place.store 8 (q.drop 8) (by omega)
      have hat : ({ ka₁ with len := 8 + (q.drop 8).length } : BufferKey).At u :=
        ⟨g2.length, g2.pos, g2.before⟩
      have htake : s.ka.buf.take (u.length + 8) = u ++ q.take 8 := by
        obtain ⟨xs, hxs⟩ := h.key.before
        rw [← hxs, List.append_assoc, List.take_append,
          List.take_of_length_le (Nat.le_add_right _ _), Nat.add_sub_cancel_left,
          List.take_append_of_le_length (h.lt_length hs).le, h.take_eq hs]
      have hbuf : u ++ q <+: ka₁.buf := by
        rw [g5, htake, List.append_assoc u, List.take_append_drop]
        exact List.prefix_append _ _
      refine ⟨{ ka₁ with len := 8 + (q.drop 8).length }, ?_, hat, ?_, ?_⟩
      · simp only [StringScan.findInitial, h.key.ikey, h1, h.leaf, h2,
          lowerPosition_eq h.key h.lower, h.hit, h.slot, hv, hs, hsuf, (h.suffix_iff hs).mp hq,
          BufferKey.assignStoreSuffix, g1, Option.bind_eq_bind, Option.bind_some,
          Bool.false_eq_true, if_false, if_true]
        rfl
      · rw [BufferKey.fullString, hat.pos, hdrop, Nat.add_sub_cancel' h8.le, ← List.length_append]
        exact (List.prefix_iff_eq_take.mp hbuf).symm
      · obtain ⟨c1, c2⟩ := Prod.mk.inj h.cell
        refine BufferKey.compare_eq.mpr ⟨c1.trans (h.key.ikey.symm.trans g3.symm), ?_⟩
        have hk8 := h.lt_length hs
        change rank t = min (8 + (q.drop 8).length) 9
        omega
  | false =>
      obtain rfl := h.eq_of_not_hasKsuf hv hs
      have he : emit = true := (hq.resolve_left (List.lt_irrefl _)).1
      refine ⟨s.ka, ?_, h.key.place, h.key.fullString_eq, ?_⟩
      · simp only [StringScan.findInitial, h.key.ikey, h1, h.leaf, h2,
          lowerPosition_eq h.key h.lower, h.hit, h.slot, hv, hs, he, Option.bind_eq_bind,
          Option.bind_some, Bool.false_eq_true, if_false, if_true]
        rfl
      · rw [h.key.compare_eq]
        exact cellOf_eq_iff.mp h.cell

end Hits

/-! ## Down along the first key -/

/-- In its own cell the first key decides, or the layer below. -/
lemma here_iff_of_lt (h8 : 8 < k.length) : x ∈ Here u k emit ↔
    x ∈ From (u ++ k.take 8) (k.drop 8) emit := by
  have hne : k.drop 8 ≠ [] := List.ne_nil_of_length_pos (by rw [List.length_drop]; omega)
  constructor
  · rintro ⟨q, rfl, hc, hq⟩
    have hq8 : 8 < q.length := by
      have := (Prod.mk.inj hc).2
      omega
    have htake : q.take 8 = k.take 8 := take_eq_of_slice_eq (Prod.mk.inj hc).1 hq8 h8
    refine ⟨q.drop 8, by rw [← htake, List.append_assoc, List.take_append_drop], ?_⟩
    exact hq.imp (lt_iff_drop hc.symm h8).mp fun h0 => ⟨h0.1, congrArg (List.drop 8) h0.2⟩
  · rintro ⟨q, rfl, hq⟩
    have hqne : q ≠ [] := by
      rintro rfl
      rcases hq with h0 | h0
      · exact List.not_lt_nil _ h0
      · exact hne h0.2.symm
    obtain ⟨h1, -⟩ := byteCut_take_append h8 hqne
    refine ⟨k.take 8 ++ q, List.append_assoc _ _ _, h1, hq.imp (fun h0 => ?_) fun h0 => ⟨h0.1, ?_⟩⟩
    · rw [lt_iff_drop h1.symm h8, List.drop_left' (List.length_take_of_le h8.le)]
      exact h0
    · rw [h0.2, List.take_append_drop]

/-- The search for `k` has come to the place `c` in the leaf `l`.  `es` are the slots of the layer
behind `k`. -/
structure Landed (S : Layers V) (G : Ghost) (M : LayerMap Bytes (ℕ × ℕ) V Ptr) (R : Ptr)
    (s : StringScan V) (u k : Bytes) (c : Cursor) (l : Leaf (Cell V)) (es : List (Slot (Cell V))) :
    Prop where
  layer : LayerAt M R u (G.fam s.root)
  nonempty : k ≠ [] ∨ u = []
  key : s.ka.Holds u k
  lower : KeyTable.lower S.heap s.root k = some c
  stops : StopsAt S.heap G (G.fam s.root) k c l
  sorted : es.Pairwise keyLt
  behind : ∀ t, t ∈ es ↔ Entry S.heap G (G.fam s.root) t ∧ compareKey k t < 0
  missed : c.p = none → Ahead S.heap c.n c.i es
  found : ∀ p, c.p = some p →
    c.i < l.size ∧ l.permutation.get c.i = p ∧ Ahead S.heap c.n (c.i + 1) es

namespace Landed

variable (h : Landed S G M R s u k c l es)
include h

lemma layerAt : LayerAt M R u (G.fam c.n) := h.stops.fam.symm ▸ h.layer

lemma mem_from_iff (hS : Stands P S G M) (hx : get byteCut M R x ≠ none) :
    x ∈ From u k emit ↔ x ∈ Here u k emit ∪ Later s.ka u es :=
  KeyTable.mem_from_iff hS.denotes h.layer h.key h.behind hx

lemma compare_neg (ht : t ∈ es) : s.ka.compare t < 0 :=
  h.key.compare_eq t ▸ ((h.behind t).mp ht).2

/-- From behind the place of the key the scan gets to the end of the layer. -/
lemma finishes_behind (hS : Stands P S G M) (hM : Spelled M R) (s' : StringScan V)
    (h1 : Ahead S.heap c.n s'.ki es) (h2 : s'.n = c.n) (h3 : s'.state = .findNext)
    (h4 : s'.ka.At u) (h5 : ∀ t ∈ es, s'.ka.compare t < 0) :
    Finishes S (get byteCut M R) u s' s'.stack s'.out (Later s.ka u es) := by
  rw [later_congr h5 fun _ ht => h.compare_neg ht]
  exact finishes_layer hS hM h1 h2 rfl h3
    ⟨h2.symm ▸ h.layerAt, h2.symm ▸ h.stops.live, h2.symm ▸ h.stops.leaf, h4⟩ h.sorted
    fun t ht => (h5 t ht).le

/-- **A miss**: the scan starts at the first slot behind the key. -/
lemma finishes_miss (hS : Stands P S G M) (hM : Spelled M R) (hp : c.p = none) :
    Finishes S (get byteCut M R) u { s with n := c.n, ki := c.i, state := .findNext } s.stack s.out
      (From u k emit) := by
  refine (h.finishes_behind hS hM { s with n := c.n, ki := c.i, state := .findNext } (h.missed hp)
    rfl rfl h.key.place fun _ ht => h.compare_neg ht).congr fun x hx => ?_
  rw [h.mem_from_iff hS hx, Set.mem_union, or_iff_right]
  rintro ⟨q, rfl, hq, -⟩
  rw [h.layer.get_eq_of_cell h.nonempty hq, get_of_none (hq ▸ hS.missed h.stops hp)] at hx
  exact hx rfl

lemma keyLt_of_hit (hit : Hits S G s u k c l p t q) : (t :: es).Pairwise keyLt := by
  refine List.pairwise_cons.mpr ⟨fun t' ht' => ?_, h.sorted⟩
  have hlt := compareKey_neg.mp ((h.behind t').mp ht').2
  obtain ⟨c1, c2⟩ := Prod.mk.inj hit.cell
  rw [keyLt]
  omega

lemma item_of_hit (hS : Stands P S G M) (hit : Hits S G s u k c l p t q) :
    M (G.fam c.n) (cellOf t) = some (itemOf G.fam t) := by
  obtain ⟨hlive, -⟩ := h.stops.hit p hit.hit
  refine hS.denotes.item ?_
  rw [← hit.slot]
  exact entry_of_mem h.stops.live h.stops.leaf (List.mem_map_of_mem (List.mem_of_getElem? hlive))

end Landed

namespace Hits

lemma under (hit : Hits S G s u k c l p t q) (hx : x ∈ Here u k emit) : x ∈ Under u t := by
  obtain ⟨q', rfl, hc', -⟩ := hx
  exact ⟨q', rfl, hc'.trans hit.cell.symm⟩

lemma cell_eq (hit : Hits S G s u k c l p t q) : byteCut.cell q = byteCut.cell k :=
  hit.spells.cell.trans hit.cell

/-- The slot of a value holds one key. -/
lemma enumerates (hit : Hits S G s u k c l p t q) (hS : Stands P S G M)
    (h : Landed S G M R s u k c l es) {v : V} (hv : t.body.lv = .value v)
    (hr : byteCut.rest q = restOf t) :
    Enumerates (get byteCut M R) (Under u t) [(u ++ q, v)] := by
  have hval := h.item_of_hit hS hit
  rw [itemOf, hv] at hval
  have hqk : q ≠ [] ∨ u = [] := h.nonempty.imp_left fun hk h0 => hk <|
    List.length_eq_zero_iff.mp <| by
      have h1 := (Prod.mk.inj hit.cell_eq).2
      rw [h0] at h1
      simpa using h1.symm
  exact enumerates_value h.layerAt hval hit.spells.cell hr hqk

end Hits

namespace Landed

variable (h : Landed S G M R s u k c l es)
include h

/-- **A value from the first key on** is visited, and then what is behind it. -/
lemma finishes_value (hS : Stands P S G M) (hM : Spelled M R) (hit : Hits S G s u k c l p t q)
    (hv : isLayer t = false) (hcond : k < q ∨ (emit = true ∧ q = k)) :
    ∃ s₁, StringScan.findInitial S.heap S.stores emit s = some s₁ ∧ s₁.state = .emit ∧
      s₁.out = s.out ∧ Finishes S (get byteCut M R) u s₁ s.stack s.out (From u k emit) := by
  obtain ⟨v, f1, f2, -⟩ := hit.spells.value hv
  obtain ⟨-, -, g3⟩ := h.found p hit.hit
  obtain ⟨ka', d1, d2, d3, d4⟩ := hit.findInitial_value hv hcond
  have hkey := h.keyLt_of_hit hit
  have hone := hit.enumerates hS h f1 f2
  refine ⟨_, d1, rfl, rfl, ?_⟩
  set s₁ : StringScan V := ⟨s.root, c.n, c.i, s.stack, ka', t.body.lv, .emit, s.out⟩ with hs₁
  set s₂ : StringScan V :=
    { s₁ with ki := s₁.ki + 1, out := s₁.out ++ [(s₁.ka.fullString, v)], state := .findNext }
    with hs₂
  have hfin : Finishes S (get byteCut M R) u s₂ s.stack (s.out ++ [(u ++ q, v)])
      (Later s.ka u es) :=
    d3 ▸ h.finishes_behind hS hM s₂ g3 rfl rfl d2 fun t' ht' =>
      BufferKey.compare_neg_of_keyLt (List.rel_of_pairwise_cons hkey ht') d4.le
  refine (Finishes.of_step (hfin.cons hone fun a ha b => lt_of_later hkey ha) rfl
    (step_emit (s := s₁) rfl f1)).congr fun x hx => ?_
  rw [h.mem_from_iff hS hx, Set.mem_union, Set.mem_union]
  refine or_congr_left ⟨hit.under, fun hxt => ?_⟩
  exact ⟨q, hone.eq_of_mem hx hxt, hit.cell_eq, hcond⟩

/-- **A value in front of the first key** is passed. -/
lemma finishes_skip (hS : Stands P S G M) (hM : Spelled M R) (hit : Hits S G s u k c l p t q)
    (hv : isLayer t = false) (hcond : ¬ (k < q ∨ (emit = true ∧ q = k))) :
    Finishes S (get byteCut M R) u
      { s with n := c.n, ki := c.i + 1, entry := t.body.lv, state := .findNext } s.stack s.out
      (From u k emit) := by
  obtain ⟨v, f1, f2, -⟩ := hit.spells.value hv
  obtain ⟨-, -, g3⟩ := h.found p hit.hit
  have hone := hit.enumerates hS h f1 f2
  refine (h.finishes_behind hS hM
    { s with n := c.n, ki := c.i + 1, entry := t.body.lv, state := .findNext } g3 rfl rfl
    h.key.place fun _ ht => h.compare_neg ht).congr fun x hx => ?_
  rw [h.mem_from_iff hS hx, Set.mem_union, or_iff_right]
  intro hxh
  have h0 := hone.eq_of_mem hx (hit.under hxh)
  obtain ⟨q', rfl, -, h3⟩ := hxh
  exact hcond (List.append_cancel_left h0 ▸ h3)

/-- **A layer**: what the scan does there, and then what is behind its slot. -/
lemma finishes_layer (hS : Stands P S G M) (hM : Spelled M R) (hit : Hits S G s u k c l p t q)
    (hv : isLayer t = true) {s₁ : StringScan V}
    (hfin : Finishes S (get byteCut M R) (u ++ k.take 8) s₁ ((c.n, s.root) :: s.stack) s.out
      (From (u ++ k.take 8) (k.drop 8) emit)) :
    Finishes S (get byteCut M R) u s₁ s.stack s.out (From u k emit) := by
  obtain ⟨h8, -⟩ := hit.spells.layer hv
  obtain ⟨g1, g2, g3⟩ := h.found p hit.hit
  have hkey := h.keyLt_of_hit hit
  have hk8 : 8 < k.length := by
    have := (Prod.mk.inj hit.cell_eq).2
    omega
  have htake : q.take 8 = k.take 8 := take_eq_of_slice_eq (Prod.mk.inj hit.cell_eq).1 h8 hk8
  have hzero : s.ka.compare t = 0 := by
    rw [h.key.compare_eq]
    exact cellOf_eq_iff.mp hit.cell
  have hslot : l.slot (l.permutation.get c.i) = t := by rw [g2, hit.slot]
  rw [← htake] at hfin
  refine (Finishes.up (B := Later s.ka u es) hS h.layerAt h.stops.live h.stops.leaf g1 hslot
    (g2.symm ▸ hit.spells) hv hfin (fun a ha b =>
      lt_of_later hkey (hit.under ((here_iff_of_lt hk8).mpr (htake ▸ ha))))
    fun s' h1 h2 h3 h4 h5 h6 => ?_).congr fun x hx => ?_
  · have hahead : Ahead S.heap c.n c.i (t :: es) := by
      have := Ahead.slot (by rw [Stands.heap_leaf h.stops.leaf]; exact g1) g3
      rwa [Stands.heap_leaf h.stops.leaf, hslot] at this
    have hrest := KeyTable.finishes_layer hS hM hahead h2 h3 h4 h1 hkey
      (List.forall_mem_cons.mpr ⟨h6.le, fun t' ht' =>
        (BufferKey.compare_neg_of_keyLt (List.rel_of_pairwise_cons hkey ht') h6.le).le⟩)
    rw [later_cons hkey h6.le hzero.le, h5] at hrest
    exact hrest.congr fun x _ => by simp [h6]
  · rw [h.mem_from_iff hS hx, Set.mem_union, Set.mem_union, here_iff_of_lt hk8, htake]

end Landed

/-- **From the first key on**, in one layer after the other. -/
lemma Stands.descend (hS : Stands P S G M) (hM : Spelled M R) (emit : Bool) :
    ∀ (fuel : ℕ) {s : StringScan V} {u k : Bytes},
    k.length < fuel → LayerAt M R u (G.fam s.root) → (k ≠ [] ∨ u = []) → Held S.heap G s.root →
    s.ka.Holds u k →
    ∃ s₁, StringScan.descend S.heap S.stores emit fuel s = some s₁ ∧ s₁.out = s.out ∧
      Finishes S (get byteCut M R) u s₁ s.stack s.out (From u k emit)
  | 0, _, _, _, hf, _, _, _, _ => absurd hf (Nat.not_lt_zero _)
  | fuel + 1, s, u, k, hf, hu, hk, hr, hka => by
      obtain ⟨c, l, h1, hc⟩ := hS.lower hr k
      obtain ⟨es, e1, e2, e3, e4⟩ := hc.ahead hS.ok.heap
      have h : Landed S G M R s u k c l es := ⟨hu, hk, hka, h1, hc, e3, e4, e1, e2⟩
      rw [StringScan.descend]
      cases hp : c.p with
      | none =>
          rw [findInitial_miss hka h1 hp]
          exact ⟨_, rfl, rfl, h.finishes_miss hS hM hp⟩
      | some p =>
          obtain ⟨hlive, hcell⟩ := hc.hit p hp
          obtain ⟨q, hq⟩ :=
            hS.spells hM h.layerAt hc.live hc.leaf (List.mem_of_getElem? hlive)
          generalize ht : l.slot p = t at hq hcell
          have hit : Hits S G s u k c l p t q :=
            ⟨hka, h1, Stands.heap_leaf hc.leaf, hp, ht, hcell, hq⟩
          cases hv : isLayer t with
          | false =>
              by_cases hcond : k < q ∨ (emit = true ∧ q = k)
              · obtain ⟨s₁, d1, d2, d3, d4⟩ := h.finishes_value hS hM hit hv hcond
                rw [d1]
                simp only [d2]
                exact ⟨s₁, rfl, d3, d4⟩
              · rw [hit.findInitial_skip hv hcond]
                exact ⟨_, rfl, rfl, h.finishes_skip hS hM hit hv hcond⟩
          | true =>
              obtain ⟨h8, -, r, f1, f2⟩ := hq.layer hv
              have hval := h.item_of_hit hS hit
              rw [itemOf, f1] at hval
              rw [hit.findInitial_layer hv f1]
              have hk8 : 8 < k.length := by
                have := (Prod.mk.inj hit.cell_eq).2
                omega
              obtain ⟨s₁, i1, i2, i3⟩ :=
                Stands.descend hS hM emit fuel (s := ⟨r, c.n, c.i, (c.n, s.root) :: s.stack,
                  s.ka.shift, t.body.lv, .down, s.out⟩) (by rw [List.length_drop]; omega)
                  (.step h.layerAt hk8 (hcell ▸ hval))
                  (Or.inl (List.ne_nil_of_length_pos (by rw [List.length_drop]; omega))) f2
                  (hka.shift hk8)
              exact ⟨s₁, i1, i2, h.finishes_layer hS hM hit hv i3⟩

/-! ## Visitors -/

section

variable {h : Heap (Cell V)} {stores : Ptr → SuffixStore} {s' : StringScan V}

lemma findNext_out (hs : StringScan.findNext h stores s = some s') : s'.out = s.out := by
  rw [StringScan.findNext] at hs
  split_ifs at hs
  · cases hs
    rfl
  · obtain ⟨⟨ka, len⟩, -, hs⟩ := Option.bind_eq_some_iff.mp hs
    by_cases hdup : 0 ≤ ka.compare ((h.leaf s.n).slot ((h.leaf s.n).permutation.get s.ki))
    · simp only [hdup, if_true] at hs
      cases hs
      rfl
    · simp only [hdup, if_false] at hs
      obtain ⟨ka', -, hs⟩ := Option.bind_eq_some_iff.mp hs
      split_ifs at hs
      · split at hs
        · cases hs
          rfl
        · cases hs
      · cases hs
        rfl
  · split at hs
    · cases hs
      rfl
    · cases hs
      rfl

lemma findRetry_out (hs : StringScan.findRetry h s = some s') : s'.out = s.out := by
  rw [StringScan.findRetry] at hs
  split at hs
  · cases hs
  · split_ifs at hs
    cases hs
    rfl

/-- **One round**, for a visitor that goes on and for another one. -/
lemma step_visit (more : List (Bytes × V) → Bool) {r : List (Bytes × V) ⊕ StringScan V}
    (hs : StringScan.step h stores (fun _ => true) s = some r) :
    (r = .inl s.out ∧ StringScan.step h stores more s = some r) ∨
      (∃ s', r = .inr s' ∧ s'.out = s.out ∧ StringScan.step h stores more s = some r) ∨
      ∃ s' x, r = .inr s' ∧ s'.out = s.out ++ [x] ∧
        StringScan.step h stores more s = some
          (if more (s.out ++ [x]) then r else .inl (s.out ++ [x])) := by
  rw [StringScan.step] at hs ⊢
  cases hst : s.state with
  | emit =>
      rw [hst] at hs
      cases he : s.entry with
      | layer r => simp [he] at hs
      | value v =>
          simp only [he, if_true] at hs
          obtain ⟨s', h1, rfl⟩ := Option.map_eq_some_iff.mp hs
          refine Or.inr (Or.inr ⟨s', _, rfl, findNext_out h1, ?_⟩)
          simp only [h1, Option.map_some]
          split_ifs <;> rfl
  | findNext =>
      rw [hst] at hs
      obtain ⟨s', h1, rfl⟩ := Option.map_eq_some_iff.mp hs
      exact Or.inr (Or.inl ⟨s', rfl, findNext_out h1, hs⟩)
  | up =>
      rw [hst] at hs
      cases hk : s.stack with
      | nil =>
          simp only [hk, Option.some.injEq] at hs
          exact Or.inl ⟨hs.symm, by rw [← hs]⟩
      | cons x stack =>
          simp only [hk] at hs
          obtain ⟨s', h1, rfl⟩ := Option.map_eq_some_iff.mp hs
          have hout := findNext_out h1
          exact Or.inr (Or.inl ⟨s', rfl, hout, hs⟩)
  | down =>
      rw [hst] at hs
      obtain ⟨s', h1, rfl⟩ := Option.map_eq_some_iff.mp hs
      have hout := findRetry_out h1
      exact Or.inr (Or.inl ⟨s', rfl, hout, hs⟩)
  | retry =>
      rw [hst] at hs
      obtain ⟨s', h1, rfl⟩ := Option.map_eq_some_iff.mp hs
      exact Or.inr (Or.inl ⟨s', rfl, findRetry_out h1, hs⟩)

/-- A visitor sees the same entries, until it has enough. -/
lemma loop_visit (more : List (Bytes × V) → Bool) :
    ∀ (fuel : ℕ) {s : StringScan V} {out : List (Bytes × V)},
    s.loop h stores (fun _ => true) fuel = some out →
      ∃ xs, out = s.out ++ xs ∧ s.loop h stores more fuel = some (visit more s.out xs)
  | 0, _, _, hl => by cases hl
  | fuel + 1, s, out, hl => by
      rw [StringScan.loop] at hl
      cases hstep : StringScan.step h stores (fun _ => true) s with
      | none => simp [hstep] at hl
      | some r =>
          rw [StringScan.loop]
          rcases step_visit more hstep with ⟨rfl, h2⟩ | ⟨s', rfl, h1, h2⟩ | ⟨s', x, rfl, h1, h2⟩
          · simp only [hstep, Option.some.injEq] at hl
            exact ⟨[], by rw [List.append_nil, hl], by simp only [h2, visit]⟩
          · simp only [hstep] at hl
            obtain ⟨xs, h3, h4⟩ := loop_visit more fuel hl
            rw [h1] at h3 h4
            exact ⟨xs, h3, by simp only [h2, h4]⟩
          · simp only [hstep] at hl
            obtain ⟨xs, h3, h4⟩ := loop_visit more fuel hl
            rw [h1] at h3 h4
            refine ⟨x :: xs, by rw [h3, List.append_assoc, List.singleton_append], ?_⟩
            rw [visit]
            by_cases hm : more (s.out ++ [x]) = true
            · simp only [h2, hm, if_true, h4]
            · simp only [h2, hm, if_false, Bool.false_eq_true]

end

/-- The end of the scan. -/
lemma loop_of_up {s' : StringScan V} (hs : Relation.ReflTransGen (Round S) s s')
    (hup : s'.state = .up)
    (hstack : s'.stack = []) :
    ∃ m, ∀ fuel, m ≤ fuel → s.loop S.heap S.stores (fun _ => true) fuel = some s'.out := by
  induction hs using Relation.ReflTransGen.head_induction_on with
  | refl =>
      refine ⟨1, fun fuel hf => ?_⟩
      obtain ⟨n, rfl⟩ := Nat.exists_eq_add_of_le' hf
      simp only [StringScan.loop, StringScan.step, hup, hstack]
  | head hround _ ih =>
      obtain ⟨m, hm⟩ := ih
      refine ⟨m + 1, fun fuel hf => ?_⟩
      obtain ⟨n, rfl⟩ := Nat.exists_eq_add_of_le' hf
      rw [← Nat.add_assoc, StringScan.loop, hround]
      exact hm (n + m) (Nat.le_add_left _ _)

/-! ## Tables -/

variable {t : StringTable V}

/-- **The scan of a table.** -/
lemma StringTable.Ok.scan (hT : t.Ok P G M R) {firstkey : Bytes} (hk : firstkey.length ≤ 1024)
    (emit : Bool) :
    ∃ xs, Enumerates (Trie.get byteCut M R) {k | firstkey < k ∨ (emit = true ∧ k = firstkey)} xs ∧
      ∃ m, ∀ fuel, m ≤ fuel → ∀ more, t.scan fuel firstkey emit more = some (visit more [] xs) := by
  have hholds : (BufferKey.ofStr firstkey).Holds [] firstkey := by
    refine ⟨⟨?_, rfl, List.nil_prefix⟩, List.prefix_append _ _, rfl, rfl⟩
    simp only [BufferKey.ofStr, List.length_append, List.length_replicate, masstreeMaxkeylen]
    omega
  obtain ⟨s₁, h1, h0, s', xs, h2, h3, h4, h5, -, h6⟩ := hT.stands.descend hT.spelled emit
    (firstkey.length + 1) (s := ⟨t.root, t.root, 0, [], .ofStr firstkey, default, .retry, []⟩)
      (Nat.lt_succ_self _)
    (hT.root ▸ .root) (Or.inr rfl) hT.held hholds
  obtain ⟨m, hm⟩ := loop_of_up h2 h3 h4
  refine ⟨xs, h6.congr fun k _ => ?_, m, fun fuel hf more => ?_⟩
  · constructor
    · exact fun hk => ⟨k, rfl, hk⟩
    · rintro ⟨q, rfl, hq⟩
      exact hq
  · obtain ⟨ys, h7, h8⟩ := loop_visit more fuel (hm fuel hf)
    have h1' : StringScan.descend t.heap t.stores emit (firstkey.length + 1)
        ⟨t.root, t.root, 0, [], .ofStr firstkey, default, .retry, []⟩ = some s₁ := h1
    rw [h5, h0, List.nil_append, List.nil_append] at h7
    rw [h0] at h8
    have hk' : ¬ masstreeMaxkeylen < firstkey.length := not_lt.mpr hk
    rw [StringTable.scan, if_neg hk', h1', h7]
    exact h8

/-- **A scan shows the map in order**: after any calls, from any first key, to a visitor that may
stop it. -/
theorem scan_shows_map (hW : P.leafWidth = Kind.strings.leafWidth) (sz : ℕ) (cs : List (Call V))
    (hcs : ∀ c ∈ cs, c.Fits) :
    ∃ t os t', StringTable.init P sz = some t ∧ runTable P sz t cs = some (os, t') ∧
      ∀ (firstkey : Bytes) (emit : Bool), firstkey.length ≤ masstreeMaxkeylen →
        ∃ xs, Enumerates (runMap (fun _ => none) cs).2
        {k | firstkey < k ∨ (emit = true ∧ k = firstkey)} xs ∧
          ∃ m, ∀ fuel, m ≤ fuel →
          ∀ more, t'.scan fuel firstkey emit more = some (visit more [] xs) := by
  obtain ⟨t, G, h1, h2⟩ := StringTable.init_ok (V := V) hW sz
  obtain ⟨t', G', M', h3, h4, h5⟩ := h2.runTable hW sz hcs
  have hempty : Trie.get byteCut (fun _ _ => none : LayerMap Bytes (ℕ × ℕ) V Ptr) 0 = fun _ =>
    none :=
    funext fun k => get_of_empty fun _ => rfl
  rw [hempty] at h3 h5
  exact ⟨t, _, t', h1, h3, fun firstkey emit hk => h5 ▸ h4.scan hk emit⟩

/-- Three keys, of which two share two slices. -/
def threeKeyCalls : List (Call ℕ) :=
  [.put (List.replicate 20 97) fun _ => 1, .put (List.replicate 16 97 ++ [98]) fun _ => 2,
    .put [] fun _ => 3]

/-- A scan from the first of two keys with shared slices on, without that key, shows the other
one. -/
theorem scan_shows_map_threeKeys :
    ∃ t os t' xs, StringTable.init stringTableParams 512 = some t ∧
      runTable stringTableParams 512 t threeKeyCalls = some (os, t') ∧
      (∃ m, ∀ fuel, m ≤ fuel → t'.scan fuel (List.replicate 20 97) false (fun _ => true) = some
        xs) ∧
      (List.replicate 16 97 ++ [98], 2) ∈ xs ∧ (List.replicate 20 97, 1) ∉ xs := by
  obtain ⟨t, os, t', h1, h2, h3⟩ := scan_shows_map (P := stringTableParams) rfl 512 threeKeyCalls
    (by simp [threeKeyCalls, Call.Fits])
  obtain ⟨xs, h4, m, h5⟩ := h3 (List.replicate 20 97) false (by decide)
  refine ⟨t, os, t', xs, h1, h2, ⟨m, fun fuel hf => ?_⟩,
    (h4.mem _ _).mpr ⟨Or.inl (by decide), by decide⟩, fun h0 => ?_⟩
  · rw [h5 fuel hf, visit_true, List.nil_append]
  · rcases ((h4.mem _ _).mp h0).1 with h6 | h6
    · exact List.lt_irrefl _ h6
    · exact Bool.false_ne_true h6.1

end MasstreeLHM.KeyTable
