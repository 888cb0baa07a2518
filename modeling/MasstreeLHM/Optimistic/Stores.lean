import MasstreeLHM.Insert
import MasstreeLHM.Optimistic.Calm

/-!
# Stores into a leaf in order

The stores of which critical sections are made: words of a slot that is not live, the value of a
live slot, and the permutation.  Each of them leaves a leaf in order that is in order, and is calm.

For each kind of store there are two lemmas, one about `LeafSound` and one about `Calm`.  Words of a
slot that is not live are `LeafSound.assign` and `calm_assign`, the value of a live slot is
`LeafSound.assign_live` and `calm_lv`, and the permutation is `LeafSound.permutation`, where slots
cease to be live, `LeafSound.inserted`, where one becomes live in its place, and `calm_permutation`
for both.

**`LeafSound.stop`** is where the place comes from: a search without a hit stops between the slots
that compare smaller and those that compare greater.
-/

namespace MasstreeLHM.KeyTable.Shared

variable {V : Type} [Inhabited V] {P : NodeParams} {l l' : Leaf (Cell V)} {s : Slot (Cell V)}
  {k : Bytes} {i p : ℕ}

namespace LeafSound

/-- Other slots in the same order. -/
lemma congr (h : LeafSound P l) (hperm : l'.permutation.WF P.leafWidth)
    (hslots : l'.slots.length = P.leafWidth)
    (hlive : l'.permutation.live.Sublist l.permutation.live) (hikey : ∀ q ∈ l'.permutation.live,
      (l'.slot q).ikey = (l.slot q).ikey ∧ rank (l'.slot q) = rank (l.slot q))
    (hkind : ∀ q ∈ l'.permutation.live, Kind.strings.Keylenx (l'.slot q).body.keylenx ∧
      ((l'.slot q).body.keylenx = layerKeylenx ↔ ∃ n, (l'.slot q).body.lv = .layer n)) :
        LeafSound P l' := by
  refine ⟨hperm, hslots, ?_, fun s hs => ?_, fun s hs => ?_⟩
  · refine List.pairwise_map.mpr (((List.pairwise_map.mp h.sorted).sublist hlive).imp_of_mem
      fun {a b} ha hb hlt => ?_)
    obtain ⟨a1, a2⟩ := hikey a ha
    obtain ⟨b1, b2⟩ := hikey b hb
    exact (keyLt_congr a1 a2 b1 b2).mpr hlt
  · obtain ⟨q, hq, rfl⟩ := List.mem_map.mp hs
    exact (hkind q hq).1
  · obtain ⟨q, hq, rfl⟩ := List.mem_map.mp hs
    exact (hkind q hq).2

/-- Fewer live slots. -/
lemma permutation (h : LeafSound P l) {q : Kpermuter} (hq : q.WF P.leafWidth)
    (hlive : q.live.Sublist l.permutation.live) : LeafSound P { l with permutation := q } :=
  h.congr hq h.slots hlive (fun _ _ => ⟨rfl, rfl⟩) fun p hp =>
    have hm : l.slot p ∈ l.entries := mem_entries (hlive.subset hp)
    ⟨h.keylenx _ hm, h.typed _ hm⟩

lemma modstate (h : LeafSound P l) (m : Modstate) : LeafSound P { l with modstate := m } :=
  ⟨h.perm, h.slots, h.sorted, h.keylenx, h.typed⟩

/-- Another slot than the live ones is written. -/
lemma assign (h : LeafSound P l) (hp : p ∉ l.permutation.live) (s : Slot (Cell V)) :
    LeafSound P (l.assign p s) := by
  have hslot : ∀ q ∈ l.permutation.live, (l.assign p s).slot q = l.slot q := fun q hq =>
    (Leaf.slot_assign_cases l p q s).resolve_right fun h0 => hp (h0.1 ▸ hq)
  refine h.congr h.perm (by simp [Leaf.assign, h.slots]) (.refl _) (fun q hq => ?_) fun q hq => ?_
  · rw [hslot q hq]
    exact ⟨rfl, rfl⟩
  · rw [hslot q hq]
    exact ⟨h.keylenx _ (mem_entries hq), h.typed _ (mem_entries hq)⟩

/-- A live slot is written, with a key that stands in the same place. -/
lemma assign_live (h : LeafSound P l) (hikey : s.ikey = (l.slot p).ikey)
    (hrank : rank s = rank (l.slot p)) (hk : Kind.strings.Keylenx s.body.keylenx)
    (ht : s.body.keylenx = layerKeylenx ↔ ∃ n, s.body.lv = .layer n) :
    LeafSound P (l.assign p s) := by
  refine h.congr h.perm (by simp [Leaf.assign, h.slots]) (.refl _) (fun q hq => ?_) fun q hq => ?_
  · rcases Leaf.slot_assign_cases l p q s with h0 | ⟨rfl, h0⟩
    · rw [h0]
      exact ⟨rfl, rfl⟩
    · rw [h0]
      exact ⟨hikey, hrank⟩
  · rcases Leaf.slot_assign_cases l p q s with h0 | ⟨rfl, h0⟩
    · rw [h0]
      exact ⟨h.keylenx _ (mem_entries hq), h.typed _ (mem_entries hq)⟩
    · rw [h0]
      exact ⟨hk, ht⟩

lemma entries_inserted (h : LeafSound P l) (hi : i ≤ l.size) (hlt : l.size < P.leafWidth) :
    (l.inserted i l.permutation.back s).entries = l.itemsWith i s := by
  have hvac : Vacant P i l.permutation.back l.ikeyBound (fun _ => True) (fun _ => True) l :=
    ⟨hlt, rfl, hi, fun _ _ => trivial, fun _ _ => trivial, Or.inr (Or.inr rfl)⟩
  exact (hvac.entries_inserted h.perm h.slots s).2.2

lemma mem_inserted (h : LeafSound P l) (hi : i ≤ l.size) (hlt : l.size < P.leafWidth)
    {t : Slot (Cell V)} :
    t ∈ (l.inserted i l.permutation.back s).entries ↔ t = s ∨ t ∈ l.entries := by
  rw [h.entries_inserted hi hlt, Leaf.itemsWith, List.mem_append, List.mem_cons]
  conv_rhs => rw [← List.take_append_drop i l.entries, List.mem_append]
  tauto

/-- A slot becomes live in its place. -/
lemma inserted (h : LeafSound P l) (hi : i ≤ l.size) (hlt : l.size < P.leafWidth)
    (hbf : ∀ t ∈ l.entries.take i, keyLt t s) (haf : ∀ t ∈ l.entries.drop i, keyLt s t)
    (hk : Kind.strings.Keylenx s.body.keylenx) (ht : s.body.keylenx = layerKeylenx ↔
      ∃ n, s.body.lv = .layer n) :
    LeafSound P (l.inserted i l.permutation.back s) := by
  refine ⟨h.perm.insertFromBack hi hlt, by simp [Leaf.inserted, Leaf.assign, h.slots], ?_,
    fun t htm => ?_,
    fun t htm => ?_⟩
  · rw [h.entries_inserted hi hlt, Leaf.itemsWith, List.pairwise_append]
    refine ⟨h.sorted.sublist (List.take_sublist _ _), List.pairwise_cons.mpr
      ⟨haf, h.sorted.sublist (List.drop_sublist _ _)⟩, fun t h1 u h2 => ?_⟩
    rcases List.mem_cons.mp h2 with rfl | h2
    · exact hbf t h1
    · have hs := h.sorted
      rw [← List.take_append_drop i l.entries, List.pairwise_append] at hs
      exact hs.2.2 t h1 u h2
  · rcases (h.mem_inserted hi hlt).mp htm with rfl | h1
    · exact hk
    · exact h.keylenx t h1
  · rcases (h.mem_inserted hi hlt).mp htm with rfl | h1
    · exact ht
    · exact h.typed t h1

end LeafSound

/-! ## Calm stores -/

/-- In the insert state, slots that are not live may be written. -/
lemma calm_assign (hins : l.modstate = .insert) (hp : p ∉ l.permutation.live) (s : Slot (Cell V)) :
    Calm l (l.assign p s) := by
  refine ⟨Or.inl rfl, fun _ => .refl _, fun h => absurd hins h, fun q hq => ?_,
    fun q h => absurd hins h⟩
  have hql := hq.resolve_right (not_not.mpr hins)
  rw [(Leaf.slot_assign_cases l p q s).resolve_right fun h0 => hp (h0.1 ▸ hql)]
  exact .refl _

/-- The value of a live slot may be written. -/
lemma calm_lv (hp : p ∈ l.permutation.live) (v : LeafValue V) :
    Calm l ((LeafStore.lv p v).onLeaf l) := by
  refine ⟨Or.inl rfl, fun _ => .refl _, fun _ => .refl _, fun q _ => ?_, fun q _ hq => ?_⟩
  · rcases Leaf.slot_assign_cases l p q { l.slot p with
      body := { (l.slot p).body with lv := v } } with h0 | ⟨rfl, h0⟩
    · rw [LeafStore.onLeaf, h0]
      exact .refl _
    · rw [LeafStore.onLeaf, h0]
      exact ⟨rfl, rfl, rfl⟩
  · rw [LeafStore.onLeaf, (Leaf.slot_assign_cases l p q _).resolve_right fun h0 => hq (h0.1 ▸ hp)]

/-- In the insert state slots become live, and otherwise they cease to be. -/
lemma calm_permutation {q : Kpermuter} (hgrow : l.modstate = .insert →
    l.permutation.live.Sublist q.live)
    (hshrink : l.modstate ≠ .insert → q.live.Sublist l.permutation.live) :
    Calm l { l with permutation := q } :=
  ⟨Or.inl rfl, hgrow, hshrink, fun _ _ => .refl _, fun _ _ _ => rfl⟩

/-! ## The key of a search -/

omit [Inhabited V] in
/-- What compares greater or smaller than the key stands in front of its slot or behind it. -/
lemma keyLt_of_compareKey {t : Slot (Cell V)} (hs : s.ikey = slice k)
    (hr : rank s = min k.length 9) :
    (0 < compareKey k t → keyLt t s) ∧ (compareKey k t < 0 → keyLt s t) := by
  rw [compareKey_pos, compareKey_neg, keyLt, keyLt, hs, hr]
  exact ⟨id, id⟩

/-- **Where a search without a hit stops.** -/
lemma LeafSound.stop (h : LeafSound P l) (hm : plainLower l k = (i, none)) (hs : s.ikey = slice k)
    (hr : rank s = min k.length 9) :
    i ≤ l.size ∧ (∀ t ∈ l.entries.take i, keyLt t s) ∧ ∀ t ∈ l.entries.drop i, keyLt s t := by
  obtain ⟨h0, h1, h2⟩ := h.miss hm
  refine ⟨h0, fun t ht => ?_, fun t ht => ?_⟩
  · rw [Leaf.entries, ← List.map_take] at ht
    obtain ⟨q, hq, rfl⟩ := List.mem_map.mp ht
    exact (keyLt_of_compareKey hs hr).1 (h1 q hq)
  · rw [Leaf.entries, ← List.map_drop] at ht
    obtain ⟨q, hq, rfl⟩ := List.mem_map.mp ht
    exact (keyLt_of_compareKey hs hr).2 (h2 q hq)

end MasstreeLHM.KeyTable.Shared
