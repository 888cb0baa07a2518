import Mathlib.Logic.Relation
import MasstreeLHM.Optimistic.SharedLeaf

/-!
# What happens to a clean leaf

While the version of a leaf is clean, slots only become live in the insert state and only cease to
be in the others; the key of a slot stays as long as somebody may look at it, and so does the value
of a slot that is not live any more.

`Calm` is what one store may do, and `Since` any number of them.  **`Since.spec`** is the invariant
of such a stretch, and **`Since.live_eq`** draws the conclusion that a search rests on: if the live
slots are the same at both ends, they have been the same all the time.

The second part says what a search is to find.  `lookup` goes through the live slots of a leaf as it
is at one moment, without a binary search, and `Found` is what it can find out about a key.
`LeafSound` is a leaf in order; `LeafSound.lookup_of_mem` and `LeafSound.miss` connect the lookup
with where a lower search ends.
-/

namespace MasstreeLHM.KeyTable.Shared

variable {V : Type} [Inhabited V]

/-- The words by which a slot is found are the same. -/
structure SameKey (s t : Slot (Cell V)) : Prop where
  ikey : t.ikey = s.ikey
  keylenx : t.body.keylenx = s.body.keylenx
  ksuf : t.body.ksuf = s.body.ksuf

/-- What a store may do to a clean leaf. -/
structure Calm (l l' : Leaf (Cell V)) : Prop where
  modstate : l'.modstate = l.modstate ∨ (l'.modstate = .deletedLayer ∧ l'.permutation.live = [])
  grows : l.modstate = .insert → l.permutation.live.Sublist l'.permutation.live
  shrinks : l.modstate ≠ .insert → l'.permutation.live.Sublist l.permutation.live
  fixed : ∀ p, p ∈ l.permutation.live ∨ l.modstate ≠ .insert → SameKey (l.slot p) (l'.slot p)
  kept : ∀ p, l.modstate ≠ .insert → p ∉ l'.permutation.live →
    (l'.slot p).body.lv = (l.slot p).body.lv

/-- The leaf `l'` has come out of `l` while it was clean. -/
def Since (l l' : Leaf (Cell V)) : Prop := Relation.ReflTransGen Calm l l'

section

variable {l l' l'' : Leaf (Cell V)} {s t u : Slot (Cell V)} {k : Bytes} {p : ℕ}

omit [Inhabited V] in
lemma SameKey.refl (s : Slot (Cell V)) : SameKey s s := ⟨rfl, rfl, rfl⟩

omit [Inhabited V] in
lemma SameKey.trans (h : SameKey s t) (h' : SameKey t u) : SameKey s u :=
  ⟨h'.ikey.trans h.ikey, h'.keylenx.trans h.keylenx, h'.ksuf.trans h.ksuf⟩

lemma Calm.refl (l : Leaf (Cell V)) : Calm l l :=
  ⟨Or.inl rfl, fun _ => List.Sublist.refl _, fun _ => List.Sublist.refl _, fun _ _ => .refl _,
    fun _ _ _ => rfl⟩

/-- **A stretch without marks**: the leaf stays in the insert state, unless it is empty, and its
live slots stay; or it stays in another state, and no slot becomes live. -/
lemma Since.spec (h : Since l l') :
    (l.modstate = .insert → l.permutation.live.Sublist l'.permutation.live ∧
      (l'.modstate = .insert ∨ l'.permutation.live = [])) ∧
    (l.modstate ≠ .insert → l'.permutation.live.Sublist l.permutation.live ∧
      l'.modstate ≠ .insert) ∧
    ∀ p, p ∈ l.permutation.live ∨ l.modstate ≠ .insert → SameKey (l.slot p) (l'.slot p) := by
  induction h with
  | refl => exact ⟨fun h => ⟨.refl _, Or.inl h⟩, fun h => ⟨.refl _, h⟩, fun p _ => .refl _⟩
  | @tail l' l'' _ hc ih =>
      obtain ⟨h1, h2, h3⟩ := ih
      refine ⟨fun h0 => ?_, fun h0 => ?_, fun p hp => (h3 p hp).trans (hc.fixed p ?_)⟩
      · obtain ⟨a1, a2⟩ := h1 h0
        by_cases hins : l'.modstate = .insert
        · refine ⟨a1.trans (hc.grows hins), ?_⟩
          rcases hc.modstate with h | ⟨-, h⟩
          · exact Or.inl (h.trans hins)
          · exact Or.inr h
        · have hnil : l'.permutation.live = [] := a2.resolve_left hins
          rw [hnil] at a1
          rw [List.sublist_nil.mp a1]
          have := hc.shrinks hins
          rw [hnil] at this
          exact ⟨List.nil_sublist _, Or.inr (List.sublist_nil.mp this)⟩
      · obtain ⟨a1, a2⟩ := h2 h0
        refine ⟨(hc.shrinks a2).trans a1, ?_⟩
        rcases hc.modstate with h | ⟨h, -⟩
        · rwa [h]
        · rw [h]
          exact Modstate.noConfusion
      · by_cases hins : l.modstate = .insert
        · have hpl := hp.resolve_right (not_not.mpr hins)
          obtain ⟨a1, -⟩ := h1 hins
          exact Or.inl (a1.subset hpl)
        · exact Or.inr (h2 hins).2

lemma Since.sameKey (h : Since l l') (hp : p ∈ l.permutation.live) :
    SameKey (l.slot p) (l'.slot p) :=
  h.spec.2.2 p (Or.inl hp)

/-- **Slots that are live at both ends** of a stretch are live in between. -/
lemma Since.live_eq (h : Since l l') (h' : Since l' l'')
    (he : l''.permutation.live = l.permutation.live) :
    l'.permutation.live = l''.permutation.live := by
  by_cases hins : l.modstate = .insert
  · obtain ⟨a1, a2⟩ := h.spec.1 hins
    by_cases hins' : l'.modstate = .insert
    · obtain ⟨b1, -⟩ := h'.spec.1 hins'
      rw [he] at b1 ⊢
      exact a1.antisymm b1 |>.symm
    · have hnil := a2.resolve_left hins'
      rw [he, hnil]
      rw [hnil] at a1
      exact (List.sublist_nil.mp a1).symm
  · obtain ⟨a1, a2⟩ := h.spec.2.1 hins
    obtain ⟨b1, -⟩ := h'.spec.2.1 a2
    rw [he] at b1 ⊢
    exact a1.antisymm b1

end

/-! ## Looking a key up -/

/-- `ksuf_matches` on the words of a slot. -/
def slotMatches (s : Slot (Cell V)) (k : Bytes) : ℤ :=
  if s.body.keylenx < ksufKeylenx then 1
  else if s.body.keylenx = layerKeylenx then -8
  else if s.body.ksuf = k.drop 8 then 1 else 0

/-- What a search in a leaf finds out about a key. -/
inductive Found (V : Type) where
  | absent
  | value (v : V)
  | layer (n : Ptr)
deriving DecidableEq

/-- What `find_unlocked` makes of `ksuf_matches` and `lv_`; `none` if a layer is taken for a value,
or a value for a layer. -/
def found : ℤ → Option (LeafValue V) → Option (Found V)
  | state, none => if state = 0 then some .absent else none
  | state, some (.value v) =>
      if state < 0 then none else some (if state = 0 then .absent else .value v)
  | state, some (.layer n) => if state < 0 then some (.layer n) else none

/-- **Looking a key up in a leaf**: the live slot for it, one slot after another. -/
def lookup (l : Leaf (Cell V)) (k : Bytes) : Option (Found V) :=
  match l.entries.find? fun s => compareKey k s = 0 with
  | none => some .absent
  | some s => found (slotMatches s k) (some s.body.lv)

/-- The lower search of a leaf. -/
def plainLower (l : Leaf (Cell V)) (k : Bytes) : ℕ × Option ℕ :=
  lowerBy (fun p => compareKey k (l.slot p)) l.permutation.live

/-- A leaf in order. -/
structure LeafSound (P : NodeParams) (l : Leaf (Cell V)) : Prop where
  perm : l.permutation.WF P.leafWidth
  slots : l.slots.length = P.leafWidth
  sorted : l.entries.Pairwise keyLt
  keylenx : ∀ s ∈ l.entries, Kind.strings.Keylenx s.body.keylenx
  typed : ∀ s ∈ l.entries, s.body.keylenx = layerKeylenx ↔ ∃ n, s.body.lv = .layer n

section

variable {P : NodeParams} {l l' : Leaf (Cell V)} {s t : Slot (Cell V)} {k : Bytes} {p i : ℕ}

omit [Inhabited V] in
lemma SameKey.compareKey (h : SameKey s t) (k : Bytes) :
    compareKey k t = KeyTable.compareKey k s := by
  rw [KeyTable.compareKey, KeyTable.compareKey, h.ikey, h.keylenx]

omit [Inhabited V] in
lemma SameKey.slotMatches (h : SameKey s t) (k : Bytes) :
    slotMatches t k = Shared.slotMatches s k := by
  rw [Shared.slotMatches, Shared.slotMatches, h.keylenx, h.ksuf]

omit [Inhabited V] in
lemma compareKey_eq_zero : compareKey k s = 0 ↔ s.ikey = slice k ∧ rank s = min k.length 9 := by
  have h1 := compareKey_pos (k := k) (s := s)
  have h2 := compareKey_neg (k := k) (s := s)
  omega

lemma mem_entries (hp : p ∈ l.permutation.live) : l.slot p ∈ l.entries := List.mem_map_of_mem hp

lemma lookup_of_none (h : ∀ s ∈ l.entries, compareKey k s ≠ 0) : lookup l k = some .absent := by
  have hnone : l.entries.find? (fun s => compareKey k s = 0) = none :=
    List.find?_eq_none.mpr fun s hs => by simpa using h s hs
  rw [lookup, hnone]

namespace LeafSound

/-- The links of a leaf do not matter. -/
lemma links (h : LeafSound P l) (a b : Option Ptr) : LeafSound P { l with prev := a, next := b } :=
  ⟨h.perm, h.slots, h.sorted, h.keylenx, h.typed⟩

lemma nodup (h : LeafSound P l) : l.entries.Nodup := h.sorted.imp fun {a b} hlt heq => by
  rw [heq, keyLt] at hlt
  omega

/-- **A key has one slot.** -/
lemma eq_of_compareKey (h : LeafSound P l) (hs : s ∈ l.entries) (ht : t ∈ l.entries)
    (h1 : compareKey k s = 0) (h2 : compareKey k t = 0) : s = t := by
  by_contra hne
  have hirr : ∀ a b : Slot (Cell V), compareKey k a = 0 → compareKey k b = 0 → ¬ keyLt a b := by
    intro a b ha hb hlt
    rw [compareKey_eq_zero] at ha hb
    rw [keyLt] at hlt
    omega
  obtain ⟨i, hi, rfl⟩ := List.getElem_of_mem hs
  obtain ⟨j, hj, rfl⟩ := List.getElem_of_mem ht
  have hpw := List.pairwise_iff_getElem.mp h.sorted
  rcases Nat.lt_trichotomy i j with h0 | h0 | h0
  · exact hirr _ _ h1 h2 (hpw i j hi hj h0)
  · exact hne (by simp [h0])
  · exact hirr _ _ h2 h1 (hpw j i hj hi h0)

/-- The slot for a key is the one that a lookup comes to. -/
lemma lookup_of_mem (h : LeafSound P l) (hs : s ∈ l.entries) (h0 : compareKey k s = 0) :
    lookup l k = found (slotMatches s k) (some s.body.lv) := by
  rw [lookup]
  cases hf : l.entries.find? fun s => compareKey k s = 0 with
  | none => exact absurd h0 (by simpa using List.find?_eq_none.mp hf s hs)
  | some t =>
      have ht : compareKey k t = 0 := by simpa using List.find?_some hf
      rw [h.eq_of_compareKey (List.mem_of_find?_eq_some hf) hs ht h0]

/-- A lower search that misses stops between the smaller keys and the greater ones. -/
lemma miss (h : LeafSound P l) (hm : plainLower l k = (i, none)) :
    i ≤ l.size ∧ (∀ p ∈ l.permutation.live.take i, 0 < compareKey k (l.slot p)) ∧
      ∀ p ∈ l.permutation.live.drop i, compareKey k (l.slot p) < 0 := by
  have hsorted : l.permutation.live.Pairwise fun p q => keyLt (l.slot p) (l.slot q) :=
    List.pairwise_map.mp h.sorted
  obtain ⟨h0, h1⟩ := lowerBy_none
    (hsorted.imp fun {p q} hlt hpos => by
      rw [compareKey_pos] at hpos ⊢
      rw [keyLt] at hlt
      omega)
    (hsorted.imp fun {p q} hlt hneg => by
      rw [compareKey_neg] at hneg ⊢
      rw [keyLt] at hlt
      omega) hm
  rw [h.perm.length_live] at h0
  exact ⟨h0, h1⟩

/-- Then there is no slot for the key. -/
lemma not_mem_of_miss (h : LeafSound P l) (hm : plainLower l k = (i, none)) (hs : s ∈ l.entries) :
    compareKey k s ≠ 0 := by
  obtain ⟨-, h1, h2⟩ := h.miss hm
  obtain ⟨p, hp, rfl⟩ := List.mem_map.mp hs
  rw [← List.take_append_drop i l.permutation.live] at hp
  rcases List.mem_append.mp hp with hp | hp
  · exact (h1 p hp).ne'
  · exact (h2 p hp).ne

/-- A slot is what it says: `found` does not take a layer for a value. -/
lemma found_isSome (h : LeafSound P l) (hs : s ∈ l.entries) (k : Bytes) :
    (found (slotMatches s k) (some s.body.lv)).isSome = true := by
  have h1 := h.keylenx s hs
  have h2 := h.typed s hs
  simp only [Kind.Keylenx, ksufKeylenx, layerKeylenx] at h1 h2
  cases hlv : s.body.lv with
  | value v =>
      have hne : s.body.keylenx ≠ 128 := fun h0 => by
        obtain ⟨n, hn⟩ := h2.mp h0
        rw [hlv] at hn
        cases hn
      have h0 : ¬ slotMatches s k < 0 := by
        rw [slotMatches, layerKeylenx, if_neg hne]
        split_ifs <;> decide
      rw [found, if_neg h0]
      rfl
  | layer n =>
      have h0 : s.body.keylenx = 128 := h2.mpr ⟨n, hlv⟩
      simp [slotMatches, ksufKeylenx, layerKeylenx, h0, found]

lemma lookup_isSome (h : LeafSound P l) (k : Bytes) : (lookup l k).isSome = true := by
  rw [lookup]
  cases hf : l.entries.find? fun s => compareKey k s = 0 with
  | none => rfl
  | some s => exact h.found_isSome (List.mem_of_find?_eq_some hf) k

end LeafSound

end

end MasstreeLHM.KeyTable.Shared
