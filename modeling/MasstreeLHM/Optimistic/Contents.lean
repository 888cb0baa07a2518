import MasstreeLHM.Keys.Order
import MasstreeLHM.Optimistic.Sections

/-!
# What is stored for a key

The stores of a critical section, seen by lookups: unless the leaf is split or a layer is made, a
call changes what a lookup of its own key answers, as the call says, and nothing else.

`Updates` says that two leaves answer alike for every key but one, and what the second answers for
that one; it is defined by `lookup` alone.  `LeafCall.update` says what a call makes of what it has
found: the abstract update, without slots.

There are three ways in which a leaf is updated: the value of the slot of a key is written
(`updates_lv`), a slot for a key becomes live (`updates_inserted`), or it ceases to be live
(`updates_removed`).  The stores of a call are put together to one of these, and
**`updates_sectionWords`** is the result, for every call whose search has been right.
-/

namespace MasstreeLHM.KeyTable.Shared

variable {V : Type} [Inhabited V] {P : NodeParams} {l l' : Leaf (Cell V)}
  {s : Slot (Cell V)} {k k' : Bytes}
  {i p : ℕ} {todo : List (LeafStore V)} {v : V}

/-- The leaf `l'` differs from `l` in what it answers for `k`, which is `x`. -/
structure Updates (k : Bytes) (x : Found V) (l l' : Leaf (Cell V)) : Prop where
  key : lookup l' k = some x
  others : ∀ k', k' ≠ k → lookup l' k' = lookup l k'

/-- What a call makes of what it has found. -/
def LeafCall.update : LeafCall V → Found V → Found V
  | .put f, .value v => .value (f (some v))
  | .put f, _ => .value (f none)
  | .remove, _ => .absent
  | _, x => x

/-! ## Lookups in two leaves -/

/-- A lookup depends on the slot for its key. -/
lemma LeafSound.lookup_congr (h : LeafSound P l) (h' : LeafSound P l')
    (hs : ∀ s, compareKey k s = 0 → (s ∈ l'.entries ↔ s ∈ l.entries)) :
    lookup l' k = lookup l k := by
  by_cases hex : ∃ s ∈ l.entries, compareKey k s = 0
  · obtain ⟨s, h1, h2⟩ := hex
    rw [h.lookup_of_mem h1 h2, h'.lookup_of_mem ((hs s h2).mpr h1) h2]
  · have hno : ∀ s ∈ l.entries, compareKey k s ≠ 0 := fun s h1 h2 => hex ⟨s, h1, h2⟩
    rw [lookup_of_none hno, lookup_of_none fun s h1 h2 => hno s ((hs s h2).mp h1) h2]

omit [Inhabited V] in
/-- Another key that compares equal has another suffix. -/
lemma slotMatches_of_ne (hk : Kind.strings.Keylenx s.body.keylenx) (h : compareKey k s = 0)
    (h1 : slotMatches s k = 1) (h' : compareKey k' s = 0) (hne : k' ≠ k) :
    slotMatches s k' = 0 := by
  rw [compareKey_eq_zero] at h h'
  obtain ⟨hs, hr⟩ := h
  obtain ⟨hs', hr'⟩ := h'
  have hslice : slice k' = slice k := hs'.symm.trans hs
  have h8 : 8 < k.length := by
    by_contra hle
    have hlen : k'.length = k.length := by omega
    refine hne ?_
    have := prefix_of_slice_eq hslice hlen.le (by omega)
    rwa [List.take_of_length_le (by omega)] at this
  have h8' : 8 < k'.length := by omega
  have hge : ¬ s.body.keylenx < ksufKeylenx := fun hx => by
    have h64 : ksufKeylenx = 64 := rfl
    have h128 : layerKeylenx = 128 := rfl
    simp only [Kind.Keylenx] at hk
    rw [rank] at hr
    omega
  rw [slotMatches, if_neg hge] at h1 ⊢
  have hx : s.body.keylenx ≠ layerKeylenx := fun hx => by
    rw [if_pos hx] at h1
    exact absurd h1 (by decide)
  rw [if_neg hx] at h1 ⊢
  have hsuf : s.body.ksuf = k.drop 8 := by
    by_contra hsuf
    rw [if_neg hsuf] at h1
    exact absurd h1 (by decide)
  rw [hsuf, if_neg]
  intro hdrop
  refine hne ?_
  rw [← List.take_append_drop 8 k', ← List.take_append_drop 8 k, hdrop,
    take_eq_of_slice_eq hslice h8' h8]

/-- A slot without a layer, looked up with another key. -/
lemma LeafSound.lookup_of_ne (h : LeafSound P l) (hp : s ∈ l.entries) (h0 : compareKey k s = 0)
    (h1 : slotMatches s k = 1) (h' : compareKey k' s = 0) (hne : k' ≠ k) :
    lookup l k' = some .absent := by
  have h2 := slotMatches_of_ne (h.keylenx s hp) h0 h1 h' hne
  have h3 := h.found_isSome hp k'
  rw [h.lookup_of_mem hp h', h2] at *
  cases hlv : s.body.lv with
  | value v => rfl
  | layer n =>
      rw [hlv] at h3
      cases h3

/-! ## The three updates -/

/-- `lv_` of the slot of a key is written. -/
lemma LeafSound.updates_lv (h : LeafSound P l) (hp : p ∈ l.permutation.live)
    (h0 : compareKey k (l.slot p) = 0) (h1 : slotMatches (l.slot p) k = 1) :
    Updates k (.value v) l ((LeafStore.lv p (.value v)).onLeaf l) := by
  have hnl : (l.slot p).body.keylenx ≠ layerKeylenx := fun hx => by
    have := (h.keylenx_of_matches hp k).1.mpr hx
    omega
  have hl' : LeafSound P ((LeafStore.lv p (.value v)).onLeaf l) :=
    h.lv hp ⟨fun hx => absurd hx hnl, by rintro ⟨_, hn⟩; cases hn⟩
  set l' := (LeafStore.lv p (.value v)).onLeaf l with hdef
  have hlt : ∀ q ∈ l.permutation.live, q < l.slots.length := fun q hq => by
    rw [h.slots]
    exact h.perm.live_lt hq
  have hslot : l'.slot p = ⟨(l.slot p).ikey, { (l.slot p).body with lv := .value v }⟩ := by
    rw [hdef, LeafStore.onLeaf, Leaf.slot_assign (hlt p hp), if_pos rfl]
  have hother : ∀ q ∈ l.permutation.live, q ≠ p → l'.slot q = l.slot q := fun q hq hqp => by
    rw [hdef, LeafStore.onLeaf, Leaf.slot_assign (hlt q hq), if_neg hqp]
  have hsame : SameKey (l.slot p) (l'.slot p) := by
    rw [hslot]
    exact ⟨rfl, rfl, rfl⟩
  have hp' : l'.slot p ∈ l'.entries := mem_entries hp
  refine ⟨?_, fun k' hne => ?_⟩
  · rw [hl'.lookup_of_mem hp' ((hsame.compareKey k).trans h0), hsame.slotMatches, h1, hslot]
    rfl
  · by_cases hc : compareKey k' (l.slot p) = 0
    · rw [h.lookup_of_ne (mem_entries hp) h0 h1 hc hne,
        hl'.lookup_of_ne hp' ((hsame.compareKey k).trans h0)
        ((hsame.slotMatches k).trans h1) ((hsame.compareKey k').trans hc) hne]
    · refine h.lookup_congr hl' fun s hs => ⟨fun hm => ?_, fun hm => ?_⟩
      · obtain ⟨q, hq, rfl⟩ := List.mem_map.mp hm
        have hqp : q ≠ p := by
          rintro rfl
          exact hc ((hsame.compareKey k').symm.trans hs)
        rw [hother q hq hqp]
        exact mem_entries hq
      · obtain ⟨q, hq, rfl⟩ := List.mem_map.mp hm
        have hqp : q ≠ p := by
          rintro rfl
          exact hc hs
        rw [← hother q hq hqp]
        exact mem_entries (l := l') hq

/-- A slot for a key becomes live. -/
lemma LeafSound.updates_inserted (h : LeafSound P l) (hm : plainLower l k = (i, none)) (hlt :
    l.size < P.leafWidth)
    (hs : HasKey k s) (h1 : slotMatches s k = 1) (hv : s.body.lv = .value v) :
    Updates k (.value v) l (l.inserted i l.permutation.back s) := by
  obtain ⟨hi, hbf, haf⟩ := h.stop hm hs.ikey hs.rank
  have hl' : LeafSound P (l.inserted i l.permutation.back s) :=
    h.inserted hi hlt hbf haf hs.kind.1
      ⟨fun hx => absurd hx hs.kind.2, by rintro ⟨n, hn⟩; rw [hv] at hn; cases hn⟩
  have hmem : ∀ t, t ∈ (l.inserted i l.permutation.back s).entries ↔ t = s ∨ t ∈ l.entries :=
    fun t => h.mem_inserted hi hlt
  have hself : compareKey k s = 0 := compareKey_eq_zero.mpr ⟨hs.ikey, hs.rank⟩
  refine ⟨?_, fun k' hne => ?_⟩
  · rw [hl'.lookup_of_mem ((hmem s).mpr (Or.inl rfl)) hself, h1, hv]
    rfl
  · by_cases hc : compareKey k' s = 0
    · rw [hl'.lookup_of_ne ((hmem s).mpr (Or.inl rfl)) hself h1 hc hne, lookup_of_none]
      -- no slot compares equal to the one key, and so none does to the other
      intro t ht h0
      rw [compareKey_eq_zero, hs.ikey, hs.rank] at hc
      rw [compareKey_eq_zero] at h0
      obtain ⟨q, hq, rfl⟩ := List.mem_map.mp ht
      exact h.not_mem_of_miss hm ht (compareKey_eq_zero.mpr ⟨h0.1.trans hc.1.symm,
        h0.2.trans hc.2.symm⟩)
    · refine h.lookup_congr hl' fun t ht => ?_
      rw [hmem, or_iff_right]
      rintro rfl
      exact hc ht

/-- The slot of a key is not live any more. -/
lemma LeafSound.updates_removed (h : LeafSound P l) (hi : l.permutation.live[i]? = some p)
    (h0 : compareKey k (l.slot p) = 0) (h1 : slotMatches (l.slot p) k = 1) :
    Updates k .absent l { l with permutation := l.permutation.remove i } := by
  have hp : p ∈ l.permutation.live := List.mem_of_getElem? hi
  have hlt : i < l.size := by
    rw [Leaf.size, ← h.perm.length_live]
    exact (List.getElem?_eq_some_iff.mp hi).1
  have hlive : (l.permutation.remove i).live = l.permutation.live.eraseIdx i :=
    h.perm.live_remove hlt
  have hl' : LeafSound P { l with permutation := l.permutation.remove i } :=
    h.permutation (h.perm.remove hlt) (by rw [hlive]; exact List.eraseIdx_sublist _ _)
  have hmem : ∀ t, t ∈ ({ l with permutation := l.permutation.remove i } : Leaf (Cell V)).entries ↔
      ∃ q ∈ l.permutation.live, q ≠ p ∧ l.slot q = t := by
    intro t
    change t ∈ (l.permutation.remove i).live.map l.slot ↔ _
    rw [hlive, List.mem_map]
    constructor
    · rintro ⟨q, hq, rfl⟩
      obtain ⟨j, hj, hjq⟩ := List.mem_eraseIdx_iff_getElem?.mp hq
      refine ⟨q, List.mem_of_getElem? hjq, ?_, rfl⟩
      rintro rfl
      exact hj ((List.getElem?_inj (List.getElem?_eq_some_iff.mp hjq).1 h.perm.live_nodup).mp
        (hjq.trans hi.symm))
    · rintro ⟨q, hq, hqp, rfl⟩
      obtain ⟨j, hj⟩ := List.mem_iff_getElem?.mp hq
      refine ⟨q, List.mem_eraseIdx_iff_getElem?.mpr ⟨j, ?_, hj⟩, rfl⟩
      rintro rfl
      exact hqp (Option.some.inj (hj.symm.trans hi))
  have hno : ∀ t ∈ ({ l with permutation := l.permutation.remove i } : Leaf (Cell V)).entries,
      compareKey k t ≠ 0 := by
    intro t ht h2
    obtain ⟨q, hq, hqp, rfl⟩ := (hmem t).mp ht
    exact hqp (List.inj_on_of_nodup_map h.nodup hq hp
      (h.eq_of_compareKey (mem_entries hq) (mem_entries hp) h2 h0))
  refine ⟨lookup_of_none hno, fun k' hne => ?_⟩
  by_cases hc : compareKey k' (l.slot p) = 0
  · rw [h.lookup_of_ne (mem_entries hp) h0 h1 hc hne, lookup_of_none]
    intro t ht h2
    rw [compareKey_eq_zero] at hc h0 h2
    exact hno t ht (compareKey_eq_zero.mpr ⟨h2.1.trans (hc.1.symm.trans h0.1),
      h2.2.trans (hc.2.symm.trans h0.2)⟩)
  · refine h.lookup_congr hl' fun t ht => ?_
    rw [hmem]
    constructor
    · rintro ⟨q, hq, -, rfl⟩
      exact mem_entries hq
    · intro hm
      obtain ⟨q, hq, rfl⟩ := List.mem_map.mp hm
      refine ⟨q, hq, ?_, rfl⟩
      rintro rfl
      exact hc ht

lemma Updates.refl {x : Found V} (h : lookup l k = some x) : Updates k x l l := ⟨h, fun _ _ => rfl⟩

/-- Leaves that answer alike. -/
lemma Updates.congr {x : Found V} {m m' : Leaf (Cell V)} (h : Updates k x l l')
    (hl : ∀ k, lookup m k = lookup l k) (hl' : ∀ k, lookup m' k = lookup l' k) : Updates k x m m' :=
  ⟨(hl' k).trans h.key, fun k' hne => by rw [hl, hl', h.others k' hne]⟩

/-! ## The stores of a call -/

/-- `leaf::assign`. -/
lemma foldl_assignWords (hlt : p < l.slots.length) : ∃ s, HasKey k s ∧ slotMatches s k = 1 ∧
    (assignWords p k).foldl LeafStore.onLeaf l = l.assign p s := by
  rw [assignWords]
  by_cases hsuf : (keyOf k).hasSuffix = true
  · refine ⟨⟨slice k, ⟨ksufKeylenx, k.drop 8, default⟩⟩, ⟨rfl, by simp [assigned, hsuf]⟩, ?_, ?_⟩
    · simp [slotMatches, ksufKeylenx, layerKeylenx]
    · simp [hsuf, LeafStore.onLeaf, Leaf.slot_assign hlt, assign_assign]
  · have h8 : ¬ 8 < k.length := fun hk => hsuf (decide_eq_true hk)
    refine ⟨⟨slice k, ⟨k.length, (l.slot p).body.ksuf, default⟩⟩, ⟨rfl, by simp [assigned, hsuf]⟩,
      ?_, ?_⟩
    · rw [slotMatches, if_pos]
      change k.length < 64
      omega
    · simp [hsuf, LeafStore.onLeaf, Leaf.slot_assign hlt, assign_assign]

/-- What an insertion stores: the value of `finish(1)`, or nothing. -/
def stored : Option V → Found V
  | none => .absent
  | some v => .value v

/-- A free slot is assigned, and made live if there is a value. -/
lemma LeafSound.updates_room (h : LeafSound P l) (hm : plainLower l k = (i, none))
    (hlt : l.size < P.leafWidth) (v : Option V) : Updates k (stored v) l
      ((assignWords l.permutation.back k ++ finishWords l.permutation i l.permutation.back v).foldl
        LeafStore.onLeaf l) := by
  have hback : l.permutation.back < l.slots.length := by
    rw [h.slots]
    exact h.perm.back_lt (by omega)
  obtain ⟨s, h1, h2, h3⟩ := foldl_assignWords (k := k) hback
  rw [List.foldl_append, h3]
  cases v with
  | none =>
      have hnot : l.permutation.back ∉ l.permutation.live := h.perm.back_notMem_live hlt
      have hent : (l.assign l.permutation.back s).entries = l.entries :=
        Leaf.entries_assign hnot fun q hq => by
        rw [h.slots]
        exact h.perm.live_lt hq
      refine (Updates.refl ?_).congr (fun _ => rfl) fun k' => ?_
      · exact lookup_of_none fun t ht => h.not_mem_of_miss hm ht
      · rw [lookup, lookup, ← hent]
        rfl
  | some v =>
      have heq : (finishWords l.permutation i l.permutation.back (some v)).foldl LeafStore.onLeaf
          (l.assign l.permutation.back s)
          = l.inserted i l.permutation.back { s with body := { s.body with lv := .value v } } := by
        simp [finishWords, LeafStore.onLeaf, Leaf.slot_assign hback, assign_assign, Leaf.inserted]
      rw [heq]
      exact h.updates_inserted hm hlt ⟨h1.ikey, h1.keylenx⟩ h2 rfl

/-- `find_insert` behind a search without hit, unless the leaf is split. -/
lemma LeafSound.updates_insertWords (h : LeafSound P l) (hm : plainLower l k = (i, none))
    {v : Option V} (hws : insertWords P l i k v = some todo) (hsplit : .mark .split ∉ todo) :
    Updates k (stored v) l (todo.foldl LeafStore.onLeaf l) := by
  -- in the insert state, or when the leaf has been marked
  have key : ∀ (l : Leaf (Cell V)) (ws : List (LeafStore V)), LeafSound P l →
    plainLower l k = (i, none) →
      (if l.size < P.leafWidth ∧ (l.permutation.back ≠ 0 ∨ l.prev = none ∨
        l.ikeyBound = slice k) then
          some (assignWords l.permutation.back k ++ finishWords l.permutation i
            l.permutation.back v)
        else splitWords P l i k v) = some ws → .mark .split ∉ ws →
      Updates k (stored v) l (ws.foldl LeafStore.onLeaf l) := by
    intro l ws h hm hws hsplit
    by_cases hc : l.size < P.leafWidth ∧ (l.permutation.back ≠ 0 ∨ l.prev = none ∨
      l.ikeyBound = slice k)
    · rw [if_pos hc, Option.some.injEq] at hws
      rw [← hws]
      exact h.updates_room hm hc.1 v
    · rw [if_neg hc, splitWords] at hws
      by_cases hcond : l.size < P.leafWidth ∧
        (l.permutation.exchange l.size (P.leafWidth - 1)).back ≠ 0
      · simp only [if_pos hcond, Option.some.injEq] at hws
        rw [← hws]
        set q := l.permutation.exchange l.size (P.leafWidth - 1) with hq
        have hlive : q.live = l.permutation.live :=
          Kpermuter.WF.live_exchange _ le_rfl (by change l.size ≤ _; omega)
        have hl' : LeafSound P { l with permutation := q } :=
          h.permutation (h.perm.exchange hcond.1 (by omega)) (by rw [hlive])
        have hm' : plainLower { l with permutation := q } k = (i, none) := by
          rw [← hm, plainLower, plainLower, ← hlive]
          rfl
        refine (hl'.updates_room hm' hcond.1 v).congr (fun k' => ?_) fun _ => rfl
        rw [lookup, lookup, Leaf.entries, Leaf.entries, ← hlive]
        rfl
      · simp only [if_neg hcond] at hws
        obtain ⟨mid, -, rfl⟩ := Option.map_eq_some_iff.mp hws
        exact absurd List.mem_cons_self hsplit
  rw [insertWords] at hws
  obtain ⟨ws, h1, h2⟩ := Option.map_eq_some_iff.mp hws
  by_cases hins : l.modstate = .insert
  · rw [if_pos hins] at h2
    subst h2
    exact key l ws h hm h1 hsplit
  · rw [if_neg hins] at h2
    subst h2
    have h3 := key { l with modstate := .insert } ws (h.modstate .insert) hm h1 fun hmem =>
      hsplit (List.mem_cons_of_mem _ (List.mem_cons_of_mem _ hmem))
    exact h3.congr (fun _ => rfl) fun _ => rfl

/-- `finish_remove`. -/
lemma LeafSound.updates_removeWords (h : LeafSound P l) (hi : l.permutation.live[i]? = some p)
    (h0 : compareKey k (l.slot p) = 0) (h1 : slotMatches (l.slot p) k = 1) :
    Updates k .absent l ((removeWords l i).foldl LeafStore.onLeaf l) := by
  refine (h.updates_removed hi h0 h1).congr (fun _ => rfl) fun k' => ?_
  rw [removeWords]
  split_ifs <;> rfl

/-- What is stored into the leaf does not depend on its links. -/
lemma foldl_links (todo : List (LeafStore V)) (l : Leaf (Cell V)) (a b : Option Ptr) :
    todo.foldl LeafStore.onLeaf { l with prev := a, next := b }
      = { todo.foldl LeafStore.onLeaf l with prev := a, next := b } := by
  induction todo generalizing l with
  | nil => rfl
  | cons st todo ih =>
      rw [List.foldl_cons, List.foldl_cons, ← ih]
      cases st <;> rfl

/-- **A critical section is one update**: of the key of its call, as the call says. -/
lemma LeafSound.updates_sectionWords (h : LeafSound P l) {kx : ℕ × Option ℕ} {state : ℤ}
    {a : Surroundings} {c : LeafCall V} (hlower : plainLower l k = kx)
    (hstate : state = kx.2.elim 0 fun p => slotMatches (l.slot p) k) (hc : c ≠ .gcLayer)
    (hlive : l.modstate ≠ .deletedLayer) (hplain : kx.2 = none ∨ 0 < state)
    (hws : sectionWords P a c k kx state l = some todo) (hsplit : .mark .split ∉ todo) :
    ∃ x, lookup l k = some x ∧ Updates k (c.update x) l (todo.foldl LeafStore.onLeaf l) := by
  set l' : Leaf (Cell V) := { l with prev := a.prev, next := a.next } with hl'
  have hs : LeafSound P l' := h.links a.prev a.next
  suffices hl : ∃ x, lookup l' k = some x ∧
    Updates k (c.update x) l' (todo.foldl LeafStore.onLeaf l') by
    obtain ⟨x, h1, h2⟩ := hl
    refine ⟨x, h1, h2.congr (fun _ => rfl) fun k' => ?_⟩
    rw [hl', foldl_links todo l a.prev a.next]
    rfl
  obtain ⟨i, kp⟩ := kx
  rw [sectionWords] at hws
  cases kp with
  | none =>
      simp only [if_neg hlive] at hws
      have habs : lookup l' k = some .absent :=
        lookup_of_none fun t ht => hs.not_mem_of_miss hlower ht
      refine ⟨.absent, habs, ?_⟩
      cases c with
      | get | read | remove =>
          cases hws
          exact .refl habs
      | put f => exact hs.updates_insertWords hlower hws hsplit
      | probe => exact hs.updates_insertWords hlower hws hsplit
      | gcLayer => exact absurd rfl hc
  | some p =>
      obtain ⟨hi, h0⟩ := lowerBy_some hlower
      have hp : p ∈ l'.permutation.live := List.mem_of_getElem? hi
      have hpos : 0 < state := hplain.resolve_left (by simp)
      obtain rfl : state = slotMatches (l'.slot p) k := hstate
      have h1 : slotMatches (l'.slot p) k = 1 := by
        rw [slotMatches] at hpos ⊢
        split_ifs at hpos ⊢ <;> first | rfl | omega
      simp only [if_neg (show ¬ slotMatches (l'.slot p) k < 0 by omega), if_neg hlive,
        Option.some.injEq] at hws
      rw [h1] at hws
      obtain ⟨w, hw⟩ : ∃ w, (l'.slot p).body.lv = .value w := by
        cases hlv : (l'.slot p).body.lv with
        | value w => exact ⟨w, rfl⟩
        | layer n =>
            have := (hs.typed _ (mem_entries hp)).mpr ⟨n, hlv⟩
            have := (hs.keylenx_of_matches hp k).1.mpr this
            omega
      have hlook : lookup l' k = some (.value w) := by
        rw [hs.lookup_of_mem (mem_entries hp) h0, h1, hw]
        rfl
      refine ⟨.value w, hlook, ?_⟩
      cases c with
      | get | read | probe =>
          cases hws
          exact .refl hlook
      | put f =>
          cases hws
          have hval : valueOf (l'.slot p) = some w := by rw [valueOf, hw]
          change Updates k (.value (f (some w))) l'
            ((LeafStore.lv p (.value (f (valueOf (l'.slot p))))).onLeaf l')
          rw [hval]
          exact hs.updates_lv hp h0 h1
      | remove =>
          cases hws
          exact hs.updates_removeWords hi h0 h1
      | gcLayer => exact absurd rfl hc

end MasstreeLHM.KeyTable.Shared
