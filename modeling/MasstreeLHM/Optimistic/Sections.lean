import MasstreeLHM.LeafSplit
import MasstreeLHM.Optimistic.Stores

/-!
# Critical sections

What a critical section stores, store by store: as long as it has not marked anything, the leaf is
in order and goes on calmly; and when everything has been stored, it is in order.

`Fine` is a property of a list of stores that are still to come, by recursion on the list: without a
mark each of them is calm and leaves the leaf in order, and behind a mark only the end counts
(`Fine.of_end`).  It holds of the words of every call: `fine_insertWords` of an insertion, with
`fine_splitWords` for one that splits the leaf, `fine_removeWords`, `fine_newLayerWords` and
`fine_gcWords`.  Which of the stores come behind a mark is read off the source.

**`fine_sectionWords`** is all calls together: if the search of a call is still right when the leaf
has been locked, the call can be carried out and what it stores is fine.
-/

namespace MasstreeLHM.KeyTable.Shared

variable {V : Type} [Inhabited V] {P : NodeParams} {l : Leaf (Cell V)} {s s' : Slot (Cell V)}
  {k : Bytes} {i p : ℕ}
  {dirty : Bool} {todo : List (LeafStore V)} {st : LeafStore V} {v : Option V}

/-- **What is still to be stored is fine**, if something has been marked or not. -/
def Fine (P : NodeParams) : Bool → List (LeafStore V) → Leaf (Cell V) → Prop
  | _, [], l => LeafSound P l
  | dirty, st :: todo, l =>
      (dirty = false → LeafSound P l ∧ Calm l (st.onLeaf l)) ∧
      Fine P (dirty || st.isMark) todo (st.onLeaf l)

lemma Fine.cons (hl : LeafSound P l) (hc : Calm l (st.onLeaf l))
    (h : Fine P (dirty || st.isMark) todo (st.onLeaf l)) : Fine P dirty (st :: todo) l :=
  ⟨fun _ => ⟨hl, hc⟩, h⟩

lemma Fine.mark (hl : LeafSound P l) (m : Nodeversion.Mark) (h : Fine P true todo l) :
    Fine P dirty (.mark m :: todo) l := by
  refine Fine.cons hl (.refl l) ?_
  rw [LeafStore.isMark, Bool.or_true]
  exact h

/-- With something marked only the end counts. -/
lemma Fine.of_end (h : LeafSound P (todo.foldl LeafStore.onLeaf l)) : Fine P true todo l := by
  induction todo generalizing l with
  | nil => exact h
  | cons st todo ih => exact ⟨fun h0 => (by cases h0), by rw [Bool.true_or]; exact ih h⟩

lemma Fine.sound (h : Fine P false todo l) : LeafSound P l := by
  cases todo with
  | nil => exact h
  | cons st todo => exact (h.1 rfl).1

/-! ## A slot that is not live yet -/

omit [Inhabited V] in
lemma assign_assign (l : Leaf (Cell V)) (p : ℕ) (s t : Slot (Cell V)) :
    (l.assign p s).assign p t = l.assign p t := by
  simp [Leaf.assign, List.set_set]

/-- One word of a slot that has been written. -/
lemma assign_word (hp : p < l.slots.length) (f : Slot (Cell V) → Slot (Cell V))
    (s : Slot (Cell V)) :
    (l.assign p s).assign p (f ((l.assign p s).slot p)) = l.assign p (f s) := by
  rw [Leaf.slot_assign hp, if_pos rfl, assign_assign]

lemma Fine.word (hl : LeafSound P l) (hins : l.modstate = .insert) (hp : p ∉ l.permutation.live)
    (hst : st.onLeaf (l.assign p s) = l.assign p s') (hmark : st.isMark = false)
    (h : Fine P dirty todo (l.assign p s')) : Fine P dirty (st :: todo) (l.assign p s) := by
  refine Fine.cons (hl.assign hp s) ?_ ?_
  · rw [hst, ← assign_assign l p s s']
    exact calm_assign (l := l.assign p s) hins hp s'
  · rw [hst, hmark, Bool.or_false]
    exact h

/-- The slot has the words that `leaf::assign` writes for the key. -/
structure HasKey (k : Bytes) (s : Slot (Cell V)) : Prop where
  ikey : s.ikey = slice k
  keylenx : s.body.keylenx = (assigned k : Slot (Cell V)).body.keylenx

lemma HasKey.rank (h : HasKey k s) : rank s = min k.length 9 := by
  rw [KeyTable.rank, h.keylenx]
  exact rank_assigned

/-- It is the slot of a value. -/
lemma HasKey.kind (h : HasKey k s) :
    Kind.strings.Keylenx s.body.keylenx ∧ s.body.keylenx ≠ layerKeylenx := by
  rw [h.keylenx, assigned]
  split_ifs with h0
  · exact ⟨Or.inr (Or.inl rfl), (by decide : ksufKeylenx ≠ layerKeylenx)⟩
  · have h8 : ¬ 8 < k.length := fun hlt => h0 (decide_eq_true hlt)
    simp only [Kind.Keylenx, layerKeylenx]
    omega

lemma HasKey.keyLt (h : HasKey k s) (t : Slot (Cell V)) :
    (keyLt t s ↔ keyLt t (assigned k)) ∧ (keyLt s t ↔ keyLt (assigned k) t) :=
  ⟨keyLt_congr rfl rfl h.ikey (h.rank.trans rank_assigned.symm),
    keyLt_congr h.ikey (h.rank.trans rank_assigned.symm) rfl rfl⟩

/-- `leaf::assign`. -/
lemma fine_assignWords (hl : LeafSound P l) (hins : l.modstate = .insert)
    (hp : p ∉ l.permutation.live) (hlt : p < l.slots.length) (h : ∀ s, HasKey k s →
      Fine P dirty todo (l.assign p s)) :
    Fine P dirty (assignWords p k ++ todo) l := by
  have hself : l.assign p (l.slot p) = l := by
    have : l.slots.set p (l.slot p) = l.slots := by
      rw [Leaf.slot, List.getD_eq_getElem?_getD, List.getElem?_eq_getElem hlt, Option.getD_some,
        List.set_getElem_self]
    rw [Leaf.assign, this]
  rw [← hself, assignWords]
  refine Fine.word hl hins hp
    (assign_word hlt (fun s => { s with body := { s.body with lv := default } }) _) rfl ?_
  refine Fine.word hl hins hp (assign_word hlt (fun s => { s with ikey := slice k }) _) rfl ?_
  by_cases hsuf : (keyOf k).hasSuffix = true
  · rw [if_pos hsuf]
    refine Fine.word hl hins hp
      (assign_word hlt (fun s => { s with body := { s.body with keylenx := ksufKeylenx } }) _)
        rfl ?_
    refine Fine.word hl hins hp
      (assign_word hlt (fun s => { s with body := { s.body with ksuf := k.drop 8 } }) _) rfl ?_
    exact h _ ⟨rfl, by simp [assigned, hsuf]⟩
  · rw [if_neg hsuf]
    refine Fine.word hl hins hp
      (assign_word hlt (fun s => { s with body := { s.body with keylenx := k.length } }) _) rfl ?_
    exact h _ ⟨rfl, by simp [assigned, hsuf]⟩

/-! ## Inserting -/

section Insert

variable (hl : LeafSound P l) (hins : l.modstate = .insert) (hi : i ≤ l.size)
  (hbf : ∀ t ∈ l.entries.take i, keyLt t (assigned k)) (haf : ∀ t ∈ l.entries.drop i,
  keyLt (assigned k) t)
include hl hins hi hbf haf

/-- `finish_insert` for a slot that has been assigned. -/
lemma fine_finishWords (hlt : l.size < P.leafWidth) (hs : HasKey k s) :
    Fine P dirty (finishWords l.permutation i l.permutation.back v)
    (l.assign l.permutation.back s) := by
  have hback : l.permutation.back ∉ l.permutation.live := hl.perm.back_notMem_live hlt
  have hW : l.permutation.back < l.slots.length := by
    rw [hl.slots]
    exact hl.perm.back_lt (by omega)
  cases v with
  | none => exact hl.assign hback s
  | some v =>
      set t : Slot (Cell V) := { s with body := { s.body with lv := .value v } } with ht
      have hst : HasKey k t := ⟨hs.ikey, hs.keylenx⟩
      refine Fine.word hl hins hback
        (assign_word hW (fun s => { s with body := { s.body with lv := .value v } }) s) rfl ?_
      change Fine P dirty _ (l.assign l.permutation.back t)
      refine Fine.cons (hl.assign hback t) (calm_permutation (fun _ => ?_) fun h0 =>
        absurd hins h0) ?_
      · change l.permutation.live.Sublist _
        rw [hl.perm.live_insertFromBack hi hlt]
        conv_lhs => rw [← List.take_append_drop i l.permutation.live]
        exact (List.Sublist.refl _).append (List.sublist_cons_self _ _)
      · refine hl.inserted (s := t) hi hlt (fun u hu => (hst.keyLt u).1.mpr (hbf u hu))
          (fun u hu => (hst.keyLt u).2.mpr (haf u hu)) hst.kind.1 ?_
        exact ⟨fun h0 => absurd h0 hst.kind.2, by rintro ⟨_, hn⟩; cases hn⟩

/-- A free slot is assigned and made live. -/
lemma fine_room (hlt : l.size < P.leafWidth) :
    Fine P dirty
    (assignWords l.permutation.back k ++ finishWords l.permutation i l.permutation.back v) l := by
  refine fine_assignWords hl hins (hl.perm.back_notMem_live hlt) ?_
    fun s hs => fine_finishWords hl hins hi hbf haf hlt hs
  rw [hl.slots]
  exact hl.perm.back_lt (by omega)

/-- **`make_split`**: there is a split point, and the left leaf is in order. -/
lemma fine_splitWords (hW : P.leafWidth = Kind.strings.leafWidth) (hno : l.size < P.leafWidth →
    l.permutation.back = 0) :
    ∃ todo, splitWords P l i k v = some todo ∧ Fine P dirty todo l := by
  rw [splitWords]
  by_cases hcond : l.size < P.leafWidth ∧ (l.permutation.exchange l.size (P.leafWidth - 1)).back ≠ 0
  · simp only [if_pos hcond]
    refine ⟨_, rfl, ?_⟩
    set q := l.permutation.exchange l.size (P.leafWidth - 1) with hq
    have hlive : q.live = l.permutation.live :=
      Kpermuter.WF.live_exchange _ le_rfl (by change l.size ≤ _; omega)
    have hl' : LeafSound P { l with permutation := q } :=
      hl.permutation (hl.perm.exchange hcond.1 (by omega)) (by rw [hlive])
    have hent : ({ l with permutation := q } : Leaf (Cell V)).entries = l.entries := by
      rw [Leaf.entries, hlive]
      rfl
    refine Fine.cons hl (calm_permutation (fun _ => by rw [hlive]) fun _ => by rw [hlive]) ?_
    change Fine P (dirty || false) _ _
    rw [Bool.or_false]
    exact fine_room (l := { l with permutation := q }) hl' hins hi (by rw [hent]; exact hbf)
      (by rw [hent]; exact haf)
      hcond.1
  · simp only [if_neg hcond]
    have hsz : l.size ≤ P.leafWidth := hl.perm.size_le
    have hfull := split_cases hl.perm hno hcond
    have hne : ∃ t ∈ l.entries, t.ikey ≠ (assigned k : Slot (Cell V)).ikey :=
      exists_other_ikey hl.sorted hl.keylenx (by rw [← hW, Leaf.entries_length hl.perm]; omega) _
    obtain ⟨mid, hmid, h1, h2, -⟩ := Leaf.splitPoint_of_ne keyLt_le hl.perm hl.sorted hi (by omega)
      (fun t ht => keyLt_le _ _ (hbf t ht)) (fun t ht => keyLt_le _ _ (haf t ht)) hne
    rw [hmid, Option.map_some]
    refine ⟨_, rfl, Fine.mark hl _ ?_⟩
    obtain ⟨-, -, -, r4, r5⟩ := Leaf.splitRight_spec hl.perm 0 (assigned k) hi h1 h2
    set moved := (l.splitRight P 0 i (assigned k) mid).size with hmoved
    obtain ⟨t1, t2, t3, -⟩ := Leaf.splitLeft_spec hl.perm 0 moved
    change (l.trimmed P moved).WF _ at t1
    change (l.trimmed P moved).size = _ at t2
    change ({ l with permutation := l.trimmed P moved } : Leaf (Cell V)).entries = _ at t3
    have hent :
      ({ l with permutation := l.trimmed P moved } : Leaf (Cell V)).entries.Sublist l.entries := by
      rw [t3]
      exact List.take_sublist _ _
    have hl' : LeafSound P { l with permutation := l.trimmed P moved } :=
      ⟨t1, hl.slots, hl.sorted.sublist hent, fun t ht => hl.keylenx t (hent.subset ht),
        fun t ht => hl.typed t (hent.subset ht)⟩
    refine ⟨fun h0 => (by cases h0), ?_⟩
    change Fine P true _ { l with permutation := l.trimmed P moved }
    split_ifs with him
    · -- the new item stays in the left leaf
      obtain ⟨-, r6⟩ := r4 him
      change moved = _ at r6
      have hsize : ({ l with permutation := l.trimmed P moved } : Leaf (Cell V)).size = mid -
        1 := by
        rw [Leaf.size, t2, r6]
        omega
      refine fine_room (l := { l with permutation := l.trimmed P moved }) hl' hins ?_ ?_ ?_ ?_
      · rw [hsize]
        omega
      · rw [t3, List.take_take]
        exact fun t ht => hbf t ((List.take_sublist_take_left (by omega)).subset ht)
      · rw [t3, List.drop_take]
        exact fun t ht => haf t (List.mem_of_mem_take ht)
      · rw [hsize]
        omega
    · exact hl'

end Insert

/-- `find_insert` behind a search without hit.  In the remove state the leaf is marked first. -/
lemma fine_insertWords (hl : LeafSound P l) (hW : P.leafWidth = Kind.strings.leafWidth)
    (hm : plainLower l k = (i, none)) :
    ∃ todo, insertWords P l i k v = some todo ∧ Fine P false todo l := by
  obtain ⟨hi, hbf, haf⟩ := hl.stop (s := (assigned k : Slot (Cell V))) hm rfl rank_assigned
  -- in the insert state, whether something has been marked or not
  have key : ∀ (dirty : Bool) (l : Leaf (Cell V)), LeafSound P l →
    l.modstate = .insert → i ≤ l.size →
      (∀ t ∈ l.entries.take i, keyLt t (assigned k)) →
        (∀ t ∈ l.entries.drop i, keyLt (assigned k) t) →
      ∃ ws, (if l.size < P.leafWidth ∧ (l.permutation.back ≠ 0 ∨ l.prev = none ∨
        l.ikeyBound = slice k) then
          some (assignWords l.permutation.back k ++ finishWords l.permutation i
            l.permutation.back v)
        else splitWords P l i k v) = some ws ∧ Fine P dirty ws l := by
    intro dirty l hl hins hi hbf haf
    split_ifs with hcond
    · exact ⟨_, rfl, fine_room hl hins hi hbf haf hcond.1⟩
    · refine fine_splitWords hl hins hi hbf haf hW fun hlt => ?_
      by_contra h0
      exact hcond ⟨hlt, Or.inl h0⟩
  rw [insertWords]
  by_cases hins : l.modstate = .insert
  · obtain ⟨ws, h1, h2⟩ := key false l hl hins hi hbf haf
    refine ⟨ws, ?_, h2⟩
    simp only [h1, Option.map_some, if_pos hins]
  · obtain ⟨ws, h1, h2⟩ :=
      key true { l with modstate := .insert } (hl.modstate .insert) rfl hi hbf haf
    refine ⟨.mark .insert :: .modstate .insert :: ws, ?_,
      Fine.mark hl _ ⟨fun h0 => (by cases h0), h2⟩⟩
    change (if l.size < P.leafWidth ∧ (l.permutation.back ≠ 0 ∨ l.prev = none ∨
      l.ikeyBound = slice k) then
        some (assignWords l.permutation.back k ++ finishWords l.permutation i l.permutation.back v)
      else splitWords P l i k v) = some ws at h1
    simp only [h1, Option.map_some, if_neg hins]

/-! ## The other calls -/

/-- `finish_remove`.  In the insert state the leaf is marked first. -/
lemma fine_removeWords (hl : LeafSound P l) (hi : i < l.size) :
    Fine P false (removeWords l i) l := by
  have hlive : (l.permutation.remove i).live.Sublist l.permutation.live := by
    rw [hl.perm.live_remove hi]
    exact List.eraseIdx_sublist _ _
  have hend : LeafSound P { l with permutation := l.permutation.remove i } :=
    hl.permutation (hl.perm.remove hi) hlive
  rw [removeWords]
  by_cases hins : l.modstate = .insert
  · simp only [if_pos hins]
    refine Fine.mark hl _ (Fine.of_end ?_)
    split_ifs <;> exact hend.modstate .remove
  · simp only [if_neg hins]
    refine Fine.cons hl (calm_permutation (fun h0 => absurd h0 hins) fun _ => hlive) ?_
    split_ifs
    · exact Fine.mark hend _ (Fine.of_end hend)
    · exact hend

/-- `lv_` of a live slot is written, with the same kind of value. -/
lemma LeafSound.lv (hl : LeafSound P l) (hp : p ∈ l.permutation.live) {w : LeafValue V}
    (hw : (l.slot p).body.keylenx = layerKeylenx ↔ ∃ n, w = .layer n) :
    LeafSound P ((LeafStore.lv p w).onLeaf l) :=
  hl.assign_live (s := ⟨(l.slot p).ikey, { (l.slot p).body with lv := w }⟩) rfl rfl
    (hl.keylenx (l.slot p) (mem_entries hp)) hw

lemma fine_lv (hl : LeafSound P l) (hp : p ∈ l.permutation.live) {w : LeafValue V}
    (hw : (l.slot p).body.keylenx = layerKeylenx ↔ ∃ n, w = .layer n) : Fine P false [.lv p w] l :=
  Fine.cons hl (calm_lv hp w) (hl.lv hp hw)

/-- `make_new_layer`: the two stores are behind a mark. -/
lemma fine_newLayerWords (hl : LeafSound P l) (hp : p ∈ l.permutation.live)
    (hk : (l.slot p).body.keylenx = ksufKeylenx) (n : Ptr) :
    Fine P false (newLayerWords p n) l := by
  have hlt : p < l.slots.length := by
    rw [hl.slots]
    exact hl.perm.live_lt hp
  refine Fine.mark hl _ (Fine.of_end ?_)
  have heq : (LeafStore.keylenx p layerKeylenx).onLeaf ((LeafStore.lv p (.layer n)).onLeaf l)
      = l.assign p ⟨(l.slot p).ikey, ⟨layerKeylenx, (l.slot p).body.ksuf, .layer n⟩⟩ :=
    assign_word hlt
      (fun s : Slot (Cell V) => { s with body := { s.body with keylenx := layerKeylenx } })
      ⟨(l.slot p).ikey, ⟨(l.slot p).body.keylenx, (l.slot p).body.ksuf, .layer n⟩⟩
  change LeafSound P ((LeafStore.keylenx p layerKeylenx).onLeaf
    ((LeafStore.lv p (.layer n)).onLeaf l))
  rw [heq]
  refine hl.assign_live rfl ?_ (Or.inr (Or.inr rfl)) ⟨fun _ => ⟨n, rfl⟩, fun _ => rfl⟩
  rw [rank, rank, hk]
  rfl

/-- Layer pointers are replaced, one after another. -/
lemma fine_relinked (ns : List Ptr) (hl : LeafSound P l) (hp : p ∈ l.permutation.live)
    (hk : (l.slot p).body.keylenx = layerKeylenx)
    (h : ∀ l' : Leaf (Cell V), LeafSound P l' → l'.permutation = l.permutation →
      l'.modstate = l.modstate →
      l'.prev = l.prev → Fine P false todo l') :
    Fine P false (ns.map (fun n => .lv p (.layer n)) ++ todo) l := by
  induction ns generalizing l with
  | nil => exact h l hl rfl rfl rfl
  | cons n ns ih =>
      have hw : (l.slot p).body.keylenx = layerKeylenx ↔ ∃ m, (.layer n : LeafValue V) = .layer m :=
        ⟨fun _ => ⟨n, rfl⟩, fun _ => hk⟩
      refine Fine.cons hl (calm_lv hp _) (ih (hl.lv hp hw) hp ?_ h)
      rcases Leaf.slot_assign_cases l p p { l.slot p with
        body := { (l.slot p).body with lv := .layer n } }
        with h0 | ⟨-, h0⟩
      · rw [LeafStore.onLeaf, h0]
        exact hk
      · rw [LeafStore.onLeaf, h0]
        exact hk

lemma fine_gcWords (hl : LeafSound P l) (a : Surroundings) (k : Bytes) (kx : ℕ × Option ℕ) :
    Fine P false (gcWords a l k kx) l := by
  rw [gcWords]
  set i := kx.1 + if kx.2.isSome then 1 else 0 with hi
  by_cases hcond : (keyOf k).hasSuffix = true ∨ l.size ≤ i ∨
    (l.slot (l.permutation.get i)).ikey ≠ slice k ∨
      isLayer (l.slot (l.permutation.get i)) = false
  · simp only [if_pos hcond]
    exact hl
  · simp only [if_neg hcond]
    have hlt : i < l.size := by
      by_contra h0
      exact hcond (Or.inr (Or.inl (Nat.not_lt.mp h0)))
    have hp : l.permutation.get i ∈ l.permutation.live :=
      List.mem_of_getElem? (hl.perm.get_eq_live hlt)
    have hk : (l.slot (l.permutation.get i)).body.keylenx = layerKeylenx := by
      have h0 : isLayer (l.slot (l.permutation.get i)) = true := by
        rw [← Bool.not_eq_false]
        exact fun h0 => hcond (Or.inr (Or.inr (Or.inr h0)))
      have h1 := of_decide_eq_true h0
      have h2 := hl.keylenx _ (mem_entries hp)
      simp only [Kind.Keylenx, ksufKeylenx] at h2
      omega
    refine fine_relinked a.relinked hl hp hk fun l' h1 h2 h3 h4 => ?_
    split_ifs
    · have hsame : removeWords l i = removeWords l' i := by
        rw [removeWords, removeWords, h2, h3, h4]
      rw [hsame]
      exact fine_removeWords h1 (by rw [Leaf.size, h2]; exact hlt)
    · exact h1

/-- `mark_deleted_layer` on an empty leaf. -/
lemma fine_deletedLayer (hl : LeafSound P l) (h0 : l.size = 0) :
    Fine P false [.modstate .deletedLayer] l := by
  have hlive : l.permutation.live = [] := by
    rw [← List.length_eq_zero_iff, hl.perm.length_live]
    exact h0
  refine Fine.cons hl ⟨Or.inr ⟨rfl, hlive⟩, fun _ => .refl _, fun _ => .refl _, fun _ _ => .refl _,
    fun _ _ _ => rfl⟩ ?_
  exact hl.modstate .deletedLayer

/-! ## All calls -/

/-- What is stored does not depend on the links of the leaf. -/
lemma Fine.links {a b : Option Ptr} (h : Fine P dirty todo { l with prev := a, next := b }) :
    Fine P dirty todo l := by
  induction todo generalizing dirty l with
  | nil => exact LeafSound.links h l.prev l.next
  | cons st todo ih =>
      have hon : st.onLeaf { l with prev := a, next := b } = { st.onLeaf l with
        prev := a, next := b } := by
        cases st <;> rfl
      obtain ⟨h1, h2⟩ := h
      rw [hon] at h1 h2
      refine ⟨fun h0 => ?_, ih h2⟩
      obtain ⟨h3, h4⟩ := h1 h0
      exact ⟨h3.links l.prev l.next,
        ⟨h4.modstate, h4.grows, h4.shrinks, h4.fixed, h4.kept⟩⟩

/-- What `ksuf_matches` tells about a live slot. -/
lemma LeafSound.keylenx_of_matches (hl : LeafSound P l) (hp : p ∈ l.permutation.live) (k : Bytes) :
    (slotMatches (l.slot p) k < 0 ↔ (l.slot p).body.keylenx = layerKeylenx) ∧
      (slotMatches (l.slot p) k = 0 → (l.slot p).body.keylenx = ksufKeylenx) := by
  have h := hl.keylenx _ (mem_entries hp)
  simp only [Kind.Keylenx, ksufKeylenx, layerKeylenx] at h
  simp only [slotMatches, ksufKeylenx, layerKeylenx]
  split_ifs <;> omega

lemma fine_missedWords (hl : LeafSound P l) (hW : P.leafWidth = Kind.strings.leafWidth)
    (hm : plainLower l k = (i, none)) (a : Surroundings) (c : LeafCall V) :
    ∃ todo, missedWords P a k (i, none) l c = some todo ∧ Fine P false todo l := by
  cases c with
  | get => exact ⟨_, rfl, hl⟩
  | read => exact ⟨_, rfl, hl⟩
  | put f => exact fine_insertWords hl hW hm
  | probe => exact fine_insertWords hl hW hm
  | remove => exact ⟨_, rfl, hl⟩
  | gcLayer => exact ⟨_, rfl, fine_gcWords hl a k _⟩

lemma fine_foundWords (hl : LeafSound P l) (hp : p ∈ l.permutation.live) (hi : i < l.size)
    (h0 : ¬ slotMatches (l.slot p) k < 0) (a : Surroundings) (c : LeafCall V) :
    Fine P false (foundWords a k (i, some p) p (slotMatches (l.slot p) k) l c) l := by
  obtain ⟨m1, m2⟩ := hl.keylenx_of_matches hp k
  cases c with
  | get => exact hl
  | read => exact hl
  | put f =>
      rw [foundWords]
      split_ifs with hz
      · exact fine_newLayerWords hl hp (m2 hz) a.layer
      · exact fine_lv hl hp ⟨fun h => absurd (m1.mpr h) h0, by rintro ⟨_, hn⟩; cases hn⟩
  | probe =>
      rw [foundWords]
      split_ifs with hz
      · exact fine_newLayerWords hl hp (m2 hz) a.layer
      · exact hl
  | remove =>
      rw [foundWords]
      split_ifs
      · exact hl
      · exact fine_removeWords hl hi
  | gcLayer => exact fine_gcWords hl a k _

/-- **A critical section whose search is still right**: the call can be carried out, and what it
stores is fine. -/
lemma fine_sectionWords (hl : LeafSound P l) (hW : P.leafWidth = Kind.strings.leafWidth)
    {kx : ℕ × Option ℕ} {state : ℤ} (hlower : plainLower l k = kx)
    (hstate : state = kx.2.elim 0 fun p => slotMatches (l.slot p) k) (a : Surroundings)
    (c : LeafCall V) :
    ∃ todo, sectionWords P a c k kx state l = some todo ∧ Fine P false todo l := by
  set l' : Leaf (Cell V) := { l with prev := a.prev, next := a.next } with hl'
  have hs : LeafSound P l' := hl.links a.prev a.next
  suffices h : ∃ todo, sectionWords P a c k kx state l = some todo ∧ Fine P false todo l' by
    obtain ⟨todo, h1, h2⟩ := h
    exact ⟨todo, h1, h2.links⟩
  obtain ⟨i, kp⟩ := kx
  rw [sectionWords]
  cases kp with
  | none =>
      simp only
      split_ifs
      · exact ⟨_, rfl, hs⟩
      · exact fine_missedWords hs hW hlower a c
  | some p =>
      obtain ⟨hlive, -⟩ := lowerBy_some hlower
      have hp : p ∈ l'.permutation.live := List.mem_of_getElem? hlive
      have hi : i < l'.size := by
        have h0 : i < l.permutation.live.length := (List.getElem?_eq_some_iff.mp hlive).1
        rwa [hl.perm.length_live] at h0
      obtain rfl : state = slotMatches (l'.slot p) k := hstate
      simp only
      split_ifs with h0
      · exact ⟨_, rfl,
          fine_lv hs hp ⟨fun _ => ⟨_, rfl⟩, fun _ => (hs.keylenx_of_matches hp k).1.mp h0⟩⟩
      · exact ⟨_, rfl, hs⟩
      · exact ⟨_, rfl, fine_foundWords hs hp hi h0 a c⟩

end MasstreeLHM.KeyTable.Shared
