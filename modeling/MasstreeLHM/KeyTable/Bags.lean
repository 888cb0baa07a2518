import MasstreeLHM.KeyTable.Cells
import MasstreeLHM.Insert

/-!
# The string bags of the leaves

`leaf::assign` and `leaf::split_into` as far as the string bags are concerned, with the assertions
in them.  The suffixes that are in use stay readable: a leaf that is split keeps its bag, and the
new leaf gets one of its own, filled from the bag of the old leaf.

The nodes of a table have a suffix with every slot.  Beside them, each leaf has its bags as they are
in memory, and `Fits` says that both agree: the suffix of every live slot is read from the bag at
the position of the slot.  So no operation on nodes has to speak of bags, and no operation on bags
of trees.

**`Fits.assignStore`** is `leaf::assign`, which may replace the bag by a larger one.
**`Fits.splitRight`** and **`Fits.leftHalf`** are the two leaves of a split, and
**`Fits.splitStores`** is both.  Each of them says that no assertion fails on the way.
-/

namespace MasstreeLHM.KeyTable

variable {V : Type} [Inhabited V]

/-- The suffix of a slot. -/
def suffix (s : Slot (Cell V)) : Option Bytes := if hasKsuf s then some s.body.ksuf else none

/-- What `leaf::assign` does to the bags: the leaf with its permutation, a position and a key. -/
def assignStore (P : NodeParams) (st : SuffixStore) (l : Leaf (Cell V)) (p : ℕ) (k : Bytes) :
    Option SuffixStore :=
  if (keyOf k).hasSuffix then
    st.assignKsuf P.leafWidth l.permutation.live (fun q => hasKsuf (l.slot q)) l.modstate p
      (k.drop 8)
  else some st

/-- The suffixes that `leaf::split_into` assigns to the new leaf. -/
def movedSuffixes (st : SuffixStore) (l : Leaf (Cell V)) (kxI : ℕ) (k : Bytes) (mid : ℕ) :
    Option (List (Option Bytes)) :=
  (List.range (l.size + 1 - mid)).mapM fun j =>
    if mid + j = kxI then some (if (keyOf k).hasSuffix then some (k.drop 8) else none)
    else
      let p := l.permutation.get (if mid + j < kxI then mid + j else mid + j - 1)
      if hasKsuf (l.slot p) then (st.get p).map some else some none

/-- The bags of the left leaf of a split, which gets the new key if that belongs there. -/
def leftStore (P : NodeParams) (st : SuffixStore) (l : Leaf (Cell V)) (n nr : Ptr)
    (kxI : ℕ) (k : Bytes) (mid : ℕ) : Option SuffixStore :=
  let left := l.splitLeft P nr (l.splitRight P n kxI (assigned k) mid).size
  if kxI < mid then assignStore P st left left.permutation.back k else some st

/-- The bags after `leaf::split_into` at `mid`, and after the left leaf has been trimmed; `sz` is
the size of a leaf in bytes. -/
def splitStores (P : NodeParams) (sz : ℕ) (h : Heap (Cell V)) (stores : Ptr → SuffixStore) (n : Ptr)
    (kxI : ℕ) (k : Bytes) (mid : ℕ) : Option (Ptr → SuffixStore) := do
  let l := h.leaf n
  let right ← SuffixStore.make sz P.leafWidth (stores n).usedCapacity
  let moved ← movedSuffixes (stores n) l kxI k mid
  let right ← right.assignInitialize P.leafWidth moved
  let left ← leftStore P (stores n) l n h.size kxI k mid
  return Function.update (Function.update stores h.size right) n left

/-- The bags after `make_split`. -/
def makeSplitStores (P : NodeParams) (sz : ℕ) (h : Heap (Cell V)) (stores : Ptr → SuffixStore)
    (n : Ptr) (kxI : ℕ) (k : Bytes) : Option (Ptr → SuffixStore) :=
  let l := h.leaf n
  let perm := l.permutation.exchange l.size (P.leafWidth - 1)
  if l.size < P.leafWidth ∧ perm.back ≠ 0 then
    (assignStore P (stores n) { l with permutation := perm } perm.back k).map
      (Function.update stores n)
  else
    match l.splitPoint P kxI (assigned k) with
    | none => none
    | some mid => splitStores P sz h stores n kxI k mid

/-- The bags after a search without hit has been given a slot. -/
def makeRoomStores (P : NodeParams) (sz : ℕ) (h : Heap (Cell V)) (stores : Ptr → SuffixStore)
    (c : Cursor) (k : Bytes) : Option (Ptr → SuffixStore) :=
  let l : Leaf (Cell V) := { h.leaf c.n with modstate := .insert }
  let p := l.permutation.back
  if l.size < P.leafWidth ∧ (p ≠ 0 ∨ l.prev = none ∨ l.ikeyBound = slice k) then
    (assignStore P (stores c.n) l p k).map (Function.update stores c.n)
  else makeSplitStores P sz (h.setLeaf c.n l) stores c.n c.i k

/-! ## The suffixes in use are in the bags -/

/-- The live slots of a leaf are of the right kind, and their suffixes are in its bag. -/
structure Fits (kind : Kind) (st : SuffixStore) (l : Leaf (Cell V)) : Prop where
  keylenx : ∀ s ∈ l.entries, kind.Keylenx s.body.keylenx
  ksuf : ∀ p ∈ l.permutation.live, hasKsuf (l.slot p) = true →
    st.get p = some (l.slot p).body.ksuf ∧ IsSuffix (l.slot p).body.ksuf

variable {kind : Kind} {P : NodeParams} {st st' : SuffixStore} {l l' : Leaf (Cell V)}
  {p : ℕ} {k : Bytes}

/-- A leaf with no other live slots. -/
lemma Fits.mono (hf : Fits kind st l) (hp : l'.permutation.live ⊆ l.permutation.live)
    (hs : l'.slots = l.slots) : Fits kind st l' := by
  have hslot : l'.slot = l.slot := funext fun q => by rw [Leaf.slot, Leaf.slot, hs]
  refine ⟨?_, ?_⟩
  · rw [Leaf.entries, hslot]
    exact fun s hs => hf.keylenx s (List.map_subset _ hp hs)
  · rw [hslot]
    exact fun q hq => hf.ksuf q (hp hq)

lemma fits_of_live_eq_nil (hl : l.permutation.live = []) : Fits kind st l := by
  refine ⟨?_, ?_⟩
  · simp [Leaf.entries, hl]
  · simp [hl]

lemma isSuffix_drop (hk : kind.IsKey k) (hs : (keyOf k).hasSuffix = true) :
    IsSuffix (k.drop 8) := by
  have h8 : 8 < k.length := of_decide_eq_true hs
  refine ⟨by rw [List.length_drop]; omega, ?_⟩
  rw [List.length_drop, maxSuffixLen]
  cases kind with
  | strings =>
      have : k.length ≤ 1024 := hk
      omega
  | slices =>
      have : k.length = 8 := hk
      omega

lemma hasKsuf_assigned : hasKsuf (assigned k : Slot (Cell V)) = (keyOf k).hasSuffix := by
  rw [hasKsuf, assigned]
  split_ifs with h
  · rw [h]
    rfl
  · have h8 : ¬ 8 < k.length := fun h0 => h (decide_eq_true h0)
    simp only [Bool.not_eq_true] at h
    rw [h, decide_eq_false_iff_not, ksufKeylenx]
    change ¬ k.length = 64
    omega

lemma suffix_assigned : suffix (assigned k : Slot (Cell V))
    = if (keyOf k).hasSuffix then some (k.drop 8) else none := by
  rw [suffix, hasKsuf_assigned]
  split_ifs with h
  · rw [assigned, if_pos h]
  · rfl

lemma isSuffix_of_assigned (hk : kind.IsKey k) {a : Bytes}
    (ha : suffix (assigned k : Slot (Cell V)) = some a) : IsSuffix a := by
  rw [suffix_assigned] at ha
  split_ifs at ha with h
  cases ha
  exact isSuffix_drop hk h

/-- The final slot of an insertion is of the right kind. -/
lemma Insertion.Ok.keylenx {q : Insertion V} (hq : q.Ok kind) :
    kind.Keylenx q.slot.body.keylenx := by
  cases q with
  | key k v =>
      change kind.Keylenx (assigned k : Slot (Cell V)).body.keylenx
      rw [assigned]
      split_ifs with h
      · cases kind with
        | strings => exact Or.inr (Or.inl rfl)
        | slices =>
            have h8 : 8 < k.length := of_decide_eq_true h
            have : k.length = 8 := hq
            omega
      · have h8 : ¬ 8 < k.length := fun h0 => h (decide_eq_true h0)
        cases kind with
        | strings => exact Or.inl (Nat.not_lt.mp h8)
        | slices => exact Or.inl hq
  | edge k n =>
      obtain ⟨rfl, -⟩ := hq
      exact Or.inr rfl

/-- Its suffix is the one that has been assigned. -/
lemma suffix_assigned_of_slot {q : Insertion V} (h : hasKsuf q.slot = true) :
    suffix (assigned q.bytes : Slot (Cell V)) = some q.slot.body.ksuf := by
  cases q with
  | key k v => exact if_pos h
  | edge k n => exact absurd (of_decide_eq_true h) (show ¬ layerKeylenx = ksufKeylenx by decide)

section

variable (hf : Fits kind st l) (hst : st.Ok P.leafWidth) (hW : P.leafWidth ≤ 15)
  (hperm : l.permutation.WF P.leafWidth) (hk : kind.IsKey k)
include hf hst hW hperm hk

/-- **`leaf::assign`** stores the suffix of its key, and keeps those in use. -/
lemma Fits.assignStore (hp : p < P.leafWidth) (hmod : l.modstate ≠ .remove) :
    ∃ st', assignStore P st l p k = some st' ∧ st'.Ok P.leafWidth ∧
      (∀ q ∈ l.permutation.live, q ≠ p → hasKsuf (l.slot q) = true → st'.get q = st.get q) ∧
      ∀ a, suffix (assigned k : Slot (Cell V)) = some a → st'.get p = some a := by
  rw [KeyTable.assignStore]
  simp only [suffix_assigned]
  split_ifs with h
  · obtain ⟨st', h1, h2, h3, h4⟩ := SuffixStore.assignKsuf_spec hst hW hp (isSuffix_drop hk h)
      l.permutation.live (fun q => hasKsuf (l.slot q)) l.modstate hmod hperm.live_nodup
      (fun q hq => ⟨hperm.live_lt hq, fun hs => ⟨_, hf.ksuf q hq hs⟩⟩)
    refine ⟨st', h1, h2, h4, fun a ha => ?_⟩
    cases ha
    exact h3
  · exact ⟨st, rfl, hst, fun _ _ _ _ => rfl, fun _ h0 => by cases h0⟩

/-- A new slot that is not live yet. -/
lemma Fits.assign (hp : p < P.leafWidth) (hp' : p ∉ l.permutation.live)
    (hmod : l.modstate ≠ .remove) (hslots : l.slots.length = P.leafWidth) :
    ∃ st', KeyTable.assignStore P st l p k = some st' ∧ st'.Ok P.leafWidth ∧
      Fits kind st' (l.assign p (assigned k)) ∧
      ∀ a, suffix (assigned k : Slot (Cell V)) = some a → st'.get p = some a := by
  obtain ⟨st', h1, h2, h3, h4⟩ := hf.assignStore hst hW hperm hk hp hmod
  have hlt : ∀ q ∈ l.permutation.live, q < l.slots.length := fun q hq => by
    rw [hslots]
    exact hperm.live_lt hq
  refine ⟨st', h1, h2, ⟨?_, ?_⟩, h4⟩
  · rw [Leaf.entries_assign hp' hlt]
    exact hf.keylenx
  · intro q hq hs
    have hqp : q ≠ p := by
      rintro rfl
      exact hp' hq
    rw [Leaf.slot_assign (hlt q hq), if_neg hqp] at hs ⊢
    rw [h3 q hq hqp hs]
    exact hf.ksuf q hq hs

omit hst hW hk in
/-- The suffixes of the slots that move are read from the bag of the old leaf. -/
lemma Fits.movedSuffixes (i mid : ℕ) (hmid : mid ≤ l.size) (hi : i ≤ l.size) :
    KeyTable.movedSuffixes st l i k mid = some ((l.movedSlots i (assigned k) mid).map suffix) := by
  rw [KeyTable.movedSuffixes, Leaf.movedSlots, List.map_map]
  refine mapM_eq_some fun j hj => ?_
  rw [List.mem_range] at hj
  have hlive : ∀ x < l.size, l.permutation.get x ∈ l.permutation.live := fun x hx =>
    List.mem_of_getElem? (hperm.get_eq_live hx)
  have hread : ∀ x < l.size, (if hasKsuf (l.slot (l.permutation.get x)) = true then
      (st.get (l.permutation.get x)).map some else some none)
        = some (suffix (l.slot (l.permutation.get x))) := by
    intro x hx
    rw [suffix]
    split_ifs with hs
    · rw [(hf.ksuf _ (hlive x hx) hs).1]
      rfl
    · rfl
  simp only [Function.comp_apply, Leaf.slotAfterInsert]
  rcases Nat.lt_trichotomy (mid + j) i with h | h | h
  · rw [if_neg h.ne, if_pos h, if_pos h]
    exact hread _ (by omega)
  · rw [if_pos h, if_neg (show ¬ mid + j < i by omega), if_pos h, suffix_assigned]
  · have hge : ¬ mid + j < i := by omega
    rw [if_neg h.ne', if_neg hge, if_neg hge, if_neg h.ne']
    exact hread _ (by omega)

omit hst hW in
/-- Every suffix that moves is one. -/
lemma Fits.isSuffix_moved {i mid : ℕ} (hmid : mid ≤ l.size) (hi : i ≤ l.size) {a : Bytes}
    (ha : some a ∈ (l.movedSlots i (assigned k) mid).map suffix) : IsSuffix a := by
  obtain ⟨s, hs, hsa⟩ := List.mem_map.mp ha
  rw [Leaf.movedSlots_eq hperm hi _ hmid] at hs
  have hold : ∀ t ∈ l.entries, suffix t = some a → IsSuffix a := by
    intro t ht hta
    obtain ⟨p, hp, rfl⟩ := List.mem_map.mp ht
    rw [suffix] at hta
    split_ifs at hta with h
    cases hta
    exact (hf.ksuf p hp h).2
  rcases List.mem_append.mp (List.mem_of_mem_drop hs) with h1 | h1
  · exact hold s (List.mem_of_mem_take h1) hsa
  · rcases List.mem_cons.mp h1 with rfl | h1
    · exact isSuffix_of_assigned hk hsa
    · exact hold s (List.mem_of_mem_drop h1) hsa

omit hst in
/-- **The right leaf of a split** has its suffixes in its own bag, and so has the new key. -/
lemma Fits.splitRight {i mid : ℕ} (n : Ptr) (hmid' : 1 ≤ mid) (hmid : mid ≤ l.size)
    (hi : i ≤ l.size) (hst' : st'.Ok P.leafWidth) :
    ∃ st₁, st'.assignInitialize P.leafWidth ((l.movedSlots i (assigned k) mid).map suffix) =
      some st₁ ∧
      st₁.Ok P.leafWidth ∧ Fits kind st₁ (l.splitRight P n i (assigned k) mid) ∧
      (mid ≤ i → ∀ a, suffix (assigned k : Slot (Cell V)) = some a →
        st₁.get (i - mid) = some a) := by
  have hsz : l.size ≤ P.leafWidth := hperm.size_le
  have hlen : (l.movedSlots i (assigned k) mid).length = l.size + 1 - mid := by
    simp [Leaf.movedSlots]
  obtain ⟨st₁, h1, h2, h3⟩ := SuffixStore.assignInitialize_spec hst' hW
    ((l.movedSlots i (assigned k) mid).map suffix) (by rw [List.length_map]; omega)
    (fun a ha => hf.isSuffix_moved hperm hk hmid hi ha)
  obtain ⟨r1, r2, -, r4, r5⟩ := Leaf.splitRight_spec hperm n (assigned k) hi hmid' hmid
  set r := l.splitRight P n i (assigned k) mid with hr
  have hslot : ∀ q (hq : q < (l.movedSlots i (assigned k) mid).length),
      r.slot q = (l.movedSlots i (assigned k) mid)[q] := by
    intro q hq
    change (l.movedSlots i (assigned k) mid ++ _).getD q default = _
    rw [List.getD_eq_getElem?_getD, List.getElem?_append_left hq, List.getElem?_eq_getElem hq]
    rfl
  have hlive : ∀ q ∈ r.permutation.live, q < (l.movedSlots i (assigned k) mid).length := by
    intro q hq
    rw [← List.mem_range, ← Kpermuter.live_makeSorted (W := P.leafWidth)]
    change q ∈ (if mid ≤ i then (Kpermuter.makeSorted P.leafWidth _).removeToBack (i - mid)
      else Kpermuter.makeSorted P.leafWidth _ : Kpermuter).live at hq
    split_ifs at hq with h0
    · rw [(Kpermuter.WF.makeSorted (by omega)).live_removeToBack (by
        change i - mid < (l.movedSlots i (assigned k) mid).length
        omega)] at hq
      exact List.mem_of_mem_eraseIdx hq
    · exact hq
  refine ⟨st₁, h1, h2, ⟨?_, ?_⟩, ?_⟩
  · intro s hs
    rcases Nat.lt_or_ge i mid with h0 | h0
    · rw [(r4 h0).1] at hs
      exact hf.keylenx s (List.mem_of_mem_drop hs)
    · rw [(r5 h0).1] at hs
      exact hf.keylenx s (List.mem_of_mem_drop hs)
  · intro q hq hs
    have hq' := hlive q hq
    have hget : ((l.movedSlots i (assigned k) mid).map suffix)[q]? =
      some (some (r.slot q).body.ksuf) := by
      rw [List.getElem?_map, List.getElem?_eq_getElem hq', ← hslot q hq', Option.map_some, suffix,
        if_pos hs]
    exact ⟨h3 q _ hget, hf.isSuffix_moved hperm hk hmid hi (List.mem_of_getElem? hget)⟩
  · intro h0 a ha
    refine h3 _ _ ?_
    have hq' : i - mid < (l.movedSlots i (assigned k) mid).length := by omega
    rw [List.getElem?_map, List.getElem?_eq_getElem hq', ← hslot _ hq', (r5 h0).2.2.2,
      Option.map_some, ha]

/-- **The left leaf of a split** keeps its bag, which gets the suffix of the new key if that
stays. -/
lemma Fits.leftHalf {i mid : ℕ} (n nr : Ptr) (hmid' : 1 ≤ mid) (hmid : mid ≤ l.size)
    (hi : i ≤ l.size) (hmod : l.modstate ≠ .remove) (hslots : l.slots.length = P.leafWidth) :
    ∃ st₁, leftStore P st l n nr i k mid = some st₁ ∧ st₁.Ok P.leafWidth ∧
    Fits kind st₁ (l.leftHalf P n nr i (assigned k) mid) ∧
      (i < mid → ∀ a, suffix (assigned k : Slot (Cell V)) = some a →
        st₁.get (l.splitLeft P nr (l.splitRight P n i (assigned k) mid).size).permutation.back =
          some a) := by
  have hsz : l.size ≤ P.leafWidth := hperm.size_le
  obtain ⟨-, -, -, r4, -⟩ := Leaf.splitRight_spec hperm n (assigned k) hi hmid' hmid
  set m := (l.splitRight P n i (assigned k) mid).size with hm
  obtain ⟨l1, -, -, l4, -, -⟩ := Leaf.splitLeft_spec hperm nr m
  have hleft : Fits kind st (l.splitLeft P nr m) := by
    refine hf.mono ?_ rfl
    change (l.trimmed P m).live ⊆ _
    rw [Leaf.live_trimmed hperm]
    exact List.take_subset _ _
  simp only [Leaf.leftHalf, leftStore, ← hm]
  by_cases h0 : i < mid
  · have hmoved : m = l.size - (mid - 1) := (r4 h0).2
    simp only [if_pos h0]
    obtain ⟨st₁, h1, h2, h3, h4⟩ :=
      hleft.assign hst hW l1 hk (l1.back_lt (by omega)) (l4 (by omega))
      hmod hslots
    exact ⟨st₁, h1, h2, h3, fun _ => h4⟩
  · simp only [if_neg h0]
    exact ⟨st, rfl, hst, hleft, fun h1 => absurd h1 h0⟩

/-- **The bags of a split leaf.** -/
lemma Fits.splitStores {h : Heap (Cell V)} {stores : Ptr → SuffixStore} {n : Ptr}
    {i mid : ℕ} (sz : ℕ) (hl : h.node n = .leaf l) (hn : n ≠ h.size) (he : st = stores n)
    (hmid' : 1 ≤ mid) (hmid : mid ≤ l.size) (hi : i ≤ l.size) (hmod : l.modstate ≠ .remove)
    (hslots : l.slots.length = P.leafWidth) :
    ∃ left right, KeyTable.splitStores P sz h stores n i k mid
        = some (Function.update (Function.update stores h.size right) n left) ∧
      left.Ok P.leafWidth ∧ Fits kind left (l.leftHalf P n h.size i (assigned k) mid) ∧
      right.Ok P.leafWidth ∧ Fits kind right (l.splitRight P n i (assigned k) mid) ∧
      ∀ a, suffix (assigned k : Slot (Cell V)) = some a →
        (Function.update (Function.update stores h.size right) n left
          (l.splitPosition P n h.size i (assigned k) mid).n).get
          (l.splitPosition P n h.size i (assigned k) mid).p = some a := by
  subst he
  obtain ⟨r₀, h1, h2⟩ := SuffixStore.make_spec sz (stores n).usedCapacity hW
  obtain ⟨right, h3, h4, h5, h6⟩ := hf.splitRight hW hperm hk n hmid' hmid hi h2
  obtain ⟨left, g1, g2, g3, g4⟩ := hf.leftHalf hst hW hperm hk n h.size hmid' hmid hi hmod hslots
  have hleaf : h.leaf n = l := by rw [Heap.leaf, hl]; rfl
  refine ⟨left, right, ?_, g2, g3, h4, h5, fun a ha => ?_⟩
  · simp only [KeyTable.splitStores, hleaf, h1, hf.movedSuffixes hperm i mid hmid hi, h3,
      Option.bind_eq_bind, Option.bind_some, g1]
    rfl
  · rcases Nat.lt_or_ge i mid with h0 | h0
    · simp only [Leaf.splitPosition, if_pos h0, Function.update_self]
      exact g4 h0 a ha
    · rw [((Leaf.splitPosition_spec hperm hslots hi hmid' hmid n h.size (assigned k)).2 h0).1]
      rw [Function.update_of_ne hn.symm, Function.update_self]
      exact h6 h0 a ha

end

end MasstreeLHM.KeyTable
