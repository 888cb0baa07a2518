import Mathlib.Logic.Function.Basic
import MasstreeLHM.LinkSplit

/-!
# The arrays of an internode

`internode<P>` keeps its keys and children in the arrays `ikey0_` and `child_`; `split_into` and the
insertion in `make_split` move blocks between them.  Here they are functions of the index, of which
only the part in use is looked at, and the parent pointers are a function of the node.  The lists
that the internodes of the heap have instead are an abstraction of them.

`splitInto` and `Split.finish` follow the source, block by block.  `keyAfter` and `childAfter` are
the arrays with the new key and child in their place, as if there were room, and `CutAt` says that a
split has cut these at its midpoint.  There are three ways to get there, `cutAt_of_lt`,
`cutAt_of_eq` and `cutAt_of_gt`, by where the new child goes; **`cutAt_split`** is all of them.

`alternate` is the sequence of children and keys in turn.  **`split_alternates`** says that the two
halves with the separator between them are the old sequence with the new pair in it, and
**`split_lists`** that the lists of the heap follow the arrays.
-/

namespace MasstreeLHM

/-- `internode<P>`: the arrays and the number of keys in use. -/
structure InternodeArrays where
  nkeys : ℕ
  ikey0 : ℕ → ℕ
  child : ℕ → Ptr

/-- `memcpy(dst + p, src + xp, n)`, also `memmove`. -/
def copyBlock {α : Type} (dst : ℕ → α) (p : ℕ) (src : ℕ → α) (xp n : ℕ) : ℕ → α :=
  fun i => if p ≤ i ∧ i < p + n then src (xp + (i - p)) else dst i

namespace InternodeArrays

/-- `assign`, apart from the parent pointer of the child. -/
def assign (x : InternodeArrays) (p ikey : ℕ) (child : Ptr) : InternodeArrays :=
  { x with
    child := Function.update x.child (p + 1) child
    ikey0 := Function.update x.ikey0 p ikey }

/-- `shift_from`. -/
def shiftFrom (nr : InternodeArrays) (p : ℕ) (x : InternodeArrays) (xp n : ℕ) : InternodeArrays :=
  { nr with
    ikey0 := copyBlock nr.ikey0 p x.ikey0 xp n
    child := copyBlock nr.child (p + 1) x.child (xp + 1) n }

/-- The loop of `shift_up` over the children, from the last one down. -/
def shiftUpChildren (child : ℕ → Ptr) (p xp : ℕ) : ℕ → ℕ → Ptr
  | 0 => child
  | n + 1 => shiftUpChildren (Function.update child (p + (n + 1)) (child (xp + (n + 1)))) p xp n

/-- `shift_up`. -/
def shiftUp (x : InternodeArrays) (p xp n : ℕ) : InternodeArrays :=
  { x with
    ikey0 := copyBlock x.ikey0 p x.ikey0 xp n
    child := shiftUpChildren x.child p xp n }

/-- What `split_into` leaves: the two nodes, the parent pointers, `split_ikey`, and the position
that it returns, if it is not negative. -/
structure Split where
  left : InternodeArrays
  right : InternodeArrays
  parent : Ptr → Ptr
  splitIkey : ℕ
  kp : Option ℕ

/-- The midpoint of `split_into`. -/
def splitMid (width splitType : ℕ) : ℕ := if splitType = 2 then width else (width + 1) / 2

/-- The new node as `split_into` fills it, and `split_ikey`. -/
def splitRight (width mid : ℕ) (x nr : InternodeArrays) (p ka : ℕ) (value : Ptr) :
    InternodeArrays × ℕ :=
  let nr := { nr with nkeys := width + 1 - (mid + 1) }
  if p < mid then
    let nr := { nr with child := Function.update nr.child 0 (x.child mid) }
    (nr.shiftFrom 0 x mid (width - mid), x.ikey0 (mid - 1))
  else if p = mid then
    let nr := { nr with child := Function.update nr.child 0 value }
    (nr.shiftFrom 0 x mid (width - mid), ka)
  else
    let nr := { nr with child := Function.update nr.child 0 (x.child (mid + 1)) }
    let nr := nr.shiftFrom 0 x (mid + 1) (p - (mid + 1))
    let nr := nr.assign (p - (mid + 1)) ka value
    (nr.shiftFrom (p + 1 - (mid + 1)) x p (width - p), x.ikey0 mid)

/-- `split_into` of a node into itself and the new node at address `r`. -/
def splitInto (width : ℕ) (r : Ptr) (x nr : InternodeArrays) (parent : Ptr → Ptr) (p ka : ℕ)
    (value : Ptr) (splitType : ℕ) : Split :=
  let mid := splitMid width splitType
  let (nr, splitIkey) := splitRight width mid x nr p ka value
  -- `assign` in the third case sets the parent of the new child
  let parent := if mid < p then Function.update parent value r else parent
  let parent := (List.range (nr.nkeys + 1)).foldl
    (fun parent i => Function.update parent (nr.child i) r) parent
  if p < mid then ⟨{ x with nkeys := mid - 1 }, nr, parent, splitIkey, some p⟩
  else ⟨{ x with nkeys := mid }, nr, parent, splitIkey, none⟩

/-- What `make_split` does with the result: the rest of an insertion into the left node. -/
def Split.finish (s : Split) (a : Ptr) (ikey : ℕ) (child : Ptr) : Split :=
  match s.kp with
  | none => s
  | some kp =>
      let x := (s.left.shiftUp (kp + 1) kp (s.left.nkeys - kp)).assign kp ikey child
      { s with
        left := { x with nkeys := x.nkeys + 1 }
        parent := Function.update s.parent child a }

end InternodeArrays

/-- An element of the sequence of children and keys. -/
inductive TreeItem where
  | child (c : Ptr)
  | key (k : ℕ)
deriving Repr, DecidableEq

/-- The alternating sequence of `n` keys and the children around them. -/
def alternate (key : ℕ → ℕ) (child : ℕ → Ptr) (n : ℕ) : List TreeItem :=
  .child (child 0) :: (List.range n).flatMap fun i => [.key (key i), .child (child (i + 1))]

/-- The children and keys in use. -/
def InternodeArrays.items (x : InternodeArrays) : List TreeItem :=
  alternate x.ikey0 x.child x.nkeys

namespace InternodeArrays

variable {x nr : InternodeArrays} {width p ka mid t : ℕ} {value r a : Ptr} {parent : Ptr → Ptr}
  {i n : ℕ}

/-! ### Blocks -/

lemma shiftUpChildren_eq : ∀ (n : ℕ) (child : ℕ → Ptr) (p xp : ℕ), xp ≤ p →
    shiftUpChildren child p xp n = copyBlock child (p + 1) child (xp + 1) n
  | 0, child, p, xp, _ => by
      funext i
      rw [shiftUpChildren, copyBlock, if_neg (by omega)]
  | n + 1, child, p, xp, h => by
      funext i
      rw [shiftUpChildren, shiftUpChildren_eq n _ p xp h]
      simp only [copyBlock, Function.update_apply]
      by_cases hi : p + 1 ≤ i ∧ i < p + 1 + n
      · rw [if_pos hi, if_neg (show xp + 1 + (i - (p + 1)) ≠ p + (n + 1) by omega),
          if_pos (show p + 1 ≤ i ∧ i < p + 1 + (n + 1) by omega)]
      · rw [if_neg hi]
        by_cases he : i = p + (n + 1)
        · rw [if_pos he, if_pos (show p + 1 ≤ i ∧ i < p + 1 + (n + 1) by omega)]
          congr 1
          omega
        · rw [if_neg he, if_neg (by omega)]

/-! ### The arrays after an insertion -/

/-- Key `i` once `ka` has been inserted at position `p`. -/
def keyAfter (x : InternodeArrays) (p ka i : ℕ) : ℕ :=
  if i < p then x.ikey0 i else if i = p then ka else x.ikey0 (i - 1)

/-- Child `i` once `value` has been inserted behind child `p`. -/
def childAfter (x : InternodeArrays) (p : ℕ) (value : Ptr) (i : ℕ) : Ptr :=
  if i ≤ p then x.child i else if i = p + 1 then value else x.child (i - 1)

/-- A split cuts the arrays after the insertion at `mid`. -/
structure CutAt (x : InternodeArrays) (p ka : ℕ) (value : Ptr) (width mid : ℕ) (s : Split) :
    Prop where
  left_nkeys : s.left.nkeys = mid
  left_key : ∀ i < mid, s.left.ikey0 i = x.keyAfter p ka i
  left_child : ∀ i ≤ mid, s.left.child i = x.childAfter p value i
  splitIkey : s.splitIkey = x.keyAfter p ka mid
  right_nkeys : s.right.nkeys = width - mid
  right_key : ∀ i < width - mid, s.right.ikey0 i = x.keyAfter p ka (mid + 1 + i)
  right_child : ∀ i ≤ width - mid, s.right.child i = x.childAfter p value (mid + 1 + i)

lemma splitMid_bounds (hW : 1 ≤ width) (t : ℕ) :
    1 ≤ splitMid width t ∧ splitMid width t ≤ width := by
  rw [splitMid]
  split_ifs <;> omega

/-- The new child goes into the left node; the caller finishes the insertion. -/
lemma cutAt_of_lt (hW : 1 ≤ width) (hp : p < splitMid width t) :
    CutAt x p ka value width (splitMid width t)
      ((splitInto width r x nr parent p ka value t).finish a ka value) := by
  obtain ⟨hm1, hm2⟩ := splitMid_bounds hW t
  generalize hmid : splitMid width t = mid at hp hm1 hm2
  simp only [splitInto, splitRight, hmid, if_pos hp, Split.finish, shiftFrom, shiftUp, assign]
  rw [shiftUpChildren_eq _ _ _ _ (Nat.le_succ p)]
  constructor <;> simp only [copyBlock, Function.update_apply, keyAfter, childAfter]
  · omega
  · grind
  · grind
  · grind
  · omega
  · grind
  · grind

/-- The new key moves up, and the new child is the first one of the right node. -/
lemma cutAt_of_eq (hp : p = splitMid width t) :
    CutAt x p ka value width (splitMid width t)
      ((splitInto width r x nr parent p ka value t).finish a ka value) := by
  generalize hmid : splitMid width t = mid at hp
  subst hp
  simp only [splitInto, splitRight, hmid, if_neg (Nat.lt_irrefl p), if_pos, Split.finish, shiftFrom]
  constructor <;> simp only [copyBlock, Function.update_apply, keyAfter, childAfter]
  · grind
  · grind
  · grind
  · omega
  · grind
  · grind

/-- The new child goes into the right node. -/
lemma cutAt_of_gt (hp : splitMid width t < p) (hpW : p ≤ width) :
    CutAt x p ka value width (splitMid width t)
      ((splitInto width r x nr parent p ka value t).finish a ka value) := by
  generalize hmid : splitMid width t = mid at hp
  simp only [splitInto, splitRight, hmid, if_neg (show ¬ p < mid by omega),
    if_neg (show p ≠ mid by omega), Split.finish, shiftFrom, assign]
  constructor <;> simp only [copyBlock, Function.update_apply, keyAfter, childAfter]
  · grind
  · grind
  · grind
  · omega
  · grind
  · grind

/-- After `split_into` and the caller's part, the arrays with the new key and child inserted have
been cut at the midpoint. -/
lemma cutAt_split (hW : 1 ≤ width) (hp : p ≤ width) :
    CutAt x p ka value width (splitMid width t)
      ((splitInto width r x nr parent p ka value t).finish a ka value) := by
  rcases lt_trichotomy p (splitMid width t) with h | h | h
  · exact cutAt_of_lt hW h
  · exact cutAt_of_eq h
  · exact cutAt_of_gt h hp

/-! ### The alternating sequence -/

lemma alternate_congr {key key' : ℕ → ℕ} {child child' : ℕ → Ptr} {n : ℕ}
    (hk : ∀ i < n, key i = key' i) (hc : ∀ i ≤ n, child i = child' i) :
    alternate key child n = alternate key' child' n := by
  rw [alternate, alternate, hc 0 (Nat.zero_le n)]
  congr 1
  refine List.flatMap_congr fun i hi => ?_
  have hi := List.mem_range.mp hi
  rw [hk i hi, hc (i + 1) hi]

/-- Cut at one of its keys. -/
lemma alternate_add (key : ℕ → ℕ) (child : ℕ → Ptr) (m n : ℕ) :
    alternate key child (m + 1 + n) = alternate key child m ++ .key (key m) ::
      alternate (fun i => key (m + 1 + i)) (fun i => child (m + 1 + i)) n := by
  simp only [alternate, List.range_add, List.flatMap_append, List.flatMap_map,
    List.cons_append, List.append_assoc]
  congr 2

lemma alternate_append (key : ℕ → ℕ) (child : ℕ → Ptr) (m n : ℕ) :
    alternate key child (m + n) = alternate key child m ++
      (List.range n).flatMap fun i => [.key (key (m + i)), .child (child (m + i + 1))] := by
  simp only [alternate, List.range_add, List.flatMap_append, List.flatMap_map, List.cons_append]

lemma length_alternate (key : ℕ → ℕ) (child : ℕ → Ptr) (n : ℕ) :
    (alternate key child n).length = 2 * n + 1 := by
  simp [alternate, List.length_flatMap]
  omega

/-- The sequence after the insertion is the old one with the new key and child at position `p`. -/
lemma alternate_after (x : InternodeArrays) (ka : ℕ) (value : Ptr) (hp : p ≤ n) :
    alternate (x.keyAfter p ka) (x.childAfter p value) (n + 1)
      = (alternate x.ikey0 x.child n).take (2 * p + 1) ++ .key ka :: .child value ::
          (alternate x.ikey0 x.child n).drop (2 * p + 1) := by
  obtain ⟨q, rfl⟩ := Nat.exists_eq_add_of_le hp
  have hold := alternate_append x.ikey0 x.child p q
  have hlen := length_alternate x.ikey0 x.child p
  rw [hold, List.take_left' hlen, List.drop_left' hlen, show p + q + 1 = p + 1 + q by omega,
    alternate_add]
  have hleft : alternate (x.keyAfter p ka) (x.childAfter p value) p
      = alternate x.ikey0 x.child p :=
    alternate_congr (fun i hi => if_pos hi) fun i hi => if_pos hi
  have hkey : x.keyAfter p ka p = ka := by simp [keyAfter]
  have hright : alternate (fun i => x.keyAfter p ka (p + 1 + i))
      (fun i => x.childAfter p value (p + 1 + i)) q
      = .child value :: (List.range q).flatMap fun i =>
          [.key (x.ikey0 (p + i)), .child (x.child (p + i + 1))] := by
    rw [alternate]
    congr 1
    · simp [childAfter]
    refine List.flatMap_congr fun i _ => ?_
    simp only [keyAfter, childAfter]
    rw [if_neg (by omega), if_neg (by omega), if_neg (by omega), if_neg (by omega),
      show p + 1 + i - 1 = p + i by omega, show p + 1 + (i + 1) - 1 = p + i + 1 by omega]
  rw [hleft, hkey, hright]

/-! ### Parent pointers -/

lemma foldl_setParent (child : ℕ → Ptr) (r : Ptr) (n : ℕ) (parent : Ptr → Ptr) (c : Ptr) :
    (List.range n).foldl (fun parent i => Function.update parent (child i) r) parent c
      = if ∃ i < n, child i = c then r else parent c := by
  induction n with
  | zero => simp
  | succ n ih =>
    rw [List.range_succ, List.foldl_append, List.foldl_cons, List.foldl_nil, Function.update_apply,
      ih]
    by_cases hc : c = child n
    · rw [if_pos hc, if_pos ⟨n, Nat.lt_succ_self n, hc.symm⟩]
    rw [if_neg hc]
    have hiff : (∃ i < n, child i = c) ↔ ∃ i < n + 1, child i = c := by
      constructor
      · rintro ⟨i, hi, h⟩
        exact ⟨i, by omega, h⟩
      · rintro ⟨i, hi, h⟩
        refine ⟨i, ?_, h⟩
        have : i ≠ n := by
          rintro rfl
          exact hc h.symm
        omega
    simp only [hiff]

/-- The parent pointers that `split_into` leaves. -/
lemma parent_splitInto (c : Ptr) (hc : c ≠ value) :
    (splitInto width r x nr parent p ka value t).parent c
      = if ∃ i < (splitInto width r x nr parent p ka value t).right.nkeys + 1,
          (splitInto width r x nr parent p ka value t).right.child i = c then r
        else parent c := by
  by_cases h : p < splitMid width t
  · simp only [splitInto, if_pos h, if_neg (not_lt_of_gt h), foldl_setParent]
  by_cases h2 : splitMid width t < p
  · simp only [splitInto, if_neg h, if_pos h2, foldl_setParent, Function.update_of_ne hc]
  · simp only [splitInto, if_neg h, if_neg h2, foldl_setParent]

lemma parent_splitInto_right {i : ℕ}
    (hi : i < (splitInto width r x nr parent p ka value t).right.nkeys + 1) :
    (splitInto width r x nr parent p ka value t).parent
      ((splitInto width r x nr parent p ka value t).right.child i) = r := by
  by_cases h : p < splitMid width t
  · simp only [splitInto, if_pos h, foldl_setParent] at hi ⊢
    exact if_pos ⟨i, hi, rfl⟩
  · simp only [splitInto, if_neg h, foldl_setParent] at hi ⊢
    exact if_pos ⟨i, hi, rfl⟩

lemma right_finish (s : Split) : (s.finish a ka value).right = s.right := by
  rw [Split.finish]
  split <;> rfl

lemma parent_finish : ((splitInto width r x nr parent p ka value t).finish a ka value).parent
    = if p < splitMid width t then
        Function.update (splitInto width r x nr parent p ka value t).parent value a
      else (splitInto width r x nr parent p ka value t).parent := by
  by_cases h : p < splitMid width t
  · simp only [splitInto, if_pos h, Split.finish]
  · simp only [splitInto, if_neg h, Split.finish]

/-- The children are distinct after the insertion as well. -/
lemma childAfter_inj (hdistinct : ∀ i ≤ n, ∀ j ≤ n, x.child i = x.child j → i = j)
    (hnew : ∀ i ≤ n, x.child i ≠ value) {i j : ℕ} (hi : i ≤ n + 1) (hj : j ≤ n + 1) (hp : p ≤ n)
    (h : x.childAfter p value i = x.childAfter p value j) : i = j := by
  simp only [childAfter] at h
  split_ifs at h
  · exact hdistinct i (by omega) j (by omega) h
  · exact absurd h (hnew i (by omega))
  · have := hdistinct i (by omega) (j - 1) (by omega) h
    omega
  · exact absurd h.symm (hnew j (by omega))
  · omega
  · exact absurd h.symm (hnew (j - 1) (by omega))
  · have := hdistinct (i - 1) (by omega) j (by omega) h
    omega
  · exact absurd h (hnew (i - 1) (by omega))
  · have := hdistinct (i - 1) (by omega) (j - 1) (by omega) h
    omega

/-- **Splitting an internode.**  After `split_into` and the caller's part the children and keys of
the left node, the separator, and the children and keys of the right node are the old sequence with
the new key and child at position `p`, and every child's parent pointer is the node that has it. -/
theorem split_alternates (hW : 1 ≤ width) (hfull : x.nkeys = width) (hp : p ≤ width)
    (hparent : ∀ i ≤ width, parent (x.child i) = a)
    (hdistinct : ∀ i ≤ width, ∀ j ≤ width, x.child i = x.child j → i = j)
    (hnew : ∀ i ≤ width, x.child i ≠ value) :
    let s := (splitInto width r x nr parent p ka value t).finish a ka value
    s.left.items ++ .key s.splitIkey :: s.right.items
        = x.items.take (2 * p + 1) ++ .key ka :: .child value :: x.items.drop (2 * p + 1) ∧
      s.left.nkeys = splitMid width t ∧ s.right.nkeys = width - splitMid width t ∧
      (∀ i ≤ s.left.nkeys, s.parent (s.left.child i) = a) ∧
      ∀ i ≤ s.right.nkeys, s.parent (s.right.child i) = r := by
  obtain ⟨hm1, hm2⟩ := splitMid_bounds hW t
  have hcut : CutAt x p ka value width (splitMid width t)
      ((splitInto width r x nr parent p ka value t).finish a ka value) := cutAt_split hW hp
  have hpar : ((splitInto width r x nr parent p ka value t).finish a ka value).parent = _ :=
    parent_finish
  have hright : ((splitInto width r x nr parent p ka value t).finish a ka value).right = _ :=
    right_finish _
  generalize (splitInto width r x nr parent p ka value t).finish a ka value = s at *
  have hinj {i j : ℕ} (hi : i ≤ width + 1) (hj : j ≤ width + 1)
      (h : x.childAfter p value i = x.childAfter p value j) : i = j :=
    childAfter_inj hdistinct hnew hi hj hp h
  have hvalue : x.childAfter p value (p + 1) = value := by simp [childAfter]
  refine ⟨?_, hcut.left_nkeys, hcut.right_nkeys, fun i hi => ?_, fun i hi => ?_⟩
  · have hl : s.left.items = alternate (x.keyAfter p ka) (x.childAfter p value)
        (splitMid width t) := by
      rw [InternodeArrays.items, hcut.left_nkeys]
      exact alternate_congr hcut.left_key hcut.left_child
    have hr : s.right.items = alternate (fun i => x.keyAfter p ka (splitMid width t + 1 + i))
        (fun i => x.childAfter p value (splitMid width t + 1 + i)) (width - splitMid width t) := by
      rw [InternodeArrays.items, hcut.right_nkeys]
      exact alternate_congr hcut.right_key hcut.right_child
    rw [hl, hr, hcut.splitIkey, ← alternate_add,
      show splitMid width t + 1 + (width - splitMid width t) = width + 1 by omega,
      alternate_after x ka value hp, InternodeArrays.items, hfull]
  · -- an old child in the left node is not in the right one, and keeps its parent
    rw [hcut.left_nkeys] at hi
    have hold (hne : i ≠ p + 1) :
        (splitInto width r x nr parent p ka value t).parent (x.childAfter p value i) = a := by
      have hc : x.childAfter p value i ≠ value := fun h =>
        hne (hinj (by omega) (by omega) (h.trans hvalue.symm))
      rw [parent_splitInto _ hc, if_neg, childAfter]
      · split_ifs with h1
        · exact hparent i (by omega)
        · exact hparent (i - 1) (by omega)
      · rintro ⟨j, hj, he⟩
        rw [← hright, hcut.right_nkeys] at hj
        rw [← hright, hcut.right_child j (by omega)] at he
        have := hinj (by omega) (by omega) he
        omega
    rw [hcut.left_child i hi, hpar]
    by_cases hlt : p < splitMid width t
    · rw [if_pos hlt]
      by_cases hne : i = p + 1
      · rw [hne, hvalue, Function.update_self]
      · rw [Function.update_of_ne, hold hne]
        exact fun h => hne (hinj (by omega) (by omega) (h.trans hvalue.symm))
    · rw [if_neg hlt, hold (by omega)]
  · -- the loop of `split_into` has reached every child in the right node
    have hi' := hi
    rw [hcut.right_nkeys] at hi'
    have hset : (splitInto width r x nr parent p ka value t).parent
        ((splitInto width r x nr parent p ka value t).right.child i) = r :=
      parent_splitInto_right (by rw [← hright]; omega)
    rw [← hright] at hset
    rw [hpar]
    split_ifs with hlt
    · rw [Function.update_of_ne, hset]
      intro h
      rw [hcut.right_child i hi'] at h
      have := hinj (by omega) (by omega) (h.trans hvalue.symm)
      omega
    · exact hset

/-- A full internode of width 3 split at its second key. -/
theorem split_alternates_three :
    let s := (splitInto 3 21 ⟨3, fun i => 10 * (i + 1), id⟩ ⟨0, fun _ => 0, fun _ => 0⟩
      (fun _ => 20) 1 15 9 0).finish 20 15 9
    s.left.items ++ .key s.splitIkey :: s.right.items
      = [.child 0, .key 10, .child 1, .key 15, .child 9, .key 20, .child 2, .key 30, .child 3] :=
  (@split_alternates ⟨3, fun i => 10 * (i + 1), id⟩ ⟨0, fun _ => 0, fun _ => 0⟩ 3 1 15 0 9 21 20
    (fun _ => 20) (by decide) rfl (by decide) (fun _ _ => rfl)
    (fun _ _ _ _ h => h) fun _ hi => (Nat.lt_of_le_of_lt hi (by decide : 3 < 9)).ne).1

/-! ### The lists of keys and children

The internodes of the heap are lists.  What is in use of the arrays are these lists, and a split of
the arrays is a split of the lists.
-/

/-- The keys in use. -/
def keys (x : InternodeArrays) : List ℕ := (List.range x.nkeys).map x.ikey0

/-- The children in use. -/
def children (x : InternodeArrays) : List (Option Ptr) :=
  (List.range (x.nkeys + 1)).map fun i => some (x.child i)

lemma take_map_range {α : Type} (f : ℕ → α) {m k : ℕ} (h : k ≤ m) :
    ((List.range m).map f).take k = (List.range k).map f := by
  rw [← List.map_take, List.take_range, Nat.min_eq_left h]

/-- Inserting before a cut is inserting into the shortened list. -/
lemma take_insert {α : Type} (l : List α) (z : α) {q m : ℕ} (hq : q ≤ l.length) (hqm : q < m) :
    (l.take q ++ z :: l.drop q).take m = (l.take (m - 1)).take q ++ z ::
    (l.take (m - 1)).drop q := by
  have hlen : (l.take q).length = q := by rw [List.length_take, Nat.min_eq_left hq]
  rw [List.take_append, List.take_of_length_le (by omega), hlen, List.take_take,
    Nat.min_eq_left (show q ≤ m - 1 by omega), List.drop_take,
    show m - q = (m - 1 - q) + 1 by omega, List.take_succ_cons]

lemma drop_map_range {α : Type} (f : ℕ → α) (m k : ℕ) :
    ((List.range m).map f).drop k = (List.range (m - k)).map fun i => f (k + i) := by
  refine List.ext_getElem (by simp) fun i h1 h2 => ?_
  simp

lemma keys_insert (x : InternodeArrays) (ka : ℕ) (hp : p ≤ x.nkeys) :
    x.keys.take p ++ ka :: x.keys.drop p = (List.range (x.nkeys + 1)).map (x.keyAfter p ka) := by
  rw [keys]
  refine List.ext_getElem (by simp; omega) fun i h1 h2 => ?_
  simp only [keyAfter, List.getElem_map, List.getElem_range]
  grind

lemma children_insert (x : InternodeArrays) (value : Ptr) (hp : p ≤ x.nkeys) :
    x.children.take (p + 1) ++ some value :: x.children.drop (p + 1)
      = (List.range (x.nkeys + 2)).map fun i => some (x.childAfter p value i) := by
  rw [children]
  refine List.ext_getElem (by simp; omega) fun i h1 h2 => ?_
  simp only [childAfter, List.getElem_map, List.getElem_range]
  grind

lemma length_rightKeys (P : NodeParams) (n : Internode) (hn : n.keys.length = P.internodeWidth)
    (hp : p ≤ P.internodeWidth) :
    (n.splitInto P p ka value t).rightKeys.length
      = P.internodeWidth - splitMid P.internodeWidth t := by
  rw [Internode.splitInto]
  rw [show (if t = 2 then P.internodeWidth else (P.internodeWidth + 1) / 2)
    = splitMid P.internodeWidth t from rfl]
  generalize splitMid P.internodeWidth t = mid
  split_ifs with h1 h2
  · rw [List.length_drop, hn]
  · rw [List.length_drop, hn]
  · rw [List.length_append, List.length_drop, List.length_take, List.length_cons, List.length_drop,
      hn]
    omega

/-- **The arrays refine the lists**: where the lists of a full internode are what is in use of its
arrays, they still are after `Internode.splitInto` and `Internode.insertChild`, in both halves. -/
theorem split_lists (P : NodeParams) {n : Internode} (hfull : x.nkeys = P.internodeWidth)
    (hp : p ≤ P.internodeWidth) (hk : n.keys = x.keys) (hc : n.children = x.children) :
    let s := (splitInto P.internodeWidth r x nr parent p ka value t).finish a ka value
    let l := n.splitInto P p ka value t
    let left : Internode := { n with keys := l.leftKeys, children := l.leftChildren }
    let left := l.kp.elim left fun kp => left.insertChild kp ka value
    left.keys = s.left.keys ∧ left.children = s.left.children ∧ l.splitIkey = s.splitIkey ∧
      l.rightKeys = s.right.keys ∧ l.rightChildren = s.right.children := by
  have hW := P.one_le_internodeWidth
  obtain ⟨hm1, hm2⟩ := splitMid_bounds hW t
  have hcut : CutAt x p ka value P.internodeWidth (splitMid P.internodeWidth t)
      ((splitInto P.internodeWidth r x nr parent p ka value t).finish a ka value) :=
    cutAt_split hW hp
  generalize (splitInto P.internodeWidth r x nr parent p ka value t).finish a ka value = s at hcut ⊢
  have hxk : x.keys.length = P.internodeWidth := by simp [keys, hfull]
  have hxc : x.children.length = P.internodeWidth + 1 := by simp [children, hfull]
  have hk1 : n.keys = x.keys.take p ++ x.keys.drop p := by rw [hk, List.take_append_drop]
  have hc1 : n.children = x.children.take p ++ x.children[p] :: x.children.drop (p + 1) := by
    rw [hc, ← List.drop_eq_getElem_cons, List.take_append_drop]
  have hp1 : (x.keys.take p).length = p := by rw [List.length_take]; omega
  have hc2 : x.children.take p ++ x.children[p] :: some value :: x.children.drop (p + 1)
      = (List.range (x.nkeys + 2)).map fun i => some (x.childAfter p value i) := by
    rw [← children_insert x value (hp.trans_eq hfull.symm), List.take_succ_eq_append_getElem,
      List.append_assoc]
    rfl
  obtain ⟨mid, hmid0, hmidle, hsplit, hrk, hrc, hleft⟩ := Internode.splitInto_spec P ka value t hk1
    hc1 (by rw [hp1, List.length_take]; omega) (by rw [hk, hxk])
  rw [hp1] at hsplit hrk hrc hleft
  rw [keys_insert x ka (hp.trans_eq hfull.symm), hfull] at hsplit hrk hleft
  rw [hc2, hfull] at hrc hleft
  have hlen : (n.splitInto P p ka value t).rightKeys.length = _ :=
    length_rightKeys P n (by rw [hk, hxk]) hp
  rw [hrk, List.length_drop, List.length_map, List.length_range] at hlen
  have hmid : mid = splitMid P.internodeWidth t := by
    rw [hk, hxk] at hmidle
    omega
  subst hmid
  have hlk : s.left.keys
      = ((List.range (P.internodeWidth + 1)).map (x.keyAfter p ka)).take
        (splitMid P.internodeWidth t) := by
    rw [take_map_range _ (by omega), keys, hcut.left_nkeys]
    exact List.map_congr_left fun i hi => hcut.left_key i (List.mem_range.mp hi)
  have hlc : s.left.children
      = ((List.range (P.internodeWidth + 2)).map fun i => some (x.childAfter p value i)).take
        (splitMid P.internodeWidth t + 1) := by
    rw [take_map_range _ (by omega), children, hcut.left_nkeys]
    refine List.map_congr_left fun i hi => ?_
    rw [hcut.left_child i (Nat.lt_succ_iff.mp (List.mem_range.mp hi))]
  refine ⟨?_, ?_, ?_, ?_, ?_⟩
  · rw [hlk]
    rcases hleft with ⟨h1, h2, h3, h4⟩ | ⟨h1, h2, h3, h4⟩
    · rw [h1]
      simp only [Option.elim_some, Internode.insertChild, h3, hk]
      rw [← hfull, ← keys_insert x ka (hp.trans_eq hfull.symm), take_insert _ _ (by omega)]
      rwa [hfull]
    · rw [h1]
      exact h3
  · rw [hlc]
    rcases hleft with ⟨h1, h2, h3, h4⟩ | ⟨h1, h2, h3, h4⟩
    · rw [h1]
      simp only [Option.elim_some, Internode.insertChild, h4, hc]
      rw [← hfull, ← children_insert x value (hp.trans_eq hfull.symm), take_insert _ _ (by omega)]
      · rfl
      · rw [hfull]
        omega
    · rw [h1]
      exact h4
  · rw [hcut.splitIkey]
    rw [List.getElem?_map, List.getElem?_range (by omega)] at hsplit
    exact (Option.some.inj hsplit).symm
  · rw [hrk, drop_map_range, keys, hcut.right_nkeys, Nat.add_sub_add_right]
    exact (List.map_congr_left fun i hi => hcut.right_key i (List.mem_range.mp hi)).symm
  · rw [hrc, drop_map_range, children, hcut.right_nkeys,
      show P.internodeWidth + 2 - (splitMid P.internodeWidth t + 1)
        = P.internodeWidth - splitMid P.internodeWidth t + 1 by omega]
    refine List.map_congr_left fun i hi => ?_
    rw [hcut.right_child i (Nat.lt_succ_iff.mp (List.mem_range.mp hi))]

end InternodeArrays

end MasstreeLHM
