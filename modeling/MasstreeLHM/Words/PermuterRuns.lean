import Mathlib.Logic.Equiv.Basic
import MasstreeLHM.Words.PackedPermuter

/-!
# Runs of a packed permuter

Each operation on the word does to its size and elements what the operation of `Kpermuter` does to
the list of elements, whatever is in the nibbles above them.

`toKpermuter` reads the size and the elements out of a word.  **`toKpermuter_onWord`** is the
simulation: one case for each `KpermuterOp`, all of them by comparing fields (`toKpermuter_eq`).  A
value is `Reachable` when the program can build it from the initial values with admissible
arguments, and **`Reachable.wf`** says that its elements are a permutation of the slots.

`KpermuterOp.Documented` is what the comments of `kpermuter.hh` promise of an operation, in terms of
sizes and elements before and after; `documented_onWord` proves it case by case.
**`reachable_documented`** has both for every reachable value of every width up to 15, and says that
the nibbles above the elements are never read.
-/

namespace MasstreeLHM

namespace Kpermuter

/-- `exchange_values`: swap the positions of the values `x` and `y`. -/
def exchangeValues (p : Kpermuter) (x y : ℕ) : Kpermuter :=
  { p with order := p.order.map (Equiv.swap x y) }

lemma WF.exchangeValues {W : ℕ} {p : Kpermuter} (h : WF W p) {x y : ℕ} (hx : x < W) (hy : y < W) :
    WF W (p.exchangeValues x y) := by
  refine ⟨?_, h.size_le⟩
  refine (h.perm.map _).trans ?_
  have hnd : ((List.range W).map (Equiv.swap x y)).Nodup :=
    List.nodup_range.map (Equiv.swap x y).injective
  refine (List.perm_ext_iff_of_nodup hnd List.nodup_range).mpr fun a => ?_
  have hlt (b : ℕ) (hb : b < W) : Equiv.swap x y b < W := by
    rw [Equiv.swap_apply_def]
    split_ifs
    · exact hy
    · exact hx
    · exact hb
  simp only [List.mem_map, List.mem_range]
  constructor
  · rintro ⟨b, hb, rfl⟩
    exact hlt b hb
  · intro ha
    exact ⟨Equiv.swap x y a, hlt a ha, Equiv.swap_apply_self x y a⟩

/-! ### Elements after an operation -/

section

variable {W i j k : ℕ} {p : Kpermuter}

lemma get_insertFromBack (hp : p.order.length = W) (hi : i < W) (hj : j < W) :
    (p.insertFromBack i).get j
      = if j < i then p.get j else if j = i then p.back else p.get (j - 1) := by
  simp only [get, insertFromBack, List.getD_eq_getElem?_getD]
  grind

lemma get_remove (hp : p.order.length = W) (hi : i < p.size) (hs : p.size ≤ W) :
    (p.remove i).get j
      = if j < i then p.get j
        else if j + 1 < p.size then p.get (j + 1)
        else if j + 1 = p.size then p.get i
        else p.get j := by
  have hlen : (p.order.take i ++ (p.order.drop (i + 1)).take (p.size - i - 1)).length
      = p.size - 1 := by
    simp
    omega
  simp only [get, remove, List.getD_eq_getElem?_getD]
  by_cases h1 : j < p.size - 1
  · rw [List.getElem?_append_left (by omega)]
    grind
  · rw [List.getElem?_append_right (by omega), hlen, if_neg (by omega), if_neg (by omega)]
    by_cases h2 : j + 1 = p.size
    · rw [if_pos h2, show j - (p.size - 1) = 0 by omega]
      rfl
    · rw [if_neg h2, show j - (p.size - 1) = j - p.size + 1 by omega, List.getElem?_cons_succ,
        List.getElem?_drop, show p.size + (j - p.size) = j by omega]

lemma get_removeToBack (hp : p.order.length = W) (hi : i < W) (hj : j < W) :
    (p.removeToBack i).get j
      = if j < i then p.get j else if j + 1 < W then p.get (j + 1) else p.get i := by
  simp only [get, removeToBack, List.getD_eq_getElem?_getD]
  grind

lemma get_exchange (hp : p.order.length = W) (hi : i < W) (hj : j < W) (hk : k < W) :
    (p.exchange i j).get k
      = if k = i then p.get j else if k = j then p.get i else p.get k := by
  simp only [get, exchange, List.getD_eq_getElem?_getD]
  grind

lemma get_exchangeValues (hp : p.order.length = W) {x y : ℕ} (hj : j < W) :
    (p.exchangeValues x y).get j = Equiv.swap x y (p.get j) := by
  simp only [get, exchangeValues, List.getD_eq_getElem?_getD]
  grind

end

lemma ext_get {W : ℕ} {p q : Kpermuter} (hp : p.order.length = W) (hq : q.order.length = W)
    (hs : p.size = q.size) (h : ∀ j < W, p.get j = q.get j) : p = q := by
  obtain ⟨n, l⟩ := p
  obtain ⟨m, l'⟩ := q
  simp only at hs hp hq
  rw [Kpermuter.mk.injEq]
  refine ⟨hs, List.ext_getElem (hp.trans hq.symm) fun j h1 h2 => ?_⟩
  have := h j (by omega)
  simpa [get, List.getD_eq_getElem?_getD, h1, h2] using this

end Kpermuter

/-- An operation of `kpermuter`. -/
inductive KpermuterOp where
  | insertFromBack (i : ℕ)
  | remove (i : ℕ)
  | removeToBack (i : ℕ)
  | exchange (i j : ℕ)
  | exchangeValues (x y : ℕ)
  | setSize (n : ℕ)
deriving Repr, DecidableEq

namespace KpermuterOp

/-- The arguments an operation takes on a permuter of `W` elements and size `size`. -/
def Admissible (W size : ℕ) : KpermuterOp → Prop
  | insertFromBack i => i ≤ size ∧ size < W
  | remove i => i < size
  | removeToBack i => i < size
  | exchange i j => i < W ∧ j < W
  | exchangeValues x y => x < W ∧ y < W
  | setSize n => n ≤ W

/-- An operation on the list of elements. -/
def onElements (p : Kpermuter) : KpermuterOp → Kpermuter
  | insertFromBack i => p.insertFromBack i
  | remove i => p.remove i
  | removeToBack i => p.removeToBack i
  | exchange i j => p.exchange i j
  | exchangeValues x y => p.exchangeValues x y
  | setSize n => p.setSize n

/-- An operation on the word. -/
def onWord {W : ℕ} (p : PackedKpermuter W) : KpermuterOp → PackedKpermuter W
  | insertFromBack i => (p.insertFromBack i).2
  | remove i => p.remove i
  | removeToBack i => p.removeToBack i
  | exchange i j => p.exchange i j
  | exchangeValues x y => p.exchangeValues x y
  | setSize n => p.setSize n

lemma wf_onElements {W : ℕ} {p : Kpermuter} (hp : p.WF W) {o : KpermuterOp}
    (ho : o.Admissible W p.size) : (o.onElements p).WF W := by
  cases o with
  | insertFromBack i => exact hp.insertFromBack ho.1 ho.2
  | remove i => exact hp.remove ho
  | removeToBack i => exact hp.removeToBack ho
  | exchange i j => exact hp.exchange ho.1 ho.2
  | exchangeValues x y => exact hp.exchangeValues ho.1 ho.2
  | setSize n => exact hp.setSize ho

end KpermuterOp

namespace PackedKpermuter

variable {W : ℕ} {p : PackedKpermuter W} {i j k n : ℕ}

/-- The size and the elements packed in the word. -/
def toKpermuter (p : PackedKpermuter W) : Kpermuter := ⟨p.size, (List.range W).map p.get⟩

lemma size_toKpermuter (p : PackedKpermuter W) : p.toKpermuter.size = p.size := rfl

lemma length_toKpermuter (p : PackedKpermuter W) : p.toKpermuter.order.length = W := by
  simp [toKpermuter]

lemma get_toKpermuter (p : PackedKpermuter W) (hj : j < W) : p.toKpermuter.get j = p.get j := by
  simp [toKpermuter, Kpermuter.get, List.getD_eq_getElem?_getD, hj]

lemma back_toKpermuter (p : PackedKpermuter W) (hW : 0 < W) : p.toKpermuter.back = p.back := by
  rw [Kpermuter.back, List.getLastD_eq_getLast?, List.getLast?_eq_getElem?, length_toKpermuter,
    back, ← get_toKpermuter p (show W - 1 < W by omega), Kpermuter.get,
    List.getD_eq_getElem?_getD]

/-- An operation on the word is the operation on the elements if it is so for the size and each
element. -/
lemma toKpermuter_eq {q : Kpermuter} (hq : q.order.length = W) (hs : p.size = q.size)
    (h : ∀ j < W, p.get j = q.get j) : p.toKpermuter = q :=
  Kpermuter.ext_get (length_toKpermuter p) hq hs fun j hj => by rw [get_toKpermuter p hj, h j hj]

/-! ### The operations -/

lemma toNat_ofNat_size (hn : n < 16) : (BitVec.ofNat 4 n).toNat = n := by
  rw [BitVec.toNat_ofNat]
  exact Nat.mod_eq_of_lt hn

lemma toKpermuter_insertFromBack (hW : W ≤ 15) (hi : i ≤ p.size) (hs : p.size < W) :
    (p.insertFromBack i).2.toKpermuter = p.toKpermuter.insertFromBack i := by
  have hlen := length_toKpermuter p
  refine toKpermuter_eq ?_ ?_ fun j hj => ?_
  · simp only [Kpermuter.insertFromBack]
    grind
  · rw [size_eq, nibble_insertFromBack hW hs (Nat.zero_le W), if_pos rfl,
      toNat_ofNat_size (by omega)]
    rfl
  · rw [get_eq, nibble_insertFromBack hW hs (by omega),
      Kpermuter.get_insertFromBack hlen (by omega) hj, get_toKpermuter p hj,
      get_toKpermuter p (show j - 1 < W by omega), back_toKpermuter p (by omega), if_neg (by omega)]
    by_cases h1 : j < i
    · rw [if_pos h1, if_pos (by omega), get_eq]
    by_cases h2 : j = i
    · rw [if_neg (by omega), if_pos (by omega), if_neg h1, if_pos h2, back, get_eq,
        Nat.sub_add_cancel (by omega)]
    · rw [if_neg (by omega), if_neg (by omega), if_neg h1, if_neg h2, get_eq,
        show j - 1 + 1 = j + 1 - 1 by omega]

lemma toKpermuter_remove (hW : W ≤ 15) (hi : i < p.size) (hs : p.size ≤ W) :
    (p.remove i).toKpermuter = p.toKpermuter.remove i := by
  have hlen := length_toKpermuter p
  refine toKpermuter_eq ?_ ?_ fun j hj => ?_
  · simp only [Kpermuter.remove, toKpermuter] at hlen ⊢
    grind
  · rw [size_eq, nibble_remove hW hi hs (Nat.zero_le W), if_pos rfl, toNat_ofNat_size (by omega)]
    rfl
  · rw [get_eq, nibble_remove hW hi hs (by omega), Kpermuter.get_remove hlen hi hs,
      get_toKpermuter p hj, get_toKpermuter p (show i < W by omega), size_toKpermuter,
      if_neg (by omega)]
    by_cases h1 : j < i
    · rw [if_pos h1, if_pos (by omega), get_eq]
    rw [if_neg h1, if_neg (by omega)]
    by_cases h2 : j + 1 < p.size
    · rw [if_pos h2, if_pos h2, get_toKpermuter p (by omega), get_eq]
    rw [if_neg h2, if_neg h2]
    by_cases h3 : j + 1 = p.size
    · rw [if_pos h3, if_pos h3, get_eq]
    · rw [if_neg h3, if_neg h3, get_eq]

lemma toKpermuter_removeToBack (hW : W ≤ 15) (hi : i < p.size) (hs : p.size ≤ W) :
    (p.removeToBack i).toKpermuter = p.toKpermuter.removeToBack i := by
  have hlen := length_toKpermuter p
  refine toKpermuter_eq ?_ ?_ fun j hj => ?_
  · simp only [Kpermuter.removeToBack]
    grind
  · rw [size_eq, nibble_removeToBack hW hi hs (Nat.zero_le W), if_pos rfl,
      toNat_ofNat_size (by omega)]
    rfl
  · rw [get_eq, nibble_removeToBack hW hi hs (by omega),
      Kpermuter.get_removeToBack hlen (by omega) hj, get_toKpermuter p hj,
      get_toKpermuter p (show i < W by omega), if_neg (by omega)]
    by_cases h1 : j < i
    · rw [if_pos h1, if_pos (by omega), get_eq]
    rw [if_neg h1, if_neg (by omega)]
    by_cases h2 : j + 1 < W
    · rw [if_pos h2, if_pos h2, get_toKpermuter p h2, get_eq]
    · rw [if_neg h2, if_neg h2, get_eq]

lemma toKpermuter_exchange (hW : W ≤ 15) (hi : i < W) (hj : j < W) :
    (p.exchange i j).toKpermuter = p.toKpermuter.exchange i j := by
  have hlen := length_toKpermuter p
  refine toKpermuter_eq ?_ ?_ fun k hk => ?_
  · simp [Kpermuter.exchange, hlen]
  · rw [size_eq, nibble_exchange hW hi (Nat.zero_le W), if_neg (by omega), if_neg (by omega),
      ← size_eq]
    rfl
  · rw [get_eq, nibble_exchange hW hi (by omega), Kpermuter.get_exchange hlen hi hj hk,
      get_toKpermuter p hi, get_toKpermuter p hj, get_toKpermuter p hk, get_eq, get_eq, get_eq]
    by_cases h1 : k = i
    · rw [if_pos h1, if_pos (by omega)]
    rw [if_neg h1, if_neg (by omega)]
    by_cases h2 : k = j
    · rw [if_pos h2, if_pos (by omega)]
    · rw [if_neg h2, if_neg (by omega)]

lemma toKpermuter_exchangeValues (hW : W ≤ 15) {x y : ℕ} (hx : x < W) (hy : y < W) :
    (p.exchangeValues x y).toKpermuter = p.toKpermuter.exchangeValues x y := by
  have hlen := length_toKpermuter p
  refine toKpermuter_eq ?_ ?_ fun j hj => ?_
  · simp [Kpermuter.exchangeValues, hlen]
  · rw [size_eq, nibble_exchangeValues hW (by omega) (by omega) (Nat.zero_le W), if_pos rfl,
      ← size_eq]
    rfl
  · rw [get_eq, nibble_exchangeValues hW (by omega) (by omega) (by omega),
      Kpermuter.get_exchangeValues hlen hj, get_toKpermuter p hj, if_neg (by omega), ← get_eq,
      Equiv.swap_apply_def]
    by_cases h1 : p.get j = x
    · rw [if_pos h1, if_pos h1, toNat_ofNat_size (by omega)]
    rw [if_neg h1, if_neg h1]
    by_cases h2 : p.get j = y
    · rw [if_pos h2, if_pos h2, toNat_ofNat_size (by omega)]
    · rw [if_neg h2, if_neg h2, get_eq]

lemma toKpermuter_setSize (hW : W ≤ 15) (hn : n ≤ W) :
    (p.setSize n).toKpermuter = p.toKpermuter.setSize n := by
  refine toKpermuter_eq (length_toKpermuter p) ?_ fun j hj => ?_
  · rw [size_eq, nibble_setSize hW hn (Nat.zero_le W), if_pos rfl, toNat_ofNat_size (by omega)]
    rfl
  · rw [get_eq, nibble_setSize hW hn (by omega), if_neg (by omega), ← get_eq,
      ← get_toKpermuter p hj]
    rfl

/-- Every operation reads and writes the size and the elements only. -/
theorem toKpermuter_onWord (hW : W ≤ 15) (hs : p.size ≤ W) {o : KpermuterOp}
    (ho : o.Admissible W p.size) : (o.onWord p).toKpermuter = o.onElements p.toKpermuter := by
  cases o with
  | insertFromBack i => exact toKpermuter_insertFromBack hW ho.1 ho.2
  | remove i => exact toKpermuter_remove hW ho hs
  | removeToBack i => exact toKpermuter_removeToBack hW ho hs
  | exchange i j => exact toKpermuter_exchange hW ho.1 ho.2
  | exchangeValues x y => exact toKpermuter_exchangeValues hW ho.1 ho.2
  | setSize n => exact toKpermuter_setSize hW ho

/-! ### Runs -/

/-- The values of a permuter that the program can build. -/
inductive Reachable : PackedKpermuter W → Prop
  | makeEmpty : Reachable (makeEmpty W)
  | makeSorted (n : ℕ) : n ≤ W → Reachable (makeSorted W n)
  | step {p : PackedKpermuter W} (o : KpermuterOp) : Reachable p → o.Admissible W p.size →
      Reachable (o.onWord p)

lemma toKpermuter_makeSorted (hW : W ≤ 15) (hn : n ≤ W) :
    (makeSorted W n).toKpermuter = Kpermuter.makeSorted W n := by
  obtain ⟨hs, hg⟩ := makeSorted_spec hW hn
  refine toKpermuter_eq (by simp [Kpermuter.makeSorted]; omega) hs fun j hj => ?_
  rw [hg j hj, Kpermuter.get, Kpermuter.makeSorted, List.getD_eq_getElem?_getD]
  grind

lemma toKpermuter_makeEmpty (hW : W ≤ 15) :
    (makeEmpty W).toKpermuter = Kpermuter.makeEmpty W := by
  refine toKpermuter_eq (by simp [Kpermuter.makeEmpty]) ?_ fun j hj => ?_
  · revert W
    decide
  · rw [get_makeEmpty hW hj, Kpermuter.get, Kpermuter.makeEmpty, List.getD_eq_getElem?_getD]
    grind

/-- What the program builds is a permutation of the slots. -/
theorem Reachable.wf (hW : W ≤ 15) (h : p.Reachable) : p.toKpermuter.WF W := by
  induction h with
  | makeEmpty =>
    rw [toKpermuter_makeEmpty hW]
    exact Kpermuter.WF.makeEmpty W
  | makeSorted n hn =>
    rw [toKpermuter_makeSorted hW hn]
    exact Kpermuter.WF.makeSorted hn
  | step o _ ho ih =>
    rw [toKpermuter_onWord hW ih.size_le ho]
    exact KpermuterOp.wf_onElements ih ho

end PackedKpermuter

/-- What the documentation of an operation says about the permuter `p` before it and the permuter
`q` after it; `remove` and `exchange` leave the positions that they do not mention alone. -/
def KpermuterOp.Documented {W : ℕ} (p q : PackedKpermuter W) : KpermuterOp → Prop
  | insertFromBack i =>
      let x := (p.insertFromBack i).1
      x = p.back ∧ q.size = p.size + 1
        ∧ (∀ j < i, q.get j = p.get j ∧ q.get j ≠ x)
        ∧ q.get i = x
        ∧ ∀ j, i < j → j < W → q.get j = p.get (j - 1) ∧ q.get j ≠ x
  | remove i =>
      q.size = p.size - 1
        ∧ (∀ j < i, q.get j = p.get j)
        ∧ (∀ j, i ≤ j → j < q.size → q.get j = p.get (j + 1))
        ∧ q.get q.size = p.get i
        ∧ ∀ j, q.size < j → j < W → q.get j = p.get j
  | removeToBack i =>
      q.size = p.size - 1
        ∧ (∀ j < i, q.get j = p.get j)
        ∧ (∀ j, i ≤ j → j < W - 1 → q.get j = p.get (j + 1))
        ∧ q.back = p.get i
  | exchange i j =>
      q.size = p.size ∧ q.get i = p.get j ∧ q.get j = p.get i
        ∧ ∀ k < W, k ≠ i → k ≠ j → q.get k = p.get k
  | exchangeValues x y =>
      q.size = p.size ∧ ∀ j < W,
        (p.get j = x → q.get j = y) ∧ (p.get j = y → q.get j = x)
          ∧ (p.get j ≠ x → p.get j ≠ y → q.get j = p.get j)
  | setSize n => q.size = n ∧ ∀ j < W, q.get j = p.get j

namespace PackedKpermuter

variable {W : ℕ} {p : PackedKpermuter W} {i j k n : ℕ}

lemma size_onWord (hW : W ≤ 15) (hs : p.size ≤ W) {o : KpermuterOp}
    (ho : o.Admissible W p.size) : (o.onWord p).size = (o.onElements p.toKpermuter).size := by
  rw [← toKpermuter_onWord hW hs ho]
  rfl

lemma get_onWord (hW : W ≤ 15) (hs : p.size ≤ W) {o : KpermuterOp}
    (ho : o.Admissible W p.size) (hj : j < W) :
    (o.onWord p).get j = (o.onElements p.toKpermuter).get j := by
  rw [← toKpermuter_onWord hW hs ho, get_toKpermuter _ hj]

lemma documented_insertFromBack (hW : W ≤ 15) (hp : p.toKpermuter.WF W) (hi : i ≤ p.size)
    (hs : p.size < W) :
    (KpermuterOp.insertFromBack i).Documented p ((KpermuterOp.insertFromBack i).onWord p) := by
  have ho : (KpermuterOp.insertFromBack i).Admissible W p.size := ⟨hi, hs⟩
  have hget (j : ℕ) (hj : j < W) : ((KpermuterOp.insertFromBack i).onWord p).get j
      = if j < i then p.get j else if j = i then p.back else p.get (j - 1) := by
    refine (get_onWord hW hs.le ho hj).trans ?_
    rw [KpermuterOp.onElements, Kpermuter.get_insertFromBack (length_toKpermuter p) (by omega) hj,
      get_toKpermuter p hj, get_toKpermuter p (show j - 1 < W by omega),
      back_toKpermuter p (by omega)]
  have hi' : ((KpermuterOp.insertFromBack i).onWord p).get i = p.back := by
    rw [hget i (by omega), if_neg (by omega), if_pos rfl]
  have hwf : ((KpermuterOp.insertFromBack i).onWord p).toKpermuter.WF W := by
    rw [toKpermuter_onWord hW hs.le ho]
    exact KpermuterOp.wf_onElements hp ho
  -- no other position holds the new element, since the elements are distinct
  have hne (j : ℕ) (hj : j < W) (hji : j ≠ i) :
    ((KpermuterOp.insertFromBack i).onWord p).get j ≠ p.back := by
    intro he
    refine hji (hwf.get_inj hj (show i < W by omega) ?_)
    rw [get_toKpermuter _ hj, get_toKpermuter _ (by omega), he, hi']
  refine ⟨rfl, size_onWord hW hs.le ho, fun j hj => ⟨?_, hne j (by omega) (by omega)⟩, hi',
    fun j hj hjW => ⟨?_, hne j hjW (by omega)⟩⟩
  · rw [hget j (by omega), if_pos hj]
  · rw [hget j hjW, if_neg (by omega), if_neg (by omega)]

lemma documented_remove (hW : W ≤ 15) (hs : p.size ≤ W) (hi : i < p.size) :
    (KpermuterOp.remove i).Documented p ((KpermuterOp.remove i).onWord p) := by
  have ho : (KpermuterOp.remove i).Admissible W p.size := hi
  have hsize : ((KpermuterOp.remove i).onWord p).size = p.size - 1 := size_onWord hW hs ho
  have hget (j : ℕ) (hj : j < W) : ((KpermuterOp.remove i).onWord p).get j
      = if j < i then p.get j
        else if j + 1 < p.size then p.get (j + 1)
        else if j + 1 = p.size then p.get i
        else p.get j := by
    refine (get_onWord hW hs ho hj).trans ?_
    rw [KpermuterOp.onElements, Kpermuter.get_remove (length_toKpermuter p) hi hs,
      get_toKpermuter p hj, get_toKpermuter p (show i < W by omega), size_toKpermuter]
    split_ifs
    · rfl
    · exact get_toKpermuter p (by omega)
    · rfl
    · rfl
  rw [KpermuterOp.Documented, hsize]
  refine ⟨rfl, fun j hj => ?_, fun j hij hj => ?_, ?_, fun j hj hjW => ?_⟩
  · rw [hget j (by omega), if_pos hj]
  · rw [hget j (by omega), if_neg (by omega), if_pos (by omega)]
  · rw [hget _ (by omega), if_neg (by omega), if_neg (by omega), if_pos (by omega)]
  · rw [hget j hjW, if_neg (by omega), if_neg (by omega), if_neg (by omega)]

lemma documented_removeToBack (hW : W ≤ 15) (hs : p.size ≤ W) (hi : i < p.size) :
    (KpermuterOp.removeToBack i).Documented p ((KpermuterOp.removeToBack i).onWord p) := by
  have ho : (KpermuterOp.removeToBack i).Admissible W p.size := hi
  have hget (j : ℕ) (hj : j < W) : ((KpermuterOp.removeToBack i).onWord p).get j
      = if j < i then p.get j else if j + 1 < W then p.get (j + 1) else p.get i := by
    refine (get_onWord hW hs ho hj).trans ?_
    rw [KpermuterOp.onElements,
      Kpermuter.get_removeToBack (length_toKpermuter p) (show i < W by omega) hj,
      get_toKpermuter p hj, get_toKpermuter p (show i < W by omega)]
    split_ifs with _ h
    · rfl
    · exact get_toKpermuter p h
    · rfl
  refine ⟨size_onWord hW hs ho, fun j hj => ?_, fun j hij hj => ?_, ?_⟩
  · rw [hget j (by omega), if_pos hj]
  · rw [hget j (by omega), if_neg (by omega), if_pos (by omega)]
  · rw [back, hget _ (by omega), if_neg (by omega), if_neg (by omega)]

lemma documented_exchange (hW : W ≤ 15) (hs : p.size ≤ W) (hi : i < W) (hj : j < W) :
    (KpermuterOp.exchange i j).Documented p ((KpermuterOp.exchange i j).onWord p) := by
  have ho : (KpermuterOp.exchange i j).Admissible W p.size := ⟨hi, hj⟩
  have hget (k : ℕ) (hk : k < W) : ((KpermuterOp.exchange i j).onWord p).get k
      = if k = i then p.get j else if k = j then p.get i else p.get k := by
    refine (get_onWord hW hs ho hk).trans ?_
    rw [KpermuterOp.onElements, Kpermuter.get_exchange (length_toKpermuter p) hi hj hk,
      get_toKpermuter p hi, get_toKpermuter p hj, get_toKpermuter p hk]
  refine ⟨size_onWord hW hs ho, ?_, ?_, fun k hk hki hkj => ?_⟩
  · rw [hget i hi, if_pos rfl]
  · rw [hget j hj, if_pos rfl]
    split_ifs with h
    · rw [h]
    · rfl
  · rw [hget k hk, if_neg hki, if_neg hkj]

lemma documented_exchangeValues (hW : W ≤ 15) (hs : p.size ≤ W) {x y : ℕ} (hx : x < W)
    (hy : y < W) :
    (KpermuterOp.exchangeValues x y).Documented p ((KpermuterOp.exchangeValues x y).onWord p) := by
  have ho : (KpermuterOp.exchangeValues x y).Admissible W p.size := ⟨hx, hy⟩
  have hget (j : ℕ) (hj : j < W) : ((KpermuterOp.exchangeValues x y).onWord p).get j =
    Equiv.swap x y (p.get j) := by
    refine (get_onWord hW hs ho hj).trans ?_
    rw [KpermuterOp.onElements, Kpermuter.get_exchangeValues (length_toKpermuter p) hj,
      get_toKpermuter p hj]
  refine ⟨size_onWord hW hs ho, fun j hj => ?_⟩
  rw [hget j hj]
  refine ⟨fun h => ?_, fun h => ?_, fun h1 h2 => Equiv.swap_apply_of_ne_of_ne h1 h2⟩
  · rw [h, Equiv.swap_apply_left]
  · rw [h, Equiv.swap_apply_right]

lemma documented_setSize (hW : W ≤ 15) (hs : p.size ≤ W) (hn : n ≤ W) :
    (KpermuterOp.setSize n).Documented p ((KpermuterOp.setSize n).onWord p) := by
  have ho : (KpermuterOp.setSize n).Admissible W p.size := hn
  refine ⟨size_onWord hW hs ho, fun j hj => (get_onWord hW hs ho hj).trans ?_⟩
  exact get_toKpermuter p hj

/-- Every operation does what its documentation says. -/
lemma documented_onWord (hW : W ≤ 15) (hp : p.toKpermuter.WF W) {o : KpermuterOp}
    (ho : o.Admissible W p.size) : o.Documented p (o.onWord p) := by
  have hs : p.size ≤ W := hp.size_le
  cases o with
  | insertFromBack i => exact documented_insertFromBack hW hp ho.1 ho.2
  | remove i => exact documented_remove hW hs ho
  | removeToBack i => exact documented_removeToBack hW hs ho
  | exchange i j => exact documented_exchange hW hs ho.1 ho.2
  | exchangeValues x y => exact documented_exchangeValues hW hs ho.1 ho.2
  | setSize n => exact documented_setSize hW hs ho

/-- In every value that the program can build the elements are a permutation of the slots, and
every operation does to them what its documentation says.  What is above the elements in the word
does not matter: from another word with the same size and elements, each operation returns the same
and leaves the same size and elements. -/
theorem reachable_documented (hW : 1 ≤ W) (hW' : W ≤ 15) :
    ((makeEmpty W).size = 0 ∧ ∀ k < W, (makeEmpty W).get (W - 1 - k) = k) ∧
    (∀ n ≤ W, (makeSorted W n).size = n ∧ (∀ i < n, (makeSorted W n).get i = i)
      ∧ ∀ k < W - n, (makeSorted W n).get (W - 1 - k) = n + k) ∧
    ∀ p : PackedKpermuter W, p.Reachable →
      ((List.range W).map p.get).Perm (List.range W) ∧ p.size ≤ W ∧
      ∀ o : KpermuterOp, o.Admissible W p.size →
        o.Documented p (o.onWord p) ∧
        ∀ q : PackedKpermuter W, q.size = p.size → (∀ j < W, q.get j = p.get j) →
          (∀ i, (q.insertFromBack i).1 = (p.insertFromBack i).1) ∧
          (o.onWord q).size = (o.onWord p).size ∧
          ∀ j < W, (o.onWord q).get j = (o.onWord p).get j := by
  refine ⟨⟨?_, fun k hk => ?_⟩, fun n hn => ⟨(makeSorted_spec hW' hn).1, fun i hi => ?_,
    fun k hk => ?_⟩, fun p hp => ?_⟩
  · exact congrArg Kpermuter.size (toKpermuter_makeEmpty hW')
  · rw [get_makeEmpty hW' (by omega)]
    omega
  · rw [(makeSorted_spec hW' hn).2 i (by omega), if_pos hi]
  · rw [(makeSorted_spec hW' hn).2 _ (by omega), if_neg (by omega)]
    omega
  have hwf := hp.wf hW'
  refine ⟨hwf.perm, hwf.size_le, fun o ho => ⟨documented_onWord hW' hwf ho, fun q hqs hqg => ?_⟩⟩
  have hpq : q.toKpermuter = p.toKpermuter :=
    toKpermuter_eq (length_toKpermuter p) hqs fun j hj => by rw [hqg j hj, get_toKpermuter p hj]
  have hs : p.size ≤ W := hwf.size_le
  refine ⟨fun i => hqg (W - 1) (by omega), ?_, fun j hj => ?_⟩
  · rw [size_onWord hW' (hqs.trans_le hs) (by rwa [hqs]), size_onWord hW' hs ho, hpq]
  · rw [get_onWord hW' (hqs.trans_le hs) (by rwa [hqs]) hj, get_onWord hW' hs ho hj, hpq]

/-- The widest permuter, at a run that uses the last position. -/
theorem reachable_documented_fifteen :
    (1 ≤ 15 ∧ 15 ≤ 15) ∧
      ((List.range 15).map ((makeSorted 15 14).insertFromBack 0).2.get).Perm (List.range 15) :=
  ⟨by decide, ((reachable_documented (W := 15) (by decide) (by decide)).2.2
    (KpermuterOp.onWord (makeSorted 15 14) (.insertFromBack 0))
    (.step (.insertFromBack 0) (.makeSorted 14 (by decide))
      ⟨Nat.zero_le _, by decide +kernel⟩)).1⟩

end PackedKpermuter

end MasstreeLHM
