import Mathlib.Data.List.Perm.Basic
import Mathlib.Data.List.Sort
import Mathlib.Tactic.Lemma

/-!
# Leaf permutations

`kpermuter<W>` packs the order of a leaf's `W` slots and the number of live ones into one word.
Here a permuter is the list of its `W` elements together with its size, and every operation acts on
that list as its documentation in `kpermuter.hh` says; `Words.PermuterRuns` shows that the packed
word does the same.

`WF` is what every permuter of a tree satisfies: its elements are the slots in some order, and the
size is not more than their number.  Each operation keeps it (`WF.insertFromBack`, `WF.remove`,
`WF.exchange` and so on).

What the rest of the development uses of an operation is what becomes of the live slots and of the
element allocated next: `live_insertFromBack`, `live_remove`, `live_exchange` and
`live_removeToBack` for the former, `back_exchange` and `back_removeToBack` for the latter, and
`back_notMem_live`, that the element allocated next is free.  No proof about a leaf has to look at
the list of elements itself.
-/

namespace MasstreeLHM

/-- `kpermuter<W>`: the first `size` elements of `order` are the live slots in key order, the
others are free, and the last one is the next to be allocated. -/
structure Kpermuter where
  size : ℕ
  order : List ℕ
deriving Repr, DecidableEq

namespace Kpermuter

instance : Inhabited Kpermuter := ⟨⟨0, []⟩⟩

/-- `make_empty`: elements will be allocated in the order `0, 1, ..., W - 1`. -/
def makeEmpty (W : ℕ) : Kpermuter := ⟨0, (List.range W).reverse⟩

/-- `make_sorted`: slots `0 .. n - 1` are live, the others are allocated in increasing order. -/
def makeSorted (W n : ℕ) : Kpermuter := ⟨n, List.range n ++ ((List.range W).drop n).reverse⟩

/-- `operator[]`. -/
def get (p : Kpermuter) (i : ℕ) : ℕ := p.order.getD i 0

/-- `back`: the element allocated next. -/
def back (p : Kpermuter) : ℕ := p.order.getLastD 0

/-- `set_size`. -/
def setSize (p : Kpermuter) (n : ℕ) : Kpermuter := { p with size := n }

/-- `insert_from_back`: allocate the back element and insert it at position `i`. -/
def insertFromBack (p : Kpermuter) (i : ℕ) : Kpermuter :=
  ⟨p.size + 1, p.order.take i ++ p.back :: (p.order.drop i).dropLast⟩

/-- `remove`: the element at position `i` becomes the first free one. -/
def remove (p : Kpermuter) (i : ℕ) : Kpermuter :=
  ⟨p.size - 1, p.order.take i ++ (p.order.drop (i + 1)).take (p.size - i - 1) ++
    p.get i :: p.order.drop p.size⟩

/-- `remove_to_back`: the element at position `i` is the next to be allocated again. -/
def removeToBack (p : Kpermuter) (i : ℕ) : Kpermuter :=
  ⟨p.size - 1, p.order.take i ++ p.order.drop (i + 1) ++ [p.get i]⟩

/-- `exchange`: swap the elements at positions `i` and `j`. -/
def exchange (p : Kpermuter) (i j : ℕ) : Kpermuter :=
  { p with order := (p.order.set i (p.get j)).set j (p.get i) }

/-- The live slots in key order. -/
def live (p : Kpermuter) : List ℕ := p.order.take p.size

/-- A permuter of width `W`: its elements are `0 .. W - 1` in some order. -/
structure WF (W : ℕ) (p : Kpermuter) : Prop where
  perm : p.order.Perm (List.range W)
  size_le : p.size ≤ W

namespace WF

variable {W : ℕ} {p : Kpermuter}

lemma length_order (h : WF W p) : p.order.length = W := by
  simpa using h.perm.length_eq

lemma nodup (h : WF W p) : p.order.Nodup := h.perm.nodup_iff.mpr List.nodup_range

lemma lt_of_mem (h : WF W p) {x : ℕ} (hx : x ∈ p.order) : x < W := by
  simpa using h.perm.mem_iff.mp hx

lemma length_live (h : WF W p) : p.live.length = p.size := by
  simp [live, h.length_order, h.size_le]

lemma live_nodup (h : WF W p) : p.live.Nodup := h.nodup.sublist (List.take_sublist _ _)

lemma live_lt (h : WF W p) {x : ℕ} (hx : x ∈ p.live) : x < W :=
  h.lt_of_mem (List.mem_of_mem_take hx)

lemma order_ne_nil (h : WF W p) (hW : 0 < W) : p.order ≠ [] := by
  intro h0
  have := h.length_order
  simp [h0] at this
  omega

lemma back_eq_getLast (h : WF W p) (hW : 0 < W) :
    p.back = p.order.getLast (h.order_ne_nil hW) := by
  rw [back, List.getLastD_eq_getLast?, List.getLast?_eq_some_getLast (h.order_ne_nil hW)]
  rfl

lemma back_lt (h : WF W p) (hW : 0 < W) : p.back < W := by
  rw [h.back_eq_getLast hW]
  exact h.lt_of_mem (List.getLast_mem _)

/-- The free elements from position `size` on end in the one allocated next. -/
lemma drop_eq (h : WF W p) {i : ℕ} (hi : i < W) :
    p.order.drop i = (p.order.drop i).dropLast ++ [p.back] := by
  have hne : p.order.drop i ≠ [] := by simp [List.drop_eq_nil_iff, h.length_order, hi]
  conv_lhs => rw [← List.dropLast_append_getLast hne]
  rw [h.back_eq_getLast (by omega), List.getLast_drop]

/-- The element allocated next is free. -/
lemma back_notMem_live (h : WF W p) (hs : p.size < W) : p.back ∉ p.live := by
  intro hb
  have hnd := h.nodup
  rw [← List.take_append_drop p.size p.order, List.nodup_append] at hnd
  refine hnd.2.2 _ hb p.back ?_ rfl
  rw [h.drop_eq hs]
  simp

lemma get_eq_live (h : WF W p) {i : ℕ} (hi : i < p.size) : p.live[i]? = some (p.get i) := by
  have : i < p.order.length := by rw [h.length_order]; exact lt_of_lt_of_le hi h.size_le
  simp [live, hi, get, List.getD_eq_getElem?_getD, this]

lemma back_eq_get (h : WF W p) : p.back = p.get (W - 1) := by
  rw [back, List.getLastD_eq_getLast?, List.getLast?_eq_getElem?, h.length_order, get,
    List.getD_eq_getElem?_getD]

/-- No slot is listed twice. -/
lemma get_inj (h : WF W p) {i j : ℕ} (hi : i < W) (hj : j < W) (he : p.get i = p.get j) :
    i = j := by
  have hlen := h.length_order
  have hi' : i < p.order.length := by omega
  have hj' : j < p.order.length := by omega
  simp only [get, List.getD_eq_getElem?_getD, List.getElem?_eq_getElem hi',
    List.getElem?_eq_getElem hj', Option.getD_some] at he
  exact (h.nodup.getElem_inj_iff).mp he

/-! ### Preservation, and the effect on the live slots -/

lemma makeEmpty (W : ℕ) : WF W (Kpermuter.makeEmpty W) :=
  ⟨List.reverse_perm _, Nat.zero_le _⟩

lemma makeSorted {n : ℕ} (hn : n ≤ W) : WF W (Kpermuter.makeSorted W n) := by
  refine ⟨?_, hn⟩
  have h1 : List.range n = (List.range W).take n := by rw [List.take_range, min_eq_left hn]
  rw [Kpermuter.makeSorted, h1]
  exact ((List.reverse_perm _).append_left _).trans (by rw [List.take_append_drop])

lemma setSize (h : WF W p) {n : ℕ} (hn : n ≤ W) : WF W (p.setSize n) := ⟨h.perm, hn⟩

lemma insertFromBack (h : WF W p) {i : ℕ} (hi : i ≤ p.size) (hs : p.size < W) :
    WF W (p.insertFromBack i) := by
  refine ⟨?_, hs⟩
  refine List.Perm.trans ?_ h.perm
  conv_rhs => rw [← List.take_append_drop i p.order, h.drop_eq (lt_of_le_of_lt hi hs)]
  exact (List.perm_append_singleton _ _).symm.append_left _

lemma remove (h : WF W p) {i : ℕ} (hi : i < p.size) : WF W (p.remove i) := by
  refine ⟨?_, (Nat.sub_le _ _).trans h.size_le⟩
  refine List.Perm.trans ?_ h.perm
  have hlen := h.length_order
  have hsz := h.size_le
  have hget : p.order[i]? = some (p.get i) := by
    simp [get, List.getD_eq_getElem?_getD, show i < p.order.length by omega]
  have h1 : p.order.drop i = p.get i :: p.order.drop (i + 1) := List.drop_eq_getElem?_toList_append
    |>.trans (by simp [hget])
  have h2 : p.order.drop (i + 1)
      = (p.order.drop (i + 1)).take (p.size - i - 1) ++ p.order.drop p.size := by
    conv_lhs => rw [← List.take_append_drop (p.size - i - 1) (p.order.drop (i + 1))]
    rw [List.drop_drop]
    congr 2
    omega
  conv_rhs => rw [← List.take_append_drop i p.order, h1, h2]
  rw [Kpermuter.remove, List.append_assoc]
  exact List.perm_middle.append_left _

lemma removeToBack (h : WF W p) {i : ℕ} (hi : i < p.size) : WF W (p.removeToBack i) := by
  refine ⟨?_, (Nat.sub_le _ _).trans h.size_le⟩
  refine List.Perm.trans ?_ h.perm
  have hlen := h.length_order
  have hsz := h.size_le
  have h1 : p.order.drop i = p.get i :: p.order.drop (i + 1) := List.drop_eq_getElem?_toList_append
    |>.trans (by simp [get, List.getD_eq_getElem?_getD, show i < p.order.length by omega])
  conv_rhs => rw [← List.take_append_drop i p.order, h1]
  rw [Kpermuter.removeToBack, List.append_assoc]
  exact (List.perm_append_singleton _ _).append_left _

lemma exchange (h : WF W p) {i j : ℕ} (hi : i < W) (hj : j < W) : WF W (p.exchange i j) := by
  refine ⟨?_, h.size_le⟩
  have hlen := h.length_order
  have hi' : i < p.order.length := by omega
  have hj' : j < p.order.length := by omega
  have : (p.exchange i j).order = (p.order.set i p.order[j]).set j p.order[i] := by
    simp [Kpermuter.exchange, get, List.getD_eq_getElem?_getD, hi', hj']
  rw [this]
  exact (List.set_set_perm hi' hj').trans h.perm

lemma live_insertFromBack (h : WF W p) {i : ℕ} (hi : i ≤ p.size) (hs : p.size < W) :
    (p.insertFromBack i).live = p.live.take i ++ p.back :: p.live.drop i := by
  have hlen := h.length_order
  simp only [live, Kpermuter.insertFromBack]
  rw [List.take_append, List.take_of_length_le (by simp; omega), List.length_take,
    min_eq_left (by omega), show p.size + 1 - i = (p.size - i) + 1 by omega, List.take_succ_cons,
    List.take_take, min_eq_left hi, List.drop_take, List.dropLast_eq_take, List.take_take,
    min_eq_left (by simp; omega)]

lemma live_remove (h : WF W p) {i : ℕ} (hi : i < p.size) :
    (p.remove i).live = p.live.eraseIdx i := by
  have hlen := h.length_order
  have hsz := h.size_le
  simp only [live, Kpermuter.remove]
  rw [List.take_append_of_le_length (by simp; omega), List.take_of_length_le (by simp; omega),
    List.eraseIdx_eq_take_drop_succ, List.take_take, min_eq_left (by omega), List.drop_take]
  congr 2

lemma live_removeToBack (h : WF W p) {i : ℕ} (hi : i < p.size) :
    (p.removeToBack i).live = p.live.eraseIdx i := by
  have hlen := h.length_order
  have hsz := h.size_le
  simp only [live, Kpermuter.removeToBack]
  rw [List.take_append_of_le_length (by simp; omega), List.eraseIdx_eq_take_drop_succ,
    List.take_append, List.take_of_length_le (by simp; omega), List.take_take,
    min_eq_left (by omega), List.drop_take, List.length_take, min_eq_left (by omega)]
  congr 2
  omega

lemma live_setSize (p : Kpermuter) {n : ℕ} (hn : n ≤ p.size) :
    (p.setSize n).live = p.live.take n := by
  simp [live, Kpermuter.setSize, List.take_take, hn]

lemma live_exchange (p : Kpermuter) {i j : ℕ} (hi : p.size ≤ i) (hj : p.size ≤ j) :
    (p.exchange i j).live = p.live := by
  simp only [live, Kpermuter.exchange]
  rw [List.take_set_of_le hj, List.take_set_of_le hi]

lemma exchange_self (h : WF W p) {i : ℕ} (hi : i < W) : p.exchange i i = p := by
  have hlen : i < p.order.length := by rw [h.length_order]; exact hi
  have hget : p.get i = p.order[i] := by
    simp [Kpermuter.get, List.getD_eq_getElem?_getD, hlen]
  rw [Kpermuter.exchange, List.set_set, hget, List.set_getElem_self]

lemma back_exchange (h : WF W p) {i : ℕ} (hi : i < W) :
    (p.exchange i (W - 1)).back = p.get i := by
  have hlen := h.length_order
  rw [back, List.getLastD_eq_getLast?, List.getLast?_eq_getElem?]
  simp [Kpermuter.exchange, hlen, show W - 1 < W by omega]

lemma back_removeToBack (p : Kpermuter) (i : ℕ) : (p.removeToBack i).back = p.get i := by
  simp [back, Kpermuter.removeToBack]

end WF

lemma live_makeSorted {W n : ℕ} : (makeSorted W n).live = List.range n := by
  simp [live, makeSorted]

lemma back_makeSorted {W n : ℕ} (hn : n < W) : (makeSorted W n).back = n := by
  have hne : (List.range W).drop n ≠ [] := by simp [List.drop_eq_nil_iff, hn]
  rw [back, makeSorted, List.getLastD_eq_getLast?, List.getLast?_append_of_ne_nil _ (by simp [hn]),
    List.getLast?_reverse]
  simp [List.head?_drop, hn]

end Kpermuter

end MasstreeLHM
