import MasstreeLHM.Stream.Building

/-!
# The parser reads items

What a parser between two rounds of its loop, and between two calls, has read: a half-built value,
and at most the beginning of the next item.  Each round takes one item.

* `Represents` — the parser between two rounds, against a half-built value.  The stack is given by
  the frames around the hole (`stackOf`).
* `LengthsFit` — the lengths, counts and strings of an input that the parser can hold.  Where they
  fit, each round and each call does what the format says.
* `Stands` — the parser between two calls: what it has built, and which bytes of the next item it
  has kept.
* `turn_spec`, `loop_spec`, `resume_spec` — a round, the loop, and what is done before it.

The code behind the label `next` is taken apart first.  `pop_rise` leaves the containers that a
value completes, `addKey_spec` inserts a key, and `assign_scalar`, `assign_array` and `assign_map`
store the three sorts of items.  `dispatch_found` and `dispatch_short` are the two ends of a string
in a chunk: it is there as a whole, or it is kept in `str_`.
-/

namespace MasstreeLHM

namespace Msgpack

open JsonTree

/-- The conversion keeps what an `int` can hold. -/
def Exact (int : ℕ → ℤ) : Prop := ∀ n < 2147483648, int n = n

lemma exact_toInt : Exact toInt := fun _ hn => if_pos hn

lemma exact_cast : Exact Nat.cast := fun _ _ => rfl

/-! ## The stack -/

/-- The stack of a parser that waits for the value in the hole of these frames. -/
def stackOf : List JsonFrame → List Selem
  | [] => []
  | f :: frames => ⟨.json (place (f :: frames)), f.left⟩ :: stackOf frames

@[simp] lemma target_stackOf (frames : List JsonFrame) :
    target (stackOf frames) = .json (place frames) := by
  cases frames <;> rfl

namespace StreamingParser

/-- The parser has built this much. -/
def Represents (p : StreamingParser) : Building → Prop
  | .value old frames => p.stack = stackOf frames ∧ p.json = plug frames old
  | .key items left frames =>
      p.stack = ⟨.jokey, left⟩ :: stackOf frames ∧ p.json = plug frames (.object items)
  | .final j => p.state = .stFinal ∧ p.json = j
  | .error => p.state = .stError

variable {p : StreamingParser} {frames : List JsonFrame} {b : Building}

/-- What is still being built is in the stack and in `json_`. -/
lemma Represents.congr {p' : StreamingParser} (hp : p.Represents b) (hb : b.done = false)
    (hstack : p'.stack = p.stack) (hjson : p'.json = p.json) : p'.Represents b := by
  cases b with
  | value old frames => exact ⟨hstack.trans hp.1, hjson.trans hp.2⟩
  | key items left frames => exact ⟨hstack.trans hp.1, hjson.trans hp.2⟩
  | final j => cases hb
  | error => cases hb

lemma load_plug {v : JsonTree} (h : p.json = plug frames v) :
    p.load (.json (place frames)) = some v := by
  rw [load, h, get_hole]

lemma store_plug {v : JsonTree} (w : JsonTree) (h : p.json = plug frames v) :
    p.store w (.json (place frames)) = some { p with json := plug frames w } := by
  rw [store, h, set_hole]
  rfl

end StreamingParser

/-- The loop goes on with a value in the making, or `consume` returns. -/
def Flow.Represents : Flow → Building → Prop
  | .again p, b => p.Represents b ∧ b.done = false
  | .stop p, b => p.Represents b ∧ b.done = true

namespace StreamingParser

variable {p : StreamingParser} {frames : List JsonFrame} {b : Building}

/-! ## The label `next` -/

lemma pop_cons_zero {jp : JsonPointer} {below : List Selem} (h : p.stack = ⟨jp, 0⟩ :: below) :
    p.pop = pop { p with stack := below } := by
  rw [pop, pop, h, List.dropWhile_cons_of_pos (by simp)]
  rfl

lemma decrement_of_pos {n : ℤ} (h : 0 < n) : decrement n = some (n - 1) := by
  rw [decrement, if_neg (by omega)]

lemma pop_cons {jp : JsonPointer} {size : ℤ} {j : JsonTree}
    (h : p.stack = ⟨jp, size⟩ :: stackOf frames) (hsize : 0 < size) (hj : p.json = plug frames j) :
    p.pop = match j with
      | .array _ => some (.again { p with stack := ⟨jp.advance, size - 1⟩ :: stackOf frames })
      | _ => some (.again { p with stack := ⟨.jokey, size - 1⟩ :: stackOf frames }) := by
  rw [pop, h, List.dropWhile_cons_of_neg (by simpa using hsize.ne')]
  simp only [target_stackOf, load_plug hj, decrement_of_pos hsize]
  cases j <;> rfl

/-- The containers that a value completes are left. -/
lemma pop_rise : ∀ (frames : List JsonFrame) (p : StreamingParser) (j : JsonTree),
    p.stack = stackOf frames → p.json = plug frames j →
      ∃ flow, p.pop = some flow ∧ flow.Represents (Building.rise j frames)
  | [], p, j, hstack, hjson => by
      exact ⟨.stop { p with state := .stFinal, stack := [] }, by rw [pop, hstack]; rfl,
        ⟨rfl, hjson⟩, rfl⟩
  | .element before [] :: frames, p, j, hstack, hjson => by
      rw [pop_cons_zero hstack]
      exact pop_rise frames { p with stack := stackOf frames } _ rfl hjson
  | .element before (e :: after) :: frames, p, j, hstack, hjson => by
      have hpop := pop_cons hstack (by simp [JsonFrame.left]) hjson
      refine ⟨_, hpop, ⟨?_, ?_⟩, rfl⟩
      · simp [stackOf, place, JsonFrame.left, JsonFrame.index, JsonPointer.advance]
      · simp [hjson, plug, JsonFrame.plug]
  | .member before k after 0 :: frames, p, j, hstack, hjson => by
      rw [pop_cons_zero hstack]
      exact pop_rise frames { p with stack := stackOf frames } _ rfl hjson
  | .member before k after (left + 1) :: frames, p, j, hstack, hjson => by
      have hpop := pop_cons hstack (by simp [JsonFrame.left]) hjson
      refine ⟨_, hpop, ⟨?_, hjson⟩, rfl⟩
      simp [JsonFrame.left]

lemma getInsert_lt (items : List (Bytes × JsonTree)) (k : Bytes) :
    (getInsert items k).2 < (getInsert items k).1.length := by
  rw [getInsert]
  split
  · next i hi => exact (List.findIdx?_eq_some_iff_getElem.mp hi).1
  · simp

/-- A key is inserted. -/
lemma addKey_spec {items : List (Bytes × JsonTree)} {left : ℕ}
    (hp : p.Represents (.key items left frames))
    (hroom : ∀ k, p.jokey.keyString = some k → canInsert items k = true) :
    ∃ flow, p.addKey = some flow ∧
      flow.Represents (Building.accept (.key items left frames) (.scalar p.jokey)) := by
  obtain ⟨hstack, hjson⟩ := hp
  cases hk : p.jokey.keyString with
  | none =>
      refine ⟨_, by rw [addKey, hk], ?_⟩
      rw [Building.accept, hk]
      exact ⟨rfl, rfl⟩
  | some k =>
      have hlt := getInsert_lt items k
      have hget : p.json.get (place frames).reverse = some (.object items) := by
        rw [hjson, get_hole]
      refine ⟨.again { p with
        stack := ⟨.json ((getInsert items k).2 :: place frames), left⟩ :: stackOf frames,
        json := plug frames (.object (getInsert items k).1) }, ?_, ?_⟩
      · rw [addKey, hk, hstack]
        simp only [target_stackOf, hget, if_pos (hroom k hk), store_plug _ hjson]
        rfl
      · rw [Building.accept, hk]
        simp only [Building.insert, List.getElem?_eq_getElem hlt]
        refine ⟨⟨?_, ?_⟩, rfl⟩
        · simp [stackOf, place, JsonFrame.left, JsonFrame.index, Nat.min_eq_left hlt.le]
        · simp [plug, JsonFrame.plug]

/-- A value that needs no more items is stored. -/
lemma assign_scalar {j : JsonTree} {n : ℤ} (hp : p.Represents b) (hb : b.done = false)
    (hroom : b.hasRoom (.scalar j) = true) (hj : n = 0 ∨ ∃ s, j = .str s) :
    ∃ flow, p.assign (target p.stack) j n = some flow ∧ flow.Represents (b.accept (.scalar j)) := by
  cases b with
  | value old frames =>
      obtain ⟨hstack, hjson⟩ := hp
      rw [assign, hstack, target_stackOf, store_plug j hjson]
      obtain ⟨flow, hflow, hrep⟩ := pop_rise frames { p with json := plug frames j } j hstack rfl
      refine ⟨flow, ?_, hrep⟩
      simp only [add, get_hole]
      rcases hj with rfl | ⟨s, rfl⟩
      · cases j <;> simp [← hflow, hstack]
      · simp [← hflow, hstack]
  | key items left frames =>
      have htarget : target p.stack = .jokey := by rw [hp.1]; rfl
      rw [assign, htarget, store]
      refine addKey_spec hp fun k hk => ?_
      rw [Building.hasRoom] at hroom
      change j.keyString = some k at hk
      rwa [hk] at hroom
  | final j => cases hb
  | error => cases hb

/-- An array begins. -/
lemma assign_array {n : ℕ} (hp : p.Represents b) (hb : b.done = false)
    (hroom : b.hasRoom (.array n) = true) :
    ∃ j flow, p.load (target p.stack) = some j ∧ j.canResize n = true ∧
      p.assign (target p.stack) (.array (resize j.elements n)) n = some flow ∧
      flow.Represents (b.accept (.array n)) := by
  cases b with
  | value old frames =>
      obtain ⟨hstack, hjson⟩ := hp
      refine ⟨old, ?_⟩
      rw [hstack, target_stackOf, load_plug hjson]
      obtain ⟨elems, helems⟩ : ∃ elems, resize old.elements n = elems := ⟨_, rfl⟩
      have hlen : elems.length = n := by rw [← helems, resize_length]
      rw [Building.accept, helems]
      cases elems with
      | nil =>
          obtain rfl : n = 0 := hlen.symm
          have hzero := assign_scalar (j := .array []) (n := 0) (b := .value old frames)
            ⟨hstack, hjson⟩ rfl rfl (Or.inl rfl)
          rw [hstack, target_stackOf] at hzero
          obtain ⟨flow, hflow, hrep⟩ := hzero
          exact ⟨flow, rfl, hroom, hflow, hrep⟩
      | cons e elems =>
          have hn : (n : ℤ) = elems.length + 1 := by rw [← hlen]; rfl
          refine ⟨.again { p with
            stack := ⟨.json (0 :: place frames), (n : ℤ) - 1⟩ :: p.stack,
            json := plug frames (.array (e :: elems)) }, rfl, hroom, ?_, ⟨?_, rfl⟩, rfl⟩
          · rw [assign, store_plug _ hjson]
            simp only [add, get_hole]
            rw [if_pos (by omega), decrement_of_pos (by omega)]
            simp [store_plug (p := { p with json := plug frames (.array (e :: elems)) }) _ rfl]
          · simp [stackOf, place, JsonFrame.index, JsonFrame.left, hstack, hn]
  | key items left frames =>
      refine ⟨p.jokey, .stop { p with
        jokey := .array (resize p.jokey.elements n), state := .stError }, ?_⟩
      rw [show target p.stack = .jokey by rw [hp.1]; rfl]
      rw [Building.hasRoom, decide_eq_true_eq] at hroom
      exact ⟨rfl, p.jokey.canResize_of_le (by omega), rfl, rfl, rfl⟩
  | final j => cases hb
  | error => cases hb

/-- A map begins. -/
lemma assign_map (n : ℕ) (hp : p.Represents b) (hb : b.done = false) :
    ∃ flow, p.assign (target p.stack) (.object []) n = some flow ∧
      flow.Represents (b.accept (.map n)) := by
  cases b with
  | value old frames =>
      cases n with
      | zero => exact assign_scalar (b := .value old frames) hp rfl rfl (Or.inl rfl)
      | succ n =>
          obtain ⟨hstack, hjson⟩ := hp
          refine ⟨.again { p with
            stack := ⟨.jokey, ((n + 1 : ℕ) : ℤ) - 1⟩ :: p.stack,
            json := plug frames (.object []) }, ?_, ⟨?_, rfl⟩, rfl⟩
          · rw [hstack, target_stackOf, assign, store_plug _ hjson]
            simp only [add, get_hole]
            rw [if_pos (by omega), decrement_of_pos (by omega), hstack]
            rfl
          · simp [hstack]
  | key items left frames =>
      refine ⟨.stop { p with jokey := .object [], state := .stError }, ?_⟩
      rw [show target p.stack = .jokey by rw [hp.1]; rfl]
      exact ⟨rfl, rfl, rfl⟩
  | final j => cases hb
  | error => cases hb

/-! ## One round -/

variable {inStr : Bool} {chunk : Bytes}

lemma takeString_natCast {s : Bytes} {n : ℕ} (hn : n ≤ s.length) (hcopy : n < 2147483621) :
    takeString inStr s n = some (s.take n) := by
  have hlen : (s.take n).length < 2147483621 := by
    rw [List.length_take]
    omega
  obtain ⟨capacity, hcapacity⟩ := Option.isSome_iff_exists.mp (copyCapacity_isSome.mpr hlen)
  have hcopied : copyString (s.take n) = some (s.take n) := by
    rw [copyString, hcapacity]
    rfl
  rw [takeString, if_pos (Int.natCast_nonneg n), Int.toNat_natCast, hcopied, ite_self]

lemma setStr_of_lt (p : StreamingParser) {s : Bytes} (h : s.length < 2147483621) :
    ∃ capacity, p.setStr s = some { p with str := s, capacity } := by
  obtain ⟨capacity, hcapacity⟩ := Option.isSome_iff_exists.mp (copyCapacity_isSome.mpr h)
  exact ⟨capacity, by rw [setStr, hcapacity]; rfl⟩

/-- An item that is there as a whole is taken. -/
lemma dispatch_found {k : ℕ} {header : Header ℕ} {i : Item} {rest : Bytes} (hp : p.Represents b)
    (hb : b.done = false) (hk : k ≤ chunk.length) (hroom : b.hasRoom i = true)
    (hcopy : ∀ n, header = .raw n → min n (chunk.drop k).length < 2147483621)
    (hs : scanBody header (chunk.drop k) = .found i rest) :
    ∃ flow k', k ≤ k' ∧ k' ≤ chunk.length ∧ chunk.drop k' = rest ∧
      (∀ inStr, dispatch inStr chunk p k (header.convert Nat.cast) = some (flow, (k' : ℤ))) ∧
      flow.Represents (b.accept i) := by
  cases header with
  | scalar j =>
      cases hs
      obtain ⟨flow, hflow, hrep⟩ := assign_scalar (j := j) (n := 0) hp hb hroom (Or.inl rfl)
      exact ⟨flow, k, le_rfl, hk, rfl, fun _ => by rw [Header.convert, dispatch, hflow]; rfl, hrep⟩
  | array n =>
      cases hs
      obtain ⟨j, flow, hj, hresize, hflow, hrep⟩ := assign_array hp hb hroom
      refine ⟨flow, k, le_rfl, hk, rfl, fun _ => ?_, hrep⟩
      rw [Header.convert, dispatch, hj]
      simp only [Int.toNat_natCast, if_pos hresize, hflow]
      rfl
  | map n =>
      cases hs
      obtain ⟨flow, hflow, hrep⟩ := assign_map n hp hb
      exact ⟨flow, k, le_rfl, hk, rfl, fun _ => by rw [Header.convert, dispatch, hflow]; rfl, hrep⟩
  | raw n =>
      have hmin := hcopy n rfl
      rw [scanBody] at hs
      split_ifs at hs with hn
      cases hs
      have htake : ∀ inStr, takeString inStr (chunk.drop k) n = some ((chunk.drop k).take n) :=
        fun _ => takeString_natCast (Nat.not_lt.mp hn) (by omega)
      rw [List.length_drop] at hn
      obtain ⟨flow, hflow, hrep⟩ := assign_scalar (n := n) hp hb hroom
        (Or.inr ⟨(chunk.drop k).take n, rfl⟩)
      refine ⟨flow, k + n, Nat.le_add_right k n, by omega, by rw [List.drop_drop],
        fun _ => ?_, hrep⟩
      rw [Header.convert, dispatch, if_neg (by omega), Int.toNat_natCast, htake]
      simp only [hflow, Nat.cast_add]
      rfl

/-- A string that is not there as a whole is kept. -/
lemma dispatch_short {k : ℕ} {header : Header ℕ} (p : StreamingParser) (hk : k ≤ chunk.length)
    (hcopy : ∀ n, header = .raw n → min n (chunk.drop k).length < 2147483621)
    (hs : scanBody header (chunk.drop k) = .short) :
    ∃ n capacity, header = .raw n ∧ (chunk.drop k).length < n ∧ ∀ inStr,
      dispatch inStr chunk p k (header.convert Nat.cast)
        = some (Flow.stop { p with
          str := chunk.drop k, capacity, stack := ⟨.null, n⟩ :: p.stack, state := .stString },
          (chunk.length : ℤ)) := by
  cases header with
  | raw n =>
      have hmin := hcopy n rfl
      rw [scanBody] at hs
      split_ifs at hs with hn
      obtain ⟨capacity, hset⟩ := setStr_of_lt p (s := chunk.drop k) (by omega)
      refine ⟨n, capacity, rfl, hn, fun inStr => ?_⟩
      rw [List.length_drop] at hn
      rw [Header.convert, dispatch, if_pos (by omega), Int.toNat_natCast, hset]
      rfl
  | _ => cases hs

lemma convert_eq {int : ℕ → ℤ} {header : Header ℕ} (hint : Exact int)
    (h : ∀ n ∈ header.field, n < 2147483648) : header.convert int = header.convert Nat.cast := by
  cases header with
  | scalar j => rfl
  | array n => rw [Header.convert, Header.convert, hint n (h n rfl)]
  | map n => rw [Header.convert, Header.convert, hint n (h n rfl)]
  | raw n => rw [Header.convert, Header.convert, hint n (h n rfl)]

/-- A round that finds a whole header. -/
lemma turn_header {k : ℕ} {header : Header ℕ} {rest : Bytes} (p : StreamingParser)
    (hk : k ≤ chunk.length) (hs : scanHeader (chunk.drop k) = .found header rest)
    (hfield : ∀ n ∈ lengthField (chunk.drop k), n < 2147483648) :
    ∃ k', k < k' ∧ k' ≤ chunk.length ∧ chunk.drop k' = rest ∧
      ∀ (int : ℕ → ℤ) (inStr : Bool), Exact int →
        turn int inStr chunk p k = dispatch inStr chunk p k' (header.convert Nat.cast) := by
  rw [lengthField, hs] at hfield
  cases hc : chunk.drop k with
  | nil => rw [hc] at hs; cases hs
  | cons x s =>
      have hlen : chunk.length = k + (s.length + 1) := by
        have := congrArg List.length hc
        rw [List.length_drop, List.length_cons] at this
        omega
      have hdrop : ∀ m, chunk.drop (k + 1 + m) = s.drop m := by
        intro m
        rw [← List.drop_drop, ← List.drop_drop, hc, List.drop_one, List.tail_cons]
      rw [hc, scanHeader] at hs
      cases hx : shortHeader x with
      | some short =>
          rw [hx] at hs
          cases hs
          refine ⟨k + 1, by omega, by omega, hdrop 0, fun int inStr _ => ?_⟩
          rw [turn, if_neg (by omega), if_neg (by omega)]
          simp only [Int.toNat_natCast, hc, hx, Nat.cast_add, Nat.cast_one]
      | none =>
          rw [hx] at hs
          dsimp only at hs
          split_ifs at hs with h0 hshort
          cases hs
          refine ⟨k + nbytes x, by omega, by omega, ?_, fun int inStr hint => ?_⟩
          · rw [← hdrop, show k + 1 + (nbytes x - 1) = k + nbytes x by omega]
          · rw [turn, if_neg (by omega), if_neg (by omega)]
            simp only [Int.toNat_natCast, hc, hx]
            rw [if_neg h0, if_neg hshort, convert_eq hint hfield, Nat.cast_add]

/-- A round takes the item that comes next. -/
lemma turn_found {k : ℕ} {i : Item} {rest : Bytes} (hp : p.Represents b) (hb : b.done = false)
    (hk : k ≤ chunk.length) (hfit : ItemFits b (chunk.drop k))
    (hs : scan (chunk.drop k) = .found i rest) :
    ∃ flow k', k < k' ∧ k' ≤ chunk.length ∧ chunk.drop k' = rest ∧
      (∀ (int : ℕ → ℤ) (inStr : Bool), Exact int →
        turn int inStr chunk p k = some (flow, (k' : ℤ))) ∧ flow.Represents (b.accept i) := by
  have hroom := hfit.room i rest hs
  rw [scan] at hs
  cases hheader : scanHeader (chunk.drop k) with
  | short => rw [hheader] at hs; cases hs
  | bad => rw [hheader] at hs; cases hs
  | found header s =>
      rw [hheader] at hs
      obtain ⟨k₁, hlt, hle, rfl, hturn⟩ := turn_header p hk hheader hfit.field
      obtain ⟨flow, k', hle', hk', hrest, hflow, hrep⟩ :=
        dispatch_found hp hb hle hroom (fun n hn => hfit.copied n _ (hn ▸ hheader)) hs
      exact ⟨flow, k', hlt.trans_le hle', hk', hrest,
        fun int inStr hint => (hturn int inStr hint).trans (hflow inStr), hrep⟩

lemma turn_bad {int : ℕ → ℤ} {k : ℕ} (hs : scan (chunk.drop k) = .bad) :
    turn int inStr chunk p k = some (.stop { p with state := .stError }, (k : ℤ)) := by
  rw [turn]
  rw [scan] at hs
  cases hc : chunk.drop k with
  | nil => rw [hc] at hs; cases hs
  | cons x s =>
      have hlen := congrArg List.length hc
      rw [List.length_drop, List.length_cons] at hlen
      rw [if_neg (by omega), if_neg (by omega)]
      simp only [Int.toNat_natCast, hc]
      rw [hc, scanHeader] at hs
      cases hx : shortHeader x with
      | some header =>
          rw [hx] at hs
          exact absurd hs (scanBody_ne_bad header s)
      | none =>
          rw [hx] at hs
          dsimp only at hs ⊢
          split_ifs at hs with h0 hshort
          · rw [if_pos h0]
          · exact absurd hs (scanBody_ne_bad _ _)

lemma turn_end {int : ℕ → ℤ} {k : ℕ} (hk : k ≤ chunk.length) (hs : chunk.drop k = []) :
    turn int inStr chunk p k = some (.stop { p with state := .stNormal }, (chunk.length : ℤ)) := by
  rw [List.drop_eq_nil_iff] at hs
  obtain rfl := Nat.le_antisymm hk hs
  rw [turn, if_pos rfl]

lemma nbytes_le (x : UInt8) : nbytes x ≤ 9 := by
  rw [nbytes]
  split <;> omega

lemma turn_short {k : ℕ} (p : StreamingParser) (hne : chunk.drop k ≠ [])
    (hs : scanHeader (chunk.drop k) = .short) :
    ∃ capacity, ∀ (int : ℕ → ℤ) (inStr : Bool), turn int inStr chunk p k
      = some (.stop { p with str := chunk.drop k, capacity, state := .stPartial },
        (chunk.length : ℤ)) := by
  cases hc : chunk.drop k with
  | nil => exact absurd hc hne
  | cons x s =>
      have hlen := congrArg List.length hc
      rw [List.length_drop, List.length_cons] at hlen
      rw [hc, scanHeader] at hs
      cases hx : shortHeader x with
      | some header => rw [hx] at hs; cases hs
      | none =>
          rw [hx] at hs
          dsimp only at hs
          split_ifs at hs with h0 hshort
          have hle := nbytes_le x
          obtain ⟨capacity, hset⟩ := setStr_of_lt p (s := x :: s)
            (by rw [List.length_cons]; omega)
          refine ⟨capacity, fun int inStr => ?_⟩
          rw [turn, if_neg (by omega), if_neg (by omega)]
          simp only [Int.toNat_natCast, hc, hx]
          rw [if_neg h0, if_pos hshort, hset]
          rfl

end StreamingParser

/-! ## Between two calls -/

/-- The parser between two calls: it has built `b`, and has kept the bytes `kept` of the next
item. -/
inductive Stands : StreamingParser → Building → Bytes → Prop where
  | done {p : StreamingParser} {b : Building} (hb : b.done = true) (hp : p.Represents b) :
      Stands p b []
  | normal {p : StreamingParser} {b : Building} (hb : b.done = false) (hp : p.Represents b)
      (hstate : p.state = .stNormal) : Stands p b []
  | header {p : StreamingParser} {b : Building} (hb : b.done = false) (hp : p.Represents b)
      (hstate : p.state = .stPartial) (hne : p.str ≠ []) (hs : scanHeader p.str = .short) :
      Stands p b p.str
  | string {p : StreamingParser} {b : Building} {n : ℕ} {front : Bytes} {below : List Selem}
      (hb : b.done = false) (hp : { p with stack := below }.Represents b)
      (hstate : p.state = .stString) (hstack : p.stack = ⟨.null, n⟩ :: below)
      (hfront : scanHeader front = .found (.raw n) []) (hn : p.str.length < n) :
      Stands p b (front ++ p.str)

namespace StreamingParser

variable {p : StreamingParser} {b : Building} {inStr : Bool} {chunk : Bytes} {int : ℕ → ℤ}

/-- A round from a position in the chunk: an item is taken and there are more rounds, or the call
ends. -/
lemma turn_spec {k : ℕ} (hp : p.Represents b) (hb : b.done = false) (hk : k ≤ chunk.length)
    (hfits : LengthsFit b (chunk.drop k)) :
    (∃ p' b', ∃ k' : ℕ, (∀ int inStr, Exact int →
        turn int inStr chunk p k = some (.again p', (k' : ℤ))) ∧ k < k' ∧ k' ≤ chunk.length ∧
      p'.Represents b' ∧ b'.done = false ∧ Reads b (chunk.drop k) b' (chunk.drop k')) ∨
    (∃ p' b' kept, ∃ k' : ℕ, (∀ int inStr, Exact int →
        turn int inStr chunk p k = some (.stop p', (k' : ℤ))) ∧ k ≤ k' ∧ k' ≤ chunk.length ∧
      (b'.done = false → k' = chunk.length) ∧ Stands p' b' kept ∧
      Reads b (chunk.drop k) b' (kept ++ chunk.drop k')) := by
  have hfit := hfits.head hb
  cases hs : scan (chunk.drop k) with
  | found i rest =>
      obtain ⟨flow, k', hlt, hk', rfl, hturn, hrep⟩ := turn_found hp hb hk hfit hs
      have hreads : Reads b (chunk.drop k) (b.accept i) (chunk.drop k') := .item hb hs (.refl _ _)
      cases flow with
      | again p' => exact Or.inl ⟨p', _, k', hturn, hlt, hk', hrep.1, hrep.2, hreads⟩
      | stop p' =>
          exact Or.inr ⟨p', _, [], k', hturn, hlt.le, hk', by simp [hrep.2],
            .done hrep.2 hrep.1, hreads⟩
  | bad =>
      exact Or.inr ⟨_, .error, [], k, fun _ _ _ => turn_bad hs, le_rfl, hk, by simp [Building.done],
        .done rfl rfl, .bad hb hs⟩
  | short =>
      refine Or.inr ?_
      have hend : chunk.drop chunk.length = [] := List.drop_length
      by_cases hne : chunk.drop k = []
      · refine ⟨_, b, [], chunk.length, fun _ _ _ => turn_end hk hne, hk, le_rfl, fun _ => rfl,
          .normal hb (hp.congr hb rfl rfl) rfl, ?_⟩
        rw [hne, hend]
        exact .refl _ _
      · rw [scan] at hs
        cases hheader : scanHeader (chunk.drop k) with
        | short =>
            obtain ⟨capacity, hturn⟩ := turn_short p hne hheader
            refine ⟨_, b, chunk.drop k, chunk.length, fun int inStr _ => hturn int inStr, hk,
              le_rfl,
              fun _ => rfl, .header hb (hp.congr hb rfl rfl) rfl hne hheader, ?_⟩
            rw [hend, List.append_nil]
            exact .refl _ _
        | bad => rw [hheader] at hs; cases hs
        | found header rest =>
            rw [hheader] at hs
            obtain ⟨k₁, hlt, hle, rfl, hturn⟩ := turn_header p hk hheader hfit.field
            obtain ⟨n, capacity, rfl, hn, hdispatch⟩ :=
              dispatch_short p hle (fun n hn => hfit.copied n _ (hn ▸ hheader)) hs
            obtain ⟨front, hfront, hscan⟩ := scanHeader_front hheader
            have hstands : Stands { p with
                str := chunk.drop k₁, capacity, stack := ⟨.null, n⟩ :: p.stack,
                state := .stString } b
                (front ++ chunk.drop k₁) :=
              .string hb (hp.congr hb rfl rfl) rfl rfl hscan hn
            refine ⟨_, b, _, chunk.length,
              fun int inStr hint => (hturn int inStr hint).trans (hdispatch inStr), hk, le_rfl,
              fun _ => rfl, hstands, ?_⟩
            rw [hend, List.append_nil, hfront]
            exact .refl _ _

lemma loop_stop {int : ℕ → ℤ} {inStr : Bool} {first first' : ℤ} {p' : StreamingParser}
    (h : turn int inStr chunk p first = some (.stop p', first')) (fuel : ℕ) :
    loop int inStr chunk (fuel + 1) p first = some (p', first') := by
  rw [loop, h]

lemma loop_again {int : ℕ → ℤ} {inStr : Bool} {first first' : ℤ} {p' : StreamingParser}
    (h : turn int inStr chunk p first = some (.again p', first')) (fuel : ℕ) :
    loop int inStr chunk (fuel + 1) p first = loop int inStr chunk fuel p' first' := by
  rw [loop, h]

/-- Enough rounds take all the items that are there. -/
lemma loop_spec : ∀ (m k : ℕ) (p : StreamingParser) (b : Building), p.Represents b →
    b.done = false → k + m = chunk.length → LengthsFit b (chunk.drop k) →
      ∃ p' b' kept, ∃ k' : ℕ, (∀ int inStr fuel, Exact int → m < fuel →
          loop int inStr chunk fuel p k = some (p', (k' : ℤ))) ∧ k ≤ k' ∧
        k' ≤ chunk.length ∧ (b'.done = false → k' = chunk.length) ∧ Stands p' b' kept ∧
        Reads b (chunk.drop k) b' (kept ++ chunk.drop k') := by
  intro m
  induction m using Nat.strongRecOn with
  | _ m ih =>
      intro k p b hp hb hk hfits
      rcases turn_spec hp hb (Nat.le.intro hk) hfits with
        ⟨p₁, b₁, k₁, hturn, hlt, hk₁, hp₁, hb₁, hreads⟩ |
        ⟨p₁, b₁, kept, k₁, hturn, hle, hk₁, hend, hstands, hreads⟩
      · obtain ⟨p', b', kept, k', hloop', hle, hk', hend, hstands, hreads'⟩ :=
          ih (chunk.length - k₁) (by omega) k₁ p₁ b₁ hp₁ hb₁ (by omega) (hfits.of_reads hreads)
        refine ⟨p', b', kept, k', fun int inStr fuel hint hfuel => ?_, by omega, hk', hend, hstands,
          hreads.trans hreads'⟩
        obtain ⟨fuel', rfl⟩ := Nat.exists_eq_succ_of_ne_zero (Nat.ne_zero_of_lt hfuel)
        rw [loop_again (hturn int inStr hint)]
        exact hloop' int inStr fuel' hint (by omega)
      · refine ⟨p₁, b₁, kept, k₁, fun int inStr fuel hint hfuel => ?_, hle, hk₁, hend,
          hstands, hreads⟩
        obtain ⟨fuel', rfl⟩ := Nat.exists_eq_succ_of_ne_zero (Nat.ne_zero_of_lt hfuel)
        exact loop_stop (hturn int inStr hint) fuel'

/-! ## What a call does before its loop -/

lemma appendStr_of_room {s : Bytes} (h : HasRoom p.capacity p.str.length s.length) :
    ∃ capacity, p.appendStr s = some { p with str := p.str ++ s, capacity } := by
  obtain ⟨capacity, hcapacity⟩ := Option.isSome_iff_exists.mp (appendCapacity_isSome.mpr h)
  exact ⟨capacity, by rw [appendStr, hcapacity]; rfl⟩

lemma refill_short {n : ℕ} (h : p.str.length + chunk.length < n)
    (hroom : HasRoom p.capacity p.str.length chunk.length) :
    ∃ capacity, p.refill chunk n
      = some ({ p with str := p.str ++ chunk, capacity }, (chunk.length : ℤ)) := by
  obtain ⟨capacity, happend⟩ := appendStr_of_room hroom
  refine ⟨capacity, ?_⟩
  rw [refill, if_pos (by omega), Int.toNat_natCast, List.take_length, happend]
  rfl

lemma refill_full {n : ℕ} (hstr : p.str.length ≤ n) (h : n ≤ p.str.length + chunk.length)
    (hroom : HasRoom p.capacity p.str.length (n - p.str.length)) :
    ∃ capacity, p.refill chunk n
      = some ({ p with str := p.str ++ chunk.take (n - p.str.length), capacity },
        ((n - p.str.length : ℕ) : ℤ)) := by
  rw [← List.length_take_of_le (by omega : n - p.str.length ≤ chunk.length)] at hroom
  obtain ⟨capacity, happend⟩ := appendStr_of_room hroom
  refine ⟨capacity, ?_⟩
  rw [refill, if_neg (by omega),
    show (n : ℤ) - p.str.length = ((n - p.str.length : ℕ) : ℤ) by omega, Int.toNat_natCast, happend]
  rfl

/-- What a call appends to a string that an earlier one has left has room. -/
def Room (p : StreamingParser) (chunk : Bytes) : Prop :=
  p.state = .stString → ∀ top ∈ p.stack.head?,
    HasRoom p.capacity p.str.length (min chunk.length (top.size.toNat - p.str.length))

/-- What `resume` leaves: the loop starts in a value in the making, or the call ends.  In front of
the end of the chunk it ends only when nothing is to come, or behind a header that it has
completed. -/
def Resumed (b : Building) (kept chunk : Bytes) : Flow → ℕ → Prop
  | .again p, k =>
      ∃ b', p.Represents b' ∧ b'.done = false ∧ Reads b (kept ++ chunk) b' (chunk.drop k)
  | .stop p, k => (chunk ≠ [] → 0 < k) ∧ ∃ b' kept', Stands p b' kept' ∧
      Reads b (kept ++ chunk) b' (kept' ++ chunk.drop k) ∧
      (b'.done = false → k < chunk.length →
        kept ≠ [] ∧ kept' ++ chunk.drop k = kept ++ chunk)

/-- The string is longer now. -/
lemma resume_of_refill {p' : StreamingParser} {top : Selem} {below : List Selem} {next : ℤ}
    (hstate : p.state = .stString) (hstack : p.stack = top :: below)
    (hrefill : p.refill chunk top.size = some (p', next)) (int : ℕ → ℤ) :
    resume int p chunk =
      if (p'.str.length : ℤ) ≠ top.size then some (.stop p', next)
      else (assign { p' with stack := below } (target below) (.str p'.str) 0).map
        fun flow => (flow, next) := by
  rw [resume, hstate]
  simp only [hstack, hrefill]

/-- A string is completed. -/
lemma resume_string {n : ℕ} {front : Bytes} {below : List Selem} (hb : b.done = false)
    (hp : { p with stack := below }.Represents b) (hstate : p.state = .stString)
    (hstack : p.stack = ⟨.null, n⟩ :: below) (hfront : scanHeader front = .found (.raw n) [])
    (hn : p.str.length < n) (hroom : p.Room chunk)
    (hfit : ItemFits b (front ++ p.str ++ chunk)) :
    ∃ flow, ∃ k : ℕ, (∀ int, resume int p chunk = some (flow, (k : ℤ))) ∧ k ≤ chunk.length ∧
      Resumed b (front ++ p.str) chunk flow k := by
  have hroom' : HasRoom p.capacity p.str.length (min chunk.length (n - p.str.length)) := by
    have := hroom hstate ⟨.null, n⟩ (by rw [hstack]; rfl)
    rwa [Int.toNat_natCast] at this
  by_cases hshort : p.str.length + chunk.length < n
  · rw [Nat.min_eq_left (by omega)] at hroom'
    obtain ⟨capacity, hrefill⟩ := refill_short hshort hroom'
    have hlen : ((p.str ++ chunk).length : ℤ) ≠ n := by
      rw [List.length_append]
      omega
    refine ⟨_, chunk.length,
      fun int => (resume_of_refill hstate hstack hrefill int).trans (if_pos hlen), le_rfl,
      List.length_pos_iff.mpr, b, front ++ (p.str ++ chunk),
      .string hb (hp.congr hb rfl rfl) hstate hstack hfront
      (by simp only [List.length_append]; omega), ?_, fun _ hlt => absurd hlt (Nat.lt_irrefl _)⟩
    rw [List.drop_length, List.append_nil, List.append_assoc]
    exact .refl _ _
  · rw [Nat.min_eq_right (by omega)] at hroom'
    obtain ⟨capacity, hrefill⟩ := refill_full hn.le (Nat.not_lt.mp hshort) hroom'
    obtain ⟨k, hk⟩ : ∃ k, n - p.str.length = k := ⟨_, rfl⟩
    rw [hk] at hrefill
    have hlen : (p.str ++ chunk.take k).length = n := by
      rw [List.length_append, List.length_take]
      omega
    have hscan : scan (front ++ p.str ++ chunk)
        = .found (.scalar (.str (p.str ++ chunk.take k))) (chunk.drop k) := by
      rw [scan, List.append_assoc, scanHeader_found_append _ hfront]
      dsimp only
      rw [List.nil_append, scanBody, if_neg (by rw [List.length_append]; omega), List.take_append,
        List.drop_append, List.take_of_length_le (by omega), List.drop_eq_nil_of_le (by omega), hk,
        List.nil_append]
    obtain ⟨flow, hflow, hrep⟩ := assign_scalar
      (p := { p with stack := below, str := p.str ++ chunk.take k, capacity })
      (j := .str (p.str ++ chunk.take k)) (n := 0) (hp.congr hb rfl rfl) hb
      (hfit.room _ _ hscan) (Or.inl rfl)
    have hreads : Reads b (front ++ p.str ++ chunk)
        (b.accept (.scalar (.str (p.str ++ chunk.take k)))) (chunk.drop k) :=
      .item hb hscan (.refl _ _)
    refine ⟨flow, k, fun int => ?_, by omega, ?_⟩
    · rw [resume_of_refill hstate hstack hrefill int, if_neg (by simp only [hlen]; simp)]
      exact congrArg (Option.map fun flow => (flow, (k : ℤ))) hflow
    · cases flow with
      | again p' => exact ⟨_, hrep.1, hrep.2, hreads⟩
      | stop p' =>
          exact ⟨fun _ => by omega, _, [], .done hrep.2 hrep.1, hreads,
            fun hdone => absurd hrep.2 (by simp [hdone])⟩

lemma scanBody_nil {header : Header ℕ} {i : Item} {rest : Bytes}
    (h : scanBody header [] = .found i rest) : rest = [] := by
  cases header with
  | raw n =>
      rw [scanBody] at h
      split_ifs at h
      cases h
      exact List.drop_nil
  | _ => cases h; rfl

lemma Represents.state_ne (hp : p.Represents b) (hb : b.done = true) : p.state ≠ .stNormal := by
  cases b with
  | value old frames => cases hb
  | key items left frames => cases hb
  | final j => rw [hp.1]; decide
  | error => rw [hp]; decide

/-- The recursive call on a header that has just been completed: it takes an item, or keeps the
length of a string of which no byte is there yet. -/
lemma loop_header {str : Bytes} {header : Header ℕ} (hp : p.Represents b) (hb : b.done = false)
    (hs : scanHeader str = .found header []) (hfit : ItemFits b str) :
    ∃ p' pos, (∀ int : ℕ → ℤ, Exact int → loop int true str 2 p 0 = some (p', pos)) ∧
      ((∃ i, scan str = .found i [] ∧ p'.state = .stNormal ∧ p'.Represents (b.accept i) ∧
        (b.accept i).done = false) ∨
      (p'.state ≠ .stNormal ∧ ∃ b' kept, Stands p' b' kept ∧
        (∀ t, Reads b (str ++ t) b' (kept ++ t)) ∧ (b'.done = false → kept = str))) := by
  have hscan : scan str = scanBody header [] := by rw [scan, hs]
  cases hbody : scanBody header [] with
  | found i rest =>
      obtain rfl := scanBody_nil hbody
      rw [hbody] at hscan
      obtain ⟨flow, k, -, hk, hdrop, hturn, hrep⟩ :=
        turn_found (k := 0) hp hb (Nat.zero_le _) hfit hscan
      cases flow with
      | again p' =>
          refine ⟨{ p' with state := .stNormal }, str.length, fun int hint => ?_,
            Or.inl ⟨i, hscan, rfl, hrep.1.congr hrep.2 rfl rfl, hrep.2⟩⟩
          exact (loop_again (hturn int true hint) 1).trans (loop_stop (turn_end hk hdrop) 0)
      | stop p' =>
          refine ⟨p', k, fun int hint => loop_stop (hturn int true hint) 1,
            Or.inr ⟨hrep.1.state_ne hrep.2, _, [], .done hrep.2 hrep.1,
              fun t => .item hb (scan_found_append t hscan) (.refl _ _),
              fun hdone => absurd hrep.2 (by simp [hdone])⟩⟩
  | short =>
      obtain ⟨k, -, hk, hdrop, hturn⟩ := turn_header p (k := 0) (Nat.zero_le _) hs hfit.field
      obtain ⟨n, capacity, rfl, hn, hdispatch⟩ := dispatch_short p hk (by simp [hdrop])
        (hdrop.symm ▸ hbody)
      have hstands : Stands { p with
          str := str.drop k, capacity, stack := ⟨.null, n⟩ :: p.stack, state := .stString } b
          (str ++ str.drop k) :=
        .string hb (hp.congr hb rfl rfl) rfl rfl hs hn
      refine ⟨_, str.length, fun int hint =>
          loop_stop ((hturn int true hint).trans (hdispatch true)) 1,
        Or.inr ⟨by simp, b, _, hstands, fun t => ?_, fun _ => ?_⟩⟩
      · rw [hdrop, List.append_nil]
        exact .refl _ _
      · rw [hdrop, List.append_nil]
  | bad => exact absurd hbody (scanBody_ne_bad _ _)

/-- The chunk ends inside the header. -/
lemma resume_header_short {x : UInt8} {s : Bytes} {p' : StreamingParser} {next : ℤ}
    (hstate : p.state = .stPartial) (hstr : p.str = x :: s)
    (hrefill : p.refill chunk (nbytes x) = some (p', next)) (hlen : p'.str.length ≠ nbytes x)
    (int : ℕ → ℤ) : resume int p chunk = some (.stop p', next) := by
  rw [resume, hstate]
  simp only [hstr, hrefill]
  rw [if_pos hlen]

/-- The header is whole, and the loop has taken it. -/
lemma resume_header_whole {x : UInt8} {s : Bytes} {p₁ p' : StreamingParser} {next pos : ℤ}
    (hstate : p.state = .stPartial) (hstr : p.str = x :: s)
    (hrefill : p.refill chunk (nbytes x) = some (p₁, next)) (hlen : p₁.str.length = nbytes x)
    (hloop : loop int true p₁.str 2 { p₁ with state := .stNormal } 0 = some (p', pos)) :
    resume int p chunk = some (if p'.state = .stNormal then .again p' else .stop p', next) := by
  rw [resume, hstate]
  simp only [hstr, hrefill]
  rw [if_neg (not_not_intro hlen), hloop]

/-- A header is completed. -/
lemma resume_header (hb : b.done = false) (hp : p.Represents b) (hstate : p.state = .stPartial)
    (hne : p.str ≠ []) (hs : scanHeader p.str = .short) (hfit : ItemFits b (p.str ++ chunk)) :
    ∃ flow, ∃ k : ℕ, (∀ int, Exact int → resume int p chunk = some (flow, (k : ℤ))) ∧
      k ≤ chunk.length ∧ Resumed b p.str chunk flow k := by
  obtain ⟨x, s, hstr⟩ := List.exists_cons_of_ne_nil hne
  rw [hstr, scanHeader] at hs
  cases hx : shortHeader x with
  | some header => rw [hx] at hs; cases hs
  | none =>
      rw [hx] at hs
      dsimp only at hs
      split_ifs at hs with h0 hshort
      have hle := nbytes_le x
      have hcons : p.str.length = s.length + 1 := by rw [hstr, List.length_cons]
      by_cases hfull : p.str.length + chunk.length < nbytes x
      · obtain ⟨capacity, hrefill⟩ := refill_short hfull (Or.inr (Or.inr (by omega)))
        have hlen : (p.str ++ chunk).length ≠ nbytes x := by
          rw [List.length_append]
          omega
        refine ⟨_, chunk.length, fun int _ => resume_header_short hstate hstr hrefill hlen int,
          le_rfl, List.length_pos_iff.mpr, b, p.str ++ chunk,
          .header hb (hp.congr hb rfl rfl) hstate (by simp [hne]) ?_, ?_,
          fun _ hlt => absurd hlt (Nat.lt_irrefl _)⟩
        · dsimp only
          rw [hstr, List.cons_append, scanHeader, hx]
          dsimp only
          rw [if_neg h0, if_pos (by rw [List.length_append]; omega)]
        · rw [List.drop_length, List.append_nil]
          exact .refl _ _
      · obtain ⟨capacity, hrefill⟩ := refill_full (n := nbytes x) (by omega) (Nat.not_lt.mp hfull)
          (Or.inr (Or.inr (by omega)))
        obtain ⟨k, hk⟩ : ∃ k, nbytes x - p.str.length = k := ⟨_, rfl⟩
        rw [hk] at hrefill
        have hlen : (p.str ++ chunk.take k).length = nbytes x := by
          rw [List.length_append, List.length_take]
          omega
        have hheader : scanHeader (p.str ++ chunk.take k)
            = .found (longHeader x (s ++ chunk.take k)) [] := by
          rw [hstr, List.cons_append, List.length_cons] at hlen
          rw [hstr, List.cons_append, scanHeader, hx]
          dsimp only
          rw [if_neg h0, if_neg (by omega), List.drop_eq_nil_of_le (by omega)]
        have hwhole : p.str ++ chunk = p.str ++ chunk.take k ++ chunk.drop k := by
          rw [List.append_assoc, List.take_append_drop]
        rw [hwhole] at hfit
        obtain ⟨p', pos, hloop, hcase⟩ := loop_header
          (p := { p with str := p.str ++ chunk.take k, capacity, state := .stNormal })
          (hp.congr hb rfl rfl) hb hheader hfit.of_append
        have hresume : ∀ int, Exact int → resume int p chunk
            = some (if p'.state = .stNormal then .again p' else .stop p', (k : ℤ)) :=
          fun int hint => resume_header_whole hstate hstr hrefill hlen (hloop int hint)
        rcases hcase with ⟨i, hscan, hnormal, hrep, hdone⟩ | ⟨hstate', b', kept,
          hstands, hreads, hkept⟩
        · rw [if_pos hnormal] at hresume
          refine ⟨_, k, hresume, by omega, _, hrep, hdone, ?_⟩
          rw [hwhole]
          exact .item hb (scan_found_append (chunk.drop k) hscan) (.refl _ _)
        · rw [if_neg hstate'] at hresume
          refine ⟨_, k, hresume, by omega, fun _ => by omega, b', kept, hstands, ?_,
            fun hdone _ => ⟨hne, ?_⟩⟩
          · rw [hwhole]
            exact hreads (chunk.drop k)
          · rw [hkept hdone, hwhole]

/-- What is kept of an item is completed as far as the chunk goes. -/
lemma resume_spec {kept : Bytes} (h : Stands p b kept) (hb : b.done = false) (hroom : p.Room chunk)
    (hfits : LengthsFit b (kept ++ chunk)) :
    ∃ flow, ∃ k : ℕ, (∀ int, Exact int → resume int p chunk = some (flow, (k : ℤ))) ∧
      k ≤ chunk.length ∧ Resumed b kept chunk flow k := by
  have hfit := hfits.head hb
  cases h with
  | done hb' => rw [hb] at hb'; cases hb'
  | normal _ hp hstate =>
      exact ⟨.again p, 0, fun int _ => by rw [resume, hstate]; rfl, Nat.zero_le _, b, hp, hb,
        .refl _ _⟩
  | header _ hp hstate hne hs => exact resume_header hb hp hstate hne hs hfit
  | string _ hp hstate hstack hfront hn =>
      obtain ⟨flow, k, hresume, hk, hspec⟩ := resume_string hb hp hstate hstack hfront hn hroom hfit
      exact ⟨flow, k, fun int _ => hresume int, hk, hspec⟩

end StreamingParser

end Msgpack

end MasstreeLHM
