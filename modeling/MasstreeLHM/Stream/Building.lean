import MasstreeLHM.Stream.Parser

/-!
# Reading a byte string as items

What the format says, apart from the parser's states and pointers: a byte string is a sequence of
items, and each item goes into the hole of a half-built value.  Lengths and counts are the unsigned
numbers that the format encodes.

* `scan` — the item at the front of a byte string: it is there, it needs more bytes, or there is
  none.
* `Building` — a value in the making, and `Building.accept`, the item that it takes next.
* `Reads` — one byte string takes a half-built value to another, item by item, up to a rest.

More bytes behind a string do not change what has been read: `scan_found_append` for one item and
`Reads.append` for many.  **`Reads.linear`** says that reading goes one way only, so of two readings
of the same bytes one goes on from where the other has come.  That is what makes the result of a
parser independent of the cuts between chunks.

`LengthsFit` bounds what the `int`s of the parser have to hold, for every item that is reached.
-/

namespace MasstreeLHM

namespace Msgpack

open JsonTree

/-! ## Items -/

/-- A value without parts, or the beginning of an array or of a map. -/
inductive Item where
  | scalar (j : JsonTree)
  | array (n : ℕ)
  | map (n : ℕ)

/-- The result of looking at the front of a byte string: more bytes are needed, no item starts so,
or something was found and there is a rest. -/
inductive Scan (α : Type) where
  | short
  | bad
  | found (a : α) (rest : Bytes)

/-- The header at the front. -/
def scanHeader : Bytes → Scan (Header ℕ)
  | [] => .short
  | x :: s =>
      match shortHeader x with
      | some header => .found header s
      | none =>
          if nbytes x = 0 then .bad
          else if s.length + 1 < nbytes x then .short
          else .found (longHeader x s) (s.drop (nbytes x - 1))

/-- The item that a header begins. -/
def scanBody : Header ℕ → Bytes → Scan Item
  | .scalar j, s => .found (.scalar j) s
  | .array n, s => .found (.array n) s
  | .map n, s => .found (.map n) s
  | .raw n, s => if s.length < n then .short else .found (.scalar (.str (s.take n))) (s.drop n)

/-- The item at the front. -/
def scan (s : Bytes) : Scan Item :=
  match scanHeader s with
  | .short => .short
  | .bad => .bad
  | .found header s => scanBody header s

lemma scan_of_header {s s' rest : Bytes} {h : Header ℕ} {i : Item}
    (hs : scanHeader s = .found h s') (hbody : scanBody h s' = .found i rest) :
    scan s = .found i rest := by
  rw [scan, hs]
  exact hbody

/-- The length or count in a header. -/
def Header.field : Header ℕ → Option ℕ
  | .scalar _ => none
  | .array n => some n
  | .map n => some n
  | .raw n => some n

/-- The length or count in the header at the front. -/
def lengthField (s : Bytes) : Option ℕ :=
  match scanHeader s with
  | .found header _ => header.field
  | _ => none

/-! ## Half-built values -/

/-- A value in the making: the next item goes into the hole of the frames, where `old` is, or it is
the next key of an object in the hole, or nothing is to come. -/
inductive Building where
  | value (old : JsonTree) (frames : List JsonFrame)
  | key (items : List (Bytes × JsonTree)) (left : ℕ) (frames : List JsonFrame)
  | final (j : JsonTree)
  | error

namespace Building

/-- Nothing is to come. -/
def done : Building → Bool
  | .final _ => true
  | .error => true
  | _ => false

/-- The value in the hole is complete. -/
def rise (j : JsonTree) : List JsonFrame → Building
  | [] => .final j
  | .element before [] :: frames => rise (.array (before ++ [j])) frames
  | .element before (e :: after) :: frames => .value e (.element (before ++ [j]) after :: frames)
  | .member before k after 0 :: frames => rise (.object (before ++ (k, j) :: after)) frames
  | .member before k after (left + 1) :: frames => .key (before ++ (k, j) :: after) left frames

/-- A key of the object in the hole. -/
def insert (items : List (Bytes × JsonTree)) (k : Bytes) (left : ℕ) (frames : List JsonFrame) :
    Building :=
  let (items, i) := getInsert items k
  match items[i]? with
  | none => .error
  | some (k, old) => .value old (.member (items.take i) k (items.drop (i + 1)) left :: frames)

/-- The next item. -/
def accept : Building → Item → Building
  | .value _ frames, .scalar j => rise j frames
  | .value old frames, .array n =>
      match resize old.elements n with
      | [] => rise (.array []) frames
      | e :: elems => .value e (.element [] elems :: frames)
  | .value _ frames, .map 0 => rise (.object []) frames
  | .value _ frames, .map (n + 1) => .key [] n frames
  | .key items left frames, .scalar j =>
      match j.keyString with
      | none => .error
      | some k => insert items k left frames
  | .key _ _ _, _ => .error
  | b, _ => b

/-- A `Json` can take the next item: see `canResize` and `canInsert`.  Any array may have been left
over where a key is to come. -/
def hasRoom : Building → Item → Bool
  | .value old _, .array n => old.canResize n
  | .key _ _ _, .array n => n ≤ 2147467264
  | .key items _ _, .scalar j =>
      match j.keyString with
      | none => true
      | some k => canInsert items k
  | _, _ => true

end Building

/-- A byte string is read item by item, up to a rest. -/
inductive Reads : Building → Bytes → Building → Bytes → Prop where
  | refl (b : Building) (s : Bytes) : Reads b s b s
  | item {b b' : Building} {s rest s' : Bytes} {i : Item} (hb : b.done = false)
      (hs : scan s = .found i rest) (h : Reads (b.accept i) rest b' s') : Reads b s b' s'
  | bad {b : Building} {s : Bytes} (hb : b.done = false) (hs : scan s = .bad) : Reads b s .error s

/-! ## More bytes behind -/

lemma loadBE_append {w : ℕ} {s : Bytes} (t : Bytes) (h : w ≤ s.length) :
    loadBE w (s ++ t) = loadBE w s := by
  rw [loadBE, loadBE, List.take_append_of_le_length h]

lemma loadSignedBE_append {w : ℕ} {s : Bytes} (t : Bytes) (h : w ≤ s.length) :
    loadSignedBE w (s ++ t) = loadSignedBE w s := by
  rw [loadSignedBE, loadSignedBE, loadBE_append t h]

lemma longHeader_append {x : UInt8} {s : Bytes} (t : Bytes) (h0 : nbytes x ≠ 0)
    (h : nbytes x ≤ s.length + 1) : longHeader x (s ++ t) = longHeader x s := by
  rw [nbytes] at h0 h
  rw [longHeader, longHeader]
  split at h0
  all_goals first
    | exact absurd rfl h0
    | (next hx =>
        rw [hx] at h ⊢
        simp only [loadBE_append t (Nat.le_of_succ_le_succ h),
          loadSignedBE_append t (Nat.le_of_succ_le_succ h)])

lemma scanHeader_found_append {s rest : Bytes} {header : Header ℕ} (t : Bytes)
    (h : scanHeader s = .found header rest) : scanHeader (s ++ t) = .found header (rest ++ t) := by
  cases s with
  | nil => cases h
  | cons x s =>
      rw [List.cons_append]
      rw [scanHeader] at h ⊢
      cases hx : shortHeader x with
      | some short =>
          rw [hx] at h
          cases h
          rfl
      | none =>
          rw [hx] at h
          dsimp only at h ⊢
          split_ifs at h with h0 hlen
          cases h
          rw [if_neg h0, if_neg (by rw [List.length_append]; omega),
            longHeader_append t h0 (by omega), List.drop_append_of_le_length (by omega)]

/-- The bytes of a header are a header by themselves. -/
lemma scanHeader_front {s rest : Bytes} {header : Header ℕ}
    (h : scanHeader s = .found header rest) :
    ∃ front, s = front ++ rest ∧ scanHeader front = .found header [] := by
  cases s with
  | nil => cases h
  | cons x s =>
      rw [scanHeader] at h
      cases hx : shortHeader x with
      | some short =>
          rw [hx] at h
          cases h
          exact ⟨[x], rfl, by rw [scanHeader, hx]⟩
      | none =>
          rw [hx] at h
          dsimp only at h
          split_ifs at h with h0 hlen
          cases h
          have htake : (s.take (nbytes x - 1)).length = nbytes x - 1 := by
            rw [List.length_take]
            omega
          refine ⟨x :: s.take (nbytes x - 1), by simp, ?_⟩
          rw [scanHeader, hx]
          dsimp only
          rw [if_neg h0, if_neg (by omega),
            ← longHeader_append (s.drop (nbytes x - 1)) h0 (by omega), List.take_append_drop,
            List.drop_eq_nil_of_le (by omega)]

lemma scanBody_found_append {s rest : Bytes} {header : Header ℕ} {i : Item} (t : Bytes)
    (h : scanBody header s = .found i rest) :
    scanBody header (s ++ t) = .found i (rest ++ t) := by
  cases header with
  | scalar j => cases h; rfl
  | array n => cases h; rfl
  | map n => cases h; rfl
  | raw n =>
      rw [scanBody] at h ⊢
      split_ifs at h with hn
      cases h
      rw [if_neg (by rw [List.length_append]; omega), List.take_append_of_le_length (by omega),
        List.drop_append_of_le_length (by omega)]

/-- An item stays what it is when more bytes come. -/
lemma scan_found_append {s rest : Bytes} {i : Item} (t : Bytes) (h : scan s = .found i rest) :
    scan (s ++ t) = .found i (rest ++ t) := by
  rw [scan] at h ⊢
  cases hs : scanHeader s with
  | short => rw [hs] at h; cases h
  | bad => rw [hs] at h; cases h
  | found header s' =>
      rw [hs] at h
      rw [scanHeader_found_append t hs]
      exact scanBody_found_append t h

lemma scanBody_ne_bad (header : Header ℕ) (s : Bytes) : scanBody header s ≠ .bad := by
  cases header with
  | raw n => rw [scanBody]; split_ifs <;> simp
  | _ => simp [scanBody]

lemma scan_bad_append {s : Bytes} (t : Bytes) (h : scan s = .bad) : scan (s ++ t) = .bad := by
  rw [scan] at h ⊢
  cases s with
  | nil => cases h
  | cons x s =>
      rw [List.cons_append]
      rw [scanHeader] at h ⊢
      cases hx : shortHeader x with
      | some header =>
          rw [hx] at h
          exact absurd h (scanBody_ne_bad header s)
      | none =>
          rw [hx] at h
          dsimp only at h ⊢
          split_ifs at h with h0 hlen
          · rw [if_pos h0]
          · exact absurd h (scanBody_ne_bad _ _)

/-- What has been read stays read when more bytes come. -/
lemma Reads.append {b b' : Building} {s s' : Bytes} (t : Bytes) (h : Reads b s b' s') :
    Reads b (s ++ t) b' (s' ++ t) := by
  induction h with
  | refl b s => exact .refl b _
  | item hb hs _ ih => exact .item hb (scan_found_append t hs) ih
  | bad hb hs => exact .bad hb (scan_bad_append t hs)

lemma Reads.trans {b₁ b₂ b₃ : Building} {s₁ s₂ s₃ : Bytes} (h₁ : Reads b₁ s₁ b₂ s₂)
    (h₂ : Reads b₂ s₂ b₃ s₃) : Reads b₁ s₁ b₃ s₃ := by
  induction h₁ with
  | refl => exact h₂
  | item hb hs _ ih => exact .item hb hs (ih h₂)
  | bad hb hs =>
      cases h₂ with
      | refl => exact .bad hb hs
      | item hb' => cases hb'
      | bad hb' => cases hb'

/-- Reading goes one way: of two readings, one goes on from where the other has come. -/
lemma Reads.linear {b b₁ b₂ : Building} {s s₁ s₂ : Bytes} (h₁ : Reads b s b₁ s₁)
    (h₂ : Reads b s b₂ s₂) : Reads b₁ s₁ b₂ s₂ ∨ Reads b₂ s₂ b₁ s₁ := by
  induction h₁ with
  | refl => exact Or.inl h₂
  | item hb hs h ih =>
      cases h₂ with
      | refl => exact Or.inr (.item hb hs h)
      | item hb' hs' h' =>
          rw [hs] at hs'
          cases hs'
          exact ih h'
      | bad hb' hs' =>
          rw [hs] at hs'
          cases hs'
  | bad hb hs =>
      cases h₂ with
      | refl => exact Or.inr (.bad hb hs)
      | item hb' hs' =>
          rw [hs] at hs'
          cases hs'
      | bad => exact Or.inl (.refl _ _)

lemma Reads.of_done {b b' : Building} {s s' : Bytes} (h : Reads b s b' s') (hb : b.done = true) :
    b' = b ∧ s' = s := by
  cases h with
  | refl => exact ⟨rfl, rfl⟩
  | item hb' => rw [hb] at hb'; cases hb'
  | bad hb' => rw [hb] at hb'; cases hb'

/-! ## What the parser can hold -/

/-- The parser can hold what there is of the next item. -/
structure ItemFits (b : Building) (s : Bytes) : Prop where
  /-- Its length or count is an `int`. -/
  field : ∀ n ∈ lengthField s, n < 2147483648
  /-- What there is of a string can be copied. -/
  copied : ∀ n rest, scanHeader s = .found (.raw n) rest → min n rest.length < 2147483621
  /-- A `Json` can take it. -/
  room : ∀ i rest, scan s = .found i rest → b.hasRoom i = true

/-- `P` holds wherever the reading of `s` comes to before it is done. -/
def Throughout (P : Building → Bytes → Prop) (b : Building) (s : Bytes) : Prop :=
  ∀ b' s', Reads b s b' s' → b'.done = false → P b' s'

/-- The parser can hold every item of `s`. -/
def LengthsFit (b : Building) (s : Bytes) : Prop := Throughout ItemFits b s

namespace Throughout

variable {P : Building → Bytes → Prop} {b b' : Building} {s s' : Bytes}

lemma of_done (hb : b.done = true) : Throughout P b s := by
  intro b' s' hr hb'
  rw [(hr.of_done hb).1, hb] at hb'
  cases hb'

lemma of_item {rest : Bytes} {i : Item} (hs : scan s = .found i rest) (hP : P b s)
    (h : Throughout P (b.accept i) rest) : Throughout P b s := by
  intro b' s' hr hb'
  cases hr with
  | refl => exact hP
  | item _ hs' hr' =>
      rw [hs] at hs'
      cases hs'
      exact h b' s' hr' hb'
  | bad => cases hb'

lemma of_reads (h : Throughout P b s) (hr : Reads b s b' s') : Throughout P b' s' :=
  fun _ _ hr' => h _ _ (hr.trans hr')

lemma head (h : Throughout P b s) (hb : b.done = false) : P b s := h b s (.refl b s) hb

end Throughout

/-- An item of which the header is there. -/
lemma ItemFits.of_header {b : Building} {s rest : Bytes} {header : Header ℕ}
    (hs : scanHeader s = .found header rest) (hfield : ∀ n ∈ header.field, n < 2147483621)
    (hroom : ∀ i rest', scanBody header rest = .found i rest' → b.hasRoom i = true) :
    ItemFits b s where
  field n hn := by
    rw [lengthField, hs] at hn
    exact (hfield n hn).trans (by decide)
  copied n rest' hs' := by
    rw [hs] at hs'
    cases hs'
    exact (Nat.min_le_left _ _).trans_lt (hfield n rfl)
  room i rest' hi := by
    rw [scan, hs] at hi
    exact hroom i rest' hi

/-- Fewer bytes fit where more do. -/
lemma ItemFits.of_append {b : Building} {s t : Bytes} (h : ItemFits b (s ++ t)) : ItemFits b s where
  field n hn := by
    refine h.field n ?_
    rw [lengthField] at hn ⊢
    cases hs : scanHeader s with
    | short => rw [hs] at hn; cases hn
    | bad => rw [hs] at hn; cases hn
    | found header rest =>
        rw [hs] at hn
        rw [scanHeader_found_append t hs]
        exact hn
  copied n rest hs := by
    have hmin := h.copied n (rest ++ t) (scanHeader_found_append t hs)
    rw [List.length_append] at hmin
    omega
  room i rest hs := h.room i (rest ++ t) (scan_found_append t hs)

lemma LengthsFit.of_append {b : Building} {s t : Bytes} (h : LengthsFit b (s ++ t)) :
    LengthsFit b s :=
  fun _ _ hr hb' => (h _ _ (hr.append t) hb').of_append

end Msgpack

end MasstreeLHM
