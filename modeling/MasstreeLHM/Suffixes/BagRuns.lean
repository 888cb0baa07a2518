import MasstreeLHM.Suffixes.Stringbag
import Mathlib.Logic.Function.Basic

/-!
# Runs of a string bag

What a bag says after any sequence of assignments.  The offset type has no value for the end of a
bag of `max_size()` bytes: when a string fills such a bag up, `size_` starts again at 0, in the
header.

`Keeps` says that a bag holds given strings between its header and its end, and `KeepsThroughout`
that it does so after each of some calls, where a call that fails changes nothing and no call makes
the bag less full.  `EndsInside` is the condition on a call: it uses an old place, or fails, or
appends a string that ends in front of offset `max_size()`.

`Inv` holds as long as all calls end inside.  **`Inv.call`** keeps it, and `Inv.call_outside` says
that a call that does not end inside is seen at once.  **`keepsThroughout_iff`** puts both together
along a run, for every bag that the constructor admits.  A bag whose header takes all of it
(`AllHeader`) is a case of its own.
-/

namespace MasstreeLHM.Stringbag

variable {w : ℕ}

/-- `max_size`. -/
def maxSize (w : ℕ) : ℕ := 256 ^ w

/-- `used_capacity`. -/
def usedCapacity (b : Stringbag w) : ℕ := b.size

/-- A call of `assign`, with its result. -/
def call (b : Stringbag w) (c : ℕ × Bytes) : Bool × Stringbag w :=
  match b.assign c.1 c.2 with
  | some b => (true, b)
  | none => (false, b)

/-- The strings that have been assigned last. -/
def record (f : ℕ → Bytes) (b : Stringbag w) (c : ℕ × Bytes) : ℕ → Bytes :=
  if (b.call c).1 then Function.update f c.1 c.2 else f

/-- The bag holds the strings `f`, between its header and its end. -/
structure Keeps (width cap : ℕ) (b : Stringbag w) (f : ℕ → Bytes) : Prop where
  capacity : b.capacity = cap
  used : b.usedCapacity ≤ cap
  get : ∀ q < width, b.get q = f q
  within : ∀ q < width, b.get q = [] ∨ (overhead w width ≤ (b.info.getD q (0, 0)).1 ∧
    (b.info.getD q (0, 0)).1 + (b.get q).length ≤ cap)

/-- It does so after each of the calls, a call that fails changes nothing, and no call makes the bag
less full. -/
def KeepsThroughout (width cap : ℕ) : Stringbag w → (ℕ → Bytes) → List (ℕ × Bytes) → Prop
  | b, f, [] => b.Keeps width cap f
  | b, f, c :: cs => b.Keeps width cap f ∧ ((b.call c).1 = false → (b.call c).2 = b) ∧
      b.usedCapacity ≤ (b.call c).2.usedCapacity ∧
      KeepsThroughout width cap (b.call c).2 (record f b c) cs

/-- The call uses the place of the string before, or fails, or appends behind the header a string
that ends before offset `max_size()`. -/
def EndsInside (width : ℕ) (b : Stringbag w) (c : ℕ × Bytes) : Prop :=
  c.2.length ≤ (b.get c.1).length ∨ b.capacity < b.size + max c.2.length 8 ∨
    (overhead w width ≤ b.size ∧ b.size + c.2.length < maxSize w)

/-- All calls of a run do so. -/
def EndInside (width : ℕ) : Stringbag w → List (ℕ × Bytes) → Prop
  | _, [] => True
  | b, c :: cs => b.EndsInside width c ∧ EndInside width (b.call c).2 cs

/-- A bag whose header takes all of it, with no string. -/
structure AllHeader (width : ℕ) (b : Stringbag w) : Prop where
  overhead : overhead w width = maxSize w
  size : b.size = 0
  length : b.info.length = width
  empty : ∀ q, (b.info.getD q (0, 0)).2 = 0

variable {width cap : ℕ} {b : Stringbag w} {f : ℕ → Bytes} {c : ℕ × Bytes}

@[simp] lemma length_get (b : Stringbag w) (q : ℕ) :
    (b.get q).length = (b.info.getD q (0, 0)).2 := by
  simp [get]

/-- What holds in a run as long as its calls end inside. -/
structure Inv (width cap : ℕ) (b : Stringbag w) (f : ℕ → Bytes) : Prop where
  bag : b.Sound width ∨ b.AllHeader width
  capacity : b.capacity = cap
  get : ∀ q < width, b.get q = f q

lemma Inv.keeps (h : Inv width cap b f) : b.Keeps width cap f := by
  refine ⟨h.capacity, ?_, h.get, fun q _ => ?_⟩
  · rw [usedCapacity, ← h.capacity]
    rcases h.bag with hb | hb
    · exact hb.size_le
    · rw [hb.size]
      exact Nat.zero_le _
  · rcases h.bag with hb | hb
    · rcases hb.header.2 q with h0 | h0
      · exact Or.inl (List.eq_nil_of_length_eq_zero ((length_get b q).trans h0))
      · refine Or.inr ⟨h0, ?_⟩
        rw [length_get, ← h.capacity]
        exact (hb.within q).trans hb.size_le
    · exact Or.inl (List.eq_nil_of_length_eq_zero ((length_get b q).trans (hb.empty q)))

/-- **A call that ends inside** keeps the bag in order. -/
lemma Inv.call (h : Inv width cap b f) (hp : c.1 < width) (hc : b.EndsInside width c) :
    Inv width cap (b.call c).2 (record f b c) ∧ b.usedCapacity ≤ (b.call c).2.usedCapacity := by
  rw [record, Stringbag.call]
  cases ha : b.assign c.1 c.2 with
  | none => exact ⟨h, le_rfl⟩
  | some b' =>
      have hget : ∀ q < width, (∀ q, q ≠ c.1 → b'.get q = b.get q) → b'.get c.1 = c.2 →
          b'.get q = Function.update f c.1 c.2 q := by
        intro q hq hother hnew
        by_cases hqc : q = c.1
        · rw [hqc, Function.update_self, hnew]
        · rw [Function.update_of_ne hqc, hother q hqc, h.get q hq]
      rcases h.bag with hb | hb
      · have hend : c.2.length ≤ (b.info.getD c.1 (0, 0)).2 ∨ b.size + c.2.length < 256 ^ w := by
          rcases hc with h1 | h1 | h1
          · exact Or.inl ((length_get b c.1) ▸ h1)
          · rw [assign] at ha
            split_ifs at ha with h2 h3
            · exact Or.inl h2
            · omega
          · exact Or.inr h1.2
        obtain ⟨g1, g2, g3, g4, g5, -⟩ := hb.assign hp ha hend
        exact ⟨⟨Or.inl g1, g4.trans h.capacity, fun q hq => hget q hq g3 g2⟩, g5⟩
      · have hnil : c.2 = [] := by
          refine List.eq_nil_of_length_eq_zero (Nat.eq_zero_of_not_pos fun hpos => ?_)
          have hlen := hb.empty c.1
          have hover := hb.overhead
          have hmax : 0 < maxSize w := Nat.pow_pos (by decide)
          rcases hc with h1 | h1 | h1
          · rw [length_get, hlen] at h1
            exact absurd hpos (Nat.not_lt.mpr h1)
          · rw [assign, if_neg (by omega), if_neg (Nat.not_le.mpr h1)] at ha
            cases ha
          · have := hb.size
            omega
        rw [assign, hnil, if_pos (show ([] : Bytes).length ≤ _ from Nat.zero_le _),
          Option.some.injEq] at ha
        subst ha
        have hinfo := info_set hb.length hp
        have hempty :
          ∀ q, ((b.place c.1 (b.info.getD c.1 (0, 0)).1 b.size []).info.getD q (0, 0)).2 = 0 := by
          intro q
          rw [place, hinfo]
          split_ifs
          · exact Nat.zero_mod _
          · exact hb.empty q
        have hnew : ∀ q, (b.place c.1 (b.info.getD c.1 (0, 0)).1 b.size []).get q = [] := fun q =>
          List.eq_nil_of_length_eq_zero ((length_get _ q).trans (hempty q))
        refine ⟨⟨Or.inr ⟨hb.overhead, hb.size, ?_, hempty⟩, h.capacity,
          fun q hq => hget q hq (fun r _ => ?_)
          ((hnew c.1).trans hnil.symm)⟩, le_rfl⟩
        · rw [place, List.length_set]
          exact hb.length
        · rw [hnew r]
          exact (List.eq_nil_of_length_eq_zero ((length_get b r).trans (hb.empty r))).symm

/-- **A call that does not** is seen at once: the bag looks less full, or a string is not where it
should be. -/
lemma Inv.call_outside (h : Inv width cap b f) (hw : 0 < w) (hcap : cap ≤ maxSize w)
    (hp : c.1 < width) (hc : ¬ b.EndsInside width c) :
    ¬ b.usedCapacity ≤ (b.call c).2.usedCapacity ∨
      ¬ (b.call c).2.Keeps width cap (record f b c) := by
  obtain ⟨p, a⟩ := c
  simp only [EndsInside, length_get, not_or, Nat.not_le, Nat.not_lt] at hc
  obtain ⟨h1, h2, h3⟩ := hc
  have hfit := h.capacity ▸ hcap
  have hcall : b.call (p, a) = (true, b.place p b.size ((b.size + a.length) % 256 ^ w) a) := by
    rw [Stringbag.call, assign, if_neg (Nat.not_le.mpr h1), if_pos h2]
  rw [record, hcall, if_pos rfl]
  rcases h.bag with hb | hb
  · refine Or.inl (Nat.not_le.mpr ?_)
    have hhead := hb.header.1
    have hpos : 0 < overhead w width := by
      rw [overhead]
      omega
    have hfull : b.size + a.length = 256 ^ w := by
      have : ¬ b.size + a.length < maxSize w := fun h0 => h3 ⟨hhead, h0⟩
      rw [maxSize] at this hfit
      omega
    change (b.size + a.length) % 256 ^ w < b.size
    rw [hfull, Nat.mod_self]
    omega
  · refine Or.inr fun hk => ?_
    have hget := hk.get p hp
    rw [Function.update_self] at hget
    have hinfo : (b.place p b.size ((b.size + a.length) % 256 ^ w) a).info.getD p (0, 0)
        = (b.size % 256 ^ w, a.length % 256 ^ w) := by
      rw [place, info_set hb.length hp, if_pos rfl]
    have hlen := length_get (b.place p b.size ((b.size + a.length) % 256 ^ w) a) p
    rw [hget, hinfo] at hlen
    rcases hk.within p hp with h0 | h0
    · rw [hget] at h0
      change a = [] at h0
      rw [h0] at h1
      exact absurd h1 (Nat.not_lt_zero _)
    · rw [hinfo, hb.overhead, hb.size, Nat.zero_mod] at h0
      exact absurd h0.1 (Nat.not_le.mpr (Nat.pow_pos (by decide)))

lemma KeepsThroughout.head {cs : List (ℕ × Bytes)} (h : KeepsThroughout width cap b f cs) :
    b.Keeps width cap f := by
  cases cs with
  | nil => exact h
  | cons c cs => exact h.1

lemma Inv.run (h : Inv width cap b f) (hw : 0 < w) (hcap : cap ≤ maxSize w) (cs : List (ℕ × Bytes))
    (hp : ∀ c ∈ cs, c.1 < width) : KeepsThroughout width cap b f cs ↔ b.EndInside width cs := by
  induction cs generalizing b f with
  | nil => exact iff_of_true h.keeps trivial
  | cons c cs ih =>
      have hc := hp c List.mem_cons_self
      constructor
      · rintro ⟨-, -, h1, h2⟩
        have hin : b.EndsInside width c := by
          by_contra hout
          rcases h.call_outside hw hcap hc hout with h3 | h3
          · exact h3 h1
          · exact h3 h2.head
        exact ⟨hin, (ih (h.call hc hin).1 fun c' hc' => hp c' (List.mem_cons_of_mem _ hc')).mp h2⟩
      · rintro ⟨h1, h2⟩
        obtain ⟨g1, g2⟩ := h.call hc h1
        refine ⟨h.keeps, fun hfail => ?_, g2,
          (ih g1 fun c' hc' => hp c' (List.mem_cons_of_mem _ hc')).mpr h2⟩
        rw [Stringbag.call] at hfail ⊢
        cases ha : b.assign c.1 c.2 with
        | none => rfl
        | some b' =>
            rw [ha] at hfail
            cases hfail

/-- A new bag. -/
lemma inv_make (hw : 0 < w) (hb : make w width cap = some b) :
    Inv width cap b (fun _ => []) ∧ cap ≤ maxSize w := by
  have hb' := hb
  rw [make] at hb
  split_ifs at hb with h
  have hpos : 0 < overhead w width := by
    rw [overhead]
    omega
  refine ⟨?_, h.2⟩
  by_cases hlt : overhead w width < 256 ^ w
  · obtain ⟨g1, g2, -, g4⟩ := make_sound hb' (hpos.trans_le h.1) hlt
    exact ⟨Or.inl g1, g2, fun q _ => g4 q⟩
  · have hfull : overhead w width = 256 ^ w := by omega
    have hcap : cap = 256 ^ w := by omega
    have hmod : (cap - 1) % 256 ^ w + 1 = cap := by
      rw [Nat.mod_eq_of_lt (by omega)]
      omega
    obtain rfl : _ = b := by simpa using hb
    have hempty : ∀ q, ((List.replicate width ((0, 0) : ℕ × ℕ)).getD q (0, 0)).2 = 0 := fun q => by
      rw [getD_replicate]
    refine ⟨Or.inr ⟨hfull, ?_, List.length_replicate, hempty⟩, hmod, fun q _ => ?_⟩
    · change overhead w width % 256 ^ w = 0
      rw [hfull, Nat.mod_self]
    · exact List.eq_nil_of_length_eq_zero ((length_get _ q).trans (hempty q))

/-- **The strings of a bag.**  For every bag that the constructor admits and every sequence of
assignments, the bag holds the strings assigned last, between its header and its end, fails without
a trace and never looks less full, if and only if every call ends inside. -/
theorem keepsThroughout_iff (w width cap : ℕ) (hw : w = 1 ∨ w = 2) (b : Stringbag w)
    (hb : make w width cap = some b) (cs : List (ℕ × Bytes)) (hp : ∀ c ∈ cs, c.1 < width) :
    KeepsThroughout width cap b (fun _ => []) cs ↔ b.EndInside width cs := by
  have hw' : 0 < w := by omega
  obtain ⟨h1, h2⟩ := inv_make hw' hb
  exact h1.run hw' h2 cs hp

/-- A string, and a shorter one in its place. -/
theorem keepsThroughout_shorter : ∃ b : Stringbag 1, make 1 2 100 = some b ∧
    KeepsThroughout 2 100 b (fun _ => []) [(0, [1, 2, 3]), (0, [4])] := by
  have hb : make 1 2 100 = some (_ : Stringbag 1) := rfl
  refine ⟨_, hb, (keepsThroughout_iff 1 2 100 (Or.inl rfl) _ hb _ (by decide)).mpr ?_⟩
  exact ⟨Or.inr (Or.inr ⟨by decide, by decide⟩), Or.inl (by decide), trivial⟩

/-- A string of 252 bytes fills a bag of `max_size()` bytes, which looks empty afterwards. -/
theorem not_keepsThroughout_full :
    ¬ ∀ (width cap : ℕ) (b : Stringbag 1), make 1 width cap = some b →
    ∀ cs : List (ℕ × Bytes), (∀ c ∈ cs, c.1 < width) →
    KeepsThroughout width cap b (fun _ => []) cs := by
  intro h
  have hb : make 1 1 256 = some (_ : Stringbag 1) := rfl
  obtain ⟨h1, h2⟩ := inv_make Nat.one_pos hb
  obtain ⟨a, ha⟩ : ∃ a : Bytes, a.length = 252 := ⟨List.replicate 252 7, List.length_replicate⟩
  have hcalls : ∀ c ∈ [((0, a) : ℕ × Bytes)], c.1 < 1 := fun c hc => by
    rw [List.mem_singleton.mp hc]
    exact Nat.one_pos
  obtain ⟨h3, -⟩ := (h1.run Nat.one_pos h2 _ hcalls).mp (h 1 256 _ hb _ hcalls)
  simp only [EndsInside, length_get, ha] at h3
  exact absurd h3 (by decide)

end MasstreeLHM.Stringbag
