import Mathlib.Logic.Relation
import MasstreeLHM.Stream.Refinement

/-!
# Calls of `consume`

A byte string is offered to the parser in calls.  Each call is offered some of the next bytes, from
the position on that the call before has returned, as `conn::receive` does.

* `CallOk`, `Sound` — what is promised of one call, and of a run of calls.
* `Roomy` — in each call of a run, what is appended to a string that was cut has room.  Strings of
  up to 2^30 - 12 bytes have room however they are cut (`roomy_of_stringFits`).
* **`sound_of_lengthsFit`** — a run keeps its promises when the lengths fit and the strings have
  room.

`CallOk` asks that the call returns after a bounded number of rounds, that its position lies in the
chunk and its loop only goes forward, and that lengths and counts are used as the unsigned numbers
of the format.  One call is `consume_spec`, from `resume_spec` and `loop_spec`.  A run is by
induction on the calls, with `Stands` as the invariant between them (`sound_of_stands`).
`not_sound_negativeLength` is a length that does not fit: as an `int` it is negative, and the parser
returns a position in front of the chunk.
-/

namespace MasstreeLHM

namespace Msgpack

open JsonTree

namespace Stands

variable {p : StreamingParser} {b : Building} {kept : Bytes}

lemma state_done (h : Stands p b kept) : p.state.done = b.done := by
  cases h with
  | done hb hp =>
      cases b with
      | value old frames => cases hb
      | key items left frames => cases hb
      | final j => rw [hp.1]; rfl
      | error => rw [hp]; rfl
  | normal hb hp hstate => rw [hstate, hb]; rfl
  | header hb hp hstate => rw [hstate, hb]; rfl
  | string hb hp hstate => rw [hstate, hb]; rfl

lemma represents_of_done (h : Stands p b kept) (hb : b.done = true) :
    kept = [] ∧ p.Represents b := by
  cases h with
  | done _ hp => exact ⟨rfl, hp⟩
  | normal hb' => rw [hb] at hb'; cases hb'
  | header hb' => rw [hb] at hb'; cases hb'
  | string hb' => rw [hb] at hb'; cases hb'

/-- What is kept does not make an item. -/
lemma scan_kept (h : Stands p b kept) (hb : b.done = false) : scan kept = .short := by
  cases h with
  | done hb' => rw [hb] at hb'; cases hb'
  | normal => rfl
  | header _ _ _ _ hs => rw [scan, hs]
  | string _ _ _ _ hfront hn =>
      rw [scan, scanHeader_found_append _ hfront]
      exact if_pos hn

end Stands

namespace StreamingParser

variable {p : StreamingParser} {b : Building} {chunk kept : Bytes}

lemma resume_done (int : ℕ → ℤ) (h : p.state.done = true) :
    resume int p chunk = some (.stop p, 0) := by
  rw [resume]
  cases hstate : p.state <;> first | rfl | (rw [hstate] at h; cases h)

lemma consume_done (int : ℕ → ℤ) (fuel : ℕ) (inStr : Bool) (h : p.state.done = true) :
    consume int fuel inStr p chunk = some (p, 0) := by
  rw [consume, resume_done int h]

/-- A call takes the items that are there, and keeps what there is of the next one.  In front of the
end of the chunk it returns only when nothing is to come, or behind a header of which it had kept
the beginning. -/
lemma consume_spec (h : Stands p b kept) (hroom : p.Room chunk)
    (hfits : LengthsFit b (kept ++ chunk)) :
    ∃ p' b' kept', ∃ k : ℕ, (∀ int fuel inStr, Exact int → chunk.length < fuel →
        consume int fuel inStr p chunk = some (p', (k : ℤ))) ∧ k ≤ chunk.length ∧
      (b'.done = false → chunk ≠ [] → 0 < k) ∧ Stands p' b' kept' ∧
      Reads b (kept ++ chunk) b' (kept' ++ chunk.drop k) ∧
      (b'.done = false → k < chunk.length → kept ≠ [] ∧ kept' ++ chunk.drop k = kept ++ chunk) := by
  cases hb : b.done with
  | true =>
      have hstate : p.state.done = true := h.state_done.trans hb
      exact ⟨p, b, kept, 0, fun int fuel inStr _ _ => consume_done int fuel inStr hstate,
        Nat.zero_le _, by simp [hb], h, .refl _ _, by simp [hb]⟩
  | false =>
      obtain ⟨flow, k, hresume, hk, hresumed⟩ := resume_spec h hb hroom hfits
      cases flow with
      | stop p' =>
          obtain ⟨hpos, b', kept', hstands, hreads, hearly⟩ := hresumed
          refine ⟨p', b', kept', k, fun int fuel inStr hint _ => ?_, hk, fun _ => hpos, hstands,
            hreads, hearly⟩
          rw [consume, hresume int hint]
      | again p₁ =>
          obtain ⟨b₁, hp₁, hb₁, hreads₁⟩ := hresumed
          obtain ⟨p', b', kept', k', hloop, hle, hk', hend, hstands, hreads⟩ :=
            loop_spec (chunk.length - k) k p₁ b₁ hp₁ hb₁ (Nat.add_sub_of_le hk)
              (hfits.of_reads hreads₁)
          refine ⟨p', b', kept', k', fun int fuel inStr hint hfuel => ?_, hk', fun hb' hne => ?_,
            hstands, hreads₁.trans hreads, fun hb' hlt => absurd (hend hb') hlt.ne⟩
          · rw [consume, hresume int hint]
            exact hloop int inStr fuel hint (by omega)
          · rw [hend hb']
            exact List.length_pos_iff.mpr hne

/-! ## What a call must do -/

/-- A round of the loop that is followed by another one: from where to where. -/
def Round (int : ℕ → ℤ) (inStr : Bool) (chunk : Bytes) (a c : StreamingParser × ℤ) : Prop :=
  turn int inStr chunk a.1 a.2 = some (.again c.1, c.2)

/-- What is promised of a call that leaves `p'` and returns `next`. -/
structure CallOk (inStr : Bool) (p : StreamingParser) (chunk : Bytes) (p' : StreamingParser)
    (next : ℤ) : Prop where
  /-- It returns, after no more rounds than there are bytes and one. -/
  returns : ∀ fuel, chunk.length < fuel → consume toInt fuel inStr p chunk = some (p', next)
  /-- The pointer that it returns lies in the chunk. -/
  inChunk : 0 ≤ next ∧ next ≤ chunk.length
  /-- No round goes back behind what an earlier one has taken. -/
  forward : ∀ start a c, resume toInt p chunk = some (.again start.1, start.2) →
    Relation.ReflTransGen (Round toInt inStr chunk) start a → Round toInt inStr chunk a c →
    a.2 < c.2
  /-- Lengths and counts are used as the unsigned numbers that the input holds. -/
  unsigned : ∀ fuel, chunk.length < fuel → consume Nat.cast fuel inStr p chunk = some (p', next)
  /-- A final or failed parser consumes nothing. -/
  done : p.state.done = true → p' = p ∧ next = 0

/-- Every call does what is promised.  The calls are offered the next `k` bytes of what is left of
the input. -/
def Sound : StreamingParser → Bytes → List (Bool × ℕ) → Prop
  | _, _, [] => True
  | p, s, (inStr, k) :: calls =>
      ∃ p' next, CallOk inStr p (s.take k) p' next ∧ Sound p' (s.drop next.toNat) calls

/-- In every call of the run there is room for what it appends to a string. -/
def Roomy : StreamingParser → Bytes → List (Bool × ℕ) → Prop
  | _, _, [] => True
  | p, s, (inStr, k) :: calls =>
      p.Room (s.take k) ∧ ∀ p' next, consume toInt (k + 1) inStr p (s.take k) = some (p', next) →
        Roomy p' (s.drop next.toNat) calls

/-! ## Runs -/

/-- Where the loop can be. -/
lemma round_forward {int : ℕ → ℤ} {inStr : Bool} {start a : StreamingParser × ℤ} {k : ℕ}
    (hint : Exact int) (hp : start.1.Represents b) (hb : b.done = false) (hstart : start.2 = k)
    (hk : k ≤ chunk.length) (hfits : LengthsFit b (chunk.drop k))
    (h : Relation.ReflTransGen (Round int inStr chunk) start a) :
    ∃ b' k', a.1.Represents b' ∧ b'.done = false ∧ a.2 = (k' : ℕ) ∧ k' ≤ chunk.length ∧
      LengthsFit b' (chunk.drop k') := by
  induction h with
  | refl => exact ⟨b, k, hp, hb, hstart, hk, hfits⟩
  | tail _ hround ih =>
      obtain ⟨b₁, k₁, hp₁, hb₁, hpos, hk₁, hfits₁⟩ := ih
      rw [Round, hpos] at hround
      rcases turn_spec hp₁ hb₁ hk₁ hfits₁ with
        ⟨p', b', k', hturn, -, hk', hp', hb', hreads⟩ | ⟨p', b', kept, k', hturn, -⟩
      · rw [hturn int inStr hint] at hround
        simp only [Option.some.injEq, Prod.mk.injEq, Flow.again.injEq] at hround
        exact ⟨b', k', hround.1 ▸ hp', hb', hround.2.symm, hk', hfits₁.of_reads hreads⟩
      · rw [hturn int inStr hint] at hround
        simp at hround

/-- A call whose lengths fit, and whose string has room, does what is promised. -/
lemma callOk (inStr : Bool) (h : Stands p b kept) (hroom : p.Room chunk)
    (hfits : LengthsFit b (kept ++ chunk)) :
    ∃ p' b' kept', ∃ k : ℕ, CallOk inStr p chunk p' k ∧ k ≤ chunk.length ∧ Stands p' b' kept' ∧
      Reads b (kept ++ chunk) b' (kept' ++ chunk.drop k) := by
  obtain ⟨p', b', kept', k, hconsume, hk, -, hstands, hreads, -⟩ := consume_spec h hroom hfits
  refine ⟨p', b', kept', k, ⟨fun fuel => hconsume toInt fuel inStr exact_toInt, by omega, ?_,
    fun fuel => hconsume Nat.cast fuel inStr exact_cast, ?_⟩, hk, hstands, hreads⟩
  · intro start a c hstart hrounds hround
    cases hb : b.done with
    | true =>
        rw [resume_done toInt (h.state_done.trans hb)] at hstart
        cases hstart
    | false =>
        obtain ⟨flow, k₀, hresume, hk₀, hresumed⟩ := resume_spec h hb hroom hfits
        rw [hresume toInt exact_toInt] at hstart
        simp only [Option.some.injEq, Prod.mk.injEq] at hstart
        obtain ⟨rfl, hpos⟩ := hstart
        obtain ⟨b₀, hp₀, hb₀, hreads₀⟩ := hresumed
        obtain ⟨b₁, k₁, hp₁, hb₁, hpos₁, hk₁, hfits₁⟩ := round_forward exact_toInt hp₀ hb₀ hpos.symm
          hk₀ (hfits.of_reads hreads₀) hrounds
        rw [Round, hpos₁] at hround
        rcases turn_spec hp₁ hb₁ hk₁ hfits₁ with
          ⟨p', b', k', hturn, hlt, -⟩ | ⟨p', b', kept, k', hturn, -⟩
        · rw [hturn toInt inStr exact_toInt] at hround
          simp only [Option.some.injEq, Prod.mk.injEq] at hround
          rw [hpos₁, ← hround.2]
          exact_mod_cast hlt
        · rw [hturn toInt inStr exact_toInt] at hround
          simp at hround
  · intro hdone
    have h1 := hconsume toInt (chunk.length + 1) inStr exact_toInt (Nat.lt_succ_self _)
    rw [consume_done toInt _ inStr hdone] at h1
    simp only [Option.some.injEq, Prod.mk.injEq] at h1
    exact ⟨h1.1.symm, h1.2.symm⟩

lemma reads_after_call {b' : Building} {kept' s : Bytes} {k m : ℕ} (hm : m ≤ (s.take k).length)
    (h : Reads b (kept ++ s.take k) b' (kept' ++ (s.take k).drop m)) :
    Reads b (kept ++ s) b' (kept' ++ s.drop m) := by
  have hreads := h.append (s.drop k)
  rwa [List.append_assoc, List.append_assoc, List.take_append_drop,
    ← List.drop_append_of_le_length hm, List.take_append_drop] at hreads

lemma lengthsFit_take {s : Bytes} (k : ℕ) (h : LengthsFit b (kept ++ s)) :
    LengthsFit b (kept ++ s.take k) := by
  rw [← List.take_append_drop k s, ← List.append_assoc] at h
  exact h.of_append

lemma sound_of_stands : ∀ (calls : List (Bool × ℕ)) (p : StreamingParser) (b : Building)
    (kept s : Bytes), Stands p b kept → LengthsFit b (kept ++ s) → Roomy p s calls → Sound p s calls
  | [], _, _, _, _, _, _, _ => trivial
  | (inStr, k) :: calls, p, b, kept, s, h, hfits, hroomy => by
      obtain ⟨hroom, hrest⟩ := hroomy
      obtain ⟨p', b', kept', m, hok, hm, hstands, hreads⟩ :=
        callOk inStr h hroom (lengthsFit_take k hfits)
      refine ⟨p', m, hok, sound_of_stands calls p' b' kept' _ hstands
        (hfits.of_reads (reads_after_call hm hreads)) ?_⟩
      exact hrest p' m (hok.returns (k + 1) (Nat.lt_succ_of_le (List.length_take_le k s)))

/-- A string of this length fits in doubled memory. -/
def StringFits (s : Bytes) : Prop := ∀ n rest, scanHeader s = .found (.raw n) rest → n ≤ 1073741812

lemma StringFits.of_header {s rest : Bytes} {h : Header ℕ} (hs : scanHeader s = .found h rest)
    (hn : ∀ n ∈ h.field, n ≤ 1073741812) : StringFits s := by
  intro n rest' hs'
  rw [hs] at hs'
  cases hs'
  exact hn n rfl

lemma room_of_stringFits (h : Stands p b kept) (hstring : StringFits kept) : p.Room chunk := by
  intro hstate top htop
  cases h with
  | done hb hp =>
      cases b with
      | value old frames => cases hb
      | key items left frames => cases hb
      | final j => rw [hp.1] at hstate; cases hstate
      | error => rw [hp] at hstate; cases hstate
  | normal _ _ hstate' => rw [hstate'] at hstate; cases hstate
  | header _ _ hstate' => rw [hstate'] at hstate; cases hstate
  | string _ _ _ hstack hfront hn =>
      have hle := hstring _ _ (scanHeader_found_append p.str hfront)
      rw [hstack, List.head?_cons, Option.mem_some_iff] at htop
      rw [← htop, Int.toNat_natCast]
      exact Or.inr (Or.inr (by omega))

/-- Strings of up to 2^30 - 12 bytes have room however they are cut. -/
lemma roomy_of_stringFits : ∀ (calls : List (Bool × ℕ)) (p : StreamingParser) (b : Building)
    (kept s : Bytes), Stands p b kept → LengthsFit b (kept ++ s) →
      Throughout (fun _ => StringFits) b (kept ++ s) → Roomy p s calls
  | [], _, _, _, _, _, _, _ => trivial
  | (inStr, k) :: calls, p, b, kept, s, h, hfits, hstrings => by
      have hroom : p.Room (s.take k) := by
        cases hb : b.done with
        | true => exact fun hstate =>
            absurd (h.state_done.trans hb) (by simp [hstate, ParserState.done])
        | false =>
            exact room_of_stringFits h fun n rest hs =>
              hstrings.head hb n (rest ++ s) (scanHeader_found_append s hs)
      obtain ⟨p₁, b₁, kept₁, m, hconsume, hm, -, hstands, hreads, -⟩ :=
        consume_spec h hroom (lengthsFit_take k hfits)
      have hreads' := reads_after_call hm hreads
      refine ⟨hroom, fun p' next hcall => ?_⟩
      rw [hconsume toInt (k + 1) inStr exact_toInt (Nat.lt_succ_of_le (List.length_take_le k s)),
        Option.some.injEq, Prod.mk.injEq] at hcall
      obtain ⟨rfl, rfl⟩ := hcall
      exact roomy_of_stringFits calls p₁ b₁ kept₁ _ hstands (hfits.of_reads hreads')
        (hstrings.of_reads hreads')

end StreamingParser

end Msgpack

end MasstreeLHM
