import MasstreeLHM.Stream.Unparse

/-!
# Values come back from any chunks

The bytes of a value are cut into chunks.  A call can return in front of the end of its chunk
without being done: behind the header of a string that an earlier chunk had split.  The rest of the
chunk is then offered again, as the loop of `conn::receive` does.

A string that is cut is put together in `str_`, and that works for up to 2^30 - 12 bytes
(`CutStringsFit`).  Strings inside which no chunk begins can be as long as a `Json` can hold.

`offer` is the loop of `conn::receive` on one chunk and `feed` that over many.  `offerRounds_spec`
says that a chunk is used up, with `Stands` before and behind, and `feed_spec` is the induction
over the chunks.  **`feed_unparse`** starts it with `passes_unparse`: the parser takes
exactly the bytes of the value, however they are cut and whatever is behind them, and its result is
an equal value.  `not_feed_callOnce` shows that the loop is needed: with one call for each chunk,
what is behind a split header is lost.
-/

namespace MasstreeLHM

namespace Msgpack

open JsonTree

namespace StreamingParser

variable {p : StreamingParser} {b : Building} {chunk kept : Bytes}

/-- One call of `consume` on a chunk. -/
def callOnce (inStr : Bool) (p : StreamingParser) (chunk : Bytes) : Option (StreamingParser × ℤ) :=
  consume toInt (chunk.length + 1) inStr p chunk

/-- Calls of `consume` until the parser is done or the chunk is used up, at most `rounds` of
them. -/
def offerRounds (inStr : Bool) : ℕ → StreamingParser → Bytes → Option (StreamingParser × ℤ)
  | 0, _, _ => none
  | rounds + 1, p, chunk =>
      match callOnce inStr p chunk with
      | none => none
      | some (p, next) =>
          if p.state.done || (chunk.drop next.toNat).isEmpty then some (p, next)
          else (offerRounds inStr rounds p (chunk.drop next.toNat)).map fun r => (r.1, next + r.2)

/-- The loop of `conn::receive` on a chunk: the parser behind it, and the number of bytes that were
consumed. -/
def offer (inStr : Bool) (p : StreamingParser) (chunk : Bytes) : Option (StreamingParser × ℤ) :=
  offerRounds inStr (chunk.length + 1) p chunk

/-- The chunks one after another. -/
def feed (call : Bool → StreamingParser → Bytes → Option (StreamingParser × ℤ)) :
    StreamingParser → List (Bool × Bytes) → Option (StreamingParser × ℤ)
  | p, [] => some (p, 0)
  | p, (inStr, chunk) :: chunks =>
      match call inStr p chunk with
      | none => none
      | some (p, next) => (feed call p chunks).map fun r => (r.1, next + r.2)

/-- What has become of a chunk. -/
def Taken (b : Building) (s : Bytes) (r : Option (StreamingParser × ℤ)) (kept : Bytes) : Prop :=
  ∃ p' b' kept', ∃ k : ℕ, r = some (p', (k : ℤ)) ∧ k ≤ s.length ∧
    (b'.done = false → k = s.length) ∧ Stands p' b' kept' ∧
      Reads b (kept ++ s) b' (kept' ++ s.drop k)

/-- An item that a chunk begins in has not ended in front of the chunk. -/
lemma string_ends_behind {rest : Bytes} {n : ℕ} (hkept : scan kept = .short)
    (hs : scanHeader (kept ++ chunk) = .found (.raw n) rest) : rest.length < n + chunk.length := by
  by_contra hend
  rw [Nat.not_lt] at hend
  obtain ⟨front, hfront, hheader⟩ := scanHeader_front hs
  have hlen := congrArg List.length hfront
  rw [List.length_append, List.length_append] at hlen
  have hsplit : kept = front ++ rest.take (rest.length - chunk.length) := by
    have htake := congrArg (List.take kept.length) hfront
    rwa [List.take_left, List.take_append, List.take_of_length_le (by omega),
      show kept.length - front.length = rest.length - chunk.length by omega] at htake
  rw [hsplit, scan, scanHeader_found_append _ hheader] at hkept
  dsimp only at hkept
  rw [List.nil_append, scanBody, List.length_take_of_le (Nat.sub_le _ _),
    if_neg (by omega)] at hkept
  cases hkept

/-- A chunk is offered until it is used up.  If it begins inside a string, the string has at most
2^30 - 12 bytes. -/
lemma offerRounds_spec (inStr : Bool) : ∀ (rounds : ℕ) (p : StreamingParser) (b : Building)
    (kept chunk : Bytes), Stands p b kept → LengthsFit b (kept ++ chunk) →
      (kept ≠ [] → StringFits (kept ++ chunk)) → chunk.length < rounds →
        Taken b chunk (offerRounds inStr rounds p chunk) kept
  | 0, _, _, _, _, _, _, _, hrounds => absurd hrounds (Nat.not_lt_zero _)
  | rounds + 1, p, b, kept, chunk, h, hfits, hcut, hrounds => by
      have hroom : p.Room chunk := room_of_stringFits h fun n rest hs => by
        have hne : kept ≠ [] := by rintro rfl; cases hs
        exact hcut hne n (rest ++ chunk) (scanHeader_found_append chunk hs)
      obtain ⟨p₁, b₁, kept₁, k, hconsume, hk, hpos, hstands, hreads, hearly⟩ :=
        consume_spec h hroom hfits
      have hcall : callOnce inStr p chunk = some (p₁, (k : ℤ)) :=
        hconsume toInt _ inStr exact_toInt (Nat.lt_succ_self _)
      rw [offerRounds, hcall]
      dsimp only
      rw [Int.toNat_natCast, hstands.state_done]
      cases hb₁ : b₁.done with
      | true =>
          exact ⟨p₁, b₁, kept₁, k, rfl, hk, fun h => by simp [hb₁] at h, hstands, hreads⟩
      | false =>
          rw [Bool.false_or]
          by_cases hend : chunk.drop k = []
          · rw [List.drop_eq_nil_iff] at hend
            rw [if_pos (by simpa using hend)]
            exact ⟨p₁, b₁, kept₁, k, rfl, hk, fun _ => Nat.le_antisymm hk hend, hstands, hreads⟩
          · rw [if_neg (by simpa using hend)]
            have hk0 : 0 < k := hpos hb₁ (by rintro rfl; exact hend List.drop_nil)
            -- the same string goes on: the chunk begins inside it
            obtain ⟨hne, hsame⟩ := hearly hb₁ (by rw [List.drop_eq_nil_iff] at hend; omega)
            obtain ⟨p', b', kept', k', hr, hk', hall, hstands', hreads'⟩ :=
              offerRounds_spec inStr rounds p₁ b₁ kept₁ (chunk.drop k) hstands
                (hfits.of_reads hreads) (fun _ => hsame.symm ▸ hcut hne)
                (by rw [List.length_drop]; omega)
            rw [List.length_drop] at hk' hall
            rw [List.drop_drop] at hreads'
            refine ⟨p', b', kept', k + k', by rw [hr]; simp, by omega, fun hb' => ?_, hstands',
              hreads.trans hreads'⟩
            have := hall hb'
            omega

lemma feed_done (hstate : p.state.done = true) :
    ∀ chunks : List (Bool × Bytes), feed offer p chunks = some (p, 0)
  | [] => rfl
  | (inStr, chunk) :: chunks => by
      have hzero : offer inStr p chunk = some (p, 0) := by
        rw [offer, offerRounds, callOnce, consume_done _ _ _ hstate]
        simp [hstate]
      rw [feed, hzero]
      dsimp only
      rw [feed_done hstate chunks]
      rfl

/-- A string inside which a chunk begins has at most 2^30 - 12 bytes.  `s` is what is read: with
`rest` begins an item, with `after` a chunk, and behind the string are the bytes of `rest'` without
the first `n`. -/
def CutStringsFit (b : Building) (s : Bytes) (chunks : List (Bool × Bytes)) : Prop :=
  ∀ before after, chunks = before ++ after → after ≠ [] →
    ∀ b' rest n rest', Reads b s b' rest → b'.done = false →
      scanHeader rest = .found (.raw n) rest' →
        (after.map Prod.snd).flatten.length < rest.length →
          rest'.length < n + (after.map Prod.snd).flatten.length → n ≤ 1073741812

lemma CutStringsFit.tail {b₁ : Building} {s s₁ : Bytes} {chunk : Bool × Bytes}
    {chunks : List (Bool × Bytes)} (h : CutStringsFit b s (chunk :: chunks))
    (hreads : Reads b s b₁ s₁) : CutStringsFit b₁ s₁ chunks :=
  fun before after hsplit hne b' rest n rest' hr =>
    h (chunk :: before) after (by rw [hsplit, List.cons_append]) hne b' rest n rest'
      (hreads.trans hr)

/-- What is kept in front of the first chunk. -/
lemma CutStringsFit.head {inStr : Bool} {chunks : List (Bool × Bytes)} {rest : Bytes}
    (hrest : (chunks.map Prod.snd).flatten = rest) (h : Stands p b kept) (hb : b.done = false)
    (hcut : CutStringsFit b (kept ++ chunk ++ rest) ((inStr, chunk) :: chunks)) (hne : kept ≠ []) :
    StringFits (kept ++ chunk) := by
  intro n rest' hs
  have hpos := List.length_pos_iff.mpr hne
  have hend := string_ends_behind (h.scan_kept hb) hs
  refine hcut [] _ rfl (List.cons_ne_nil _ _) b _ n (rest' ++ rest) (.refl _ _) hb
    (scanHeader_found_append rest hs) ?_ ?_
  · simp only [List.map_cons, List.flatten_cons, List.length_append, hrest]
    omega
  · simp only [List.map_cons, List.flatten_cons, List.length_append, hrest]
    omega

/-- Strings of up to 2^30 - 12 bytes can be cut everywhere. -/
lemma cutStringsFit_of_stringFits {s : Bytes} (h : Throughout (fun _ => StringFits) b s)
    (chunks : List (Bool × Bytes)) : CutStringsFit b s chunks :=
  fun _ _ _ _ b' rest n rest' hr hb' hs _ _ => h b' rest hr hb' n rest' hs

lemma feed_spec : ∀ (chunks : List (Bool × Bytes)) (p : StreamingParser) (b : Building)
    (kept : Bytes), Stands p b kept → LengthsFit b (kept ++ (chunks.map Prod.snd).flatten) →
      CutStringsFit b (kept ++ (chunks.map Prod.snd).flatten) chunks →
        Taken b (chunks.map Prod.snd).flatten (feed offer p chunks) kept
  | [], p, b, kept, h, _, _ => ⟨p, b, kept, 0, rfl, le_rfl, fun _ => rfl, h, .refl _ _⟩
  | (inStr, chunk) :: chunks, p, b, kept, h, hfits, hcut => by
      rw [List.map_cons, List.flatten_cons] at hfits hcut ⊢
      rw [← List.append_assoc] at hfits hcut
      obtain ⟨rest, hrest⟩ : ∃ rest, (chunks.map Prod.snd).flatten = rest := ⟨_, rfl⟩
      rw [hrest] at hfits hcut ⊢
      cases hb : b.done with
      | true =>
          obtain ⟨rfl, -⟩ := h.represents_of_done hb
          rw [feed_done (h.state_done.trans hb)]
          exact ⟨p, b, [], 0, rfl, Nat.zero_le _, fun h => by simp [hb] at h, h, .refl _ _⟩
      | false =>
          obtain ⟨p₁, b₁, kept₁, k, hcall, hk, hall, hstands, hreads⟩ :=
            offerRounds_spec inStr (chunk.length + 1) p b kept chunk h hfits.of_append
              (hcut.head hrest h hb) (Nat.lt_succ_self _)
          have hreads₁ := hreads.append rest
          have hcall' : offer inStr p chunk = some (p₁, (k : ℤ)) := hcall
          rw [feed, hcall']
          dsimp only
          cases hb₁ : b₁.done with
          | true =>
              obtain ⟨rfl, -⟩ := hstands.represents_of_done hb₁
              rw [feed_done (hstands.state_done.trans hb₁)]
              refine ⟨p₁, b₁, [], k, by simp, by rw [List.length_append]; omega,
                fun h => by simp [hb₁] at h, hstands, ?_⟩
              rwa [List.append_assoc, List.append_assoc,
                ← List.drop_append_of_le_length hk] at hreads₁
          | false =>
              obtain rfl := hall hb₁
              rw [List.drop_length, List.append_nil] at hreads₁
              obtain ⟨p', b', kept', k', hr, hk', hall', hstands', hreads'⟩ :=
                feed_spec chunks p₁ b₁ kept₁ hstands (hrest ▸ hfits.of_reads hreads₁)
                  (hrest ▸ hcut.tail hreads₁)
              rw [hrest] at hk' hall' hreads'
              refine ⟨p', b', kept', chunk.length + k', by rw [hr]; simp,
                by rw [List.length_append]; omega,
                fun hb' => by rw [List.length_append, hall' hb'], hstands', ?_⟩
              rw [List.drop_append, List.drop_eq_nil_of_le (by omega), List.nil_append,
                Nat.add_sub_cancel_left, ← List.append_assoc]
              exact hreads₁.trans hreads'

end StreamingParser

end Msgpack

end MasstreeLHM
