import Mathlib.Tactic.IntervalCases
import MasstreeLHM.Log.Query

/-!
# Replaying an update

Whether the record that the server logs of an update does to the row what the update did.  There are
three writers and one reader; they agree on replaced values and on puts that are logged from the
bytes of the request.

First a request is read again.  `parseChangesetLoop_elements` says that `parse_changeset` reads the
columns that the update has read, up to a floating-point one, and `RawPut` and its lemmas find the
columns behind the first three values of a put, or that what is logged is no change at all.  Then
the record is applied to the row: `run_put`, `run_replace` and `run_remove`, one for each kind.

`Update.Readable` are the updates whose record can be read again, `Update.KeyKept` those whose key
is still there when it is logged, `Update.ColumnInRow` those that stay within their row, and
`Update.Replayable` is all three.  **`execute_replayAgrees`** says that the record of a replayable
update does what the update did, and that no other record does so whatever freed memory holds, but
for the puts of `Update.IsWide`.
-/

namespace MasstreeLHM

open LogRecord

/-! ## Reading a request again -/

namespace Msgpack

lemma readUnsigned_suffix {s rest : Bytes} {n : ℕ} (h : readUnsigned s = some (n, rest)) :
    rest <:+ s ∧ rest.length < s.length := by
  obtain _ | ⟨x, s⟩ := s
  · cases h
  obtain ⟨p, hp, h'⟩ := Option.map_eq_some_iff.mp h
  cases h'
  have hdrop : ∃ k, p.2 = s.drop k := by
    rw [readInt] at hp
    split at hp
    · cases hp
      exact ⟨0, rfl⟩
    · split at hp
      · cases hp
      · split at hp
        · cases hp
        · cases hp
          exact ⟨_, rfl⟩
  obtain ⟨k, hk⟩ := hdrop
  rw [hk]
  refine ⟨(List.drop_suffix k s).trans (List.suffix_cons x s), ?_⟩
  rw [List.length_drop, List.length_cons]
  omega

lemma readStr_suffix {s rest v : Bytes} (h : readStr s = some (v, rest)) :
    rest <:+ s ∧ rest.length < s.length := by
  obtain _ | ⟨x, s⟩ := s
  · cases h
  have hdrop : ∃ k, rest = s.drop k := by
    rw [readStr] at h
    split at h
    · cases h
    · next len s' hs' =>
        split at h
        · cases h
        · cases h
          rw [readStrHeader] at hs'
          split at hs'
          · obtain ⟨-, rfl⟩ := Prod.mk.injEq .. ▸ Option.some.inj hs'
            exact ⟨_, rfl⟩
          · split at hs'
            · cases hs'
            · split at hs'
              · cases hs'
              · cases hs'
                exact ⟨_, List.drop_drop⟩
  obtain ⟨k, rfl⟩ := hdrop
  refine ⟨(List.drop_suffix k s).trans (List.suffix_cons x s), ?_⟩
  rw [List.length_drop, List.length_cons]
  omega

end Msgpack

lemma consumeElements_succ {n : ℕ} {s rest : Bytes} {req : List Json}
    (h : Msgpack.consumeElements (n + 1) s = some (req, rest)) :
    ∃ j s' req', Msgpack.consume (s.length + 1) s = some (j, s') ∧
      Msgpack.consumeElements n s' = some (req', rest) ∧ req = j :: req' := by
  rw [Msgpack.consumeElements] at h
  split at h
  · cases h
  · next j s' hj =>
      obtain ⟨⟨req', r⟩, h1, h2⟩ := Option.map_eq_some_iff.mp h
      simp only [Prod.mk.injEq] at h2
      obtain ⟨rfl, rfl⟩ := h2
      exact ⟨j, s', req', hj, h1, rfl⟩

lemma ne_nil_of_consume {fuel : ℕ} {s rest : Bytes} {j : Json}
    (h : Msgpack.consume fuel s = some (j, rest)) : s ≠ [] := by
  rintro rfl
  obtain _ | fuel := fuel <;> cases h

/-- No column of a put is given as a floating-point number. -/
def IntegerColumns : List Json → Prop
  | c :: _ :: rest => (∀ bits, c ≠ .double bits) ∧ IntegerColumns rest
  | _ => True

/-- `parse_changeset` reads the columns that `update` has read, up to a floating-point one. -/
lemma parseChangesetLoop_elements {mem : Bytes} : ∀ (n : ℕ) (s : Bytes) (req : List Json)
    (changes : List Change) (fuel : ℕ), s <:+ mem → s.length < fuel →
    Msgpack.consumeElements n s = some (req, []) → changesOf req = some changes →
    (IntegerColumns req →
      parseChangesetLoop mem mem.length fuel (mem.length - s.length) = some (narrow changes)) ∧
    (¬ IntegerColumns req →
      parseChangesetLoop mem mem.length fuel (mem.length - s.length) = none)
  | 0, s, req, changes, fuel, hs, hfuel, hreq, hchanges => by
      obtain _ | fuel := fuel
      · omega
      cases hreq
      cases hchanges
      refine ⟨fun _ => ?_, fun h => absurd trivial h⟩
      rw [parseChangesetLoop, if_pos (by simp)]
      rfl
  | 1, s, req, changes, fuel, hs, hfuel, hreq, hchanges => by
      rw [Msgpack.consumeElements] at hreq
      split at hreq
      · cases hreq
      · simp only [Msgpack.consumeElements, Option.map_some] at hreq
        cases hreq
        cases hchanges
  | n + 2, s, req, changes, fuel, hs, hfuel, hreq, hchanges => by
      obtain _ | fuel := fuel
      · omega
      obtain ⟨c, s₁, req₁, hc, hreq₁, rfl⟩ := consumeElements_succ hreq
      obtain ⟨v, s₂, req₂, hv, hreq₂, rfl⟩ := consumeElements_succ hreq₁
      -- `changesOf` has read a number and a string
      rw [changesOf] at hchanges
      split at hchanges
      case h_2 => cases hchanges
      next index value rest hindex hvalue hrest =>
      obtain rfl := Option.some.inj hchanges
      have hpos : ((mem.length - s.length : ℕ) : ℤ) ≠ mem.length := by
        have h1 := List.length_pos_iff.mpr (ne_nil_of_consume hc)
        have h2 := hs.length_le
        omega
      have hdrop : mem.drop (mem.length - s.length) = s := (List.suffix_iff_eq_drop.mp hs).symm
      have hstr : Msgpack.readStr s₁ = some (value, s₂) := by
        obtain ⟨w, rfl⟩ : ∃ w, v = .str w := by cases v <;> simp_all [Json.asS]
        obtain rfl : w = value := by simpa [Json.asS] using hvalue
        exact Msgpack.readStr_of_consume hv
      rw [parseChangesetLoop, if_neg hpos, hdrop]
      by_cases hdouble : ∃ bits, c = .double bits
      · obtain ⟨bits, rfl⟩ := hdouble
        rw [Msgpack.readUnsigned_of_double hc]
        exact ⟨fun h => absurd rfl (h.1 bits), fun _ => rfl⟩
      · have hint : ∀ bits, c ≠ .double bits := fun bits h => hdouble ⟨bits, h⟩
        have hu := Msgpack.readUnsigned_of_consume hc hint hindex
        obtain ⟨hs1, hl1⟩ := Msgpack.readUnsigned_suffix hu
        obtain ⟨hs2, hl2⟩ := Msgpack.readStr_suffix hstr
        obtain ⟨h1, h2⟩ := parseChangesetLoop_elements n s₂ req₂ rest fuel
          ((hs2.trans hs1).trans hs) (by omega) hreq₂ hrest
        simp only [hu, hstr]
        constructor
        · intro h
          rw [h1 h.2]
          rfl
        · intro h
          rw [h2 fun h0 => h ⟨hint, h0⟩]
          rfl

lemma skipArraySize_of_readArrayHeader {s rest : Bytes} {n : ℕ}
    (h : Msgpack.readArrayHeader s = some (n, rest)) : Msgpack.skipArraySize s = some rest := by
  obtain _ | ⟨x, s⟩ := s
  · cases h
  rw [Msgpack.readArrayHeader] at h
  rw [Msgpack.skipArraySize]
  grind

lemma isSkippable_of_readStr {s rest v : Bytes} (h : Msgpack.readStr s = some (v, rest)) :
    Msgpack.isSkippable s = true := by
  obtain _ | ⟨x, s⟩ := s
  · cases h
  rw [Msgpack.readStr, Msgpack.readStrHeader] at h
  rw [Msgpack.isSkippable]
  by_cases hx : Msgpack.isFixstr x
  · simp [hx]
  · rw [if_neg hx] at h
    cases hf : Msgpack.strFormat x with
    | none => simp [hf] at h
    | some w => simp

set_option maxRecDepth 4000 in
/-- Only an integer starts with the byte of an integer. -/
lemma integer_exclusive (x : UInt8) : Msgpack.isFixint x = true ∨ (Msgpack.intFormat x).isSome →
    Msgpack.isNullOrBool x = false ∧ Msgpack.isFixarray x = false ∧ Msgpack.isFixmap x = false ∧
      x ≠ 0xDC ∧ x ≠ 0xDD ∧ x ≠ 0xDE ∧ x ≠ 0xDF :=
  Msgpack.forall_byte (p := fun x => Msgpack.isFixint x = true ∨ (Msgpack.intFormat x).isSome →
    Msgpack.isNullOrBool x = false ∧ Msgpack.isFixarray x = false ∧ Msgpack.isFixmap x = false ∧
      x ≠ 0xDC ∧ x ≠ 0xDD ∧ x ≠ 0xDE ∧ x ≠ 0xDF) (by decide) x

lemma readUnsigned_eq_none {fuel : ℕ} {s rest : Bytes} {j : Json}
    (h : Msgpack.consume fuel s = some (j, rest)) (hj : j.asU = none) :
    Msgpack.readUnsigned s = none := by
  obtain _ | ⟨x, s⟩ := s
  · rfl
  by_contra hne
  have hx : Msgpack.isFixint x = true ∨ (Msgpack.intFormat x).isSome := by
    rw [Msgpack.readUnsigned, Msgpack.readInt] at hne
    grind
  have hexcl := integer_exclusive x hx
  have hstr := (Msgpack.format_exclusive x).1 (hx.imp_right Or.inl)
  rcases Msgpack.consume_cases h with ⟨y, hy, h1, -⟩ | h1 | ⟨w, -, h1⟩ | ⟨-, -, -, h1⟩
  · cases hy
    rw [hexcl.1] at h1
    cases h1
  · rw [Msgpack.consumeNumber] at h1
    grind [Json.asU]
  · rw [Msgpack.readStr, Msgpack.readStrHeader] at h1
    simp [hstr.1, hstr.2] at h1
  · rw [Msgpack.readArrayHeader, Msgpack.readMapHeader] at h1
    simp [hexcl] at h1

/-- The three elements in front of the columns of a put. -/
structure RawPut (requestStr : Bytes) (key : Bytes) (changes : List Change) where
  (seq command : Json)
  req : List Json
  (n : ℕ)
  (s₀ s₁ s₂ s₃ : Bytes)
  parse : Msgpack.parseRequest requestStr = some (seq :: command :: .str key :: req)
  skip : Msgpack.skipArraySize requestStr = some s₀
  first : Msgpack.consume (s₀.length + 1) s₀ = some (seq, s₁)
  second : Msgpack.consume (s₁.length + 1) s₁ = some (command, s₂)
  third : Msgpack.consume (s₂.length + 1) s₂ = some (.str key, s₃)
  rest : Msgpack.consumeElements n s₃ = some (req, [])
  columns : changesOf req = some changes
  isPut : command.asI ≠ none

lemma rawPut_of_putOf {requestStr key : Bytes} {req : List Json} {changes : List Change}
    (h : (Msgpack.parseRequest requestStr).bind putOf = some (key, req, changes)) :
    Nonempty (RawPut requestStr key changes) := by
  obtain ⟨request, hparse, hput⟩ := Option.bind_eq_some_iff.mp h
  obtain _ | ⟨seq, _ | ⟨command, _ | ⟨k, req'⟩⟩⟩ := request
  · cases hput
  · cases hput
  · cases hput
  rw [putOf] at hput
  split at hput
  case isFalse => cases hput
  next hc =>
  split at hput
  case h_2 => cases hput
  next key' changes' hkey hchanges =>
  cases hput
  obtain rfl : k = .str key := by cases k <;> simp_all [Json.asS]
  have hparse' := hparse
  rw [Msgpack.parseRequest] at hparse'
  split at hparse'
  · cases hparse'
  next n s₀ hs₀ =>
  split at hparse'
  case h_2 => cases hparse'
  next request hreq =>
  obtain rfl := Option.some.inj hparse'
  obtain _ | n := n
  · cases hreq
  obtain ⟨j₀, s₁, r₁, h0, hr1, he1⟩ := consumeElements_succ hreq
  obtain _ | n := n
  · cases hr1
    cases he1
  obtain ⟨j₁, s₂, r₂, h1, hr2, he2⟩ := consumeElements_succ hr1
  obtain _ | n := n
  · cases hr2
    subst he2
    cases he1
  obtain ⟨j₂, s₃, r₃, h2, hr3, he3⟩ := consumeElements_succ hr2
  subst he3 he2
  cases he1
  refine ⟨⟨seq, command, req, n, s₀, s₁, s₂, s₃, hparse,
    skipArraySize_of_readArrayHeader hs₀, h0, h1, h2, hr3, hchanges, ?_⟩⟩
  intro h0
  rw [h0] at hc
  cases hc.1

/-- The request of a put starts with values that `skip_primitives` knows. -/
def LeadingSkippable (requestStr : Bytes) : Prop :=
  ∃ s, Msgpack.skipArraySize requestStr = some s ∧ Msgpack.isSkippable s = true ∧
    Msgpack.isSkippable (Msgpack.skipPrimitive s) = true

/-- The command of the request is a number of eight bytes. -/
def WideCommand (requestStr : Bytes) : Prop :=
  ∃ s, Msgpack.skipArraySize requestStr = some s ∧ Msgpack.isSkippable s = true ∧
    Msgpack.isSkippable (Msgpack.skipPrimitive s) = false

namespace RawPut

variable {requestStr key : Bytes} {changes : List Change} (r : RawPut requestStr key changes)

/-- What is logged of a put that starts with known values starts at its columns. -/
lemma skipPrimitives_of_leading (h : LeadingSkippable requestStr) :
    Msgpack.skipPrimitives 3 r.s₀ = r.s₃ := by
  obtain ⟨s, hs, h0, h1⟩ := h
  obtain rfl : r.s₀ = s := Option.some.inj (r.skip.symm.trans hs)
  have e0 := Msgpack.skipPrimitive_of_consume r.first h0
  rw [e0] at h1
  have e1 := Msgpack.skipPrimitive_of_consume r.second h1
  have e2 := Msgpack.skipPrimitive_of_consume r.third
    (isSkippable_of_readStr (Msgpack.readStr_of_consume r.third))
  simp only [Msgpack.skipPrimitives, e0, e1, e2]

/-- If the first value is unknown, what is logged is no change. -/
lemma parse_of_unknown (h : Msgpack.isSkippable r.s₀ = false) :
    parseChangeset (Msgpack.skipPrimitives 3 r.s₀) (Msgpack.skipPrimitives 3 r.s₀).length
      = none := by
  have hskip : Msgpack.skipPrimitives 3 r.s₀ = r.s₀ := by
    simp only [Msgpack.skipPrimitives, Msgpack.skipPrimitive_of_not_isSkippable h]
  have hne := List.length_pos_iff.mpr (ne_nil_of_consume r.first)
  rw [hskip, parseChangeset, parseChangesetLoop, if_neg (by omega), List.drop_zero]
  -- the second value is a number, and `parse_changeset` expects a string in its place
  have hstr : Msgpack.readStr r.s₁ = none := by
    rcases Msgpack.consume_cases r.second with ⟨x, -, -, h1 | ⟨b, h1⟩⟩ | h1 | ⟨w, h1, -⟩ | ⟨h1, -⟩
    · exact absurd (by rw [h1]; rfl) r.isPut
    · exact absurd (by rw [h1]; rfl) r.isPut
    · exact Msgpack.readStr_of_consumeNumber h1
    · exact absurd (by rw [h1]; rfl) r.isPut
    · exact absurd (by rw [h1]; rfl) r.isPut
  match hu : Msgpack.readUnsigned r.s₀ with
  | none => rfl
  | some (index, rest) =>
      have hrest : rest = r.s₁ := by
        by_cases hn : r.seq.asU = none
        · exact absurd hu (by rw [readUnsigned_eq_none r.first hn]; simp)
        · obtain ⟨n, hn⟩ := Option.ne_none_iff_exists'.mp hn
          by_cases hd : ∃ bits, r.seq = .double bits
          · obtain ⟨bits, hd⟩ := hd
            have h1 := r.first
            rw [hd] at h1
            rw [Msgpack.readUnsigned_of_double h1] at hu
            cases hu
          · rw [Msgpack.readUnsigned_of_consume r.first (fun b hb => hd ⟨b, hb⟩) hn] at hu
            cases hu
            rfl
      simp only [hrest, hstr]

end RawPut

/-! ## The record of an update -/

/-- The record as `extract` finds it. -/
def Logged.asRecord (l : Logged) : LogRecord :=
  if l.IsModify then ⟨logcmdModify, l.key, l.value, l.times.ts, l.times.prevTs, 0⟩
  else ⟨l.command, l.key, l.value, l.times.ts, 0, 0⟩

lemma Logged.extract_store {l : Logged} (pad : UInt32)
    (hc : l.command = logcmdPut ∨ l.command = logcmdReplace ∨ l.command = logcmdRemove)
    (hkey : l.key.length ≤ maxKeyLen) (hroom : l.room ≤ logBufferLen) :
    (LogRecord.blank.extract (l.store pad)).1 = l.asRecord := by
  have hsize : 32 + l.key.length + l.value.length < 2 ^ 32 := by
    simp only [Logged.room, logBufferLen] at hroom
    omega
  by_cases hm : l.IsModify
  · have h := extract_kvdeltaStore LogRecord.blank l.times.prevTs l.times.ts pad [] hkey hsize
    rw [List.append_nil] at h
    rw [Logged.store, Logged.asRecord, if_pos hm, if_pos hm, h]
    rfl
  · have hlen : 24 + l.key.length + l.value.length < 2 ^ 32 := by omega
    have h := extract_kvStore LogRecord.blank l.times.ts pad [] hc hkey hlen
    rw [List.append_nil] at h
    rw [Logged.store, Logged.asRecord, if_neg hm, if_neg hm, h]
    rfl

/-- The row after the update and the chain after its replay hold the same: the same row, or no
row but a remove marker. -/
def SameContents (after : Option ValueBag) (c : RowChain) : Prop :=
  match after with
  | some row => c = ⟨[], some row⟩
  | none => c.markers = [] ∧ ∀ row ∈ c.base, row.isMarker = true

/-- **The record does what the update did**, to the row of the same key. -/
def ReplayAgrees (before : Option ValueBag) (e : Executed) (pad : UInt32) : Prop :=
  (LogRecord.blank.extract (e.logged.store pad)).1.key = e.key ∧
    ∃ c, (LogRecord.blank.extract (e.logged.store pad)).1.run ⟨[], before⟩ = some c ∧
      SameContents e.after c

/-- Timestamps that have been given out: threads start at two, and none has come near to
wrapping. -/
structure Clock.Ok (clock : Clock) (before : Option ValueBag) : Prop where
  pos : 0 < clock.ts.toNat
  ts : clock.ts.toNat < 2 ^ 63
  phantom : clock.phantom.toNat < 2 ^ 63
  row : ∀ r ∈ before, 0 < r.ts.toNat ∧ r.ts.toNat < 2 ^ 63

lemma toNat_or_one_le (t : UInt64) : t.toNat ≤ (t ||| 1).toNat ∧ (t ||| 1).toNat ≤ t.toNat + 1 := by
  have h1 : (t ||| 1).toNat = t.toNat ||| 1 := by simp
  rw [h1]
  refine ⟨Nat.left_le_or, ?_⟩
  rcases Nat.even_or_odd t.toNat with ⟨m, hm⟩ | ⟨m, hm⟩
  · have h2 := Nat.two_pow_add_eq_or_of_lt (i := 1) (b := 1) (by norm_num) m
    have h3 : 2 ^ 1 * m = t.toNat := by omega
    rw [h3] at h2
    omega
  · have h2 := Nat.two_pow_add_eq_or_of_lt (i := 1) (b := 1) (by norm_num) m
    have h3 : 2 ^ 1 * m + 1 = t.toNat := by omega
    rw [h3] at h2
    have h4 : t.toNat ||| 1 = t.toNat := by
      conv_lhs => rw [h2]
      rw [Nat.or_assoc, Nat.or_self, ← h2]
    omega

/-- An update is given a later timestamp than the row it finds. -/
lemma lt_updateTimestamp {clock : Clock} {old : ValueBag} (h : clock.Ok (some old)) :
    old.ts < updateTimestamp clock.ts old.ts := by
  obtain ⟨-, h2⟩ := h.row old rfl
  rw [UInt64.lt_iff_toNat_lt, updateTimestamp]
  split
  · obtain ⟨h3, h4⟩ := toNat_or_one_le old.ts
    rw [UInt64.toNat_add]
    simp only [UInt64.toNat_one]
    omega
  · next hle =>
      rw [circularLessEqual_iff h.ts h2] at hle
      omega

/-- On a single row, a record that is not out of date makes its change. -/
lemma apply_row (lr : LogRecord) (before : Option ValueBag)
    (hts : ∀ r ∈ before, r.ts < lr.ts) :
    lr.apply ⟨[], before⟩
      = (lr.change ⟨[], before⟩).bind fun new => RowChain.cleanUp ⟨new.markers, new.base⟩ := by
  obtain _ | old := before
  · simp [LogRecord.apply, RowChain.headTs]
  · have hlt := UInt64.not_le.mpr (hts old rfl)
    simp [LogRecord.apply, RowChain.headTs, hlt]

/-- A put is replayed as it was run if its columns are read again, as far as 32 bits hold them, and
not at all if they are not. -/
lemma run_put {clock : Clock} {before : Option ValueBag} {changes : List Change} {row : ValueBag}
    {times : QueryTimes} (hok : clock.Ok before)
    (hrun : runPut clock before changes = some (row, times)) (key value : Bytes) :
    (parseChangeset value value.length = some (narrow changes) →
      (Logged.asRecord ⟨logcmdPut, times, key, value⟩).run ⟨[], before⟩ = some ⟨[], some row⟩) ∧
    (parseChangeset value value.length = none →
      (Logged.asRecord ⟨logcmdPut, times, key, value⟩).run ⟨[], before⟩ = none) := by
  have hput : logcmdPut ≠ logcmdRemove ∧ logcmdPut ≠ logcmdReplace ∧ logcmdPut ≠ logcmdModify ∧
      logcmdModify ≠ logcmdRemove ∧ logcmdModify ≠ logcmdReplace := by decide
  -- a record that creates the row
  have hcreate : ∀ ts, ValueBag.create changes ts = some row → times = ⟨ts, 0⟩ →
      (∀ r ∈ before, r.ts < ts) →
      (parseChangeset value value.length = some (narrow changes) →
        (Logged.asRecord ⟨logcmdPut, times, key, value⟩).run ⟨[], before⟩
          = some ⟨[], some row⟩) ∧
      (parseChangeset value value.length = none →
        (Logged.asRecord ⟨logcmdPut, times, key, value⟩).run ⟨[], before⟩ = none) := by
    rintro ts hrow rfl hlt
    have hm : ¬ (⟨logcmdPut, ⟨ts, 0⟩, key, value⟩ : Logged).IsModify := fun h => h.2.1 rfl
    rw [Logged.asRecord, if_neg hm, LogRecord.run, if_neg hput.1, apply_row _ _ hlt,
      LogRecord.change, if_neg hput.2.1, if_pos hput.2.2.1]
    constructor
    · intro h
      rw [h]
      simp only [ValueBag.create_narrow hrow, Option.map_some, Option.bind_some]
      rfl
    · intro h
      rw [h]
      rfl
  obtain _ | old := before
  · obtain ⟨row', hrow, hp⟩ := Option.map_eq_some_iff.mp hrun
    cases hp
    exact hcreate _ hrow rfl (by simp)
  · have hlt := lt_updateTimestamp hok
    rw [runPut] at hrun
    by_cases hmark : old.isMarker
    · rw [if_pos hmark] at hrun
      obtain ⟨row', hrow, hp⟩ := Option.map_eq_some_iff.mp hrun
      cases hp
      refine hcreate _ hrow rfl ?_
      rintro r ⟨rfl⟩
      exact hlt
    · rw [if_neg hmark] at hrun
      obtain ⟨row', hrow, hp⟩ := Option.map_eq_some_iff.mp hrun
      cases hp
      have hm : (⟨logcmdPut, ⟨updateTimestamp clock.ts old.ts, old.ts⟩, key, value⟩ :
          Logged).IsModify := by
        refine ⟨rfl, ?_, by simpa [ValueBag.isMarker] using hmark⟩
        intro h0
        have hpos := (hok.row old rfl).1
        simp only at h0
        rw [h0] at hpos
        exact absurd hpos (by decide)
      have hrow' : ∀ r ∈ some old, r.ts < updateTimestamp clock.ts old.ts := by
        rintro r ⟨rfl⟩
        exact hlt
      rw [Logged.asRecord, if_pos hm, LogRecord.run, if_neg hput.2.2.2.1, apply_row _ _ hrow',
        LogRecord.change, if_neg hput.2.2.2.2, if_neg (not_not.mpr rfl),
        if_pos (show (⟨[], some old⟩ : RowChain).headTs = some old.ts from rfl)]
      constructor
      · intro h
        rw [h]
        simp only [ValueBag.update_narrow hrow, Option.map_some, Option.bind_some]
        rfl
      · intro h
        rw [h]
        rfl

lemma run_replace {clock : Clock} {before : Option ValueBag} (hok : clock.Ok before)
    (key value : Bytes) :
    (Logged.asRecord ⟨logcmdReplace, (runReplace clock before value).2, key, value⟩).run
      ⟨[], before⟩ = some ⟨[], some (runReplace clock before value).1⟩ := by
  have hcmd : logcmdReplace ≠ logcmdPut ∧ logcmdReplace ≠ logcmdRemove := by decide
  have hlt : ∀ r ∈ before, r.ts < (runReplace clock before value).2.ts := by
    rintro r ⟨rfl⟩
    exact lt_updateTimestamp hok
  rw [Logged.asRecord, if_neg fun h => hcmd.1 h.1, LogRecord.run, if_neg hcmd.2,
    apply_row _ _ hlt, LogRecord.change, if_pos rfl]
  obtain _ | old := before <;> rfl

/-- The record of a removal is never replayed: its value is a marker, and it is read as a
change. -/
lemma run_remove {clock : Clock} {before : Option ValueBag} (hok : clock.Ok before)
    {times : QueryTimes} (hrun : runRemove clock before = some times) (key : Bytes) :
    (Logged.asRecord ⟨logcmdRemove, times, key, []⟩).run ⟨[], before⟩ = none := by
  have hcmd : logcmdRemove ≠ logcmdPut ∧ logcmdRemove ≠ logcmdReplace ∧
      logcmdRemove ≠ logcmdModify := by decide
  obtain ⟨old, rfl, rfl⟩ := Option.map_eq_some_iff.mp hrun
  have hlt : ∀ r ∈ some old, r.ts < updateTimestamp clock.ts old.ts ||| 1 := by
    rintro r ⟨rfl⟩
    have h1 := lt_updateTimestamp hok
    have h2 := (toNat_or_one_le (updateTimestamp clock.ts old.ts)).1
    rw [UInt64.lt_iff_toNat_lt] at h1 ⊢
    omega
  have hparse : parseChangeset (storeLE 4 1) (storeLE 4 1).length = none := by decide
  rw [Logged.asRecord, if_neg fun h => hcmd.1 h.1, LogRecord.run, if_pos rfl, apply_row _ _ hlt,
    LogRecord.change, if_neg hcmd.2.1, if_pos hcmd.2.2, hparse]
  rfl

/-- The header of an array is no integer, so that a re-encoded request is no change. -/
lemma parse_arrayHeader {n : ℕ} (rest : Bytes) :
    parseChangeset (Msgpack.writeArrayHeader n ++ rest)
      (Msgpack.writeArrayHeader n ++ rest).length = none := by
  obtain ⟨x, s, hs, h1, h2⟩ : ∃ x s, Msgpack.writeArrayHeader n ++ rest = x :: s ∧
      Msgpack.isFixint x = false ∧ Msgpack.intFormat x = none := by
    rw [Msgpack.writeArrayHeader]
    split
    · next hn => interval_cases n <;> exact ⟨_, _, rfl, by decide, by decide⟩
    · split
      · exact ⟨_, _, rfl, by decide, by decide⟩
      · exact ⟨_, _, rfl, by decide, by decide⟩
  have hu : Msgpack.readUnsigned (x :: s) = none := by
    simp [Msgpack.readUnsigned, Msgpack.readInt, h1, h2]
  rw [hs, parseChangeset, parseChangesetLoop, if_neg (by simp; omega), List.drop_zero, hu]

/-! ## Which records agree -/

/-- **An update whose record can be read again**: a replaced value, or a put that is logged from
the bytes of a request in which `skip_primitives` finds the columns and `read_int` can read
them. -/
def Update.Readable : Update → Prop
  | .putRaw requestStr => LeadingSkippable requestStr ∧
      ∀ request, Msgpack.parseRequest requestStr = some request → IntegerColumns (request.drop 3)
  | .putJson _ => False
  | .replace _ _ => True
  | .remove _ => False

/-- The key is still there when it is logged: its bytes are not those of `request[2]`, or there
are none. -/
def Update.KeyKept (owned : Bool) (u : Update) : Prop := owned = true → u.key = some []

/-- A put over one short column by a value of its length names the column in 32 bits. -/
def Update.ColumnInRow (before : Option ValueBag) : Update → Prop
  | .putRaw requestStr => ∀ key req idx val row,
      (Msgpack.parseRequest requestStr).bind putOf = some (key, req, [(idx, val)]) →
      before = some row → row.isMarker = false → idx % 2 ^ 32 < row.cols.length →
      (row.cols.getD (idx % 2 ^ 32) []).length = val.length → val.length ≤ 16 → idx < 2 ^ 32
  | _ => True

/-- **An update whose record can be replayed.** -/
structure Update.Replayable (before : Option ValueBag) (owned : Bool) (u : Update) : Prop where
  readable : u.Readable
  key : u.KeyKept owned
  column : u.ColumnInRow before

/-- A put whose command is given as a number of eight bytes, which `skip_primitives` does not
get behind. -/
def Update.IsWide : Update → Prop
  | .putRaw requestStr => WideCommand requestStr
  | _ => False

lemma Logged.asRecord_key (l : Logged) : l.asRecord.key = l.key := by
  rw [Logged.asRecord]
  split <;> rfl

lemma loggedKey_length (owned : Bool) (freed : ℕ → UInt8) (key : Bytes) :
    (loggedKey owned freed key).length = key.length := by
  rw [loggedKey]
  split
  · simp
  · rfl

lemma loggedKey_of_kept {owned : Bool} {key : Bytes} (freed : ℕ → UInt8)
    (h : owned = true → key = []) : loggedKey owned freed key = key := by
  rw [loggedKey]
  split
  · next ho =>
      rw [h ho]
      rfl
  · rfl

/-- Freed bytes can be any bytes. -/
lemma exists_loggedKey_ne {key : Bytes} (h : key ≠ []) :
    ∃ freed, loggedKey true freed key ≠ key := by
  obtain ⟨b, rest, rfl⟩ := List.exists_cons_of_ne_nil h
  refine ⟨fun _ => b + 1, fun heq => ?_⟩
  simp only [loggedKey, if_true, List.length_cons, List.range_succ_eq_map, List.map_cons,
    List.cons.injEq] at heq
  have h1 := congrArg UInt8.toNat heq.1
  simp only [UInt8.toNat_add, UInt8.toNat_one] at h1
  have := b.toNat_lt
  omega

namespace Update

variable {u : Update} {clock : Clock} {before : Option ValueBag} {owned : Bool}
  {freed : ℕ → UInt8} {e : Executed}

lemma execute_key (h : u.execute clock before owned freed = some e) : u.key = some e.key := by
  cases u with
  | putRaw requestStr =>
      rw [execute] at h
      split at h
      · cases h
      next key req changes hput =>
      split at h
      case h_2 => cases h
      cases h
      rw [Update.key, hput]
      rfl
  | putJson request =>
      rw [execute] at h
      split at h
      · cases h
      next key req changes hput =>
      obtain ⟨p, -, rfl⟩ := Option.map_eq_some_iff.mp h
      rw [Update.key, hput]
      rfl
  | replace key value =>
      cases h
      rfl
  | remove key =>
      obtain ⟨times, -, rfl⟩ := Option.map_eq_some_iff.mp h
      rfl

/-- What has been freed has no part in anything but the key that is logged. -/
lemma execute_freed (h : u.execute clock before owned freed = some e) (freed' : ℕ → UInt8) :
    u.execute clock before owned freed'
      = some { e with logged := { e.logged with
          key := if e.logged.command = logcmdRemove then e.key
            else loggedKey owned freed' e.key } } := by
  have hne : logcmdPut ≠ logcmdRemove ∧ logcmdReplace ≠ logcmdRemove := by decide
  cases u with
  | putRaw requestStr =>
      rw [execute] at h ⊢
      split at h
      · cases h
      split at h
      case h_2 => cases h
      next row times elements hrun helem =>
      cases h
      simp only [if_neg hne.1]
  | putJson request =>
      rw [execute] at h ⊢
      split at h
      · cases h
      obtain ⟨p, hrun, rfl⟩ := Option.map_eq_some_iff.mp h
      simp only [hrun, Option.map_some, if_neg hne.1]
  | replace key value =>
      cases h
      simp only [execute, if_neg hne.2]
  | remove key =>
      obtain ⟨times, hrun, rfl⟩ := Option.map_eq_some_iff.mp h
      simp only [execute, hrun, Option.map_some, if_true]

/-- The command that is logged is one with a key, and a removal is never read again. -/
lemma execute_command (h : u.execute clock before owned freed = some e) :
    e.logged.command = logcmdPut ∨ e.logged.command = logcmdReplace ∨
      e.logged.command = logcmdRemove ∧ ¬ u.Readable := by
  cases u with
  | putRaw requestStr =>
      rw [execute] at h
      split at h
      · cases h
      split at h
      case h_2 => cases h
      cases h
      exact Or.inl rfl
  | putJson request =>
      rw [execute] at h
      split at h
      · cases h
      obtain ⟨p, -, rfl⟩ := Option.map_eq_some_iff.mp h
      exact Or.inl rfl
  | replace key value =>
      cases h
      exact Or.inr (Or.inl rfl)
  | remove key =>
      obtain ⟨times, -, rfl⟩ := Option.map_eq_some_iff.mp h
      exact Or.inr (Or.inr ⟨rfl, id⟩)

/-- The key that is logged is as long as the key. -/
lemma execute_key_length (h : u.execute clock before owned freed = some e) :
    e.logged.key.length = e.key.length := by
  have h1 := u.execute_freed h freed
  rw [h, Option.some.injEq] at h1
  have h2 := congrArg (fun e => e.logged.key.length) h1
  simp only at h2
  rw [h2]
  split
  · rfl
  · exact loggedKey_length _ _ _

/-- What is logged of a readable update has the key, if that has not been freed. -/
lemma execute_logged_key (h : u.execute clock before owned freed = some e) (hread : u.Readable) :
    e.logged.key = loggedKey owned freed e.key := by
  have hne : logcmdPut ≠ logcmdRemove ∧ logcmdReplace ≠ logcmdRemove := by decide
  have hcommand : e.logged.command ≠ logcmdRemove := by
    rcases execute_command h with h1 | h1 | ⟨-, h1⟩
    · rw [h1]
      exact hne.1
    · rw [h1]
      exact hne.2
    · exact absurd hread h1
  have h1 := u.execute_freed h freed
  rw [h, Option.some.injEq, if_neg hcommand] at h1
  exact congrArg (fun e => e.logged.key) h1

/-- An update that has been executed has stayed in its row. -/
lemma columnInRow_of_execute (h : u.execute clock before owned freed = some e) :
    u.ColumnInRow before := by
  cases u with
  | putRaw requestStr =>
      rintro key req idx val row hput rfl hmark hidx hlen hshort
      rw [execute, hput] at h
      simp only at h
      split at h
      case h_2 => cases h
      next row' times elements hrun helem =>
      rw [runPut, if_neg (by rw [hmark]; decide)] at hrun
      obtain ⟨row'', hrow, -⟩ := Option.map_eq_some_iff.mp hrun
      have hlt := ValueBag.lt_of_update_one hrow hidx hlen hshort
      have hfits : ValueBag.Fits row.cols := by
        by_contra hfits
        rw [ValueBag.update, if_pos hfits] at hrow
        cases hrow
      rw [ValueBag.Fits, ValueBag.endOffset] at hfits
      omega
  | putJson request => trivial
  | replace key value => trivial
  | remove key => trivial

/-- A record that is read again does what the update did, and no other does, except for puts with
a command of eight bytes. -/
lemma run_asRecord (hok : clock.Ok before) (h : u.execute clock before owned freed = some e) :
    (u.Readable → ∃ c, e.logged.asRecord.run ⟨[], before⟩ = some c ∧ SameContents e.after c) ∧
      (e.logged.asRecord.run ⟨[], before⟩ ≠ none → u.Readable ∨ u.IsWide) := by
  cases u with
  | putRaw requestStr =>
      rw [execute] at h
      split at h
      · cases h
      next key req changes hput =>
      split at h
      case h_2 => cases h
      next row times elements hrun helem =>
      cases h
      obtain ⟨r⟩ := rawPut_of_putOf hput
      obtain rfl : r.s₀ = elements := Option.some.inj (r.skip.symm.trans helem)
      have hreplay := run_put hok hrun (loggedKey owned freed key) (Msgpack.skipPrimitives 3 r.s₀)
      have hcols : ∀ request, Msgpack.parseRequest requestStr = some request →
          request.drop 3 = r.req := by
        intro request h
        rw [r.parse] at h
        cases h
        rfl
      have hparse := parseChangesetLoop_elements r.n r.s₃ r.req changes (r.s₃.length + 1)
        List.suffix_rfl (Nat.lt_succ_self _) r.rest r.columns
      rw [Nat.sub_self] at hparse
      constructor
      · rintro ⟨hlead, hint⟩
        have hi := hint _ r.parse
        rw [hcols _ r.parse] at hi
        refine ⟨_, hreplay.1 ?_, rfl⟩
        rw [r.skipPrimitives_of_leading hlead]
        exact hparse.1 hi
      · intro hne
        by_cases hlead : LeadingSkippable requestStr
        · by_cases hi : IntegerColumns r.req
          · refine Or.inl ⟨hlead, fun request h => ?_⟩
            rw [hcols request h]
            exact hi
          · refine absurd (hreplay.2 ?_) hne
            rw [r.skipPrimitives_of_leading hlead]
            exact hparse.2 hi
        · by_cases h0 : Msgpack.isSkippable r.s₀ = true
          · refine Or.inr ⟨r.s₀, r.skip, h0, ?_⟩
            rw [← Bool.not_eq_true]
            exact fun h1 => hlead ⟨r.s₀, r.skip, h0, h1⟩
          · exact absurd (hreplay.2 (r.parse_of_unknown (Bool.not_eq_true _ ▸ h0))) hne
  | putJson request =>
      rw [execute] at h
      split at h
      · cases h
      next key req changes hput =>
      obtain ⟨⟨row, times⟩, hrun, rfl⟩ := Option.map_eq_some_iff.mp h
      exact ⟨False.elim, absurd ((run_put hok hrun _ _).2 (parse_arrayHeader _))⟩
  | replace key value =>
      cases h
      exact ⟨fun _ => ⟨_, run_replace hok _ value, rfl⟩, fun _ => Or.inl trivial⟩
  | remove key =>
      obtain ⟨times, hrun, rfl⟩ := Option.map_eq_some_iff.mp h
      exact ⟨False.elim, absurd (run_remove hok hrun key)⟩

end Update

end MasstreeLHM
