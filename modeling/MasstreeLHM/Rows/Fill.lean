import MasstreeLHM.Rows.Layout

/-!
# Filling a row in

The second loop of `value_bag::update` walks through the changes once more and writes the new row
into a fresh block.  Between two changes it copies a run of old columns at one go and moves their
offsets by the distance that the columns have moved, and it marks the columns behind the old row as
empty.

Each of these writes is a step from one `drafted` block to the next, which has more columns filled
in: `drafted_append_column` for a change itself, `copyOld_spec` for a run of old columns,
`fillTo_spec` for all that comes in front of a change and `fillTo_last` for the end.
**`fill_spec`** is the run of the loop, by induction on the changes: it lays out the columns that
`ValueBag.updateLoop` finds, and every write is inside the block.  It asks that
`ValueBag.updateLoop` comes out and that the offsets of the new row fit.  `storePos_wrap` is what
happens where they do not: the offset keeps its last 16 bits.
-/

namespace MasstreeLHM

/-- A block with the columns `done` filled in. -/
def drafted (n : ℕ) (done : List Bytes) (gap rest : Bytes) (wrapped : Bool) : Draft :=
  ⟨partlyFilled n (offsetsFrom (4 + 2 * n) done) gap done.flatten rest, wrapped⟩

namespace Draft

variable {n p : ℕ} {offs : List ℕ} {gap data rest bs : Bytes} {wrapped : Bool}

/-- The next offsets are copied. -/
lemma copy_offsets (xs : List ℕ) (hp : p = 2 + 2 * offs.length)
    (hgap : 2 * xs.length ≤ gap.length) :
    copy ⟨partlyFilled n offs gap data rest, wrapped⟩ p (storedOffsets xs)
      = some ⟨partlyFilled n (offs ++ xs) (gap.drop (2 * xs.length)) data rest, wrapped⟩ := by
  have hsplit : partlyFilled n offs gap data rest
      = (storeLE 2 n ++ storedOffsets offs) ++ gap.take (2 * xs.length)
        ++ (gap.drop (2 * xs.length) ++ data ++ rest) := by
    rw [partlyFilled]
    conv_lhs => rw [← List.take_append_drop (2 * xs.length) gap]
    simp only [List.append_assoc]
  rw [copy, hsplit, poke_append]
  · simp [partlyFilled]
  · simp only [List.length_append, storeLE_length, storedOffsets_length]
    omega
  · rw [storedOffsets_length, List.length_take]
    omega

/-- The next offset is stored; only 16 bits of it remain. -/
lemma storePos_wrap {i : ℕ} (x : ℕ) (hi : i = offs.length) (hgap : 2 ≤ gap.length) :
    storePos ⟨partlyFilled n offs gap data rest, wrapped⟩ i x
      = some ⟨partlyFilled n (offs ++ [x % 2 ^ 16]) (gap.drop 2) data rest,
          wrapped || !decide (x < 2 ^ 16)⟩ := by
  have hx : ((x : ℤ) % 2 ^ 16).toNat = x % 2 ^ 16 := by omega
  have hw : decide (0 ≤ (x : ℤ) ∧ (x : ℤ) < 2 ^ 16) = decide (x < 2 ^ 16) := by
    rw [decide_eq_decide]
    omega
  have hcopy := @copy_offsets n (2 + 2 * i) offs gap data rest wrapped [x % 2 ^ 16] (by rw [hi])
    (by simpa using hgap)
  rw [storedOffsets_singleton] at hcopy
  obtain ⟨d, hd, hcopy⟩ := Option.map_eq_some_iff.mp hcopy
  rw [storePos, storeOffset, hx, hw, hd, Option.map_some, (Draft.mk.inj hcopy).1]
  rfl

/-- The next offset is stored. -/
lemma storePos_next {i x : ℕ} (hi : i = offs.length) (hgap : 2 ≤ gap.length) (hx : x < 2 ^ 16) :
    storePos ⟨partlyFilled n offs gap data rest, wrapped⟩ i x
      = some ⟨partlyFilled n (offs ++ [x]) (gap.drop 2) data rest, wrapped⟩ := by
  rw [storePos_wrap x hi hgap, decide_eq_true hx, Nat.mod_eq_of_lt hx, Bool.not_true,
    Bool.or_false]

/-- The number of columns is stored in a new block. -/
lemma storeOffset_start {block : Bytes} (hblock : 4 + 2 * n ≤ block.length) (hn : n < 2 ^ 16) :
    storeOffset ⟨block, false⟩ 0 n
      = some (drafted n [] ((block.drop 2).take (2 * (n + 1))) ((block.drop 2).drop (2 * (n + 1)))
          false) := by
  have hsplit : block = [] ++ block.take 2 ++ block.drop 2 := by
    rw [List.nil_append, List.take_append_drop]
  have hpoke : poke block 0 (storeLE 2 n) = some (partlyFilled n []
      ((block.drop 2).take (2 * (n + 1))) [] ((block.drop 2).drop (2 * (n + 1)))) := by
    conv_lhs => rw [hsplit]
    rw [poke_append List.length_nil.symm (by rw [storeLE_length, List.length_take]; omega),
      partlyFilled]
    conv_lhs => rw [← List.take_append_drop (2 * (n + 1)) (block.drop 2)]
    simp [storedOffsets]
  have hx : ((n : ℤ) % 2 ^ 16).toNat = n := by omega
  rw [storeOffset, hx, hpoke, Option.map_some, decide_eq_true (by omega)]
  rfl

/-- The next bytes of the columns are copied. -/
lemma copy_data (hp : p = 2 + 2 * offs.length + gap.length + data.length)
    (hrest : bs.length ≤ rest.length) :
    copy ⟨partlyFilled n offs gap data rest, wrapped⟩ p bs
      = some ⟨partlyFilled n offs gap (data ++ bs) (rest.drop bs.length), wrapped⟩ := by
  have hsplit : partlyFilled n offs gap data rest
      = (storeLE 2 n ++ storedOffsets offs ++ gap ++ data) ++ rest.take bs.length
        ++ rest.drop bs.length := by
    rw [partlyFilled, List.append_assoc _ (rest.take _), List.take_append_drop]
  rw [copy, hsplit, poke_append]
  · simp [partlyFilled]
  · simp only [List.length_append, storeLE_length, storedOffsets_length]
    omega
  · rw [List.length_take]
    omega

end Draft

namespace Bag

/-- The changes as the loops see them: `idx` and `this_col` are `unsigned`. -/
def indices (changes : List Assignment) : List Change :=
  changes.map fun a => (a.1.toUInt32.toNat, a.2)

variable {cols : List Bytes} {ts : UInt64} {n : ℕ} {wrapped : Bool}

/-- The offsets of old columns are moved. -/
lemma moveOffsets_spec (h : ValueBag.Fits cols) (data rest : Bytes) (count : ℕ) (offs : List ℕ)
    (gap : Bytes) (sz : ℕ) (hcount : offs.length + count ≤ cols.length)
    (hgap : 2 * count ≤ gap.length)
    (hsz : sz + ((cols.drop offs.length).take count).flatten.length < 2 ^ 16) :
    moveOffsets ⟨ts, encode cols⟩ ((sz : ℤ) - columnStart cols offs.length) count offs.length
        ⟨partlyFilled n offs gap data rest, wrapped⟩
      = some ⟨partlyFilled n (offs ++ offsetsFrom sz ((cols.drop offs.length).take count))
          (gap.drop (2 * count)) data rest, wrapped⟩ := by
  induction count generalizing offs gap sz with
  | zero => simp [moveOffsets, offsetsFrom]
  | succ count ih =>
      have hlt : offs.length < cols.length := by omega
      have hcons : (cols.drop offs.length).take (count + 1)
          = cols[offs.length] :: (cols.drop (offs.length + 1)).take count := by
        rw [List.drop_eq_getElem_cons hlt, List.take_succ_cons]
      rw [hcons, List.flatten_cons, List.length_append] at hsz
      have hx : ((columnStart cols offs.length : ℕ) : ℤ)
          + ((sz : ℤ) - columnStart cols offs.length) = (sz : ℕ) := by omega
      have hsucc : columnStart cols (offs.length + 1)
          = columnStart cols offs.length + cols[offs.length].length := by
        rw [columnStart_succ, List.getD_eq_getElem?_getD, List.getElem?_eq_getElem hlt,
          Option.getD_some]
      have hdelta : (sz : ℤ) - columnStart cols offs.length
          = ((sz + cols[offs.length].length : ℕ) : ℤ) - columnStart cols (offs ++ [sz]).length := by
        rw [List.length_append, List.length_singleton, hsucc]
        omega
      have hnext := ih (offs ++ [sz]) (gap.drop 2) (sz + cols[offs.length].length)
        (by rw [List.length_append, List.length_singleton]; omega)
        (by rw [List.length_drop]; omega)
        (by rw [List.length_append, List.length_singleton]; omega)
      rw [moveOffsets, encode_pos h hlt.le, Option.bind_eq_bind, Option.bind_some, hx,
        Draft.storePos_next rfl (by omega) (by omega), Option.bind_eq_bind, Option.bind_some,
        hdelta]
      rw [List.length_append, List.length_singleton] at hnext ⊢
      rw [hnext, hcons, offsetsFrom, List.drop_drop, List.append_assoc, List.singleton_append,
        show 2 + 2 * count = 2 * (count + 1) by ring]

/-- Columns are marked as empty. -/
lemma markEmpty_spec (data rest : Bytes) (sz count : ℕ) (col : UInt32) (offs : List ℕ) (gap : Bytes)
    (hcol : col.toNat = offs.length) (hmax : offs.length + count < 2 ^ 32)
    (hgap : 2 * count ≤ gap.length) (hsz : sz < 2 ^ 16) :
    markEmpty sz count col ⟨partlyFilled n offs gap data rest, wrapped⟩
      = some ⟨partlyFilled n (offs ++ List.replicate count sz) (gap.drop (2 * count)) data rest,
          wrapped⟩ := by
  induction count generalizing col offs gap with
  | zero => simp [markEmpty]
  | succ count ih =>
      have hnext : (col + 1).toNat = (offs ++ [sz]).length := by
        rw [UInt32.toNat_add, hcol, List.length_append, List.length_singleton]
        exact Nat.mod_eq_of_lt (by simp; omega)
      rw [markEmpty, Draft.storePos_next hcol (by omega) hsz, Option.bind_eq_bind, Option.bind_some,
        ih (col + 1) (offs ++ [sz]) (gap.drop 2) hnext
          (by rw [List.length_append, List.length_singleton]; omega)
          (by rw [List.length_drop]; omega),
        List.drop_drop, List.append_assoc, List.singleton_append, ← List.replicate_succ,
        show 2 + 2 * count = 2 * (count + 1) by ring]

/-- The loop over empty columns gets from `col` to `thisCol`. -/
lemma toNat_sub_of_le {a b : UInt32} (h : a.toNat ≤ b.toNat) :
    (b - a).toNat = b.toNat - a.toNat :=
  UInt32.toNat_sub_of_le _ _ (UInt32.le_iff_toNat_le.mpr h)

lemma oldColumns_eq (cols : List Bytes) {col stop : ℕ} (h : col ≤ stop) :
    ValueBag.oldColumns cols col stop = (cols.take stop).drop col
      ++ List.replicate (stop - max col (min stop cols.length)) [] := by
  refine List.ext_getElem ?_ ?_
  · simp only [ValueBag.oldColumns, List.length_map, List.length_range', List.length_append,
      List.length_drop, List.length_take, List.length_replicate]
    omega
  · intro i h1 h2
    simp only [ValueBag.oldColumns, List.length_map, List.length_range'] at h1
    simp only [ValueBag.oldColumns, List.getElem_map, List.getElem_range', List.getElem_append,
      List.length_drop, List.length_take, List.getElem_drop, List.getElem_take,
      List.getElem_replicate, one_mul, List.getD_eq_getElem?_getD]
    split_ifs with hi
    · rw [List.getElem?_eq_getElem (by omega), Option.getD_some]
    · rw [List.getElem?_eq_none (by omega), Option.getD_none]

/-- A part of the table of offsets. -/
lemma encode_table (cols : List Bytes) {i j : ℕ} (hij : i ≤ j) (hj : j ≤ cols.length) :
    peek (encode cols) (2 + 2 * i) (2 * (j - i))
      = some (storedOffsets (offsetsFrom (columnStart cols i) ((cols.take j).drop i))) := by
  have htake : (cols.take j).take i = cols.take i := by rw [List.take_take, min_eq_left hij]
  have hcols : cols.take i ++ (cols.take j).drop i ++ cols.drop j = cols := by
    rw [← htake, List.take_append_drop, List.take_append_drop]
  have hoffs : offsetsFrom (4 + 2 * cols.length) cols
      = offsetsFrom (4 + 2 * cols.length) (cols.take i ++ (cols.take j).drop i ++ cols.drop j) := by
    rw [hcols]
  have hsplit : encode cols
      = (storeLE 2 cols.length ++ storedOffsets (offsetsFrom (4 + 2 * cols.length) (cols.take i)))
        ++ storedOffsets (offsetsFrom (columnStart cols i) ((cols.take j).drop i))
        ++ (storedOffsets (offsetsFrom (4 + 2 * cols.length
          + (cols.take i ++ (cols.take j).drop i).flatten.length) (cols.drop j))
          ++ storedOffsets [ValueBag.endOffset cols] ++ cols.flatten) := by
    rw [encode, hoffs, offsetsFrom_append, offsetsFrom_append]
    simp only [storedOffsets_append, List.append_assoc]
    rfl
  rw [hsplit]
  refine peek_append ?_ ?_
  · simp only [List.length_append, storeLE_length, storedOffsets_length, offsetsFrom_length,
      List.length_take]
    omega
  · simp only [storedOffsets_length, offsetsFrom_length, List.length_drop, List.length_take]
    omega

lemma columnStart_add (cols : List Bytes) {i j : ℕ} (hij : i ≤ j) :
    columnStart cols j = columnStart cols i + ((cols.take j).drop i).flatten.length := by
  have htake : (cols.take j).take i = cols.take i := by rw [List.take_take, min_eq_left hij]
  have hsplit : cols.take j = cols.take i ++ (cols.take j).drop i := by
    rw [← htake, List.take_append_drop]
  rw [columnStart, columnStart]
  conv_lhs => rw [hsplit]
  rw [List.flatten_append, List.length_append]
  omega

/-- The copied part of the old row. -/
lemma copyOld_spec (h : ValueBag.Fits cols) (done : List Bytes) (gap rest : Bytes)
    (thisCol col : UInt32) (hcol : col.toNat = done.length) (hle : col.toNat ≤ thisCol.toNat)
    (hgap : 2 * (thisCol.toNat - col.toNat) ≤ gap.length)
    (hlen : gap.length + 2 * done.length = 2 * (n + 1))
    (hrest : ((cols.take thisCol.toNat).drop col.toNat).flatten.length ≤ rest.length)
    (hfit : 4 + 2 * n + done.flatten.length
      + ((cols.take thisCol.toNat).drop col.toNat).flatten.length < 2 ^ 16) :
    ∃ endCol : UInt32,
      endCol.toNat = max col.toNat (min thisCol.toNat cols.length) ∧
      copyOld ⟨ts, encode cols⟩ cols.length thisCol col (4 + 2 * n + done.flatten.length)
          (drafted n done gap rest wrapped)
        =
          some (endCol,
            4 + 2 * n + (done ++ (cols.take thisCol.toNat).drop col.toNat).flatten.length,
            drafted n (done ++ (cols.take thisCol.toNat).drop col.toNat)
              (gap.drop (2 * ((cols.take thisCol.toNat).drop col.toNat).length))
              (rest.drop ((cols.take thisCol.toNat).drop col.toNat).flatten.length) wrapped) := by
  have hcols : cols.length < 2 ^ 16 := by
    have := endOffset_eq cols
    have hf : ValueBag.endOffset cols < 2 ^ 16 := h
    omega
  rw [copyOld]
  split_ifs with hc
  · obtain ⟨hne, hlt⟩ := hc
    have hne' : col.toNat ≠ thisCol.toNat := fun he => hne (UInt32.toNat_inj.mp he)
    have hofNat : (UInt32.ofNat cols.length).toNat = cols.length := by
      rw [UInt32.toNat_ofNat', Nat.mod_eq_of_lt (by omega)]
    have hend : (min thisCol (UInt32.ofNat cols.length)).toNat = min thisCol.toNat cols.length := by
      rw [UInt32.toNat_min, hofNat]
    set e := min thisCol.toNat cols.length with he
    have hseg : (cols.take thisCol.toNat).drop col.toNat = (cols.take e).drop col.toNat := by
      rw [he]
      rcases le_total thisCol.toNat cols.length with hl | hl
      · rw [min_eq_left hl]
      · rw [min_eq_right hl, List.take_of_length_le hl, List.take_length]
    rw [hseg] at hrest hfit ⊢
    set seg := (cols.take e).drop col.toNat with hsegdef
    have hseglen : seg.length = e - col.toNat := by
      rw [hsegdef, List.length_drop, List.length_take]
      omega
    have hstart : columnStart cols e = columnStart cols col.toNat + seg.flatten.length :=
      columnStart_add cols (by omega)
    have hoffs : offsetsFrom (4 + 2 * n) done ++ offsetsFrom (4 + 2 * n + done.flatten.length) seg
        = offsetsFrom (4 + 2 * n) (done ++ seg) := (offsetsFrom_append _ _ _).symm
    -- both ways of moving the offsets
    have hmove : copyOffsets ⟨ts, encode cols⟩ (min thisCol (UInt32.ofNat cols.length)) col
          (columnStart cols col.toNat) (4 + 2 * n + done.flatten.length)
          (drafted n done gap rest wrapped)
        = some ⟨partlyFilled n (offsetsFrom (4 + 2 * n) (done ++ seg)) (gap.drop (2 * seg.length))
            done.flatten rest, wrapped⟩ := by
      rw [copyOffsets]
      split_ifs with hp
      · change (peek (encode cols) _ _ >>= _) = _
        rw [toNat_sub_of_le (by rw [hend]; omega), hend, encode_table cols (by omega) (by omega),
          Option.bind_eq_bind, Option.bind_some, ← hp, drafted, Draft.copy_offsets, hoffs]
        · rw [offsetsFrom_length]
        · rw [offsetsFrom_length, hcol]
        · rw [offsetsFrom_length, hseglen]
          omega
      · have hdrop : (cols.drop col.toNat).take (e - col.toNat) = seg := by
          rw [hsegdef, List.drop_take]
        have hlen' : col.toNat = (offsetsFrom (4 + 2 * n) done).length := by
          rw [offsetsFrom_length, hcol]
        have hm := @moveOffsets_spec cols ts n wrapped h done.flatten rest
          (e - col.toNat) (offsetsFrom (4 + 2 * n) done) gap (4 + 2 * n + done.flatten.length)
          (by rw [← hlen']; omega) (by omega) (by rw [← hlen', hdrop]; exact hfit)
        rw [← hlen', hdrop, hoffs, ← hseglen] at hm
        rw [hend, ← hseglen, drafted]
        exact hm
    refine ⟨min thisCol (UInt32.ofNat cols.length), by rw [hend]; omega, ?_⟩
    have hpeek := @encode_peek cols col.toNat e (by omega)
    have hele : e ≤ cols.length := min_le_right _ _
    have hcopy := @Draft.copy_data n (4 + 2 * n + done.flatten.length)
      (offsetsFrom (4 + 2 * n) (done ++ seg)) (gap.drop (2 * seg.length)) done.flatten rest
      seg.flatten wrapped
      (by simp only [offsetsFrom_length, List.length_append, List.length_drop]; omega) hrest
    simp only [encode_pos h hlt.le, hmove, Option.bind_eq_bind, Option.bind_some, hend,
      encode_pos h hele]
    rw [if_neg (by omega), hpeek, Option.bind_some, hstart, Nat.add_sub_cancel_left, hcopy,
      Option.bind_some, List.flatten_append, List.length_append, drafted, List.flatten_append,
      Nat.add_assoc]
  · have hnil : (cols.take thisCol.toNat).drop col.toNat = [] := by
      rw [List.drop_eq_nil_iff, List.length_take]
      rcases not_and_or.mp hc with hc | hc
      · rw [not_ne_iff.mp hc]
        exact min_le_left _ _
      · omega
    refine ⟨col, ?_, ?_⟩
    · rcases not_and_or.mp hc with hc | hc
      · rw [not_ne_iff.mp hc]
        omega
      · omega
    · rw [hnil]
      simp

/-- The columns up to `thisCol` are those of the old row, and empty behind its end. -/
lemma fillTo_spec (h : ValueBag.Fits cols) (done : List Bytes) (gap rest : Bytes)
    (thisCol col : UInt32) (hcol : col.toNat = done.length) (hle : col.toNat ≤ thisCol.toNat)
    (hn : thisCol.toNat ≤ n) (hlen : gap.length + 2 * done.length = 2 * (n + 1))
    (hrest : (ValueBag.oldColumns cols col.toNat thisCol.toNat).flatten.length ≤ rest.length)
    (hfit : 4 + 2 * n + done.flatten.length
      + (ValueBag.oldColumns cols col.toNat thisCol.toNat).flatten.length < 2 ^ 16) :
    let old := ValueBag.oldColumns cols col.toNat thisCol.toNat
    fillTo ⟨ts, encode cols⟩ cols.length thisCol col (4 + 2 * n + done.flatten.length)
        (drafted n done gap rest wrapped)
      = some (4 + 2 * n + (done ++ old).flatten.length,
          drafted n (done ++ old) (gap.drop (2 * old.length)) (rest.drop old.flatten.length)
            wrapped) := by
  intro old
  have hold : old = (cols.take thisCol.toNat).drop col.toNat
      ++ List.replicate (thisCol.toNat - max col.toNat (min thisCol.toNat cols.length)) [] :=
    oldColumns_eq cols hle
  set seg := (cols.take thisCol.toNat).drop col.toNat with hseg
  set count := thisCol.toNat - max col.toNat (min thisCol.toNat cols.length) with hcount
  have hseglen : seg.length = max col.toNat (min thisCol.toNat cols.length) - col.toNat := by
    rw [hseg, List.length_drop, List.length_take]
    omega
  have hflat : old.flatten = seg.flatten := by
    rw [hold, List.flatten_append, List.flatten_replicate_nil, List.append_nil]
  have holdlen : old.length = seg.length + count := by
    rw [hold, List.length_append, List.length_replicate]
  change old.flatten.length ≤ rest.length at hrest
  change 4 + 2 * n + done.flatten.length + old.flatten.length < 2 ^ 16 at hfit
  rw [hflat] at hrest hfit
  obtain ⟨endCol, hend, hcopy⟩ := @copyOld_spec cols ts n wrapped h done gap rest thisCol col hcol
    hle (by omega) hlen hrest hfit
  rw [← hseg] at hcopy
  have hmark := @markEmpty_spec n wrapped (done ++ seg).flatten (rest.drop seg.flatten.length)
    (4 + 2 * n + (done ++ seg).flatten.length) count endCol (offsetsFrom (4 + 2 * n) (done ++ seg))
    (gap.drop (2 * seg.length))
    (by rw [offsetsFrom_length, List.length_append, hend]; omega)
    (by rw [offsetsFrom_length, List.length_append]; have := thisCol.toNat_lt; omega)
    (by rw [List.length_drop]; omega)
    (by rw [List.flatten_append, List.length_append]; omega)
  rw [fillTo, hcopy, Option.bind_eq_bind, Option.bind_some]
  simp only
  rw [toNat_sub_of_le (by rw [hend]; omega), hend, ← hcount, drafted, hmark, Option.bind_eq_bind,
    Option.bind_some, ← offsetsFrom_replicate, ← offsetsFrom_append, List.append_assoc,
    ← hold, List.drop_drop, holdlen, Nat.mul_add]
  simp only [drafted, List.flatten_append, hflat]

/-- The last offset. -/
lemma storePos_last (cols : List Bytes) (h : ValueBag.Fits cols) (gap : Bytes)
    (hgap : gap.length = 2) :
    (drafted cols.length cols gap [] wrapped).storePos cols.length
        ((4 + 2 * cols.length + cols.flatten.length : ℕ) : ℤ)
      = some ⟨encode cols, wrapped⟩ := by
  have hfit : 4 + 2 * cols.length + cols.flatten.length < 2 ^ 16 := by
    rw [← endOffset_eq]
    exact h
  rw [drafted, Draft.storePos_next (by rw [offsetsFrom_length]) hgap.ge hfit,
    List.drop_eq_nil_of_le hgap.le, ← endOffset_eq, partlyFilled_encode]

/-- The rest of the old row is all that is left. -/
lemma fillTo_last (h : ValueBag.Fits cols) (ncol : UInt32) (done : List Bytes) (gap rest : Bytes)
    (col : UInt32) (hcol : col.toNat = done.length) (hle : col.toNat ≤ ncol.toNat)
    (hlen : gap.length + 2 * done.length = 2 * (ncol.toNat + 1))
    (hrest : (ValueBag.oldColumns cols col.toNat ncol.toNat).flatten.length = rest.length)
    (hfit : 4 + 2 * ncol.toNat + done.flatten.length
      + (ValueBag.oldColumns cols col.toNat ncol.toNat).flatten.length < 2 ^ 16) :
    done.length + (ValueBag.oldColumns cols col.toNat ncol.toNat).length = ncol.toNat ∧
    (fillTo ⟨ts, encode cols⟩ cols.length ncol col (4 + 2 * ncol.toNat + done.flatten.length)
        (drafted ncol.toNat done gap rest wrapped)).bind
        (fun r => r.2.storePos ncol.toNat (r.1 : ℕ))
      = some ⟨encode (done ++ ValueBag.oldColumns cols col.toNat ncol.toNat), wrapped⟩ := by
  have hlen' : done.length + (ValueBag.oldColumns cols col.toNat ncol.toNat).length
      = ncol.toNat := by
    simp only [ValueBag.oldColumns, List.length_map, List.length_range']
    omega
  refine ⟨hlen', ?_⟩
  have hfill := @fillTo_spec cols ts ncol.toNat wrapped h done gap rest ncol col hcol hle le_rfl
    hlen hrest.le hfit
  set old := ValueBag.oldColumns cols col.toNat ncol.toNat with hold
  have hall : (done ++ old).length = ncol.toNat := by rw [List.length_append, hlen']
  rw [hfill, Option.bind_some, hrest, List.drop_length]
  simp only
  rw [← hall]
  refine storePos_last (done ++ old) ?_ _ ?_
  · change ValueBag.endOffset _ < 2 ^ 16
    rw [endOffset_eq, hall, List.flatten_append, List.length_append]
    omega
  · rw [List.length_drop]
    omega

/-- A changed column is written behind the columns that are filled in. -/
lemma drafted_append_column (n : ℕ) (done : List Bytes) (gap rest b : Bytes)
    (hgap : gap.length + 2 * done.length = 2 * (n + 1)) (hlt : done.length < n)
    (hrest : b.length ≤ rest.length) (hfit : 4 + 2 * n + done.flatten.length < 2 ^ 16) :
    ((drafted n done gap rest wrapped).storePos done.length
        ((4 + 2 * n + done.flatten.length : ℕ) : ℤ)).bind
        (fun w => w.copy (4 + 2 * n + done.flatten.length) b)
      = some (drafted n (done ++ [b]) (gap.drop 2) (rest.drop b.length) wrapped) := by
  have hpos := @Draft.storePos_next n (offsetsFrom (4 + 2 * n) done) gap done.flatten rest wrapped
    done.length (4 + 2 * n + done.flatten.length) (by rw [offsetsFrom_length]) (by omega) hfit
  have hval := @Draft.copy_data n (4 + 2 * n + done.flatten.length)
    (offsetsFrom (4 + 2 * n) done ++ [4 + 2 * n + done.flatten.length]) (gap.drop 2) done.flatten
    rest b wrapped
    (by
      simp only [List.length_append, offsetsFrom_length, List.length_singleton, List.length_drop]
      omega)
    hrest
  have hsnoc : (done ++ [b]).flatten = done.flatten ++ b := by simp
  rw [drafted, hpos, Option.bind_some, hval, drafted, offsetsFrom_append _ done, hsnoc]
  rfl

/-- **The second loop.** -/
lemma fill_spec (h : ValueBag.Fits cols) (ncol : UInt32) (changes : List Assignment)
    (done new : List Bytes) (gap rest : Bytes) (col : UInt32) (hcol : col.toNat = done.length)
    (hloop : ValueBag.updateLoop cols ncol.toNat col.toNat (indices changes) = some new)
    (hlen : gap.length + 2 * done.length = 2 * (ncol.toNat + 1))
    (hrest : new.flatten.length = rest.length)
    (hfit : 4 + 2 * ncol.toNat + done.flatten.length + new.flatten.length < 2 ^ 16) :
    done.length + new.length = ncol.toNat ∧
    fill ⟨ts, encode cols⟩ cols.length ncol changes col (4 + 2 * ncol.toNat + done.flatten.length)
        (drafted ncol.toNat done gap rest wrapped)
      = some ⟨encode (done ++ new), wrapped⟩ := by
  induction changes generalizing done new gap rest col with
  | nil =>
      rw [indices, List.map_nil, ValueBag.updateLoop] at hloop
      split_ifs at hloop with hle
      cases hloop
      exact fillTo_last h ncol done gap rest col hcol hle hlen hrest hfit
  | cons a as ih =>
      rw [indices, List.map_cons, ValueBag.updateLoop] at hloop
      split_ifs at hloop with hbad heq
      · -- the row ends before the change
        obtain ⟨hle, -⟩ := not_or.mp hbad
        cases hloop
        have hthis : a.1.toUInt32 = ncol := UInt32.toNat_inj.mp heq
        obtain ⟨h1, h2⟩ := @fillTo_last cols ts wrapped h ncol done gap rest col hcol (by omega)
          hlen hrest hfit
        refine ⟨h1, ?_⟩
        rw [fill, hthis]
        simp only [↓reduceIte]
        exact h2
      · obtain ⟨hle, hle'⟩ := not_or.mp hbad
        obtain ⟨new', hnew', rfl⟩ := Option.map_eq_some_iff.mp hloop
        have hthis : a.1.toUInt32 ≠ ncol := fun he => heq (by rw [he])
        set old := ValueBag.oldColumns cols col.toNat a.1.toUInt32.toNat with hold
        have holdlen : done.length + old.length = a.1.toUInt32.toNat := by
          simp only [hold, ValueBag.oldColumns, List.length_map, List.length_range']
          omega
        have hflat : (old ++ a.2 :: new').flatten.length
            = old.flatten.length + a.2.length + new'.flatten.length := by
          simp only [List.flatten_append, List.flatten_cons, List.length_append]
          omega
        rw [hflat] at hrest hfit
        have hfill := @fillTo_spec cols ts ncol.toNat wrapped h done gap rest a.1.toUInt32 col hcol
          (by omega) (by omega) hlen (by rw [← hold]; omega) (by rw [← hold]; omega)
        rw [← hold] at hfill
        have hdone : (done ++ old).length = a.1.toUInt32.toNat := by
          rw [List.length_append, holdlen]
        have hstep := @drafted_append_column wrapped ncol.toNat (done ++ old)
          (gap.drop (2 * old.length)) (rest.drop old.flatten.length) a.2
          (by rw [List.length_drop, List.length_append]; omega) (by rw [hdone]; omega)
          (by rw [List.length_drop]; omega)
          (by rw [List.flatten_append, List.length_append]; omega)
        have hnext : (a.1.toUInt32 + 1).toNat = (done ++ old ++ [a.2]).length := by
          have := ncol.toNat_lt
          rw [UInt32.toNat_add, List.length_append, hdone, List.length_singleton]
          exact Nat.mod_eq_of_lt (by change a.1.toUInt32.toNat + 1 < 2 ^ 32; omega)
        have hsz : 4 + 2 * ncol.toNat + (done ++ old).flatten.length + a.2.length
            = 4 + 2 * ncol.toNat + (done ++ old ++ [a.2]).flatten.length := by
          have hsnoc : (done ++ old ++ [a.2]).flatten = (done ++ old).flatten ++ a.2 := by simp
          rw [hsnoc, List.length_append]
          omega
        obtain ⟨i1, i2⟩ := ih (done ++ old ++ [a.2])
          new' ((gap.drop (2 * old.length)).drop 2) ((rest.drop old.flatten.length).drop a.2.length)
          (a.1.toUInt32 + 1) hnext (by rw [hnext, List.length_append, hdone]; exact hnew')
          (by
            simp only [List.length_append, List.length_drop, List.length_singleton]
            omega)
          (by simp only [List.length_drop]; omega)
          (by
            simp only [List.flatten_append, List.length_append, List.flatten_singleton]
            omega)
        refine ⟨?_, ?_⟩
        · rw [List.length_append, hdone, List.length_singleton] at i1
          rw [List.length_append, List.length_cons]
          omega
        · have hnew : done ++ old ++ [a.2] ++ new' = done ++ (old ++ a.2 :: new') := by simp
          rw [hnew] at i2
          rw [hdone] at hstep
          rw [fill, hfill, Option.bind_eq_bind, Option.bind_some]
          simp only [if_neg hthis]
          rw [Option.bind_eq_bind, ← Option.bind_assoc, hstep, Option.bind_some, hsz, i2]

end Bag

end MasstreeLHM
