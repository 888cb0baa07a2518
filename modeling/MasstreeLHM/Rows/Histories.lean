import MasstreeLHM.Rows.Update

/-!
# Rows and their histories

What holds of every row that `create`, `create1` and `update` make, one after the other.

`create1` does not go through `update`.  It stores the offset behind its one string without a look
at its length (`create1Draft_eq`), so only a string that leaves room for the two offsets becomes a
proper row (`create1_spec`).

A history is a derivation of `Made`: a new row, and then changes that are increasing in their
columns and make a row that its offsets can reach.  `Made.eq_encode` carries the invariant, that the
row is laid out as its columns say, through such a history.  **`made_update`** says what the next
`update` then does: it stays in memory, it returns the columns that the changes ask for and keeps
the others, and a checkpoint of the new row gives the row back.  `not_sized_longString` is where the
histories have to stop: the row of a string of 65530 bytes stores 0 for its end.
-/

namespace MasstreeLHM

namespace Bag

/-! ## `create1` -/

/-- **`create1`** lays out its one column; of the offset behind it only 16 bits remain. -/
lemma create1Draft_eq (init : ℕ → UInt8) (str : Bytes) :
    create1Draft init str
      = some ⟨storeLE 2 1 ++ storedOffsets [6, (6 + str.length) % 2 ^ 16] ++ str,
          !decide (6 + str.length < 2 ^ 16)⟩ := by
  set block := allocate init (4 + 2 + str.length) with hblock
  have hlen : block.length = 6 + str.length := by
    rw [hblock, allocate_length]
  have hgap : ((block.drop 2).take (2 * (1 + 1))).length = 4 := by
    rw [List.length_take, List.length_drop]
    omega
  have hrest : ((block.drop 2).drop (2 * (1 + 1))).length = str.length := by
    rw [List.length_drop, List.length_drop]
    omega
  have hstart := @Draft.storeOffset_start 1 block (by omega) (by omega)
  have hsecond := @Draft.storePos_next 1 (offsetsFrom (4 + 2 * 1) [])
    ((block.drop 2).take (2 * (1 + 1))) [] ((block.drop 2).drop (2 * (1 + 1))) false 0 6 rfl
    (by omega) (by omega)
  have hthird := @Draft.storePos_wrap 1 (offsetsFrom (4 + 2 * 1) [] ++ [6])
    (((block.drop 2).take (2 * (1 + 1))).drop 2) [] ((block.drop 2).drop (2 * (1 + 1))) false 1
    (6 + str.length) rfl (by rw [List.length_drop]; omega)
  have hfourth := @Draft.copy_data 1 6
    (offsetsFrom (4 + 2 * 1) [] ++ [6] ++ [(6 + str.length) % 2 ^ 16])
    ((((block.drop 2).take (2 * (1 + 1))).drop 2).drop 2) []
    ((block.drop 2).drop (2 * (1 + 1))) str (false || !decide (6 + str.length < 2 ^ 16))
    (by
      rw [List.length_drop, List.length_drop, hgap]
      rfl)
    (by omega)
  have hnil : (((block.drop 2).take (2 * (1 + 1))).drop 2).drop 2 = [] := by
    rw [List.drop_eq_nil_iff, List.length_drop]
    omega
  have hnil' : ((block.drop 2).drop (2 * (1 + 1))).drop str.length = [] := by
    rw [List.drop_eq_nil_iff]
    omega
  rw [hnil, hnil'] at hfourth
  rw [hnil] at hthird
  rw [create1Draft, ← hblock]
  change (Draft.storeOffset ⟨block, false⟩ 0 ((1 : ℕ) : ℤ)).bind _ = _
  rw [hstart, Option.bind_some, drafted]
  change (Draft.storePos _ 0 ((6 : ℕ) : ℤ)).bind _ = _
  rw [List.flatten_nil, hsecond, Option.bind_some]
  change (Draft.storePos _ 1 ((6 + str.length : ℕ) : ℤ)).bind _ = _
  rw [hthird, Option.bind_some, hfourth, partlyFilled, List.append_nil, List.append_nil,
    List.nil_append, Bool.false_or]
  rfl

/-- The row of a string that leaves room for its offsets. -/
lemma create1_spec (init : ℕ → UInt8) {str : Bytes} (ts : UInt64) (h : 6 + str.length < 2 ^ 16) :
    create1 init str ts = some ⟨ts, encode [str]⟩ ∧ ValueBag.Fits [str] := by
  have hend : ValueBag.endOffset [str] = 6 + str.length := by
    rw [endOffset_eq, List.flatten_singleton]
    rfl
  refine ⟨?_, by change ValueBag.endOffset [str] < 2 ^ 16; omega⟩
  rw [create1, create1Draft_eq, Nat.mod_eq_of_lt h, Option.map_some, encode, hend,
    List.flatten_singleton]
  rfl

/-! ## Histories -/

/-- The columns of a row as `col` returns them. -/
def columns (row : Bag) : List Bytes :=
  (List.range (row.ncol.getD 0)).map fun i => (row.col (UInt32.ofNat i)).getD []

/-- A row that came out of `create`, `create1` and `update`, where every set of changes was
increasing in its columns and every row could be reached with 16-bit offsets. -/
inductive Made : Bag → Prop where
  | create {init : ℕ → UInt8} {changes : List Assignment} {ts : UInt64} {row : Bag}
      (hinc : Increasing (plain changes))
      (hfit : ValueBag.Fits (assigned [] (plain changes)))
      (h : Bag.create init changes ts = some row) : Made row
  | create1 {init : ℕ → UInt8} {str : Bytes} {ts : UInt64} {row : Bag}
      (hfit : ValueBag.Fits [str])
      (h : Bag.create1 init str ts = some row) : Made row
  | update {old : Bag} (hold : Made old) {init : ℕ → UInt8} {changes : List Assignment}
      {ts : UInt64} {row : Bag} (hinc : Increasing (plain changes))
      (hfit : ValueBag.Fits (assigned old.columns (plain changes)))
      (h : old.update init changes ts = some row) : Made row

lemma empty_eq : empty = ⟨0, encode []⟩ := rfl

lemma encode_columns {cols : List Bytes} {ts : UInt64} (h : ValueBag.Fits cols) :
    columns ⟨ts, encode cols⟩ = cols := by
  have hlen := fits_length h
  rw [columns, encode_ncol h, Option.getD_some]
  refine List.ext_getElem (by simp) fun i h1 h2 => ?_
  rw [List.getElem_map, List.getElem_range, encode_col h, UInt32.toNat_ofNat',
    Nat.mod_eq_of_lt (by omega), Option.getD_some, List.getD_eq_getElem?_getD,
    List.getElem?_eq_getElem h2, Option.getD_some]

/-- Every such row is laid out as its columns say. -/
lemma Made.eq_encode {row : Bag} (h : Made row) :
    row.d = encode row.columns ∧ ValueBag.Fits row.columns := by
  have hlaid : ∀ {ts : UInt64} {cols : List Bytes}, row = ⟨ts, encode cols⟩ → ValueBag.Fits cols →
      row.d = encode row.columns ∧ ValueBag.Fits row.columns := by
    intro ts cols hrow hfit
    rw [hrow, encode_columns hfit]
    exact ⟨rfl, hfit⟩
  induction h with
  | create hinc hfit h =>
      rw [Bag.create, empty_eq, update_plain (by decide) hinc hfit] at h
      exact hlaid (Option.some.inj h).symm hfit
  | @create1 _ str ts _ hfit h =>
      have hend : ValueBag.endOffset [str] = 6 + str.length := by
        rw [endOffset_eq, List.flatten_singleton]
        rfl
      have hlt : ValueBag.endOffset [str] < 2 ^ 16 := hfit
      rw [(create1_spec _ ts (by omega)).1] at h
      exact hlaid (Option.some.inj h).symm hfit
  | @update old hold init changes ts row hinc hfit h ih =>
      obtain ⟨hd, hold'⟩ :=
        ih (fun hrow hfit => by rw [hrow, encode_columns hfit]; exact ⟨rfl, hfit⟩)
      have heq : old = ⟨old.ts, encode old.columns⟩ := by rw [← hd]
      rw [heq, update_plain hold' hinc hfit] at h
      exact hlaid (Option.some.inj h).symm hfit

/-- A checkpoint of a laid out row gives the row back. -/
lemma checkpoint_encode {cols : List Bytes} (h : ValueBag.Fits cols) (ts : UInt64)
    (init : ℕ → UInt8) (rest : Bytes) :
    ∃ written, checkpointWrite ⟨ts, encode cols⟩ = some written ∧
      checkpointRead init (written ++ rest) ts = some (⟨ts, encode cols⟩, rest) := by
  have hf : ValueBag.endOffset cols < 2 ^ 16 := h
  refine ⟨Msgpack.writeString (encode cols), ?_, ?_⟩
  · rw [checkpointWrite, encode_rowString h, Option.map_some]
  · have hpoke : poke (allocate init (encode cols).length) 0 (encode cols) =
      some (encode cols) := by
      rw [poke, if_pos (by rw [allocate_length]; omega), List.take_zero,
        List.drop_of_length_le (by rw [allocate_length]; omega), List.nil_append, List.append_nil]
    rw [checkpointRead, Msgpack.readStr_writeString rest (by rw [encode_length]; omega),
      Option.bind_eq_bind, Option.bind_some]
    simp only
    rw [hpoke, Option.bind_eq_bind, Option.bind_some]

/-- **What `update` returns.** -/
theorem made_update {row : Bag} (hrow : Made row) (changes : List Assignment)
    (hinc : Increasing (plain changes))
    (hfit : ValueBag.Fits (assigned row.columns (plain changes))) (ts : UInt64)
    (init init' : ℕ → UInt8) (rest : Bytes) :
    ∃ row' n size n' size' written, row.update init changes ts = some row' ∧
      -- the number of columns, the columns, the timestamp and the size
      row.ncol = some n ∧ row'.ncol = some n' ∧ n' = max n (changedEnd (plain changes)) ∧
      (∀ i, ∃ old, row.col i = some old ∧
        row'.col i = some ((requested (plain changes) i.toNat).getD old)) ∧
      row'.ts = ts ∧ row'.size = some size' ∧ size' = row'.allocated ∧
      -- the path for one small column and the general one
      row.size = some size ∧
      (∀ c v, changes = [(c, v)] → n' = n → size' = size → ∀ block : Bytes,
        block.length + 8 = size' → row.replaceOne block c v = some ⟨row'.d, false⟩ ∧
          row.rebuild block n (UInt32.ofNat n') changes = some ⟨row'.d, false⟩) ∧
      -- a checkpoint
      row'.checkpointWrite = some written ∧
      checkpointRead init' (written ++ rest) ts = some (row', rest) := by
  obtain ⟨hd, hold⟩ := hrow.eq_encode
  obtain ⟨ts₀, d⟩ := row
  generalize columns ⟨ts₀, d⟩ = cols at hd hold hfit
  simp only at hd
  subst hd
  obtain ⟨written, hw, hr⟩ := checkpoint_encode hfit ts init' rest
  refine ⟨⟨ts, encode (assigned cols (plain changes))⟩, cols.length,
    8 + ValueBag.endOffset cols, (assigned cols (plain changes)).length,
    8 + ValueBag.endOffset (assigned cols (plain changes)), written,
    update_plain hold hinc hfit init ts, encode_ncol hold,
    encode_ncol hfit, assigned_length _ _, fun i => ⟨_, encode_col hold i, ?_⟩, rfl,
    encode_size hfit, ?_, encode_size hold, ?_, hw, hr⟩
  · rw [encode_col hfit, assigned_getD cols hinc]
  · rw [allocated, encode_length]
  · intro c v hchanges hn hsize block hblock
    subst hchanges
    obtain ⟨heq, htable⟩ := indices_eq_plain hinc hfit
    have hreb := @rebuild_spec cols ts₀ hold [(c, v)] (heq ▸ hinc) (heq ▸ hfit) block
    obtain ⟨hc, hv⟩ := @keeps_length cols c v (heq ▸ hinc) (heq ▸ hfit) (heq ▸ hn)
      (by rw [heq]; omega)
    rw [heq] at hreb
    have hidx : c.toUInt32.toNat = c.toNat := congrArg (fun l => (l.headD (0, [])).1) heq
    rw [hidx] at hc hv
    exact ⟨replaceOne_spec hold hc hv block (by omega), hreb (by omega)⟩

/-- A second column behind the one of `create1`. -/
theorem made_update_secondColumn :
    ∃ row row', create1 (fun _ => 0) [120] 2 = some row ∧
      row.update (fun _ => 0) [(1, [121])] 4 = some row' ∧ row'.ncol = some 2 := by
  obtain ⟨hrow, hfit⟩ := @create1_spec (fun _ => 0) [120] 2 (by decide)
  obtain ⟨row', n, -, n', -, -, hupdate, hn, hn', hmax, -⟩ :=
    made_update (.create1 hfit hrow) [(1, [121])] (by decide)
      (by rw [encode_columns hfit]; decide) 4 (fun _ => 0) (fun _ => 0) []
  rw [encode_ncol hfit] at hn
  cases hn
  exact ⟨_, row', hrow, hupdate, by rw [hn', hmax]; rfl⟩

/-- `create1` of 65530 bytes stores 0 for the offset 65536.  Replacing the one column by a byte then
asks for almost `2 ^ 64` bytes. -/
theorem not_sized_longString :
    ∃ row, create1 (fun _ => 0) (List.replicate 65530 0) 2 = some row ∧
      ValueBag.Fits (assigned row.columns (plain [(0, [120])])) ∧
      row.update (fun _ => 0) [(0, [120])] 4 = none := by
  obtain ⟨str, hstr⟩ : ∃ str : Bytes, List.replicate 65530 0 = str := ⟨_, rfl⟩
  have hlen : str.length = 65530 := by rw [← hstr, List.length_replicate]
  rw [hstr]
  set row : Bag := ⟨2, storeLE 2 1 ++ storedOffsets [6, 0] ++ str⟩ with hrow
  have hcreate : create1 (fun _ => 0) str 2 = some row := by
    rw [create1, create1Draft_eq, hlen]
    rfl
  have hd : row.d = storeLE 2 1 ++ storeLE 2 6 ++ (storeLE 2 0 ++ str) := rfl
  have hd' : row.d = storeLE 2 1 ++ storeLE 2 6 ++ storeLE 2 0 ++ str := by
    rw [hd, List.append_assoc (_ ++ _)]
  have hncol : row.ncol = some 1 := by
    rw [ncol, hd, List.append_assoc, ← List.nil_append (storeLE 2 1), List.append_assoc,
      ← List.append_assoc [], @peek_append [] (storeLE 2 1) _ 0 2 rfl rfl]
    rfl
  have hpos0 : row.pos 0 = some 6 := by
    rw [pos, hd, @peek_append (storeLE 2 1) (storeLE 2 6) _ (2 + 2 * 0) 2 rfl rfl]
    rfl
  have hpos1 : row.pos 1 = some 0 := by
    rw [pos, hd', @peek_append (storeLE 2 1 ++ storeLE 2 6) (storeLE 2 0) str (2 + 2 * 1) 2 rfl rfl]
    rfl
  have hsize : row.size = some 8 := by
    rw [size, hncol, Option.bind_eq_bind, Option.bind_some, hpos1]
    rfl
  have hlength : row.columnLength 0 = some 65530 := by
    rw [columnLength, hpos0, hpos1]
    rfl
  have hcol : row.col 0 = some str := by
    have hpeek : peek row.d 6 65530 = some str := by
      rw [hrow, ← List.append_nil (_ ++ str)]
      exact peek_append rfl hlen.symm
    have h0 : (0 : UInt32).toNat = 0 := rfl
    rw [col, hncol, Option.bind_eq_bind, Option.bind_some, h0, if_pos Nat.zero_lt_one, hpos0,
      Option.bind_some, hlength, Option.bind_some, hpeek]
  have hcolumns : row.columns = [str] := by
    rw [columns, hncol]
    exact congrArg (fun c : Option Bytes => [c.getD []]) hcol
  refine ⟨row, hcreate, ?_, ?_⟩
  · have hone : assigned row.columns (plain [(0, [120])]) = [[120]] := by
      rw [hcolumns]
      exact @assigned_one [str] 0 Nat.zero_lt_one [120]
    rw [hone]
    decide
  · have hextent : row.extent 1 8 [(0, [120])] = some (8 + 1 - 65530, 1) := by
      have h0 : (0 : UInt64).toUInt32.toNat = 0 := rfl
      rw [extent, measure, h0, if_pos Nat.zero_lt_one, hlength]
      rfl
    rw [update, updateDraft, hncol, Option.bind_eq_bind, Option.bind_some, hsize, Option.bind_some,
      hextent]
    rfl

end Bag

end MasstreeLHM
