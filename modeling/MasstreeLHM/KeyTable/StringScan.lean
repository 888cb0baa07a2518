import MasstreeLHM.Keys.PathCodec
import MasstreeLHM.KeyTable.StringTable
import MasstreeLHM.Scan

/-!
# Scanning a table of byte strings

`basic_table::scan` with the forward helper: from a first key, through the leaves of a layer, down
into the layers on the way and up again.  The key of the scan lies in a buffer of
`MASSTREE_MAXKEYLEN` bytes; the model stops where something would be stored behind its end.

`BufferKey` is the key with its buffer, and its operations store bytes as the source does:
`assignStoreIkey` puts a slice into the buffer, `assignStoreSuffix` a suffix behind it, and `shift`,
`shiftClear` and `unshift` move between the slices.  `unshift` reads a slice back from the buffer.

`StringScan` is the state of the scan.  `descend` is the first loop of `scan`, which goes down along
the first key with `findInitial`, and `step` is a round of the main loop, with `findNext` and
`findRetry`.  The visitor is a function of all that has been visited.
-/

namespace MasstreeLHM.KeyTable

variable {V : Type} [Inhabited V]

/-- The scan key: the key buffer, the place of `s_` in it, `ikey0_` and `len_`. -/
structure BufferKey where
  buf : Bytes
  pos : ℕ
  ikey : ℕ
  len : ℕ

namespace BufferKey

/-- `key_type ka(keybuf.s, firstkey.len)`, with the first key copied into the buffer. -/
def ofStr (firstkey : Bytes) : BufferKey :=
  ⟨firstkey ++ List.replicate (masstreeMaxkeylen - firstkey.length) 0, 0, slice firstkey,
    firstkey.length⟩

/-- Bytes are stored `at` bytes behind `s_`. -/
def store (k : BufferKey) (offset : ℕ) (bs : Bytes) : Option BufferKey :=
  if k.pos + offset + bs.length ≤ k.buf.length then some { k with
    buf := memcpyAt k.buf (k.pos + offset) bs } else none

/-- `assign_store_ikey`. -/
def assignStoreIkey (k : BufferKey) (ikey : ℕ) : Option BufferKey :=
  { k with ikey := ikey }.store 0 (storeBE 8 ikey)

/-- `assign_store_suffix`. -/
def assignStoreSuffix (k : BufferKey) (a : Bytes) : Option BufferKey := k.store 8 a

/-- `suffix`. -/
def suffix (k : BufferKey) : Bytes := (k.buf.drop (k.pos + 8)).take (k.len - 8)

/-- `shift`. -/
def shift (k : BufferKey) : BufferKey := ⟨k.buf, k.pos + 8, slice k.suffix, k.len - 8⟩

/-- `shift_clear`. -/
def shiftClear (k : BufferKey) : BufferKey := ⟨k.buf, k.pos + 8, 0, 0⟩

/-- `unshift`: the slice is read back from the buffer. -/
def unshift (k : BufferKey) : BufferKey :=
  ⟨k.buf, k.pos - 8, slice ((k.buf.drop (k.pos - 8)).take 8), 9⟩

/-- `full_string`. -/
def fullString (k : BufferKey) : Bytes := k.buf.take (k.pos + k.len)

/-- The suffix of a slot, if it has one, is copied behind the key; with the length of its whole
key. -/
def copySuffix (k : BufferKey) (store : SuffixStore) (p : ℕ) (s : Slot (Cell V)) :
    Option (BufferKey × ℕ) :=
  if hasKsuf s then do
    let a ← store.get p
    let k ← k.assignStoreSuffix a
    return (k, 8 + a.length)
  else some (k, s.body.keylenx)

/-- `leaf::compare_key`. -/
def compare (k : BufferKey) (s : Slot (Cell V)) : ℤ :=
  (⟨k.ikey, k.len, 0, 0⟩ : Key).compareIkey s.ikey s.body.keylenx

end BufferKey

/-- `scanstackelt` with the key, the entry, the pending state and what has been visited.
`node_stack_` has a leaf and a layer root per element. -/
structure StringScan (V : Type) where
  root : Ptr
  n : Ptr
  ki : ℕ
  stack : List (Ptr × Ptr)
  ka : BufferKey
  entry : LeafValue V
  state : ScanState
  out : List (Bytes × V)

namespace StringScan

/-- `helper.lower_with_position`. -/
def lowerPosition (h : Heap (Cell V)) (n : Ptr) (ka : BufferKey) : ℕ × Option ℕ :=
  let l := h.leaf n
  lowerBy (fun p => ka.compare (l.slot p)) l.permutation.live

/-- `find_initial`. -/
def findInitial (h : Heap (Cell V)) (stores : Ptr → SuffixStore) (emitEqual : Bool)
    (s : StringScan V) :
    Option (StringScan V) := do
  let n ← reachLeaf h s.root s.ka.ikey
  let l := h.leaf n
  if l.deleted then none
  else
    let kx := lowerPosition h n s.ka
    let s := { s with n := n, ki := kx.1 }
    match kx.2 with
    | none => return { s with state := .findNext }
    | some p =>
        let s := { s with entry := (l.slot p).body.lv }
        if isLayer (l.slot p) then
          match (l.slot p).body.lv with
          | .layer r => return { s with stack := (n, s.root) :: s.stack, root := r, state := .down }
          | .value _ => none
        else if hasKsuf (l.slot p) then
          let a ← (stores n).get p
          if s.ka.suffix < a ∨ (a = s.ka.suffix ∧ emitEqual) then
            let ka ← s.ka.assignStoreSuffix a
            return { s with ka := { ka with len := 8 + a.length }, state := .emit }
          else return { s with ki := s.ki + 1, state := .findNext }
        else if emitEqual then return { s with state := .emit }
        else return { s with ki := s.ki + 1, state := .findNext }

/-- The first loop of `scan`: down along the first key. -/
def descend (h : Heap (Cell V)) (stores : Ptr → SuffixStore) (emitFirstkey : Bool) :
    ℕ → StringScan V → Option (StringScan V)
  | 0, _ => none
  | fuel + 1, s =>
      match findInitial h stores emitFirstkey s with
      | none => none
      | some s =>
        if s.state = .down then descend h stores emitFirstkey fuel { s with ka := s.ka.shift } else
          some s

/-- `find_retry`. -/
def findRetry (h : Heap (Cell V)) (s : StringScan V) : Option (StringScan V) :=
  match reachLeaf h s.root s.ka.ikey with
  | none => none
  | some n =>
      if (h.leaf n).deleted then none
      else some { s with n := n, ki := (lowerPosition h n s.ka).1, state := .findNext }

/-- `find_next`.  A slot that was already passed is skipped by looking at the next one; its suffix
has been copied by then. -/
def findNext (h : Heap (Cell V)) (stores : Ptr → SuffixStore) (s : StringScan V) :
    Option (StringScan V) :=
  let l := h.leaf s.n
  if l.deleted then some { s with state := .retry }
  else if s.ki < l.size then do
    let p := l.permutation.get s.ki
    let sl := l.slot p
    let (ka, keylen) ← s.ka.copySuffix (stores s.n) p sl
    let s := { s with ka := ka, entry := sl.body.lv }
    if 0 ≤ ka.compare sl then return { s with ki := s.ki + 1, state := .findNext }
    else
      let ka ← ka.assignStoreIkey sl.ikey
      if isLayer sl then
        match sl.body.lv with
        | .layer r =>
            return { s with ka := ka, stack := (s.n, s.root) :: s.stack, root := r, state := .down }
        | .value _ => none
      else return { s with ka := { ka with len := keylen }, state := .emit }
  else
    match l.next with
    | none => some { s with state := .up }
    | some m => some { s with n := m, ki := (lowerPosition h m s.ka).1, state := .findNext }

/-- One round of the main loop; the left result ends the scan.  `more` is what `visit_value` answers
when all this has been visited. -/
def step (h : Heap (Cell V)) (stores : Ptr → SuffixStore) (more : List (Bytes × V) → Bool)
    (s : StringScan V) :
    Option (List (Bytes × V) ⊕ StringScan V) :=
  match s.state with
  | .emit =>
      match s.entry with
      | .layer _ => none
      | .value v =>
          let out := s.out ++ [(s.ka.fullString, v)]
          if more out then (findNext h stores { s with ki := s.ki + 1, out := out }).map Sum.inr
          else some (Sum.inl out)
  | .findNext => (findNext h stores s).map Sum.inr
  | .up =>
      match s.stack with
      | [] => some (Sum.inl s.out)
      | (n, root) :: stack =>
          let ka := s.ka.unshift
          (findNext h stores { s with n := n, root := root, stack := stack, ka := ka
                                      ki := (lowerPosition h n ka).1 }).map Sum.inr
  | .down => (findRetry h { s with ka := s.ka.shiftClear }).map Sum.inr
  | .retry => (findRetry h s).map Sum.inr

/-- The main loop. -/
def loop (h : Heap (Cell V)) (stores : Ptr → SuffixStore) (more : List (Bytes × V) → Bool) :
    ℕ → StringScan V → Option (List (Bytes × V))
  | 0, _ => none
  | fuel + 1, s =>
      match step h stores more s with
      | none => none
      | some (Sum.inl out) => some out
      | some (Sum.inr s) => loop h stores more fuel s

end StringScan

/-- `basic_table::scan`: the keys and values that are visited. -/
def StringTable.scan (t : StringTable V) (fuel : ℕ) (firstkey : Bytes) (emitFirstkey : Bool)
    (more : List (Bytes × V) → Bool) : Option (List (Bytes × V)) :=
  if masstreeMaxkeylen < firstkey.length then none
  else do
    let s ← StringScan.descend t.heap t.stores emitFirstkey (firstkey.length + 1)
      ⟨t.root, t.root, 0, [], .ofStr firstkey, default, .retry, []⟩
    s.loop t.heap t.stores more fuel

end MasstreeLHM.KeyTable
