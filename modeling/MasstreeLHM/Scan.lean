import MasstreeLHM.Namespace

/-!
# Scanning the whole table

`basic_table::scan` of `masstree_scan.hh` with the forward helper and the empty first key, which is
how `scan_subtree` runs it.  The scan is a state machine: it walks the leaf chain of a layer, goes
down into the layer of a directory slot, and comes back up to the slot it left.

`Scan` is the state: the stack of leaves and layer roots that the scan has come through, the key
with the slices of the layers above, the current entry and what it is about to do.  `Scan.findNext`
looks for the next slot, in this leaf or in the next one, and `Scan.findRetry` enters a layer.
`Scan.step` is a round of the main loop.

The scan key has a fixed size. Where there is no room for the slice of another layer the source
writes behind the key; that is no result here, so a run that comes out has stayed in its buffer.
-/

namespace MasstreeLHM

/-- `MASSTREE_MAXKEYLEN`. -/
def masstreeMaxkeylen : ℕ := 1024

/-- The scan key `ka`: the slices before `s_` in the key buffer, the current slice, `len_`. -/
structure ScanKey where
  shifted : List ℕ
  ikey : ℕ
  len : ℕ
deriving Repr, DecidableEq

/-- `scan_emit`, `scan_find_next`, `scan_down`, `scan_up`, `scan_retry`. -/
inductive ScanState where
  | emit
  | findNext
  | down
  | up
  | retry
deriving Repr, DecidableEq

/-- `scanstackelt` with the key, the current entry, the pending state and the visited values.
`stack` is `node_stack_`, one leaf and layer root per element. -/
structure Scan where
  root : Ptr
  n : Ptr
  ki : ℕ
  stack : List (Ptr × Ptr)
  ka : ScanKey
  entry : LeafValue
  state : ScanState
  out : List (List ℕ × NamespaceEntry)

namespace Scan

/-- `helper.lower`: the first position of the leaf that is not before the scan key. -/
def lowerPosition (h : Heap Cell) (n : Ptr) (ka : ScanKey) : ℕ × Option ℕ :=
  let l := h.leaf n
  lowerBy (fun p => keyCompare ka.ikey ka.len (l.slot p)) l.permutation.live

/-- `find_next`.  A slot that was already passed is skipped by looking at the next one. -/
def findNext (h : Heap Cell) (s : Scan) : Option Scan :=
  let l := h.leaf s.n
  if l.deleted then some { s with state := .retry }
  else if s.ki < l.size then
    let sl := l.slot (l.permutation.get s.ki)
    if 0 ≤ keyCompare s.ka.ikey s.ka.len sl then some { s with ki := s.ki + 1, state := .findNext }
    -- `assign_store_ikey` writes eight bytes behind the shifted slices
    else if masstreeMaxkeylen < 8 * (s.ka.shifted.length + 1) then none
    else if sl.body.isLayer then
      sl.body.lv.layer?.map fun r =>
        { s with ka := { s.ka with ikey := sl.ikey }, stack := (s.n, s.root) :: s.stack, root := r
                 entry := sl.body.lv, state := .down }
    else
      some { s with ka := { s.ka with ikey := sl.ikey, len := sl.body.keylenx }
                    entry := sl.body.lv, state := .emit }
  else
    match l.next with
    | none => some { s with state := .up }
    | some m => some { s with n := m, ki := (lowerPosition h m s.ka).1, state := .findNext }

/-- `find_initial` and `find_retry`: enter the layer at `root`.  With the empty first key the
two agree, since no slot compares equal to a key of length 0. -/
def findRetry (h : Heap Cell) (s : Scan) : Option Scan :=
  match reachLeaf h s.root s.ka.ikey with
  | none => none
  | some n =>
      if (h.leaf n).deleted then none
      else some { s with n := n, ki := (lowerPosition h n s.ka).1, state := .findNext }

/-- One round of the main loop of `scan`; the left result ends the scan. -/
def step (h : Heap Cell) (s : Scan) : Option (List (List ℕ × NamespaceEntry) ⊕ Scan) :=
  match s.state with
  | .emit =>
      s.entry.value?.bind fun v =>
        (findNext h { s with
          ki := s.ki + 1, out := s.out ++ [(s.ka.shifted ++ [s.ka.ikey], v)] }).map
          Sum.inr
  | .findNext => (findNext h s).map Sum.inr
  | .up =>
      match s.stack with
      | [] => some (Sum.inl s.out)
      | (n, root) :: stack =>
          -- `unshift`: the slice is read back from the buffer, the length becomes 9
          let ka : ScanKey := ⟨s.ka.shifted.dropLast, s.ka.shifted.getLastD 0, 9⟩
          (findNext h { s with n := n, root := root, stack := stack, ka := ka
                               ki := (lowerPosition h n ka).1 }).map Sum.inr
  | .down =>
      (findRetry h { s with ka := ⟨s.ka.shifted ++ [s.ka.ikey], 0, 0⟩ }).map Sum.inr
  | .retry => (findRetry h s).map Sum.inr

/-- The main loop. -/
def loop (h : Heap Cell) : ℕ → Scan → Option (List (List ℕ × NamespaceEntry))
  | 0, _ => none
  | fuel + 1, s =>
      match step h s with
      | none => none
      | some (Sum.inl out) => some out
      | some (Sum.inr s) => loop h fuel s

/-- `table_.scan(Str(""), false, ...)`: the visited keys, as component vectors, and values. -/
def run (fuel : ℕ) (s : LhmNamespace) : Option (List (List ℕ × NamespaceEntry)) :=
  loop s.heap fuel
    ⟨s.root, s.root, 0, [], ⟨[], 0, 0⟩, .value default, .retry, []⟩

end Scan

end MasstreeLHM
