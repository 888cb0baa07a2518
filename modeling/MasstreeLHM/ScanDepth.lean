import MasstreeLHM.ScanPaths

/-!
# The key buffer of a scan

`basic_table::scan` keeps the slices of the layers it has gone down through in a buffer of
`MASSTREE_MAXKEYLEN` bytes, and nothing bounds how deep directories nest.  What it writes stays
within the buffer as long as no entry lies deeper than the buffer is long.

`LayerAt` counts the directories above a layer, and `Shallow` says that no entry has more components
than the buffer has slices.  `Overflows` is the moment in which `find_next` stores a slice behind
the end of the buffer; it is defined on the state of the scan, before the round that would do it.

**`writesWithin_of_shallow`** follows from where a scan can be: the slices in its key are as many as
there are directories above its layer, which is known of every state that it reaches.
-/

namespace MasstreeLHM

/-! ## Where the scan can get -/

/-- The layer of `r` is the one of a directory with `d` components, under the layer of `root`. -/
inductive LayerAt (h : Heap Cell) (root : Ptr) : ℕ → Ptr → Prop
  | root : LayerAt h root 0 root
  | slot {d : ℕ} {r n i r' : ℕ} (hr : LayerAt h root d r) (hn : LeafOf h r n)
      (hi : i < (h.leaf n).size)
      (hl : ((h.leaf n).slot ((h.leaf n).permutation.get i)).body.lv.layer? = some r') :
      LayerAt h root (d + 1) r'

/-- No entry has a path of more components than the key buffer has slices. -/
def LhmNamespace.Shallow (s : LhmNamespace) : Prop :=
  ∀ d r n, LayerAt s.heap s.root d r → LeafOf s.heap r n → 0 < (s.heap.leaf n).size →
    8 * (d + 1) ≤ masstreeMaxkeylen

lemma LayerOn.layerAt {h : Heap Cell} {root r : Ptr} {xs : List ℕ} (hr : LayerOn h root xs r) :
    LayerAt h root xs.length r := by
  induction hr with
  | root => exact .root
  | slot _ hn hi hl ih =>
      rw [List.length_append]
      exact .slot ih hn hi hl

namespace Scan

/-! ## What the scan writes -/

/-- `find_next` comes to an entry whose slice it stores behind the end of the buffer. -/
def Overflows (h : Heap Cell) (s : Scan) : Prop :=
  (h.leaf s.n).deleted = false ∧ s.ki < (h.leaf s.n).size ∧
    keyCompare s.ka.ikey s.ka.len
      ((h.leaf s.n).slot ((h.leaf s.n).permutation.get s.ki)) < 0 ∧
    masstreeMaxkeylen < 8 * (s.ka.shifted.length + 1)

instance (h : Heap Cell) (s : Scan) : Decidable (Overflows h s) :=
  inferInstanceAs (Decidable (_ ∧ _))

/-- The scan never stores a slice behind the end of the buffer. -/
def WritesWithin (s : LhmNamespace) : Prop :=
  ∀ t u, Relation.ReflTransGen (Leads s.heap) (initial s) t → t.entering s.heap = some u →
    ¬ u.Overflows s.heap

/-- **A scan of a table without deep entries stays within the buffer.** -/
lemma writesWithin_of_shallow {s : LhmNamespace} (hs : s.Shallow) : WritesWithin s := by
  intro t u hreach hu hover
  obtain ⟨hin, -⟩ := (ok_of_reach hreach).entering hu
  have hfit := hs _ _ _ hin.layer.layerAt hin.leaf (Nat.zero_lt_of_lt hover.2.1)
  have := hover.2.2.2
  omega

end Scan

end MasstreeLHM
