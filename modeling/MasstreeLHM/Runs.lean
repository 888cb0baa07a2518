import MasstreeLHM.Names
import MasstreeLHM.Rename

/-!
# Calls and runs

The calls of the public interface, one after another from the state that `initialize` leaves.

`BasicCall` are the calls that work on one path; renames come with `PathCall` later on.
`BasicCall.performAll` runs any number of them and collects what they return, and `none` stands for
a run with a call that does not return.

`parse_eq` separates the parser from the hash: a path is parsed into its components
(`componentsOf`), and the hashes are those of the components.  So `Table.performAt` can be a call on
the abstract table at a list of names.  **`Represents.perform`** is the refinement: a call on a
represented state returns, answers what the table answers, and leaves a state that represents the
new table.  With `initialState_represents` it holds in every run, whatever the hash is and whether
names collide or not.
-/

namespace MasstreeLHM

/-! ## The components of a path -/

/-- The components of an absolute path; `none` is the exception of `parse_absolute_path`. -/
def componentsOf (path : Bytes) : Option (List Bytes) :=
  (parseAbsolutePath (fun _ => 0) path).map ParsedPath.components

/-- The parser looks at the hash function only to record hashes. -/
lemma parseLoop_hash (hash hash' : Bytes → UInt64) : ∀ (fuel : ℕ) {rest : Bytes}
    {cs : List Bytes}, (∀ c ∈ cs, IsName c) →
    parseLoop hash fuel rest (ParsedPath.of hash cs)
      = (parseLoop hash' fuel rest (ParsedPath.of hash' cs)).map fun p =>
          ParsedPath.of hash p.components
  | 0, _, _, _ => rfl
  | fuel + 1, rest, cs, hcs => by
      rw [parseLoop, parseLoop]
      simp only
      split_ifs with h1 h2
      · rfl
      · rfl
      · rw [ParsedPath.push_of hcs, ParsedPath.push_of hcs]
        exact parseLoop_hash hash hash' fuel (names_concat hcs (isName_component h1 h2))

/-- **A path is parsed into its components**, whatever the hash. -/
lemma parse_eq (hash : Bytes → UInt64) (path : Bytes) :
    parseAbsolutePath hash path = (componentsOf path).map (ParsedPath.of hash) := by
  rw [componentsOf, parseAbsolutePath, parseAbsolutePath]
  split_ifs
  · rw [Option.map_map]
    exact parseLoop_hash hash (fun _ => 0) _ (show ∀ c ∈ ([] : List Bytes), IsName c by simp)
  · rfl

lemma componentsOf_names {path : Bytes} {cs : List Bytes} (h : componentsOf path = some cs) :
    ∀ c ∈ cs, IsName c := by
  obtain ⟨p, h1, h2⟩ := Option.map_eq_some_iff.mp h
  obtain ⟨ds, h3, rfl⟩ := parseAbsolutePath_some h1
  obtain rfl : ds = cs := h2
  exact h3

/-! ## Calls -/

/-- The calls that work on one path. -/
inductive BasicCall where
  | mkdir (path : Bytes) (ref : InodeRef)
  | creatFile (path : Bytes) (ref : InodeRef)
  | removePath (path : Bytes)
  | lookupEntry (path : Bytes)
deriving Repr, DecidableEq

/-- What a call returns. -/
inductive Answer where
  | done (ok : Bool)
  | entry (e : Option NamespaceEntry)
deriving Repr, DecidableEq

namespace BasicCall

/-- The path of a call. -/
def path : BasicCall → Bytes
  | mkdir path _ => path
  | creatFile path _ => path
  | removePath path => path
  | lookupEntry path => path

/-- Run a call. -/
def perform (hash : Bytes → UInt64) (s : LhmNamespace) :
    BasicCall → Option (Answer × LhmNamespace)
  | mkdir path ref => (s.mkdir hash path ref).map fun r => (.done r.1, r.2)
  | creatFile path ref => (s.creatFile hash path ref).map fun r => (.done r.1, r.2)
  | removePath path => (s.removeEntry hash path).map fun r => (.done r.1, r.2)
  | lookupEntry path => (s.lookupEntry hash path).map fun e => (.entry e, s)

/-- Run calls one after another, and collect what they return. -/
def performAll (hash : Bytes → UInt64) :
    LhmNamespace → List BasicCall → Option (List Answer × LhmNamespace)
  | s, [] => some ([], s)
  | s, call :: calls =>
      match call.perform hash s with
      | none => none
      | some (a, s) => (performAll hash s calls).map fun r => (a :: r.1, r.2)

/-- A name that occurs in one of the calls. -/
def Occurs (calls : List BasicCall) (name : Bytes) : Prop :=
  ∃ call ∈ calls, ∃ cs, componentsOf call.path = some cs ∧ name ∈ cs

end BasicCall

/-! ## The initial state -/

/-- The heap before anything has been allocated. -/
def emptyHeap : Heap Cell := ⟨fun _ => default, 0, []⟩

/-- The ghost of the empty heap. -/
def emptyGhost : Ghost := ⟨fun _ => False, fun _ => False, id, id, fun _ => 0, fun _ => 0⟩

lemma emptyHeap_inv : HeapInv namespaceTableParams byIkey emptyHeap emptyGhost where
  tree := by
    have hno : ∀ {a : Ptr}, ¬ a < emptyHeap.size := fun {a} => Nat.not_lt_zero a
    exact ⟨fun h => h.elim, fun h => h.elim, fun h => absurd h.1 hno, fun h => absurd h.1 hno,
      fun h => absurd h.1 hno, fun h => absurd h.1 hno, fun h => absurd h hno,
      fun h => absurd h.1 hno, fun h => h.elim,
      fun h => h.elim, fun h => h.elim, fun h => h.elim, fun h => absurd h (by simp [emptyHeap])⟩
  leaves := fun _ _ h => h.elim
  chain := fun _ _ h => h.elim

/-- The table after `initialize`: the root directory, empty. -/
def Table.initial : Table where
  layers f := f = 0
  cell _ _ := none
  info _ := none
  root := 0
  bucket _ := none
  nextId := 1

lemma initialState_represents :
    Represents LhmNamespace.initialState (emptyGhost.alloc 0) Table.initial := by
  have hI : HeapInv namespaceTableParams byIkey LhmNamespace.initialState.heap
      (emptyGhost.alloc 0) := emptyHeap_inv.alloc_root none
  have hE : ∀ f sl, ¬ Entry LhmNamespace.initialState.heap (emptyGhost.alloc 0) f sl := by
    intro f sl h0
    obtain ⟨a, l, h1, -⟩ := (entry_alloc_root (P := namespaceTableParams) none
      (h := emptyHeap) (G := emptyGhost) (fun h => h.elim) f sl).mp h0
    exact h1
  refine ⟨hI, fun _ => id, Nat.one_pos, fun _ => rfl, rfl, ?_, fun f sl h0 => absurd h0 (hE f sl),
    ?_, fun f x g h0 => by simp [Table.initial] at h0, ?_, fun _ => rfl, rfl⟩
  · intro f
    change f = 0 ↔ f < 1 ∧ (if f = 0 then 0 else f) = f
    constructor
    · rintro rfl
      exact ⟨Nat.one_pos, rfl⟩
    · exact fun h0 => Nat.lt_one_iff.mp h0.1
  · intro f x c
    exact iff_of_false (by simp [Table.initial]) (hE f _)
  · intro f hf
    obtain rfl : f = 0 := hf
    rfl

/-! ## Calls on the table -/

/-- A call on the table, at the components of its path; `g` is the layer that `mkdir` adds. -/
noncomputable def Table.performAt (T : Table) (hash : Bytes → UInt64) (cs : List Bytes) (g : Ptr) :
    BasicCall → Answer × Table
  | .mkdir _ ref => (.done (T.mkdir hash cs ref g).1, (T.mkdir hash cs ref g).2)
  | .creatFile _ ref => (.done (T.create hash cs ref .file).1, (T.create hash cs ref .file).2)
  | .removePath _ => (.done (T.remove hash cs).1, (T.remove hash cs).2)
  | .lookupEntry _ => (.entry (T.find hash cs), T)

/-- **A call on the namespace is the call on its table.** -/
theorem Represents.perform {s : LhmNamespace} {G : Ghost} {T : Table} (hR : Represents s G T)
    (hash : Bytes → UInt64) {call : BasicCall} {cs : List Bytes}
    (hpath : componentsOf call.path = some cs) :
    ∃ s' G' g, call.perform hash s = some ((T.performAt hash cs g call).1, s') ∧ ¬ T.layers g ∧
      Represents s' G' (T.performAt hash cs g call).2 := by
  have hnames := componentsOf_names hpath
  have hparse := parse_eq hash call.path
  rw [hpath, Option.map_some] at hparse
  have hfresh : ¬ T.layers s.heap.size := fun h0 => lt_irrefl _ ((hR.layers _).mp h0).1
  cases call with
  | mkdir path ref =>
      obtain ⟨s', G', g, h1, hg, h2, -⟩ := hR.createDirectory_spec hash hnames ref
      refine ⟨s', G', g, ?_, hg, h2⟩
      have hp : parseAbsolutePath hash path = some (ParsedPath.of hash cs) := hparse
      simp [BasicCall.perform, LhmNamespace.mkdir, hp, h1, Table.performAt]
  | creatFile path ref =>
      obtain ⟨s', G', h1, h2, -⟩ := hR.createFile_spec hash hnames ref .file
      refine ⟨s', G', s.heap.size, ?_, hfresh, h2⟩
      have hp : parseAbsolutePath hash path = some (ParsedPath.of hash cs) := hparse
      simp [BasicCall.perform, LhmNamespace.creatFile, LhmNamespace.createEntry,
        LhmNamespace.createEntryFromParsed, hp, h1, Table.performAt]
  | removePath path =>
      obtain ⟨s', G', h1, h2, -⟩ := hR.removeEntry_spec hash hnames
      refine ⟨s', G', s.heap.size, ?_, hfresh, h2⟩
      have hp : parseAbsolutePath hash path = some (ParsedPath.of hash cs) := hparse
      simp [BasicCall.perform, LhmNamespace.removeEntry, hp, h1, Table.performAt]
  | lookupEntry path =>
      refine ⟨s, G, s.heap.size, ?_, hfresh, hR⟩
      have hp : parseAbsolutePath hash path = some (ParsedPath.of hash cs) := hparse
      rw [BasicCall.perform, hR.lookupEntry_eq hp hnames]
      rfl

lemma Table.initial_plain (hash : Bytes → UInt64) (N : Bytes → Prop) :
    Table.initial.Plain hash N :=
  ⟨⟨rfl, fun h => by simp [Table.initial] at h, fun h => by simp [Table.initial] at h⟩,
    ⟨fun h => by simp [Table.initial] at h, fun _ _ h => by simp [Table.initial] at h⟩,
    fun h => by simp [Table.initial] at h, fun h => by simp [Table.initial] at h⟩

end MasstreeLHM
