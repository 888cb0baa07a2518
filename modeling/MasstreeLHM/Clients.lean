import MasstreeLHM.Registry

/-!
# Concurrent clients

Any number of clients run calls on one namespace.  Each cursor operation of a call is one step: a
`find_unlocked_edge` of `locate_directory_root` or of the probe of the slot, and the operation that
changes the table.  Between two steps of a call other clients may run theirs.

A `Task` is a call under way; its `Stage` says what it has found so far, and holds the node pointers
that the code holds in local variables.  `Task.step` is one step, and `Clients.step` lets any client
take its next step or begin a call, so a run is any interleaving.

`Serializable`, `DistinctSlots` and `VisibleUntilRemoved` are what is asked of a run: an order of
the calls that explains all answers, no directory with two slots for one hash, and no creation that
gets lost.  `Careful` is a condition on one step in the state in which it is taken, and it is
decidable: the directory that the call has come to is still at its path and the slot is in order, or
the step finds nothing there.
-/

namespace MasstreeLHM

/-! ## Calls in steps -/

/-- Where a call is between two of its steps. -/
inductive Stage where
  /-- `locate_directory_root` has come to the node `a` along the hashes `gone`. -/
  | walk (gone rest : List ℕ) (a : Ptr)
  /-- There was no slot for the name in the directory at `a`. -/
  | insert (a : Ptr)
  /-- The slot of the name held the value `v`. -/
  | chain (a : Ptr) (v : NamespaceEntry)
deriving Repr, DecidableEq

/-- A call that has not returned. -/
structure Task where
  call : BasicCall
  parsed : ParsedPath
  stage : Stage
deriving Repr, DecidableEq

namespace BasicCall

/-- The answer of a call that returns before it looks at the table. -/
def immediate (p : ParsedPath) : BasicCall → Option Answer
  | .mkdir _ _ | .creatFile _ _ =>
      if p.normalizedPath = [slash] ∨ p.components = [] ∨ entryNameFits p.name = false
      then some (.done false) else none
  | .removePath _ =>
      if p.normalizedPath = [slash] ∨ p.components = [] then some (.done false) else none
  | .lookupEntry _ =>
      if p.normalizedPath = [slash] then
        some (.entry (some (makeNamespaceEntry .directory (makeInodeRef 0 0) [slash])))
      else if p.components = [] ∨ p.hashes = [] then some (.entry none)
      else none

/-- The answer of a call whose parent directory is not found. -/
def notFound : BasicCall → Answer
  | .lookupEntry _ => .entry none
  | _ => .done false

end BasicCall

namespace LhmNamespace

/-- `remove_entry` in the directory at `a`: one `find_locked_edge`, up to `finish`. -/
def removeAt (s : LhmNamespace) (a : Ptr) (parsed : ParsedPath) : Option (Bool × LhmNamespace) := do
  let c ← findWith (edgeCompare parsed.hash) s.heap a parsed.hash
  match c.p with
  | none => return (false, s)
  | some p =>
      let cell := ((s.heap.leaf c.n).slot p).body
      if ksufMatches cell < 0 then s.removeDirectoryEdge c p parsed.name
      else if ksufMatches cell = 0 then return (false, s)
      else s.removeFile c p (← cell.lv.value?) parsed.name

/-- `create_layer_with_meta` in the directory at `a`. -/
def createLayerAt (s : LhmNamespace) (a : Ptr) (parsed : ParsedPath) (ref : InodeRef) :
    Option (Bool × LhmNamespace) := do
  let m := makeDirectoryMeta ref parsed.hash parsed.name
  let (ok, h) ← insertLayer s.heap a parsed.hash fun h =>
    (h.size, h.alloc (.leaf (Leaf.makeRoot namespaceTableParams (some m))))
  return (ok, { s with heap := h })

/-- `find_insert`, up to `finish`, in the directory at `a`. -/
def insertFileAt (s : LhmNamespace) (a : Ptr) (parsed : ParsedPath) (ref : InodeRef) :
    Option (Bool × LhmNamespace) := do
  match ← findInsert s.heap a parsed.hash with
  | .found _ _ => return (false, s)
  | .inserted h pos =>
      let h := writeSlot h pos ⟨parsed.hash, ⟨8, .value (makeNamespaceEntry .file ref parsed.name)⟩⟩
      return (true, { s with heap := finishInsert h pos })

end LhmNamespace

namespace Task

/-- What a step comes to: an answer, or the rest of the call. -/
abbrev Outcome := LhmNamespace × (Answer ⊕ Task)

/-- The call returns whether it has succeeded. -/
def returns (r : Option (Bool × LhmNamespace)) : Option Outcome :=
  r.map fun p => (p.2, .inl (.done p.1))

/-- The step of a call that has located the directory `a`. -/
def atParent (s : LhmNamespace) (t : Task) (a : Ptr) : Option Outcome :=
  match t.call with
  | .mkdir _ _ =>
      (lookupChildSlotFromParentRoot s.heap a t.parsed.hash).map fun slot =>
        match slot with
        | .missing => (s, .inr { t with stage := .insert a })
        | _ => (s, .inl (.done false))
  | .creatFile _ _ =>
      (lookupChildSlotFromParentRoot s.heap a t.parsed.hash).map fun slot =>
        match slot with
        | .missing => (s, .inr { t with stage := .insert a })
        | .layer _ => (s, .inl (.done false))
        | .value v => (s, .inr { t with stage := .chain a v })
  | .removePath _ => returns (s.removeAt a t.parsed)
  | .lookupEntry _ =>
      (s.lookupChildFromParentRoot a t.parsed.name t.parsed.hash).map fun e => (s, .inl (.entry e))

/-- The entry that `creat_file` inserts. -/
def entry (t : Task) (ref : InodeRef) : NamespaceEntry :=
  makeNamespaceEntry .file ref t.parsed.name

/-- The next step of a call; `none` if it does not return. -/
def step (s : LhmNamespace) (t : Task) : Option Outcome :=
  match t.stage, t.call with
  | .walk gone (x :: rest) a, _ =>
      (lookupChildSlotFromParentRoot s.heap a x).map fun slot =>
        match slot with
        | .layer r => (s, .inr { t with stage := .walk (gone ++ [x]) rest r })
        | _ => (s, .inl t.call.notFound)
  | .walk _ [] a, _ => t.atParent s a
  | .insert a, .mkdir _ ref => returns (s.createLayerAt a t.parsed ref)
  | .insert a, .creatFile _ ref => returns (s.insertFileAt a t.parsed ref)
  | .chain _ v, .creatFile _ ref =>
      returns (s.insertIntoConflictChain t.parsed.hash v (t.entry ref))
  -- only creations get to these stages
  | _, _ => none

end Task

/-! ## Clients -/

/-- The namespace, the calls that are under way, and the calls that have returned, in the order
in which they did. -/
structure Clients where
  state : LhmNamespace
  tasks : ℕ → Option Task
  history : List (BasicCall × Answer)

/-- A client starts a call, or takes the next step of its call. -/
inductive ClientAction where
  | invoke (c : ℕ) (call : BasicCall)
  | advance (c : ℕ)
deriving Repr, DecidableEq

namespace Clients

/-- No client has done anything. -/
def start : Clients := ⟨LhmNamespace.initialState, fun _ => none, []⟩

/-- One step of the system. -/
def step (hash : Bytes → UInt64) (k : Clients) : ClientAction → Option Clients
  | .invoke c call =>
      match k.tasks c, parseAbsolutePath hash call.path with
      | none, some p =>
          match call.immediate p with
          | some a => some { k with history := k.history ++ [(call, a)] }
          | none => some { k with
              tasks := Function.update k.tasks c
                (some ⟨call, p, .walk [] p.parent.hashes k.state.root⟩) }
      | _, _ => none
  | .advance c =>
      match k.tasks c with
      | none => none
      | some t =>
          match t.step k.state with
          | none => none
          | some (s, .inl a) =>
              some ⟨s, Function.update k.tasks c none, k.history ++ [(t.call, a)]⟩
          | some (s, .inr t') => some { k with
              state := s
              tasks := Function.update k.tasks c (some t') }

/-- A run of the system. -/
def steps (hash : Bytes → UInt64) : List ClientAction → Clients → Option Clients
  | [], k => some k
  | a :: as, k => (k.step hash a).bind (steps hash as)

/-- The calls and the answers that have come from a sequential run are those of the clients. -/
def Serializable (hash : Bytes → UInt64) (k : Clients) : Prop :=
  ∃ order : List (BasicCall × Answer), order.Perm k.history ∧
    BasicCall.performAll hash LhmNamespace.initialState (order.map Prod.fst)
      = some (order.map Prod.snd, k.state)

/-- No directory holds two live slots for one component hash. -/
def DistinctSlots (s : LhmNamespace) : Prop :=
  ∀ (hs : List UInt64) r top,
    locateLoop s.heap s.root (hs.map UInt64.toNat) = some (some r) →
    climbToRoot s.heap (s.heap.size + 1) r = some top →
    ((slotsBelow s.heap (s.heap.size + 1) top).map Slot.ikey).Nodup

/-- The call has created something at these components. -/
def Creates (cs : List Bytes) (p : BasicCall × Answer) : Prop :=
  p.2 = .done true ∧ componentsOf p.1.path = some cs ∧
    ((∃ path ref, p.1 = .mkdir path ref) ∨ ∃ path ref, p.1 = .creatFile path ref)

/-- The call has removed what was at these components. -/
def Removes (cs : List Bytes) (p : BasicCall × Answer) : Prop :=
  p.2 = .done true ∧ componentsOf p.1.path = some cs ∧ ∃ path, p.1 = .removePath path

/-- What was created and not removed since is visible. -/
def VisibleUntilRemoved (hash : Bytes → UInt64) (k : Clients) : Prop :=
  ∀ cs before p after, k.history = before ++ p :: after → Creates cs p →
    (∀ q ∈ after, ¬ Removes cs q) → ∃ e, k.state.lookupEntry hash p.1.path = some (some e)

end Clients

/-! ## Steps that nobody else has got in the way of -/

/-- Cursors that start at the two nodes arrive at the same root. -/
def SameRoot (h : Heap Cell) (a r : Ptr) : Prop :=
  climbToRoot h (h.size + 1) a = climbToRoot h (h.size + 1) r

instance (h : Heap Cell) (a r : Ptr) : Decidable (SameRoot h a r) :=
  inferInstanceAs (Decidable (_ = _))

/-- A file of this name is already in the slot with value `v`, or in its chain. -/
def LhmNamespace.nameTaken (s : LhmNamespace) (v : NamespaceEntry) (name : Bytes) : Bool :=
  if v.kind = .conflictChain then
    match s.findBucket v.ref.blockId with
    | none => true
    | some es => es.any (entryNameEquals · name)
  else entryNameEquals v name

namespace Task

/-- The hashes that the call has gone along. -/
def gone (t : Task) : List ℕ :=
  match t.stage with
  | .walk gone _ _ => gone
  | _ => t.parsed.parent.hashes

/-- The node that the call holds. -/
def node (t : Task) : Ptr :=
  match t.stage with
  | .walk _ _ a => a
  | .insert a => a
  | .chain a _ => a

/-- What the slot of the name may hold by now.  A `creat_file` that has found it empty must find
no directory there, and no entry that it would have to be chained to; one that has found a value
must find the same. -/
def slotOk (s : LhmNamespace) (t : Task) : Bool :=
  match t.stage, t.call with
  | .insert a, .creatFile _ _ =>
      match lookupChildSlotFromParentRoot s.heap a t.parsed.hash with
      | some .missing => true
      | some (.value v) => s.nameTaken v t.parsed.name
      | _ => false
  | .chain a v, _ => lookupChildSlotFromParentRoot s.heap a t.parsed.hash = some (.value v)
  | _, _ => true

/-- The directory that the call has come to is still at its path, and the slot is in order. -/
def Current (s : LhmNamespace) (t : Task) : Prop :=
  (∃ r ∈ (locateLoop s.heap s.root t.gone).join, SameRoot s.heap t.node r) ∧ t.slotOk s

instance (s : LhmNamespace) (t : Task) : Decidable (t.Current s) :=
  inferInstanceAs (Decidable (_ ∧ _))

/-- The next step of the walk finds no slot. -/
def findsNothing (s : LhmNamespace) (t : Task) : Bool :=
  match t.stage with
  | .walk _ rest a =>
      lookupChildSlotFromParentRoot s.heap a (rest.headD t.parsed.hash) = some .missing
  | _ => false

/-- There is no directory at the path any more, and the call finds nothing in the one it has. -/
def Lost (s : LhmNamespace) (t : Task) : Prop :=
  locateLoop s.heap s.root t.gone = some none ∧ t.findsNothing s

instance (s : LhmNamespace) (t : Task) : Decidable (t.Lost s) :=
  inferInstanceAs (Decidable (_ ∧ _))

end Task

namespace Clients

/-- The condition on a step. -/
def Careful (k : Clients) : ClientAction → Prop
  | .invoke _ _ => True
  | .advance c => ∀ t ∈ k.tasks c, t.Current k.state ∨ t.Lost k.state

instance (k : Clients) : (act : ClientAction) → Decidable (k.Careful act)
  | .invoke _ _ => inferInstanceAs (Decidable True)
  | .advance c =>
      inferInstanceAs (Decidable (∀ t ∈ k.tasks c, t.Current k.state ∨ t.Lost k.state))

/-- All steps of a run are careful. -/
def CarefulSteps (hash : Bytes → UInt64) : List ClientAction → Clients → Prop
  | [], _ => True
  | a :: as, k => k.Careful a ∧ ∀ k' ∈ k.step hash a, CarefulSteps hash as k'

instance decidableCarefulSteps (hash : Bytes → UInt64) : (acts : List ClientAction) →
    (k : Clients) → Decidable (CarefulSteps hash acts k)
  | [], _ => inferInstanceAs (Decidable True)
  | a :: as, k =>
      have : ∀ k', Decidable (CarefulSteps hash as k') := decidableCarefulSteps hash as
      inferInstanceAs (Decidable (k.Careful a ∧ ∀ k' ∈ k.step hash a, CarefulSteps hash as k'))

end Clients

end MasstreeLHM
