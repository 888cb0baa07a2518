import MasstreeLHM.Cursor
import MasstreeLHM.PathKey

/-!
# The namespace

`LhmNamespace` of `lhm_namespace.hh`: lookups, `mkdir`, `creat_file`, `remove_path_for_test` and
`readdir`.  A directory is a Masstree layer, a file is a value slot, and files whose names collide
in one slot live in a bucket of a side table that the slot's marker points to.

Operations that the source runs on the shared state take the state and return the new one.  `none`
means that the call does not return (see `Split.lean`).

A call parses its path, walks to the parent directory along component hashes
(`locateDirectoryRoot`), and works on one slot there.  The functions that work on the slot have the
names of the source: `createDirectoryFromParsed`, `createFileFromParsed`, `removeEntryFromParsed`,
`lookupEntryFromParsed`.  `insertIntoConflictChain` is the branch of a collision.  It stores the
marker of a new chain through a cursor on the whole table, as the source does, whatever the
directory of the slot is.  `appendDirectoryChildren` is the walk of `readdir`; the listing of `/`
starts it at `table_.root()` itself.
-/

namespace MasstreeLHM

/-! ## Entries -/

/-- `entry_kind`. -/
inductive EntryKind where
  | invalid
  | directory
  | file
  | conflictChain
deriving Repr, DecidableEq, Inhabited

/-- `namespace_entry`. -/
structure NamespaceEntry where
  kind : EntryKind
  ref : InodeRef
  name : Bytes
deriving Repr, DecidableEq, Inhabited

/-- `entry_name_fits`. -/
def entryNameFits (name : Bytes) : Bool := name.length ≤ kMaxEntryNameBytes

/-- `make_namespace_entry`. -/
def makeNamespaceEntry (kind : EntryKind) (ref : InodeRef) (name : Bytes) : NamespaceEntry :=
  ⟨kind, ref, name⟩

/-- `entry_name_equals`. -/
def entryNameEquals (e : NamespaceEntry) (name : Bytes) : Bool := e.name == name

/-- `leafvalue`. -/
inductive LeafValue where
  | value (v : NamespaceEntry)
  | layer (n : Ptr)
deriving Repr, DecidableEq

instance : Inhabited LeafValue := ⟨.value default⟩

/-- What a leaf of the namespace table keeps per position: `keylenx_` and `lv_`. -/
structure Cell where
  keylenx : ℕ
  lv : LeafValue
deriving Repr, DecidableEq, Inhabited

/-- `ksuf_keylenx`. -/
def ksufKeylenx : ℕ := 64

/-- `layer_keylenx`. -/
def layerKeylenx : ℕ := 128

/-- `is_layer`. -/
def Cell.isLayer (c : Cell) : Bool := 127 < c.keylenx

/-- `::compare` on slices. -/
def compareIkey (a b : ℕ) : ℤ := if a < b then -1 else if a = b then 0 else 1

/-- `key::compare` of a key with slice `x` and length `len` against a slot. -/
def keyCompare (x len : ℕ) (s : Slot Cell) : ℤ :=
  let cmp := compareIkey x s.ikey
  if cmp = 0 then
    if 8 < len then (if s.body.keylenx ≤ 8 then 1 else 0)
    else (len : ℤ) - s.body.keylenx
  else cmp

/-- `leaf::compare_key` for a key of exactly one slice. -/
def compareKey (x : ℕ) (s : Slot Cell) : ℤ := keyCompare x 8 s

/-- `edge_comparator`: a layer slot of the same slice counts as equal. -/
def edgeCompare (x : ℕ) (s : Slot Cell) : ℤ :=
  let cmp := compareIkey x s.ikey
  if cmp ≠ 0 then cmp else if s.body.isLayer then 0 else compareKey x s

/-- `ksuf_matches`: positive for a value, negative for a layer.  A one-slice key has no suffix
and never matches a slot that has one. -/
def ksufMatches (c : Cell) : ℤ :=
  if c.keylenx < ksufKeylenx then 1 else if c.keylenx = layerKeylenx then -8 else 0

/-! ## State -/

/-- `namespace_table_params`. -/
def namespaceTableParams : NodeParams := ⟨7, 7, by decide, by decide⟩

/-- `LhmNamespace`: the Masstree table (its nodes and `root_`), `conflict_buckets_` and
`next_conflict_bucket_id_`. -/
structure LhmNamespace where
  heap : Heap Cell
  root : Ptr
  conflictBuckets : List (ℕ × List NamespaceEntry)
  nextConflictBucketId : ℕ

namespace LhmNamespace

/-- The state after `initialize`: one empty leaf as root of the root layer. -/
def initialState : LhmNamespace :=
  { heap := Heap.alloc ⟨fun _ => default, 0, []⟩ (.leaf (Leaf.makeRoot namespaceTableParams none))
    root := 0
    conflictBuckets := []
    nextConflictBucketId := 1 }

/-- `conflict_buckets_.find`. -/
def findBucket (s : LhmNamespace) (id : ℕ) : Option (List NamespaceEntry) :=
  s.conflictBuckets.lookup id

/-- `conflict_buckets_.emplace`: an existing bucket is kept. -/
def emplaceBucket (s : LhmNamespace) (id : ℕ) (es : List NamespaceEntry) : LhmNamespace :=
  if (s.findBucket id).isSome then s
  else { s with conflictBuckets := (id, es) :: s.conflictBuckets }

/-- `conflict_buckets_.erase`. -/
def eraseBucket (s : LhmNamespace) (id : ℕ) : LhmNamespace :=
  { s with conflictBuckets := s.conflictBuckets.filter fun b => b.1 != id }

/-- Assign the entries of an existing bucket. -/
def setBucket (s : LhmNamespace) (id : ℕ) (es : List NamespaceEntry) : LhmNamespace :=
  { s with conflictBuckets := s.conflictBuckets.map fun b => if b.1 = id then (id, es) else b }

/-- `basic_table::fix_root`, run by the cursor constructors that take the table. -/
def fixRoot (s : LhmNamespace) : LhmNamespace :=
  if (s.heap.node s.root).isRoot then s
  else { s with root := (s.heap.node s.root).parent.getD s.root }

end LhmNamespace

/-- `canonicalize_directory_root`: follow `maybe_parent` up to a node that is its own. -/
def canonicalize {β : Type} (h : Heap β) : ℕ → Ptr → Option Ptr
  | 0, _ => none
  | fuel + 1, a =>
      match (h.node a).parent with
      | none => some a
      | some p => canonicalize h fuel p

/-- `canonicalize_directory_root`. -/
def canonicalizeDirectoryRoot {β : Type} (h : Heap β) (a : Ptr) : Option Ptr :=
  canonicalize h (h.size + 1) a

/-- `lv_[p].layer()`: reading a pointer out of a slot that holds none is undefined. -/
def LeafValue.layer? : LeafValue → Option Ptr
  | .layer n => some n
  | .value _ => none

/-- `lv_[p].value()`. -/
def LeafValue.value? : LeafValue → Option NamespaceEntry
  | .value v => some v
  | .layer _ => none

/-! ## Lookups -/

/-- `child_slot_lookup`; the child root is canonicalized. -/
inductive ChildSlot where
  | missing
  | layer (childRoot : Ptr)
  | value (v : NamespaceEntry)
deriving Repr, DecidableEq

/-- `lookup_child_slot_from_parent_root`. -/
def lookupChildSlotFromParentRoot (h : Heap Cell) (parentRoot : Ptr) (x : ℕ) :
    Option ChildSlot := do
  let c ← findWith (edgeCompare x) h parentRoot x
  match c.p with
  | none => return .missing
  | some p =>
      let cell := ((h.leaf c.n).slot p).body
      if ksufMatches cell < 0 then
        return .layer (← canonicalizeDirectoryRoot h (← cell.lv.layer?))
      else if ksufMatches cell = 0 then return .missing
      else return .value (← cell.lv.value?)

/-- The loop of `locate_directory_root`: one edge per component hash, names are not looked at. -/
def locateLoop (h : Heap Cell) : Ptr → List ℕ → Option (Option Ptr)
  | a, [] => some (some a)
  | a, x :: xs => do
      match ← lookupChildSlotFromParentRoot h a x with
      | .layer r => locateLoop h r xs
      | _ => return none

namespace LhmNamespace

/-- `locate_directory_root`; the inner `none` is the result `false`. -/
def locateDirectoryRoot (s : LhmNamespace) (parsed : ParsedPath) : Option (Option Ptr) :=
  if parsed.normalizedPath = [slash] then some (some s.root)
  else locateLoop s.heap s.root parsed.hashes

/-- The entry a directory root presents for itself, if it carries metadata under that name. -/
def directoryEntry (h : Heap Cell) (childRoot : Ptr) (name : Bytes) : Option NamespaceEntry :=
  match (h.node childRoot).directoryMeta with
  | none => none
  | some m =>
      if directoryMetaNameEquals m name then
        some (makeNamespaceEntry .directory m.ref m.name)
      else none

/-- `lookup_child_from_parent_root`. -/
def lookupChildFromParentRoot (s : LhmNamespace) (parentRoot : Ptr) (childName : Bytes)
    (childHash : ℕ) : Option (Option NamespaceEntry) := do
  match ← lookupChildSlotFromParentRoot s.heap parentRoot childHash with
  | .missing => return none
  | .layer childRoot => return directoryEntry s.heap childRoot childName
  | .value raw =>
      if raw.kind ≠ .conflictChain then
        return if entryNameEquals raw childName then some raw else none
      else
        match s.findBucket raw.ref.blockId with
        | none => return none
        | some es => return es.find? (entryNameEquals · childName)

/-- `lookup_entry_from_parsed`. -/
def lookupEntryFromParsed (s : LhmNamespace) (parsed : ParsedPath) :
    Option (Option NamespaceEntry) := do
  if parsed.normalizedPath = [slash] then
    return some (makeNamespaceEntry .directory (makeInodeRef 0 0) [slash])
  else if parsed.components = [] ∨ parsed.hashes = [] then return none
  else
    match ← s.locateDirectoryRoot parsed.parent with
    | none => return none
    | some parentRoot => s.lookupChildFromParentRoot parentRoot parsed.name parsed.hash

/-- `lookup_entry`. -/
def lookupEntry (hash : Bytes → UInt64) (s : LhmNamespace) (path : Bytes) :
    Option (Option NamespaceEntry) := do
  s.lookupEntryFromParsed (← parseAbsolutePath hash path)

/-- `lookup_directory`. -/
def lookupDirectory (hash : Bytes → UInt64) (s : LhmNamespace) (path : Bytes) :
    Option (Option NamespaceEntry) := do
  match ← s.lookupEntry hash path with
  | none => return none
  | some e => return if e.kind = .directory then some e else none

/-! ## Creating -/

/-- The slot a one-slice key gets from `leaf::assign`. -/
def freshSlot (x : ℕ) : Slot Cell := ⟨x, ⟨8, .value default⟩⟩

/-- `find_insert` on the layer of `root`.  `found` is the cursor of an existing slot;
otherwise the key has been given a slot that is not live yet. -/
inductive FindInsert where
  | found (c : Cursor) (p : ℕ)
  | inserted (h : Heap Cell) (pos : Position)

/-- `tcursor::find_insert`. -/
def findInsert (h : Heap Cell) (root : Ptr) (x : ℕ) : Option FindInsert := do
  let c ← findWith (compareKey x) h root x
  match c.p with
  | some p => return .found c p
  | none =>
      let (h, pos) ← makeRoom namespaceTableParams h c (freshSlot x)
      return .inserted h pos

/-- `cursor.value() = v` at an existing slot. -/
def setValue (h : Heap Cell) (n : Ptr) (p : ℕ) (v : NamespaceEntry) : Heap Cell :=
  let l := h.leaf n
  h.setLeaf n (l.assign p ⟨(l.slot p).ikey, ⟨(l.slot p).body.keylenx, .value v⟩⟩)

/-- `insert_into_conflict_chain`.  The chain marker is stored through a cursor on the whole
table, whose key is the single component hash. -/
def insertIntoConflictChain (s : LhmNamespace) (x : ℕ) (slotValue newEntry : NamespaceEntry) :
    Option (Bool × LhmNamespace) := do
  if slotValue.kind = .conflictChain then
    match s.findBucket slotValue.ref.blockId with
    | none => return (false, s)
    | some es =>
        if es.any (entryNameEquals · newEntry.name) then return (false, s)
        else return (true, s.setBucket slotValue.ref.blockId (es ++ [newEntry]))
  else if entryNameEquals slotValue newEntry.name then return (false, s)
  else
    let bucketId := s.nextConflictBucketId
    let s := { s with nextConflictBucketId := (bucketId + 1) % 2 ^ 32 }
    let s := s.emplaceBucket bucketId [slotValue, newEntry]
    let chainMarker := makeNamespaceEntry .conflictChain (makeInodeRef bucketId 0) []
    let s := s.fixRoot
    match ← findInsert s.heap s.root x with
    | .inserted h _ => return (false, { s with heap := h }.eraseBucket bucketId)
    | .found c p => return (true, { s with heap := setValue s.heap c.n p chainMarker })

/-- `create_layer_with_meta` and `attach_existing_layer`: `layer` allocates or designates the
layer root once the slot exists. -/
def insertLayer (h : Heap Cell) (root : Ptr) (x : ℕ) (layer : Heap Cell → Ptr × Heap Cell) :
    Option (Bool × Heap Cell) := do
  let c ← findWith (edgeCompare x) h root x
  match c.p with
  | some _ => return (false, h)
  | none =>
      let (h, pos) ← makeRoom namespaceTableParams h c (freshSlot x)
      let (nl, h) := layer h
      return (true, finishInsert (writeSlot h pos ⟨x, ⟨layerKeylenx, .layer nl⟩⟩) pos)

/-- `create_directory_from_parsed`. -/
def createDirectoryFromParsed (s : LhmNamespace) (parsed : ParsedPath) (ref : InodeRef) :
    Option (Bool × LhmNamespace) := do
  if parsed.normalizedPath = [slash] then return (false, s)
  else if parsed.components = [] then return (false, s)
  else if !entryNameFits parsed.name then return (false, s)
  else
    match ← s.locateDirectoryRoot parsed.parent with
    | none => return (false, s)
    | some parentRoot =>
        match ← lookupChildSlotFromParentRoot s.heap parentRoot parsed.hash with
        | .missing =>
            let m := makeDirectoryMeta ref parsed.hash parsed.name
            let (ok, h) ← insertLayer s.heap parentRoot parsed.hash fun h =>
              (h.size, h.alloc (.leaf (Leaf.makeRoot namespaceTableParams (some m))))
            return (ok, { s with heap := h })
        | _ => return (false, s)

/-- `create_entry_from_parsed` for a file. -/
def createFileFromParsed (s : LhmNamespace) (parsed : ParsedPath) (ref : InodeRef)
    (kind : EntryKind) : Option (Bool × LhmNamespace) := do
  if parsed.normalizedPath = [slash] then return (false, s)
  else if parsed.components = [] then return (false, s)
  else if !entryNameFits parsed.name then return (false, s)
  else
    match ← s.locateDirectoryRoot parsed.parent with
    | none => return (false, s)
    | some parentRoot =>
        let entry := makeNamespaceEntry kind ref parsed.name
        match ← lookupChildSlotFromParentRoot s.heap parentRoot parsed.hash with
        | .layer _ => return (false, s)
        | .value v => s.insertIntoConflictChain parsed.hash v entry
        | .missing =>
            match ← findInsert s.heap parentRoot parsed.hash with
            | .found _ _ => return (false, s)
            | .inserted h pos =>
                let h := writeSlot h pos ⟨parsed.hash, ⟨8, .value entry⟩⟩
                return (true, { s with heap := finishInsert h pos })

/-- `create_entry_from_parsed`. -/
def createEntryFromParsed (s : LhmNamespace) (parsed : ParsedPath) (kind : EntryKind)
    (ref : InodeRef) : Option (Bool × LhmNamespace) :=
  if kind = .directory then s.createDirectoryFromParsed parsed ref
  else s.createFileFromParsed parsed ref kind

/-- `create_entry`. -/
def createEntry (hash : Bytes → UInt64) (s : LhmNamespace) (path : Bytes) (kind : EntryKind)
    (ref : InodeRef) : Option (Bool × LhmNamespace) := do
  s.createEntryFromParsed (← parseAbsolutePath hash path) kind ref

/-- `mkdir`. -/
def mkdir (hash : Bytes → UInt64) (s : LhmNamespace) (path : Bytes) (ref : InodeRef) :
    Option (Bool × LhmNamespace) := do
  s.createDirectoryFromParsed (← parseAbsolutePath hash path) ref

/-- `creat_file`. -/
def creatFile (hash : Bytes → UInt64) (s : LhmNamespace) (path : Bytes) (ref : InodeRef) :
    Option (Bool × LhmNamespace) :=
  s.createEntry hash path .file ref

/-! ## Removing -/

/-- The loop of `directory_root_has_children` over the children of an internode, stopping at the
first nonempty one. -/
def anyChild (f : Ptr → Option Bool) : List (Option Ptr) → Option Bool
  | [] => some false
  | none :: cs => anyChild f cs
  | some c :: cs => do if ← f c then return true else anyChild f cs

/-- `directory_root_has_children`. -/
def directoryRootHasChildren (h : Heap Cell) : ℕ → Ptr → Option Bool
  | 0, _ => none
  | fuel + 1, a =>
      match h.node a with
      | .leaf l => some (l.size != 0)
      | .internode n => anyChild (directoryRootHasChildren h fuel) n.children

/-- The part of `remove_entry` for a directory edge at `c`. -/
def removeDirectoryEdge (s : LhmNamespace) (c : Cursor) (p : ℕ) (name : Bytes) :
    Option (Bool × LhmNamespace) := do
  let childRoot ← canonicalizeDirectoryRoot s.heap
    (← ((s.heap.leaf c.n).slot p).body.lv.layer?)
  match (s.heap.node childRoot).directoryMeta with
  | none => return (false, s)
  | some m =>
      if !directoryMetaNameEquals m name then return (false, s)
      else if ← directoryRootHasChildren s.heap (s.heap.size + 1) childRoot then return (false, s)
      else return (true, { s with heap := ← finishRemove s.heap c.n c.i })

/-- The part of `remove_entry` for a value slot: a file of its own, or one of a chain. -/
def removeFile (s : LhmNamespace) (c : Cursor) (p : ℕ) (slotValue : NamespaceEntry)
    (name : Bytes) : Option (Bool × LhmNamespace) := do
  if slotValue.kind ≠ .conflictChain then
    if !entryNameEquals slotValue name ∨ slotValue.kind ≠ .file then return (false, s)
    else return (true, { s with heap := ← finishRemove s.heap c.n c.i })
  else
    let id := slotValue.ref.blockId
    match s.findBucket id with
    | none => return (false, s)
    | some es =>
        let i := es.findIdx (entryNameEquals · name)
        match es[i]? with
        | none => return (false, s)
        | some e =>
            if e.kind ≠ .file then return (false, s)
            else if es.length = 1 then
              return (true, { s.eraseBucket id with heap := ← finishRemove s.heap c.n c.i })
            else
              match es.eraseIdx i with
              | [survivor] =>
                  return (true, { s.eraseBucket id with heap := setValue s.heap c.n p survivor })
              | es => return (true, s.setBucket id es)

/-- `remove_entry`, on a parsed path. -/
def removeEntryFromParsed (s : LhmNamespace) (parsed : ParsedPath) : Option (Bool × LhmNamespace) :=
  do
  if parsed.normalizedPath = [slash] ∨ parsed.components = [] then return (false, s)
  else
    match ← s.locateDirectoryRoot parsed.parent with
    | none => return (false, s)
    | some parentRoot =>
        let c ← findWith (edgeCompare parsed.hash) s.heap parentRoot parsed.hash
        match c.p with
        | none => return (false, s)
        | some p =>
            let cell := ((s.heap.leaf c.n).slot p).body
            if ksufMatches cell < 0 then s.removeDirectoryEdge c p parsed.name
            else if ksufMatches cell = 0 then return (false, s)
            else s.removeFile c p (← cell.lv.value?) parsed.name

/-- `remove_entry`, which `remove_path_for_test` exposes. -/
def removeEntry (hash : Bytes → UInt64) (s : LhmNamespace) (path : Bytes) :
    Option (Bool × LhmNamespace) := do
  s.removeEntryFromParsed (← parseAbsolutePath hash path)

end LhmNamespace

/-! ## Listing a directory -/

/-- `readdir_record`. -/
structure ReaddirRecord where
  fullHashes : List ℕ
  childComponentHash : ℕ
  childName : Bytes
  entry : NamespaceEntry
deriving Repr, DecidableEq

namespace LhmNamespace

/-- The records of one live slot. -/
def slotRecords (s : LhmNamespace) (parentHashes : List ℕ) (sl : Slot Cell) :
    Option (List ReaddirRecord) := do
  if !sl.body.isLayer then
    let v ← sl.body.lv.value?
    let record (e : NamespaceEntry) : ReaddirRecord :=
      ⟨parentHashes ++ [sl.ikey], sl.ikey, e.name, e⟩
    if v.kind ≠ .conflictChain then return [record v]
    else return ((s.findBucket v.ref.blockId).getD []).map record
  else
    let childRoot ← canonicalizeDirectoryRoot s.heap (← sl.body.lv.layer?)
    match (s.heap.node childRoot).directoryMeta with
    | none => return []
    | some m =>
        return [⟨parentHashes ++ [m.componentHash], m.componentHash, m.name,
          makeNamespaceEntry .directory m.ref m.name⟩]

/-- Run `f` on the elements from left to right and append the results. -/
def collect {α γ : Type} (f : α → Option (List γ)) : List α → Option (List γ)
  | [] => some []
  | a :: as => do return (← f a) ++ (← collect f as)

/-- `append_directory_children_from_node`. -/
def appendDirectoryChildren (s : LhmNamespace) (parentHashes : List ℕ) :
    ℕ → Ptr → Option (List ReaddirRecord)
  | 0, _ => none
  | fuel + 1, a =>
      match s.heap.node a with
      | .leaf l => collect (s.slotRecords parentHashes) l.entries
      | .internode n =>
          collect (fun c => match c with
            | none => some []
            | some c => appendDirectoryChildren s parentHashes fuel c) n.children

/-- `readdir`.  The listing of `/` starts at `table_.root()` itself. -/
def readdir (hash : Bytes → UInt64) (s : LhmNamespace) (path : Bytes) :
    Option (List ReaddirRecord) := do
  let parsed ← parseAbsolutePath hash path
  if parsed.normalizedPath ≠ [slash] then
    match ← s.lookupDirectory hash parsed.normalizedPath with
    | none => return []
    | some _ =>
        match ← s.locateDirectoryRoot parsed with
        | none => return []
        | some root => s.appendDirectoryChildren parsed.hashes (s.heap.size + 1) root
  else s.appendDirectoryChildren parsed.hashes (s.heap.size + 1) s.root

end LhmNamespace

end MasstreeLHM
