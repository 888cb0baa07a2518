import MasstreeLHM.Scan
import Mathlib.Data.List.Sort

/-!
# Renaming

`rename_path` of `lhm_namespace.hh`.  A directory is moved by hanging its layer into the new parent
and taking it out of the old one; a file is moved by scanning the table for the records at its path,
re-creating them at the new path and removing the old ones.

`renameDirectoryO1FromParsed` is the first way.  It finds the directory and both parents, attaches
the layer, rewrites its metadata and ends with `detachEdge`, which looks the old edge up again and
gives up if it does not hold the layer's root any more.

`renameFile` is the second way.  `scanSubtree` collects the records, `planLoop` makes a plan item of
each (`RenamePlanItem`), with both paths written out by `reconstructPathUnderRoot`, and `runPlan`
runs the calls of the plan: it creates with parents first, and then removes with children first.
Nothing is undone when a call in the middle returns false.
-/

namespace MasstreeLHM

namespace LhmNamespace

/-! ## Directories -/

/-- `lookup_directory_edge_from_parent_root`: the canonical root of the directory `childName`. -/
def lookupDirectoryEdgeFromParentRoot (h : Heap Cell) (parentRoot : Ptr) (childName : Bytes)
    (childHash : ℕ) : Option (Option Ptr) := do
  match ← lookupChildSlotFromParentRoot h parentRoot childHash with
  | .layer childRoot =>
      match (h.node childRoot).directoryMeta with
      | none => return none
      | some m => return if directoryMetaNameEquals m childName then some childRoot else none
  | _ => return none

/-- The last part of `rename_directory_o1_from_parsed`: find the old edge again, check that it
still holds exactly `childRoot`, and remove it. -/
def detachEdge (s : LhmNamespace) (oldParentRoot : Ptr) (oldHash : ℕ) (childRoot : Ptr) :
    Option (Bool × LhmNamespace) := do
  let c ← findWith (edgeCompare oldHash) s.heap oldParentRoot oldHash
  match c.p with
  | none => return (false, s)
  | some p =>
      let cell := ((s.heap.leaf c.n).slot p).body
      if 0 ≤ ksufMatches cell then return (false, s)
      else if (← cell.lv.layer?) ≠ childRoot then return (false, s)
      else return (true, { s with heap := ← finishRemove s.heap c.n c.i })

/-- `rename_directory_o1_from_parsed`. -/
def renameDirectoryO1FromParsed (s : LhmNamespace) (old new : ParsedPath) :
    Option (Bool × LhmNamespace) := do
  if old.normalizedPath = [slash] ∨ new.normalizedPath = [slash] then return (false, s)
  else if old.normalizedPath = new.normalizedPath then return (true, s)
  else if isPrefixPath old.normalizedPath new.normalizedPath then return (false, s)
  else if new.components = [] ∨ !entryNameFits new.name then return (false, s)
  else
    match ← s.locateDirectoryRoot old.parent with
    | none => return (false, s)
    | some oldParentRoot =>
    match ← s.locateDirectoryRoot new.parent with
    | none => return (false, s)
    | some newParentRoot =>
    match ← lookupDirectoryEdgeFromParentRoot s.heap oldParentRoot old.name old.hash with
    | none => return (false, s)
    | some childRoot =>
    match ← s.lookupChildFromParentRoot newParentRoot new.name new.hash with
    | some _ => return (false, s)
    | none =>
        let (attached, h) ← insertLayer s.heap newParentRoot new.hash fun h => (childRoot, h)
        if !attached then return (false, s)
        else
          let s := { s with heap := h }
          match (h.node childRoot).directoryMeta with
          | none => return (false, s)
          | some m =>
              let m := makeDirectoryMeta m.ref new.hash new.name
              let s :=
                { s with heap := h.set childRoot ((h.node childRoot).setDirectoryMeta (some m)) }
              s.detachEdge oldParentRoot old.hash childRoot

/-! ## Files -/

/-- `subtree_scanner::visit_value`: the records at or below `rootHashes`. -/
def subtreeRecords (s : LhmNamespace) (rootHashes : List ℕ) (kv : List ℕ × NamespaceEntry) :
    List (List ℕ × NamespaceEntry) :=
  if kv.1.take rootHashes.length ≠ rootHashes then []
  else if kv.2.kind ≠ .conflictChain then [kv]
  else ((s.findBucket kv.2.ref.blockId).getD []).map fun e => (kv.1, e)

/-- `scan_subtree`. -/
def scanSubtree (fuel : ℕ) (s : LhmNamespace) (rootHashes : List ℕ) :
    Option (List (List ℕ × NamespaceEntry)) :=
  (Scan.run fuel s).map fun kvs => kvs.flatMap (s.subtreeRecords rootHashes)

/-- The loop of `reconstruct_path_under_root`: append the names recorded for the longer and
longer prefixes of the hash path.  `none` is the empty string that reports failure. -/
def reconstructLoop (sourcePathMap : List (List ℕ × NamespaceEntry)) (fullHashes : List ℕ) :
    List ℕ → Bytes → Option Bytes
  | [], path => some path
  | i :: is, path =>
      match sourcePathMap.lookup (fullHashes.take (i + 1)) with
      | none => none
      | some e => reconstructLoop sourcePathMap fullHashes is (path ++ slash :: e.name)

/-- `reconstruct_path_under_root`. -/
def reconstructPathUnderRoot (rootPath : Bytes) (rootHashes fullHashes : List ℕ)
    (sourcePathMap : List (List ℕ × NamespaceEntry)) : Option Bytes :=
  if fullHashes.take rootHashes.length ≠ rootHashes then none
  else reconstructLoop sourcePathMap fullHashes
    ((List.range fullHashes.length).drop rootHashes.length) rootPath

/-- `rename_plan_item`. -/
structure RenamePlanItem where
  sourcePath : Bytes
  destinationPath : Bytes
  entry : NamespaceEntry
  depth : ℕ

/-- One plan item; the inner `none` is the result `false`. -/
def planItem (hash : Bytes → UInt64) (s : LhmNamespace) (old new : ParsedPath)
    (sourcePathMap : List (List ℕ × NamespaceEntry)) (record : List ℕ × NamespaceEntry) :
    Option (Option RenamePlanItem) := do
  match reconstructPathUnderRoot old.normalizedPath old.hashes record.1 sourcePathMap with
  | none => return none
  | some sourcePath =>
      let destinationPath :=
        rewriteDestinationPath sourcePath old.normalizedPath new.normalizedPath
      if destinationPath = [] then return none
      else
        let destination ← parseAbsolutePath hash destinationPath
        match ← s.lookupEntryFromParsed destination with
        | some _ => return none
        | none => return some ⟨sourcePath, destinationPath, record.2, destination.hashes.length⟩

/-- The loop that builds the plan, stopping at the first record without one. -/
def planLoop (item : List ℕ × NamespaceEntry → Option (Option RenamePlanItem)) :
    List (List ℕ × NamespaceEntry) → Option (Option (List RenamePlanItem))
  | [] => some (some [])
  | r :: rs => do
      match ← item r with
      | none => return none
      | some i =>
          match ← planLoop item rs with
          | none => return none
          | some is => return some (i :: is)

/-- The order of paths as strings. -/
def bytesLt : Bytes → Bytes → Bool
  | [], [] => false
  | [], _ :: _ => true
  | _ :: _, [] => false
  | a :: as, b :: bs => if a < b then true else if a = b then bytesLt as bs else false

/-- The first sort: parents before children. -/
def createBefore (a b : RenamePlanItem) : Bool :=
  if a.depth ≠ b.depth then a.depth < b.depth else !bytesLt b.destinationPath a.destinationPath

/-- The second sort: children before parents. -/
def removeBefore (a b : RenamePlanItem) : Bool :=
  if a.depth ≠ b.depth then b.depth < a.depth else !bytesLt a.sourcePath b.sourcePath

/-- Run the calls of a plan, stopping at the first that returns false. -/
def runPlan (call : LhmNamespace → RenamePlanItem → Option (Bool × LhmNamespace)) :
    LhmNamespace → List RenamePlanItem → Option (Bool × LhmNamespace)
  | s, [] => some (true, s)
  | s, i :: is => do
      let (ok, s) ← call s i
      if ok then runPlan call s is else return (false, s)

/-- The file part of `rename_path`. -/
def renameFile (hash : Bytes → UInt64) (fuel : ℕ) (s : LhmNamespace) (old new : ParsedPath) :
    Option (Bool × LhmNamespace) := do
  match ← s.lookupEntryFromParsed new with
  | some _ => return (false, s)
  | none =>
  match ← s.lookupDirectory hash (parentPath new.normalizedPath) with
  | none => return (false, s)
  | some _ =>
      let subtree ← scanSubtree fuel s old.hashes
      if subtree = [] then return (false, s)
      else
        -- `emplace` keeps the first record of a hash path, as `lookup` finds it
        match ← planLoop (planItem hash s old new subtree) subtree with
        | none => return (false, s)
        | some plan =>
            let (ok, s) ← runPlan
              (fun s i => s.createEntry hash i.destinationPath i.entry.kind i.entry.ref)
              s (plan.insertionSort fun a b => createBefore a b)
            if !ok then return (false, s)
            else
              runPlan (fun s i => s.removeEntry hash i.sourcePath)
                s (plan.insertionSort fun a b => removeBefore a b)

/-- `rename_path`.  The fuel bounds the table scan of a file rename. -/
def renamePath (hash : Bytes → UInt64) (fuel : ℕ) (s : LhmNamespace) (oldPath newPath : Bytes) :
    Option (Bool × LhmNamespace) := do
  let old ← parseAbsolutePath hash oldPath
  let new ← parseAbsolutePath hash newPath
  if old.normalizedPath = [slash] ∨ new.normalizedPath = [slash] then return (false, s)
  else if old.normalizedPath = new.normalizedPath then return (true, s)
  else if isPrefixPath old.normalizedPath new.normalizedPath then return (false, s)
  else
    match ← s.lookupEntryFromParsed old with
    | none => return (false, s)
    | some source =>
        if source.kind = .directory then s.renameDirectoryO1FromParsed old new
        else s.renameFile hash fuel old new

end LhmNamespace

end MasstreeLHM
