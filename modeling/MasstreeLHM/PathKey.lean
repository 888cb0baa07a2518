import MasstreeLHM.DirectoryMeta

/-!
# Path parsing

`path_key.hh`, and the path-string helpers of `lhm_namespace.hh`.  The component hash is a parameter
of the whole development; `hashComponent` is the one the repository uses.

Paths are byte strings, as in the source: nothing is assumed of their encoding.  `parseAbsolutePath`
splits a path at its slashes, leaves out empty components, and throws for a relative path and for
the components `.` and `..`.  The result has the normalized text, the names and the hashes side by
side, as the operations of the namespace use all three.  `ParsedPath.parent` cuts the last name off
as the operations do it, by `parent_path` on the text and `pop_back` on the vectors.

`isPrefixPath` and `rewriteDestinationPath` work on normalized texts.  `collidingName` and
`collidingName'` are two names with the same FNV-1a hash; they stand in every example that needs a
collision.
-/

namespace MasstreeLHM

/-- The byte `'/'`. -/
def slash : UInt8 := 47

/-- `PathKey::hash_component`: FNV-1a with 64 bits. -/
def hashComponent (component : Bytes) : UInt64 :=
  component.foldl (fun hash c => (hash ^^^ c.toUInt64) * 1099511628211) 14695981039346656037

/-- `8yn0iYCKYHlIj4-BwPqk`, which has the FNV-1a hash of `collidingName'`. -/
def collidingName : Bytes :=
  [56, 121, 110, 48, 105, 89, 67, 75, 89, 72, 108,
    73, 106, 52, 45, 66, 119, 80, 113, 107]

/-- `GReLUrM4wMqfg9yzV3KQ`. -/
def collidingName' : Bytes :=
  [71, 82, 101, 76, 85, 114, 77, 52, 119, 77, 113,
    102, 103, 57, 121, 122, 86, 51, 75, 81]

example : hashComponent collidingName = hashComponent collidingName' := by decide +kernel

/-- `ParsedPath`. -/
structure ParsedPath where
  normalizedPath : Bytes
  components : List Bytes
  hashes : List ℕ
deriving Repr, DecidableEq

/-- One component appended to a parsed path. -/
def ParsedPath.push (hash : Bytes → UInt64) (p : ParsedPath) (component : Bytes) : ParsedPath :=
  { normalizedPath :=
      (if 1 < p.normalizedPath.length then p.normalizedPath ++ [slash] else p.normalizedPath)
        ++ component
    components := p.components ++ [component]
    hashes := p.hashes ++ [(hash component).toNat] }

/-- The outer loop of `parse_absolute_path`, on the bytes from index `i` on. -/
def parseLoop (hash : Bytes → UInt64) : ℕ → Bytes → ParsedPath → Option ParsedPath
  | 0, _, _ => none
  | fuel + 1, rest, parsed =>
      let rest := rest.dropWhile (· == slash)
      if rest = [] then some parsed
      else
        let component := rest.takeWhile (· != slash)
        -- `.` and `..` are rejected with an exception
        if component = [46] ∨ component = [46, 46] then none
        else parseLoop hash fuel (rest.dropWhile (· != slash)) (parsed.push hash component)

/-- `parse_absolute_path`; `none` is the `invalid_argument` exception. -/
def parseAbsolutePath (hash : Bytes → UInt64) (path : Bytes) : Option ParsedPath :=
  if path.head? = some slash then
    parseLoop hash (path.length + 1) path ⟨[slash], [], []⟩
  else none

/-- `parent_path` of a normalized path: everything before the last slash. -/
def parentPath (normalizedPath : Bytes) : Bytes :=
  if normalizedPath = [slash] then [slash]
  else
    let upTo := (normalizedPath.reverse.dropWhile (· != slash)).tail.reverse
    if upTo = [] then [slash] else upTo

/-- `is_prefix_path`. -/
def isPrefixPath (p path : Bytes) : Bool :=
  if p = [slash] then true
  else if path.length < p.length then false
  else if path.take p.length ≠ p then false
  else path.length == p.length || path[p.length]? == some slash

/-- `rewrite_destination_path`; the empty string reports failure. -/
def rewriteDestinationPath (sourcePath sourceRoot destinationRoot : Bytes) : Bytes :=
  if sourcePath = sourceRoot then destinationRoot
  else if isPrefixPath sourceRoot sourcePath then
    destinationRoot ++ sourcePath.drop sourceRoot.length
  else []

/-- The parent as the operations build it: `parent_path` on the string, `pop_back` on the
vectors. -/
def ParsedPath.parent (p : ParsedPath) : ParsedPath :=
  { normalizedPath := parentPath p.normalizedPath
    components := p.components.dropLast
    hashes := p.hashes.dropLast }

/-- `components.back()`. -/
def ParsedPath.name (p : ParsedPath) : Bytes := p.components.getLastD []

/-- `hashes.back()`. -/
def ParsedPath.hash (p : ParsedPath) : ℕ := p.hashes.getLastD 0

end MasstreeLHM
