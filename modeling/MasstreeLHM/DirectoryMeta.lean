import Mathlib.Data.Nat.Notation

/-!
# Inode references and directory metadata

`directory_meta.hh`.  A directory is a Masstree layer; its identity (inode reference, component
hash, name) is a record stored behind the node that is currently the root of that layer.

`InodeRef` is a reference to an inode, a block and an offset in it, and `DirectoryMeta` is the
record. In the source its name is a buffer of fixed size with a length byte. Every caller checks
`kMaxEntryNameBytes` before it fills the buffer, so here the record has the name itself.

Nothing is proved in this file.  That the record follows the root of its layer wherever splits and
removals move it is the subject of `Pointers` and of `Layers/Metadata`, and that its name is the
name of the edge above it the subject of `Names`.
-/

namespace MasstreeLHM

/-- A `std::string` of the source: a sequence of bytes. -/
abbrev Bytes := List UInt8

/-- `kMaxEntryNameBytes`. -/
def kMaxEntryNameBytes : ℕ := 63

/-- `inode_ref`. -/
structure InodeRef where
  blockId : ℕ
  offset : ℕ
deriving Repr, DecidableEq, Inhabited

/-- `make_inode_ref`. -/
def makeInodeRef (blockId offset : ℕ) : InodeRef := ⟨blockId, offset⟩

/-- `directory_meta`.  The fixed name buffer with its length byte is the byte string it holds:
every writer checks `kMaxEntryNameBytes` first.  `flags` is written as zero and never read. -/
structure DirectoryMeta where
  ref : InodeRef
  componentHash : ℕ
  name : Bytes
deriving Repr, DecidableEq, Inhabited

/-- `make_directory_meta`. -/
def makeDirectoryMeta (ref : InodeRef) (componentHash : ℕ) (name : Bytes) : DirectoryMeta :=
  ⟨ref, componentHash, name⟩

/-- `directory_meta_name_equals`. -/
def directoryMetaNameEquals (m : DirectoryMeta) (name : Bytes) : Bool := m.name == name

end MasstreeLHM
