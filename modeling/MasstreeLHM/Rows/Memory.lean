import MasstreeLHM.Log.Endian

/-!
# Blocks of memory

A block is the list of its bytes, and a pointer into it is a position.  Three operations are all
that the rows of `value_bag.hh` need of memory:

* `peek` — copy bytes out of a block,
* `poke` — overwrite bytes of a block,
* `allocate` — make a block.  What new memory holds is a parameter, so that no result about rows can
  rest on it.

An access that is not inside its block is `none`; it is never cut down to what fits.  So an
operation that comes out as `some` has stayed within what was allocated, and a proof that it does
is a proof that the code leaves no memory of its own.  `poke_length` keeps the size of the block,
and `peek_append` and `poke_append` read and overwrite a part of a block that is written as three
lists: this is the form in which the proofs about rows give the position of a part.
-/

namespace MasstreeLHM

/-- Copy `n` bytes from position `p` on. -/
def peek (d : Bytes) (p n : ℕ) : Option Bytes :=
  if p + n ≤ d.length then some ((d.drop p).take n) else none

/-- Copy `bs` to position `p`. -/
def poke (d : Bytes) (p : ℕ) (bs : Bytes) : Option Bytes :=
  if p + bs.length ≤ d.length then some (d.take p ++ bs ++ d.drop (p + bs.length)) else none

/-- A new block of `n` bytes, which hold what `init` says. -/
def allocate (init : ℕ → UInt8) (n : ℕ) : Bytes := (List.range n).map init

@[simp] lemma allocate_length (init : ℕ → UInt8) (n : ℕ) : (allocate init n).length = n := by
  simp [allocate]

lemma poke_length {d d' bs : Bytes} {p : ℕ} (h : poke d p bs = some d') : d'.length = d.length := by
  rw [poke] at h
  split_ifs at h with hp
  cases h
  simp only [List.length_append, List.length_take, List.length_drop]
  omega

/-- A part that stands between two others is read. -/
lemma peek_append {a b c : Bytes} {p n : ℕ} (hp : p = a.length) (hn : n = b.length) :
    peek (a ++ b ++ c) p n = some b := by
  subst hp hn
  rw [peek, if_pos (by simp only [List.length_append]; omega), List.append_assoc, List.drop_left,
    List.take_left]

/-- A part that stands between two others is overwritten. -/
lemma poke_append {a b c bs : Bytes} {p : ℕ} (hp : p = a.length) (hb : bs.length = b.length) :
    poke (a ++ b ++ c) p bs = some (a ++ bs ++ c) := by
  subst hp
  rw [poke, if_pos (by simp only [List.length_append]; omega), hb, ← List.length_append,
    List.drop_left, List.append_assoc a b c, List.take_left]

end MasstreeLHM
