import MasstreeLHM.Stream.Json

/-!
# The streaming parser

`msgpack::streaming_parser` of `msgpack.cc`.  Positions count from the first byte of the chunk, so
`first` is zero and `last` is the length of the chunk.  Lengths and counts come out of the input as
unsigned numbers and go into an `int`; the conversion is a parameter, `toInt` for the code as it
is.  `none` means that the code does something undefined or never returns: it uses a pointer to
nowhere, reads outside the chunk, fails an assertion, overflows an `int`, or doubles a capacity for
ever.

* `shortHeader`, `longHeader` — what the first bytes of an item announce.
* `StreamingParser` — the state: the value so far, the stack of open containers with a pointer to
  the next place in each, the key that waits for its value, and the bytes of an item that a chunk
  has cut.
* `add`, `addKey` and `pop` — the code behind the label `next`.
* `turn` and `loop` — a round of the loop of `consume`, and so many rounds.
* `resume` — what `consume` does before its loop.
* `consume` — all of it.
-/

namespace MasstreeLHM

namespace Msgpack

/-- A `uint32_t` as an `int`. -/
def toInt (n : ℕ) : ℤ := if n < 2147483648 then n else (n : ℤ) - 4294967296

/-- `nbytes`: the length of a header, for the formats from `fnull` on. -/
def nbytes (x : UInt8) : ℕ :=
  match x.toNat with
  | 0xC4 => 2
  | 0xC5 => 3
  | 0xC6 => 5
  | 0xCA => 5
  | 0xCB => 9
  | 0xCC => 2
  | 0xCD => 3
  | 0xCE => 5
  | 0xCF => 9
  | 0xD0 => 2
  | 0xD1 => 3
  | 0xD2 => 5
  | 0xD3 => 9
  | 0xD9 => 2
  | 0xDA => 3
  | 0xDB => 5
  | 0xDC => 3
  | 0xDD => 5
  | 0xDE => 3
  | 0xDF => 5
  | _ => 0

/-- `is_bool`. -/
def isBool (x : UInt8) : Bool := 0xC2 ≤ x && x < 0xC4

/-- What a header announces: a number, null or bool as it is, an array or a map of `n` elements,
or `n` bytes of a string. -/
inductive Header (α : Type) where
  | scalar (j : JsonTree)
  | array (n : α)
  | map (n : α)
  | raw (n : α)

/-- A header of one byte. -/
def shortHeader (x : UInt8) : Option (Header ℕ) :=
  if isFixint x then some (.scalar (.int (loadSignedBE 1 [x])))
  else if x = 0xC0 then some (.scalar .null)
  else if isBool x then some (.scalar (.bool (x != 0xC2)))
  else if isFixmap x then some (.map (x.toNat - 0x80))
  else if isFixarray x then some (.array (x.toNat - 0x90))
  else if isFixstr x then some (.raw (x.toNat - 0xA0))
  else none

/-- A header of `nbytes` bytes, from its format and the bytes behind it. -/
def longHeader (x : UInt8) (s : Bytes) : Header ℕ :=
  match x.toNat with
  | 0xCA => .scalar (.double (Float32.ofBits (UInt32.ofNat (loadBE 4 s))).toFloat.toBits)
  | 0xCB => .scalar (.double (UInt64.ofNat (loadBE 8 s)))
  | 0xCC => .scalar (.int (loadBE 1 s))
  | 0xCD => .scalar (.int (loadBE 2 s))
  | 0xCE => .scalar (.unsigned (loadBE 4 s))
  | 0xCF => .scalar (.unsigned (loadBE 8 s))
  | 0xD0 => .scalar (.int (loadSignedBE 1 s))
  | 0xD1 => .scalar (.int (loadSignedBE 2 s))
  | 0xD2 => .scalar (.int (loadSignedBE 4 s))
  | 0xD3 => .scalar (.int (loadSignedBE 8 s))
  | 0xC4 => .raw (loadBE 1 s)
  | 0xD9 => .raw (loadBE 1 s)
  | 0xC5 => .raw (loadBE 2 s)
  | 0xDA => .raw (loadBE 2 s)
  | 0xC6 => .raw (loadBE 4 s)
  | 0xDB => .raw (loadBE 4 s)
  | 0xDC => .array (loadBE 2 s)
  | 0xDD => .array (loadBE 4 s)
  | 0xDE => .map (loadBE 2 s)
  | _ => .map (loadBE 4 s)

/-- The length or count as it is kept in `n`. -/
def Header.convert {α β : Type} (int : α → β) : Header α → Header β
  | .scalar j => .scalar j
  | .array n => .array (int n)
  | .map n => .map (int n)
  | .raw n => .raw (int n)

/-! ## The state -/

/-- `st_final` to `st_string`. -/
inductive ParserState where
  | stFinal
  | stError
  | stNormal
  | stPartial
  | stString
deriving Repr, DecidableEq

/-- `state_ < 0`. -/
def ParserState.done : ParserState → Bool
  | .stFinal => true
  | .stError => true
  | _ => false

/-- A `Json*` of the parser: null, `&jokey_`, or a place in `json_`, its innermost position
first. -/
inductive JsonPointer where
  | null
  | jokey
  | json (place : List ℕ)

/-- `++jp`. -/
def JsonPointer.advance : JsonPointer → JsonPointer
  | .json (i :: place) => .json ((i + 1) :: place)
  | jp => jp

/-- `selem`. -/
structure Selem where
  jp : JsonPointer
  size : ℤ

/-- `--size` or `n - 1` of an `int`. -/
def decrement (n : ℤ) : Option ℤ := if n = -2147483648 then none else some (n - 1)

/-- `streaming_parser`.  The back of `stack_` comes first.  `capacity` is that of the memory of
`str_`, of which the bytes of `str_` are the last ones in use. -/
structure StreamingParser where
  state : ParserState
  stack : List Selem
  str : Bytes
  capacity : ℕ
  json : JsonTree
  jokey : JsonTree

/-- Whether the loop goes on, or `consume` returns. -/
inductive Flow where
  | again (p : StreamingParser)
  | stop (p : StreamingParser)

/-- `stack_.empty() ? &json_ : stack_.back().jp`. -/
def target : List Selem → JsonPointer
  | [] => .json []
  | top :: _ => top.jp

namespace StreamingParser

/-- The constructor. -/
def fresh : StreamingParser := ⟨.stNormal, [], [], 0, .null, .null⟩

/-- `reset`. -/
def reset (p : StreamingParser) : StreamingParser := { p with state := .stNormal, stack := [] }

/-- `*jp`. -/
def load (p : StreamingParser) : JsonPointer → Option JsonTree
  | .null => none
  | .jokey => some p.jokey
  | .json place => p.json.get place.reverse

/-- `*jp = j`. -/
def store (p : StreamingParser) (j : JsonTree) : JsonPointer → Option StreamingParser
  | .null => none
  | .jokey => some { p with jokey := j }
  | .json place => (p.json.set place.reverse j).map fun json => { p with json }

/-- Behind the label `next`, when `jx` is `&jokey_`: the key is inserted in the object below it,
and the next value goes there. -/
def addKey (p : StreamingParser) : Option Flow :=
  match p.jokey.keyString, p.stack with
  | none, _ => some (.stop { p with state := .stError })
  | some _, [] => none
  | some key, top :: below =>
      match target below with
      | .json place =>
          match p.json.get place.reverse with
          | some (.object items) =>
              if JsonTree.canInsert items key then
                let (items, i) := JsonTree.getInsert items key
                (p.store (.object items) (.json place)).map fun p =>
                  .again { p with stack := { top with jp := .json (i :: place) } :: below }
              else none
          | _ => none
      | _ => none

/-- Behind the label `next`, when the value is complete: the containers that it completes are
left, and the next place is the next element, or a key. -/
def pop (p : StreamingParser) : Option Flow :=
  match p.stack.dropWhile fun e => e.size == 0 with
  | [] => some (.stop { p with state := .stFinal, stack := [] })
  | top :: below =>
      match p.load (target below), decrement top.size with
      | some (.array _), some size =>
          some (.again { p with stack := ⟨top.jp.advance, size⟩ :: below })
      | some _, some size => some (.again { p with stack := ⟨.jokey, size⟩ :: below })
      | _, _ => none

/-- Behind the label `next`.  `n` counts only when `jx` is an array or a map, which has then just
set it. -/
def add (p : StreamingParser) (jx : JsonPointer) (n : ℤ) : Option Flow :=
  match jx with
  | .null => none
  | .jokey => p.addKey
  | .json place =>
      match p.json.get place.reverse with
      | none => none
      | some (.array elems) =>
          if n ≠ 0 then
            -- `at_insert(0)` makes the element where there is none
            let elems := if elems.isEmpty then [.null] else elems
            match p.store (.array elems) (.json place), decrement n with
            | some p, some size =>
                some (.again { p with stack := ⟨.json (0 :: place), size⟩ :: p.stack })
            | _, _ => none
          else p.pop
      | some (.object _) =>
          if n ≠ 0 then
            (decrement n).map fun size => .again { p with stack := ⟨.jokey, size⟩ :: p.stack }
          else p.pop
      | some _ => p.pop

/-- `*jx = j`, and on to the label `next`. -/
def assign (p : StreamingParser) (jx : JsonPointer) (j : JsonTree) (n : ℤ) : Option Flow :=
  match p.store j jx with
  | none => none
  | some p => p.add jx n

end StreamingParser

/-- A `String` that is a copy of these bytes. -/
def copyString (s : Bytes) : Option Bytes := (copyCapacity s.length).map fun _ => s

/-- `String(first, n)`, or `str.fast_substring` when the chunk is the end of `str` and the string
does not reach up to it.  A negative length fails the assertion of the one, and makes the other look
for a zero byte. -/
def takeString (inStr : Bool) (s : Bytes) (n : ℤ) : Option Bytes :=
  if 0 ≤ n then
    if inStr && n < s.length then some (s.take n.toNat) else copyString (s.take n.toNat)
  else if inStr then none
  else if s.contains 0 then copyString (s.takeWhile fun x => x != 0)
  else none

namespace StreamingParser

/-- `str_ = String(first, last)`. -/
def setStr (p : StreamingParser) (s : Bytes) : Option StreamingParser :=
  (copyCapacity s.length).map fun capacity => { p with str := s, capacity }

/-- `str_.append(first, next)`. -/
def appendStr (p : StreamingParser) (s : Bytes) : Option StreamingParser :=
  (appendCapacity p.capacity p.str.length s.length).map fun capacity =>
    { p with str := p.str ++ s, capacity }

/-- What follows a header that ends at `first`. -/
def dispatch (inStr : Bool) (chunk : Bytes) (p : StreamingParser) (first : ℤ) :
    Header ℤ → Option (Flow × ℤ)
  | .scalar j => (p.assign (target p.stack) j 0).map fun flow => (flow, first)
  | .map n => (p.assign (target p.stack) (.object []) n).map fun flow => (flow, first)
  | .array n =>
      match p.load (target p.stack) with
      | none => none
      | some j =>
          if j.canResize n then
            (p.assign (target p.stack) (.array (JsonTree.resize j.elements n.toNat)) n).map
              fun flow => (flow, first)
          else none
  | .raw n =>
      if chunk.length - first < n then
        (p.setStr (chunk.drop first.toNat)).map fun p =>
          (.stop { p with stack := ⟨.null, n⟩ :: p.stack, state := .stString }, chunk.length)
      else
        match takeString inStr (chunk.drop first.toNat) n with
        | none => none
        | some s => (p.assign (target p.stack) (.str s) n).map fun flow => (flow, first + n)

/-- One round of the loop of `consume`. -/
def turn (int : ℕ → ℤ) (inStr : Bool) (chunk : Bytes) (p : StreamingParser) (first : ℤ) :
    Option (Flow × ℤ) :=
  if first = chunk.length then some (.stop { p with state := .stNormal }, first)
  else if first < 0 then none
  else match chunk.drop first.toNat with
    | [] => none
    | x :: s =>
        match shortHeader x with
        | some header => dispatch inStr chunk p (first + 1) (header.convert Nat.cast)
        | none =>
            if nbytes x = 0 then some (.stop { p with state := .stError }, first)
            else if s.length + 1 < nbytes x then
              (p.setStr (x :: s)).map fun p =>
                (.stop { p with state := .stPartial }, chunk.length)
            else dispatch inStr chunk p (first + nbytes x) ((longHeader x s).convert int)

/-- The loop of `consume`, for at most `fuel` rounds. -/
def loop (int : ℕ → ℤ) (inStr : Bool) (chunk : Bytes) :
    ℕ → StreamingParser → ℤ → Option (StreamingParser × ℤ)
  | 0, _, _ => none
  | fuel + 1, p, first =>
      match turn int inStr chunk p first with
      | none => none
      | some (.stop p, first) => some (p, first)
      | some (.again p, first) => loop int inStr chunk fuel p first

/-- What is missing of the `nneed` bytes in `str_` is taken from the chunk: the parser behind it,
and `next`. -/
def refill (p : StreamingParser) (chunk : Bytes) (nneed : ℤ) : Option (StreamingParser × ℤ) :=
  let next := if chunk.length < nneed - p.str.length then (chunk.length : ℤ)
    else nneed - p.str.length
  (p.appendStr (chunk.take next.toNat)).map fun p => (p, next)

/-- `consume` before its loop: a header or a string that an earlier chunk has left is completed. -/
def resume (int : ℕ → ℤ) (p : StreamingParser) (chunk : Bytes) : Option (Flow × ℤ) :=
  match p.state with
  | .stNormal => some (.again p, 0)
  | .stString =>
      match p.stack with
      | [] => none
      | top :: below =>
          match p.refill chunk top.size with
          | none => none
          | some (p, next) =>
              if (p.str.length : ℤ) ≠ top.size then some (.stop p, next)
              else (assign { p with stack := below } (target below) (.str p.str) 0).map
                fun flow => (flow, next)
  | .stPartial =>
      match p.str with
      | [] => none
      | x :: _ =>
          match p.refill chunk (nbytes x) with
          | none => none
          | some (p, next) =>
              if p.str.length ≠ nbytes x then some (.stop p, next)
              -- the header is a chunk of its own, in `str_`
              else match loop int true p.str 2 { p with state := .stNormal } 0 with
                | none => none
                | some (p, _) => some (if p.state = .stNormal then .again p else .stop p, next)
  | _ => some (.stop p, 0)

/-- `consume`, with a bound on the rounds of the loop: the parser behind it, and the position that
is returned.  `inStr` tells whether the chunk lies in `str`, as its end. -/
def consume (int : ℕ → ℤ) (fuel : ℕ) (inStr : Bool) (p : StreamingParser) (chunk : Bytes) :
    Option (StreamingParser × ℤ) :=
  match resume int p chunk with
  | none => none
  | some (.stop p, next) => some (p, next)
  | some (.again p, next) => loop int inStr chunk fuel p next

end StreamingParser

end Msgpack

end MasstreeLHM
