import MasstreeLHM.Log.Msgpack
import MasstreeLHM.Stream.Memo

/-!
# Json values and places in them

`Json` as a whole, arrays and objects included, and pointers into a value.  A pointer is the path
to the place: the position in the innermost array or object comes first.  An object keeps its
items in the order in which they were inserted.

`JsonTree.resize` and `JsonTree.getInsert` are the two operations by which a container grows.  Both
have an end in the source, since capacities are `int`s: `canResize` and `canInsert` say when the
code still comes out, and `canResize_of_le` and `canInsert_of_lt` are the simple bounds under which
it does.

The second half is about values with a hole.  A `JsonFrame` is an array or an object around a hole,
a list of frames is a path to one, and `place` is the pointer of the source to it.  **`get_plug`**
and **`set_plug`** turn a load or a store through that pointer into one in the value that fills the
hole.  With them the proofs about the parser never walk a path.
-/

namespace MasstreeLHM

/-- `Json`. -/
inductive JsonTree where
  | null
  | bool (b : Bool)
  | int (z : ℤ)
  | unsigned (n : ℕ)
  | double (bits : UInt64)
  | str (s : Bytes)
  | array (elems : List JsonTree)
  | object (items : List (Bytes × JsonTree))

namespace JsonTree

/-- The decimal digits of a number, as `String(x)` writes them. -/
def decimal (z : ℤ) : Bytes := (toString z).toList.map fun c => UInt8.ofNat c.toNat

/-- `Json::to_s` of what may be a key: a string (`is_s`) or an integer (`is_i`). -/
def keyString : JsonTree → Option Bytes
  | .str s => some s
  | .int z => some (decimal z)
  | .unsigned n => some (decimal n)
  | _ => none

/-- The elements `Json::resize` starts from. -/
def elements : JsonTree → List JsonTree
  | .array elems => elems
  | _ => []

/-- `Json::resize`. -/
def resize (elems : List JsonTree) (n : ℕ) : List JsonTree :=
  elems.take n ++ List.replicate (n - elems.length) .null

@[simp] lemma resize_length (elems : List JsonTree) (n : ℕ) : (resize elems n).length = n := by
  rw [resize, List.length_append, List.length_take, List.length_replicate]
  omega

/-- `ObjectJson::get_insert`: the items, and the position of the key. -/
def getInsert (items : List (Bytes × JsonTree)) (key : Bytes) : List (Bytes × JsonTree) × ℕ :=
  match items.findIdx? (fun item => item.1 == key) with
  | some i => (items, i)
  | none => (items ++ [(key, .null)], items.length)

/-! ## Room -/

/-- `Json::resize` can make room for `n` elements.  Where there is an array already,
`hard_uniqueify_array` rounds a count above 2^31 - 2^14 up to 2^31, which is negative as an `int`.
The capacity of that array is taken to be its length. -/
def canResize (j : JsonTree) (n : ℤ) : Bool :=
  match j with
  | .array elems => n ≤ max (elems.length : ℤ) 2147467264
  | _ => true

lemma canResize_of_le (j : JsonTree) {n : ℤ} (h : n ≤ 2147467264) : j.canResize n = true := by
  cases j with
  | array elems => exact decide_eq_true (h.trans (le_max_right _ _))
  | _ => rfl

/-- `ObjectJson::get_insert` can insert the key: it is there, or it can be copied, and
`ObjectJson::grow` has not come to the end of doubling an `int`. -/
def canInsert (items : List (Bytes × JsonTree)) (key : Bytes) : Bool :=
  items.any (fun item => item.1 == key) ||
    (items.length < 1073741824 && (Msgpack.copyCapacity key.length).isSome)

lemma canInsert_of_lt {items : List (Bytes × JsonTree)} {key : Bytes}
    (hitems : items.length < 1073741824) (hkey : key.length < 2147483621) :
    canInsert items key = true := by
  rw [canInsert, decide_eq_true hitems, Msgpack.copyCapacity_isSome.mpr hkey, Bool.true_and,
    Bool.or_true]

/-! ## Places -/

/-- The value at a place, the outermost position first.  `none` is a pointer to nowhere. -/
def get : JsonTree → List ℕ → Option JsonTree
  | j, [] => some j
  | .array elems, i :: path =>
      match elems[i]? with
      | none => none
      | some e => e.get path
  | .object items, i :: path =>
      match items[i]? with
      | none => none
      | some item => item.2.get path
  | _, _ :: _ => none

/-- Store a value at a place. -/
def set : JsonTree → List ℕ → JsonTree → Option JsonTree
  | _, [], v => some v
  | .array elems, i :: path, v =>
      match elems[i]? with
      | none => none
      | some e => (e.set path v).map fun e => .array (elems.set i e)
  | .object items, i :: path, v =>
      match items[i]? with
      | none => none
      | some item => (item.2.set path v).map fun e => .object (items.set i (item.1, e))
  | _, _ :: _, _ => none

/-! ## Values with a hole -/

/-- An array or an object with a hole.  `left` is the number of items that are still to come
behind the hole. -/
inductive JsonFrame where
  | element (before after : List JsonTree)
  | member (before : List (Bytes × JsonTree)) (key : Bytes) (after : List (Bytes × JsonTree))
      (left : ℕ)

namespace JsonFrame

/-- The value with its hole filled. -/
def plug : JsonFrame → JsonTree → JsonTree
  | .element before after, v => .array (before ++ v :: after)
  | .member before key after _, v => .object (before ++ (key, v) :: after)

/-- The position of the hole. -/
def index : JsonFrame → ℕ
  | .element before _ => before.length
  | .member before _ _ _ => before.length

/-- How many elements or items are to come behind the hole. -/
def left : JsonFrame → ℕ
  | .element _ after => after.length
  | .member _ _ _ left => left

end JsonFrame

/-- The whole value, the innermost frame first. -/
def plug : List JsonFrame → JsonTree → JsonTree
  | [], v => v
  | f :: frames, v => plug frames (f.plug v)

/-- The place of the hole, the innermost position first. -/
def place (frames : List JsonFrame) : List ℕ := frames.map JsonFrame.index

@[simp] lemma get_nil (j : JsonTree) : j.get [] = some j := by cases j <;> rfl

@[simp] lemma set_nil (j v : JsonTree) : j.set [] v = some v := by cases j <;> rfl

lemma get_plug_frame (f : JsonFrame) (v : JsonTree) (path : List ℕ) :
    (f.plug v).get (f.index :: path) = v.get path := by
  cases f <;> simp [JsonFrame.plug, JsonFrame.index, get]

lemma set_plug_frame (f : JsonFrame) (v w : JsonTree) (path : List ℕ) :
    (f.plug v).set (f.index :: path) w = (v.set path w).map f.plug := by
  cases f <;> simp [JsonFrame.plug, JsonFrame.index, set] <;> rfl

/-- What stands below the hole is found from its place. -/
lemma get_plug : ∀ (frames : List JsonFrame) (v : JsonTree) (path : List ℕ),
    (plug frames v).get ((place frames).reverse ++ path) = v.get path
  | [], _, _ => rfl
  | f :: frames, v, path => by
      rw [plug, place, List.map_cons, List.reverse_cons, List.append_assoc]
      exact (get_plug frames (f.plug v) _).trans (get_plug_frame f v path)

/-- What is stored below the place of the hole goes into the hole. -/
lemma set_plug : ∀ (frames : List JsonFrame) (v w : JsonTree) (path : List ℕ),
    (plug frames v).set ((place frames).reverse ++ path) w = (v.set path w).map (plug frames)
  | [], v, w, path => by
      rw [show plug [] = id from funext fun _ => rfl, Option.map_id]
      rfl
  | f :: frames, v, w, path => by
      rw [plug, place, List.map_cons, List.reverse_cons, List.append_assoc]
      refine (set_plug frames (f.plug v) w _).trans ?_
      rw [List.singleton_append, set_plug_frame, Option.map_map]
      rfl

lemma get_hole (frames : List JsonFrame) (v : JsonTree) :
    (plug frames v).get (place frames).reverse = some v := by
  rw [← List.append_nil (place frames).reverse, get_plug, get_nil]

lemma set_hole (frames : List JsonFrame) (v w : JsonTree) :
    (plug frames v).set (place frames).reverse w = some (plug frames w) := by
  rw [← List.append_nil (place frames).reverse, set_plug, set_nil, Option.map_some]

end JsonTree

end MasstreeLHM
