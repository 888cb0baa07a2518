import MasstreeLHM.KeyTable.Removals

/-!
# A table of byte strings is a map

Cursors and `gc_layer` callbacks, in any order: every call answers what a map from byte strings to
values would answer, and in the end `get` reads that map.

`Call` are the calls, and `Call.onMap` says what a map does: this is the abstract model, a function
from keys to values with nothing of layers, slices or nodes.  A callback does nothing to a map.
`Call.onTable` is the same call on a table.

`StringTable.init_ok` starts the refinement, **`Ok.onTable`** is one call, put together from
`Ok.put`, `Ok.remove`, `Ok.gcLayer` and the others, and **`Ok.runTable`** is the run.
**`table_is_map`** states the result for every sequence of calls whose inserted keys have at most
1024 bytes: no call gets stuck, and all answers agree.
-/

namespace MasstreeLHM.KeyTable

open Trie

variable {V : Type} [Inhabited V]

/-- The calls on a table; `collect i` runs the callback with number `i`, if there is one. -/
inductive Call (V : Type) where
  | get (k : Bytes)
  | read (k : Bytes)
  | put (k : Bytes) (w : Option V → V)
  | probe (k : Bytes)
  | remove (k : Bytes)
  | collect (i : ℕ)

namespace Call

/-- Keys that are inserted have at most 1024 bytes. -/
def Fits : Call V → Prop
  | put k _ => k.length ≤ 1024
  | probe k => k.length ≤ 1024
  | _ => True

/-- What a map does. -/
def onMap (m : Bytes → Option V) : Call V → Option V × (Bytes → Option V)
  | get k => (m k, m)
  | read k => (m k, m)
  | put k w => (m k, Function.update m k (some (w (m k))))
  | probe k => (m k, m)
  | remove k => (m k, Function.update m k none)
  | collect _ => (none, m)

/-- What the table does. -/
def onTable (P : NodeParams) (sz : ℕ) (t : StringTable V) :
    Call V → Option (Option V × StringTable V)
  | get k => (t.get k).map fun o => (o, t)
  | read k => t.read k
  | put k w => t.put P sz k w
  | probe k => t.probe P sz k
  | remove k => t.remove k
  | collect i =>
      match t.callbacks[i]? with
      | none => some (none, t)
      | some x =>
          (StringTable.gcLayer { t with callbacks := t.callbacks.eraseIdx i } x.1 x.2).map fun t =>
            (none, t)

end Call

/-- The answers of a map, and the map in the end. -/
def runMap : (Bytes → Option V) → List (Call V) → List (Option V) × (Bytes → Option V)
  | m, [] => ([], m)
  | m, c :: cs =>
      let (o, m) := c.onMap m
      let (os, m) := runMap m cs
      (o :: os, m)

/-- The answers of the table, and the table in the end. -/
def runTable (P : NodeParams) (sz : ℕ) :
    StringTable V → List (Call V) → Option (List (Option V) × StringTable V)
  | t, [] => some ([], t)
  | t, c :: cs => do
      let (o, t) ← c.onTable P sz t
      let (os, t) ← runTable P sz t cs
      return (o :: os, t)

variable {P : NodeParams} {t : StringTable V} {G : Ghost} {M : LayerMap Bytes (ℕ × ℕ) V Ptr}
  {R : Ptr}

/-- **A new table** is empty. -/
lemma StringTable.init_ok (hW : P.leafWidth = 15) (sz : ℕ) :
    ∃ (t : StringTable V) (G : Ghost), StringTable.init P sz = some t ∧
    t.Ok P G (fun _ _ => none) 0 := by
  have hle : P.leafWidth ≤ 15 := hW.le
  obtain ⟨st, h1, h2⟩ := SuffixStore.make_spec sz 0 hle
  set h₀ : Heap (Cell V) := (Layers.empty : Layers V).heap with hh₀
  have hempty : HeapInv P keyLt h₀ Ghost.empty := .empty _
  have hI := hempty.alloc_root none
  have hE : ∀ f u, ¬ Entry (h₀.alloc (.leaf (Leaf.makeRoot P none)))
    (Ghost.empty.alloc h₀.size) f u := by
    intro f u hu
    obtain ⟨b, -, hb, -⟩ := (entry_alloc_root none hempty.tree.live_lt f u).mp hu
    exact hb
  set h := h₀.alloc (.leaf (Leaf.makeRoot P none)) with hh
  set G := Ghost.empty.alloc h₀.size with hG
  have hok₀ : (Layers.empty : Layers V).Ok .strings P Ghost.empty := Layers.empty_ok
  have hno : NoMetadata h := NoMetadata.alloc (hok₀.noMeta rfl) rfl
  have hheld : Held h G 0 := ⟨hI.tree.known (Or.inl rfl), fun _ => rfl⟩
  have hfits : AllFit .strings h fun _ => st := by
    intro a l hl
    rw [hh, Heap.node_alloc] at hl
    split_ifs at hl with ha
    · cases hl
      exact fits_of_live_eq_nil (by simp [Leaf.makeRoot, Leaf.make, Kpermuter.live,
        Kpermuter.makeEmpty])
    · cases hl
  refine ⟨⟨h, fun _ => st, 0, []⟩, G, by rw [StringTable.init, h1]; rfl,
    ⟨⟨hI, fun r hr => List.mem_singleton.mp hr ▸ hheld, fun _ => h2, hfits, fun _ => hno⟩,
      fun f d i => ?_,
      fun f u hu => absurd hu (hE f u)⟩, rfl, ⟨by simp, by simp⟩, by simp [Spelled], by simp⟩
  refine ⟨fun h0 => absurd h0 (by simp), ?_⟩
  rintro ⟨u, hu, -⟩
  exact absurd hu (hE f u)

/-- **One call.** -/
lemma StringTable.Ok.onTable (hT : t.Ok P G M R) (hW : P.leafWidth = 15) (sz : ℕ)
    {c : Call V} (hc : c.Fits) :
    ∃ t' G' M', c.onTable P sz t = some ((c.onMap (Trie.get byteCut M R)).1, t') ∧ t'.Ok P G' M' R ∧
      Trie.get byteCut M' R = (c.onMap (Trie.get byteCut M R)).2 := by
  cases c with
  | get k => exact ⟨t, G, M, by rw [Call.onTable, hT.get_eq]; rfl, hT, rfl⟩
  | read k =>
      obtain ⟨t', h1, h2⟩ := hT.read k
      exact ⟨t', G, M, h1, h2, rfl⟩
  | put k w => exact hT.put hW sz hc w
  | probe k => exact hT.probe hW sz hc
  | remove k => exact hT.remove k
  | collect i =>
      rw [Call.onTable]
      cases hx : t.callbacks[i]? with
      | none => exact ⟨t, G, M, rfl, hT, rfl⟩
      | some x =>
          obtain ⟨h1, h2⟩ := hT.callbacks x (List.mem_of_getElem? hx)
          have hT' : StringTable.Ok P { t with callbacks := t.callbacks.eraseIdx i } G M R :=
            ⟨hT.stands, hT.root, hT.tree, hT.spelled,
              fun y hy => hT.callbacks y (List.mem_of_mem_eraseIdx hy)⟩
          obtain ⟨t', G', M', h3, h4, h5⟩ := hT'.gcLayer h1 h2 x.2
          exact ⟨t', G', M', by simp only [h3]; rfl, h4, h5⟩

/-- **All calls.** -/
lemma StringTable.Ok.runTable (hW : P.leafWidth = 15) (sz : ℕ) {cs : List (Call V)}
    (hT : t.Ok P G M R) (hcs : ∀ c ∈ cs, c.Fits) :
    ∃ t' G' M', KeyTable.runTable P sz t cs = some ((runMap (Trie.get byteCut M R) cs).1, t') ∧
    t'.Ok P G' M' R ∧
      Trie.get byteCut M' R = (runMap (Trie.get byteCut M R) cs).2 := by
  induction cs generalizing t G M with
  | nil => exact ⟨t, G, M, rfl, hT, rfl⟩
  | cons c cs ih =>
      obtain ⟨t₁, G₁, M₁, h1, h2, h3⟩ := hT.onTable hW sz (hcs c List.mem_cons_self)
      obtain ⟨t', G', M', h4, h5, h6⟩ := ih h2 fun d hd => hcs d (List.mem_cons_of_mem _ hd)
      rw [h3] at h4 h6
      refine ⟨t', G', M', ?_, h5, h6⟩
      rw [KeyTable.runTable, h1]
      simp only [Option.bind_eq_bind, Option.bind_some, h4]
      rfl

/-- **A table of byte strings is a map**: in every sequence of calls, with the callbacks at any
time. -/
theorem table_is_map (hW : P.leafWidth = Kind.strings.leafWidth) (sz : ℕ) (cs : List (Call V))
    (hcs : ∀ c ∈ cs, c.Fits) :
    ∃ t t', StringTable.init P sz = some t ∧
      runTable P sz t cs = some ((runMap (fun _ => none) cs).1, t') ∧
      ∀ k, t'.get k = some ((runMap (fun _ => none) cs).2 k) := by
  obtain ⟨t, G, h1, h2⟩ := StringTable.init_ok (V := V) hW sz
  obtain ⟨t', G', M', h3, h4, h5⟩ := h2.runTable hW sz hcs
  have hempty : Trie.get byteCut (fun _ _ => none : LayerMap Bytes (ℕ × ℕ) V Ptr) 0 = fun _ =>
    none :=
    funext fun k => get_of_empty fun _ => rfl
  rw [hempty] at h3 h5
  exact ⟨t, t', h1, h3, fun k => by rw [h4.get_eq, h5]⟩

/-- Two keys that share two slices come and go, and their layers are collected. -/
def sharedSliceCalls : List (Call ℕ) :=
  let a := List.replicate 20 97
  let b := List.replicate 16 97 ++ [98]
  [.put a fun _ => 1, .probe b, .put b fun _ => 2, .remove a, .read b, .remove b, .collect 0,
    .collect 0, .get b, .put [] fun o => o.getD 3]

/-- The answers are those of a map, and in the end only the empty key has a value. -/
theorem table_is_map_sharedSlices :
    ∃ t t', StringTable.init stringTableParams 512 = some t ∧
      runTable stringTableParams 512 t sharedSliceCalls
        = some ([none, none, none, some 1, some 2, some 2, none, none, none, none], t') ∧
        t'.get [] = some (some 3) := by
  obtain ⟨t, t', h1, h2, h3⟩ := table_is_map (P := stringTableParams) rfl 512 sharedSliceCalls
    (by simp [sharedSliceCalls, Call.Fits])
  exact ⟨t, t', h1, h2, h3 []⟩

end MasstreeLHM.KeyTable
