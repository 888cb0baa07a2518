import MasstreeLHM.Layers.Unlink
import MasstreeLHM.Layers.Worklist
import MasstreeLHM.Pointers

/-!
# Destroying a table

The second run of `destroy_rcu_callback` frees the nodes of a table, with a worklist that is
threaded through their `parent_` fields.  At a layer slot it goes on with the pointer that the slot
keeps, whatever has become of that node; so it takes all the nodes exactly if these pointers are the
roots.

`LayerRoot` and `TableNode` say which nodes a table has, by climbing from each pointer as every
other operation does.  `VisitsAll` asks that the traversal ends and has taken each of them once;
`SlotsAtRoots` is the condition on the slots.

If the slots keep roots, the successors of a node form a tree (`OneSlotEach.tree`), and the
traversal of a tree is known.  If not, the root of some layer is never put into the worklist
(`Worklist.Within`).  **`HeapInv.visitsAll_iff`** has both directions, and **`destroy_visits_all`**
is the same for every state of a table or of a namespace.
-/

namespace MasstreeLHM

/-! ## The traversal -/

section

variable {β : Type} [Inhabited β] (layer : β → Option Ptr) (h : Heap β) (r : Ptr)

/-- What is put into the worklist at a node; `layer` is `is_layer` and `lv_[p].layer()`. -/
def Node.successors : Node β → List Ptr
  | .leaf l => l.entries.filterMap fun s => layer s.body
  | .internode m => (m.children.take (m.size + 1)).filterMap id

/-- `destroy_rcu_callback::operator()`, both runs: the first one finds the root, the second one
frees nodes.  The deleted bit that the first one sets is not looked at by the second one. -/
def destroy (fuel : ℕ) : Option (List Ptr) :=
  (climbToRoot h (h.size + 1) r).bind fun t =>
    Worklist.traverse (fun a => (h.node a).successors layer) fuel
      ⟨fun a => (h.node a).parent, some t, some t⟩ []

/-! ## The nodes of a table -/

/-- Slot `i` of leaf `a` keeps the layer pointer `q`. -/
def SlotPointer (a : Ptr) (i : ℕ) (q : Ptr) : Prop :=
  ∃ l s, h.node a = .leaf l ∧ l.entries[i]? = some s ∧ layer s.body = some q

/-- The roots of the layers of a table: that of the layer of `root_`, and those of the layers that
slots lead to. -/
inductive LayerRoot : Ptr → Prop
  | root {t : Ptr} (ht : climbToRoot h (h.size + 1) r = some t) : LayerRoot t
  | slot {t a i q t' : ℕ} (ht : LayerRoot t) (ha : h.Linked t a) (hq : SlotPointer layer h a i q)
      (ht' : climbToRoot h (h.size + 1) q = some t') : LayerRoot t'

/-- A node of a layer of the table. -/
def TableNode (c : Ptr) : Prop := ∃ t, LayerRoot layer h r t ∧ h.Linked t c

/-- Each layer is the target of one pointer, the first one of `root_` and the others of a slot. -/
structure OneSlotEach : Prop where
  root : ∀ a i q, TableNode layer h r a → SlotPointer layer h a i q →
    climbToRoot h (h.size + 1) q ≠ climbToRoot h (h.size + 1) r
  slot : ∀ a b i j q q', TableNode layer h r a → TableNode layer h r b → SlotPointer layer h a i q →
    SlotPointer layer h b j q' → climbToRoot h (h.size + 1) q = climbToRoot h (h.size + 1) q' →
    a = b ∧ i = j

/-- The traversal ends, and it has taken every node of every layer once. -/
def VisitsAll : Prop :=
  ∃ fuel vs, destroy layer h r fuel = some vs ∧ vs.Nodup ∧ ∀ c, c ∈ vs ↔ TableNode layer h r c

/-- The pointers in the slots are the roots of their layers. -/
def SlotsAtRoots : Prop :=
  ∀ a i q, TableNode layer h r a → SlotPointer layer h a i q → climbToRoot h (h.size + 1) q = some q

end

section

variable {β : Type} [Inhabited β] {layer : β → Option Ptr} {h : Heap β} {G : Ghost} {P : NodeParams}
  {R : Slot β → Slot β → Prop} {r : Ptr}

lemma mem_successors_leaf {a c : Ptr} {l : Leaf β} (hl : h.node a = .leaf l) :
    c ∈ (h.node a).successors layer ↔ ∃ i, SlotPointer layer h a i c := by
  rw [hl, Node.successors, List.mem_filterMap]
  constructor
  · rintro ⟨s, hs, hc⟩
    obtain ⟨i, hi⟩ := List.getElem?_of_mem hs
    exact ⟨i, l, s, hl, hi, hc⟩
  · rintro ⟨i, l', s, hl', hs, hc⟩
    obtain rfl : l = l' := by simpa [hl] using hl'
    exact ⟨s, List.mem_of_getElem? hs, hc⟩

lemma HeapInv.successors_internode (hI : HeapInv P R h G) {a : Ptr} {m : Internode} (ha : G.live a)
    (hm : h.node a = .internode m) : (h.node a).successors layer = m.children.filterMap id := by
  have hlen : m.children.length ≤ m.size + 1 := (hI.tree.link ha hm).length.le
  rw [hm, Node.successors, List.take_of_length_le hlen]

lemma HeapInv.mem_successors_internode (hI : HeapInv P R h G) {a c : Ptr} {m : Internode}
    (ha : G.live a) (hm : h.node a = .internode m) :
    c ∈ (h.node a).successors layer ↔ some c ∈ m.children := by
  rw [hI.successors_internode ha hm]
  simp

lemma Held.climb (hr : Held h G r) (hI : HeapInv P R h G) :
    climbToRoot h (h.size + 1) r = some (G.top (G.fam r)) :=
  hI.tree.climbToRoot_eq _ hr.known (hr.startable hI) (by omega)

variable (hI : HeapInv P R h G) (hr : Held h G r)
  (hheld : ∀ a i q, G.live a → TableNode layer h r a → SlotPointer layer h a i q → Held h G q)
include hI hr hheld

/-- The roots of the layers are live, and have no parent. -/
lemma LayerRoot.top {t : Ptr} (ht : LayerRoot layer h r t) : G.live t ∧ t = G.top (G.fam t) := by
  have hclimb : ∀ {q t'}, Held h G q → climbToRoot h (h.size + 1) q = some t' →
      G.live t' ∧ t' = G.top (G.fam t') := by
    intro q t' hq ht'
    rw [hq.climb hI] at ht'
    obtain rfl := Option.some.inj ht'
    obtain ⟨h1, -, h2, -⟩ := hI.tree.top_spec hq.known
    exact ⟨h1, by rw [h2]⟩
  induction ht with
  | root ht => exact hclimb hr ht
  | slot ht ha hq ht' ih =>
      have hlinked := ha
      rw [ih.2, hI.tree.linked_iff (hI.tree.known ih.1)] at hlinked
      exact hclimb (hheld _ _ _ hlinked.1 ⟨_, ht, ha⟩ hq) ht'

lemma TableNode.live {c : Ptr} (hc : TableNode layer h r c) : G.live c := by
  obtain ⟨t, ht, hc⟩ := hc
  obtain ⟨h1, h2⟩ := ht.top hI hr hheld
  rw [h2, hI.tree.linked_iff (hI.tree.known h1)] at hc
  exact hc.1

/-- A root of a layer is no child. -/
lemma LayerRoot.not_child {t a : Ptr} {m : Internode} (ht : LayerRoot layer h r t) (ha : G.live a)
    (hm : h.node a = .internode m) : some t ∉ m.children := by
  intro hmem
  obtain ⟨h1, h2⟩ := ht.top hI hr hheld
  have hparent := (hI.tree.top_spec (hI.tree.known h1)).2.2.2.1
  rw [← h2, (hI.tree.child_live ha hm hmem).2.1] at hparent
  cases hparent

variable {t₀ : Ptr} (ht₀ : climbToRoot h (h.size + 1) r = some t₀) (hslots : SlotsAtRoots layer h r)
include ht₀ hslots

/-- If the slots keep roots, the successors lead to the nodes of the table. -/
lemma reach_successors {c : Ptr} :
    Worklist.Reach (fun a => (h.node a).successors layer) t₀ c ↔ TableNode layer h r c := by
  constructor
  · intro hc
    induction hc with
    | refl => exact ⟨t₀, .root ht₀, .refl⟩
    | @tail a c _ hstep ih =>
        obtain ⟨t, ht, ha⟩ := ih
        cases hn : h.node a with
        | leaf l =>
            obtain ⟨i, hq⟩ := (mem_successors_leaf hn).mp hstep
            exact ⟨c, .slot ht ha hq (hslots a i c ⟨t, ht, ha⟩ hq), .refl⟩
        | internode m =>
            have hlive := TableNode.live hI hr hheld ⟨t, ht, ha⟩
            exact ⟨t, ht, ha.tail ⟨m, hn, (hI.mem_successors_internode hlive hn).mp hstep⟩⟩
  · rintro ⟨t, ht, hc⟩
    have hlinked : ∀ {t c}, LayerRoot layer h r t → h.Linked t c →
        Worklist.Reach (fun a => (h.node a).successors layer) t₀ t →
        Worklist.Reach (fun a => (h.node a).successors layer) t₀ c := by
      intro t c ht hc hreach
      induction hc with
      | refl => exact hreach
      | @tail a c ha hstep ih =>
          obtain ⟨m, hm, hmem⟩ := hstep
          have hlive := TableNode.live hI hr hheld ⟨t, ht, ha⟩
          exact ih.tail ((hI.mem_successors_internode hlive hm).mpr hmem)
    refine hlinked ht hc ?_
    clear hc
    induction ht with
    | root ht =>
        rw [ht₀] at ht
        obtain rfl := Option.some.inj ht
        exact .refl
    | @slot t a i q t' ht ha hq ht' ih =>
        rw [hslots a i q ⟨t, ht, ha⟩ hq] at ht'
        obtain rfl := Option.some.inj ht'
        obtain ⟨l, s, hl, -⟩ := id hq
        exact (hlinked ht ha ih).tail ((mem_successors_leaf hl).mpr ⟨i, hq⟩)

/-- If the slots keep roots and each layer has one pointer, the successors form a tree. -/
lemma OneSlotEach.tree (hone : OneSlotEach layer h r) :
    Worklist.Tree (fun a => (h.node a).successors layer) t₀ := by
  have hreach := fun {c} => reach_successors hI hr hheld ht₀ hslots (c := c)
  -- a pointer that a slot keeps is the root of a layer
  have hroot : ∀ {a i q}, TableNode layer h r a → SlotPointer layer h a i q →
      LayerRoot layer h r q := by
    intro a i q ha hq
    obtain ⟨t, ht, hta⟩ := id ha
    exact .slot ht hta hq (hslots a i q ha hq)
  refine ⟨fun n hn => ?_, fun n hn h0 => ?_, fun n d m hn hd h1 h2 => ?_⟩
  · rw [hreach] at hn
    cases hnode : h.node n with
    | leaf l =>
        rw [Node.successors, List.Nodup, List.pairwise_filterMap, List.pairwise_iff_getElem]
        rintro i j hi hj hij q hq q' hq' rfl
        have := (hone.slot n n i j q q hn hn ⟨l, _, hnode, List.getElem?_eq_getElem hi, hq⟩
          ⟨l, _, hnode, List.getElem?_eq_getElem hj, hq'⟩ rfl).2
        omega
    | internode m =>
        have hlive := TableNode.live hI hr hheld hn
        rw [← hnode, hI.successors_internode hlive hnode, List.Nodup, List.pairwise_filterMap,
          List.pairwise_iff_getElem]
        rintro i j hi hj hij q hq q' hq' rfl
        -- a child is linked only once
        have hq : m.children[i] = some q := hq
        have hcut : m.children = m.children.take i ++ some q :: m.children.drop (i + 1) := by
          rw [← hq, List.cons_getElem_drop_succ, List.take_append_drop]
        refine ((hI.tree.link hlive hnode).child_notMem hcut).2 ?_
        rw [List.mem_drop_iff_getElem]
        exact ⟨j - (i + 1), by omega, by simpa [show i + 1 + (j - (i + 1)) = j by omega] using hq'⟩
  · rw [hreach] at hn
    cases hnode : h.node n with
    | leaf l =>
        obtain ⟨i, hq⟩ := (mem_successors_leaf hnode).mp h0
        exact hone.root n i t₀ hn hq (by rw [hslots n i t₀ hn hq, ht₀])
    | internode m =>
        have hlive := TableNode.live hI hr hheld hn
        exact (LayerRoot.root ht₀).not_child hI hr hheld hlive hnode
          ((hI.mem_successors_internode hlive hnode).mp h0)
  · rw [hreach] at hn hd
    have hn' := TableNode.live hI hr hheld hn
    have hd' := TableNode.live hI hr hheld hd
    cases hnode : h.node n with
    | leaf l =>
        obtain ⟨i, hq⟩ := (mem_successors_leaf hnode).mp h1
        cases hdode : h.node d with
        | leaf l' =>
            obtain ⟨j, hq'⟩ := (mem_successors_leaf hdode).mp h2
            exact (hone.slot n d i j m m hn hd hq hq' rfl).1
        | internode m' =>
            exact absurd ((hI.mem_successors_internode hd' hdode).mp h2)
              ((hroot hn hq).not_child hI hr hheld hd' hdode)
    | internode m' =>
        have hc := (hI.mem_successors_internode hn' hnode).mp h1
        cases hdode : h.node d with
        | leaf l' =>
            obtain ⟨j, hq'⟩ := (mem_successors_leaf hdode).mp h2
            exact absurd hc ((hroot hd hq').not_child hI hr hheld hn' hnode)
        | internode m'' =>
            have hp := (hI.tree.child_live hn' hnode hc).2.1
            rw [(hI.tree.child_live hd' hdode ((hI.mem_successors_internode hd' hdode).mp h2)).2.1]
              at hp
            exact (Option.some.inj hp).symm

end

/-! ## What is visited -/

section

variable {β : Type} [Inhabited β] {layer : β → Option Ptr} {h : Heap β} {G : Ghost} {P : NodeParams}
  {R : Slot β → Slot β → Prop} {r : Ptr}

lemma SlotPointer.unique {a i q q' : ℕ} (hq : SlotPointer layer h a i q)
    (hq' : SlotPointer layer h a i q') : q = q' := by
  obtain ⟨l, s, h1, h2, h3⟩ := hq
  obtain ⟨l', s', h4, h5, h6⟩ := hq'
  obtain rfl : l = l' := by simpa [h1] using h4
  obtain rfl : s = s' := Option.some.inj (h2.symm.trans h5)
  exact Option.some.inj (h3.symm.trans h6)

/-- **The traversal takes every node of every layer once exactly if the slots keep roots.** -/
theorem HeapInv.visitsAll_iff (hI : HeapInv P R h G) (hr : Held h G r)
    (hheld : ∀ a i q, G.live a → TableNode layer h r a → SlotPointer layer h a i q → Held h G q)
    (hone : OneSlotEach layer h r) : VisitsAll layer h r ↔ SlotsAtRoots layer h r := by
  set t₀ := G.top (G.fam r) with ht₀_def
  have ht₀ : climbToRoot h (h.size + 1) r = some t₀ := hr.climb hI
  have hdestroy : ∀ fuel, destroy layer h r fuel = Worklist.traverse
      (fun a => (h.node a).successors layer) fuel ⟨fun a => (h.node a).parent, some t₀,
        some t₀⟩ [] := by
    intro fuel
    rw [destroy, ht₀, Option.bind_some]
  constructor
  · rintro ⟨fuel, vs, hvs, -, hmem⟩ a i q ha hq
    rw [hdestroy] at hvs
    have hentered := Worklist.traverse_entered hvs
    -- the root of the layer of `q` is visited, so it has been put in
    have hqr := hheld a i q (TableNode.live hI hr hheld ha) ha hq
    obtain ⟨t, ht, hta⟩ := id ha
    have hroot : LayerRoot layer h r (G.top (G.fam q)) := .slot ht hta hq (hqr.climb hI)
    rw [hqr.climb hI]
    rcases hentered _ ((hmem _).mpr ⟨_, hroot, .refl⟩) with h0 | ⟨d, hd, hstep⟩
    · exact absurd (by rw [hqr.climb hI, ht₀, h0]) (hone.root a i q ha hq)
    · have hd := (hmem d).mp hd
      have hlive := TableNode.live hI hr hheld hd
      cases hnode : h.node d with
      | internode m =>
          exact absurd ((hI.mem_successors_internode hlive hnode).mp hstep)
            (hroot.not_child hI hr hheld hlive hnode)
      | leaf l =>
          obtain ⟨j, hj⟩ := (mem_successors_leaf hnode).mp hstep
          have hclimb := (hheld d j _ hlive hd hj).climb hI
          rw [← (hroot.top hI hr hheld).2] at hclimb
          obtain ⟨rfl, rfl⟩ := hone.slot a d i j q _ ha hd hq hj (by rw [hqr.climb hI, hclimb])
          exact congrArg some (hj.unique hq)
  · intro hslots
    have hreach := fun {c} => reach_successors hI hr hheld ht₀ hslots (c := c)
    -- there are no more nodes than have been allocated
    have hfinite : ∀ c, Worklist.Reach (fun a => (h.node a).successors layer) t₀ c →
        c ∈ Finset.range h.size := fun c hc =>
      Finset.mem_range.mpr (hI.tree.live_lt (TableNode.live hI hr hheld (hreach.mp hc)))
    obtain ⟨vs, h1, h2, h3⟩ := (hone.tree hI hr hheld ht₀ hslots).traverse_root hfinite
      fun a => (h.node a).parent
    exact ⟨_, vs, (hdestroy _).trans h1, h2, fun c => (h3 c).trans hreach⟩

end

/-! ## Tables and namespaces -/

/-- A state of a table; the pointers of the forest are those that `root_` and the slots hold. -/
structure TableState {β : Type} [Inhabited β] (P : NodeParams) (layer : β → Option Ptr) where
  forest : Forest β
  root : Ptr
  reachable : forest.Reachable P
  root_mem : root ∈ forest.roots
  slots_mem : ∀ a i q, TableNode layer forest.heap root a → SlotPointer layer forest.heap a i q →
    q ∈ forest.roots

/-- `is_layer` and `layer()` of a slot of a namespace. -/
def Cell.layerPointer (c : Cell) : Option Ptr := if c.isLayer then c.lv.layer? else none

lemma Content.layerPointer_encode {c : Content} {q : Ptr} (h : c.encode.layerPointer = some q) :
    c = .directory q := by
  cases c with
  | directory g => exact congrArg Content.directory (Option.some.inj h)
  | value v => cases h

/-- The pointers in the slots of a namespace. -/
lemma Anchored.held_slot {h : Heap Cell} {G : Ghost} (hA : Anchored h G) {a i q : ℕ} (ha : G.live a)
    (hq : SlotPointer Cell.layerPointer h a i q) : Held h G q := by
  obtain ⟨l, sl, hl, hsl, hlayer⟩ := hq
  obtain ⟨c, hc, hg⟩ := hA.slots (G.fam a) sl
    ⟨a, { l with parent := none }, ha, rfl, by rw [hl]; rfl, List.mem_of_getElem? hsl⟩
  rw [hc] at hlayer
  exact hg q (Content.layerPointer_encode hlayer)

/-- The states in which `destroy` is called: those of a table, and those of a namespace after any
calls. -/
inductive BeforeDestroy : ∀ {β : Type} [Inhabited β], (β → Option Ptr) → Heap β → Ptr → Prop
  | table {β : Type} [Inhabited β] {P : NodeParams} {layer : β →
      Option Ptr} (t : TableState P layer) :
      BeforeDestroy layer t.forest.heap t.root
  | lhmNamespace {hash : Bytes → UInt64} {calls : List PathCall} {s : LhmNamespace}
      (hs : PathCall.performAll hash LhmNamespace.initialState calls = some s) :
      BeforeDestroy Cell.layerPointer s.heap s.root

/-- **`destroy` frees every node of every layer once exactly if the slots keep the roots of their
layers**, in every state of a table or of a namespace in which each layer has one slot. -/
theorem destroy_visits_all {β : Type} [Inhabited β] {layer : β → Option Ptr} {h : Heap β} {r : Ptr}
    (hs : BeforeDestroy layer h r) (hone : OneSlotEach layer h r) :
    VisitsAll layer h r ↔ SlotsAtRoots layer h r := by
  induction hs with
  | table t =>
      obtain ⟨G, hI, hroots⟩ := t.reachable.ok
      exact hI.visitsAll_iff (hroots _ t.root_mem)
        (fun a i q _ ha hq => hroots q (t.slots_mem a i q ha hq)) hone
  | lhmNamespace hs =>
      obtain ⟨G, hA, hr⟩ := LhmNamespace.initialState_pointersHeld.performAll _ hs
      exact hA.heap.visitsAll_iff hr (fun a i q ha _ hq => hA.held_slot ha hq) hone

/-! ## States with one slot pointer -/

/-- The slots that keep layer pointers, dead nodes included. -/
def Heap.slotPointers {β : Type} [Inhabited β] (h : Heap β) (layer : β → Option Ptr) :
    List (Ptr × ℕ × Ptr) :=
  (List.range h.size).flatMap fun a => (h.leaf a).entries.zipIdx.filterMap fun s =>
    (layer s.1.body).map fun q => (a, s.2, q)

section

variable {β : Type} [Inhabited β] {layer : β → Option Ptr} {h : Heap β} {r : Ptr}

lemma mem_slotPointers {a i q : ℕ} :
    (a, i, q) ∈ h.slotPointers layer ↔ a < h.size ∧ SlotPointer layer h a i q := by
  simp only [Heap.slotPointers, List.mem_flatMap, List.mem_range, List.mem_filterMap, Prod.exists,
    List.mk_mem_zipIdx_iff_getElem?, Option.map_eq_some_iff, Prod.mk.injEq, SlotPointer]
  constructor
  · rintro ⟨b, hb, s, j, hs, p, hp, rfl, rfl, rfl⟩
    refine ⟨hb, h.leaf b, s, ?_, hs, hp⟩
    cases hn : h.node b with
    | leaf l => rw [Heap.leaf, hn]; rfl
    | internode m =>
        have hnil : (h.leaf b).entries = [] := by rw [Heap.leaf, hn]; rfl
        rw [hnil] at hs
        cases hs
  · rintro ⟨hb, l, s, hl, hs, hp⟩
    have hleaf : h.leaf a = l := by rw [Heap.leaf, hl]; rfl
    exact ⟨a, hb, s, i, by rw [hleaf]; exact hs, q, hp, rfl, rfl, rfl⟩

/-- A single slot pointer, to a layer that is not that of the root. -/
lemma oneSlotEach_of_single (hlt : ∀ c, TableNode layer h r c → c < h.size) {b j p : ℕ}
    (hs : h.slotPointers layer = [(b, j, p)])
    (hne : climbToRoot h (h.size + 1) p ≠ climbToRoot h (h.size + 1) r) :
    OneSlotEach layer h r := by
  have honly : ∀ a i q, TableNode layer h r a → SlotPointer layer h a i q →
    a = b ∧ i = j ∧ q = p := by
    intro a i q ha hq
    have hmem := mem_slotPointers.mpr ⟨hlt a ha, hq⟩
    rw [hs] at hmem
    simpa using hmem
  constructor
  · intro a i q ha hq
    obtain ⟨-, -, rfl⟩ := honly a i q ha hq
    exact hne
  · intro a c i k q q' ha hc hq hq' _
    obtain ⟨rfl, rfl, -⟩ := honly a i q ha hq
    obtain ⟨rfl, rfl, -⟩ := honly c k q' hc hq'
    exact ⟨rfl, rfl⟩

end

lemma LhmNamespace.PointersHeld.tableNode_lt {s : LhmNamespace} (h : s.PointersHeld) {c : Ptr}
    (hc : TableNode Cell.layerPointer s.heap s.root c) : c < s.heap.size := by
  obtain ⟨G, hA, hr⟩ := h
  exact hA.heap.tree.live_lt (hc.live hA.heap hr fun a i q ha _ hq => hA.held_slot ha hq)

/-- The directory `/d`, and files in it. -/
def filesInDirectory (names : List UInt8) : List PathCall :=
  .basic (.mkdir [47, 100] ⟨0, 1⟩) :: names.map fun c => .basic (.creatFile [47, 100, 47, c] ⟨0, 2⟩)

/-- A file in a directory; and a table with a slot to its second layer. -/
theorem destroy_visits_all_oneFile :
    (∃ t : TableState namespaceTableParams (some : ℕ → Option Ptr), t.root = 0 ∧
      t.forest.heap.slotPointers some = [(0, 0, 1)] ∧
      (VisitsAll some t.forest.heap t.root ↔ SlotsAtRoots some t.forest.heap t.root)) ∧
    ∃ s, PathCall.performAll hashComponent LhmNamespace.initialState (filesInDirectory [97]) =
      some s ∧
      VisitsAll Cell.layerPointer s.heap s.root := by
  constructor
  · have hrun : ((Forest.putAll namespaceTableParams 0 (Forest.empty.allocLeaves
        [Leaf.makeRoot namespaceTableParams none, Leaf.makeRoot namespaceTableParams none]) [1]).map
        fun s =>
          (s.roots, s.heap.slotPointers some, climbToRoot s.heap (s.heap.size + 1) 0,
            climbToRoot s.heap (s.heap.size + 1) 1))
        = some ([1, 0], [(0, 0, 1)], some 0, some 1) := by rfl
    obtain ⟨F, hF, heq⟩ := Option.map_eq_some_iff.mp hrun
    simp only [Prod.mk.injEq] at heq
    obtain ⟨hroots, hslots, h0, h1⟩ := heq
    have hreach : F.Reachable namespaceTableParams :=
      Forest.reachable_putAll
        (.tail .refl (.alloc Forest.empty _ (by simpa using Leaf.Fresh.makeRoot none))) hF
    -- the only slot pointer is that to node 1
    have hq1 : ∀ {a i q}, a < F.heap.size → SlotPointer some F.heap a i q → q = 1 := by
      intro a i q ha hq
      have hmem := mem_slotPointers.mpr ⟨ha, hq⟩
      rw [hslots] at hmem
      obtain ⟨-, -, rfl⟩ : a = 0 ∧ i = 0 ∧ q = 1 := by simpa using hmem
      rfl
    obtain ⟨G, hI, hheld⟩ := hreach.ok
    have hlt : ∀ c, TableNode some F.heap 0 c → c < F.heap.size := fun c hc =>
      hI.tree.live_lt (hc.live hI (hheld 0 (by simp [hroots])) fun a i q ha _ hq =>
        hheld q (by simp [hroots, hq1 (hI.tree.live_lt ha) hq]))
    refine ⟨⟨F, 0, hreach, by simp [hroots],
      fun a i q ha hq => by simp [hroots, hq1 (hlt a ha) hq]⟩, rfl, hslots, ?_⟩
    exact destroy_visits_all (.table _) (oneSlotEach_of_single hlt hslots (by simp [h0, h1]))
  · have hrun :
      ((PathCall.performAll hashComponent LhmNamespace.initialState (filesInDirectory [97])).map
        fun s =>
          (s.root, s.heap.slotPointers Cell.layerPointer, climbToRoot s.heap (s.heap.size + 1) 0,
            climbToRoot s.heap (s.heap.size + 1) 1)) =
            some (0, [(0, 0, 1)], some 0, some 1) := by rfl
    obtain ⟨s, hs, heq⟩ := Option.map_eq_some_iff.mp hrun
    simp only [Prod.mk.injEq] at heq
    obtain ⟨hroot, hslots, h0, h1⟩ := heq
    have hP := LhmNamespace.initialState_pointersHeld.performAll _ hs
    have hlt := fun c => hP.tableNode_lt (c := c)
    refine ⟨s, hs,
      (destroy_visits_all (.lhmNamespace hs) (oneSlotEach_of_single hlt hslots ?_)).mpr ?_⟩
    · rw [hroot, h0, h1]
      simp
    · intro a i q ha hq
      have hmem := mem_slotPointers.mpr ⟨hlt a ha, hq⟩
      rw [hslots] at hmem
      obtain ⟨-, -, rfl⟩ : a = 0 ∧ i = 0 ∧ q = 1 := by simpa using hmem
      exact h1

/-- With an eighth file the leaf of the directory splits, and the slot keeps the left half: the
right half and the new root are never visited. -/
theorem not_destroy_visits_all_eightFiles :
    ∃ s, PathCall.performAll hashComponent LhmNamespace.initialState
        (filesInDirectory [97, 98, 99, 101, 102, 103, 104, 105]) = some s ∧
      BeforeDestroy Cell.layerPointer s.heap s.root ∧
      OneSlotEach Cell.layerPointer s.heap s.root ∧
      ¬ VisitsAll Cell.layerPointer s.heap s.root := by
  have hrun : ((PathCall.performAll hashComponent LhmNamespace.initialState
      (filesInDirectory [97, 98, 99, 101, 102, 103, 104, 105])).map fun s =>
        (s.root, s.heap.slotPointers Cell.layerPointer, climbToRoot s.heap (s.heap.size + 1) 0,
          climbToRoot s.heap (s.heap.size + 1) 1)) = some (0, [(0, 0, 1)], some 0, some 3) := by rfl
  obtain ⟨s, hs, heq⟩ := Option.map_eq_some_iff.mp hrun
  simp only [Prod.mk.injEq] at heq
  obtain ⟨hroot, hslots, h0, h1⟩ := heq
  have hP := LhmNamespace.initialState_pointersHeld.performAll _ hs
  have hone : OneSlotEach Cell.layerPointer s.heap s.root := by
    refine oneSlotEach_of_single (fun c => hP.tableNode_lt) hslots ?_
    rw [hroot, h0, h1]
    simp
  obtain ⟨G, hA, hr⟩ := hP
  refine ⟨s, hs, .lhmNamespace hs, hone, fun hall => ?_⟩
  have hat := (hA.heap.visitsAll_iff hr (fun a i q ha _ hq => hA.held_slot ha hq) hone).mp hall
  have hq : SlotPointer Cell.layerPointer s.heap 0 0 1 := (mem_slotPointers.mp (by simp [hslots])).2
  have htop := hat 0 0 1 ⟨0, .root (by rw [hroot, h0]), .refl⟩ hq
  rw [h1] at htop
  cases htop

end MasstreeLHM
