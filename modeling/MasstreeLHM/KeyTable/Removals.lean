import MasstreeLHM.KeyTable.Insertions
import MasstreeLHM.Layers.OtherLayers

/-!
# Removing whole keys, and collecting layers

`finish_remove` takes a slot out of its layer.  A `gc_layer` callback that runs later finds the slot
of the emptied layer, or something else by then; it tidies the layer, and no lookup can tell.

A removal is one emptied cell (**`Pending.remove`**), and perhaps a callback more.  `Ok.remove` and
`Ok.read` are the calls that end with `finish(-1)` and `finish(0)` on a key that may be there.

**`Stands.gcRoot`** is `gc_layer` on the nodes of a layer.  Behind it the slot above waits to be
overwritten with the new root or to be removed with an empty layer; until then the trie has a cell
in doubt, which is `Pending`.  `Ok.gcSlot` ends that, and **`Ok.gcLayer`** is the callback as a
whole, whatever has happened to the table since it was registered.
-/

namespace MasstreeLHM.KeyTable

open Trie

variable {V : Type} [Inhabited V] {P : NodeParams} {s : Layers V} {G G' : Ghost}
  {M : LayerMap Bytes (ℕ × ℕ) V Ptr}
  {k ka : Bytes} {f n r R : Ptr} {l : Leaf (Cell V)} {p i : ℕ}

/-! ## Taking a slot out -/

/-- **`finish_remove`** empties a cell. -/
lemma Pending.remove (hS : Pending P s G M (G.fam n) (cellOf (l.slot p))) (hn : G.live n)
    (hl : s.heap.node n = .leaf l) (hi : l.permutation.live[i]? = some p) :
    ∃ h G', MasstreeLHM.finishRemove s.heap n i = some h ∧ Frame s.heap G h G' ∧
      Stands P ⟨h, s.stores, s.roots⟩ G' (set M (G.fam n) (cellOf (l.slot p)) none) := by
  have hok := hS.ok.heap.leaves n { l with parent := none } hn (by rw [hl]; rfl)
  have hw : l.permutation.WF P.leafWidth := hok.perm
  have hent : l.entries[i]? = some (l.slot p) := by rw [Leaf.entries, List.getElem?_map, hi]; rfl
  have hsize : i < l.size := by
    have := (List.getElem?_eq_some_iff.mp hi).1
    rwa [hw.length_live] at this
  have hirr : ∀ t : Slot (Cell V), ¬ keyLt t t := fun t ht => by
    rw [keyLt] at ht
    omega
  obtain ⟨h, G', e1, e2, e3, e4⟩ := finishRemove_spec hirr hS.ok.heap hn hl hent
  obtain ⟨G₁, e5⟩ := hS.ok.finishRemove hn hl hsize e1
  -- the removed slot is the only one of its cell
  have hE : ∀ g t, Entry h G' g t ↔
    Entry s.heap G g t ∧ ¬ (g = G.fam n ∧ cellOf t = cellOf (l.slot p)) := by
    intro g t
    rw [e4]
    refine and_congr_right fun ht => not_congr (and_congr_right fun hg => ?_)
    subst hg
    exact ⟨fun h0 => h0 ▸ rfl,
      entry_unique hS.ok.heap ht (entry_of_mem hn hl (List.mem_of_getElem? hent))⟩
  have hstay : StayHeld s.heap G h G' := .of_frame e3
  refine ⟨h, G', e1, e3,
    ⟨⟨e2, fun r hr => (hstay r (hS.ok.held r hr)).1, e5.stores, e5.fits, e5.noMeta⟩, ?_, ?_⟩⟩
  · have hD := hS.denotes.remove hE
    refine hD.congr (fun _ _ => Iff.rfl) fun g t ht => itemOf_stay ?_ hstay
    exact hS.sound g t ((hE g t).mp ht).1 ((hE g t).mp ht).2
  · intro g t ht
    exact (hS.sound g t ((hE g t).mp ht).1 ((hE g t).mp ht).2).frame e3

namespace StringTable

variable {t : StringTable V}

/-- **`finish_remove`**, and perhaps a callback. -/
lemma finishRemove_spec (hS : Pending P t.layers G M (G.fam n) (cellOf (l.slot p)))
    (hT : IsTree M R) (hSp : Spelled M R) (hroot : G.fam t.root = R)
    (hcb : ∀ x ∈ t.callbacks, Held t.heap G x.1 ∧ G.fam x.1 = R) (hn : G.live n)
    (hl : t.heap.node n = .leaf l) (hi : l.permutation.live[i]? = some p) {root : Ptr}
    (hr : Held t.heap G root) (hrf : G.fam root = R) (shifted : Bytes) :
    ∃ t' G', t.finishRemove root n i shifted = some t' ∧
      t'.Ok P G' (set M (G.fam n) (cellOf (l.slot p)) none) R := by
  obtain ⟨h, G', h1, h2, h3⟩ := hS.remove hn hl hi
  have h1' : MasstreeLHM.finishRemove t.heap n i = some h := h1
  have hstay : StayHeld t.heap G h G' := .of_frame h2
  have hheld : Held t.heap G t.root := hS.ok.held t.root (List.mem_singleton.mpr rfl)
  rw [StringTable.finishRemove, h1']
  refine ⟨_, G', rfl, h3, (hstay _ hheld).2.trans hroot, hT.set (by simp),
    hSp.set_none, fun x hx => ?_⟩
  rcases List.mem_append.mp hx with hx | hx
  · split_ifs at hx
    · rw [List.mem_singleton.mp hx]
      exact ⟨(hstay root hr).1, (hstay root hr).2.trans hrf⟩
    · cases hx
  · exact ⟨(hstay x.1 (hcb x hx).1).1, (hstay x.1 (hcb x hx).1).2.trans (hcb x hx).2⟩

/-- **Removing a key.** -/
lemma Ok.remove (hT : t.Ok P G M R) (k : Bytes) :
    ∃ t' G' M', t.remove k = some (Trie.get byteCut M R k, t') ∧ t'.Ok P G' M' R ∧
      Trie.get byteCut M' R = Function.update (Trie.get byteCut M R) k none := by
  obtain ⟨t₁, c, f, l, h1, h2, h3, -⟩ := hT.fixRoot.find hT.fixRoot.held hT.fixRoot.root k
  rw [StringTable.remove]
  simp only [h1, Option.bind_eq_bind, Option.bind_some]
  rcases h3.cases with ⟨hp, hg, -⟩ | ⟨p, v, hp, hc, hf⟩ | ⟨p, v, hp, hc, hg, -⟩
  · simp only [hp]
    exact ⟨t₁, G, M, by rw [hg]; rfl, h2, by rw [← hg, Function.update_eq_self]⟩
  · have hv : valueAt t₁.heap c.stop.n p = some v := hf.valueAt_eq
    obtain ⟨t₂, G', e1, e2⟩ :=
      finishRemove_spec (h2.stands.pending ..) h2.tree h2.spelled h2.root h2.callbacks hf.live
      hf.leaf (h3.stop.hit p hp).1 h2.held h2.root c.shifted
    simp only [hp, hc, if_true, hv, Option.bind_some, e1]
    rw [hf.cell] at e2
    exact ⟨t₂, G', _, by rw [hf.get_eq]; rfl, e2,
      get_set hT.tree hf.leads none (Or.inr ⟨v, hf.item⟩)⟩
  · simp only [hp, hc, show ¬ (0 : ℤ) = 1 by decide, if_false]
    exact ⟨t₁, G, M, by rw [hg]; rfl, h2, by rw [← hg, Function.update_eq_self]⟩

/-- **Reading under the lock.** -/
lemma Ok.read (hT : t.Ok P G M R) (k : Bytes) :
    ∃ t', t.read k = some (Trie.get byteCut M R k, t') ∧ t'.Ok P G M R := by
  obtain ⟨t₁, c, f, l, h1, h2, h3, -⟩ := hT.fixRoot.find hT.fixRoot.held hT.fixRoot.root k
  rw [StringTable.read]
  simp only [h1, Option.bind_eq_bind, Option.bind_some]
  rcases h3.cases with ⟨hp, hg, -⟩ | ⟨p, v, hp, hc, hf⟩ | ⟨p, v, hp, hc, hg, -⟩
  · simp only [hp]
    exact ⟨t₁, by rw [hg]; rfl, h2⟩
  · have hv : valueAt t₁.heap c.stop.n p = some v := hf.valueAt_eq
    simp only [hp, hc, if_true, hv, Option.bind_some]
    exact ⟨t₁, by rw [hf.get_eq]; rfl, h2⟩
  · simp only [hp, hc, show ¬ (0 : ℤ) = 1 by decide, if_false]
    exact ⟨t₁, by rw [hg]; rfl, h2⟩

end StringTable

/-! ## Collecting a layer -/

lemma copies_slots : Copies P keyLt fun _ (l : Leaf (Cell V)) => l.slots :=
  fun _ _ _ _ h2 h3 => ⟨h2, h3, rfl⟩

/-- The slots of all layers, after one of them has been tidied. -/
lemma entry_collapsed {h h' : Heap (Cell V)} {new : Ptr → Prop}
    (hC : Collapsed P keyLt h G f h' G' new) (hsize : h'.size = h.size)
    (hlt : ∀ g u, Entry h G g u → g < h.size) (hf : ∀ u, Entry h' G' f u ↔ Entry h G f u) (g : Ptr)
    (u : Slot (Cell V)) : Entry h' G' g u ↔ Entry h G g u := by
  by_cases hg : g = f
  · rw [hg]
    exact hf u
  · by_cases hgs : g < h.size
    · exact hC.entry hg hgs u
    · refine ⟨fun hu => ?_, fun hu => absurd (hlt g u hu) hgs⟩
      obtain ⟨b, lb, h1, h2, -, -⟩ := hu
      have hb := (hC.heap.tree.fam_spec (hC.heap.tree.known h1)).1
      rw [h2] at hb
      exact absurd (hsize ▸ hC.heap.tree.live_lt hb) hgs

/-- **`gc_layer` on the nodes of a layer**: the slot of the layer waits to be overwritten or
removed. -/
lemma Stands.gcRoot (hS : Stands P s G M) (hT : IsTree M R) (hn : G.live n)
    (hl : s.heap.node n = .leaf l) (hp : p ∈ l.permutation.live) {a : Ptr}
    (ha : (l.slot p).body.lv = .layer a) (hh : Held s.heap G a) (hna : G.fam n ≠ G.fam a)
    (hroots : ∀ r ∈ s.roots, G.fam r ≠ G.fam a) :
    ∃ g G', MasstreeLHM.gcRoot (fun _ l => l.slots) (2 * s.heap.size + 2) s.heap a = some g ∧
      Pending P ⟨g.heap, s.stores, s.roots⟩ G' M (G.fam n) (cellOf (l.slot p)) ∧
      (G'.live n ∧ G'.fam n = G.fam n ∧ g.heap.node n = .leaf l) ∧
      (∀ r, Held s.heap G r → G.fam r ≠ G.fam a → Held g.heap G' r ∧ G'.fam r = G.fam r) ∧
      (g.remove = false → Held g.heap G' g.layer ∧ G'.fam g.layer = G.fam a) ∧
      (g.remove = true → ∀ d, M (G.fam a) d = none) := by
  have hI := hS.ok.heap
  have hno := hS.ok.noMeta rfl
  obtain ⟨g, G', hg, hcase⟩ := gcRoot_spec copies_slots hI hh.known (hh.startable hI)
  obtain ⟨hsize, hsame⟩ := hI.gcRoot_other hno hh.known (hh.startable hI) hg
  obtain ⟨hcont, hcl⟩ := (ContentsFrom.refl s.heap).gcRoot _ hno _ hg
  have hns := hI.tree.live_lt hn
  have hent : Entry s.heap G (G.fam n) (l.slot p) := entry_of_mem hn hl (List.mem_map_of_mem hp)
  have hM : M (G.fam n) (cellOf (l.slot p)) = some (.layer (G.fam a)) := by
    rw [hS.denotes.item hent, itemOf, ha]
  -- what both answers have in common
  have hmain : ∀ new : Ptr → Prop, Collapsed P keyLt s.heap G (G.fam a) g.heap G' new →
      (∀ u, Entry g.heap G' (G.fam a) u ↔ Entry s.heap G (G.fam a) u) →
      Pending P ⟨g.heap, s.stores, s.roots⟩ G' M (G.fam n) (cellOf (l.slot p)) ∧
        (G'.live n ∧ G'.fam n = G.fam n ∧ g.heap.node n = .leaf l) ∧
        ∀ r, Held s.heap G r → G.fam r ≠ G.fam a → Held g.heap G' r ∧ G'.fam r = G.fam r := by
    intro new hC hitems
    have hE := entry_collapsed hC hsize (fun _ _ => hS.entry_lt) hitems
    have hheld : ∀ r, Held s.heap G r → G.fam r ≠ G.fam a → Held g.heap G' r ∧ G'.fam r = G.fam r :=
      fun r hr hne => ⟨hr.collapsed hC hne, hC.fam r hr.known.1⟩
    have hok : (⟨g.heap, s.stores, s.roots⟩ : Layers V).Ok .strings P G' :=
      ⟨hC.heap, fun r hr => (hheld r (hS.ok.held r hr) (hroots r hr)).1, hS.ok.stores,
        hS.ok.fits.contents hcont,
        fun _ => hcont.noMetadata hno⟩
    refine ⟨⟨hok, hS.denotes.congr hE fun φ u hu => ?_, fun φ u hu hne => ?_⟩,
      ⟨hC.live_leaf hI hsize hsame hn (by rw [hl]; rfl) hna, hC.fam n hns,
        (hsame n hns hna).trans hl⟩, hheld⟩
    · rcases hS.sound φ u hu with ⟨-, v, h2⟩ | ⟨-, m, h2, h3⟩
      · rw [itemOf, itemOf, h2]
      · rw [itemOf, itemOf, h2]
        exact congrArg Item.layer (hC.fam m h3.known.1)
    · have hu' := (hE φ u).mp hu
      refine (hS.sound φ u hu').imp id ?_
      rintro ⟨h1, m, h2, h3⟩
      refine ⟨h1, m, h2, (hheld m h3 fun h0 => hne ?_).1⟩
      -- another slot leads to another layer
      have hMu := hS.denotes.item hu'
      rw [itemOf, h2] at hMu
      exact hT.inj (h0 ▸ hMu) hM
  rcases hcase with hK | hD
  · rcases hK.items with ⟨-, hfam, hitems⟩ | ⟨c, _, _, h1, -⟩
    · obtain ⟨h1, h2, h3⟩ := hmain _ hK.collapsed hitems
      exact ⟨g, G', hg, h1, h2, h3, fun _ => ⟨.of_top hK.collapsed.heap hK.live hK.top, hfam⟩,
        fun h0 => absurd (hK.remove.symm.trans h0) (by simp)⟩
    · rw [hcl] at h1
      cases h1
  · have hitems : ∀ u, Entry g.heap G' (G.fam a) u ↔ Entry s.heap G (G.fam a) u := by
      refine fun u => ⟨fun hu => ?_, fun hu => absurd hu (hD.empty u)⟩
      obtain ⟨b, lb, h1, h2, -, -⟩ := hu
      rcases hD.collapsed.new_fam (hD.collapsed.heap.tree.known h1) with h3 | ⟨d, -, h3, h4⟩
      · exact h3.elim
      · exact absurd (h4.symm.trans h2) h3
    obtain ⟨h1, h2, h3⟩ := hmain _ hD.collapsed hitems
    exact ⟨g, G', hg, h1, h2, h3, fun h0 => absurd (hD.remove.symm.trans h0) (by simp),
      fun _ d => hS.denotes.eq_none fun u hu => absurd hu (hD.empty u)⟩

namespace StringTable.Ok

variable {t : StringTable V}

/-- **`gc_layer`** overwrites the slot of the layer, or removes it with an empty layer. -/
lemma gcSlot (hT : t.Ok P G M R) (hn : G.live n) (hl : t.heap.node n = .leaf l)
    (hi : l.permutation.live[i]? = some p) (hlay : isLayer (l.slot p) = true) {k' : Bytes}
    (hlead : Leads byteCut M R k (G.fam n) k') {root : Ptr} (hr : Held t.heap G root)
    (hrf : G.fam root = R) (c : KeyCursor) :
    ∃ t' G' M', t.gcSlot root n i c = some t' ∧ t'.Ok P G' M' R ∧
    Trie.get byteCut M' R = Trie.get byteCut M R := by
  have hp : p ∈ l.permutation.live := List.mem_of_getElem? hi
  have hw : l.permutation.WF P.leafWidth :=
    (hT.stands.ok.heap.leaves n { l with parent := none } hn (by
      rw [show t.layers.heap.node n = .leaf l from hl]
      rfl)).perm
  have hsize : i < l.size := by
    have := (List.getElem?_eq_some_iff.mp hi).1
    rwa [hw.length_live] at this
  have hget : l.permutation.get i = p := Option.some.inj ((hw.get_eq_live hsize).symm.trans hi)
  have hleaf : t.heap.leaf n = l := Stands.heap_leaf (s := t.layers) hl
  have hent : Entry t.heap G (G.fam n) (l.slot p) := entry_of_mem hn hl (List.mem_map_of_mem hp)
  obtain ⟨-, a, ha, hh⟩ := (hT.stands.sound _ _ hent).resolve_left fun h0 => by simp [hlay] at h0
  have hM : M (G.fam n) (cellOf (l.slot p)) = some (.layer (G.fam a)) := by
    have := hT.stands.denotes.item hent
    rwa [itemOf, ha] at this
  have hna : G.fam n ≠ G.fam a := (hT.tree.ne_of_leads hlead hM).symm
  have hRa : ∀ r, G.fam r = R → G.fam r ≠ G.fam a :=
    fun r hr h0 => hT.tree.root _ _ (by rw [hM, ← h0, hr])
  obtain ⟨g, G', h1, h2, ⟨h3, h4, h5⟩, h6, h7, h8⟩ :=
    hT.stands.gcRoot hT.tree hn hl hp ha hh hna fun r hr =>
    hRa r (List.mem_singleton.mp hr ▸ hT.root)
  have h1' : MasstreeLHM.gcRoot (fun _ l => l.slots) (2 * t.heap.size + 2) t.heap a = some g := h1
  have hheld : ∀ r, Held t.heap G r → G.fam r = R → Held g.heap G' r ∧ G'.fam r = R :=
    fun r hr hf =>
    ⟨(h6 r hr (hRa r hf)).1, (h6 r hr (hRa r hf)).2.trans hf⟩
  rw [StringTable.gcSlot]
  simp only [hget, hleaf, ha, h1', Option.bind_eq_bind, Option.bind_some]
  rw [← h4] at h2 hM
  cases hrem : g.remove with
  | true =>
      obtain ⟨t', G'', e1, e2⟩ :=
        finishRemove_spec (t := { t with heap := g.heap }) h2 hT.tree hT.spelled
        (hheld _ hT.held hT.root).2
        (fun x hx => hheld x.1 (hT.callbacks x hx).1 (hT.callbacks x hx).2) h3 h5 hi
          (hheld root hr hrf).1
        (hheld root hr hrf).2 c.shifted
      rw [if_pos rfl]
      exact ⟨t', G'', _, e1, e2, funext fun q => get_set_none_of_empty hM (h8 hrem) R q⟩
  | false =>
      obtain ⟨g1, g2⟩ := h7 hrem
      obtain ⟨e1, e2⟩ := h2.setLv h3 h5 hp (.layer g.layer) (Or.inr ⟨hlay, _, rfl, g1⟩)
      have hitem : M (G'.fam n) (cellOf (l.slot p))
          = some (itemOf G'.fam ⟨(l.slot p).ikey, { (l.slot p).body with lv := .layer g.layer }⟩) :=
        hM.trans (congrArg (fun q => some (Item.layer q)) g2.symm)
      rw [set_eq_self hitem] at e1
      rw [if_neg (by simp)]
      refine ⟨_, G', M, rfl,
        ⟨e1, (e2.fam _ (hheld _ hT.held hT.root).1.known.1).trans (hheld _ hT.held hT.root).2,
          hT.tree, hT.spelled, fun x hx => ?_⟩, rfl⟩
      obtain ⟨e3, e4⟩ := hheld x.1 (hT.callbacks x hx).1 (hT.callbacks x hx).2
      exact ⟨e3.frame e2, e4⟩

/-- **A `gc_layer` callback**, whenever it runs. -/
lemma gcLayer (hT : t.Ok P G M R) {root : Ptr} (hr : Held t.heap G root)
    (hrf : G.fam root = R) (key : Bytes) :
    ∃ t' G' M', t.gcLayer root key = some t' ∧ t'.Ok P G' M' R ∧
    Trie.get byteCut M' R = Trie.get byteCut M R := by
  have hI := hT.stands.ok.heap
  obtain ⟨htop, -, hfam, -⟩ := hI.tree.top_spec hr.known
  have hheld : Held t.heap G (G.top (G.fam root)) := .of_top hI htop (by rw [hfam])
  have hclimb : climbToRoot t.heap (t.heap.size + 1) root = some (G.top (G.fam root)) :=
    hI.tree.climbToRoot_eq _ hr.known (hr.startable hI) (by
      have : t.layers.heap.size = t.heap.size := rfl
      omega)
  obtain ⟨t₁, c, f, l, h1, h2, h3, h4⟩ := hT.find hheld (hfam.trans hrf) key
  have hleaf : t₁.heap.leaf c.stop.n = l := Stands.heap_leaf (s := t₁.layers) h3.stop.leaf
  rw [StringTable.gcLayer]
  simp only [hclimb, h1, hleaf, Option.bind_eq_bind, Option.bind_some]
  -- the position does not matter, as long as a layer is found there
  generalize c.stop.i + (if c.stop.p.isSome = true then 1 else 0) = i
  split_ifs with hdel hcond
  · exact ⟨t, G, M, rfl, hT, rfl⟩
  · exact ⟨t₁, G, M, rfl, h2, rfl⟩
  · simp only [not_or] at hcond
    obtain ⟨-, hi, -, hlay⟩ := hcond
    have hw : l.permutation.WF P.leafWidth :=
      (h2.stands.ok.heap.leaves c.stop.n { l with parent := none } h3.stop.live
        (by rw [h3.stop.leaf]; rfl)).perm
    exact h2.gcSlot h3.stop.live h3.stop.leaf (hw.get_eq_live (not_le.mp hi))
      ((Bool.not_eq_false _).mp hlay)
      (h3.stop.fam ▸ h3.leads) (hheld.frame h4) (hfam.trans hrf) c

end StringTable.Ok

end MasstreeLHM.KeyTable
