import MasstreeLHM.Invariant
import MasstreeLHM.Namespace

/-!
# Reaching the leaf responsible for a slice

Every node that was ever part of a layer, retired ones included, leads to the current root of that
layer along parent pointers, because heights increase.  From the root, the separators lead to the
one live leaf of the layer that is responsible for the slice.

**`canonicalize_eq`** is the way up by parents alone, as the namespace goes it, and `climbToRoot_eq`
the one that stops at a root bit, which `reach_leaf` takes.  Both count on the heights of the nodes
for their fuel.

`descend_spec` is the way down, by induction on the height of the node: it ends at a live leaf whose
range contains the slice.  A descent that starts lower is the tail of the one from the root
(`descend_from_top`), so two leaves with the slice in their ranges are one (**`leaf_unique`**).
**`reachLeaf_spec`** puts both ways together: from any node that a cursor may start from, stale or
not, `reach_leaf` ends at the leaf responsible for the slice.
-/

namespace MasstreeLHM

open Separators

variable {β : Type} {h : Heap β} {G : Ghost} {X : Excused}

namespace TreeInv

/-! ## Upwards -/

/-- **Canonicalisation ends at the root of the layer**, from any node of it. -/
lemma canonicalize_eq (hT : TreeInv h G X) (hX : ∀ a, ¬ X.loose a) :
    ∀ (fuel : ℕ) {a : Ptr}, G.Known h a → h.size ≤ (h.node a).height + fuel →
      canonicalize h fuel a = some (G.top (G.fam a))
  | 0, a, ha, hf => absurd (hT.height_lt ha.1) (by omega)
  | fuel + 1, a, ha, hf => by
      rw [canonicalize]
      cases hp : (h.node a).parent with
      | none => exact congrArg some (hT.top_eq ha (hX a) hp)
      | some p =>
          obtain ⟨hps, hfam, hh, -⟩ := hT.up ha hp
          simp only
          rw [canonicalize_eq hT hX fuel hps (by omega), hfam]

lemma canonicalizeDirectoryRoot_eq (hT : TreeInv h G G.exact) {a : Ptr} (ha : G.Known h a) :
    canonicalizeDirectoryRoot h a = some (G.top (G.fam a)) :=
  hT.canonicalize_eq (fun _ => id) _ ha (by omega)

/-- The root bit is found on the way up from any node a cursor may start from. -/
lemma climbToRoot_eq (hT : TreeInv h G G.exact) :
    ∀ (fuel : ℕ) {a : Ptr}, G.Known h a → (h.node a).startable →
      h.size ≤ (h.node a).height + fuel → climbToRoot h fuel a = some (G.top (G.fam a))
  | 0, a, ha, _, hf => absurd (hT.height_lt ha.1) (by omega)
  | fuel + 1, a, ha, hs, hf => by
      have hbit := hT.root_bit ha id hs
      rw [climbToRoot]
      split_ifs with hr
      · exact congrArg some (hT.top_eq ha id (hbit.1 hr))
      · cases hp : (h.node a).parent with
        | none => exact absurd (hbit.2 hp id) hr
        | some p =>
            obtain ⟨hps, hfam, hh, hint⟩ := hT.up ha hp
            rw [Option.getD_some, climbToRoot_eq hT fuel hps
              (Node.startable_of_internode hint) (by omega), hfam]

/-! ## Downwards -/

/-- The descent from a live node ends at a live leaf below it. -/
lemma descend_spec (hT : TreeInv h G G.exact) {x : ℕ} :
    ∀ (fuel : ℕ) {a : Ptr}, G.live a → G.lo a ≤ x → x < G.hi a → (h.node a).height < fuel →
      ∃ b, descend h x fuel a = some b ∧ G.live b ∧ (h.node b).isLeaf = true ∧
        G.fam b = G.fam a ∧ G.lo b ≤ x ∧ x < G.hi b
  | 0, _, _, _, _, hf => absurd hf (by omega)
  | fuel + 1, a, ha, hl, hu, hf => by
      rw [descend]
      cases hn : h.node a with
      | leaf l => exact ⟨a, rfl, ha, by simp [hn, Node.isLeaf], rfl, hl, hu⟩
      | internode n =>
          obtain ⟨c, hc, hmem, hcl, hcu⟩ := (hT.link ha hn).route hl hu
          obtain ⟨hlive, -, hfam, hh⟩ := hT.child_live ha hn hmem
          obtain ⟨b, hb, hbl, hbleaf, hbfam, hb1, hb2⟩ :=
            descend_spec hT fuel hlive hcl hcu (by omega)
          exact ⟨b, by simpa only [hc] using hb, hbl, hbleaf, hbfam.trans hfam, hb1, hb2⟩

/-- More fuel does not change a descent that ended. -/
lemma descend_mono {x : ℕ} {b : Ptr} : ∀ {fuel fuel' : ℕ} {a : Ptr}, fuel ≤ fuel' →
    descend h x fuel a = some b → descend h x fuel' a = some b
  | 0, _, _, _, hd => by simp [descend] at hd
  | fuel + 1, 0, _, hle, _ => absurd hle (by omega)
  | fuel + 1, fuel' + 1, a, hle, hd => by
      rw [descend] at hd ⊢
      split at hd
      · exact hd
      · split at hd
        · exact absurd hd (by simp)
        · exact descend_mono (by omega) hd

/-- A descent from a live node is the tail of the descent from the root of its layer. -/
lemma descend_from_top (hT : TreeInv h G G.exact) {x : ℕ} {b : Ptr} :
    ∀ (k : ℕ) {a : Ptr} {fuel : ℕ}, G.live a → G.lo a ≤ x → x < G.hi a →
      h.size ≤ (h.node a).height + k → descend h x fuel a = some b →
      ∃ fuel', descend h x fuel' (G.top (G.fam a)) = some b
  | 0, a, _, ha, _, _, hk, _ => absurd (hT.height_lt (hT.live_lt ha)) (by omega)
  | k + 1, a, fuel, ha, hl, hu, hk, hd => by
      cases hp : (h.node a).parent with
      | none =>
          rw [← hT.top_eq (hT.known ha) id hp]
          exact ⟨fuel, hd⟩
      | some p =>
          obtain ⟨-, hfam, hh, hint⟩ := hT.up (hT.known ha) hp
          obtain ⟨hlive, hmem⟩ := hT.linked ha id hp
          obtain ⟨n, hn⟩ := Node.exists_internode hint
          rw [Heap.internode_eq hn] at hmem
          have hlink := hT.link hlive hn
          obtain ⟨k₁, k₂, c₁, c₂, -, hcs, hlen, -, -, -, hlo, hhi, hup⟩ := hlink.cut_child hmem
          rw [← hfam]
          have hd' : descend h x (fuel + 1) p = some b := by
            rw [descend, hn]
            simp only
            rw [hup x hl hu, ← hlen, Internode.child, hcs]
            simpa using hd
          exact descend_from_top hT k hlive (hlo.trans hl) (lt_of_lt_of_le hu hhi) (by omega) hd'

/-- **The live leaf of a layer responsible for a slice is unique.** -/
lemma leaf_unique (hT : TreeInv h G G.exact) {x : ℕ} {a b : Ptr} (ha : G.live a)
    (hb : G.live b) (hal : (h.node a).isLeaf = true) (hbl : (h.node b).isLeaf = true)
    (hfam : G.fam a = G.fam b) (hax : G.lo a ≤ x ∧ x < G.hi a) (hbx : G.lo b ≤ x ∧ x < G.hi b) :
    a = b := by
  have self : ∀ {c}, (h.node c).isLeaf = true → descend h x 1 c = some c := by
    intro c hc
    cases hn : h.node c with
    | leaf l => simp [descend, hn]
    | internode n => simp [hn, Node.isLeaf] at hc
  obtain ⟨f₁, h₁⟩ := hT.descend_from_top h.size ha hax.1 hax.2 (by omega) (self hal)
  obtain ⟨f₂, h₂⟩ := hT.descend_from_top h.size hb hbx.1 hbx.2 (by omega) (self hbl)
  rw [hfam] at h₁
  have e₁ := descend_mono (Nat.le_max_left f₁ f₂) h₁
  have e₂ := descend_mono (Nat.le_max_right f₁ f₂) h₂
  simpa using e₁.symm.trans e₂

/-- **`reach_leaf` finds the responsible leaf** from any pointer into the layer. -/
lemma reachLeaf_spec (hT : TreeInv h G G.exact) {x : ℕ} {a : Ptr} (ha : G.Known h a)
    (hs : (h.node a).startable) (hx : x < ikeyLimit) :
    ∃ b, reachLeaf h a x = some b ∧ G.live b ∧ (h.node b).isLeaf = true ∧
      G.fam b = G.fam a ∧ G.lo b ≤ x ∧ x < G.hi b := by
  obtain ⟨htl, -, hfam, -, hlo, hhi⟩ := hT.top_spec ha
  obtain ⟨b, hb, hrest⟩ := hT.descend_spec (x := x) (h.size + 1) htl (by omega)
    (by change x < G.exact.view _; omega) ((hT.height_lt (hT.live_lt htl)).trans (by omega))
  refine ⟨b, ?_, hrest.1, hrest.2.1, hrest.2.2.1.trans hfam, hrest.2.2.2⟩
  rw [reachLeaf, hT.climbToRoot_eq _ ha hs (by omega)]
  exact hb

end TreeInv

end MasstreeLHM
