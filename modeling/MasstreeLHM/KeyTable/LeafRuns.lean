import MasstreeLHM.KeyTable.Bags
import MasstreeLHM.Suffixes.BagInUse

/-!
# The suffixes of one leaf

A leaf from its construction on: keys are assigned to free slots, slots become live or are removed,
become layers or get other values, and the suffixes move to larger bags.  The suffixes of the live
slots stay readable.

`BagLeaf` is a leaf with its bags as `LeafArea` has them, sign and all, and `BagLeaf.Reachable` are
all leaves that such runs lead to, each with any contents in its uninitialised slots.  `BagLeaf.Ok`
is the invariant, the agreement of slots and bags.

**`Reachable.ok`** is the run, with `Ok.assign` for an assignment and `initialize_spec` for a new
leaf that is filled position by position.  **`assign_keeps_ksuf`** says what an assignment to a slot
that is not live does: the suffixes of the live slots stay as they are, the slot gets its own, and
no assertion fails, whether or not the bag has to grow.
-/

namespace MasstreeLHM.KeyTable

variable {V : Type} [Inhabited V]

/-- A leaf with its bags. -/
structure BagLeaf (V : Type) where
  leaf : Leaf (Cell V)
  area : LeafArea

namespace BagLeaf

/-- `leaf::ksuf`. -/
def ksuf (b : BagLeaf V) (p : ℕ) : Option Bytes := b.area.get p

/-- `leaf::assign`. -/
def assign (W : ℕ) (b : BagLeaf V) (p : ℕ) (k : Bytes) : Option (BagLeaf V) :=
  if (keyOf k).hasSuffix then
    (b.area.assignKsuf W b.leaf.permutation.live (fun q => hasKsuf (b.leaf.slot q)) p
      (k.drop 8)).map fun a => ⟨b.leaf.assign p (assigned k), a⟩
  else some ⟨b.leaf.assign p (assigned k), b.area⟩

/-- The leaves of all runs; `leafSize` is the size of a leaf in bytes. -/
inductive Reachable (W : ℕ) (leafSize : ℕ) : BagLeaf V → Prop
  /-- a new leaf; its slots are uninitialised memory -/
  | new (l : Leaf (Cell V)) (a : LeafArea) (ha : LeafArea.New leafSize W a)
      (hl : l.slots.length = W) (hp : l.permutation = Kpermuter.makeEmpty W) :
      Reachable W leafSize ⟨l, a⟩
  /-- a new leaf whose first slots have been filled in order, some of which are then made live -/
  | initialized (l : Leaf (Cell V)) (a a' : LeafArea) (m : ℕ) (ha : LeafArea.New leafSize W a)
      (hl : l.slots.length = W) (hm : m ≤ W)
      (hs : ∀ s, some s ∈ (List.range m).map (fun p => suffix (l.slot p)) → IsSuffix s)
      (ha' : a.assignInitialize W ((List.range m).map fun p => suffix (l.slot p)) = some a')
      (hp : l.permutation.WF W) (hlive : ∀ p ∈ l.permutation.live, p < m) :
      Reachable W leafSize ⟨l, a'⟩
  /-- a key is assigned to a slot that is not live -/
  | assign (b b' : BagLeaf V) (p : ℕ) (k : Bytes) (hb : Reachable W leafSize b) (hp : p < W)
      (hp' : p ∉ b.leaf.permutation.live) (hk : k.length ≤ 1024) (h : b.assign W p k = some b') :
      Reachable W leafSize b'
  /-- a key is assigned to the last free slot, which is then made live -/
  | insert (b b' : BagLeaf V) (i : ℕ) (k : Bytes) (hb : Reachable W leafSize b)
      (hs : b.leaf.size < W) (hi : i ≤ b.leaf.size) (hk : k.length ≤ 1024)
      (h : b.assign W b.leaf.permutation.back k = some b') :
      Reachable W leafSize
        ⟨{ b'.leaf with permutation := b'.leaf.permutation.insertFromBack i }, b'.area⟩
  /-- the value of a slot is overwritten, or the slot becomes a layer -/
  | rewrite (b : BagLeaf V) (p : ℕ) (s : Slot (Cell V)) (hb : Reachable W leafSize b)
      (hs : hasKsuf s = true → hasKsuf (b.leaf.slot p) = true ∧
        s.body.ksuf = (b.leaf.slot p).body.ksuf) :
      Reachable W leafSize ⟨b.leaf.assign p s, b.area⟩
  /-- slots are removed or rearranged, and other fields written -/
  | rearrange (b : BagLeaf V) (l : Leaf (Cell V)) (hb : Reachable W leafSize b)
      (hs : l.slots = b.leaf.slots)
      (hp : l.permutation.WF W) (hlive : l.permutation.live ⊆ b.leaf.permutation.live) :
      Reachable W leafSize ⟨l, b.area⟩

/-- The live slots with a suffix have it in the bag in use. -/
structure Ok (W : ℕ) (b : BagLeaf V) : Prop where
  perm : b.leaf.permutation.WF W
  slots : b.leaf.slots.length = W
  signed : b.area.Signed
  bags : b.area.toSuffixStore.Ok W
  ksuf : ∀ p ∈ b.leaf.permutation.live, hasKsuf (b.leaf.slot p) = true →
    b.ksuf p = some (b.leaf.slot p).body.ksuf ∧ IsSuffix (b.leaf.slot p).body.ksuf

variable {W : ℕ} {leafSize : ℕ} {b b' : BagLeaf V} {p : ℕ} {k : Bytes}

/-- **`assign`** stores the suffix of its key, and keeps those of the live slots. -/
lemma Ok.assign (h : b.Ok W) (hW : W ≤ 15) (hp : p < W)
    (hp' : p ∉ b.leaf.permutation.live) (hk : k.length ≤ 1024) :
    ∃ b', b.assign W p k = some b' ∧ b'.Ok W ∧ b'.leaf = b.leaf.assign p (assigned k) ∧
      (∀ q ∈ b.leaf.permutation.live, hasKsuf (b.leaf.slot q) = true → b'.ksuf q = b.ksuf q) ∧
      ((keyOf k).hasSuffix = true → b'.ksuf p = some (k.drop 8)) := by
  have hlt : ∀ q ∈ b.leaf.permutation.live, q < b.leaf.slots.length := fun q hq => by
    rw [h.slots]
    exact h.perm.live_lt hq
  -- what remains to be said when the bags are known
  have key : ∀ a : LeafArea, a.Signed → a.toSuffixStore.Ok W →
      (∀ q ∈ b.leaf.permutation.live, hasKsuf (b.leaf.slot q) = true → a.get q = b.ksuf q) →
      (⟨b.leaf.assign p (assigned k), a⟩ : BagLeaf V).Ok W := by
    intro a h1 h2 h3
    refine ⟨h.perm, ?_, h1, h2, fun q hq hs => ?_⟩
    · rw [Leaf.assign, List.length_set]
      exact h.slots
    · have hqp : q ≠ p := fun h0 => hp' (h0 ▸ hq)
      change hasKsuf ((b.leaf.assign p (assigned k)).slot q) = true at hs
      change a.get q = some ((b.leaf.assign p (assigned k)).slot q).body.ksuf ∧
        IsSuffix ((b.leaf.assign p (assigned k)).slot q).body.ksuf
      rw [Leaf.slot_assign (hlt q hq), if_neg hqp] at hs ⊢
      rw [h3 q hq hs]
      exact h.ksuf q hq hs
  rw [BagLeaf.assign]
  split_ifs with hsuf
  · obtain ⟨st, h1, h2, h3, h4⟩ := SuffixStore.assignKsuf_spec h.bags hW hp
      (isSuffix_drop (show Kind.strings.IsKey k from hk) hsuf) b.leaf.permutation.live
      (fun q => hasKsuf (b.leaf.slot q)) .insert (by decide) h.perm.live_nodup
      (fun q hq => ⟨h.perm.live_lt hq, fun hs => ⟨_, h.ksuf q hq hs⟩⟩)
    obtain ⟨g1, g2⟩ := LeafArea.assignKsuf_store h.signed W b.leaf.permutation.live
      (fun q => hasKsuf (b.leaf.slot q)) p (k.drop 8)
    rw [h1] at g1
    obtain ⟨a, ha, rfl⟩ := Option.map_eq_some_iff.mp g1
    rw [ha]
    have hkeep : ∀ q ∈ b.leaf.permutation.live, hasKsuf (b.leaf.slot q) = true →
      a.get q = b.ksuf q :=
      fun q hq hs => h4 q hq (fun h0 => hp' (h0 ▸ hq)) hs
    exact ⟨_, rfl, key a (g2 a ha) h2 hkeep, rfl, hkeep, fun _ => h3⟩
  · exact ⟨_, rfl, key b.area h.signed h.bags fun _ _ _ => rfl, rfl, fun _ _ _ => rfl,
      fun h0 => absurd h0 hsuf⟩

/-- **Filling a new leaf** in order. -/
lemma initialize_spec {a : LeafArea} (ha : LeafArea.New leafSize W a) (hW : W ≤ 15)
    (suffixes : List (Option Bytes)) (hlen : suffixes.length ≤ W)
    (hsuf : ∀ s, some s ∈ suffixes → IsSuffix s) :
    ∃ a', a.assignInitialize W suffixes = some a' ∧ a'.Signed ∧
      a'.toSuffixStore.Ok W ∧ ∀ p s, suffixes[p]? = some (some s) → a'.get p = some s := by
  obtain ⟨h1, h2⟩ := ha.ok hW
  obtain ⟨st, h3, h4, h5⟩ := SuffixStore.assignInitialize_spec h2 hW suffixes hlen hsuf
  obtain ⟨g1, g2⟩ := LeafArea.assignInitialize_store h1 suffixes
  rw [h3] at g1
  obtain ⟨a', ha', rfl⟩ := Option.map_eq_some_iff.mp g1
  exact ⟨a', ha', g2 a' ha', h4, h5⟩

/-- **Every reachable leaf** has its suffixes. -/
lemma Reachable.ok (hW : W ≤ 15) (h : Reachable W leafSize b) : b.Ok W := by
  induction h with
  | new l a ha hl hp =>
      obtain ⟨h1, h2⟩ := ha.ok hW
      refine ⟨hp ▸ .makeEmpty _, hl, h1, h2, fun p hp0 => ?_⟩
      rw [show (BagLeaf.mk l a).leaf = l from rfl, hp] at hp0
      simp [Kpermuter.live, Kpermuter.makeEmpty] at hp0
  | initialized l a a' m ha hl hm hs ha' hp hlive =>
      obtain ⟨a₁, h1, h2, h3, h4⟩ := initialize_spec ha hW _ (by simpa using hm) hs
      rw [ha', Option.some.injEq] at h1
      subst h1
      refine ⟨hp, hl, h2, h3, fun p hp0 hk => ?_⟩
      have hget : ((List.range m).map fun p => suffix (l.slot p))[p]? =
        some (suffix (l.slot p)) := by
        rw [List.getElem?_map, List.getElem?_range (hlive p hp0)]
        rfl
      rw [suffix, if_pos hk] at hget
      exact ⟨h4 p _ hget, hs _ (List.mem_of_getElem? hget)⟩
  | assign b b' p k hb hp hp' hk h ih =>
      obtain ⟨b₁, h1, h2, -⟩ := ih.assign hW hp hp' hk
      rw [h, Option.some.injEq] at h1
      exact h1 ▸ h2
  | insert b b' i k hb hs hi hk h ih =>
      have hback := ih.perm.back_lt (by omega)
      obtain ⟨b₁, h1, h2, h3, h4, h5⟩ := ih.assign hW hback (ih.perm.back_notMem_live hs) hk
      rw [h, Option.some.injEq] at h1
      subst h1
      have hperm : b'.leaf.permutation = b.leaf.permutation := by rw [h3]; rfl
      refine ⟨?_, h2.slots, h2.signed, h2.bags, fun q hq hsq => ?_⟩
      · rw [hperm]
        exact ih.perm.insertFromBack hi hs
      · change hasKsuf (b'.leaf.slot q) = true at hsq
        change b'.ksuf q = some (b'.leaf.slot q).body.ksuf ∧ IsSuffix (b'.leaf.slot q).body.ksuf
        change q ∈ (b'.leaf.permutation.insertFromBack i).live at hq
        rw [hperm, ih.perm.live_insertFromBack hi hs] at hq
        by_cases hqb : q = b.leaf.permutation.back
        · -- the slot that becomes live
          have hslot : b'.leaf.slot q = assigned k := by
            rw [h3, Leaf.slot_assign (by rw [ih.slots, hqb]; exact hback), if_pos hqb]
          rw [hslot] at hsq ⊢
          have hsuf : (keyOf k).hasSuffix = true := by rwa [hasKsuf_assigned] at hsq
          have hdrop : (assigned k : Slot (Cell V)).body.ksuf = k.drop 8 := by
            rw [assigned, if_pos hsuf]
          rw [hdrop, hqb]
          exact ⟨h5 hsuf, isSuffix_drop (show Kind.strings.IsKey k from hk) hsuf⟩
        · refine h2.ksuf q ?_ hsq
          rw [hperm]
          rcases List.mem_append.mp hq with h6 | h6
          · exact List.mem_of_mem_take h6
          · exact List.mem_of_mem_drop ((List.mem_cons.mp h6).resolve_left hqb)
  | rewrite b p s hb hs ih =>
      refine ⟨ih.perm, by rw [Leaf.assign, List.length_set]; exact ih.slots, ih.signed, ih.bags,
        fun q hq hk => ?_⟩
      change hasKsuf ((b.leaf.assign p s).slot q) = true at hk
      change b.ksuf q = some ((b.leaf.assign p s).slot q).body.ksuf ∧
        IsSuffix ((b.leaf.assign p s).slot q).body.ksuf
      rcases Leaf.slot_assign_cases b.leaf p q s with h | ⟨rfl, h⟩
      · rw [h] at hk ⊢
        exact ih.ksuf q hq hk
      · rw [h] at hk ⊢
        obtain ⟨h1, h2⟩ := hs hk
        rw [h2]
        exact ih.ksuf q hq h1
  | rearrange b l hb hs hp hlive ih =>
      have hslot : l.slot = b.leaf.slot := funext fun q => by rw [Leaf.slot, Leaf.slot, hs]
      refine ⟨hp, by rw [hs]; exact ih.slots, ih.signed, ih.bags, fun q hq hk => ?_⟩
      change hasKsuf (l.slot q) = true at hk
      change b.ksuf q = some (l.slot q).body.ksuf ∧ IsSuffix (l.slot q).body.ksuf
      rw [hslot] at hk ⊢
      exact ih.ksuf q (hlive hq) hk

/-- **The suffixes of a leaf.**  Assigning a key with a suffix to a slot that is not live leaves the
suffixes of the live slots as they are, and the slot has the new one; filling a new leaf in order,
each slot filled so far has its own.  The copies into larger bags succeed. -/
theorem assign_keeps_ksuf (W : ℕ) (hW : W ≤ 15) (leafSize : ℕ) :
    (∀ b : BagLeaf V, Reachable W leafSize b → ∀ p < W, p ∉ b.leaf.permutation.live →
      ∀ k : Bytes, k.length ≤ 1024 → (keyOf k).hasSuffix = true →
        ∃ b', b.assign W p k = some b' ∧ b'.ksuf p = some (k.drop 8) ∧
          ∀ q ∈ b.leaf.permutation.live, hasKsuf (b.leaf.slot q) = true →
            b'.leaf.slot q = b.leaf.slot q ∧ b'.ksuf q = b.ksuf q) ∧
    ∀ a : LeafArea, LeafArea.New leafSize W a → ∀ suffixes : List (Option Bytes),
      suffixes.length ≤ W → (∀ s, some s ∈ suffixes → IsSuffix s) →
        ∃ a', a.assignInitialize W suffixes = some a' ∧
          ∀ p s, suffixes[p]? = some (some s) → a'.get p = some s := by
  constructor
  · intro b hb p hp hp' k hk hsuf
    have hok := hb.ok hW
    obtain ⟨b', h1, -, h3, h4, h5⟩ := hok.assign hW hp hp' hk
    refine ⟨b', h1, h5 hsuf, fun q hq hs => ⟨?_, h4 q hq hs⟩⟩
    rw [h3, Leaf.slot_assign (by rw [hok.slots]; exact hok.perm.live_lt hq),
      if_neg (show q ≠ p from fun h0 => hp' (h0 ▸ hq))]
  · intro a ha suffixes hlen hsuf
    obtain ⟨a', h1, -, -, h2⟩ := initialize_spec ha hW suffixes hlen hsuf
    exact ⟨a', h1, h2⟩

/-- In a leaf with an internal bag a key of twenty bytes is made live, and then a key of a hundred
and twenty bytes does not fit: both suffixes move to an external bag.  A new leaf is filled with the
same suffixes at its positions 0 and 2. -/
theorem assign_keeps_ksuf_movedBag :
    (∃ b b' : BagLeaf ℕ, Reachable 7 408 b ∧ b.leaf.permutation.live = [0] ∧
      b.ksuf 0 = some (List.replicate 12 1) ∧ b.area.ksuf.isSome = false ∧
      b.assign 7 1 (List.replicate 120 2) = some b' ∧ b'.area.ksuf.isSome = true ∧
      b'.ksuf 1 = some (List.replicate 112 2) ∧ b'.ksuf 0 = some (List.replicate 12 1)) ∧
    ∃ a a' : LeafArea, LeafArea.New 408 7 a ∧
      a.assignInitialize 7
        [some (List.replicate 12 1), none, some (List.replicate 112 2)] = some a' ∧
      a'.get 0 = some (List.replicate 12 1) ∧ a'.get 2 = some (List.replicate 112 2) := by
  let l : Leaf (Cell ℕ) := Leaf.make ⟨7, 7, by decide, by decide⟩
  let a : LeafArea := ((LeafArea.make 408 7 64).get rfl).2
  let b : BagLeaf ℕ := (assign 7 ⟨l, a⟩ 0 (List.replicate 20 1)).get rfl
  have ha : LeafArea.New 408 7 a := .make 64 (show LeafArea.make 408 7 64 = some (512, a) from rfl)
  have hb : Reachable 7 408 _ := Reachable.insert ⟨l, a⟩ b 0 (List.replicate 20 1)
    (.new l a ha rfl rfl) (by decide) (by decide) (by decide) (Option.some_get _).symm
  have hold : b.ksuf 0 = some (List.replicate 12 1) := by decide
  have hmoved : (assign 7
      ⟨{ b.leaf with permutation := b.leaf.permutation.insertFromBack 0 }, b.area⟩ 1
      (List.replicate 120 2)).map (fun b' => b'.area.ksuf.isSome) = some true := by
    decide +kernel
  constructor
  · obtain ⟨b', h1, h2, h3⟩ := (assign_keeps_ksuf 7 (by decide) 408).1 _ hb 1 (by decide)
      (by decide) (List.replicate 120 2) (by decide) (by decide)
    obtain ⟨-, h4⟩ := h3 0 (by decide) (by decide)
    rw [h1] at hmoved
    exact ⟨_, b', hb, rfl, hold, rfl, h1, Option.some_injective _ hmoved, h2, h4.trans hold⟩
  · obtain ⟨a', h1, h2⟩ := (assign_keeps_ksuf (V := ℕ) 7 (by decide) 408).2 a ha
      [some (List.replicate 12 1), none, some (List.replicate 112 2)] (by decide) (by
        intro s hs
        simp only [List.mem_cons, Option.some.injEq, reduceCtorEq, List.not_mem_nil, or_false,
          false_or] at hs
        rcases hs with rfl | rfl <;> exact ⟨by decide, by decide⟩)
    exact ⟨a, a', ha, h1, h2 0 _ rfl, h2 2 _ rfl⟩

end BagLeaf

end MasstreeLHM.KeyTable
