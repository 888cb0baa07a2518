import MasstreeLHM.KeyTable.Parting

/-!
# Inserting whole keys

`find_insert` leaves the cursor at the slot of its key, or at a free slot for what is left of it, in
a table that stands for the same map.  `finish` makes the free slot live, and the map has one more
key.

**`Ends.cases`** sorts the places where `find_locked` can end: at the value of the key, at a value
with another suffix, or at no slot.  In the first case the value may be written (`Stands.write`), in
the second the slot makes way for a layer, and in the third room is made (**`Stands.makeRoom`**).
Both of the latter leave a free slot for the key, and **`Opened.finish`** makes it live.

`StringTable.Ok` says that a table stands for a trie and that its callbacks start at its layers.
`Ok.find`, `Ok.findInsert`, **`Ok.put`** and **`Ok.probe`** are the calls, stated by the map of the
trie.
-/

namespace MasstreeLHM.KeyTable

open Trie

variable {V : Type} [Inhabited V] {P : NodeParams} {s : Layers V} {G : Ghost}
  {M : LayerMap Bytes (ℕ × ℕ) V Ptr}
  {k k₀ ka : Bytes} {f r R : Ptr} {l : Leaf (Cell V)} {c : Cursor} {pos : Position}

/-! ## The cursor -/

/-- Slots that a search has passed are before the new slot, and the others behind it. -/
lemma StopsAt.sides (hc : StopsAt s.heap G f k c l) (hp : c.p = none) (v : V) :
    (∀ u ∈ l.entries.take c.i, keyLt u (Insertion.key k v).slot) ∧
      ∀ u ∈ l.entries.drop c.i, keyLt (Insertion.key k v).slot u := by
  obtain ⟨h1, h2⟩ := hc.miss hp
  refine ⟨fun u hu => ?_, fun u hu => ?_⟩ <;> rw [keyLt, rank_slot_key, ikey_slot]
  · exact compareKey_pos.mp (h1 u hu)
  · exact compareKey_neg.mp (h2 u hu)

/-- **Room is made** for a key that has no slot. -/
lemma Stands.makeRoom (hS : Stands P s G M) (hW : P.leafWidth = 15) (sz : ℕ)
    (hlead : Leads byteCut M R k₀ f k) (hk : k.length ≤ 1024) (hc : StopsAt s.heap G f k c l)
    (hp : c.p = none) :
    ∃ h pos st G' l', MasstreeLHM.makeRoom P s.heap c (assigned k) = some (h, pos) ∧
      makeRoomStores P sz s.heap s.stores c k = some st ∧ Frame s.heap G h G' ∧
      Opened P ⟨h, st, s.roots⟩ G' M R k₀ pos k f l' := by
  obtain ⟨hbf, haf⟩ := hc.sides hp default
  have hok := hS.ok.heap.leaves c.n { l with parent := none } hc.live (by rw [hc.leaf]; rfl)
  obtain ⟨h, pos, st, _, _, e1, e2, e3, -, -, e4⟩ :=
    hS.ok.makeRoom (q := .key k default) hW sz hc.live hc.leaf hk
    hc.lo hc.hi hc.le_size hbf haf
  obtain ⟨h', G', pos', l', g1, g2, g3, -, g4, g5⟩ :=
    makeRoom_spec keyLt_le hS.ok.heap hc.live hc.leaf hc.lo hc.hi
    hc.le_size (ikey_assigned (k := k)) hbf haf (fun u => keyLt_le u _)
      (fun u => keyLt_le _ u) (fun hlen => by
      have hsorted : l.entries.Pairwise keyLt := hok.sorted
      have hlen' : Kind.strings.leafWidth ≤ l.entries.length + 1 := by
        have hsize : l.entries.length = l.size := Leaf.entries_length hok.perm
        rw [hsize]
        exact hW.ge.trans hlen
      exact exists_other_ikey hsorted (hS.ok.fits c.n l hc.leaf).keylenx hlen' _)
  obtain ⟨rfl, rfl⟩ : h' = h ∧ pos' = pos := by
    rw [show assigned (Insertion.key k default).bytes = assigned k from rfl, g1,
      Option.some.injEq, Prod.mk.injEq]
      at e1
    exact e1
  refine ⟨h', pos', st, G', l', g1, e2, g3,
    ⟨⟨g2, fun r hr => (hS.ok.held r hr).frame g3, e3.stores, e3.fits, e3.noMeta⟩,
      hS.denotes.congr g5 fun g u hu => itemOf_stay (hS.sound g u hu) (.of_frame g3), fun g u hu =>
        ?_⟩,
    hlead, hS.missed hc hp, hk, e4, fun v => hc.fam ▸ g4⟩
  exact (hS.sound g u ((g5 g u).mp hu)).frame g3

/-- The cursor stands at the value of its key. -/
structure Found (s : Layers V) (G : Ghost) (M : LayerMap Bytes (ℕ × ℕ) V Ptr) (R : Ptr) (k : Bytes)
    (n : Ptr) (p : ℕ) (v : V) (ka : Bytes) (l : Leaf (Cell V)) : Prop where
  leads : Leads byteCut M R k (G.fam n) ka
  live : G.live n
  leaf : s.heap.node n = .leaf l
  mem : p ∈ l.permutation.live
  cell : cellOf (l.slot p) = byteCut.cell ka
  rest : restOf (l.slot p) = byteCut.rest ka
  isLayer : isLayer (l.slot p) = false
  value : (l.slot p).body.lv = .value v
  item : M (G.fam n) (byteCut.cell ka) = some (.value (byteCut.rest ka) v)

lemma Found.get_eq {n : Ptr} {p : ℕ} {v : V} (h : Found s G M R k n p v ka l) :
    get byteCut M R k = some v := by
  rw [h.leads.get_eq, get_of_value h.item, if_pos rfl]

lemma Found.valueAt_eq {n : Ptr} {p : ℕ} {v : V} (h : Found s G M R k n p v ka l) :
    valueAt s.heap n p = some v := by
  rw [valueAt, Stands.heap_leaf h.leaf, h.value]

/-- **What `find_locked` has found.** -/
lemma Ends.cases {c : KeyCursor} (h : Ends P s G M R k c f l) :
    (c.stop.p = none ∧ get byteCut M R k = none ∧ c.state = 0) ∨
      (∃ p v, c.stop.p = some p ∧ c.state = 1 ∧ Found s G M R k c.stop.n p v c.rest l) ∨
      ∃ p v, c.stop.p = some p ∧ c.state = 0 ∧ get byteCut M R k = none ∧
      (l.slot p).body.lv = .value v ∧
        isLayer (l.slot p) = false ∧ M f (byteCut.cell c.rest) =
          some (.value (restOf (l.slot p)) v) ∧
        restOf (l.slot p) ≠ byteCut.rest c.rest := by
  rcases h.state with ⟨h1, h2, h3⟩ | ⟨p, v, h1, h2, h3, h4, h5⟩
  · exact Or.inl ⟨h1, by rw [h.leads.get_eq, get_of_none h3], h2⟩
  · obtain ⟨h6, h7⟩ := h.stop.hit p h1
    by_cases hr : restOf (l.slot p) = byteCut.rest c.rest
    · rw [if_pos hr] at h5
      exact Or.inr (Or.inl ⟨p, v, h1, h5, ⟨h.stop.fam ▸ h.leads, h.stop.live, h.stop.leaf,
        List.mem_of_getElem? h6, h7, hr, h3, h2, h.stop.fam.symm ▸ hr ▸ h4⟩⟩)
    · rw [if_neg hr] at h5
      exact Or.inr (Or.inr ⟨p, v, h1, h5, by rw [h.leads.get_eq, get_of_value h4, if_neg hr],
        h2, h3, h4, hr⟩)

/-! ## Values -/

/-- **Writing the value** at the cursor. -/
lemma Stands.write (hS : Stands P s G M) (hT : IsTree M R) (hSp : Spelled M R)
    {n : Ptr} {p : ℕ} {v : V} (hf : Found s G M R k n p v ka l) (w : V) :
    ∃ M', Stands P ⟨KeyTable.setLv s.heap n p (.value w), s.stores, s.roots⟩ G M' ∧
      Frame s.heap G (KeyTable.setLv s.heap n p (.value w)) G ∧ (IsTree M' R ∧ Spelled M' R) ∧
      get byteCut M' R = Function.update (get byteCut M R) k (some w) := by
  have hlv : Sound s.heap G ⟨(l.slot p).ikey, { (l.slot p).body with lv := .value w }⟩ :=
    Or.inl ⟨hf.isLayer, w, rfl⟩
  obtain ⟨h1, h2⟩ := (hS.pending ..).setLv hf.live hf.leaf hf.mem _ hlv
  have hitem : itemOf G.fam ⟨(l.slot p).ikey, { (l.slot p).body with lv := .value w }⟩
      = .value (byteCut.rest ka) w := congrArg (Item.value · w) hf.rest
  rw [hf.cell, hitem] at h1
  refine ⟨_, h1, h2, ⟨hT.set (by simp), hSp.set_some (fun u hu => ?_) (by simp)⟩,
    get_set hT hf.leads (some w) (Or.inr ⟨v, hf.item⟩)⟩
  obtain ⟨h3, h4, q, h5, h6, h7, -⟩ := hSp u _ hu _ _ hf.item
  refine ⟨h3, h4, q, h5, h6, fun o w' h0 => ?_, by simp⟩
  cases h0
  exact h7 _ _ rfl

/-- **The new slot becomes live**, with its value. -/
lemma Opened.finish (hO : Opened P s G M R k pos ka f l) (hT : IsTree M R) (hSp : Spelled M R)
    (hk : k.length ≤ 1024) (w : V) :
    ∃ M', Stands P ⟨MasstreeLHM.finishInsert (setLv s.heap pos.n pos.p (.value w)) pos,
      s.stores, s.roots⟩ G M' ∧
      Frame s.heap G (MasstreeLHM.finishInsert (setLv s.heap pos.n pos.p (.value w)) pos) G ∧
      (IsTree M' R ∧ Spelled M' R) ∧
      get byteCut M' R = Function.update (get byteCut M R) k (some w) := by
  have hslot : setLv s.heap pos.n pos.p (.value w) = writeSlot s.heap pos
    (Insertion.key ka w).slot := by
    rw [setLv, writeSlot, hO.ready.slot]
    rfl
  rw [hslot]
  have hok := hO.stands.ok.finishInsert (q := .key ka w) hO.length_le (hO.room w) hO.ready
  obtain ⟨-, hF, hE⟩ :=
    finishInsert_spec hO.stands.ok.heap (hO.room w) ikey_slot (fun _ h => h) (fun _ h => h)
  have hD := hO.stands.denotes.add hE fun u hu h0 => by
    have := hO.stands.denotes.item hu
    rw [h0, cellOf_key, hO.free] at this
    cases this
  rw [cellOf_key, itemOf_key] at hD
  refine ⟨_, ⟨hok, hD, fun g u hu => ?_⟩, hF, ⟨hT.set (by simp), hSp.set_value w fun u hu =>
    length_of_leads hT hO.leads hk hu⟩, get_set hT hO.leads (some w) (Or.inl hO.free)⟩
  rcases (hE g u).mp hu with h1 | ⟨-, rfl⟩
  · exact (hO.stands.sound g u h1).frame hF
  · exact Or.inl ⟨isLayer_key ka w, w, rfl⟩

namespace StringTable

/-! ## Tables -/

/-- A table stands for the trie `M` below its layer `R`, and its callbacks start there. -/
structure Ok (P : NodeParams) (t : StringTable V) (G : Ghost) (M : LayerMap Bytes (ℕ × ℕ) V Ptr)
    (R : Ptr) : Prop where
  stands : Stands P t.layers G M
  root : G.fam t.root = R
  tree : IsTree M R
  spelled : Spelled M R
  callbacks : ∀ x ∈ t.callbacks, Held t.heap G x.1 ∧ G.fam x.1 = R

variable {t : StringTable V} {G' : Ghost} {M' : LayerMap Bytes (ℕ × ℕ) V Ptr}

namespace Ok

lemma held (hT : t.Ok P G M R) : Held t.heap G t.root :=
  hT.stands.ok.held t.root (List.mem_singleton.mpr rfl)

lemma lt_size (hT : t.Ok P G M R) : R < t.heap.size := hT.root ▸ hT.stands.fam_lt hT.held.known

/-- The nodes of the table have been changed. -/
lemma stay (hT : t.Ok P G M R) {h : Heap (Cell V)} {st : Ptr → SuffixStore}
    (hS : Stands P ⟨h, st, t.layers.roots⟩ G' M') (hs : StayHeld t.heap G h G')
    (hT' : IsTree M' R ∧ Spelled M' R) :
    ({ t with heap := h, stores := st } : StringTable V).Ok P G' M' R :=
  ⟨hS, (hs _ hT.held).2.trans hT.root, hT'.1, hT'.2, fun x hx =>
    ⟨(hs _ (hT.callbacks x hx).1).1, (hs _ (hT.callbacks x hx).1).2.trans (hT.callbacks x hx).2⟩⟩

lemma fixRoot (hT : t.Ok P G M R) : t.fixRoot.Ok P G M R := by
  have hp := hT.held.parent hT.stands.ok.heap.tree
  have hfam : G.fam ((t.heap.node t.root).parent.getD t.root) = R := by
    rw [← hT.root]
    cases hq : (t.heap.node t.root).parent with
    | none => rfl
    | some q => exact (hT.stands.ok.heap.tree.up hT.held.known hq).2.1
  rw [StringTable.fixRoot]
  split_ifs with h
  · exact hT
  · obtain ⟨⟨⟨h1, -, h2, h3, h4⟩, h5, h6⟩, -, h7, h8, h9⟩ := hT
    refine ⟨⟨⟨h1, fun r hr => ?_, h2, h3, h4⟩, h5, h6⟩, hfam, h7, h8, h9⟩
    rw [List.mem_singleton.mp hr]
    exact hp

lemma get_eq (hT : t.Ok P G M R) (k : Bytes) : t.get k = some (Trie.get byteCut M R k) := by
  rw [StringTable.get, ← hT.root]
  exact hT.stands.findUnlocked (k.length + 1) hT.held (Nat.lt_succ_self _)

/-- **`find_locked`** leaves the map alone. -/
lemma find (hT : t.Ok P G M R) (hr : Held t.heap G r) (hrf : G.fam r = R) (k : Bytes) :
    ∃ t' c f l, t.find r k = some (t', c) ∧ t'.Ok P G M R ∧ Ends P t'.layers G M R k c f l ∧
      Frame t.heap G t'.heap G := by
  obtain ⟨h, c, f, l, h1, h2, h3⟩ : ∃ h c f l,
      findLocked t.stores r (k.length + 1) t.heap r [] k = some (h, c) ∧ Frame t.heap G h G ∧
        Ends P ⟨h, t.stores, [t.root]⟩ G M R k c f l :=
    hT.stands.findLocked r R k (k.length + 1) hr (hrf ▸ .refl) (Nat.lt_succ_self _)
  refine ⟨{ t with heap := h }, c, f, l, ?_, hT.stay h3.stands (.of_frame h2) ⟨hT.tree, hT.spelled⟩,
    h3, h2⟩
  rw [StringTable.find, h1]
  rfl

/-- **`find_insert`** finds the value of its key, or a free slot for it. -/
lemma findInsert (hT : t.Ok P G M R) (hW : P.leafWidth = 15) (sz : ℕ) (hk : k.length ≤ 1024) :
    ∃ t' pos found G' M', t.findInsert P sz k = some (t', pos, found) ∧ t'.Ok P G' M' R ∧
      Trie.get byteCut M' R = Trie.get byteCut M R ∧
      ((found = true ∧ ∃ v ka l, Found t'.layers G' M' R k pos.n pos.p v ka l) ∨
        (found = false ∧ Trie.get byteCut M R k = none ∧
          ∃ ka f l, Opened P t'.layers G' M' R k pos ka f l)) := by
  obtain ⟨t₁, c, f, l, h1, h2, h3, -⟩ := hT.fixRoot.find hT.fixRoot.held hT.fixRoot.root k
  have hlen : c.rest.length ≤ 1024 := h3.leads.size_le.trans hk
  rw [StringTable.findInsert]
  simp only [h1, Option.bind_eq_bind, Option.bind_some]
  rcases h3.cases with ⟨hp, hg, hc⟩ | ⟨p, v, hp, hc, hf⟩ | ⟨p, v, hp, hc, hg, hv, hlay, hM, hne⟩
  · obtain ⟨h, pos, st, G', l', e1, e2, e3, e4⟩ := h3.stands.makeRoom hW sz h3.leads hlen h3.stop hp
    have e1' : MasstreeLHM.makeRoom P t₁.heap c.stop (assigned c.rest) = some (h, pos) := e1
    have e2' : makeRoomStores P sz t₁.heap t₁.stores c.stop c.rest = some st := e2
    simp only [hp, e1', e2', Option.bind_some]
    exact ⟨_, pos, false, G', M, rfl, h2.stay e4.stands (.of_frame e3) ⟨hT.tree, hT.spelled⟩, rfl,
      Or.inr ⟨rfl, hg, c.rest, f, l', e4⟩⟩
  · simp only [hp, hc]
    exact ⟨t₁, _, true, G, M, rfl, h2, rfl, Or.inl ⟨rfl, v, c.rest, l, hf⟩⟩
  · obtain ⟨s', pos, ka, G', M', f', l', e1, e2, e3, e4, e5⟩ :=
      h3.stands.makeNewLayer hW sz hT.tree hT.spelled h2.lt_size
      h3.leads hlen h3.stop hp hv hlay hM hne
    simp only [hp, hc, e1, Option.bind_some]
    exact ⟨_, pos, false, G', M', rfl, h2.stay e5.stands e2 e3, e4,
      Or.inr ⟨rfl, hg, ka, f', l', e5⟩⟩

/-- **`find_insert`, and the cursor's value is assigned.** -/
lemma put (hT : t.Ok P G M R) (hW : P.leafWidth = 15) (sz : ℕ) (hk : k.length ≤ 1024)
    (w : Option V → V) :
    ∃ t' G' M', t.put P sz k w = some (Trie.get byteCut M R k, t') ∧ t'.Ok P G' M' R ∧
      Trie.get byteCut M' R
        = Function.update (Trie.get byteCut M R) k (some (w (Trie.get byteCut M R k))) := by
  obtain ⟨t₁, pos, found, G', M', h1, h2, h3, h4⟩ := hT.findInsert hW sz hk
  rw [StringTable.put, h1]
  rw [← h3]
  rcases h4 with ⟨rfl, v, ka, l, hf⟩ | ⟨rfl, hg, ka, f, l, hO⟩
  · obtain ⟨M'', g1, g2, g3, g4⟩ := h2.stands.write h2.tree h2.spelled hf (w (some v))
    have hv : valueAt t₁.heap pos.n pos.p = some v := hf.valueAt_eq
    simp only [Option.bind_eq_bind, Option.bind_some, hv, hf.get_eq]
    exact ⟨_, G', M'', rfl, h2.stay g1 (.of_frame g2) g3, g4⟩
  · obtain ⟨M'', g1, g2, g3, g4⟩ := hO.finish h2.tree h2.spelled hk (w none)
    rw [← h3] at hg
    simp only [Option.bind_eq_bind, Option.bind_some, hg]
    exact ⟨_, G', M'', rfl, h2.stay g1 (.of_frame g2) g3, g4⟩

/-- **`find_insert`, and nothing is inserted.** -/
lemma probe (hT : t.Ok P G M R) (hW : P.leafWidth = 15) (sz : ℕ) (hk : k.length ≤ 1024) :
    ∃ t' G' M', t.probe P sz k = some (Trie.get byteCut M R k, t') ∧ t'.Ok P G' M' R ∧
      Trie.get byteCut M' R = Trie.get byteCut M R := by
  obtain ⟨t₁, pos, found, G', M', h1, h2, h3, h4⟩ := hT.findInsert hW sz hk
  rw [StringTable.probe, h1]
  rw [← h3]
  rcases h4 with ⟨rfl, v, ka, l, hf⟩ | ⟨rfl, hg, -⟩
  · have hv : valueAt t₁.heap pos.n pos.p = some v := hf.valueAt_eq
    simp only [Option.bind_eq_bind, Option.bind_some, hv, hf.get_eq]
    exact ⟨t₁, G', M', rfl, h2, rfl⟩
  · rw [← h3] at hg
    simp only [Option.bind_eq_bind, Option.bind_some, hg]
    exact ⟨t₁, G', M', rfl, h2, rfl⟩

end Ok

end StringTable

end MasstreeLHM.KeyTable
