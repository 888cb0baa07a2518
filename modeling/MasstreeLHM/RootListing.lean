import MasstreeLHM.RootChains

/-!
# Listing the root directory

`readdir("/")` walks down from `root_`, while lookups climb from it first.  After a split of the
root leaf `root_` is no longer the root of its layer, and the listing shows the part of the layer
that `root_` still covers.

`RootCovers` says that all live slots of the root layer lie below `root_`.  The listing has the
entries below one node (`listing_entries`), so **`rootListing_iff`** is an equivalence: the listing
agrees with lookups exactly if `root_` covers the layer.  It asks that `root_` is still linked in
its layer (`RootLinked`), since a walk from a node that has been taken out shows what was there when
it was.

**`performAll_rootListing`** is the statement about runs; it counts the chains that a run starts,
because the entries of a slot are found through its marker.
-/

namespace MasstreeLHM

variable {hash : Bytes → UInt64}

namespace LhmNamespace

/-- `readdir("/")` agrees with point lookups of the children of `/`. -/
def RootListingAgrees (hash : Bytes → UInt64) (s : LhmNamespace) : Prop :=
  ∃ rs, s.readdir hash [slash] = some rs ∧ (rs.map ReaddirRecord.childName).Nodup ∧
    ∀ path name, componentsOf path = some [name] →
      (name ∈ rs.map ReaddirRecord.childName ↔ ∃ e, s.lookupEntry hash path = some (some e))

/-- `root_` is a node of the tree below the current root of its layer. -/
def RootLinked (s : LhmNamespace) : Prop :=
  ∃ top, canonicalizeDirectoryRoot s.heap s.root = some top ∧
    s.root ∈ nodesBelow s.heap (s.heap.size + 1) top

/-- The live slots of the root layer lie below `root_`. -/
def RootCovers (s : LhmNamespace) : Prop :=
  ∀ slots, s.rootSlots = some slots →
    ∀ sl ∈ slots, sl ∈ slotsBelow s.heap (s.heap.size + 1) s.root

end LhmNamespace

/-! ## The names in a listing -/

/-- The records of a cell are its entries under their names. -/
lemma Table.records_entries {T : Table} (ph : List ℕ) {f : Ptr} {x : ℕ} {c : Content}
    (hc : T.cell f x = some c) :
    (T.records ph x c).map (fun r => (r.childName, r.entry))
      = (T.names f x).map fun e => (e.name, e) := by
  rw [names, hc]
  cases c with
  | directory g => cases hm : T.info g <;> simp [records, hm, makeNamespaceEntry]
  | value v =>
      by_cases hk : v.kind = .conflictChain
      · simp [records, hk, Function.comp_def]
      · simp [records, hk]

namespace Represents

variable {s : LhmNamespace} {G : Ghost} {T : Table} {n : ℕ}

/-- A listing of the part of a layer below a live node. -/
lemma listing_entries (hR : Represents s G T) (ph : List ℕ) {a : Ptr} (ha : G.live a) :
    ∃ rs, s.appendDirectoryChildren ph (s.heap.size + 1) a = some rs ∧
      rs.map (fun r => (r.childName, r.entry))
        = (slotsBelow s.heap (s.heap.size + 1) a).flatMap fun sl =>
          (T.names (G.fam a) sl.ikey).map fun e => (e.name, e) := by
  have hh : (s.heap.node a).height < s.heap.size + 1 :=
    (hR.heap.tree.height_lt (hR.heap.tree.live_lt ha)).trans (by omega)
  obtain ⟨-, hmem⟩ := slotsBelow_spec hR.heap (s.heap.size + 1) ha hh
  have hcell : ∀ sl ∈ slotsBelow s.heap (s.heap.size + 1) a,
      ∃ c, sl = ⟨sl.ikey, c.encode⟩ ∧ T.cell (G.fam a) sl.ikey = some c := by
    intro sl hsl
    have hent := ((hmem sl).mp hsl).1
    obtain ⟨c, hc⟩ := hR.encoded _ sl hent
    refine ⟨c, by rw [← hc], ?_⟩
    rw [hR.cell, ← hc]
    exact hent
  have hrec : ∀ sl ∈ slotsBelow s.heap (s.heap.size + 1) a,
      s.slotRecords ph sl = some ((T.cell (G.fam a) sl.ikey).elim [] (T.records ph sl.ikey)) := by
    intro sl hsl
    obtain ⟨c, h1, h2⟩ := hcell sl hsl
    rw [h2, h1]
    exact hR.slotRecords_eq ph h2
  refine ⟨_, by rw [hR.appendChildren_eq ph _ ha hh]; exact collect_eq_some hrec, ?_⟩
  rw [List.map_flatMap]
  refine List.flatMap_congr fun sl hsl => ?_
  obtain ⟨c, -, h2⟩ := hcell sl hsl
  rw [h2]
  exact Table.records_entries ph h2

/-- The names in such a listing. -/
lemma listing_names (hR : Represents s G T) (ph : List ℕ) {a : Ptr} (ha : G.live a) :
    ∃ rs, s.appendDirectoryChildren ph (s.heap.size + 1) a = some rs ∧
      rs.map ReaddirRecord.childName = (slotsBelow s.heap (s.heap.size + 1) a).flatMap fun sl =>
        (T.names (G.fam a) sl.ikey).map NamespaceEntry.name := by
  obtain ⟨rs, h1, h2⟩ := hR.listing_entries ph ha
  refine ⟨rs, h1, ?_⟩
  have := congrArg (List.map Prod.fst) h2
  simpa [List.map_flatMap, Function.comp_def] using this

/-- **The listing of `/` agrees with lookups exactly if `root_` covers the root layer.** -/
lemma rootListing_iff (hR : Represents s G T) (hC : T.Marked hash n) (hN : T.AllNames IsName)
    (hlinked : s.RootLinked) : s.RootListingAgrees hash ↔ s.RootCovers := by
  have htop : canonicalizeDirectoryRoot s.heap s.root = some (G.top (G.fam s.root)) :=
    hR.heap.tree.canonicalizeDirectoryRoot_eq (hR.known hR.root_lt)
  have hlive : G.live s.root := by
    obtain ⟨top, h1, h2⟩ := hlinked
    obtain rfl := Option.some.inj (htop.symm.trans h1)
    exact (nodesBelow_live hR.heap _ (hR.heap.tree.top_spec (hR.known hR.root_lt)).1 h2).1
  have hh : (s.heap.node s.root).height < s.heap.size + 1 :=
    (hR.heap.tree.height_lt hR.root_lt).trans (by omega)
  obtain ⟨hsorted, hbelow⟩ := slotsBelow_spec hR.heap (s.heap.size + 1) hlive hh
  obtain ⟨-, hall⟩ := slotsBelow_top hR.heap (hR.known hR.root_lt)
  have hslots : s.rootSlots = some (slotsBelow s.heap (s.heap.size + 1) (G.top T.root)) := by
    rw [LhmNamespace.rootSlots, htop, hR.root_fam]
    rfl
  rw [hR.root_fam] at hbelow hall
  obtain ⟨rs, hrs, hnames⟩ := hR.listing_names [] hlive
  rw [hR.root_fam] at hnames
  have hreaddir : s.readdir hash [slash] = some rs := by
    have hp : parseAbsolutePath hash [slash] = some (ParsedPath.of hash []) := rfl
    simp [LhmNamespace.readdir, hp, joinPath, hrs]
  have hlookup : ∀ path name, componentsOf path = some [name] →
      ((∃ e, s.lookupEntry hash path = some (some e)) ↔
        name ∈ (T.names T.root (hash name).toNat).map NamespaceEntry.name) := by
    intro path name hc
    have hp : parseAbsolutePath hash path = some (ParsedPath.of hash [name]) := by
      rw [parse_eq, hc]
      rfl
    rw [hR.lookupEntry_eq hp (componentsOf_names hc)]
    have : T.find hash [name] = T.lookup T.root name (hash name).toNat := rfl
    rw [this, T.lookup_eq_find]
    constructor
    · rintro ⟨e, he⟩
      have he := Option.some.inj he
      refine List.mem_map.mpr ⟨e, List.mem_of_find?_eq_some he, ?_⟩
      simpa [entryNameEquals] using List.find?_some he
    · intro h
      obtain ⟨e, he, hname⟩ := List.mem_map.mp h
      obtain ⟨d, hd⟩ :=
        Option.isSome_iff_exists.mp (List.find?_isSome (p := (entryNameEquals · name))
        |>.mpr ⟨e, he, by simpa [entryNameEquals] using hname⟩)
      exact ⟨d, by rw [hd]⟩
  -- a name of the layer belongs to the slot of its hash
  have hhash : ∀ {x name}, name ∈ (T.names T.root x).map NamespaceEntry.name →
      (hash name).toNat = x := by
    intro x name h
    obtain ⟨e, he, rfl⟩ := List.mem_map.mp h
    exact ((hC.names_spec T.root x).2 e he).1
  constructor
  · rintro ⟨rs', h1, -, h3⟩
    obtain rfl := Option.some.inj (hreaddir.symm.trans h1)
    intro slots hs sl hsl
    obtain rfl := Option.some.inj (hslots.symm.trans hs)
    have hent := (hall sl).mp hsl
    obtain ⟨c, hc⟩ := hR.encoded _ sl hent
    have hcell : T.cell T.root sl.ikey = some c := by
      rw [hR.cell, ← hc]
      exact hent
    have hne : T.names T.root sl.ikey ≠ [] := by
      rw [ne_eq, hC.names_eq_nil, hcell]
      simp
    obtain ⟨e, he⟩ := List.exists_mem_of_ne_nil _ hne
    have hx := ((hC.names_spec T.root sl.ikey).2 e he).1
    have hname : IsName e.name := hN _ _ e he
    have hpath : componentsOf (joinPath [e.name]) = some [e.name] := by
      rw [componentsOf, parseAbsolutePath_joinPath (by simpa using hname)]
      rfl
    have hin :=
      (h3 _ _ hpath).mpr ((hlookup _ _ hpath).mpr (List.mem_map.mpr ⟨e, by rw [hx]; exact he, rfl⟩))
    rw [hnames] at hin
    obtain ⟨sl', h5, h6⟩ := List.mem_flatMap.mp hin
    have hx' : sl.ikey = sl'.ikey := by rw [← hx, hhash h6]
    have := hR.entry_of_some hcell ((hbelow sl').mp h5).1 hx'.symm
    rwa [hR.entry_of_some hcell hent rfl, ← this]
  · intro hcov
    refine ⟨rs, hreaddir, ?_, ?_⟩
    · rw [hnames, List.nodup_flatMap]
      refine ⟨fun sl _ => (hC.names_spec T.root sl.ikey).1, ?_⟩
      refine hsorted.imp fun {a b} hab => ?_
      intro name h5 h6
      have h7 := hhash h5
      have h8 := hhash h6
      rw [byIkey] at hab
      omega
    · intro path name hc
      rw [hlookup path name hc, hnames, List.mem_flatMap]
      constructor
      · rintro ⟨sl, -, h5⟩
        rwa [hhash h5]
      · intro h5
        obtain ⟨e, he, -⟩ := List.mem_map.mp h5
        have hne : T.cell T.root (hash name).toNat ≠ none := by
          rw [ne_eq, ← hC.names_eq_nil]
          exact List.ne_nil_of_mem he
        obtain ⟨c, hcell⟩ := Option.ne_none_iff_exists'.mp hne
        have hent := (hR.cell _ _ _).mp hcell
        exact ⟨_, hcov _ hslots _ ((hall _).mpr hent), h5⟩

end Represents

/-! ## Runs -/

/-- **Every run keeps the markers in order**, and counts the chains it starts. -/
lemma performAll_count : ∀ (calls : List BasicCall) {s : LhmNamespace} {G : Ghost} {T : Table}
    {n : ℕ}, Represents s G T → T.Marked hash n → T.AllNames IsName →
    (∀ call ∈ calls, componentsOf call.path ≠ none) →
    n + BasicCall.chainsStarted hash s calls < 2 ^ 32 - 1 →
    ∃ answers s' G' T' m, BasicCall.performAll hash s calls = some (answers, s') ∧
      Represents s' G' T' ∧ T'.Marked hash m ∧ T'.AllNames IsName ∧
      m ≤ n + BasicCall.chainsStarted hash s calls
  | [], s, G, T, n, hR, hC, hN, _, _ => ⟨[], s, G, T, n, rfl, hR, hC, hN, Nat.le_add_right _ _⟩
  | call :: calls, s, G, T, n, hR, hC, hN, haccept, hcount => by
      obtain ⟨cs, hc⟩ := Option.ne_none_iff_exists'.mp (haccept call (by simp))
      obtain ⟨s₁, G₁, g, h1, hg, hR₁⟩ := hR.perform hash hc
      have hstarted : BasicCall.chainsStarted hash s (call :: calls)
          = (if (T.performAt hash cs g call).2.nextId = T.nextId then 0 else 1)
            + BasicCall.chainsStarted hash s₁ calls := by
        rw [BasicCall.chainsStarted, h1]
        simp only [← hR₁.nextId, ← hR.nextId]
      rw [hstarted] at hcount ⊢
      obtain ⟨m, hC₁, hm, hN₁⟩ := hC.step hN hg (componentsOf_names hc) call (by
        intro h0
        rw [if_neg h0] at hcount
        omega)
      obtain ⟨answers, s₂, G₂, T₂, m₂, h2, hR₂, hC₂, hN₂, hm₂⟩ := performAll_count calls hR₁ hC₁ hN₁
        (fun d hd => haccept d (by simp [hd])) (by omega)
      refine ⟨(T.performAt hash cs g call).1 :: answers, s₂, G₂, T₂, m₂, ?_, hR₂,
        hC₂, hN₂, by omega⟩
      rw [BasicCall.performAll, h1]
      simp only [h2, Option.map_some]

/-- **Listing the root directory.**  In every state that a run reaches with fewer than `2 ^ 32 - 1`
started chains and with `root_` still linked in its layer, `readdir("/")` lists exactly the names
that lookups find, each once, if and only if `root_` covers the live slots of the root layer. -/
theorem performAll_rootListing (hash : Bytes → UInt64) (calls : List BasicCall)
    (haccept : ∀ call ∈ calls, componentsOf call.path ≠ none)
    (hcount : BasicCall.chainsStarted hash LhmNamespace.initialState calls < 2 ^ 32 - 1) :
    ∃ answers s, BasicCall.performAll hash LhmNamespace.initialState calls = some (answers, s) ∧
      (s.RootLinked → (s.RootListingAgrees hash ↔ s.RootCovers)) := by
  obtain ⟨answers, s, G, T, m, h1, hR, hC, hN, -⟩ := performAll_count calls initialState_represents
    (Table.initial_marked hash) (fun f x e he => by simp [Table.names, Table.initial] at he)
    haccept (by omega)
  exact ⟨answers, s, h1, hR.rootListing_iff hC hN⟩

/-- Eight files in the root directory, one more than a leaf holds. -/
def eightFiles : List BasicCall :=
  [97, 98, 99, 100, 101, 102, 103, 104].map fun c => .creatFile [slash, c] ⟨1, c.toNat⟩

/-- The eighth file splits the root leaf; `root_` stays linked as the left half. -/
theorem performAll_rootListing_eightFiles :
    ∃ answers s, BasicCall.performAll hashComponent LhmNamespace.initialState eightFiles
        = some (answers, s) ∧
      s.RootLinked ∧ (s.RootListingAgrees hashComponent ↔ s.RootCovers) := by
  obtain ⟨answers, s, hrun, hiff⟩ :=
    performAll_rootListing hashComponent eightFiles (by decide) (by decide +kernel)
  have hlinked : (BasicCall.performAll hashComponent LhmNamespace.initialState eightFiles).bind
      (fun r => (canonicalizeDirectoryRoot r.2.heap r.2.root).map fun top =>
        decide (r.2.root ∈ nodesBelow r.2.heap (r.2.heap.size + 1) top)) = some true := by
    decide +kernel
  rw [hrun, Option.bind_some, Option.map_eq_some_iff] at hlinked
  obtain ⟨top, htop, hmem⟩ := hlinked
  have hroot : s.RootLinked := ⟨top, htop, of_decide_eq_true hmem⟩
  exact ⟨answers, s, hrun, hroot, hiff hroot⟩

/-- After the split the listing of `/` misses the file `h`, which a lookup finds. -/
theorem rootListing_misses_file :
    ∃ answers s, BasicCall.performAll hashComponent LhmNamespace.initialState eightFiles
        = some (answers, s) ∧ ¬ s.RootListingAgrees hashComponent := by
  have hlist : ((BasicCall.performAll hashComponent LhmNamespace.initialState eightFiles).bind
      fun r => r.2.readdir hashComponent [slash]).map (·.map ReaddirRecord.childName)
      = some [[101], [100], [103], [102], [97], [99], [98]] := by decide +kernel
  have hfound : ((BasicCall.performAll hashComponent LhmNamespace.initialState eightFiles).bind
      fun r => r.2.lookupEntry hashComponent [slash, 104])
      = some (some ⟨.file, ⟨1, 104⟩, [104]⟩) := by decide +kernel
  cases hrun : BasicCall.performAll hashComponent LhmNamespace.initialState eightFiles with
  | none =>
      rw [hrun] at hlist
      cases hlist
  | some r =>
      obtain ⟨answers, s⟩ := r
      rw [hrun] at hlist hfound
      refine ⟨answers, s, rfl, ?_⟩
      rintro ⟨rs, h1, -, h3⟩
      simp only [Option.bind_some, h1, Option.map_some, Option.some.injEq] at hlist hfound
      have := (h3 [slash, 104] [104] (by decide)).mpr ⟨_, hfound⟩
      rw [hlist] at this
      exact absurd this (by decide)

end MasstreeLHM
