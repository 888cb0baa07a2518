import MasstreeLHM.Listing
import MasstreeLHM.PathRuns

/-!
# The children of a directory

With names that do not collide every cell of a layer is one child, so `readdir` of a directory lists
what point lookups find one level below it.

`ListsChildren` says what a listing should be: a child is in it exactly if a lookup one level below
finds an entry, with the kind and the reference of that entry, no child twice, and in the order of
the hashes.  `Table.Plain.exists_record` turns one cell into one record and one possible answer of a
lookup, and `Table.Plain.listsChildren` does so for all cells of a layer.

**`readdir_lists_children`** is about every state that a run of calls reaches in which every rename
returns true, and about every path other than `/`: where the path leads to no directory, the listing
is empty.
-/

namespace MasstreeLHM

open LhmNamespace (initialState)

variable {hash : Bytes → UInt64} {N : Bytes → Prop}

/-- A cell without collisions is one record, and what a lookup under its hash can find. -/
lemma Table.Plain.exists_record {T : Table} (hP : T.Plain hash N) {f : Ptr} {x : ℕ} {c : Content}
    (hc : T.cell f x = some c) : ∃ name e, (∀ ph, T.records ph x c = [⟨ph ++ [x], x, name, e⟩]) ∧
      (hash name).toNat = x ∧ N name ∧ ∀ n e', T.lookup f n x = some e' ↔ n = name ∧ e' = e := by
  cases c with
  | directory g =>
      obtain ⟨m, h1, rfl, h3, h4⟩ := hP.directory hc
      refine ⟨m.name, makeNamespaceEntry .directory m.ref m.name, fun ph => by rw [records, h1],
        h3, h4,
        fun n e' => ?_⟩
      rw [lookup, hc]
      simp only [directoryEntry, h1, directoryMetaNameEquals]
      by_cases hn : m.name = n
      · subst hn
        simpa using eq_comm
      · simp [hn, Ne.symm hn]
  | value v =>
      obtain ⟨h1, h2, h3⟩ := hP.value hc
      have hplain : v.kind ≠ .conflictChain := by
        rw [h1]
        decide
      refine ⟨v.name, v, fun ph => by rw [records]; exact if_pos hplain, h2, h3, fun n e' => ?_⟩
      rw [lookup, hc]
      simp only [if_pos hplain, entryNameEquals]
      by_cases hn : v.name = n
      · subst hn
        simpa using eq_comm
      · simp [hn, Ne.symm hn]

namespace LhmNamespace

/-- `rs` lists the children of the directory at `ds`, in the order of their hashes. -/
structure ListsChildren (hash : Bytes → UInt64) (s : LhmNamespace) (ds : List Bytes)
    (rs : List ReaddirRecord) :
    Prop where
  sorted : rs.Pairwise fun r r' => r.childComponentHash < r'.childComponentHash
  record : ∀ r ∈ rs, IsName r.childName ∧ r.childComponentHash = (hash r.childName).toNat ∧
    r.fullHashes = hashesOf hash (ds ++ [r.childName])
  child : ∀ path name, componentsOf path = some (ds ++ [name]) → ∀ e,
    (∃ r ∈ rs, r.childName = name ∧ r.entry = e) ↔ s.lookupEntry hash path = some (some e)

end LhmNamespace

/-- The cells of a layer, as records. -/
lemma Table.Plain.listsChildren {s : LhmNamespace} {G : Ghost} {T : Table} (hR : Represents s G T)
    (hP : T.Plain hash fun c => N c ∧ IsName c) {ds : List Bytes} {g : Ptr}
    (hloc : T.locate T.root (hashesOf hash ds) = some g) {ps : List (ℕ × Content)}
    (hps : T.Lists g ps) :
    s.ListsChildren hash ds (ps.flatMap fun p => T.records (hashesOf hash ds) p.1 p.2) := by
  have hrec := fun (p : ℕ × Content) (hp : p ∈ ps) => hP.exists_record ((hps.mem p.1 p.2).mp hp)
  refine ⟨?_, fun r hr => ?_, fun path name hpath e => ?_⟩
  · rw [List.pairwise_flatMap]
    refine ⟨fun p hp => ?_, hps.sorted.imp_of_mem fun {p q} hp hq hpq r hr r' hr' => ?_⟩
    · obtain ⟨name, e, h1, -⟩ := hrec p hp
      rw [h1]
      exact List.pairwise_singleton _ _
    · obtain ⟨name, e, h1, -⟩ := hrec p hp
      obtain ⟨name', e', h1', -⟩ := hrec q hq
      rw [h1, List.mem_singleton] at hr
      rw [h1', List.mem_singleton] at hr'
      rw [hr, hr']
      exact hpq
  · obtain ⟨p, hp, hr⟩ := List.mem_flatMap.mp hr
    obtain ⟨name, e, h1, h2, h3, -⟩ := hrec p hp
    rw [h1, List.mem_singleton] at hr
    subst hr
    exact ⟨h3.2, h2.symm, by rw [hashesOf_concat, h2]⟩
  · have hnames := componentsOf_names hpath
    have hparse : parseAbsolutePath hash path = some (ParsedPath.of hash (ds ++ [name])) := by
      rw [parse_eq, hpath]
      rfl
    rw [hR.lookupEntry_eq hparse hnames, Option.some_inj, Table.find_concat, hloc, Option.bind_some]
    constructor
    · rintro ⟨r, hr, rfl, rfl⟩
      obtain ⟨p, hp, hr⟩ := List.mem_flatMap.mp hr
      obtain ⟨name, e, h1, h2, -, h4⟩ := hrec p hp
      rw [h1, List.mem_singleton] at hr
      subst hr
      simp only at h2 ⊢
      rw [h2]
      exact (h4 name e).mpr ⟨rfl, rfl⟩
    · intro h
      cases hcell : T.cell g (hash name).toNat with
      | none =>
          rw [Table.lookup, hcell] at h
          cases h
      | some c =>
          have hp := (hps.mem (hash name).toNat c).mpr hcell
          obtain ⟨name', e', h1, -, -, h4⟩ := hrec _ hp
          obtain ⟨rfl, rfl⟩ := (h4 name e).mp h
          exact ⟨_, List.mem_flatMap.mpr ⟨_, hp, by rw [h1]; exact List.mem_singleton_self _⟩,
            rfl, rfl⟩

/-- **`readdir` of a directory other than `/` lists its children**, and of anything else nothing. -/
theorem readdir_lists_children (hash : Bytes → UInt64) (N : Bytes → Prop) (hinj : HashInj hash N)
    (calls : List PathCall) (huse : ∀ call ∈ calls, call.NamesIn N)
    (hsucc : PathCall.EachStep (fun s call => call.Succeeds hash s) hash initialState calls)
    {s : LhmNamespace} (hs : PathCall.performAll hash initialState calls = some s) {path : Bytes}
    {ds : List Bytes} (hp : componentsOf path = some ds) (hne : ds ≠ []) :
    ∃ rs, s.readdir hash path = some rs ∧
      (InUse N ds → (∃ e, s.lookupEntry hash path = some (some e) ∧ e.kind = .directory) →
        s.ListsChildren hash ds rs) ∧
      ((¬ ∃ e, s.lookupEntry hash path = some (some e) ∧ e.kind = .directory) → rs = []) := by
  have hinj' : HashInj hash fun c => N c ∧ IsName c := fun a b ha hb => hinj a b ha.1 hb.1
  have huse' : ∀ call ∈ calls, call.NamesIn fun c => N c ∧ IsName c :=
    fun call hcall p hp cs hcs c hc =>
    ⟨huse call hcall p hp cs hcs c hc, componentsOf_names hcs c hc⟩
  obtain ⟨t, G, T, hR, hS⟩ := LhmNamespace.standsFor_performAll hinj' huse' hsucc hs
  obtain ⟨rs, h1, h2⟩ := hR.readdir_eq hash hp hne
  have hparse : parseAbsolutePath hash path = some (ParsedPath.of hash ds) := by
    rw [parse_eq, hp]
    rfl
  rw [hR.lookupEntry_eq hparse (componentsOf_names hp)]
  refine ⟨rs, h1, fun hds hdir => ?_, fun hno => ?_⟩
  · rcases h2 with ⟨e, g, ps, -, -, hloc, hps, rfl⟩ | ⟨h3, -⟩
    · exact Table.Plain.listsChildren hR hS.plain hloc hps
    · -- the hashes of a directory lead to its layer
      obtain ⟨e, he, hk⟩ := hdir
      have hds' : InUse (fun c => N c ∧ IsName c) ds :=
        fun c hc => ⟨hds c hc, componentsOf_names hp c hc⟩
      obtain ⟨f, hf⟩ := (hS.plain.locate_iff hinj' hds').mpr ⟨e, Option.some.inj he, hk⟩
      rw [h3 e (Option.some.inj he) hk] at hf
      cases hf
  · rcases h2 with ⟨e, g, ps, he, hk, -⟩ | ⟨-, rfl⟩
    · exact absurd ⟨e, by rw [he], hk⟩ hno
    · rfl

/-- The directory `d` after a file has been moved into it: its listing has one record. -/
theorem readdir_lists_children_sample :
    ∃ s, PathCall.performAll hashComponent initialState sampleMoves = some s ∧
    ∃ rs, s.readdir hashComponent [47, 100] = some rs ∧ rs ≠ [] ∧
    s.ListsChildren hashComponent [[100]] rs := by
  have hdir : ((PathCall.performAll hashComponent initialState sampleMoves).bind fun s =>
      (s.lookupEntry hashComponent [47, 100]).map fun o => o.map NamespaceEntry.kind)
        = some (some .directory) := by decide +kernel
  have hrs : ((PathCall.performAll hashComponent initialState sampleMoves).bind fun s =>
      (s.readdir hashComponent [47, 100]).map List.length) = some 1 := by decide +kernel
  obtain ⟨s, hs, h1⟩ := Option.bind_eq_some_iff.mp hdir
  obtain ⟨o, h2, h3⟩ := Option.map_eq_some_iff.mp h1
  obtain ⟨e, rfl, hk⟩ := Option.map_eq_some_iff.mp h3
  rw [hs, Option.bind_some] at hrs
  obtain ⟨rs, h4, h5, -⟩ := readdir_lists_children hashComponent _ hashInj_sampleNames sampleMoves
    namesIn_sampleMoves succeeds_sampleMoves hs (show componentsOf [47, 100] =
      some [[100]] by decide) (by decide)
  refine ⟨s, hs, rs, h4, ?_, h5 (fun c hc => ?_) ⟨e, h2, hk⟩⟩
  · rintro rfl
    rw [h4] at hrs
    cases hrs
  · rw [List.mem_singleton.mp hc]
    exact List.mem_cons_self

end MasstreeLHM
