import MasstreeLHM.RootListing
import MasstreeLHM.Listing

/-!
# A colliding file

What `creat_file` does when the slot of the new name holds a file or a chain already.  In the root
directory the new file joins the slot and nothing else changes; in any other directory the marker of
the chain goes to the root layer, and the file is lost.

`ChainInserted` is what the call should leave: the slot has its old entries and the new one, they
are all found and listed, and nothing changes elsewhere.  `Table.JoinsRoot` is the same in the
abstract table.  **`chainInserted_root`** proves it for the root directory, with one more condition
for the listing of `/`, that the slot lies in the range of the node that `root_` points to
(`rootListing_cell`).

Outside the root directory the new name is not found afterwards (`chainInserted_lost`): the cell
keeps its value, and what the call changes is a cell of the root layer with the same hash.
**`performAll_chainInserted`** states both for every state that a run reaches.
-/

namespace MasstreeLHM

variable {hash : Bytes → UInt64}

namespace LhmNamespace

/-- The state `s'` after `creat_file` of the name `b` in the directory `cs`: the slot has its old
entries and the new one, they are listed, nothing changes in other directories, and each of them
can be removed alone. -/
structure ChainInserted (hash : Bytes → UInt64) (s : LhmNamespace) (cs : List Bytes) (b : Bytes)
    (ref : InodeRef) (s' : LhmNamespace) : Prop where
  found : s'.lookupEntry hash (joinPath (cs ++ [b])) = some (some ⟨.file, ref, b⟩)
  kept : ∀ a e, IsName a → hash a = hash b →
    s.lookupEntry hash (joinPath (cs ++ [a])) = some (some e) →
    s'.lookupEntry hash (joinPath (cs ++ [a])) = some (some e)
  listed : ∃ rs, s'.readdir hash (joinPath cs) = some rs ∧ ∀ a e, IsName a → hash a = hash b →
    s'.lookupEntry hash (joinPath (cs ++ [a])) = some (some e) →
    ∃ r ∈ rs, r.childName = a ∧ r.entry = e
  elsewhere : ∀ ds, (∀ c ∈ ds, IsName c) → hashesOf hash ds ≠ hashesOf hash cs →
    (∀ a, IsName a → s'.lookupEntry hash (joinPath (ds ++ [a]))
      = s.lookupEntry hash (joinPath (ds ++ [a]))) ∧
    s'.readdir hash (joinPath ds) = s.readdir hash (joinPath ds)
  removed : ∀ a e, IsName a → hash a = hash b →
    s'.lookupEntry hash (joinPath (cs ++ [a])) = some (some e) →
    ∃ s'', s'.removeEntry hash (joinPath (cs ++ [a])) = some (true, s'') ∧
      s''.lookupEntry hash (joinPath (cs ++ [a])) = some none ∧
      ∀ ds c, (∀ d ∈ ds ++ [c], IsName d) → ¬ (hashesOf hash ds = hashesOf hash cs ∧ c = a) →
        s''.lookupEntry hash (joinPath (ds ++ [c])) = s'.lookupEntry hash (joinPath (ds ++ [c]))

/-- The node that `root_` points to after `insert_into_conflict_chain` at the slot value `v`: a
new chain runs `fix_root`. -/
def rootAfterInsert (s : LhmNamespace) (v : NamespaceEntry) : Ptr :=
  if v.kind = .conflictChain then s.root else s.fixRoot.root

end LhmNamespace

namespace Represents

variable {s : LhmNamespace} {G : Ghost} {T : Table} {n : ℕ} {cs : List Bytes} {b : Bytes}
  {f : Ptr} {v : NamespaceEntry}

lemma lookup_joinPath (hR : Represents s G T) (hash : Bytes → UInt64)
    (hcs : ∀ c ∈ cs, IsName c) : s.lookupEntry hash (joinPath cs) = some (T.find hash cs) :=
  hR.lookupEntry_eq (parseAbsolutePath_joinPath hcs) hcs

lemma componentsOf_joinPath (hcs : ∀ c ∈ cs, IsName c) : componentsOf (joinPath cs) = some cs := by
  rw [componentsOf, parseAbsolutePath_joinPath hcs]
  rfl

/-- A collision outside the root directory: the new name is not found. -/
lemma chainInserted_lost (hR : Represents s G T) (hC : T.Marked hash n) (hn : n + 2 < 2 ^ 32)
    (hnames : ∀ c ∈ cs ++ [b], IsName c) (hfits : entryNameFits b = true)
    (hloc : T.locate T.root (hashesOf hash cs) = some f) (hf : f ≠ T.root)
    (hcell : T.cell f (hash b).toNat = some (.value v))
    (habsent : T.lookup f b (hash b).toNat = none) (ref : InodeRef) {s' : LhmNamespace}
    (hs' : s.creatFile hash (joinPath (cs ++ [b])) ref = some (true, s')) :
    ¬ s.ChainInserted hash cs b ref s' := by
  intro hins
  have hp : T.parentOf hash (cs ++ [b]) = some (f, b) := by
    rw [Table.parentOf_concat, hloc]
    rfl
  have hk : v.kind ≠ .conflictChain := by
    intro h0
    exact hf (hC.marker ⟨v, hcell, h0, rfl⟩).1
  have hname : v.name ≠ b := by
    rintro rfl
    simp [Table.lookup, hcell, hk, entryNameEquals] at habsent
  obtain ⟨h1, h2, h3, -⟩ := hC.create_start ref hp hfits ⟨f, b, v, hp, hcell, hk, hname⟩ hn
  obtain ⟨s₁, G₁, h4, hR₁, -⟩ := hR.createFile_spec hash hnames ref .file
  have hsame : s₁ = s' := by
    have : s.creatFile hash (joinPath (cs ++ [b])) ref
        = s.createFileFromParsed (ParsedPath.of hash (cs ++ [b])) ref .file := by
      simp [LhmNamespace.creatFile, LhmNamespace.createEntry, parseAbsolutePath_joinPath hnames,
        LhmNamespace.createEntryFromParsed]
    rw [this, h4] at hs'
    exact (Prod.mk.inj (Option.some.inj hs')).2
  subst hsame
  have hfound := hins.found
  rw [hR₁.lookup_joinPath hash hnames, Table.find_concat,
    (Table.create_sameBeyond hp ref .file).root, Table.locate_congr h2, hloc, Option.bind_some,
    Table.lookup, h3 f _ hf, hcell] at hfound
  simp [hk, entryNameEquals, hname] at hfound

/-- A node linked below the root of its layer is live. -/
lemma live_of_linked (hR : Represents s G T) {r : Ptr}
    (hlinked : ∃ top, canonicalizeDirectoryRoot s.heap r = some top ∧
      r ∈ nodesBelow s.heap (s.heap.size + 1) top) (hr : r < s.heap.size) : G.live r := by
  obtain ⟨top, h1, h2⟩ := hlinked
  rw [hR.heap.tree.canonicalizeDirectoryRoot_eq (hR.known hr)] at h1
  obtain rfl := Option.some.inj h1
  exact (nodesBelow_live hR.heap _ (hR.heap.tree.top_spec (hR.known hr)).1 h2).1

/-- The listing of `/` has the entries of a cell exactly if the slot lies in the range of
`root_`. -/
lemma rootListing_cell (hR : Represents s G T) (hlive : G.live s.root) (hC : T.Marked hash n) :
    ∃ rs, s.readdir hash [slash] = some rs ∧
      ∀ a e, ((∃ r ∈ rs, r.childName = a ∧ r.entry = e) ↔ e ∈ T.names T.root (hash a).toNat ∧
        e.name = a ∧ G.lo s.root ≤ (hash a).toNat ∧ (hash a).toNat < G.hi s.root) := by
  have hh : (s.heap.node s.root).height < s.heap.size + 1 :=
    (hR.heap.tree.height_lt hR.root_lt).trans (by omega)
  obtain ⟨-, hbelow⟩ := slotsBelow_spec hR.heap (s.heap.size + 1) hlive hh
  obtain ⟨rs, h1, h2⟩ := hR.listing_entries [] hlive
  rw [hR.root_fam] at hbelow h2
  refine ⟨rs, ?_, ?_⟩
  · have hp : parseAbsolutePath hash [slash] = some (ParsedPath.of hash []) := rfl
    simp [LhmNamespace.readdir, hp, joinPath, h1]
  · intro a e
    have hmem : (∃ r ∈ rs, r.childName = a ∧ r.entry = e) ↔
        (a, e) ∈ rs.map (fun r => (r.childName, r.entry)) := by
      rw [List.mem_map]
      simp only [Prod.mk.injEq]
    rw [hmem, h2, List.mem_flatMap]
    constructor
    · rintro ⟨sl, h3, h4⟩
      obtain ⟨e', h5, h6⟩ := List.mem_map.mp h4
      obtain ⟨rfl, rfl⟩ := Prod.mk.inj h6
      have hx := ((hC.names_spec T.root sl.ikey).2 e' h5).1
      obtain ⟨-, h7, h8⟩ := (hbelow sl).mp h3
      rw [hx]
      exact ⟨h5, rfl, h7, h8⟩
    · rintro ⟨h3, rfl, h4, h5⟩
      have hne : T.cell T.root (hash e.name).toNat ≠ none := by
        rw [ne_eq, ← hC.names_eq_nil]
        exact List.ne_nil_of_mem h3
      obtain ⟨c, hcell⟩ := Option.ne_none_iff_exists'.mp hne
      exact ⟨⟨_, c.encode⟩, (hbelow _).mpr ⟨(hR.cell _ _ _).mp hcell, h4, h5⟩,
        List.mem_map.mpr ⟨e, h3, rfl⟩⟩

end Represents

/-- A change of values in the root layer does not change the listing of another directory. -/
lemma Table.ListsPath.eq_of_sameBeyond {T T' : Table} {n : ℕ} {ds : List Bytes}
    {rs rs' : List ReaddirRecord} (hC : T.Marked hash n) (hsame : T.SameBeyond T' T.root)
    (hdir : ∀ a y b, T'.cell a y = some (.directory b) ↔ T.cell a y = some (.directory b))
    (hds : ds ≠ []) (h : T.ListsPath hash ds rs) (h' : T'.ListsPath hash ds rs') : rs' = rs := by
  have hloc : T'.locate T'.root (hashesOf hash ds) = T.locate T.root (hashesOf hash ds) := by
    rw [hsame.root, locate_congr hdir]
  obtain ⟨es, a, rfl⟩ : ∃ es a, ds = es ++ [a] := by
    rcases List.eq_nil_or_concat ds with rfl | ⟨es, a, rfl⟩
    · exact absurd rfl hds
    · exact ⟨es, a, List.concat_eq_append⟩
  -- a directory is found as before
  have hfind : ∀ g, T.locate T.root (hashesOf hash (es ++ [a])) = some g →
      T'.find hash (es ++ [a]) = T.find hash (es ++ [a]) := by
    intro g hg
    rw [hashesOf_concat] at hg
    obtain ⟨f, h1, h2⟩ := locate_concat hg
    rw [find_concat, find_concat, hsame.root, locate_congr hdir, h1, Option.bind_some,
      Option.bind_some, lookup, lookup, h2, (hdir f _ g).mpr h2]
    simp only [directoryEntry, hsame.info]
  rcases h with ⟨e, g, ps, h1, h2, h3, h4, rfl⟩ | ⟨h1, rfl⟩
  · have hne : g ≠ T.root := by
      rintro rfl
      rw [hashesOf_concat] at h3
      obtain ⟨f, -, h5⟩ := locate_concat h3
      exact hC.tree.root f _ h5
    rcases h' with ⟨e', g', qs, -, -, h5, h6, rfl⟩ | ⟨h5, -⟩
    · rw [hloc, h3] at h5
      obtain rfl := Option.some.inj h5
      obtain rfl := h4.unique h6 fun y => hsame.cell g y hne hne
      refine List.flatMap_congr fun p hp => ?_
      have hcell := (h4.mem p.1 p.2).mp hp
      cases hd : p.2 with
      | directory d => simp only [records, hsame.info]
      | value v =>
          rw [hd] at hcell
          have hk : v.kind ≠ .conflictChain := fun h0 =>
            hne (hC.marker ⟨v, hcell, h0, rfl⟩).1
          simp [records, hk]
    · have := h5 e (by rw [hfind g h3, h1]) h2
      rw [hloc, h3] at this
      cases this
  · rcases h' with ⟨e', g', qs, h5, h6, h7, -, -⟩ | ⟨-, rfl⟩
    · rw [hloc] at h7
      have := h1 e' (by rw [← hfind g' h7, h5]) h6
      rw [h7] at this
      cases this
    · rfl

namespace Table

/-- The file `b` has joined the files of its hash in the root directory. -/
structure JoinsRoot (hash : Bytes → UInt64) (T T' : Table) (b : Bytes) (ref : InodeRef) : Prop where
  before : ∃ n, T.Marked hash n
  after : ∃ n, T'.Marked hash n
  same : T.SameBeyond T' T.root
  renames : T.Renames T' T.root (hash b).toNat (T.names T.root (hash b).toNat ++ [⟨.file, ref, b⟩])
  directory : ∀ a y d, T'.cell a y = some (.directory d) ↔ T.cell a y = some (.directory d)
  not_directory : ∀ g, T.cell T.root (hash b).toNat ≠ some (.directory g)
  absent : T.lookup T.root b (hash b).toNat = none

variable {T T' : Table} {a b c : Bytes} {ref : InodeRef} {ds : List Bytes}

/-- What is found under the hash of the slot. -/
lemma JoinsRoot.find_slot (h : T.JoinsRoot hash T' b ref) (ha : hash a = hash b) :
    T'.find hash [a] = if a = b then some ⟨.file, ref, b⟩ else T.find hash [a] := by
  have hrootloc : T.locate T.root (hashesOf hash []) = some T.root := rfl
  have h3 := h.renames.find hash h.directory [] a
  rw [if_pos ⟨hrootloc, by rw [ha]⟩,
    find_concat_entry _ _ _ (by rw [← T.lookup_eq_find]; exact h.absent)] at h3
  rw [show [a] = [] ++ [a] from rfl, h3]
  split_ifs with h4
  · rfl
  · rw [Table.find_concat, hrootloc, Option.bind_some, ha, T.lookup_eq_find]

/-- Nothing changes in other directories. -/
lemma JoinsRoot.find_elsewhere (h : T.JoinsRoot hash T' b ref) (hne : hashesOf hash ds ≠ []) :
    T'.find hash (ds ++ [c]) = T.find hash (ds ++ [c]) := by
  obtain ⟨n, hC⟩ := h.before
  rw [h.renames.find hash h.directory, if_neg]
  rintro ⟨h3, -⟩
  exact hne (hC.tree.path_unique h3 (T.locate_nil T.root))

/-- A file of the slot is removed alone. -/
lemma JoinsRoot.remove (h : T.JoinsRoot hash T' b ref) {e : NamespaceEntry} (ha : hash a = hash b)
    (he : T'.find hash [a] = some e) :
    (T'.remove hash [a]).1 = true ∧ (T'.remove hash [a]).2.find hash [a] = none ∧
      ∀ ds c, ¬ (hashesOf hash ds = [] ∧ c = a) →
        (T'.remove hash [a]).2.find hash (ds ++ [c]) = T'.find hash (ds ++ [c]) := by
  obtain ⟨m, hC'⟩ := h.after
  have hp' : T'.parentOf hash [a] = some (T'.root, a) := rfl
  have hnodir : ∀ g, T'.cell T'.root (hash a).toNat ≠ some (.directory g) := by
    intro g h0
    rw [h.same.root, ha, h.directory] at h0
    exact h.not_directory g h0
  have h4 : T'.lookup T'.root a (hash a).toNat = some e := he
  rcases hC'.remove hp' hC'.closed.root with ⟨g1, -, -, -, -, g3, g4⟩ | ⟨-, -, g1⟩
  swap
  · rcases g1 with g1 | ⟨g, g1, -⟩
    · rw [h4] at g1
      cases g1
    · exact absurd g1 (hnodir g)
  have hdir' : ∀ c y d, (T'.remove hash [a]).2.cell c y = some (.directory d) ↔
      T'.cell c y = some (.directory d) := by
    intro c y d
    rw [g4]
    refine ⟨fun h0 => h0.1, fun h0 => ⟨h0, ?_⟩⟩
    rintro ⟨rfl, rfl⟩
    exact hnodir d h0
  have hfind := fun ds c => g3.find hash hdir' ds c
  refine ⟨g1, ?_, fun ds c hne => ?_⟩
  · have h5 := hfind [] a
    rw [if_pos ⟨rfl, rfl⟩, find_eraseIdx _ _ _ (hC'.names_spec _ _).1, if_pos rfl] at h5
    exact h5
  · rw [hfind]
    split_ifs with h6
    · have hnil : hashesOf hash ds = [] :=
        hC'.tree.path_unique h6.1 (T'.locate_nil T'.root)
      have hca : c ≠ a := fun h0 => hne ⟨hnil, h0⟩
      rw [find_eraseIdx _ _ _ (hC'.names_spec _ _).1, if_neg hca, Table.find_concat, h6.1,
        Option.bind_some, T'.lookup_eq_find, h6.2]
    · rfl

end Table

namespace Represents

variable {s s' : LhmNamespace} {G G' : Ghost} {T T' : Table} {n : ℕ} {a b : Bytes}
  {v : NamespaceEntry} {ref : InodeRef}

lemma isName_singleton (ha : IsName a) : ∀ c ∈ [a], IsName c := by simpa using ha

/-- What the call has done to the table is what it has done to the namespace.  The listing of `/`
has the slot, if it lies in the range of `root_`. -/
lemma chainInserted_of_joins (hR : Represents s G T) (hR' : Represents s' G' T')
    (h : T.JoinsRoot hash T' b ref) (hb : IsName b) (hlive : G'.live s'.root)
    (hlo : G'.lo s'.root ≤ (hash b).toNat) (hhi : (hash b).toNat < G'.hi s'.root) :
    s.ChainInserted hash [] b ref s' := by
  obtain ⟨n, hC⟩ := h.before
  obtain ⟨m, hC'⟩ := h.after
  obtain ⟨rs, hrs, hlist⟩ := hR'.rootListing_cell hlive hC'
  refine ⟨?_, ?_, ?_, ?_, ?_⟩
  · rw [List.nil_append, hR'.lookup_joinPath hash (isName_singleton hb), h.find_slot rfl,
      if_pos rfl]
  · intro a e ha hab h3
    rw [List.nil_append, hR.lookup_joinPath hash (isName_singleton ha)] at h3
    rw [List.nil_append, hR'.lookup_joinPath hash (isName_singleton ha), h.find_slot hab, if_neg,
      ← h3]
    rintro rfl
    have h4 : T.find hash [a] = none := h.absent
    rw [h4] at h3
    cases h3
  · refine ⟨rs, hrs, fun a e ha hab h3 => ?_⟩
    rw [List.nil_append, hR'.lookup_joinPath hash (isName_singleton ha)] at h3
    have h4 : T'.lookup T'.root a (hash a).toNat = some e := Option.some.inj h3
    rw [T'.lookup_eq_find] at h4
    refine (hlist a e).mpr ⟨List.mem_of_find?_eq_some h4, ?_, ?_, ?_⟩
    · simpa [entryNameEquals] using List.find?_some h4
    · rwa [hab]
    · rwa [hab]
  · intro ds hds hne
    have hne' : ds ≠ [] := fun h0 => hne (by rw [h0])
    constructor
    · intro a ha
      have hnames' : ∀ c ∈ ds ++ [a], IsName c := by
        intro c hc
        rcases List.mem_append.mp hc with hc | hc
        · exact hds c hc
        · exact List.mem_singleton.mp hc ▸ ha
      rw [hR'.lookup_joinPath hash hnames', hR.lookup_joinPath hash hnames', h.find_elsewhere hne]
    · have hcomp := componentsOf_joinPath hds
      obtain ⟨rs₁, h3, h4⟩ := hR.readdir_eq hash hcomp hne'
      obtain ⟨rs₂, h5, h6⟩ := hR'.readdir_eq hash hcomp hne'
      rw [h3, h5, h4.eq_of_sameBeyond hC h.same h.directory hne' h6]
  · intro a e ha hab h3
    rw [List.nil_append] at h3 ⊢
    rw [hR'.lookup_joinPath hash (isName_singleton ha)] at h3
    obtain ⟨g1, g2, g3⟩ := h.remove hab (Option.some.inj h3)
    obtain ⟨s'', G'', h5, hR'', -⟩ := hR'.removeEntry_spec hash (isName_singleton ha)
    refine ⟨s'', ?_, ?_, ?_⟩
    · rw [g1] at h5
      rw [LhmNamespace.removeEntry, parseAbsolutePath_joinPath (isName_singleton ha)]
      exact h5
    · rw [hR''.lookup_joinPath hash (isName_singleton ha)]
      exact congrArg some g2
    · intro ds c hdc hne
      rw [hR''.lookup_joinPath hash hdc, hR'.lookup_joinPath hash hdc, g3 ds c hne]

/-- **A collision in the root directory**: the new file joins the slot.  It is listed if the slot
lies in the range of `root_`. -/
lemma chainInserted_root (hR : Represents s G T) (hC : T.Marked hash n) (hn : n + 2 < 2 ^ 32)
    (hb : IsName b) (hfits : entryNameFits b = true)
    (hcell : T.cell T.root (hash b).toNat = some (.value v))
    (habsent : T.lookup T.root b (hash b).toNat = none)
    (hlive : G.live (s.rootAfterInsert v)) (ref : InodeRef) :
    ∃ s', s.creatFile hash (joinPath [b]) ref = some (true, s') ∧
      (s.ChainInserted hash [] b ref s' ↔ G.lo (s.rootAfterInsert v) ≤ (hash b).toNat ∧
        (hash b).toNat < G.hi (s.rootAfterInsert v)) := by
  have hp : T.parentOf hash [b] = some (T.root, b) := rfl
  rcases hC.create ref hp hC.closed.root (fun _ _ => ⟨rfl, hn⟩) with h | ⟨-, -, h1⟩
  swap
  · exact absurd ⟨hfits, by rw [hcell]; simp, habsent⟩ h1
  obtain ⟨m, hC', -⟩ := h.marked
  obtain ⟨s', G', h2, hR', -, hafter⟩ := hR.createFile_spec hash (isName_singleton hb) ref .file
  obtain ⟨rfl, hroot⟩ := hafter _ _ v hp hcell h.done
  have hjoin : T.JoinsRoot hash (T.create hash [b] ref .file).2 b ref :=
    ⟨⟨n, hC⟩, ⟨m, hC'⟩, Table.create_sameBeyond hp ref .file, h.renames, h.directory,
      by simp [hcell], habsent⟩
  rw [h.done] at h2
  have hcall : s.creatFile hash (joinPath [b]) ref = some (true, s') := by
    simp [LhmNamespace.creatFile, LhmNamespace.createEntry,
      parseAbsolutePath_joinPath (isName_singleton hb), LhmNamespace.createEntryFromParsed, h2]
  have hroot' : s'.root = s.rootAfterInsert v := hroot
  have hrootlive : G'.live s'.root := hroot' ▸ hlive
  refine ⟨s', hcall, fun hins => ?_, fun hvis => ?_⟩
  · obtain ⟨rs, hrs, hlist⟩ := hR'.rootListing_cell hrootlive hC'
    obtain ⟨rs', h3, h4⟩ := hins.listed
    have : rs' = rs := Option.some.inj (h3.symm.trans hrs)
    subst this
    obtain ⟨r, h5, h6⟩ := h4 b _ hb rfl hins.found
    rw [← hroot']
    exact ((hlist b _).mp ⟨r, h5, h6⟩).2.2
  · rw [← hroot'] at hvis
    exact hR.chainInserted_of_joins hR' hjoin hb hrootlive hvis.1 hvis.2

end Represents

/-- **A colliding file.**  In every state that a run reaches, let `creat_file` of the name `b` in
the directory `cs` find a slot with a file or a chain, without an entry `b`.  If `root_` stays
linked, the call returns true and adds the file to the slot, and only there, exactly if the
directory is `/` and the slot lies below `root_`. -/
theorem performAll_chainInserted (hash : Bytes → UInt64) (calls : List BasicCall)
    (haccept : ∀ call ∈ calls, componentsOf call.path ≠ none)
    (hcount : BasicCall.chainsStarted hash LhmNamespace.initialState calls < 2 ^ 32 - 2) :
    ∃ answers s, BasicCall.performAll hash LhmNamespace.initialState calls = some (answers, s) ∧
      ∀ (cs : List Bytes) (b : Bytes) (ref : InodeRef) (r : Ptr) (v : NamespaceEntry),
        (∀ c ∈ cs ++ [b], IsName c) → entryNameFits b = true →
        s.locateDirectoryRoot (ParsedPath.of hash cs) = some (some r) →
        lookupChildSlotFromParentRoot s.heap r (hash b).toNat = some (.value v) →
        s.lookupEntry hash (joinPath (cs ++ [b])) = some none →
        (∃ top, canonicalizeDirectoryRoot s.heap (s.rootAfterInsert v) = some top ∧
          s.rootAfterInsert v ∈ nodesBelow s.heap (s.heap.size + 1) top) →
        ((∃ s', s.creatFile hash (joinPath (cs ++ [b])) ref = some (true, s') ∧
            s.ChainInserted hash cs b ref s') ↔
          cs = [] ∧ ∃ sl ∈ slotsBelow s.heap (s.heap.size + 1) (s.rootAfterInsert v),
            sl.ikey = (hash b).toNat) := by
  obtain ⟨answers, s, G, T, m, h1, hR, hC, -, hm⟩ := performAll_count calls initialState_represents
    (Table.initial_marked hash) (fun f x e he => by simp [Table.names, Table.initial] at he)
    haccept (by omega)
  refine ⟨answers, s, h1, ?_⟩
  intro cs b ref r v hnames hfits hlocate hslot habsent hlinked
  have hcs : ∀ c ∈ cs, IsName c := fun c hc => hnames c (by simp [hc])
  obtain ⟨o, h2, h3, h4, -⟩ := hR.locateDirectoryRoot_eq hash hcs
  obtain rfl := Option.some.inj (h2.symm.trans hlocate)
  have hloc : T.locate T.root (hashesOf hash cs) = some (G.fam r) := h3.symm
  have hcell : T.cell (G.fam r) (hash b).toNat = some (.value v) := by
    rw [hR.lookupChildSlot_eq (h4 r rfl) (hash_lt hash b)] at hslot
    cases hc : T.cell (G.fam r) (hash b).toNat with
    | none => rw [hc] at hslot; cases hslot
    | some d =>
        rw [hc] at hslot
        cases d with
        | directory g => cases hslot
        | value w =>
            obtain rfl := ChildSlot.value.inj (Option.some.inj hslot)
            rfl
  have hnone : T.lookup (G.fam r) b (hash b).toNat = none := by
    rw [hR.lookup_joinPath hash hnames, Table.find_concat, hloc] at habsent
    exact Option.some.inj habsent
  have hafter : s.rootAfterInsert v < s.heap.size ∧ G.fam (s.rootAfterInsert v) = T.root := by
    rw [LhmNamespace.rootAfterInsert]
    split_ifs
    · exact ⟨hR.root_lt, hR.root_fam⟩
    · have hfix := hR.fixRoot
      have hheap : s.fixRoot.heap = s.heap := by
        rw [LhmNamespace.fixRoot]
        split_ifs <;> rfl
      exact ⟨hheap ▸ hfix.root_lt, hfix.root_fam⟩
  have hlive := hR.live_of_linked hlinked hafter.1
  have hh : (s.heap.node (s.rootAfterInsert v)).height < s.heap.size + 1 :=
    (hR.heap.tree.height_lt hafter.1).trans (by omega)
  obtain ⟨-, hbelow⟩ := slotsBelow_spec hR.heap (s.heap.size + 1) hlive hh
  rw [hafter.2] at hbelow
  by_cases hf : G.fam r = T.root
  · -- the root directory
    have hnil : hashesOf hash cs = [] := hC.tree.path_unique (hf ▸ hloc) (Table.locate_nil T T.root)
    obtain rfl : cs = [] := by simpa [hashesOf] using hnil
    rw [hf] at hcell hnone
    obtain ⟨s', h5, h6⟩ :=
      hR.chainInserted_root hC (by omega) (hnames b (by simp)) hfits hcell hnone
      hlive ref
    have hvis : (∃ sl ∈ slotsBelow s.heap (s.heap.size + 1) (s.rootAfterInsert v),
        sl.ikey = (hash b).toNat) ↔ G.lo (s.rootAfterInsert v) ≤ (hash b).toNat ∧
          (hash b).toNat < G.hi (s.rootAfterInsert v) := by
      constructor
      · rintro ⟨sl, h7, h8⟩
        rw [← h8]
        exact ((hbelow sl).mp h7).2
      · intro h7
        exact ⟨⟨_, (Content.value v).encode⟩, (hbelow _).mpr ⟨(hR.cell _ _ _).mp hcell, h7⟩, rfl⟩
    rw [hvis, ← h6]
    constructor
    · rintro ⟨s₁, h7, h8⟩
      have : s₁ = s' := by
        rw [List.nil_append, h5] at h7
        exact (Prod.mk.inj (Option.some.inj h7)).2.symm
      exact ⟨rfl, this ▸ h8⟩
    · rintro ⟨-, h7⟩
      exact ⟨s', h5, h7⟩
  · refine iff_of_false ?_ ?_
    · rintro ⟨s', h5, h6⟩
      exact hR.chainInserted_lost hC (by omega) hnames hfits hloc hf hcell hnone ref h5 h6
    · rintro ⟨rfl, -⟩
      exact hf (Option.some.inj hloc).symm

/-- A directory `d` with a file of the first name. -/
def fileInDirectory : List BasicCall :=
  [.mkdir (joinPath [[100]]) ⟨1, 1⟩, .creatFile (joinPath [[100], collidingName]) ⟨1, 2⟩]

/-- One file in `/`. -/
def rootFile : List BasicCall := [.creatFile (joinPath [collidingName]) ⟨1, 2⟩]

/-- In `/` the second name of the same hash starts a chain, and the call does what it should. -/
theorem performAll_chainInserted_rootFile :
    ∃ answers s, BasicCall.performAll hashComponent LhmNamespace.initialState rootFile
        = some (answers, s) ∧
      ∃ s', s.creatFile hashComponent (joinPath [collidingName']) ⟨1, 3⟩ = some (true, s') ∧
        s.ChainInserted hashComponent [] collidingName' ⟨1, 3⟩ s' := by
  obtain ⟨answers, s, hrun, hiff⟩ :=
    performAll_chainInserted hashComponent rootFile (by decide) (by decide +kernel)
  have hslot : ((BasicCall.performAll hashComponent LhmNamespace.initialState rootFile).bind
      fun r => (r.2.locateDirectoryRoot (ParsedPath.of hashComponent [])).map fun a =>
        (a, a.bind fun a => lookupChildSlotFromParentRoot r.2.heap a
          (hashComponent collidingName').toNat))
      = some (some 0, some (.value ⟨.file, ⟨1, 2⟩, collidingName⟩)) := by decide +kernel
  have habsent : ((BasicCall.performAll hashComponent LhmNamespace.initialState rootFile).bind
      fun r => r.2.lookupEntry hashComponent (joinPath [collidingName'])) = some none := by
    decide +kernel
  have hlinked : ((BasicCall.performAll hashComponent LhmNamespace.initialState rootFile).bind
      fun r => (canonicalizeDirectoryRoot r.2.heap
        (r.2.rootAfterInsert ⟨.file, ⟨1, 2⟩, collidingName⟩)).map fun top =>
          (decide (r.2.rootAfterInsert ⟨.file, ⟨1, 2⟩, collidingName⟩ ∈
            nodesBelow r.2.heap (r.2.heap.size + 1) top),
            decide ((hashComponent collidingName').toNat ∈ (slotsBelow r.2.heap
              (r.2.heap.size + 1) (r.2.rootAfterInsert ⟨.file, ⟨1, 2⟩, collidingName⟩)).map
                Slot.ikey)))
      = some (true, true) := by decide +kernel
  rw [hrun, Option.bind_some] at hslot habsent hlinked
  obtain ⟨a, hroot, ha⟩ := Option.map_eq_some_iff.mp hslot
  obtain ⟨rfl, hvalue⟩ := Prod.mk.inj ha
  obtain ⟨top, htop, hboth⟩ := Option.map_eq_some_iff.mp hlinked
  obtain ⟨hmem, hbelow⟩ := Prod.mk.inj hboth
  refine ⟨answers, s, hrun, (hiff [] collidingName' ⟨1, 3⟩ 0 _ ?_ (by decide) hroot hvalue habsent
    ⟨top, htop, of_decide_eq_true hmem⟩).mpr ⟨rfl, List.mem_map.mp (of_decide_eq_true hbelow)⟩⟩
  intro c hc
  obtain rfl : c = collidingName' := by simpa using hc
  exact ⟨by decide, by decide, by decide⟩

/-- In the directory `d` the second name is refused, although its slot holds a file of another
name. -/
theorem chainInserted_fails_in_directory :
    ∃ answers s, BasicCall.performAll hashComponent LhmNamespace.initialState fileInDirectory
        = some (answers, s) ∧
      (∃ r v, s.locateDirectoryRoot (ParsedPath.of hashComponent [[100]]) = some (some r) ∧
        lookupChildSlotFromParentRoot s.heap r (hashComponent collidingName').toNat
          = some (.value v)) ∧
      entryNameFits collidingName' = true ∧
      s.lookupEntry hashComponent (joinPath [[100], collidingName']) = some none ∧
      ¬ ∃ s', s.creatFile hashComponent (joinPath [[100], collidingName']) ⟨1, 3⟩ =
        some (true, s') ∧
        s.ChainInserted hashComponent [[100]] collidingName' ⟨1, 3⟩ s' := by
  have hslot : ((BasicCall.performAll hashComponent LhmNamespace.initialState fileInDirectory).bind
      fun r => (r.2.locateDirectoryRoot (ParsedPath.of hashComponent [[100]])).map fun a =>
        (a, a.bind fun a => lookupChildSlotFromParentRoot r.2.heap a
          (hashComponent collidingName').toNat))
      = some (some 1, some (.value ⟨.file, ⟨1, 2⟩, collidingName⟩)) := by decide +kernel
  have habsent :
    ((BasicCall.performAll hashComponent LhmNamespace.initialState fileInDirectory).bind
      fun r => r.2.lookupEntry hashComponent (joinPath [[100], collidingName']))
      = some none := by decide +kernel
  have hcall : ((BasicCall.performAll hashComponent LhmNamespace.initialState fileInDirectory).bind
      fun r => (r.2.creatFile hashComponent (joinPath [[100], collidingName']) ⟨1, 3⟩).map Prod.fst)
      = some false := by decide +kernel
  cases hrun : BasicCall.performAll hashComponent LhmNamespace.initialState fileInDirectory with
  | none =>
      rw [hrun] at hcall
      cases hcall
  | some r =>
      obtain ⟨answers, s⟩ := r
      rw [hrun, Option.bind_some] at hslot habsent hcall
      refine ⟨answers, s, rfl, ?_, by decide, habsent, ?_⟩
      · obtain ⟨a, h1, h2⟩ := Option.map_eq_some_iff.mp hslot
        obtain ⟨rfl, h3⟩ := Prod.mk.inj h2
        exact ⟨1, _, h1, h3⟩
      · rintro ⟨s', h1, -⟩
        simp only at hcall
        rw [h1] at hcall
        cases hcall

end MasstreeLHM
