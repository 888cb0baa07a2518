import MasstreeLHM.Chains

/-!
# Listing a directory

`readdir` of a directory other than `/` lists the cells of its layer in the order of their hashes.

A layer has one list of its cells in that order (`Lists.unique`), so "the cells of the layer" is a
list and not only a set.  `Table.ListsPath` says what the listing of a path is: the records of the
cells if the path leads to a directory, and nothing if it does not.  **`Represents.readdir_eq`**
says that `readdir` returns it.

The walk starts from the root that the lookup of the path has found, which is the current root of
the layer.  That is the difference to the listing of `/`, which starts from `root_` and has a file
of its own.
-/

namespace MasstreeLHM

variable {hash : Bytes → UInt64}

namespace Table

variable {T T' : Table} {f : Ptr} {ps qs : List (ℕ × Content)} {ds : List Bytes}

/-- The cells of a layer are listed in one way. -/
lemma Lists.unique (hp : T.Lists f ps) (hq : T'.Lists f qs) (h : ∀ x, T'.cell f x = T.cell f x) :
    qs = ps := by
  have hnodup : ∀ {l : List (ℕ × Content)}, l.Pairwise (fun p q => p.1 < q.1) → l.Nodup :=
    fun hl => hl.imp fun {a b} hab h0 => by
      rw [h0] at hab
      exact lt_irrefl _ hab
  have hperm : qs.Perm ps := by
    rw [List.perm_ext_iff_of_nodup (hnodup hq.sorted) (hnodup hp.sorted)]
    rintro ⟨x, c⟩
    rw [hp.mem, hq.mem, h]
  exact hperm.eq_of_pairwise (fun a b _ _ h1 h2 => absurd (h1.trans h2) (lt_irrefl _))
    hq.sorted hp.sorted

/-- `rs` is the listing of the path `ds`. -/
def ListsPath (T : Table) (hash : Bytes → UInt64) (ds : List Bytes) (rs : List ReaddirRecord) :
    Prop :=
  (∃ e g ps, T.find hash ds = some e ∧ e.kind = .directory ∧
    T.locate T.root (hashesOf hash ds) = some g ∧ T.Lists g ps ∧
    rs = ps.flatMap fun p => T.records (hashesOf hash ds) p.1 p.2) ∨
  ((∀ e, T.find hash ds = some e → e.kind = .directory →
    T.locate T.root (hashesOf hash ds) = none) ∧ rs = [])

end Table

/-- **`readdir`** of a path other than `/`. -/
lemma Represents.readdir_eq {s : LhmNamespace} {G : Ghost} {T : Table} (hR : Represents s G T)
    (hash : Bytes → UInt64) {path : Bytes} {ds : List Bytes} (hds : componentsOf path = some ds)
    (hne : ds ≠ []) : ∃ rs, s.readdir hash path = some rs ∧ T.ListsPath hash ds rs := by
  have hnames := componentsOf_names hds
  have hp : parseAbsolutePath hash path = some (ParsedPath.of hash ds) := by
    rw [parse_eq, hds]
    rfl
  have hslash : joinPath ds ≠ [slash] := by
    rw [ne_eq, joinPath_eq_slash hnames]
    exact hne
  have hfind : s.lookupEntry hash (joinPath ds) = some (T.find hash ds) :=
    hR.lookupEntry_eq (parseAbsolutePath_joinPath hnames) hnames
  obtain ⟨o, h1, h2, h3, h4⟩ := hR.locateDirectoryRoot_eq hash hnames
  rw [LhmNamespace.readdir, hp]
  simp only [Option.bind_eq_bind, Option.bind_some, ParsedPath.of_normalizedPath, if_pos hslash,
    LhmNamespace.lookupDirectory, hfind]
  cases hf : T.find hash ds with
  | none =>
      refine ⟨[], rfl, Or.inr ⟨fun e he => ?_, rfl⟩⟩
      rw [hf] at he
      cases he
  | some e =>
      by_cases hk : e.kind = .directory
      · simp only [hk, if_true, h1, Option.bind_some]
        cases o with
        | none =>
            refine ⟨[], rfl, Or.inr ⟨fun _ _ _ => h2.symm, rfl⟩⟩
        | some b =>
            have hb := h3 b rfl
            obtain ⟨hlt, hfam⟩ : G.fam b < s.heap.size ∧ G.fam (G.fam b) = G.fam b :=
              (hR.layers _).mp (hR.layers_of_fam hb.lt)
            obtain ⟨ps, h5, h6⟩ := hR.listing_eq (hashesOf hash ds) (hR.layers_of_fam hb.lt)
            rw [← h4 hne b rfl] at h6
            exact ⟨_, h6, Or.inl ⟨e, G.fam b, ps, hf, hk, h2.symm, h5, rfl⟩⟩
      · refine ⟨[], by simp [hk], Or.inr ⟨fun e' he' hk' => ?_, rfl⟩⟩
        rw [hf] at he'
        obtain rfl := Option.some.inj he'
        exact absurd hk' hk

end MasstreeLHM
