import MasstreeLHM.RootChains
import MasstreeLHM.Reference

/-!
# Which names a path goes through

Directories on the way are located by their hashes alone.  `resolve` follows a path by names, and
`Registry` records what the calls of a run have created.  As long as every call meets directories of
its own names on its way, and no chain is started outside the root directory, a lookup finds what
was created under exactly these names.

`resolve_locate` says that a path which can be followed by names is located by hashes as well; the
converse is `Routed`, a condition.  A directory is resolved by one path of names only
(**`resolve_unique`**), because the directories form a tree.

`resolve_mkdir` and `resolve_remove` are the effects of the two calls that change directories.
`resolve_congr` covers the others: files, chains and buckets have no part in the way to a directory.
-/

namespace MasstreeLHM

variable {hash : Bytes → UInt64}

namespace Table

variable {T T' : Table} {f g : Ptr} {c : Bytes} {cs ds : List Bytes} {n : ℕ}

/-- The directory at a path whose components are the names of the directories on the way. -/
def resolve (T : Table) (hash : Bytes → UInt64) : Ptr → List Bytes → Option Ptr
  | f, [] => some f
  | f, c :: cs =>
      match T.cell f (hash c).toNat with
      | some (.directory g) => if T.directoryEntry g c = none then none else T.resolve hash g cs
      | _ => none

lemma resolve_append (T : Table) (f : Ptr) (cs ds : List Bytes) :
    T.resolve hash f (cs ++ ds) = (T.resolve hash f cs).bind fun g => T.resolve hash g ds := by
  induction cs generalizing f with
  | nil => rfl
  | cons c cs ih =>
      rw [List.cons_append, resolve, resolve]
      split
      · split_ifs
        · rfl
        · exact ih _
      · rfl

/-- The last name of a resolved path. -/
lemma resolve_concat : T.resolve hash f (cs ++ [c]) = some g ↔
    ∃ a, T.resolve hash f cs = some a ∧ T.cell a (hash c).toNat = some (.directory g) ∧
      T.directoryEntry g c ≠ none := by
  rw [resolve_append, Option.bind_eq_some_iff]
  refine exists_congr fun a => and_congr_right fun _ => ?_
  rw [resolve]
  cases hc : T.cell a (hash c).toNat with
  | none => simp
  | some d =>
      cases d with
      | value v => simp
      | directory b =>
          by_cases h0 : T.directoryEntry b c = none
          · simp only [h0, if_true, Option.some.injEq, Content.directory.injEq]
            refine iff_of_false (by simp) ?_
            rintro ⟨rfl, h1⟩
            exact h1 h0
          · simp only [h0, if_false, resolve, Option.some.injEq, Content.directory.injEq]
            exact ⟨fun h1 => ⟨h1, h1 ▸ h0⟩, fun h1 => h1.1⟩

/-- A resolved path is located. -/
lemma resolve_locate : ∀ (cs : List Bytes) {f g : Ptr}, T.resolve hash f cs = some g →
    T.locate f (hashesOf hash cs) = some g
  | [], _, _, h => h
  | c :: cs, f, g, h => by
      rw [resolve] at h
      rw [hashesOf, List.map_cons, locate_cons]
      cases hc : T.cell f (hash c).toNat with
      | none =>
          rw [hc] at h
          cases h
      | some d =>
          rw [hc] at h
          cases d with
          | value v => cases h
          | directory b =>
              simp only at h
              split_ifs at h with h0
              exact resolve_locate cs h

/-- A path is located through directories of its own names. -/
def Routed (T : Table) (hash : Bytes → UInt64) (ds : List Bytes) : Prop :=
  ∀ es c g, es ++ [c] <+: ds → T.locate T.root (hashesOf hash (es ++ [c])) = some g →
    T.directoryEntry g c ≠ none

lemma Routed.locate_eq (h : T.Routed hash ds) :
    T.locate T.root (hashesOf hash ds) = T.resolve hash T.root ds := by
  induction ds using List.reverseRecOn with
  | nil => rfl
  | append_singleton ds c ih =>
      have ih := ih fun es d g hes => h es d g (hes.trans (List.prefix_append _ _))
      cases hloc : T.locate T.root (hashesOf hash (ds ++ [c])) with
      | some g =>
          symm
          rw [resolve_concat]
          have hlast := h ds c g (List.prefix_rfl) hloc
          rw [hashesOf_concat] at hloc
          obtain ⟨a, h1, h2⟩ := locate_concat hloc
          exact ⟨a, by rw [← ih]; exact h1, h2, hlast⟩
      | none =>
          symm
          by_contra h0
          obtain ⟨g, hg⟩ := Option.ne_none_iff_exists'.mp h0
          rw [resolve_locate _ hg] at hloc
          cases hloc

lemma directoryEntry_ne_none : T.directoryEntry g c ≠ none ↔
    ∃ m, T.info g = some m ∧ m.name = c := by
  rw [directoryEntry]
  cases hm : T.info g with
  | none => simp
  | some m => simp [directoryMetaNameEquals]

/-- **A directory is resolved by one path of names.** -/
lemma Tree.resolve_unique (hT : T.Tree) (h1 : T.resolve hash T.root cs = some f)
    (h2 : T.resolve hash T.root ds = some f) : cs = ds := by
  induction cs using List.reverseRecOn generalizing ds f with
  | nil =>
      have h3 := hT.path_unique (resolve_locate _ h1) (resolve_locate _ h2)
      symm
      simpa [hashesOf] using h3.symm
  | append_singleton cs c ih =>
      rcases List.eq_nil_or_concat ds with rfl | ⟨ds, d, rfl⟩
      · have h3 := hT.path_unique (resolve_locate _ h1) (resolve_locate _ h2)
        simp [hashesOf] at h3
      · rw [List.concat_eq_append] at h2 ⊢
        obtain ⟨a, h3, h4, h5⟩ := resolve_concat.mp h1
        obtain ⟨b, h6, h7, h8⟩ := resolve_concat.mp h2
        obtain ⟨m, h9, rfl⟩ := directoryEntry_ne_none.mp h5
        obtain ⟨m', h10, rfl⟩ := directoryEntry_ne_none.mp h8
        rw [h9] at h10
        obtain rfl := Option.some.inj h10
        obtain ⟨rfl, -⟩ := hT.unique h4 h7
        rw [ih h3 h6]

/-! ## The effect of updates -/

/-- Directories and their names are unchanged. -/
lemma resolve_congr (hash : Bytes → UInt64)
    (hdir : ∀ a y b, T'.cell a y = some (.directory b) ↔ T.cell a y = some (.directory b))
    (hinfo : T'.info = T.info) (f : Ptr) (cs : List Bytes) :
    T'.resolve hash f cs = T.resolve hash f cs := by
  have hentry : ∀ g c, T'.directoryEntry g c = T.directoryEntry g c := by
    intro g c
    rw [directoryEntry, directoryEntry, hinfo]
  induction cs using List.reverseRecOn with
  | nil => rfl
  | append_singleton cs c ih =>
      ext g
      rw [resolve_concat, resolve_concat]
      simp only [hdir, hentry, ih]

/-- A directory is added. -/
lemma resolve_mkdir (hC : T.Closed) (hg : ¬ T.layers g) (hf : T.layers f) (ref : InodeRef)
    (hcell : T.cell f (hash c).toNat = none) (es : List Bytes) (b : Ptr) :
    ((T.addLayer g (makeDirectoryMeta ref (hash c).toNat c)).setCell f (hash c).toNat
      (some (.directory g))).resolve hash T.root es = some b ↔
      T.resolve hash T.root es = some b ∨
        (b = g ∧ ∃ ds, es = ds ++ [c] ∧ T.resolve hash T.root ds = some f) := by
  have hne : ∀ {a y d}, T.cell a y = some (.directory d) → d ≠ g := by
    rintro a y d h rfl
    exact hg (hC.target h)
  have hentry : ∀ d e, d ≠ g → ((T.addLayer g (makeDirectoryMeta ref (hash c).toNat c)).setCell f
      (hash c).toNat (some (.directory g))).directoryEntry d e = T.directoryEntry d e := by
    intro d e hd
    simp [directoryEntry, setCell, addLayer, hd]
  have hnew : ∀ e, ((T.addLayer g (makeDirectoryMeta ref (hash c).toNat c)).setCell f
      (hash c).toNat (some (.directory g))).directoryEntry g e ≠ none ↔ e = c := by
    intro e
    rw [directoryEntry_ne_none]
    simp only [setCell, addLayer, if_true, Option.some.injEq, exists_eq_left', makeDirectoryMeta]
    exact eq_comm
  induction es using List.reverseRecOn generalizing b with
  | nil =>
      refine ⟨Or.inl, ?_⟩
      rintro (h | ⟨-, ds, h, -⟩)
      · exact h
      · simp at h
  | append_singleton es e ih =>
      rw [resolve_concat, resolve_concat]
      constructor
      · rintro ⟨a, h1, h2, h3⟩
        rw [setCell_cell] at h2
        split_ifs at h2 with h0
        · obtain ⟨rfl, h4⟩ := h0
          obtain rfl : g = b := by simpa using h2
          rcases (ih a).mp h1 with h5 | ⟨h5, -⟩
          · exact Or.inr ⟨rfl, es, by rw [(hnew e).mp h3], h5⟩
          · exact absurd (h5 ▸ hf) hg
        · have h2 : T.cell a (hash e).toNat = some (.directory b) := h2
          rcases (ih a).mp h1 with h5 | ⟨h5, -⟩
          · exact Or.inl ⟨a, h5, h2, by rwa [hentry b e (hne h2)] at h3⟩
          · exact absurd (h5 ▸ hC.cell h2) hg
      · rintro (⟨a, h1, h2, h3⟩ | ⟨rfl, ds, h1, h2⟩)
        · refine ⟨a, (ih a).mpr (Or.inl h1), ?_, by rwa [hentry b e (hne h2)]⟩
          rw [setCell_ne]
          · exact h2
          · rintro ⟨rfl, h0⟩
            rw [← h0, h2] at hcell
            cases hcell
        · obtain ⟨rfl, rfl⟩ : es = ds ∧ e = c := by simpa using List.append_inj' h1 rfl
          exact ⟨f, (ih f).mpr (Or.inl h2), setCell_same _ _ _ _, (hnew e).mpr rfl⟩

/-- An empty directory is removed. -/
lemma resolve_remove (hash : Bytes → UInt64) (hT : T.Tree) {x : ℕ}
    (hcell : T.cell f x = some (.directory g)) (hempty : ∀ y, T.cell g y = none)
    (hinfo : T'.info = T.info) (hdir : ∀ a y b, T'.cell a y = some (.directory b) ↔
      T.cell a y = some (.directory b) ∧ ¬ (a = f ∧ y = x)) (es : List Bytes) (b : Ptr) :
    T'.resolve hash T.root es = some b ↔ T.resolve hash T.root es = some b ∧ b ≠ g := by
  have hentry : ∀ d e, T'.directoryEntry d e = T.directoryEntry d e := by
    intro d e
    rw [directoryEntry, directoryEntry, hinfo]
  have hgroot : T.root ≠ g := by
    rintro rfl
    exact hT.root f x hcell
  induction es using List.reverseRecOn generalizing b with
  | nil =>
      refine ⟨fun h => ⟨h, ?_⟩, fun h => h.1⟩
      obtain rfl : T.root = b := by simpa [resolve] using h
      exact hgroot
  | append_singleton es e ih =>
      rw [resolve_concat, resolve_concat]
      simp only [hdir, hentry, ih]
      constructor
      · rintro ⟨a, ⟨h1, h2⟩, ⟨h3, h4⟩, h5⟩
        refine ⟨⟨a, h1, h3, h5⟩, ?_⟩
        rintro rfl
        exact h4 (hT.unique h3 hcell)
      · rintro ⟨⟨a, h1, h2, h3⟩, h4⟩
        refine ⟨a, ⟨h1, ?_⟩, ⟨h2, ?_⟩, h3⟩
        · rintro rfl
          rw [hempty] at h2
          cases h2
        · rintro ⟨rfl, rfl⟩
          rw [hcell] at h2
          exact h4 (by simpa using h2.symm)

end Table

end MasstreeLHM
