import MasstreeLHM.Tree

/-!
# Names without collisions

When the component hash is injective on the names in use, a cell is as good as a name: every cell
holds the entry whose name has its hash, there are no conflict chains, and an update of the table
changes what `find` returns at one path.

`HashInj` is the condition on the names and `InUse` says that a path has such names only.  `Plain`
is the table that comes about then: a tree of directories, and every cell holds a directory or a
plain file under its own name.  **`Plain.locate_iff`** says that a path leads to a directory exactly
if its hashes lead to a layer.

**`find_setValue`**, **`find_dropDirectory`** and **`find_newDirectory`** are the effects of the
updates on all paths: one path changes.  `Plain.setCell` and `Plain.addLayer` keep the table plain
along the operations.
-/

namespace MasstreeLHM

variable {hash : Bytes → UInt64} {N : Bytes → Prop}

/-- The hash is injective on the names in use. -/
def HashInj (hash : Bytes → UInt64) (N : Bytes → Prop) : Prop :=
  ∀ a b, N a → N b → hash a = hash b → a = b

lemma HashInj.toNat (hinj : HashInj hash N) {a b : Bytes} (ha : N a) (hb : N b)
    (h : (hash a).toNat = (hash b).toNat) : a = b :=
  hinj a b ha hb (UInt64.toNat_inj.mp h)

/-- A path of names in use. -/
def InUse (N : Bytes → Prop) (cs : List Bytes) : Prop := ∀ c ∈ cs, N c

lemma InUse.concat {cs : List Bytes} {c : Bytes} : InUse N (cs ++ [c]) ↔ InUse N cs ∧ N c := by
  simp only [InUse, List.mem_append, List.mem_singleton]
  exact ⟨fun h => ⟨fun d hd => h d (Or.inl hd), h c (Or.inr rfl)⟩, fun h d hd =>
    hd.elim (h.1 d) (fun h0 => h0 ▸ h.2)⟩

lemma hashesOf_concat (hash : Bytes → UInt64) (cs : List Bytes) (c : Bytes) :
    hashesOf hash (cs ++ [c]) = hashesOf hash cs ++ [(hash c).toNat] := by
  simp [hashesOf]

lemma HashInj.hashesOf (hinj : HashInj hash N) : ∀ {cs ds : List Bytes}, InUse N cs → InUse N ds →
    hashesOf hash cs = hashesOf hash ds → cs = ds
  | [], [], _, _, _ => rfl
  | [], d :: ds, _, _, h => by simp [MasstreeLHM.hashesOf] at h
  | c :: cs, [], _, _, h => by simp [MasstreeLHM.hashesOf] at h
  | c :: cs, d :: ds, hc, hd, h => by
      obtain ⟨h1, h2⟩ := List.cons.inj h
      rw [hinj.toNat (hc c (by simp)) (hd d (by simp)) h1,
        HashInj.hashesOf hinj (fun b hb => hc b (by simp [hb]))
        (fun b hb => hd b (by simp [hb])) h2]

namespace Table

/-- **A table without collisions**: the directories form a tree, and every cell holds a
directory or a plain file whose name has the hash of the cell. -/
structure Plain (hash : Bytes → UInt64) (N : Bytes → Prop) (T : Table) : Prop where
  closed : T.Closed
  tree : T.Tree
  directory : ∀ {f x g}, T.cell f x = some (.directory g) →
    ∃ m, T.info g = some m ∧ m.componentHash = x ∧ (hash m.name).toNat = x ∧ N m.name
  value : ∀ {f x v}, T.cell f x = some (.value v) →
    v.kind = .file ∧ (hash v.name).toNat = x ∧ N v.name

variable {T T' : Table} {f g : Ptr} {c : Bytes} {cs ds : List Bytes}

/-- A directory cell presents the directory under the one name in use with its hash. -/
lemma Plain.lookup_directory (hP : T.Plain hash N) (hinj : HashInj hash N) (hc : N c)
    (h : T.cell f (hash c).toNat = some (.directory g)) :
    ∃ m, T.info g = some m ∧ m.name = c ∧ T.directoryEntry g c = some ⟨.directory, m.ref, c⟩ ∧
      T.lookup f c (hash c).toNat = some ⟨.directory, m.ref, c⟩ := by
  obtain ⟨m, h1, -, h3, h4⟩ := hP.directory h
  obtain rfl := hinj.toNat h4 hc h3
  have hde : T.directoryEntry g m.name = some ⟨.directory, m.ref, m.name⟩ := by
    simp [directoryEntry, h1, directoryMetaNameEquals, makeNamespaceEntry]
  exact ⟨m, h1, rfl, hde, by rw [lookup, h]; exact hde⟩

/-- A value cell holds the file of that name. -/
lemma Plain.lookup_value (hP : T.Plain hash N) (hinj : HashInj hash N) (hc : N c)
    {v : NamespaceEntry} (h : T.cell f (hash c).toNat = some (.value v)) :
    v.kind = .file ∧ v.name = c ∧ T.lookup f c (hash c).toNat = some v := by
  obtain ⟨h1, h2, h3⟩ := hP.value h
  have hname := hinj.toNat h3 hc h2
  refine ⟨h1, hname, ?_⟩
  simp [lookup, h, h1, entryNameEquals, hname]

lemma Plain.lookup_none_iff (hP : T.Plain hash N) (hinj : HashInj hash N) (hc : N c) :
    T.lookup f c (hash c).toNat = none ↔ T.cell f (hash c).toNat = none := by
  constructor
  · intro h
    cases hcell : T.cell f (hash c).toNat with
    | none => rfl
    | some d =>
        cases d with
        | directory g =>
            obtain ⟨m, -, -, -, h4⟩ := hP.lookup_directory hinj hc hcell
            rw [h4] at h
            cases h
        | value v =>
            rw [(hP.lookup_value hinj hc hcell).2.2] at h
            cases h
  · intro h
    simp [lookup, h]

/-! ## What `find` returns -/

@[simp] lemma find_nil (T : Table) (hash : Bytes → UInt64) :
    T.find hash [] = some (makeNamespaceEntry .directory (makeInodeRef 0 0) [slash]) := rfl

lemma find_concat (T : Table) (hash : Bytes → UInt64) (cs : List Bytes) (c : Bytes) :
    T.find hash (cs ++ [c])
      = (T.locate T.root (hashesOf hash cs)).bind fun f => T.lookup f c (hash c).toNat := by
  rw [find, if_neg (by simp), parentOf_concat]
  cases T.locate T.root (hashesOf hash cs) <;> rfl

/-- **A path leads to a directory exactly if its hashes lead to a layer.** -/
lemma Plain.locate_iff (hP : T.Plain hash N) (hinj : HashInj hash N) (hcs : InUse N cs) :
    (∃ f, T.locate T.root (hashesOf hash cs) = some f) ↔
      ∃ e, T.find hash cs = some e ∧ e.kind = .directory := by
  rcases List.eq_nil_or_concat cs with rfl | ⟨ds, c, rfl⟩
  · exact ⟨fun _ => ⟨_, rfl, rfl⟩, fun _ => ⟨_, rfl⟩⟩
  · rw [List.concat_eq_append] at hcs ⊢
    obtain ⟨-, hc⟩ := InUse.concat.mp hcs
    rw [hashesOf_concat, find_concat]
    constructor
    · rintro ⟨g, hg⟩
      obtain ⟨f, h1, h2⟩ := locate_concat hg
      obtain ⟨m, -, -, -, h3⟩ := hP.lookup_directory hinj hc h2
      exact ⟨_, by rw [h1]; exact h3, rfl⟩
    · rintro ⟨e, he, hk⟩
      obtain ⟨f, h1, h2⟩ := Option.bind_eq_some_iff.mp he
      cases hcell : T.cell f (hash c).toNat with
      | none =>
          rw [(hP.lookup_none_iff hinj hc).mpr hcell] at h2
          cases h2
      | some d =>
          cases d with
          | directory g => exact ⟨g, locate_concat_eq h1 hcell⟩
          | value v =>
              obtain ⟨h3, -, h4⟩ := hP.lookup_value hinj hc hcell
              rw [h4] at h2
              obtain rfl := Option.some.inj h2
              rw [h3] at hk
              cases hk

/-- What a lookup depends on. -/
lemma lookup_congr {y : ℕ} {a : Ptr} {n : Bytes} (hcell : T'.cell a y = T.cell a y)
    (hinfo : ∀ b, T.cell a y = some (.directory b) → T'.info b = T.info b)
    (hbucket : T'.bucket = T.bucket) : T'.lookup a n y = T.lookup a n y := by
  rw [lookup, lookup, hcell]
  cases hc : T.cell a y with
  | none => rfl
  | some d =>
      cases d with
      | directory b => simp only [directoryEntry, hinfo b hc]
      | value v => simp only [hbucket]

/-! ## The effect of an update on all paths -/

/-- A change of values only: every path is located as before. -/
lemma locate_congr (h : ∀ a y g, T'.cell a y = some (.directory g) ↔
    T.cell a y = some (.directory g)) :
    ∀ (ys : List ℕ) (a : Ptr), T'.locate a ys = T.locate a ys
  | [], _ => rfl
  | y :: ys, a => by
      rw [locate_cons, locate_cons]
      cases hc : T.cell a y with
      | none =>
          cases hc' : T'.cell a y with
          | none => rfl
          | some d =>
              cases d with
              | value v => rfl
              | directory g =>
                  rw [(h a y g).mp hc'] at hc
                  cases hc
      | some d =>
          cases d with
          | directory g =>
              rw [(h a y g).mpr hc]
              exact locate_congr h ys g
          | value v =>
              cases hc' : T'.cell a y with
              | none => rfl
              | some d =>
                  cases d with
                  | value w => rfl
                  | directory g =>
                      rw [(h a y g).mp hc'] at hc
                      cases hc

/-- A cell that is neither before nor after a directory. -/
lemma setCell_directory_iff {x : ℕ} {o : Option Content}
    (hold : ∀ g, T.cell f x ≠ some (.directory g)) (hnew : ∀ g, o ≠ some (.directory g)) (a : Ptr)
    (y : ℕ) (g : Ptr) : (T.setCell f x o).cell a y = some (.directory g) ↔
      T.cell a y = some (.directory g) := by
  by_cases h0 : a = f ∧ y = x
  · obtain ⟨rfl, rfl⟩ := h0
    rw [setCell_same]
    exact iff_of_false (hnew g) (hold g)
  · rw [setCell_ne h0]

section

variable (hP : T.Plain hash N) (hinj : HashInj hash N) (hcs : InUse N (cs ++ [c]))
  (hloc : T.locate T.root (hashesOf hash cs) = some f)
include hP hinj hcs hloc

/-- Another path has another last cell. -/
lemma Plain.cell_ne {es : List Bytes} {e : Bytes} (hes : InUse N (es ++ [e]))
    (hne : es ++ [e] ≠ cs ++ [c]) {a : Ptr}
    (ha : T.locate T.root (hashesOf hash es) = some a) :
    ¬ (a = f ∧ (hash e).toNat = (hash c).toNat) := by
  rintro ⟨rfl, h2⟩
  obtain ⟨h3, h4⟩ := InUse.concat.mp hes
  obtain ⟨h5, h6⟩ := InUse.concat.mp hcs
  rw [hinj.toNat h4 h6 h2, hinj.hashesOf h3 h5 (hP.tree.path_unique ha hloc)] at hne
  exact hne rfl

/-- **Filling or emptying a cell that holds no directory** changes one path. -/
lemma Plain.find_setValue {o : Option Content}
    (hold : ∀ g, T.cell f (hash c).toNat ≠ some (.directory g))
    (hnew : ∀ g, o ≠ some (.directory g)) {es : List Bytes} (hes : InUse N es)
    (hne : es ≠ cs ++ [c]) : (T.setCell f (hash c).toNat o).find hash es = T.find hash es := by
  rcases List.eq_nil_or_concat es with rfl | ⟨es, e, rfl⟩
  · rfl
  · rw [List.concat_eq_append] at hes hne ⊢
    rw [find_concat, find_concat, locate_congr (setCell_directory_iff hold hnew)]
    cases ha : T.locate T.root (hashesOf hash es) with
    | none =>
        have : (T.setCell f (hash c).toNat o).root = T.root := rfl
        rw [this, ha]
        rfl
    | some a =>
        have : (T.setCell f (hash c).toNat o).root = T.root := rfl
        rw [this, ha]
        simp only [Option.bind_some]
        exact lookup_congr (setCell_ne (hP.cell_ne hinj hcs hloc hes hne ha)) (fun _ _ => rfl) rfl

/-- A path that does not go through the cell. -/
lemma Plain.find_setCell {o : Option Content} {es : List Bytes} {e : Bytes}
    (hes : InUse N (es ++ [e])) (hne : es ++ [e] ≠ cs ++ [c])
    (hno : ¬ hashesOf hash (cs ++ [c]) <+: hashesOf hash es) :
    (T.setCell f (hash c).toNat o).find hash (es ++ [e]) = T.find hash (es ++ [e]) := by
  rw [hashesOf_concat] at hno
  have hroot : (T.setCell f (hash c).toNat o).root = T.root := rfl
  rw [find_concat, find_concat, hroot, hP.tree.locate_setCell hloc hno]
  cases ha : T.locate T.root (hashesOf hash es) with
  | none => rfl
  | some a =>
      simp only [Option.bind_some]
      exact lookup_congr (setCell_ne (hP.cell_ne hinj hcs hloc hes hne ha)) (fun _ _ => rfl) rfl

omit hP hinj hcs in
/-- Nothing is found below a cell that is empty or leads to an empty directory. -/
lemma find_below
    (hempty : ∀ g, T.cell f (hash c).toNat = some (.directory g) → ∀ y, T.cell g y = none)
    {es : List Bytes} {e : Bytes} (hpre : hashesOf hash (cs ++ [c]) <+: hashesOf hash es) :
    T.find hash (es ++ [e]) = none := by
  obtain ⟨zs, hzs⟩ := hpre
  rw [hashesOf_concat, List.append_assoc, List.singleton_append] at hzs
  rw [find_concat, ← hzs, locate_append, hloc, Option.bind_some, locate_cons]
  cases hcell : T.cell f (hash c).toNat with
  | none => rfl
  | some d =>
      cases d with
      | value v => rfl
      | directory g =>
          simp only
          cases zs with
          | nil =>
              simp only [locate_nil, Option.bind_some]
              rw [lookup, hempty g hcell]
          | cons z zs => rw [locate_cons, hempty g hcell]; rfl

/-- **Emptying the cell of an empty directory** changes one path. -/
lemma Plain.find_dropDirectory (hcell : T.cell f (hash c).toNat = some (.directory g))
    (hempty : ∀ y, T.cell g y = none) {es : List Bytes} (hes : InUse N es)
    (hne : es ≠ cs ++ [c]) : (T.setCell f (hash c).toNat none).find hash es = T.find hash es := by
  rcases List.eq_nil_or_concat es with rfl | ⟨es, e, rfl⟩
  · rfl
  rw [List.concat_eq_append] at hes hne ⊢
  by_cases hpre : hashesOf hash (cs ++ [c]) <+: hashesOf hash es
  · rw [find_below hloc (fun g' h0 => by
      rw [hcell] at h0
      obtain rfl : g = g' := by simpa using h0
      exact hempty) hpre]
    obtain ⟨zs, hzs⟩ := hpre
    rw [hashesOf_concat, List.append_assoc, List.singleton_append] at hzs
    have hroot : (T.setCell f (hash c).toNat none).root = T.root := rfl
    rw [find_concat, ← hzs, hroot, hP.tree.locate_setCell_through hloc]
    rfl
  · exact hP.find_setCell hinj hcs hloc hes hne hpre

end

/-! ## The operations keep a plain table plain -/

section Operations

variable {x : ℕ} {o : Option Content}

lemma Closed.setCell (hC : T.Closed) (hf : T.layers f)
    (ho : ∀ g, o = some (.directory g) → T.layers g) : (T.setCell f x o).Closed where
  root := hC.root
  cell := by
    intro a y d h
    rw [setCell_cell] at h
    split_ifs at h with h0
    · exact h0.1 ▸ hf
    · exact hC.cell h
  target := by
    intro a y g h
    rw [setCell_cell] at h
    split_ifs at h with h0
    · exact ho g h
    · exact hC.target h

/-- A cell may be filled with a value, with a directory that hangs nowhere, or emptied. -/
lemma Tree.setCell (hT : T.Tree) (ho : ∀ g, o = some (.directory g) →
    g ≠ T.root ∧ ∀ a y, T.cell a y = some (.directory g) → a = f ∧ y = x) :
    (T.setCell f x o).Tree where
  unique := by
    intro a y a' y' g h1 h2
    rw [setCell_cell] at h1 h2
    split_ifs at h1 h2 with h3 h4 h4
    · exact ⟨h3.1.trans h4.1.symm, h3.2.trans h4.2.symm⟩
    · exact absurd ((ho g h1).2 a' y' h2) h4
    · exact absurd ((ho g h2).2 a y h1) h3
    · exact hT.unique h1 h2
  root := by
    intro a y h
    rw [setCell_cell] at h
    split_ifs at h with h0
    · exact (ho _ h).1 rfl
    · exact hT.root a y h

lemma Tree.addLayer (hT : T.Tree) (m : DirectoryMeta) : (T.addLayer g m).Tree :=
  ⟨hT.unique, hT.root⟩

lemma Closed.addLayer (hC : T.Closed) (m : DirectoryMeta) : (T.addLayer g m).Closed :=
  ⟨Or.inr hC.root, fun h => Or.inr (hC.cell h), fun h => Or.inr (hC.target h)⟩

lemma Plain.addLayer (hP : T.Plain hash N) (hg : ¬ T.layers g) (m : DirectoryMeta) :
    (T.addLayer g m).Plain hash N where
  closed := hP.closed.addLayer m
  tree := hP.tree.addLayer m
  directory := by
    intro a y b h
    have hb : b ≠ g := by
      rintro rfl
      exact hg (hP.closed.target h)
    obtain ⟨m', h1, h2⟩ := hP.directory h
    exact ⟨m', (if_neg hb).trans h1, h2⟩
  value := hP.value

lemma Plain.setCell (hP : T.Plain hash N) (hf : T.layers f)
    (hdir : ∀ g, o = some (.directory g) → T.layers g ∧ g ≠ T.root ∧
      (∀ a y, T.cell a y = some (.directory g) → a = f ∧ y = x) ∧
      ∃ m, T.info g = some m ∧ m.componentHash = x ∧ (hash m.name).toNat = x ∧ N m.name)
    (hval : ∀ v, o = some (.value v) → v.kind = .file ∧ (hash v.name).toNat = x ∧ N v.name) :
    (T.setCell f x o).Plain hash N where
  closed := hP.closed.setCell hf (fun g h => (hdir g h).1)
  tree := hP.tree.setCell (fun g h => ⟨(hdir g h).2.1, (hdir g h).2.2.1⟩)
  directory := by
    intro a y b h
    rw [setCell_cell] at h
    split_ifs at h with h0
    · rw [h0.2]
      exact (hdir b h).2.2.2
    · exact hP.directory h
  value := by
    intro a y v h
    rw [setCell_cell] at h
    split_ifs at h with h0
    · rw [h0.2]
      exact hval v h
    · exact hP.value h

/-- **A new directory** appears at its path and changes no other. -/
lemma Plain.find_newDirectory (hP : T.Plain hash N) (hinj : HashInj hash N)
    (hcs : InUse N (cs ++ [c])) (hloc : T.locate T.root (hashesOf hash cs) = some f)
    (hnone : T.cell f (hash c).toNat = none) (hg : ¬ T.layers g) (ref : InodeRef) :
    (∀ es, InUse N es → es ≠ cs ++ [c] →
      ((T.addLayer g ⟨ref, (hash c).toNat, c⟩).setCell f (hash c).toNat
        (some (.directory g))).find hash es = T.find hash es) ∧
    ((T.addLayer g ⟨ref, (hash c).toNat, c⟩).setCell f (hash c).toNat
        (some (.directory g))).find hash (cs ++ [c]) = some ⟨.directory, ref, c⟩ ∧
    ((T.addLayer g ⟨ref, (hash c).toNat, c⟩).setCell f (hash c).toNat
        (some (.directory g))).Plain hash N := by
  set T₁ := T.addLayer g ⟨ref, (hash c).toNat, c⟩ with hT₁
  have hP₁ : T₁.Plain hash N := hP.addLayer hg _
  have hlocate : ∀ ys a, T₁.locate a ys = T.locate a ys := locate_congr fun _ _ _ => Iff.rfl
  have hloc₁ : T₁.locate T₁.root (hashesOf hash cs) = some f := (hlocate _ _).trans hloc
  have hf : T.layers f := hP.closed.locate _ hP.closed.root hloc
  have hgf : g ≠ f := fun h0 => hg (h0 ▸ hf)
  have hgcell : ∀ y, T.cell g y = none := by
    intro y
    cases hy : T.cell g y with
    | none => rfl
    | some d => exact absurd (hP.closed.cell hy) hg
  have hfind₁ : ∀ es, T₁.find hash es = T.find hash es := by
    intro es
    rcases List.eq_nil_or_concat es with rfl | ⟨es, e, rfl⟩
    · rfl
    · rw [List.concat_eq_append, find_concat, find_concat, hlocate]
      refine Option.bind_congr fun a _ => ?_
      refine lookup_congr rfl (fun b hb => if_neg ?_) rfl
      rintro rfl
      exact hg (hP.closed.target hb)
  refine ⟨?_, ?_, ?_⟩
  · intro es hes hne
    rcases List.eq_nil_or_concat es with rfl | ⟨es, e, rfl⟩
    · rfl
    rw [List.concat_eq_append] at hes hne ⊢
    by_cases hpre : hashesOf hash (cs ++ [c]) <+: hashesOf hash es
    · -- below the new directory there is nothing, before and after
      rw [find_below hloc (fun b hb => by rw [hnone] at hb; cases hb) hpre]
      obtain ⟨zs, hzs⟩ := hpre
      rw [hashesOf_concat, List.append_assoc, List.singleton_append] at hzs
      have hg' : ∀ y, (T₁.setCell f (hash c).toNat (some (.directory g))).cell g y = none := by
        intro y
        rw [setCell_ne fun h0 => hgf h0.1]
        exact hgcell y
      rw [find_concat, ← hzs]
      have hthrough := hP₁.tree.locate_setCell_through (x := (hash c).toNat)
        (o := some (.directory g)) hloc₁ zs
      change (T₁.setCell f (hash c).toNat (some (.directory g))).locate
        (T₁.setCell f (hash c).toNat (some (.directory g))).root _ = _ at hthrough
      rw [hthrough]
      cases zs with
      | nil =>
          simp only [locate_nil, Option.bind_some]
          rw [lookup, hg']
      | cons z zs =>
          simp only
          rw [locate_cons, hg']
          rfl
    · rw [hP₁.find_setCell hinj hcs hloc₁ hes hne hpre, hfind₁]
  · have hself := hP₁.tree.locate_setCell_self (x := (hash c).toNat)
      (o := some (.directory g)) hloc₁
    change (T₁.setCell f (hash c).toNat (some (.directory g))).locate
      (T₁.setCell f (hash c).toNat (some (.directory g))).root _ = _ at hself
    have hinfo : (T₁.setCell f (hash c).toNat (some (.directory g))).info g
        = some ⟨ref, (hash c).toNat, c⟩ := if_pos rfl
    rw [find_concat, hself, Option.bind_some, lookup, setCell_same]
    simp [directoryEntry, hinfo, directoryMetaNameEquals, makeNamespaceEntry]
  · refine hP₁.setCell (Or.inr hf) ?_ (by simp)
    intro b hb
    have hbg : b = g := by simpa using hb.symm
    rw [hbg]
    refine ⟨Or.inl rfl, ?_, ?_, _, if_pos rfl, rfl, rfl, (InUse.concat.mp hcs).2⟩
    · intro h0
      exact hg (h0 ▸ hP.closed.root)
    · intro a y h0
      exact absurd (hP.closed.target h0) hg

end Operations

end Table

end MasstreeLHM
