import MasstreeLHM.FileRename

/-!
# What file calls do to directories

The calls that create and remove entries, and the renaming of files, whatever they return and
whatever names collide: they leave the directories of the table in their cells, except that an empty
one can be removed.

`Keeps` relates two tables so; it is reflexive and transitive, and `Keeps.setCell` and
`Keeps.setBucket` are its basic steps.  `FileKinds` says that a table holds no other values than
files and markers of chains of files, which every call on files keeps: `FileKinds.insertChain`,
`FileKinds.create`, `FileKinds.removeValue`, `FileKinds.remove`.

The renaming of a file runs a plan and stops at the first call that returns false.
**`renameFile_induct`** is an induction rule for it: what every creation at the new path and every
removal at the old path keeps, the rename keeps, wherever it stops.  `renameFile_keeps` uses it for
the directories; other invariants use the same rule.
-/

namespace MasstreeLHM

open LhmNamespace (runPlan RenamePlanItem)

namespace Table

/-- The table holds no other values than files and markers of conflict chains, and chains hold
files. -/
structure FileKinds (T : Table) : Prop where
  value : ∀ {f x v}, T.cell f x = some (.value v) → v.kind = .file ∨ v.kind = .conflictChain
  bucket : ∀ {id es}, T.bucket id = some es → ∀ e ∈ es, e.kind = .file

/-- The directories of `T'` are directories of `T`, in the same cells. -/
structure Keeps (T T' : Table) : Prop where
  layers : T'.layers = T.layers
  root : T'.root = T.root
  info : T'.info = T.info
  cell : ∀ {f x g}, T'.cell f x = some (.directory g) → T.cell f x = some (.directory g)

variable {T T' T'' : Table} {hash : Bytes → UInt64} {f : Ptr} {x : ℕ} {o : Option Content}

lemma Keeps.refl (T : Table) : T.Keeps T := ⟨rfl, rfl, rfl, id⟩

lemma Keeps.trans (h : T.Keeps T') (h' : T'.Keeps T'') : T.Keeps T'' :=
  ⟨h'.layers.trans h.layers, h'.root.trans h.root, h'.info.trans h.info,
    fun h0 => h.cell (h'.cell h0)⟩

/-- Each directory stays in one cell. -/
lemma Tree.keeps (hT : T.Tree) (h : T.Keeps T') : T'.Tree where
  unique h1 h2 := hT.unique (h.cell h1) (h.cell h2)
  root a y h0 := by
    rw [h.root] at h0
    exact hT.root a y (h.cell h0)

lemma Keeps.setCell (h : T.Keeps T') (ho : ∀ g, o ≠ some (.directory g)) :
    T.Keeps (T'.setCell f x o) where
  layers := h.layers
  root := h.root
  info := h.info
  cell := by
    intro a y g h0
    rw [setCell_cell] at h0
    split_ifs at h0 with h1
    · exact absurd h0 (ho g)
    · exact h.cell h0

lemma Keeps.setBucket (h : T.Keeps T') (id : ℕ) (es : Option (List NamespaceEntry)) :
    T.Keeps (T'.setBucket id es) :=
  ⟨h.layers, h.root, h.info, h.cell⟩

lemma FileKinds.setCell (hT : T.FileKinds)
    (ho : ∀ v, o = some (.value v) → v.kind = .file ∨ v.kind = .conflictChain) :
    (T.setCell f x o).FileKinds where
  value := by
    intro a y v h0
    rw [setCell_cell] at h0
    split_ifs at h0 with h1
    · exact ho v h0
    · exact hT.value h0
  bucket := hT.bucket

lemma FileKinds.setBucket (hT : T.FileKinds) {id : ℕ} {es : Option (List NamespaceEntry)}
    (hes : ∀ l, es = some l → ∀ e ∈ l, e.kind = .file) : (T.setBucket id es).FileKinds where
  value := hT.value
  bucket := by
    intro i l h0
    change (if i = id then es else T.bucket i) = some l at h0
    split_ifs at h0 with h1
    · exact hes l h0
    · exact hT.bucket h0

/-- **`insert_into_conflict_chain`** of a file. -/
lemma FileKinds.insertChain (hT : T.FileKinds) {v e : NamespaceEntry}
    (hv : v.kind = .file ∨ v.kind = .conflictChain) (he : e.kind = .file) (x : ℕ) :
    T.Keeps (T.insertChain x v e).2 ∧ (T.insertChain x v e).2.FileKinds := by
  rw [Table.insertChain]
  split_ifs with hk hname
  · cases hb : T.bucket v.ref.blockId with
    | none => exact ⟨.refl T, hT⟩
    | some es =>
        simp only
        split_ifs
        · exact ⟨.refl T, hT⟩
        · refine ⟨(Keeps.refl T).setBucket _ _, hT.setBucket ?_⟩
          rintro l hl d hd
          obtain rfl := Option.some.inj hl
          exact (List.mem_append.mp hd).elim (hT.bucket hb d) fun h0 =>
            List.mem_singleton.mp h0 ▸ he
  · exact ⟨.refl T, hT⟩
  · simp only
    generalize hnext : ({ T with nextId := (T.nextId + 1) % 2 ^ 32 } : Table) = T₁
    have hT₁ : T₁.FileKinds := hnext ▸ ⟨hT.value, hT.bucket⟩
    have hK₁ : T.Keeps T₁ := hnext ▸ ⟨rfl, rfl, rfl, id⟩
    have hdrop : T.Keeps (T₁.setBucket T.nextId none) ∧ (T₁.setBucket T.nextId none).FileKinds :=
      ⟨hK₁.setBucket _ _, hT₁.setBucket (by simp)⟩
    cases T.cell T.root x with
    | none => exact hdrop
    | some c =>
        cases c with
        | directory g => exact hdrop
        | value w =>
            have hmarker : ∀ v, some (Content.value (makeNamespaceEntry .conflictChain
                (makeInodeRef T.nextId 0) [])) = some (.value v) → v.kind = .file ∨
                v.kind = .conflictChain := by
              rintro v hv
              rw [← Content.value.inj (Option.some.inj hv)]
              exact Or.inr rfl
            simp only
            split_ifs
            · exact ⟨hK₁.setCell (by simp), hT₁.setCell hmarker⟩
            · refine ⟨(hK₁.setBucket _ _).setCell (by simp), (hT₁.setBucket ?_).setCell hmarker⟩
              rintro l hl d hd
              obtain rfl := Option.some.inj hl
              rcases List.mem_pair.mp hd with rfl | rfl
              · exact hv.resolve_right hk
              · exact he

/-- **`create_entry`** of a file. -/
lemma FileKinds.create (hT : T.FileKinds) (hash : Bytes → UInt64) (cs : List Bytes)
    (ref : InodeRef) :
    T.Keeps (T.create hash cs ref .file).2 ∧ (T.create hash cs ref .file).2.FileKinds := by
  rw [Table.create]
  cases T.parentOf hash cs with
  | none => exact ⟨.refl T, hT⟩
  | some fc =>
      obtain ⟨f, c⟩ := fc
      simp only
      split_ifs
      · exact ⟨.refl T, hT⟩
      · cases hcell : T.cell f (hash c).toNat with
        | none =>
            refine ⟨(Keeps.refl T).setCell (by simp), hT.setCell fun v hv => ?_⟩
            rw [← Content.value.inj (Option.some.inj hv)]
            exact Or.inl rfl
        | some d =>
            cases d with
            | directory g => exact ⟨.refl T, hT⟩
            | value v => exact hT.insertChain (hT.value hcell) rfl _

/-- **`remove_entry`** of a value. -/
lemma FileKinds.removeValue (hT : T.FileKinds) (f : Ptr) (x : ℕ) (v : NamespaceEntry)
    (name : Bytes) :
    T.Keeps (T.removeValue f x v name).2 ∧ (T.removeValue f x v name).2.FileKinds := by
  rw [Table.removeValue]
  split_ifs with h1 h2
  · exact ⟨.refl T, hT⟩
  · exact ⟨(Keeps.refl T).setCell (by simp), hT.setCell (by simp)⟩
  · cases hb : T.bucket v.ref.blockId with
    | none => exact ⟨.refl T, hT⟩
    | some es =>
        simp only
        generalize hi : es.findIdx (fun e => entryNameEquals e name) = i
        cases es[i]? with
        | none => exact ⟨.refl T, hT⟩
        | some e =>
            have hdrop : (T.setBucket v.ref.blockId none).FileKinds := hT.setBucket (by simp)
            have hleft : ∀ d ∈ es.eraseIdx i, d.kind = .file := fun d hd =>
              hT.bucket hb d (List.mem_of_mem_eraseIdx hd)
            simp only
            split_ifs
            · exact ⟨.refl T, hT⟩
            · exact ⟨((Keeps.refl T).setBucket _ _).setCell (by simp), hdrop.setCell (by simp)⟩
            · split
              · next survivor hs =>
                  refine ⟨((Keeps.refl T).setBucket _ _).setCell (by simp),
                    hdrop.setCell fun w hw => ?_⟩
                  obtain rfl := Content.value.inj (Option.some.inj hw)
                  exact Or.inl (hleft survivor (hs ▸ List.mem_singleton_self _))
              · refine ⟨(Keeps.refl T).setBucket _ _, hT.setBucket ?_⟩
                rintro l hl d hd
                obtain rfl := Option.some.inj hl
                exact hleft d hd

/-- **`remove_path_for_test`.** -/
lemma FileKinds.remove (hT : T.FileKinds) (hash : Bytes → UInt64) (cs : List Bytes) :
    T.Keeps (T.remove hash cs).2 ∧ (T.remove hash cs).2.FileKinds := by
  rw [Table.remove]
  cases T.parentOf hash cs with
  | none => exact ⟨.refl T, hT⟩
  | some fc =>
      obtain ⟨f, c⟩ := fc
      simp only
      cases T.cell f (hash c).toNat with
      | none => exact ⟨.refl T, hT⟩
      | some d =>
          cases d with
          | value v => exact hT.removeValue f _ v c
          | directory g =>
              simp only
              split_ifs
              · exact ⟨.refl T, hT⟩
              · exact ⟨(Keeps.refl T).setCell (by simp), hT.setCell (by simp)⟩

lemma FileKinds.recordsOf (hT : T.FileKinds) {f x : ℕ} {v : NamespaceEntry}
    (hv : T.cell f x = some (.value v)) {e : NamespaceEntry} (he : e ∈ T.recordsOf v) :
    e.kind = .file := by
  rw [Table.recordsOf] at he
  split_ifs at he with hk
  · obtain rfl := List.mem_singleton.mp he
    exact (hT.value hv).resolve_right hk
  · cases hb : T.bucket v.ref.blockId with
    | none => simp [hb] at he
    | some es =>
        rw [hb] at he
        exact hT.bucket hb e he

/-- The entry at a path that is no directory comes from a value. -/
lemma find_value {ods : List Bytes} {c : Bytes} {e : NamespaceEntry}
    (h : T.find hash (ods ++ [c]) = some e) (hk : e.kind ≠ .directory) :
    ∃ f v, T.locate T.root (hashesOf hash ods) = some f ∧
      T.cell f (hash c).toNat = some (.value v) := by
  rw [Table.find, if_neg (by simp), parentOf_concat] at h
  cases hloc : T.locate T.root (hashesOf hash ods) with
  | none => simp [hloc] at h
  | some f =>
      rw [hloc] at h
      simp only [Option.map_some, lookup] at h
      cases hcell : T.cell f (hash c).toNat with
      | none => simp [hcell] at h
      | some d =>
          cases d with
          | value v => exact ⟨f, v, rfl, hcell⟩
          | directory g =>
              simp only [hcell, directoryEntry] at h
              split at h
              · cases h
              · split_ifs at h
                obtain rfl := Option.some.inj h
                exact absurd rfl hk

end Table

/-- What every call of a plan keeps; `J` is all that is left if a call fails, and then the plan
stops. -/
lemma LhmNamespace.runPlan_keeps {call : LhmNamespace → RenamePlanItem →
    Option (Bool × LhmNamespace)}
    {I J : LhmNamespace → Prop} (hJ : ∀ s, I s → J s) :
    ∀ {plan : List RenamePlanItem} {s s' : LhmNamespace}
    {ok : Bool}, (∀ i ∈ plan, ∀ s b t, I s → call s i = some (b, t) → J t ∧ (b = true → I t)) →
    I s →
    runPlan call s plan = some (ok, s') → J s'
  | [], s, s', ok, _, hI, hs => by
      obtain ⟨-, rfl⟩ := Prod.mk.inj (Option.some.inj hs)
      exact hJ _ hI
  | i :: is, s, s', ok, hcall, hI, hs => by
      rw [runPlan] at hs
      obtain ⟨⟨b, t⟩, h1, hs⟩ := Option.bind_eq_some_iff.mp hs
      obtain ⟨ht, htrue⟩ := hcall i List.mem_cons_self s b t hI h1
      cases b with
      | true =>
          exact runPlan_keeps hJ (fun j hj => hcall j (List.mem_cons_of_mem _ hj)) (htrue rfl) hs
      | false =>
          obtain ⟨-, rfl⟩ := Prod.mk.inj (Option.some.inj hs)
          exact ht

namespace Represents

variable {s s' : LhmNamespace} {G : Ghost} {T : Table} {hash : Bytes → UInt64}

/-- The state stands for a table with the directories of `T`. -/
def KeptIn (T : Table) (s : LhmNamespace) : Prop :=
  ∃ G' T', Represents s G' T' ∧ T'.FileKinds ∧ T.Keeps T'

/-- **The renaming of a file** creates files at the new path, until one fails, and then removes the
old path, until that fails. -/
lemma renameFile_induct (hR : Represents s G T) (hT : T.FileKinds) {old new : List Bytes}
    (hnew : ∀ c ∈ new, IsName c) {e : NamespaceEntry} (hfind : T.find hash old = some e)
    (hk : e.kind ≠ .directory) {fuel : ℕ} {ok : Bool} {I J : LhmNamespace →
      Prop} (hI : I s) (hJ : ∀ t, I t → J t)
    (hcreate : ∀ t b t' ref, I t → t.createEntry hash (joinPath new) .file ref = some (b, t') →
      J t' ∧ (b = true → I t'))
    (hremove : ∀ t b t', J t → t.removeEntry hash (joinPath old) = some (b, t') → J t')
    (hs : s.renameFile hash fuel (ParsedPath.of hash old) (ParsedPath.of hash new) =
      some (ok, s')) : J s' := by
  rcases List.eq_nil_or_concat' old with rfl | ⟨ods, c, rfl⟩
  · exact absurd (congrArg NamespaceEntry.kind (Option.some.inj hfind)).symm hk
  obtain ⟨f, v, hloc, hcell⟩ := Table.find_value hfind hk
  rcases hR.renameFile_cases hnew hloc hcell hs with
    ⟨-, rfl⟩ | ⟨-, plan, plan', -, hperm, hitems, ok₁, s₁, h1, h2⟩
  · exact hJ _ hI
  have hcreated : J s₁ := by
    refine LhmNamespace.runPlan_keeps hJ ?_ hI h1
    intro i hi t b t' ht hcall
    obtain ⟨-, hdest, hrec⟩ := hitems i hi
    rw [hdest, hT.recordsOf hcell hrec] at hcall
    exact hcreate t b t' _ ht hcall
  cases ok₁ with
  | false =>
      obtain ⟨-, rfl⟩ : ok = false ∧ s' = s₁ := h2
      exact hcreated
  | true =>
      refine LhmNamespace.runPlan_keeps (fun _ => id) ?_ hcreated h2
      intro i hi t b t' ht hcall
      obtain ⟨hsource, -, -⟩ := hitems i (hperm.mem_iff.mpr hi)
      rw [hsource] at hcall
      have h0 := hremove t b t' ht hcall
      exact ⟨h0, fun _ => h0⟩

/-- **The renaming of a file**, whatever it returns, leaves the directories in their cells. -/
lemma renameFile_keeps (hR : Represents s G T) (hT : T.FileKinds) {old new : List Bytes}
    (hold : ∀ c ∈ old, IsName c) (hnew : ∀ c ∈ new, IsName c) {e : NamespaceEntry}
    (hfind : T.find hash old = some e) (hk : e.kind ≠ .directory) {fuel : ℕ} {ok : Bool}
    (hs : s.renameFile hash fuel (ParsedPath.of hash old) (ParsedPath.of hash new) =
      some (ok, s')) :
    KeptIn T s' := by
  have hfile : EntryKind.file ≠ .directory := by decide
  refine hR.renameFile_induct hT hnew hfind hk (I := KeptIn T) ⟨G, T, hR, hT, .refl T⟩
    (fun _ => id) ?_ ?_ hs
  · rintro t b t' ref ⟨G₁, T₁, hR₁, hT₁, hK₁⟩ ht
    obtain ⟨t₁, G₂, h3, hR₂⟩ := hR₁.createEntry_spec hash hnew hfile ref
    obtain ⟨-, rfl⟩ := Prod.mk.inj (Option.some.inj (h3.symm.trans ht))
    obtain ⟨hK₂, hT₂⟩ := hT₁.create hash new ref
    exact ⟨⟨G₂, _, hR₂, hT₂, hK₁.trans hK₂⟩, fun _ => ⟨G₂, _, hR₂, hT₂, hK₁.trans hK₂⟩⟩
  · rintro t b t' ⟨G₁, T₁, hR₁, hT₁, hK₁⟩ ht
    obtain ⟨t₁, G₂, h3, hR₂⟩ := hR₁.removePath_spec hash hold
    obtain ⟨-, rfl⟩ := Prod.mk.inj (Option.some.inj (h3.symm.trans ht))
    obtain ⟨hK₂, hT₂⟩ := hT₁.remove hash old
    exact ⟨G₂, _, hR₂, hT₂, hK₁.trans hK₂⟩

end Represents

end MasstreeLHM
