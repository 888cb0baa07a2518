import MasstreeLHM.Resolve

/-!
# What was created under a path

A registry remembers, for every path of names, the call that created it and has not been undone.  A
run whose calls are routed by their own names answers from the registry.

`Registry.record` is what an answer changes.  `Registered` relates the registry to the table, with
`resolve`, which follows a path by names.  A call that has not succeeded leaves both alone
(`Registered.stays`), and a successful one changes both at one path: `Registered.mkdir`,
`Registered.creatFile` and `Registered.removePath`, put together in **`Registered.step`**.

The code finds a parent directory by hashes alone.  `RoutedByName` asks that the directory found so
has the name of its component; `NoNestedCollision` excludes a colliding creation outside `/`.  Both
are conditions on the state before a call.  **`runRegistered`** says that a run whose calls meet
them answers from the registry, and never creates anything under a parent that was not created.
-/

namespace MasstreeLHM

variable {hash : Bytes → UInt64}

/-- What has been created: the index of the creating call, and the node. -/
abbrev Registry := List Bytes → Option (ℕ × TreeNode)

namespace Registry

/-- What a successful call number `i` leaves at its path. -/
def left (i : ℕ) : BasicCall → Option (ℕ × TreeNode)
  | .mkdir _ ref => some (i, .directory ref)
  | .creatFile _ ref => some (i, .file ref)
  | .removePath _ => none
  | .lookupEntry _ => none

lemma left_index {i j : ℕ} {call : BasicCall} {n : TreeNode} (h : left i call = some (j, n)) :
    j = i := by
  cases call <;> simp_all [left]

/-- Record the answer of call number `i`. -/
def record (t : Registry) (i : ℕ) (cs : List Bytes) (call : BasicCall) (a : Answer)
    (es : List Bytes) : Option (ℕ × TreeNode) :=
  if es = cs ∧ a = .done true then left i call else t es

/-- Every proper prefix of the path was created as a directory. -/
def ParentsExist (t : Registry) (cs : List Bytes) : Prop :=
  ∀ p, p ≠ [] → p <+: cs → p ≠ cs → ∃ j ref, t p = some (j, .directory ref)

/-- The path was created, name by name, and `e` is its entry. -/
def Created (t : Registry) (cs : List Bytes) (e : NamespaceEntry) : Prop :=
  t.ParentsExist cs ∧ ∃ i n, t cs = some (i, n) ∧ e = NameTree.entryOf (cs.getLastD []) n

/-- No two paths come from one call. -/
def Distinct (t : Registry) : Prop :=
  ∀ cs ds i m n, t cs = some (i, m) → t ds = some (i, n) → cs = ds

/-- An answer that agrees with the registry: a lookup finds what was created, and nothing is
created under missing parents. -/
structure AnswerOk (t : Registry) (cs : List Bytes) (call : BasicCall) (a : Answer) : Prop where
  found : ∀ e, a = .entry (some e) → cs ≠ [] → t.Created cs e
  parents : ¬ t.ParentsExist cs → (∀ path, call ≠ .lookupEntry path) → a = .done false

lemma record_of_ne {t : Registry} {i : ℕ} {cs : List Bytes} {call : BasicCall} {a : Answer}
    (h : a ≠ .done true) : t.record i cs call a = t := by
  funext es
  rw [record, if_neg fun h0 => h h0.2]

end Registry

/-- **The registry describes the table.** -/
structure Registered (hash : Bytes → UInt64) (T : Table) (t : Registry) (i : ℕ) : Prop where
  lookup : ∀ {ds c f}, T.resolve hash T.root ds = some f →
    T.lookup f c (hash c).toNat = (t (ds ++ [c])).map fun r => NameTree.entryOf c r.2
  parent : ∀ {ds c}, t (ds ++ [c]) ≠ none → T.resolve hash T.root ds ≠ none
  root : t [] = none
  index : ∀ {cs j n}, t cs = some (j, n) → j < i
  distinct : t.Distinct

namespace Registered

variable {T T' : Table} {t : Registry} {i n : ℕ} {cs ds : List Bytes} {c : Bytes} {f g : Ptr}

lemma mono (hS : Registered hash T t i) : Registered hash T t (i + 1) :=
  ⟨hS.lookup, hS.parent, hS.root, fun h => (hS.index h).trans (Nat.lt_succ_self i), hS.distinct⟩

/-- The directories on the way to a resolved path were created. -/
lemma prefixes (hS : Registered hash T t i) (h : T.resolve hash T.root ds = some f) {p : List Bytes}
    (hp : p ≠ []) (hpre : p <+: ds) : ∃ j ref, t p = some (j, .directory ref) := by
  obtain ⟨qs, rfl⟩ := hpre
  rw [Table.resolve_append] at h
  obtain ⟨b, h1, -⟩ := Option.bind_eq_some_iff.mp h
  rcases List.eq_nil_or_concat p with rfl | ⟨q, d, rfl⟩
  · exact absurd rfl hp
  rw [List.concat_eq_append] at h1 ⊢
  obtain ⟨a, h2, h3, h4⟩ := Table.resolve_concat.mp h1
  obtain ⟨m, h5, rfl⟩ := Table.directoryEntry_ne_none.mp h4
  have hlook := hS.lookup (c := m.name) h2
  rw [Table.lookup, h3] at hlook
  simp only [Table.directoryEntry, h5, directoryMetaNameEquals, beq_self_eq_true, if_true] at hlook
  obtain ⟨⟨j, node⟩, h6, h7⟩ := Option.map_eq_some_iff.mp hlook.symm
  cases node with
  | file ref => cases h7
  | directory ref => exact ⟨j, ref, h6⟩

lemma parentsExist (hS : Registered hash T t i) (h : T.resolve hash T.root ds = some f) :
    t.ParentsExist (ds ++ [c]) := by
  intro p hp hpre hne
  refine hS.prefixes h hp ?_
  rcases List.prefix_concat_iff.mp hpre with h0 | h0
  · exact absurd h0 hne
  · exact h0

/-- **An answer of the table agrees with the registry.** -/
lemma answerOk (hS : Registered hash T t i) (hroute : T.Routed hash cs.dropLast) (call : BasicCall)
    (g : Ptr) : t.AnswerOk cs call (T.performAt hash cs g call).1 := by
  have hparent : ∀ ds c, cs = ds ++ [c] →
      T.locate T.root (hashesOf hash ds) = T.resolve hash T.root ds := by
    rintro ds c rfl
    rw [List.dropLast_concat] at hroute
    exact hroute.locate_eq
  constructor
  · intro e he hne
    rcases List.eq_nil_or_concat cs with rfl | ⟨ds, c, rfl⟩
    · exact absurd rfl hne
    rw [List.concat_eq_append] at *
    have hfind : T.find hash (ds ++ [c]) = some e := by
      cases call with
      | lookupEntry path => simpa [Table.performAt] using he
      | mkdir path ref => simp [Table.performAt] at he
      | creatFile path ref => simp [Table.performAt] at he
      | removePath path => simp [Table.performAt] at he
    rw [Table.find_concat, hparent ds c rfl] at hfind
    obtain ⟨f, h1, h2⟩ := Option.bind_eq_some_iff.mp hfind
    rw [hS.lookup h1] at h2
    obtain ⟨⟨j, node⟩, h3, h4⟩ := Option.map_eq_some_iff.mp h2
    exact ⟨hS.parentsExist h1, j, node, h3, by simpa using h4.symm⟩
  · intro hno hcall
    have hnone : T.parentOf hash cs = none := by
      rcases List.eq_nil_or_concat cs with rfl | ⟨ds, c, rfl⟩
      · rfl
      rw [List.concat_eq_append] at *
      rw [Table.parentOf_concat, hparent ds c rfl]
      cases h1 : T.resolve hash T.root ds with
      | none => rfl
      | some f => exact absurd (hS.parentsExist h1) hno
    cases call with
    | lookupEntry path => exact absurd rfl (hcall path)
    | mkdir path ref => simp [Table.performAt, Table.mkdir, hnone]
    | creatFile path ref => simp [Table.performAt, Table.create, hnone]
    | removePath path => simp [Table.performAt, Table.remove, hnone]

/-! ## One call -/

/-- Another resolved directory, or another name in it, is another path. -/
lemma path_ne (hT : T.Tree) {es : List Bytes} {e : Bytes} {b : Ptr}
    (h1 : T.resolve hash T.root ds = some f) (h2 : T.resolve hash T.root es = some b) :
    es ++ [e] = ds ++ [c] ↔ b = f ∧ e = c := by
  constructor
  · intro h0
    obtain ⟨rfl, h3⟩ := List.append_inj' h0 rfl
    rw [h1] at h2
    exact ⟨(Option.some.inj h2).symm, by simpa using h3⟩
  · rintro ⟨rfl, rfl⟩
    rw [hT.resolve_unique h2 h1]

/-- A registry that changes at one path, in step with the table. -/
lemma update (hS : Registered hash T t i) (hroot : T'.root = T.root)
    (h1 : T.resolve hash T.root ds = some f) {call : BasicCall}
    (hnew : ∀ {es b}, T'.resolve hash T.root es = some b → T.resolve hash T.root es = some b ∨
      (es = ds ++ [c] ∧ (∀ y, T'.cell b y = none) ∧ T.resolve hash T.root es = none))
    (hold : ∀ {es e b}, T.resolve hash T.root es = some b →
      t.record i (ds ++ [c]) call (.done true) (es ++ [e]) ≠ none →
      T'.resolve hash T.root es ≠ none)
    (hlook : ∀ {es b} e, T'.resolve hash T.root es = some b → T.resolve hash T.root es = some b →
      T'.lookup b e (hash e).toNat
        = (t.record i (ds ++ [c]) call (.done true) (es ++ [e])).map fun r =>
          NameTree.entryOf e r.2) :
    Registered hash T' (t.record i (ds ++ [c]) call (.done true)) (i + 1) := by
  have hrec : ∀ {es}, es ≠ ds ++ [c] → t.record i (ds ++ [c]) call (.done true) es = t es :=
    fun hne => by rw [Registry.record, if_neg fun h0 => hne h0.1]
  refine ⟨?_, ?_, ?_, ?_, ?_⟩
  · intro es e b hb
    rw [hroot] at hb
    rcases hnew hb with h2 | ⟨rfl, h3, h4⟩
    · exact hlook e hb h2
    · rw [hrec (by simp), Table.lookup, h3]
      have : t (ds ++ [c] ++ [e]) = none := by
        by_contra h5
        exact hS.parent h5 h4
      rw [this]
      rfl
  · intro es e he
    rw [hroot]
    have hres : T.resolve hash T.root es ≠ none := by
      by_cases h0 : es ++ [e] = ds ++ [c]
      · obtain ⟨rfl, -⟩ := List.append_inj' h0 rfl
        rw [h1]
        simp
      · rw [hrec h0] at he
        exact hS.parent he
    obtain ⟨b, hb⟩ := Option.ne_none_iff_exists'.mp hres
    exact hold hb he
  · rw [hrec (by simp)]
    exact hS.root
  · intro es j n h
    rw [Registry.record] at h
    split_ifs at h with h0
    · rw [Registry.left_index h]
      exact Nat.lt_succ_self i
    · exact (hS.index h).trans (Nat.lt_succ_self i)
  · intro es es' j m n h h'
    by_cases h0 : es = ds ++ [c] <;> by_cases h0' : es' = ds ++ [c]
    · exact h0.trans h0'.symm
    · exfalso
      rw [hrec h0'] at h'
      have hlt := hS.index h'
      rw [Registry.record, if_pos ⟨h0, rfl⟩] at h
      exact absurd (Registry.left_index h) (by omega)
    · exfalso
      rw [hrec h0] at h
      have hlt := hS.index h
      rw [Registry.record, if_pos ⟨h0', rfl⟩] at h'
      exact absurd (Registry.left_index h') (by omega)
    · rw [hrec h0] at h
      rw [hrec h0'] at h'
      exact hS.distinct es es' j m n h h'

section Step

variable {c : Bytes} (hS : Registered hash T t i) (hC : T.Marked hash n)

include hS

/-- A call that has not succeeded leaves both alone. -/
lemma stays (call : BasicCall) (h1 : (T.performAt hash cs g call).1 ≠ .done true)
    (h2 : (T.performAt hash cs g call).2 = T) :
    Registered hash (T.performAt hash cs g call).2
      (t.record i cs call (T.performAt hash cs g call).1) (i + 1) := by
  rw [h2, Registry.record_of_ne h1]
  exact hS.mono

include hC

omit hS in
/-- What a successful call records, in a directory that was there before. -/
lemma record_concat (hres : T.resolve hash T.root ds = some f) (call : BasicCall) {es : List Bytes}
    {b : Ptr} (e : Bytes) (hb : T.resolve hash T.root es = some b) :
    t.record i (ds ++ [c]) call (.done true) (es ++ [e])
      = if b = f ∧ e = c then Registry.left i call else t (es ++ [e]) := by
  rw [Registry.record]
  simp only [path_ne hC.tree hres hb, and_true]

lemma mkdir (hg : ¬ T.layers g) (hp : T.parentOf hash (ds ++ [c]) = some (f, c))
    (hres : T.resolve hash T.root ds = some f) (path : Bytes) (ref : InodeRef) :
    Registered hash (T.performAt hash (ds ++ [c]) g (.mkdir path ref)).2
      (t.record i (ds ++ [c]) (.mkdir path ref)
        (T.performAt hash (ds ++ [c]) g (.mkdir path ref)).1) (i + 1) := by
  have hf := hC.closed.locate _ hC.closed.root (Table.resolve_locate _ hres)
  rcases hC.mkdir ref hp hf hg with ⟨h1, h2, h3, -, -, -, h4⟩ | ⟨h1, h2, -⟩
  swap
  · exact hS.stays _ (by simp [Table.performAt, h1]) (by simp [Table.performAt, h2])
  have hT' : (T.mkdir hash (ds ++ [c]) ref g).2
      = (T.addLayer g (makeDirectoryMeta ref (hash c).toNat c)).setCell f (hash c).toNat
        (some (.directory g)) := by
    rw [Table.mkdir, hp]
    simp only [if_pos (And.intro h2 h3)]
  have hnil : T.names f (hash c).toNat = [] := hC.names_eq_nil.mpr h3
  have hlook := Table.Renames.lookup_concat (e := ⟨.directory, ref, c⟩)
    (by rw [hnil]; exact h4) (by rw [Table.lookup, h3])
  have hmk := fun es b => Table.resolve_mkdir hC.closed hg hf ref h3 es b
  rw [← hT'] at hmk
  simp only [Table.performAt, h1]
  refine hS.update h4.root hres ?_ ?_ ?_
  · -- a directory that is there now is an old one or the new one, which is empty
    intro es b hb
    rcases (hmk es b).mp hb with h5 | ⟨rfl, ds', rfl, h5⟩
    · exact Or.inl h5
    · obtain rfl := hC.tree.resolve_unique hres h5
      refine Or.inr ⟨rfl, fun y => ?_, ?_⟩
      · have hbf : b ≠ f := by
          rintro rfl
          exact hg hf
        rw [hT', Table.setCell_ne fun h0 => hbf h0.1]
        by_contra h0
        obtain ⟨o, ho⟩ := Option.ne_none_iff_exists'.mp h0
        exact hg (hC.closed.cell ho)
      · by_contra h0
        obtain ⟨b', h6⟩ := Option.ne_none_iff_exists'.mp h0
        obtain ⟨a, h7, h8, -⟩ := Table.resolve_concat.mp h6
        rw [hres] at h7
        obtain rfl := Option.some.inj h7
        rw [h3] at h8
        cases h8
  · intro es e b hb _
    rw [(hmk es b).mpr (Or.inl hb)]
    simp
  · intro es b e _ hb
    rw [hlook, record_concat hC hres _ _ hb]
    split_ifs with h5
    · rw [h5.2]
      rfl
    · exact hS.lookup hb

lemma creatFile (hp : T.parentOf hash (ds ++ [c]) = some (f, c))
    (hres : T.resolve hash T.root ds = some f)
    (hstart : T.StartsChain hash (ds ++ [c]) → entryNameFits c = true → f = T.root ∧ n + 2 < 2 ^ 32)
    (path : Bytes) (ref : InodeRef) :
    Registered hash (T.performAt hash (ds ++ [c]) g (.creatFile path ref)).2
      (t.record i (ds ++ [c]) (.creatFile path ref)
        (T.performAt hash (ds ++ [c]) g (.creatFile path ref)).1) (i + 1) := by
  have hf := hC.closed.locate _ hC.closed.root (Table.resolve_locate _ hres)
  rcases hC.create ref hp hf hstart with ⟨h1, h2, h3, h4, -, -, h5, h6⟩ | ⟨h1, h2, -⟩
  swap
  · exact hS.stays _ (by simp [Table.performAt, h1]) (by simp [Table.performAt, h2])
  have hlook := Table.Renames.lookup_concat (e := ⟨.file, ref, c⟩) h5 h4
  have hmk := Table.resolve_congr hash h6 (Table.create_sameBeyond hp ref .file).info T.root
  simp only [Table.performAt, h1]
  refine hS.update h5.root hres ?_ ?_ ?_
  · intro es b hb
    rw [hmk] at hb
    exact Or.inl hb
  · intro es e b hb _
    rw [hmk, hb]
    simp
  · intro es b e _ hb
    rw [hlook, record_concat hC hres _ _ hb]
    split_ifs with h7
    · rw [h7.2]
      rfl
    · exact hS.lookup hb

lemma removePath (hp : T.parentOf hash (ds ++ [c]) = some (f, c))
    (hres : T.resolve hash T.root ds = some f) (path : Bytes) :
    Registered hash (T.performAt hash (ds ++ [c]) g (.removePath path)).2
      (t.record i (ds ++ [c]) (.removePath path)
        (T.performAt hash (ds ++ [c]) g (.removePath path)).1) (i + 1) := by
  have hf := hC.closed.locate _ hC.closed.root (Table.resolve_locate _ hres)
  rcases hC.remove hp hf with ⟨h1, h2, h3, -, -, h4, h5⟩ | ⟨h1, h2, -⟩
  swap
  · exact hS.stays _ (by simp [Table.performAt, h1]) (by simp [Table.performAt, h2])
  have hlook := Table.Renames.lookup_erase hC h4
  have hinfo := T.remove_info hash (ds ++ [c])
  have hrec' : ∀ {es b} e, T.resolve hash T.root es = some b →
      (T.remove hash (ds ++ [c])).2.lookup b e (hash e).toNat
        = (t.record i (ds ++ [c]) (.removePath path) (.done true) (es ++ [e])).map fun r =>
          NameTree.entryOf e r.2 := by
    intro es b e hb
    rw [hlook, record_concat hC hres _ _ hb]
    split_ifs with h7
    · rfl
    · exact hS.lookup hb
  simp only [Table.performAt, h1]
  by_cases hdir : ∃ a, T.cell f (hash c).toNat = some (.directory a)
  · -- a directory is removed, which was empty
    obtain ⟨a, ha⟩ := hdir
    have hmk := Table.resolve_remove hash hC.tree ha (h3 a ha) hinfo h5
    refine hS.update h4.root hres ?_ ?_ ?_
    · intro es b hb
      exact Or.inl ((hmk es b).mp hb).1
    · intro es e b hb he
      rw [(hmk es b).mpr ⟨hb, ?_⟩]
      · simp
      · rintro rfl
        rw [record_concat hC hres _ _ hb] at he
        split_ifs at he with h7
        · exact he rfl
        · have := hS.lookup (c := e) hb
          rw [Table.lookup, h3 b ha] at this
          exact he (by simpa using this.symm)
    · intro es b e _ hb
      exact hrec' e hb
  · have hdirs : ∀ a y b, (T.remove hash (ds ++ [c])).2.cell a y = some (.directory b) ↔
        T.cell a y = some (.directory b) := by
      intro a y b
      rw [h5]
      refine ⟨fun h0 => h0.1, fun h0 => ⟨h0, ?_⟩⟩
      rintro ⟨rfl, rfl⟩
      exact hdir ⟨b, h0⟩
    have hmk := Table.resolve_congr hash hdirs hinfo T.root
    refine hS.update h4.root hres ?_ ?_ ?_
    · intro es b hb
      rw [hmk] at hb
      exact Or.inl hb
    · intro es e b hb _
      rw [hmk, hb]
      simp
    · intro es b e _ hb
      exact hrec' e hb

/-- **A call keeps the registry in step with the table.** -/
lemma step (hroute : T.Routed hash cs.dropLast) (hg : ¬ T.layers g) (call : BasicCall)
    (hstart : ∀ path ref, call = .creatFile path ref → ∀ f c, T.parentOf hash cs = some (f, c) →
      T.StartsChain hash cs → entryNameFits c = true → f = T.root ∧ n + 2 < 2 ^ 32) :
    Registered hash (T.performAt hash cs g call).2
      (t.record i cs call (T.performAt hash cs g call).1) (i + 1) := by
  cases hp : T.parentOf hash cs with
  | none =>
      refine hS.stays call ?_ ?_
      · cases call <;> simp [Table.performAt, Table.mkdir, Table.create, Table.remove, hp]
      · cases call <;> simp [Table.performAt, Table.mkdir, Table.create, Table.remove, hp]
  | some fc =>
      obtain ⟨f, c⟩ := fc
      rcases List.eq_nil_or_concat cs with rfl | ⟨ds, d, rfl⟩
      · cases hp
      rw [List.concat_eq_append] at *
      obtain ⟨hres, rfl⟩ : T.resolve hash T.root ds = some f ∧ d = c := by
        rw [List.dropLast_concat] at hroute
        rw [Table.parentOf_concat, hroute.locate_eq] at hp
        obtain ⟨b, h1, h2⟩ := Option.map_eq_some_iff.mp hp
        obtain ⟨rfl, rfl⟩ : b = f ∧ d = c := by simpa using h2
        exact ⟨h1, rfl⟩
      cases call with
      | lookupEntry path => exact hS.stays _ (by simp [Table.performAt]) rfl
      | mkdir path ref => exact hS.mkdir hC hg hp hres path ref
      | creatFile path ref =>
          exact hS.creatFile hC hp hres (hstart path ref rfl f d hp) path ref
      | removePath path => exact hS.removePath hC hp hres path

end Step

end Registered

/-! ## Runs -/

namespace LhmNamespace

/-- Every directory on the way to the last component has the name of its component. -/
def RoutedByName (hash : Bytes → UInt64) (s : LhmNamespace) (cs : List Bytes) : Prop :=
  ∀ ds c r, ds ++ [c] <+: cs.dropLast →
    s.locateDirectoryRoot (ParsedPath.of hash (ds ++ [c])) = some (some r) →
    ∃ m, (s.heap.node r).directoryMeta = some m ∧ m.name = c

/-- In a directory other than `/`, the slot of the new name does not hold a file of another name. -/
def NoNestedCollision (hash : Bytes → UInt64) (s : LhmNamespace) (cs : List Bytes) : Prop :=
  ∀ ds c r v, cs = ds ++ [c] → ds ≠ [] →
    s.locateDirectoryRoot (ParsedPath.of hash ds) = some (some r) →
    lookupChildSlotFromParentRoot s.heap r (hash c).toNat = some (.value v) → v.name = c

end LhmNamespace

namespace BasicCall

/-- A call that meets directories of its own names only. -/
def MeetsNames (hash : Bytes → UInt64) (s : LhmNamespace) (call : BasicCall) : Prop :=
  ∀ cs, componentsOf call.path = some cs → s.RoutedByName hash cs ∧
    ((∃ path ref, call = .creatFile path ref) → s.NoNestedCollision hash cs)

/-- A run of such calls. -/
def RunMeetsNames (hash : Bytes → UInt64) : LhmNamespace → List BasicCall → Prop
  | _, [] => True
  | s, call :: calls => call.MeetsNames hash s ∧
      ∀ a s', call.perform hash s = some (a, s') → RunMeetsNames hash s' calls

/-- A run that returns, and whose answers agree with the registry of what it has created. -/
def RunRegistered (hash : Bytes → UInt64) : ℕ → Registry → LhmNamespace → List BasicCall → Prop
  | _, t, _, [] => t.Distinct
  | i, t, s, call :: calls => ∃ cs a s', componentsOf call.path = some cs ∧
      call.perform hash s = some (a, s') ∧ t.Distinct ∧ t.AnswerOk cs call a ∧
      RunRegistered hash (i + 1) (t.record i cs call a) s' calls

end BasicCall

namespace Represents

variable {s : LhmNamespace} {G : Ghost} {T : Table} {cs : List Bytes}

lemma routed (hR : Represents s G T) (hcs : ∀ c ∈ cs, IsName c) (h : s.RoutedByName hash cs) :
    T.Routed hash cs.dropLast := by
  intro es c g hpre hg
  have hnames : ∀ d ∈ es ++ [c], IsName d := fun d hd =>
    hcs d (List.dropLast_subset cs (hpre.subset hd))
  obtain ⟨o, h1, h2, h3, h4⟩ := hR.locateDirectoryRoot_eq hash hnames
  rw [hg] at h2
  obtain ⟨r, rfl, rfl⟩ := Option.map_eq_some_iff.mp h2
  obtain ⟨m, h5, h6⟩ := h es c r hpre h1
  refine Table.directoryEntry_ne_none.mpr ⟨m, ?_, h6⟩
  rw [hR.info _ (hR.layers_of_fam (h3 r rfl).lt), ← h4 (by simp) r rfl]
  exact h5

lemma startsChain_root (hR : Represents s G T) (hcs : ∀ c ∈ cs, IsName c)
    (h : s.NoNestedCollision hash cs) {f : Ptr} {c : Bytes} (hp : T.parentOf hash cs = some (f, c))
    (hstart : T.StartsChain hash cs) : f = T.root := by
  obtain ⟨f', c', v, h1, h2, h3, h4⟩ := hstart
  rw [hp] at h1
  obtain ⟨rfl, rfl⟩ : f = f' ∧ c = c' := by simpa using h1
  rcases List.eq_nil_or_concat cs with rfl | ⟨ds, d, rfl⟩
  · cases hp
  rw [List.concat_eq_append] at *
  rw [Table.parentOf_concat] at hp
  obtain ⟨b, h5, h6⟩ := Option.map_eq_some_iff.mp hp
  obtain ⟨rfl, rfl⟩ : b = f ∧ d = c := by simpa using h6
  by_cases hds : ds = []
  · subst hds
    exact (Option.some.inj h5).symm
  · exfalso
    have hnames : ∀ e ∈ ds, IsName e := fun e he => hcs e (by simp [he])
    obtain ⟨o, h7, h8, h9, -⟩ := hR.locateDirectoryRoot_eq hash hnames
    rw [h5] at h8
    obtain ⟨r, rfl, rfl⟩ := Option.map_eq_some_iff.mp h8
    refine h4 (h ds d r v rfl hds h7 ?_)
    rw [hR.lookupChildSlot_eq (h9 r rfl) (hash_lt hash d), h2]

end Represents

/-- **A call that is routed by names** answers from the registry and keeps it in step. -/
lemma Registered.perform {s : LhmNamespace} {G : Ghost} {T : Table} {n i : ℕ} {t : Registry}
    {call : BasicCall} {calls : List BasicCall} {cs : List Bytes} (hS : Registered hash T t i)
    (hR : Represents s G T) (hC : T.Marked hash n) (hN : T.AllNames IsName)
    (hc : componentsOf call.path = some cs) (hmeet : call.MeetsNames hash s)
    (hcount : n + BasicCall.chainsStarted hash s (call :: calls) < 2 ^ 32 - 1) :
    ∃ a s' G' T' m, call.perform hash s = some (a, s') ∧ t.AnswerOk cs call a ∧
      Represents s' G' T' ∧ T'.Marked hash m ∧ T'.AllNames IsName ∧
      Registered hash T' (t.record i cs call a) (i + 1) ∧
      m + BasicCall.chainsStarted hash s' calls < 2 ^ 32 - 1 := by
  have hnames := componentsOf_names hc
  obtain ⟨s₁, G₁, g, h1, hg, hR₁⟩ := hR.perform hash hc
  rw [BasicCall.chainsStarted, h1] at hcount
  simp only [← hR₁.nextId, ← hR.nextId] at hcount
  obtain ⟨hroute, hnest⟩ := hmeet cs hc
  have hroute := hR.routed hnames hroute
  have hroom : (T.performAt hash cs g call).2.nextId ≠ T.nextId → n + 2 < 2 ^ 32 := by
    intro h0
    rw [if_neg h0] at hcount
    omega
  obtain ⟨m, hC₁, hm, hN₁⟩ := hC.step hN hg hnames call hroom
  have hS₁ := hS.step hC hroute hg call (by
    intro path ref hcall f c hp hst hfits
    refine ⟨hR.startsChain_root hnames (hnest ⟨path, ref, hcall⟩) hp hst, hroom ?_⟩
    rw [hcall, Table.performAt, Table.create_nextId ref hp hfits hst]
    omega)
  exact ⟨_, s₁, G₁, _, m, h1, hS.answerOk hroute call g, hR₁, hC₁, hN₁, hS₁, by omega⟩

/-- **A run that is routed by names answers from its registry.** -/
lemma runRegistered : ∀ (calls : List BasicCall) {s : LhmNamespace} {G : Ghost} {T : Table}
    {n i : ℕ} {t : Registry}, Represents s G T → T.Marked hash n → T.AllNames IsName →
    Registered hash T t i → (∀ call ∈ calls, componentsOf call.path ≠ none) →
    BasicCall.RunMeetsNames hash s calls →
    n + BasicCall.chainsStarted hash s calls < 2 ^ 32 - 1 →
    BasicCall.RunRegistered hash i t s calls
  | [], _, _, _, _, _, _, _, _, _, hS, _, _, _ => hS.distinct
  | call :: calls, s, G, T, n, i, t, hR, hC, hN, hS, haccept, hmeets, hcount => by
      obtain ⟨cs, hc⟩ := Option.ne_none_iff_exists'.mp (haccept call (by simp))
      obtain ⟨a, s₁, G₁, T₁, m, h1, h2, hR₁, hC₁, hN₁, hS₁, hcount₁⟩ :=
        hS.perform hR hC hN hc hmeets.1 hcount
      exact ⟨cs, a, s₁, hc, h1, hS.distinct, h2, runRegistered calls hR₁ hC₁ hN₁ hS₁
        (fun d hd => haccept d (by simp [hd])) (hmeets.2 _ _ h1) hcount₁⟩

lemma initial_registered (hash : Bytes → UInt64) :
    Registered hash Table.initial (fun _ => none) 0 := by
  refine ⟨?_, fun h => absurd rfl h, rfl, ?_, ?_⟩
  · intro ds c f _
    rfl
  · intro cs j n h
    cases h
  · intro cs ds j m n h
    cases h

lemma Table.initial_allNames (N : Bytes → Prop) : Table.initial.AllNames N :=
  fun f x e he => by simp [Table.names, Table.initial] at he

/-- **Names along a path.**  For any component hash, in a run whose calls meet directories of their
own names only, start no chain outside `/` and fewer than `2 ^ 32 - 1` in all, a lookup succeeds
only if every directory on its way and its last name were created under exactly these names and
not removed since, different paths have different creations, and nothing is created under parents
that do not all exist. -/
theorem performAll_registered (hash : Bytes → UInt64) (calls : List BasicCall)
    (haccept : ∀ call ∈ calls, componentsOf call.path ≠ none)
    (hmeets : BasicCall.RunMeetsNames hash LhmNamespace.initialState calls)
    (hcount : BasicCall.chainsStarted hash LhmNamespace.initialState calls < 2 ^ 32 - 1) :
    BasicCall.RunRegistered hash 0 (fun _ => none) LhmNamespace.initialState calls := by
  exact runRegistered calls initialState_represents (Table.initial_marked hash)
    (Table.initial_allNames IsName) (initial_registered hash) haccept hmeets (by omega)

/-- A directory `d`, a file `f` in it, and a lookup of the file. -/
def directoryCalls : List BasicCall :=
  [.mkdir (joinPath [[100]]) ⟨1, 1⟩, .creatFile (joinPath [[100], [102]]) ⟨1, 2⟩,
    .lookupEntry (joinPath [[100], [102]])]

lemma routedByName_of_directory {s : LhmNamespace}
    (hroute : s.locateDirectoryRoot (ParsedPath.of hashComponent [[100]]) = some (some 1))
    (hname : (s.heap.node 1).directoryMeta.map DirectoryMeta.name = some [100]) :
    s.RoutedByName hashComponent [[100], [102]] := by
  obtain ⟨m, hm, hmname⟩ := Option.map_eq_some_iff.mp hname
  intro ds c r hpre hr
  obtain ⟨rfl, rfl⟩ : ds = [] ∧ c = [100] := by
    rcases ds with _ | ⟨d, ds⟩
    · simpa using hpre
    · have := hpre.length_le
      simp at this
  rw [List.nil_append, hroute] at hr
  obtain rfl := Option.some.inj (Option.some.inj hr)
  exact ⟨m, hm, hmname⟩

/-- The lookup in the third call finds the file: the registry has its directory and its name. -/
theorem performAll_registered_directoryCalls :
    BasicCall.RunRegistered hashComponent 0 (fun _ => none) LhmNamespace.initialState
      directoryCalls := by
  refine performAll_registered hashComponent directoryCalls (by decide) ?_ (by decide +kernel)
  have hpath : componentsOf (joinPath [[100], [102]]) = some [[100], [102]] := by decide +kernel
  refine ⟨?_, fun a s h1 => ⟨?_, fun a' s' h2 => ⟨?_, fun _ _ _ => trivial⟩⟩⟩
  · intro cs hcs
    obtain rfl : [[100]] = cs := Option.some.inj ((by decide +kernel :
      componentsOf (joinPath [[100]]) = some [[100]]).symm.trans hcs)
    refine ⟨fun ds c r h => by simp at h, ?_⟩
    rintro ⟨path, ref, h⟩
    cases h
  · intro cs hcs
    obtain rfl := Option.some.inj (hpath.symm.trans hcs)
    have hroute : ((BasicCall.mkdir (joinPath [[100]]) ⟨1, 1⟩).perform hashComponent
        LhmNamespace.initialState).map (fun r =>
          (r.2.locateDirectoryRoot (ParsedPath.of hashComponent [[100]]),
            (r.2.heap.node 1).directoryMeta.map DirectoryMeta.name,
            lookupChildSlotFromParentRoot r.2.heap 1 (hashComponent [102]).toNat))
        = some (some (some 1), some [100], some .missing) := by decide +kernel
    rw [h1] at hroute
    simp only [Option.map_some, Option.some.injEq, Prod.mk.injEq] at hroute
    obtain ⟨hroot, hname, hmissing⟩ := hroute
    refine ⟨routedByName_of_directory hroot hname, ?_⟩
    rintro - ds c r v hcs - hr hv
    obtain ⟨rfl, hc⟩ := List.append_inj' (show [[100]] ++ [[102]] = ds ++ [c] from hcs) rfl
    obtain rfl : [102] = c := by simpa using hc
    rw [hroot] at hr
    obtain rfl := Option.some.inj (Option.some.inj hr)
    rw [hmissing] at hv
    cases hv
  · intro cs hcs
    obtain rfl := Option.some.inj (hpath.symm.trans hcs)
    have hroute : (((BasicCall.mkdir (joinPath [[100]]) ⟨1, 1⟩).perform hashComponent
        LhmNamespace.initialState).bind fun r =>
          ((BasicCall.creatFile (joinPath [[100], [102]]) ⟨1, 2⟩).perform hashComponent r.2).map
            fun r => (r.2.locateDirectoryRoot (ParsedPath.of hashComponent [[100]]),
              (r.2.heap.node 1).directoryMeta.map DirectoryMeta.name))
        = some (some (some 1), some [100]) := by decide +kernel
    rw [h1, Option.bind_some, h2] at hroute
    simp only [Option.map_some, Option.some.injEq, Prod.mk.injEq] at hroute
    refine ⟨routedByName_of_directory hroute.1 hroute.2, ?_⟩
    rintro ⟨path, ref, h⟩
    cases h

/-- A file is created below one name and looked up below another name of the same hash. -/
def misroutedCalls : List BasicCall :=
  [.mkdir (joinPath [collidingName]) ⟨1, 1⟩, .creatFile (joinPath [collidingName, [102]]) ⟨1, 2⟩,
    .lookupEntry (joinPath [collidingName', [102]])]

/-- The lookup finds the file, though its directory was never created under that name. -/
theorem not_runRegistered_misroutedCalls :
    ¬ BasicCall.RunRegistered hashComponent 0 (fun _ => none) LhmNamespace.initialState
      misroutedCalls := by
  rintro ⟨cs₁, a₁, s₁, hc₁, h₁, -, -, cs₂, a₂, s₂, hc₂, h₂, -, -, cs₃, a₃, s₃, hc₃, h₃, -, h4, -⟩
  have hrun : (BasicCall.performAll hashComponent LhmNamespace.initialState misroutedCalls).map
      Prod.fst = some [.done true, .done true, .entry (some ⟨.file, ⟨1, 2⟩, [102]⟩)] := by
    decide +kernel
  simp only [misroutedCalls, BasicCall.performAll, h₁, h₂, h₃, Option.map_some, Option.some.injEq,
    List.cons.injEq, and_true] at hrun
  obtain ⟨-, -, rfl⟩ := hrun
  obtain rfl : [collidingName] = cs₁ := Option.some.inj ((by decide +kernel :
    componentsOf (joinPath [collidingName]) = some [collidingName]).symm.trans hc₁)
  obtain rfl : [collidingName, [102]] = cs₂ := Option.some.inj ((by decide +kernel :
    componentsOf (joinPath [collidingName, [102]]) = some [collidingName, [102]]).symm.trans hc₂)
  obtain rfl : [collidingName', [102]] = cs₃ := Option.some.inj ((by decide +kernel :
    componentsOf (joinPath [collidingName', [102]]) = some [collidingName', [102]]).symm.trans hc₃)
  obtain ⟨hparents, -⟩ := h4.found _ rfl (by simp)
  obtain ⟨j, ref, h5⟩ := hparents [collidingName'] (by simp) ⟨[[102]], rfl⟩ (by simp)
  have hne : collidingName' ≠ collidingName := by decide
  simp [Registry.record, hne] at h5

end MasstreeLHM
