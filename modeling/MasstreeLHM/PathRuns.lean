import MasstreeLHM.NestedDirectories
import MasstreeLHM.RenameTree

/-!
# Runs with renames

Runs of all the calls in which every rename returns true.  With names that do not collide the state
then stands for a name tree all along, and the last rename of the run has moved one node of it.

`EachStep` says that every call of a run meets a condition in the state that it starts from, and
`EachStep.invariant` is the induction over runs for such a condition.

`StandsFor` joins the two abstractions, from the state to its table and from the table to a name
tree.  `StandsFor.perform` keeps it for every call and **`standsFor_performAll`** along the run.
`Moved` says in terms of lookups what a rename should do: what was at and below the old path is at
and below the new one, and no other path changes.  **`renamePath_moves`** proves it of both ways in
which `rename_path` works.
-/

namespace MasstreeLHM

open LhmNamespace (initialState)

variable {hash : Bytes → UInt64} {N : Bytes → Prop}

namespace PathCall

/-- The paths of a call. -/
def paths : PathCall → List Bytes
  | basic call => [call.path]
  | rename oldPath newPath _ => [oldPath, newPath]

/-- The names that occur in the paths of the call are in `N`. -/
def NamesIn (N : Bytes → Prop) (call : PathCall) : Prop :=
  ∀ path ∈ call.paths, ∀ cs, componentsOf path = some cs → InUse N cs

/-- The call is no rename, or a rename that returns true. -/
def Succeeds (hash : Bytes → UInt64) (s : LhmNamespace) : PathCall → Prop
  | basic _ => True
  | rename oldPath newPath fuel => ∃ s', s.renamePath hash fuel oldPath newPath = some (true, s')

/-- Every call of the run meets `Q` in the state it starts from. -/
def EachStep (Q : LhmNamespace → PathCall → Prop) (hash : Bytes → UInt64) :
    LhmNamespace → List PathCall → Prop
  | _, [] => True
  | s, call :: calls => Q s call ∧ ∀ s', call.perform hash s = some s' → EachStep Q hash s' calls

lemma EachStep.of_forall {Q : LhmNamespace → PathCall → Prop} :
    ∀ {calls : List PathCall} {s : LhmNamespace},
    (∀ call ∈ calls, ∀ t, Q t call) → EachStep Q hash s calls
  | [], _, _ => trivial
  | call :: _, s, h => ⟨h call List.mem_cons_self s, fun _ _ =>
      EachStep.of_forall fun c hc => h c (List.mem_cons_of_mem _ hc)⟩

lemma EachStep.append {Q : LhmNamespace → PathCall → Prop} {bs : List PathCall} :
    ∀ {as : List PathCall}
    {s : LhmNamespace}, EachStep Q hash s as →
    (∀ s', performAll hash s as = some s' → EachStep Q hash s' bs) →
    EachStep Q hash s (as ++ bs)
  | [], s, _, h => h s rfl
  | call :: as, s, hs, h => ⟨hs.1, fun t ht => (hs.2 t ht).append fun s' hs' => h s' (by
      rw [performAll, List.foldlM_cons, ht]
      exact hs')⟩

/-- What every call keeps, the run keeps. -/
lemma EachStep.invariant {Q : LhmNamespace → PathCall → Prop} {I : LhmNamespace → Prop} :
    ∀ {calls : List PathCall} {s s' : LhmNamespace},
    (∀ call ∈ calls, ∀ t t', I t → Q t call → call.perform hash t = some t' → I t') →
    EachStep Q hash s calls → I s → performAll hash s calls = some s' → I s'
  | [], s, s', _, _, hI, hs => by
      obtain rfl := Option.some.inj hs
      exact hI
  | call :: calls, s, s', hstep, hQ, hI, hs => by
      rw [performAll, List.foldlM_cons] at hs
      obtain ⟨t, h1, hs⟩ := Option.bind_eq_some_iff.mp hs
      exact (hQ.2 t h1).invariant (fun c hc => hstep c (List.mem_cons_of_mem _ hc))
        (hstep call List.mem_cons_self s t hI hQ.1 h1) hs

end PathCall

/-- A call that returns has parsed its path. -/
lemma exists_components {path : Bytes} {p : ParsedPath} (h : parseAbsolutePath hash path = some p) :
    ∃ cs, componentsOf path = some cs := by
  rw [parse_eq] at h
  exact (Option.map_eq_some_iff.mp h).imp fun _ h0 => h0.1

lemma BasicCall.exists_components {call : BasicCall} {s : LhmNamespace} {r : Answer × LhmNamespace}
    (h : call.perform hash s = some r) : ∃ cs, componentsOf call.path = some cs := by
  cases call with
  | mkdir path ref =>
      obtain ⟨t, h1, -⟩ := Option.map_eq_some_iff.mp h
      exact MasstreeLHM.exists_components (Option.bind_eq_some_iff.mp h1).choose_spec.1
  | creatFile path ref =>
      obtain ⟨t, h1, -⟩ := Option.map_eq_some_iff.mp h
      exact MasstreeLHM.exists_components (Option.bind_eq_some_iff.mp h1).choose_spec.1
  | removePath path =>
      obtain ⟨t, h1, -⟩ := Option.map_eq_some_iff.mp h
      exact MasstreeLHM.exists_components (Option.bind_eq_some_iff.mp h1).choose_spec.1
  | lookupEntry path =>
      obtain ⟨t, h1, -⟩ := Option.map_eq_some_iff.mp h
      exact MasstreeLHM.exists_components (Option.bind_eq_some_iff.mp h1).choose_spec.1

/-- The state stands for the name tree `t`. -/
def LhmNamespace.StandsFor (hash : Bytes → UInt64) (N : Bytes → Prop) (s : LhmNamespace)
    (t : NameTree) : Prop :=
  ∃ G T, Represents s G T ∧ NameTree.Simulates hash N T t

namespace LhmNamespace

variable {s s' : LhmNamespace} {t : NameTree}

lemma initialState_standsFor : initialState.StandsFor hash N NameTree.empty :=
  ⟨_, _, initialState_represents, NameTree.initial_simulates hash N⟩

/-- A path leads where the name tree says. -/
lemma StandsFor.lookupEntry (h : s.StandsFor hash N t) {path : Bytes} {cs : List Bytes}
    (hp : componentsOf path = some cs) (hcs : InUse N cs) :
    s.lookupEntry hash path = some (t.lookup cs) := by
  obtain ⟨G, T, hR, hS⟩ := h
  have hparse : parseAbsolutePath hash path = some (ParsedPath.of hash cs) := by
    rw [parse_eq, hp]
    rfl
  rw [hR.lookupEntry_eq hparse (componentsOf_names hp), hS.find cs hcs]

/-- A rename that returns true moves a node of the name tree. -/
lemma StandsFor.renamePath (h : s.StandsFor hash N t) (hinj : HashInj hash N) {old new : List Bytes}
    (hold : InUse N old) (hnew : InUse N new) {oldPath newPath : Bytes}
    (ho : componentsOf oldPath = some old) (hn : componentsOf newPath = some new)
      (hne : old ≠ new) {fuel : ℕ}
    (hs : s.renamePath hash fuel oldPath newPath = some (true, s')) :
    t.node old ≠ none ∧ new ≠ [] ∧ ¬ old <+: new ∧ t.node new = none ∧
    s'.StandsFor hash N (t.rename old new) := by
  obtain ⟨G, T, hR, hS⟩ := h
  obtain ⟨h1, h2, h3, h4, G', T', hR', hS'⟩ := hS.renamePath hinj hR hold hnew ho hn hne hs
  exact ⟨h1, h2, h3, h4, G', T', hR', hS'⟩

/-- A rename to the same path changes nothing. -/
lemma renamePath_self {cs : List Bytes} {oldPath newPath : Bytes} {fuel : ℕ} {ok : Bool}
    (ho : componentsOf oldPath = some cs) (hn : componentsOf newPath = some cs)
    (hs : s.renamePath hash fuel oldPath newPath = some (ok, s')) : s' = s := by
  have hpo : parseAbsolutePath hash oldPath = some (ParsedPath.of hash cs) := by
    rw [parse_eq, ho]; rfl
  have hpn : parseAbsolutePath hash newPath = some (ParsedPath.of hash cs) := by
    rw [parse_eq, hn]; rfl
  rw [LhmNamespace.renamePath, hpo, hpn] at hs
  simp only [Option.bind_eq_bind, Option.bind_some, if_true] at hs
  split_ifs at hs
  · exact (Prod.mk.inj (Option.some.inj hs)).2.symm
  · exact (Prod.mk.inj (Option.some.inj hs)).2.symm

/-- Every call that is no failed rename leaves a state that stands for a name tree. -/
lemma StandsFor.perform (h : s.StandsFor hash N t) (hinj : HashInj hash N) {call : PathCall}
    (huse : call.NamesIn N) (hsucc : call.Succeeds hash s) (hs : call.perform hash s = some s') :
    ∃ t', s'.StandsFor hash N t' := by
  cases call with
  | basic call =>
      obtain ⟨⟨x, r⟩, h1, rfl⟩ := Option.map_eq_some_iff.mp hs
      obtain ⟨G, T, hR, hS⟩ := h
      obtain ⟨cs, hpath⟩ := call.exists_components h1
      obtain ⟨s₁, G₁, T₁, h2, hR₁, hS₁⟩ :=
        hS.perform hinj hR hpath (huse _ (List.mem_singleton_self _) cs hpath)
      obtain ⟨-, rfl⟩ := Prod.mk.inj (Option.some.inj (h2.symm.trans h1))
      exact ⟨_, G₁, T₁, hR₁, hS₁⟩
  | rename oldPath newPath fuel =>
      obtain ⟨⟨ok, r⟩, h1, rfl⟩ := Option.map_eq_some_iff.mp hs
      obtain ⟨r', h2⟩ := hsucc
      obtain ⟨rfl, rfl⟩ := Prod.mk.inj (Option.some.inj (h1.symm.trans h2))
      obtain ⟨p, hp, h3⟩ := Option.bind_eq_some_iff.mp h1
      obtain ⟨q, hq, -⟩ := Option.bind_eq_some_iff.mp h3
      obtain ⟨old, ho⟩ := exists_components hp
      obtain ⟨new, hn⟩ := exists_components hq
      by_cases hne : old = new
      · obtain rfl := renamePath_self ho (hne ▸ hn) h1
        exact ⟨t, h⟩
      · obtain ⟨-, -, -, -, h5⟩ := h.renamePath hinj (huse oldPath List.mem_cons_self old ho)
          (huse newPath (List.mem_cons_of_mem _ List.mem_cons_self) new hn) ho hn hne h1
        exact ⟨_, h5⟩

/-- In every run whose renames return true the state stands for a name tree. -/
lemma standsFor_performAll (hinj : HashInj hash N) {calls : List PathCall}
    (huse : ∀ call ∈ calls, call.NamesIn N)
    (hsucc : PathCall.EachStep (fun s call => call.Succeeds hash s) hash initialState calls)
    (hs : PathCall.performAll hash initialState calls = some s) : ∃ t, s.StandsFor hash N t := by
  refine hsucc.invariant (I := fun s => ∃ t, StandsFor hash N s t) ?_ ⟨_, initialState_standsFor⟩ hs
  rintro call hcall t t' ⟨tree, ht⟩ hQ hp
  exact ht.perform hinj (huse call hcall) hQ hp

/-- The namespace of `s'` is that of `s` with the node at `old` moved to `new`. -/
structure Moved (hash : Bytes → UInt64) (N : Bytes → Prop) (s s' : LhmNamespace)
    (old new : List Bytes) :
    Prop where
  entry : ∀ p p', componentsOf p = some old → componentsOf p' = some new →
    ∃ e, s.lookupEntry hash p = some (some e) ∧
      s'.lookupEntry hash p' = some (some { e with name := new.getLastD [] })
  below : ∀ p p' cs, componentsOf p = some (old ++ cs) → componentsOf p' = some (new ++ cs) →
    cs ≠ [] →
    InUse N cs → s'.lookupEntry hash p' = s.lookupEntry hash p
  gone : ∀ p cs, componentsOf p = some (old ++ cs) → InUse N cs → s'.lookupEntry hash p = some none
  other : ∀ p cs, componentsOf p = some cs → InUse N cs → ¬ old <+: cs → ¬ new <+: cs →
    s'.lookupEntry hash p = s.lookupEntry hash p

end LhmNamespace

lemma InUse.append {cs ds : List Bytes} (hcs : InUse N cs) (hds : InUse N ds) :
    InUse N (cs ++ ds) :=
  fun d hd => (List.mem_append.mp hd).elim (hcs d) (hds d)

/-- **A rename that returns true moves a node of the namespace**, file or directory, with all that
is below it, and changes no other path. -/
theorem renamePath_moves (hash : Bytes → UInt64) (N : Bytes → Prop) (hinj : HashInj hash N)
    (calls : List PathCall) (huse : ∀ call ∈ calls, call.NamesIn N)
    (hsucc : PathCall.EachStep (fun s call => call.Succeeds hash s) hash initialState calls)
    {s s' : LhmNamespace} (hs : PathCall.performAll hash initialState calls = some s)
    {oldPath newPath : Bytes} {old new : List Bytes} (ho : componentsOf oldPath = some old)
    (hn : componentsOf newPath = some new) (hold : InUse N old) (hnew : InUse N new)
    (hne : old ≠ new) {fuel : ℕ} (hr : s.renamePath hash fuel oldPath newPath = some (true, s')) :
    LhmNamespace.Moved hash N s s' old new := by
  obtain ⟨t, ht⟩ := LhmNamespace.standsFor_performAll hinj huse hsucc hs
  obtain ⟨h1, h2, h3, h4, ht'⟩ := ht.renamePath hinj hold hnew ho hn hne hr
  have hnot : ¬ new <+: old := by
    -- there is nothing below a free path
    rintro ⟨zs, rfl⟩
    obtain ⟨G, T, -, hS⟩ := ht
    cases zs with
    | nil => exact h3 (by simp)
    | cons z zs =>
        rcases hS.isDirectory_of_below hinj h1 with h5 | ⟨ref, h5⟩
        · exact h2 h5
        · rw [h4] at h5
          cases h5
  refine ⟨fun p p' hp hp' => ?_, fun p p' cs hp hp' hcs hN => ?_, fun p cs hp hN => ?_,
    fun p cs hp hN h5 h6 => ?_⟩
  · obtain ⟨n, hn⟩ := Option.ne_none_iff_exists'.mp h1
    have hold0 : old ≠ [] := by
      rintro rfl
      exact h3 (List.nil_prefix)
    have hnode := t.node_rename_new old new []
    rw [List.append_nil, List.append_nil] at hnode
    refine ⟨NameTree.entryOf (old.getLastD []) n, ?_, ?_⟩
    · rw [ht.lookupEntry hp hold, NameTree.lookup, if_neg hold0, hn]
      rfl
    · rw [ht'.lookupEntry hp' hnew, NameTree.lookup, if_neg h2, hnode, hn]
      cases n <;> rfl
  · rw [ht'.lookupEntry hp' (hnew.append hN), ht.lookupEntry hp (hold.append hN), NameTree.lookup,
      NameTree.lookup, if_neg (by simp [hcs]), if_neg (by simp [hcs]), t.node_rename_new]
    obtain ⟨ds, d, rfl⟩ := (List.eq_nil_or_concat' cs).resolve_left hcs
    rw [← List.append_assoc, ← List.append_assoc, List.getLastD_concat, List.getLastD_concat]
  · rw [ht'.lookupEntry hp (hold.append hN), NameTree.lookup, NameTree.node_rename_old hnot h3,
      if_neg]
    · rfl
    · intro h0
      exact h3 ((List.append_eq_nil_iff.mp h0).1 ▸ List.nil_prefix)
  · rw [ht'.lookupEntry hp hN, ht.lookupEntry hp hN, NameTree.lookup, NameTree.lookup,
      NameTree.node_rename_other h6 h5]

/-- A directory `d` and a file `f`, which is moved into `d`. -/
def sampleMoves : List PathCall :=
  [.basic (.mkdir [47, 100] ⟨1, 1⟩), .basic (.creatFile [47, 102] ⟨1, 2⟩),
    .rename [47, 102] [47, 100, 47, 102] 30]

/-- The names of the sample. -/
def sampleNames : List Bytes := [[100], [101], [102]]

lemma hashInj_sampleNames : HashInj hashComponent (· ∈ sampleNames) := by
  intro a b ha hb h
  have hall : ∀ a ∈ sampleNames, ∀ b ∈ sampleNames, hashComponent a = hashComponent b → a = b := by
    decide +kernel
  exact hall a ha b hb h

lemma namesIn_sampleMoves : ∀ call ∈ sampleMoves, call.NamesIn (· ∈ sampleNames) := by
  have hall : ∀ call ∈ sampleMoves, ∀ path ∈ call.paths, ∀ c ∈ (componentsOf path).getD [],
      c ∈ sampleNames := by decide +kernel
  intro call hcall path hpath cs hcs c hc
  refine hall call hcall path hpath c ?_
  rw [hcs]
  exact hc

lemma succeeds_sampleMoves :
    PathCall.EachStep (fun s call => call.Succeeds hashComponent s) hashComponent initialState
      sampleMoves := by
  have htrue : ((initialState.mkdir hashComponent [47, 100] ⟨1, 1⟩).bind fun r =>
      (r.2.creatFile hashComponent [47, 102] ⟨1, 2⟩).bind fun r' =>
        (r'.2.renamePath hashComponent 30 [47, 102] [47, 100, 47, 102]).map Prod.fst) =
          some true := by
    decide +kernel
  obtain ⟨r, h1, h2⟩ := Option.bind_eq_some_iff.mp htrue
  obtain ⟨r', h3, h4⟩ := Option.bind_eq_some_iff.mp h2
  refine ⟨trivial, fun s hs => ⟨trivial, fun s' hs' => ⟨?_, fun _ _ => trivial⟩⟩⟩
  obtain rfl : r.2 = s := by simpa [PathCall.perform, BasicCall.perform, h1] using hs
  obtain rfl : r'.2 = s' := by simpa [PathCall.perform, BasicCall.perform, h3] using hs'
  obtain ⟨⟨ok, t⟩, h5, rfl⟩ := Option.map_eq_some_iff.mp h4
  exact ⟨t, h5⟩

/-- A directory with a file is renamed. -/
theorem renamePath_moves_directory : ∃ s s',
    PathCall.performAll hashComponent initialState sampleMoves = some s ∧
      s.renamePath hashComponent 0 [47, 100] [47, 101] = some (true, s') ∧
      LhmNamespace.Moved hashComponent (· ∈ sampleNames) s s' [[100]] [[101]] := by
  have htrue : ((PathCall.performAll hashComponent initialState sampleMoves).bind fun s =>
      (s.renamePath hashComponent 0 [47, 100] [47, 101]).map Prod.fst) =
      some true := by decide +kernel
  obtain ⟨s, hs, h1⟩ := Option.bind_eq_some_iff.mp htrue
  obtain ⟨⟨ok, s'⟩, hr, rfl⟩ := Option.map_eq_some_iff.mp h1
  refine ⟨s, s', hs, hr, renamePath_moves hashComponent _ hashInj_sampleNames sampleMoves
    namesIn_sampleMoves
    succeeds_sampleMoves hs (show componentsOf [47, 100] = some [[100]] by decide)
    (show componentsOf [47, 101] = some [[101]] by decide) ?_ ?_ (by decide) hr⟩
  · exact fun c hc => by simp_all [sampleNames]
  · exact fun c hc => by simp_all [sampleNames]

end MasstreeLHM
