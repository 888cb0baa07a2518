import MasstreeLHM.Paths

/-!
# Paths as text and as lists of pieces

The parser accepts exactly the absolute paths without `.` and `..`, and what it returns is the list
of non-empty pieces between the slashes.  The text of a normalized path and that list stay in step
under the string helpers; only `rewrite_destination_path` does not know the root as a source, which
`rename_path` does not let through.

`pieces` is the purpose of the parser without its loop: split at every slash and leave out what is
empty.  **`parseAbsolutePath_eq`** says that the parser computes it and where it throws.  `pieces`
has a rule for every shape of a text (`pieces_append_slash`, `pieces_slash`, `pieces_component`),
and the induction over the loop of the parser uses these only.

`parse_rewriteDestinationPath` moves a path below another root: parsing the new text gives the
components of the destination and then those behind the source.  **`path_text_and_components`** is
everything together, for any hash of the components.
-/

namespace MasstreeLHM

/-- The non-empty pieces between slashes. -/
def pieces (path : Bytes) : List Bytes := (path.splitOn slash).filter (· ≠ [])

variable {hash : Bytes → UInt64} {cs ds : List Bytes} {c : Bytes}

@[simp] lemma pieces_nil : pieces [] = [] := rfl

/-- A text falls apart at every slash. -/
lemma pieces_append_slash (x y : Bytes) : pieces (x ++ slash :: y) = pieces x ++ pieces y := by
  rw [pieces, List.splitOn, List.splitOnP_append_cons x y (by simp), List.filter_append]
  rfl

lemma pieces_slash (t : Bytes) : pieces (slash :: t) = pieces t := pieces_append_slash [] t

lemma pieces_name (hne : c ≠ []) (hc : slash ∉ c) : pieces c = [c] := by
  have hno : ∀ b ∈ c, (b == slash) = false := by
    intro b hb
    simp only [beq_eq_false_iff_ne]
    rintro rfl
    exact hc hb
  rw [pieces, List.splitOn, List.splitOnP_eq_singleton hno]
  simp [hne]

lemma pieces_dropWhile (path : Bytes) : pieces (path.dropWhile (· == slash)) = pieces path := by
  induction path with
  | nil => rfl
  | cons b t ih =>
    rw [List.dropWhile_cons]
    split_ifs with hb
    · rw [ih, eq_of_beq hb, pieces_slash]
    · rfl

/-- The first piece, and those behind it. -/
lemma pieces_component {rest : Bytes}
    (hne : (rest.dropWhile (· == slash)).takeWhile (· != slash) ≠ []) :
    pieces rest = (rest.dropWhile (· == slash)).takeWhile (· != slash)
      :: pieces ((rest.dropWhile (· == slash)).dropWhile (· != slash)) := by
  rw [← pieces_dropWhile rest]
  generalize rest.dropWhile (· == slash) = path at hne ⊢
  have hno : slash ∉ path.takeWhile (· != slash) := fun hm => by
    simpa using List.mem_takeWhile_imp hm
  have hsplit :
    pieces path = pieces (path.takeWhile (· != slash) ++ path.dropWhile (· != slash)) := by
    rw [List.takeWhile_append_dropWhile]
  rw [hsplit]
  cases h : path.dropWhile (· != slash) with
  | nil => rw [List.append_nil, pieces_name hne hno, pieces_nil]
  | cons b t =>
    -- the component ends at a slash
    have hb := List.head?_dropWhile_not (· != slash) path
    rw [h] at hb
    simp only [List.head?_cons, bne_eq_false_iff_eq] at hb
    rw [hb, pieces_append_slash, pieces_name hne hno, pieces_slash]
    rfl

/-- What the loop returns: the pieces that are left, unless one of them is `.` or `..`. -/
lemma parseLoop_eq : ∀ (fuel : ℕ) {rest : Bytes} {cs : List Bytes}, rest.length < fuel →
    (∀ c ∈ cs, IsName c) →
    parseLoop hash fuel rest (ParsedPath.of hash cs)
      = if ∀ c ∈ pieces rest, c ≠ [46] ∧ c ≠ [46, 46] then
          some (ParsedPath.of hash (cs ++ pieces rest))
        else none
  | 0, _, _, hf, _ => absurd hf (by omega)
  | fuel + 1, rest, cs, hf, hcs => by
      rw [parseLoop]
      simp only
      by_cases h1 : rest.dropWhile (· == slash) = []
      · have hp : pieces rest = [] := by rw [← pieces_dropWhile, h1, pieces_nil]
        rw [if_pos h1, hp]
        simp
      rw [if_neg h1]
      have hne : (rest.dropWhile (· == slash)).takeWhile (· != slash) ≠ [] := by
        intro hnil
        obtain ⟨b, bs, hb⟩ := List.exists_cons_of_ne_nil h1
        have hhead := List.head?_dropWhile_not (· == slash) rest
        rw [hb] at hnil hhead
        simp only [List.head?_cons, beq_eq_false_iff_ne] at hhead
        simp [hhead] at hnil
      have hp := pieces_component hne
      by_cases h2 : (rest.dropWhile (· == slash)).takeWhile (· != slash) = [46] ∨
          (rest.dropWhile (· == slash)).takeWhile (· != slash) = [46, 46]
      · rw [if_pos h2, if_neg]
        intro hall
        exact not_or.mpr (hall _ (by rw [hp]; simp)) h2
      have hshort : ((rest.dropWhile (· == slash)).dropWhile (· != slash)).length < fuel := by
        have hlen : (rest.dropWhile (· == slash)).length ≤ rest.length :=
          (List.dropWhile_suffix _).length_le
        have hsplit := congrArg List.length (List.takeWhile_append_dropWhile
          (p := (· != slash)) (l := rest.dropWhile (· == slash)))
        rw [List.length_append] at hsplit
        have := List.length_pos_iff.mpr hne
        omega
      rw [if_neg h2, ParsedPath.push_of hcs,
        parseLoop_eq fuel hshort (names_concat hcs (isName_component h1 h2)), hp]
      simp only [List.forall_mem_cons, List.append_assoc, List.singleton_append]
      by_cases h3 : ∀ c ∈ pieces ((rest.dropWhile (· == slash)).dropWhile (· != slash)),
          c ≠ [46] ∧ c ≠ [46, 46]
      · rw [if_pos h3, if_pos ⟨not_or.mp h2, h3⟩]
      · rw [if_neg h3, if_neg (fun h => h3 h.2)]

/-- What `parse_absolute_path` returns. -/
theorem parseAbsolutePath_eq (path : Bytes) : parseAbsolutePath hash path =
    if path.head? = some slash ∧ ∀ c ∈ pieces path, c ≠ [46] ∧ c ≠ [46, 46] then
      some (ParsedPath.of hash (pieces path))
    else none := by
  rw [parseAbsolutePath]
  by_cases hs : path.head? = some slash
  · rw [if_pos hs]
    refine (parseLoop_eq (path.length + 1) (Nat.lt_succ_self _)
      (show ∀ c ∈ ([] : List Bytes), IsName c by simp)).trans ?_
    simp [hs]
  · rw [if_neg hs, if_neg (fun h => hs h.1)]

/-- The normalized text is the components joined by slashes. -/
lemma joinPath_eq_intercalate (cs : List Bytes) :
    joinPath cs = slash :: [slash].intercalate cs := by
  cases cs with
  | nil => rfl
  | cons c cs =>
    rw [joinPath_of_ne_nil (by simp), slashed_cons]
    congr 1
    induction cs generalizing c with
    | nil => simp [List.intercalate]
    | cons d ds ih =>
      rw [slashed_cons, List.intercalate_cons_cons, ← ih]
      simp

lemma pieces_slashed : ∀ {cs : List Bytes}, (∀ c ∈ cs, IsName c) → pieces (slashed cs) = cs
  | [], _ => rfl
  | c :: cs, h => by
      have hc := h c (by simp)
      have ih := pieces_slashed fun d hd => h d (List.mem_cons_of_mem c hd)
      rw [slashed_cons, pieces_slash]
      rcases slashed_head cs with h0 | ⟨t, ht⟩
      · rw [h0, List.append_nil, pieces_name hc.ne_nil hc.no_slash, slashed_eq_nil h0]
      · rw [ht, pieces_append_slash, pieces_name hc.ne_nil hc.no_slash, ← pieces_slash t, ← ht, ih]
        rfl

/-- A text with a slash in front and names between its slashes is parsed into these. -/
lemma parseAbsolutePath_of_pieces {path : Bytes} (hs : path.head? = some slash)
    (hcs : ∀ c ∈ cs, IsName c) (hp : pieces path = cs) :
    parseAbsolutePath hash path = some (ParsedPath.of hash cs) := by
  rw [parseAbsolutePath_eq, hp, if_pos ⟨hs, fun c hc => (hcs c hc).not_dot⟩]

/-- What follows the source root is put behind the destination root. -/
lemma parse_rewriteDestinationPath {rs es : List Bytes} (hcs : ∀ c ∈ cs, IsName c)
    (hrs : ∀ c ∈ rs, IsName c) (hes : ∀ c ∈ es, IsName c) (h : cs ≠ [] ∨ rs = [] ∨ es = []) :
    parseAbsolutePath hash
        (rewriteDestinationPath (joinPath (cs ++ rs)) (joinPath cs) (joinPath es))
      = some (ParsedPath.of hash (es ++ rs)) := by
  have hall : ∀ c ∈ cs ++ rs, IsName c := by
    intro c hc
    rcases List.mem_append.mp hc with hc | hc
    · exact hcs c hc
    · exact hrs c hc
  by_cases hr : rs = []
  · subst hr
    rw [List.append_nil, List.append_nil, rewriteDestinationPath, if_pos rfl,
      parseAbsolutePath_joinPath hes]
  have hne : joinPath (cs ++ rs) ≠ joinPath cs := by
    intro he
    have := congrArg List.length (joinPath_inj hall hcs he)
    rw [List.length_append] at this
    exact hr (List.length_eq_zero_iff.mp (by omega))
  rw [rewriteDestinationPath, if_neg hne,
    if_pos ((isPrefixPath_joinPath hcs hall).mpr (List.prefix_append cs rs)),
    joinPath_of_ne_nil (show cs ++ rs ≠ [] by simp [hr]), slashed_append]
  have hnames : ∀ c ∈ es ++ rs, IsName c := by
    intro c hc
    rcases List.mem_append.mp hc with hc | hc
    · exact hes c hc
    · exact hrs c hc
  refine parseAbsolutePath_of_pieces ?_ hnames ?_
  · by_cases he : es = []
    · rw [he]
      rfl
    · obtain ⟨e, es, rfl⟩ := List.exists_cons_of_ne_nil he
      rfl
  by_cases hc : cs = []
  · -- only the root itself may take the place of the root
    have he : es = [] := (h.resolve_left (not_not.mpr hc)).resolve_left hr
    obtain ⟨r, rs, rfl⟩ := List.exists_cons_of_ne_nil hr
    rw [hc, he, List.nil_append]
    exact pieces_slashed hrs
  rw [joinPath_of_ne_nil hc, List.drop_left]
  by_cases he : es = []
  · rw [he]
    exact (pieces_slash _).trans (pieces_slashed hrs)
  · rw [joinPath_of_ne_nil he, ← slashed_append, pieces_slashed hnames]

/-- **Paths as text and as component lists.**  The hash is any hash of the components. -/
theorem path_text_and_components (hash : Bytes → UInt64) :
    (∀ path : Bytes, (parseAbsolutePath hash path).isSome ↔
      path.head? = some slash ∧ ∀ c ∈ path.splitOn slash, c ≠ [] → c ≠ [46] ∧ c ≠ [46, 46]) ∧
    (∀ (path : Bytes) (p : ParsedPath), parseAbsolutePath hash path = some p →
      p.components = (path.splitOn slash).filter (· ≠ []) ∧
      p.hashes = p.components.map (fun c => (hash c).toNat) ∧
      p.normalizedPath = slash :: [slash].intercalate p.components ∧
      parseAbsolutePath hash p.normalizedPath = some p ∧
      (p.components ≠ [] →
        parseAbsolutePath hash (parentPath p.normalizedPath) = some p.parent ∧
        p.parent.components = p.components.dropLast)) ∧
    ∀ (pathA pathB : Bytes) (a b : ParsedPath), parseAbsolutePath hash pathA = some a →
      parseAbsolutePath hash pathB = some b →
      (isPrefixPath a.normalizedPath b.normalizedPath = true ↔ a.components <+: b.components) ∧
      ∀ (pathD : Bytes) (d : ParsedPath), parseAbsolutePath hash pathD = some d →
        a.components <+: b.components →
        (a.components ≠ [] ∨ b.components = [] ∨ d.components = []) →
        ∃ q, parseAbsolutePath hash
            (rewriteDestinationPath b.normalizedPath a.normalizedPath d.normalizedPath) = some q ∧
          q.components = d.components ++ b.components.drop a.components.length := by
  refine ⟨fun path => ?_, fun path p hp => ?_, fun pathA pathB a b ha hb => ?_⟩
  · have hpieces : (∀ c ∈ pieces path, c ≠ [46] ∧ c ≠ [46, 46])
        ↔ ∀ c ∈ path.splitOn slash, c ≠ [] → c ≠ [46] ∧ c ≠ [46, 46] := by
      simp [pieces]
    rw [parseAbsolutePath_eq, ← hpieces]
    split_ifs with h
    · exact iff_of_true rfl h
    · exact iff_of_false (by simp) h
  · obtain ⟨cs, hcs, rfl⟩ := parseAbsolutePath_some hp
    have hcomp : cs = pieces path := by
      rw [parseAbsolutePath_eq] at hp
      split_ifs at hp
      exact (congrArg ParsedPath.components (Option.some.inj hp)).symm
    refine ⟨hcomp, rfl, joinPath_eq_intercalate cs, parseAbsolutePath_joinPath hcs, fun hne => ?_⟩
    obtain ⟨ds, d, rfl⟩ : ∃ ds d, cs = ds ++ [d] :=
      ⟨_, _, (List.dropLast_concat_getLast (show cs ≠ [] from hne)).symm⟩
    have hds : ∀ c ∈ ds, IsName c := fun c hc => hcs c (by simp [hc])
    have hname := hcs d (by simp)
    refine ⟨?_, rfl⟩
    rw [ParsedPath.of_normalizedPath, parentPath_joinPath hds hname, ParsedPath.of_parent hds hname,
      parseAbsolutePath_joinPath hds]
  · obtain ⟨as, has, rfl⟩ := parseAbsolutePath_some ha
    obtain ⟨bs, hbs, rfl⟩ := parseAbsolutePath_some hb
    refine ⟨isPrefixPath_joinPath has hbs, fun pathD d hd hpre hroot => ?_⟩
    obtain ⟨es, hes, rfl⟩ := parseAbsolutePath_some hd
    simp only [ParsedPath.of_components] at hpre hroot
    obtain ⟨rs, rfl⟩ := hpre
    have hrs : ∀ c ∈ rs, IsName c := fun c hc => hbs c (by simp [hc])
    refine ⟨_, parse_rewriteDestinationPath has hrs hes (hroot.imp_right (Or.imp_left ?_)), ?_⟩
    · exact fun h => (List.append_eq_nil_iff.mp h).2
    · simp

/-- The paths `/a//b/` and `/a`, and `/c` as the destination. -/
theorem path_text_and_components_ab : ∃ q,
    parseAbsolutePath hashComponent (rewriteDestinationPath [47, 97, 47, 98] [47, 97] [47, 99])
      = some q ∧ q.components = [[99], [98]] :=
  ((path_text_and_components hashComponent).2.2 [47, 97] [47, 97, 47, 47, 98, 47] _ _ rfl rfl).2
    [47, 99] _ rfl (by decide) (by decide)

/-- With the root as the source the slash between the two parts is missing. -/
theorem rewriteDestinationPath_root :
    isPrefixPath [47] [47, 120] = true ∧
    (parseAbsolutePath hashComponent (rewriteDestinationPath [47, 120] [47] [47, 121])).map
      ParsedPath.components = some [[121, 120]] := by
  decide

end MasstreeLHM
