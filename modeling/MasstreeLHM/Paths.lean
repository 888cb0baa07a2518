import MasstreeLHM.PathKey
import Mathlib.Data.List.TakeWhile
import Mathlib.Tactic.Lemma

/-!
# Paths and component lists

What `parse_absolute_path` accepts is a list of names, and the parsed path is determined by that
list.  The string helpers, which work on the normalized text, are the expected operations on lists:
`parent_path` drops the last name, and `is_prefix_path` is the prefix order.

`IsName` is what a component can be: not empty, without a slash, and neither `.` nor `..`.
`joinPath` writes the normalized text of a list of names, and `ParsedPath.of` is the parsed path of
the list.  **`parseLoop_some`** says that the parser returns nothing but such paths, by induction on
the text that is left, and **`parseAbsolutePath_joinPath`** that it finds every list of names from
its normalized text.  So a proof about an operation of the namespace starts from a list of names,
and text appears only where the source works on text.

`component_inj` is the reason that texts determine lists: two texts that start with a component and
go on with a slash or end can only be equal if these components are.
-/

namespace MasstreeLHM

/-- A component that `parse_absolute_path` accepts. -/
structure IsName (c : Bytes) : Prop where
  ne_nil : c ≠ []
  no_slash : slash ∉ c
  not_dot : c ≠ [46] ∧ c ≠ [46, 46]

/-- The components, each with its slash. -/
def slashed (cs : List Bytes) : Bytes := cs.flatMap fun c => slash :: c

/-- The normalized path with components `cs`. -/
def joinPath (cs : List Bytes) : Bytes := if cs = [] then [slash] else slashed cs

/-- The parsed path with components `cs`. -/
def ParsedPath.of (hash : Bytes → UInt64) (cs : List Bytes) : ParsedPath :=
  ⟨joinPath cs, cs, cs.map fun c => (hash c).toNat⟩

variable {hash : Bytes → UInt64} {cs ds : List Bytes} {c : Bytes}

@[simp] lemma slashed_nil : slashed [] = [] := rfl

@[simp] lemma slashed_cons (c : Bytes) (cs : List Bytes) :
    slashed (c :: cs) = slash :: (c ++ slashed cs) := rfl

lemma slashed_append (cs ds : List Bytes) : slashed (cs ++ ds) = slashed cs ++ slashed ds :=
  List.flatMap_append

lemma joinPath_of_ne_nil (h : cs ≠ []) : joinPath cs = slashed cs := if_neg h

lemma slashed_eq_nil (h : slashed cs = []) : cs = [] := by
  cases cs with
  | nil => rfl
  | cons c cs => simp at h

/-- What follows a component is the end or another slash. -/
lemma slashed_head (cs : List Bytes) : slashed cs = [] ∨ ∃ r, slashed cs = slash :: r := by
  cases cs with
  | nil => exact Or.inl rfl
  | cons c cs => exact Or.inr ⟨_, rfl⟩

/-! ## Cutting off a component -/

lemma IsName.head_ne (hc : IsName c) : ∃ b bs, c = b :: bs ∧ b ≠ slash := by
  obtain ⟨b, bs, rfl⟩ := List.exists_cons_of_ne_nil hc.ne_nil
  exact ⟨b, bs, rfl, fun h => hc.no_slash (by simp [h])⟩

lemma takeWhile_component {c r : Bytes} (hc : slash ∉ c) (hr : r = [] ∨ ∃ t, r = slash :: t) :
    (c ++ r).takeWhile (· != slash) = c ∧ (c ++ r).dropWhile (· != slash) = r := by
  have hall : ∀ b ∈ c, (b != slash) = true := by
    intro b hb
    simp only [bne_iff_ne]
    rintro rfl
    exact hc hb
  rw [List.takeWhile_append_of_pos hall, List.dropWhile_append_of_pos hall]
  rcases hr with rfl | ⟨t, rfl⟩ <;> simp

/-- Equal texts that start with a component start with the same one. -/
lemma component_inj {c d r t : Bytes} (hc : slash ∉ c) (hd : slash ∉ d)
    (hr : r = [] ∨ ∃ u, r = slash :: u) (ht : t = [] ∨ ∃ u, t = slash :: u)
    (h : c ++ r = d ++ t) : c = d ∧ r = t := by
  obtain ⟨h1, h2⟩ := takeWhile_component hc hr
  obtain ⟨h3, h4⟩ := takeWhile_component hd ht
  rw [h] at h1 h2
  exact ⟨h1.symm.trans h3, h2.symm.trans h4⟩

/-! ## Parsing -/

lemma slashed_length (h : ∀ c ∈ cs, IsName c) (hne : cs ≠ []) : 1 < (slashed cs).length := by
  obtain ⟨c, cs, rfl⟩ := List.exists_cons_of_ne_nil hne
  obtain ⟨b, bs, rfl, -⟩ := (h c (by simp)).head_ne
  simp

lemma ParsedPath.push_of (h : ∀ c ∈ cs, IsName c) (c : Bytes) :
    (ParsedPath.of hash cs).push hash c = ParsedPath.of hash (cs ++ [c]) := by
  have hjoin : joinPath (cs ++ [c]) = slashed cs ++ slash :: c := by
    rw [joinPath_of_ne_nil (by simp), slashed_append]
    simp
  rw [ParsedPath.push, ParsedPath.of, ParsedPath.of, hjoin]
  by_cases hcs : cs = []
  · subst hcs
    simp [joinPath]
  · simp only [joinPath_of_ne_nil hcs, if_pos (slashed_length h hcs)]
    simp

/-- The parser's next component is a name. -/
lemma isName_component {rest : Bytes} (h1 : rest.dropWhile (· == slash) ≠ [])
    (h2 : ¬ ((rest.dropWhile (· == slash)).takeWhile (· != slash) = [46] ∨
      (rest.dropWhile (· == slash)).takeWhile (· != slash) = [46, 46])) :
    IsName ((rest.dropWhile (· == slash)).takeWhile (· != slash)) := by
  refine ⟨?_, ?_, not_or.mp h2⟩
  · -- the slashes have been skipped, so the component is not empty
    intro hnil
    obtain ⟨b, bs, hb⟩ := List.exists_cons_of_ne_nil h1
    have hhead := List.head?_dropWhile_not (· == slash) rest
    rw [hb] at hnil hhead
    simp only [List.head?_cons, beq_eq_false_iff_ne] at hhead
    simp [hhead] at hnil
  · intro hm
    simpa using List.mem_takeWhile_imp hm

lemma names_concat (hcs : ∀ c ∈ cs, IsName c) (hc : IsName c) : ∀ d ∈ cs ++ [c], IsName d := by
  intro d hd
  rcases List.mem_append.mp hd with hd | hd
  · exact hcs d hd
  · exact List.mem_singleton.mp hd ▸ hc

/-- **What the parser accepts**: it returns the parsed path of some list of names. -/
lemma parseLoop_some : ∀ (fuel : ℕ) {rest : Bytes} {cs : List Bytes} {p : ParsedPath},
    (∀ c ∈ cs, IsName c) → parseLoop hash fuel rest (ParsedPath.of hash cs) = some p →
      ∃ ds, (∀ c ∈ ds, IsName c) ∧ p = ParsedPath.of hash ds
  | 0, _, _, _, _, hp => by simp [parseLoop] at hp
  | fuel + 1, rest, cs, p, hcs, hp => by
      rw [parseLoop] at hp
      simp only at hp
      split_ifs at hp with h1 h2
      · exact ⟨cs, hcs, by simpa using hp.symm⟩
      · rw [ParsedPath.push_of hcs] at hp
        exact parseLoop_some fuel (names_concat hcs (isName_component h1 h2)) hp

lemma parseAbsolutePath_some {path : Bytes} {p : ParsedPath}
    (hp : parseAbsolutePath hash path = some p) :
    ∃ cs, (∀ c ∈ cs, IsName c) ∧ p = ParsedPath.of hash cs := by
  rw [parseAbsolutePath] at hp
  split_ifs at hp
  exact parseLoop_some _ (show ∀ c ∈ ([] : List Bytes), IsName c by simp) hp

lemma parseLoop_slashed : ∀ (fuel : ℕ) {cs ds : List Bytes}, (∀ c ∈ cs, IsName c) →
    (∀ c ∈ ds, IsName c) → ds.length < fuel →
    parseLoop hash fuel (slashed ds) (ParsedPath.of hash cs) = some (ParsedPath.of hash (cs ++ ds))
  | 0, _, _, _, _, hf => absurd hf (by omega)
  | fuel + 1, cs, [], _, _, _ => by simp [parseLoop]
  | fuel + 1, cs, d :: ds, hcs, hds, hf => by
      have hd := hds d (by simp)
      obtain ⟨b, bs, hb, hbs⟩ := hd.head_ne
      have hskip : (slashed (d :: ds)).dropWhile (· == slash) = d ++ slashed ds := by
        simp [hb, hbs]
      obtain ⟨ht, hdr⟩ := takeWhile_component hd.no_slash (slashed_head ds)
      rw [parseLoop]
      simp only [hskip, ht, hdr]
      rw [if_neg (by simp [hd.ne_nil]), if_neg (not_or.mpr hd.not_dot), ParsedPath.push_of hcs,
        parseLoop_slashed fuel (names_concat hcs hd) (fun c hc => hds c (by simp [hc]))
          (by simpa using hf)]
      simp

/-- **Parsing the normalized path of a list of names gives the list back.** -/
lemma parseAbsolutePath_joinPath (hcs : ∀ c ∈ cs, IsName c) :
    parseAbsolutePath hash (joinPath cs) = some (ParsedPath.of hash cs) := by
  by_cases hne : cs = []
  · subst hne
    rfl
  · have hlen : cs.length ≤ (slashed cs).length := by
      clear hcs hne
      induction cs with
      | nil => simp
      | cons c cs ih => simp; omega
    rw [joinPath_of_ne_nil hne, parseAbsolutePath, if_pos]
    · exact parseLoop_slashed _ (show ∀ c ∈ ([] : List Bytes), IsName c by simp) hcs (by omega)
    · obtain ⟨c, cs, rfl⟩ := List.exists_cons_of_ne_nil hne
      rfl

lemma joinPath_inj (hcs : ∀ c ∈ cs, IsName c) (hds : ∀ c ∈ ds, IsName c)
    (h : joinPath cs = joinPath ds) : cs = ds := by
  have h1 := @parseAbsolutePath_joinPath (fun _ => 0) cs hcs
  rw [h, parseAbsolutePath_joinPath hds] at h1
  exact congrArg ParsedPath.components (Option.some.inj h1).symm

lemma joinPath_eq_slash (hcs : ∀ c ∈ cs, IsName c) : joinPath cs = [slash] ↔ cs = [] :=
  ⟨fun h => joinPath_inj hcs (by simp) h, fun h => if_pos h⟩

/-! ## The string helpers -/

/-- **`parent_path` drops the last name.** -/
lemma parentPath_joinPath (hcs : ∀ c ∈ cs, IsName c) (hc : IsName c) :
    parentPath (joinPath (cs ++ [c])) = joinPath cs := by
  rw [parentPath, if_neg (by rw [joinPath_eq_slash (names_concat hcs hc)]; simp),
    joinPath_of_ne_nil (by simp), slashed_append]
  have hrev : (slashed cs ++ slashed [c]).reverse = c.reverse ++ slash :: (slashed cs).reverse := by
    simp
  have hall : ∀ b ∈ c.reverse, (b != slash) = true := by
    intro b hb
    simp only [bne_iff_ne]
    rintro rfl
    exact hc.no_slash (by simpa using hb)
  simp only [hrev, List.dropWhile_append_of_pos hall]
  by_cases hne : cs = []
  · simp [hne, joinPath]
  · simp [joinPath, hne, mt slashed_eq_nil hne]

lemma ParsedPath.of_parent (hcs : ∀ c ∈ cs, IsName c) (hc : IsName c) :
    (ParsedPath.of hash (cs ++ [c])).parent = ParsedPath.of hash cs := by
  simp [ParsedPath.parent, ParsedPath.of, parentPath_joinPath hcs hc]

@[simp] lemma ParsedPath.of_name : (ParsedPath.of hash (cs ++ [c])).name = c := by
  simp [ParsedPath.name, ParsedPath.of]

@[simp] lemma ParsedPath.of_hash : (ParsedPath.of hash (cs ++ [c])).hash = (hash c).toNat := by
  simp [ParsedPath.hash, ParsedPath.of]

@[simp] lemma ParsedPath.of_hashes :
    (ParsedPath.of hash cs).hashes = cs.map fun c => (hash c).toNat := rfl

@[simp] lemma ParsedPath.of_components : (ParsedPath.of hash cs).components = cs := rfl

@[simp] lemma ParsedPath.of_normalizedPath :
    (ParsedPath.of hash cs).normalizedPath = joinPath cs := rfl

lemma prefix_of_slashed : ∀ {cs ds : List Bytes} {r : Bytes}, (∀ c ∈ cs, IsName c) →
    (∀ c ∈ ds, IsName c) → (r = [] ∨ ∃ t, r = slash :: t) → slashed ds = slashed cs ++ r →
    cs <+: ds
  | [], ds, _, _, _, _, _ => List.nil_prefix
  | c :: cs, [], r, _, _, _, h => by simp at h
  | c :: cs, d :: ds, r, hcs, hds, hr, h => by
      have hrest : slashed cs ++ r = [] ∨ ∃ t, slashed cs ++ r = slash :: t := by
        rcases slashed_head cs with h1 | ⟨t, h1⟩
        · simpa [h1] using hr
        · exact Or.inr ⟨t ++ r, by simp [h1]⟩
      have h' : d ++ slashed ds = c ++ (slashed cs ++ r) := by simpa using h
      obtain ⟨rfl, h2⟩ := component_inj (hds d (by simp)).no_slash (hcs c (by simp)).no_slash
        (slashed_head ds) hrest h'
      exact List.cons_prefix_cons.mpr ⟨rfl, prefix_of_slashed (fun c hc => hcs c (by simp [hc]))
        (fun c hc => hds c (by simp [hc])) hr h2⟩

/-- **`is_prefix_path` is the prefix order of component lists.** -/
lemma isPrefixPath_joinPath (hcs : ∀ c ∈ cs, IsName c) (hds : ∀ c ∈ ds, IsName c) :
    isPrefixPath (joinPath cs) (joinPath ds) = true ↔ cs <+: ds := by
  rw [isPrefixPath]
  by_cases hne : cs = []
  · subst hne
    simp [joinPath]
  rw [if_neg (by rw [joinPath_eq_slash hcs]; exact hne)]
  rw [joinPath_of_ne_nil hne]
  constructor
  · intro h
    split_ifs at h with h1 h2
    have htake : joinPath ds = slashed cs ++ (joinPath ds).drop (slashed cs).length := by
      have := List.take_append_drop (slashed cs).length (joinPath ds)
      rw [not_not.mp h2] at this
      exact this.symm
    have hrest : (joinPath ds).drop (slashed cs).length = [] ∨
        ∃ t, (joinPath ds).drop (slashed cs).length = slash :: t := by
      rw [Bool.or_eq_true, beq_iff_eq, beq_iff_eq] at h
      rcases h with h | h
      · exact Or.inl (List.drop_eq_nil_of_le h.le)
      · obtain ⟨hlt, hget⟩ := List.getElem?_eq_some_iff.mp h
        exact Or.inr ⟨_, by rw [List.drop_eq_getElem_cons hlt, hget]⟩
    by_cases hds0 : ds = []
    · -- the root path is one byte long
      subst hds0
      have := slashed_length hcs hne
      simp [joinPath] at h1
      omega
    · rw [joinPath_of_ne_nil hds0] at htake hrest
      exact prefix_of_slashed hcs hds hrest htake
  · rintro ⟨es, rfl⟩
    rw [joinPath_of_ne_nil (by simp [hne]), slashed_append]
    rw [if_neg (by simp), if_neg (by simp)]
    rcases slashed_head es with h1 | ⟨t, h1⟩
    · simp [h1]
    · simp [h1]

end MasstreeLHM
