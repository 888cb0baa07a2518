import MasstreeLHM.Chains

/-!
# Colliding files of the root directory

Runs on children of `/`, with any component hash.  Markers and buckets stay in bijection, and a name
is found exactly if it was created and not removed.

`ChainsConsistent` is stated about the state as it is in memory: the live slots of the root layer
(`rootSlots`), the markers in them and the buckets of the side table, with what lookups of children
of `/` find.  `created` computes from the calls and their answers which children should be there.

The proof is about the table.  `Flat` are the tables of such runs, `Marked.performAt` is one call,
and **`performAll_marked`** the run, with `Marked`, `Backed` and what each name finds as the
invariant.  **`performAll_chainsConsistent`** reads the statement about memory off it.  A run is
bounded by the number of chains that it starts, because bucket ids have 32 bits.
-/

namespace MasstreeLHM

variable {hash : Bytes → UInt64}

/-! ## Observing a run -/

/-- The live slots of the root layer, from left to right. -/
def LhmNamespace.rootSlots (s : LhmNamespace) : Option (List (Slot Cell)) :=
  (canonicalizeDirectoryRoot s.heap s.root).map (slotsBelow s.heap (s.heap.size + 1))

/-- A slot holds the marker of bucket `id`. -/
def Slot.IsMarker (sl : Slot Cell) (id : ℕ) : Prop :=
  ∃ v, sl.body = ⟨8, .value v⟩ ∧ v.kind = .conflictChain ∧ v.ref.blockId = id

namespace BasicCall

/-- The number of conflict chains that a run starts: each takes a bucket id. -/
def chainsStarted (hash : Bytes → UInt64) : LhmNamespace → List BasicCall → ℕ
  | _, [] => 0
  | s, call :: calls =>
      match call.perform hash s with
      | none => 0
      | some (_, s') =>
          (if s'.nextConflictBucketId = s.nextConflictBucketId then 0 else 1)
            + chainsStarted hash s' calls

/-- What a successful call leaves under its name. -/
def outcome (name : Bytes) : BasicCall → Option NamespaceEntry
  | mkdir _ ref => some ⟨.directory, ref, name⟩
  | creatFile _ ref => some ⟨.file, ref, name⟩
  | removePath _ => none
  | lookupEntry _ => none

/-- The children of `/` that were created and not removed, after calls with their answers. -/
def created (M : Bytes → Option NamespaceEntry) :
    List BasicCall → List Answer → Bytes → Option NamespaceEntry
  | call :: calls, a :: answers, name =>
      created (fun name => if a = .done true ∧ componentsOf call.path = some [name]
        then call.outcome name else M name) calls answers name
  | _, _, name => M name

end BasicCall

/-- **Markers and buckets of the root directory.** -/
structure ChainsConsistent (hash : Bytes → UInt64) (s : LhmNamespace) (slots : List (Slot Cell)) :
    Prop where
  /-- no hash occurs twice -/
  distinct : (slots.map Slot.ikey).Nodup
  /-- a marker has a bucket of at least two files with distinct names of the hash of the slot -/
  marker : ∀ sl ∈ slots, ∀ id, sl.IsMarker id →
    ∃ es, s.findBucket id = some es ∧ Table.BucketOk hash sl.ikey es
  /-- a bucket has one marker -/
  bucket : ∀ id, s.findBucket id ≠ none → ∃ sl ∈ slots, sl.IsMarker id ∧
    ∀ sl' ∈ slots, sl'.IsMarker id → sl' = sl

lemma Represents.chainsConsistent {s : LhmNamespace} {G : Ghost} {T : Table} {n : ℕ}
    (hR : Represents s G T) (hC : T.Marked hash n) (hB : T.Backed) :
    ∃ slots, s.rootSlots = some slots ∧ ChainsConsistent hash s slots := by
  have htop : canonicalizeDirectoryRoot s.heap s.root = some (G.top (G.fam s.root)) :=
    hR.heap.tree.canonicalizeDirectoryRoot_eq (hR.known hR.root_lt)
  obtain ⟨hsorted, hmem⟩ := slotsBelow_top hR.heap (hR.known hR.root_lt)
  refine ⟨_, by rw [LhmNamespace.rootSlots, htop]; rfl, ?_⟩
  rw [hR.root_fam] at hsorted hmem ⊢
  have hcell : ∀ {sl id}, sl ∈ slotsBelow s.heap (s.heap.size + 1) (G.top T.root) →
      sl.IsMarker id → T.Marker T.root sl.ikey id := by
    rintro sl id hsl ⟨v, h1, h2, h3⟩
    refine ⟨v, ?_, h2, h3⟩
    rw [hR.cell]
    have hsl := (hmem sl).mp hsl
    have : sl = ⟨sl.ikey, (Content.value v).encode⟩ := by
      rw [Content.encode, ← h1]
    rwa [this] at hsl
  refine ⟨?_, ?_, ?_⟩
  · rw [List.Nodup, List.pairwise_map]
    refine hsorted.imp fun {a b} hab => ?_
    rw [byIkey] at hab
    omega
  · intro sl hsl id hid
    obtain ⟨-, es, h1, h2⟩ := hC.marker (hcell hsl hid)
    exact ⟨es, by rw [← hR.bucket]; exact h1, h2⟩
  · intro id hid
    rw [← hR.bucket] at hid
    obtain ⟨x, hx⟩ := hB hid
    obtain ⟨v, h1, h2, h3⟩ := hx
    have hent := (hR.cell _ _ _).mp h1
    refine ⟨⟨x, (Content.value v).encode⟩, (hmem _).mpr hent, ⟨v, rfl, h2, h3⟩, ?_⟩
    intro sl' hsl' hid'
    have hxeq : sl'.ikey = x := hC.unique (hcell hsl' hid') ⟨v, h1, h2, h3⟩
    exact hR.entry_of_some h1 ((hmem sl').mp hsl') hxeq

/-! ## One call, and a run -/

namespace Table

/-- Only the root directory has children. -/
def Flat (T : Table) : Prop := ∀ f x, f ≠ T.root → T.cell f x = none

variable {T : Table} {n : ℕ} {M : Bytes → Option NamespaceEntry} {c : Bytes}

lemma Renames.flat {T' : Table} {x : ℕ} {l : List NamespaceEntry} {m : ℕ}
    (hR : T.Renames T' T.root x l) (hC : T.Marked hash n) (hC' : T'.Marked hash m)
    (hflat : T.Flat) : T'.Flat := by
  intro f y hf
  rw [hR.root] at hf
  rw [← hC'.names_eq_nil, hR.other f y (fun h0 => hf h0.1), hC.names_eq_nil]
  exact hflat f y hf

/-- **A call on a child of `/`**: the chains stay in order, and the answer says what has become
of the name. -/
lemma Marked.performAt (hC : T.Marked hash n) (hB : T.Backed) (hflat : T.Flat)
    (hM : ∀ name, T.lookup T.root name (hash name).toNat = M name) {g : Ptr} (hg : ¬ T.layers g)
    (call : BasicCall)
    (hroom : (T.performAt hash [c] g call).2.nextId ≠ T.nextId → n + 2 < 2 ^ 32) :
    ∃ m, (T.performAt hash [c] g call).2.Marked hash m ∧
      (T.performAt hash [c] g call).2.Backed ∧
      m ≤ n + (if (T.performAt hash [c] g call).2.nextId = T.nextId then 0 else 1) ∧
      (T.performAt hash [c] g call).2.Flat ∧
      ∀ name, (T.performAt hash [c] g call).2.lookup (T.performAt hash [c] g call).2.root name
          (hash name).toNat
        = if (T.performAt hash [c] g call).1 = .done true ∧ c = name then call.outcome name
          else M name := by
  have hp : T.parentOf hash [c] = some (T.root, c) := rfl
  have hroot := hC.closed.root
  cases call with
  | mkdir path ref =>
      rcases hC.mkdir ref hp hroot hg with ⟨h1, h2, h3, -, h4, hB', h5⟩ | ⟨h1, h2, -⟩
      · refine ⟨n, h4, hB' hB, Nat.le_add_right _ _, h5.flat hC h4 hflat, ?_⟩
        intro name
        have hnil : T.names T.root (hash c).toNat = [] := hC.names_eq_nil.mpr h3
        have h6 := Renames.lookup_concat (e := ⟨.directory, ref, c⟩) (by rw [hnil]; exact h5)
          (by rw [lookup, h3]) T.root name
        rw [← hM name]
        simp only [Table.performAt, h1, h5.root, h6, true_and, BasicCall.outcome]
        by_cases h0 : c = name
        · simp [h0]
        · simp [h0, Ne.symm h0]
      · refine ⟨n, ?_, ?_, ?_, ?_, ?_⟩ <;> simp only [Table.performAt, h1, h2]
        · exact hC
        · exact hB
        · omega
        · exact hflat
        · simpa using hM
  | creatFile path ref =>
      have hstart : T.StartsChain hash [c] → entryNameFits c = true →
          T.root = T.root ∧ n + 2 < 2 ^ 32 := by
        intro h1 h2
        refine ⟨rfl, hroom ?_⟩
        rw [Table.performAt, create_nextId ref hp h2 h1]
        omega
      rcases hC.create ref hp hroot hstart with
        ⟨h1, h2, h3, h4, hB', ⟨m, h5, h6⟩, h7, -⟩ | ⟨h1, h2, -⟩
      · refine ⟨m, h5, hB' hB, ?_, h7.flat hC h5 hflat, ?_⟩
        · rcases h6 with ⟨rfl, h6⟩ | ⟨rfl, h6⟩
          · exact Nat.le_add_right _ _
          · rw [Table.performAt, create_nextId ref hp h2 h6, if_neg (by omega)]
        · intro name
          have h8 := Renames.lookup_concat (e := ⟨.file, ref, c⟩) h7 h4 T.root name
          rw [← hM name]
          simp only [Table.performAt, h1, h7.root, h8, true_and, BasicCall.outcome]
          by_cases h0 : c = name
          · simp [h0]
          · simp [h0, Ne.symm h0]
      · refine ⟨n, ?_, ?_, ?_, ?_, ?_⟩ <;> simp only [Table.performAt, h1, h2]
        · exact hC
        · exact hB
        · omega
        · exact hflat
        · simpa using hM
  | removePath path =>
      rcases hC.remove hp hroot with ⟨h1, -, -, h2, hB', h3, -⟩ | ⟨h1, h2, -⟩
      · refine ⟨n, h2, hB' hB, Nat.le_add_right _ _, h3.flat hC h2 hflat, ?_⟩
        intro name
        have h4 := Renames.lookup_erase hC h3 T.root name
        rw [← hM name]
        simp only [Table.performAt, h1, h3.root, h4, true_and, BasicCall.outcome]
        by_cases h0 : c = name
        · simp [h0]
        · simp [h0, Ne.symm h0]
      · refine ⟨n, ?_, ?_, ?_, ?_, ?_⟩ <;> simp only [Table.performAt, h1, h2]
        · exact hC
        · exact hB
        · omega
        · exact hflat
        · simpa using hM
  | lookupEntry path =>
      refine ⟨n, ?_, ?_, ?_, ?_, ?_⟩ <;> simp only [Table.performAt]
      · exact hC
      · exact hB
      · omega
      · exact hflat
      · simpa using hM

end Table

/-- **A run on children of `/`.** -/
lemma performAll_marked : ∀ (calls : List BasicCall) {s : LhmNamespace} {G : Ghost} {T : Table}
    {n : ℕ} {M : Bytes → Option NamespaceEntry}, Represents s G T → T.Marked hash n →
    T.Backed → T.Flat →
    (∀ name, T.lookup T.root name (hash name).toNat = M name) →
    (∀ call ∈ calls, ∃ c, componentsOf call.path = some [c]) →
    n + BasicCall.chainsStarted hash s calls < 2 ^ 32 - 1 →
    ∃ answers s' G' T' m, BasicCall.performAll hash s calls = some (answers, s') ∧
      Represents s' G' T' ∧ T'.Marked hash m ∧ T'.Backed ∧
      ∀ name, T'.lookup T'.root name (hash name).toNat = BasicCall.created M calls answers name
  | [], s, G, T, n, M, hR, hC, hB, _, hM, _, _ => ⟨[], s, G, T, n, rfl, hR, hC, hB, hM⟩
  | call :: calls, s, G, T, n, M, hR, hC, hB, hflat, hM, hone, hcount => by
      obtain ⟨c, hc⟩ := hone call (by simp)
      obtain ⟨s₁, G₁, g, h1, hg, hR₁⟩ := hR.perform hash hc
      rw [BasicCall.chainsStarted, h1] at hcount
      simp only [← hR₁.nextId, ← hR.nextId] at hcount
      obtain ⟨m, hC₁, hB₁, hm, hflat₁, hM₁⟩ := hC.performAt hB hflat hM hg call (c := c) (by
        intro h0
        rw [if_neg h0] at hcount
        omega)
      obtain ⟨answers, s₂, G₂, T₂, m₂, h2, hR₂, hC₂, hB₂, hM₂⟩ := performAll_marked calls hR₁ hC₁
        hB₁ hflat₁ hM₁ (fun d hd => hone d (by simp [hd])) (by omega)
      refine ⟨(T.performAt hash [c] g call).1 :: answers, s₂, G₂, T₂, m₂, ?_, hR₂, hC₂, hB₂, ?_⟩
      · rw [BasicCall.performAll, h1]
        simp only [h2, Option.map_some]
      · intro name
        rw [hM₂, BasicCall.created]
        simp only [hc, Option.some.injEq, List.cons.injEq, and_true]

/-- **Conflict chains of the root directory.**  After any run on children of `/` that starts fewer
than `2 ^ 32 - 1` chains, markers and buckets are in order, and a name is found exactly if it was
created and not removed, with its own inode reference. -/
theorem performAll_chainsConsistent (hash : Bytes → UInt64) (calls : List BasicCall)
    (hone : ∀ call ∈ calls, ∃ c, componentsOf call.path = some [c])
    (hcount : BasicCall.chainsStarted hash LhmNamespace.initialState calls < 2 ^ 32 - 1) :
    ∃ answers s, BasicCall.performAll hash LhmNamespace.initialState calls = some (answers, s) ∧
      (∃ slots, s.rootSlots = some slots ∧ ChainsConsistent hash s slots) ∧
      ∀ path c, componentsOf path = some [c] →
        s.lookupEntry hash path = some (BasicCall.created (fun _ => none) calls answers c) := by
  obtain ⟨answers, s, G, T, m, h1, hR, hC, hB, hM⟩ := performAll_marked calls
    initialState_represents (Table.initial_marked hash) Table.initial_backed (fun _ _ _ => rfl)
      (M := fun _ => none)
    (fun _ => rfl) hone (by omega)
  refine ⟨answers, s, h1, hR.chainsConsistent hC hB, ?_⟩
  intro path c hc
  have hp : parseAbsolutePath hash path = some (ParsedPath.of hash [c]) := by
    rw [parse_eq, hc]
    rfl
  rw [hR.lookupEntry_eq hp (componentsOf_names hc), ← hM]
  rfl

/-- Three files that collide, one of them removed again, and a directory that finds no room. -/
def collidingCalls : List BasicCall :=
  [.creatFile [47, 97] ⟨1, 1⟩, .creatFile [47, 98] ⟨1, 2⟩, .creatFile [47, 99] ⟨1, 3⟩,
    .mkdir [47, 100] ⟨1, 4⟩, .removePath [47, 97], .lookupEntry [47, 98]]

/-- With one hash for all names there is one chain, and a lookup finds the files that are left. -/
theorem performAll_collidingCalls :
    BasicCall.chainsStarted (fun _ => 7) LhmNamespace.initialState collidingCalls = 1 ∧
    ∃ answers s, BasicCall.performAll (fun _ => 7) LhmNamespace.initialState collidingCalls
        = some (answers, s) ∧
      (∃ slots, s.rootSlots = some slots ∧ ChainsConsistent (fun _ => 7) s slots) ∧
      ∀ path c, componentsOf path = some [c] → s.lookupEntry (fun _ => 7) path
        = some (BasicCall.created (fun _ => none) collidingCalls answers c) := by
  have hcount : BasicCall.chainsStarted (fun _ => 7) LhmNamespace.initialState collidingCalls =
    1 := by
    decide +kernel
  refine ⟨hcount, performAll_chainsConsistent (fun _ => 7) collidingCalls ?_ ?_⟩
  · intro call hcall
    simp only [collidingCalls, List.mem_cons, List.not_mem_nil, or_false] at hcall
    rcases hcall with rfl | rfl | rfl | rfl | rfl | rfl
    · exact ⟨[97], by decide⟩
    · exact ⟨[98], by decide⟩
    · exact ⟨[99], by decide⟩
    · exact ⟨[100], by decide⟩
    · exact ⟨[97], by decide⟩
    · exact ⟨[98], by decide⟩
  · rw [hcount]
    decide

end MasstreeLHM
