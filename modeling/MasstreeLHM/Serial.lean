import Mathlib.Data.List.Permutation
import MasstreeLHM.Clients

/-!
# Clients that keep out of each other's way

When every step of a call finds the directory it has come to still at its path, the last step of the
call does what the whole call would do in its place.  The calls are then as if they had been run one
after another, in the order in which they return.

`Task.Ok` is what a task knows about its call: the hashes that it has gone along, the node that it
holds, and what it has seen in the slot.  The steps of a call but the last one only look
(**`Ok.step_inr`**), and the last one does what the whole call would do (**`Ok.perform_of_step`**),
so an order of the calls is the order of their last steps.

`Clients.InOrder` is the invariant of a run, with the calls that have returned as a sequential run.
**`InOrder.step`** keeps it for every careful step of every client.  That what was created stays
visible follows from the registry of the sequential run (`visibleUntilRemoved`).  `racingSteps` is
what happens without the condition: two creations at one path both succeed.
-/

namespace MasstreeLHM

variable {hash : Bytes → UInt64} {s : LhmNamespace} {t : Task} {a r : Ptr}

/-! ## Cursors look at the root only -/

lemma SameRoot.findWith (h : SameRoot s.heap a r) (cmp : Slot Cell → ℤ) (x : ℕ) :
    findWith cmp s.heap a x = MasstreeLHM.findWith cmp s.heap r x := by
  have hreach : reachLeaf s.heap a x = reachLeaf s.heap r x := by
    rw [reachLeaf, reachLeaf, show climbToRoot _ _ a = climbToRoot _ _ r from h]
  rw [MasstreeLHM.findWith, MasstreeLHM.findWith, hreach]

lemma SameRoot.lookupChildSlot (h : SameRoot s.heap a r) (x : ℕ) :
    lookupChildSlotFromParentRoot s.heap a x = lookupChildSlotFromParentRoot s.heap r x := by
  rw [lookupChildSlotFromParentRoot, lookupChildSlotFromParentRoot, h.findWith]

lemma SameRoot.lookupChild (h : SameRoot s.heap a r) (name : Bytes) (x : ℕ) :
    s.lookupChildFromParentRoot a name x = s.lookupChildFromParentRoot r name x := by
  rw [LhmNamespace.lookupChildFromParentRoot, LhmNamespace.lookupChildFromParentRoot,
    h.lookupChildSlot]

lemma SameRoot.removeAt (h : SameRoot s.heap a r) (p : ParsedPath) :
    s.removeAt a p = s.removeAt r p := by
  rw [LhmNamespace.removeAt, LhmNamespace.removeAt, h.findWith]

lemma SameRoot.createLayerAt (h : SameRoot s.heap a r) (p : ParsedPath) (ref : InodeRef) :
    s.createLayerAt a p ref = s.createLayerAt r p ref := by
  rw [LhmNamespace.createLayerAt, LhmNamespace.createLayerAt, LhmNamespace.insertLayer,
    LhmNamespace.insertLayer, h.findWith]

lemma SameRoot.insertFileAt (h : SameRoot s.heap a r) (p : ParsedPath) (ref : InodeRef) :
    s.insertFileAt a p ref = s.insertFileAt r p ref := by
  rw [LhmNamespace.insertFileAt, LhmNamespace.insertFileAt, LhmNamespace.findInsert,
    LhmNamespace.findInsert, h.findWith]

/-! ## A call at its parent directory -/

namespace Task

/-- The answer of an operation that returns whether it has succeeded. -/
def answers (o : Option (Bool × LhmNamespace)) : Option (Answer × LhmNamespace) :=
  o.map fun p => (.done p.1, p.2)

/-- The rest of a call that has located the directory `r`, at one go. -/
def finish (s : LhmNamespace) (t : Task) (r : Ptr) : Option (Answer × LhmNamespace) :=
  match t.call with
  | .mkdir _ ref =>
      (lookupChildSlotFromParentRoot s.heap r t.parsed.hash).bind fun slot =>
        match slot with
        | .missing => answers (s.createLayerAt r t.parsed ref)
        | _ => some (.done false, s)
  | .creatFile _ ref =>
      (lookupChildSlotFromParentRoot s.heap r t.parsed.hash).bind fun slot =>
        match slot with
        | .missing => answers (s.insertFileAt r t.parsed ref)
        | .layer _ => some (.done false, s)
        | .value v => answers (s.insertIntoConflictChain t.parsed.hash v (t.entry ref))
  | .removePath _ => answers (s.removeAt r t.parsed)
  | .lookupEntry _ =>
      (s.lookupChildFromParentRoot r t.parsed.name t.parsed.hash).map fun e => (.entry e, s)

/-- What a task knows about its call. -/
structure Ok (hash : Bytes → UInt64) (t : Task) : Prop where
  parse : parseAbsolutePath hash t.call.path = some t.parsed
  later : t.call.immediate t.parsed = none
  walk : ∀ gone rest a, t.stage = .walk gone rest a → gone ++ rest = t.parsed.parent.hashes
  insert : ∀ a, t.stage = .insert a → ∀ path, t.call ≠ .removePath path ∧ t.call ≠ .lookupEntry path
  chain : ∀ a v, t.stage = .chain a v → ∃ path ref, t.call = .creatFile path ref

/-- The walk to the parent directory. -/
lemma Ok.locate (h : t.Ok hash) (s : LhmNamespace) :
    s.locateDirectoryRoot t.parsed.parent = locateLoop s.heap s.root t.parsed.parent.hashes := by
  obtain ⟨cs, hcs, hp⟩ := parseAbsolutePath_some h.parse
  rw [LhmNamespace.locateDirectoryRoot]
  rcases List.eq_nil_or_concat' cs with rfl | ⟨ds, c, rfl⟩
  · rw [hp]
    rfl
  · have hds : ∀ d ∈ ds, IsName d := fun d hd => hcs d (by simp [hd])
    rw [hp, ParsedPath.of_parent hds (hcs c (by simp))]
    split
    · next h0 =>
        rw [(joinPath_eq_slash hds).mp h0]
        rfl
    · rfl

/-- **A call is a walk and the rest.** -/
lemma Ok.perform_eq (h : t.Ok hash) (s : LhmNamespace) : t.call.perform hash s
    = (locateLoop s.heap s.root t.parsed.parent.hashes).bind fun o =>
        match o with
        | none => some (t.call.notFound, s)
        | some r => t.finish s r := by
  obtain ⟨call, p, stage⟩ := t
  have hloc := h.locate s
  have hlater := h.later
  have hparse := h.parse
  simp only at hloc hlater hparse ⊢
  rw [← hloc]
  cases call with
  | mkdir path ref =>
      have hp : parseAbsolutePath hash path = some p := hparse
      simp only [BasicCall.immediate, ite_eq_right_iff, reduceCtorEq, imp_false, not_or,
        Bool.not_eq_false] at hlater
      obtain ⟨h1, h2, h3⟩ := hlater
      simp only [BasicCall.perform, LhmNamespace.mkdir, hp, Option.bind_eq_bind, Option.bind_some,
        LhmNamespace.createDirectoryFromParsed, if_neg h1, if_neg h2, h3, Bool.not_true,
        Bool.false_eq_true, if_false, finish, BasicCall.notFound]
      rcases s.locateDirectoryRoot p.parent with _ | _ | r
      · rfl
      · rfl
      · simp only [Option.bind_some]
        rcases lookupChildSlotFromParentRoot s.heap r p.hash with _ | _ | _ | _ <;> rfl
  | creatFile path ref =>
      have hp : parseAbsolutePath hash path = some p := hparse
      simp only [BasicCall.immediate, ite_eq_right_iff, reduceCtorEq, imp_false, not_or,
        Bool.not_eq_false] at hlater
      obtain ⟨h1, h2, h3⟩ := hlater
      simp only [BasicCall.perform, LhmNamespace.creatFile, LhmNamespace.createEntry, hp,
        Option.bind_eq_bind, Option.bind_some, LhmNamespace.createEntryFromParsed, reduceCtorEq,
        LhmNamespace.createFileFromParsed, if_neg h1, if_neg h2, h3, Bool.not_true,
        Bool.false_eq_true, if_false, finish, BasicCall.notFound]
      rcases s.locateDirectoryRoot p.parent with _ | _ | r
      · rfl
      · rfl
      · simp only [Option.bind_some]
        rcases lookupChildSlotFromParentRoot s.heap r p.hash with _ | _ | _ | _ <;> rfl
  | removePath path =>
      have hp : parseAbsolutePath hash path = some p := hparse
      simp only [BasicCall.immediate, ite_eq_right_iff, reduceCtorEq, imp_false] at hlater
      simp only [BasicCall.perform, LhmNamespace.removeEntry, hp, Option.bind_eq_bind,
        Option.bind_some, LhmNamespace.removeEntryFromParsed, if_neg hlater, finish,
        BasicCall.notFound]
      rcases s.locateDirectoryRoot p.parent with _ | _ | r <;> rfl
  | lookupEntry path =>
      have hp : parseAbsolutePath hash path = some p := hparse
      simp only [BasicCall.immediate] at hlater
      split at hlater
      · cases hlater
      next h1 =>
      split at hlater
      · cases hlater
      next h2 =>
      simp only [BasicCall.perform, LhmNamespace.lookupEntry, hp, Option.bind_eq_bind,
        Option.bind_some, LhmNamespace.lookupEntryFromParsed, if_neg h1, if_neg h2, finish,
        BasicCall.notFound]
      rcases s.locateDirectoryRoot p.parent with _ | _ | r <;> rfl

/-- A call that returns at once. -/
lemma perform_immediate {call : BasicCall} {p : ParsedPath} {x : Answer}
    (hp : parseAbsolutePath hash call.path = some p) (h : call.immediate p = some x)
    (s : LhmNamespace) : call.perform hash s = some (x, s) := by
  cases call with
  | mkdir path ref =>
      have hp : parseAbsolutePath hash path = some p := hp
      simp only [BasicCall.immediate] at h
      split at h
      · next hc =>
          obtain rfl := Option.some.inj h
          simp only [BasicCall.perform, LhmNamespace.mkdir, hp, Option.bind_eq_bind,
            Option.bind_some, LhmNamespace.createDirectoryFromParsed]
          split
          · rfl
          · split
            · rfl
            · rw [if_pos (by simp_all)]
              rfl
      · cases h
  | creatFile path ref =>
      have hp : parseAbsolutePath hash path = some p := hp
      simp only [BasicCall.immediate] at h
      split at h
      · next hc =>
          obtain rfl := Option.some.inj h
          simp only [BasicCall.perform, LhmNamespace.creatFile, LhmNamespace.createEntry, hp,
            Option.bind_eq_bind, Option.bind_some, LhmNamespace.createEntryFromParsed, reduceCtorEq,
            if_false, LhmNamespace.createFileFromParsed]
          split
          · rfl
          · split
            · rfl
            · rw [if_pos (by simp_all)]
              rfl
      · cases h
  | removePath path =>
      have hp : parseAbsolutePath hash path = some p := hp
      simp only [BasicCall.immediate] at h
      split at h
      · next hc =>
          obtain rfl := Option.some.inj h
          simp only [BasicCall.perform, LhmNamespace.removeEntry, hp, Option.bind_eq_bind,
            Option.bind_some, LhmNamespace.removeEntryFromParsed, if_pos hc]
          rfl
      · cases h
  | lookupEntry path =>
      have hp : parseAbsolutePath hash path = some p := hp
      simp only [BasicCall.immediate] at h
      split at h
      · next hc =>
          obtain rfl := Option.some.inj h
          simp only [BasicCall.perform, LhmNamespace.lookupEntry, hp, Option.bind_eq_bind,
            Option.bind_some, LhmNamespace.lookupEntryFromParsed, if_pos hc]
          rfl
      · next hc =>
          split at h
          · next hc' =>
              obtain rfl := Option.some.inj h
              simp only [BasicCall.perform, LhmNamespace.lookupEntry, hp, Option.bind_eq_bind,
                Option.bind_some, LhmNamespace.lookupEntryFromParsed, if_neg hc, if_pos hc']
              rfl
          · cases h

/-! ## The last step of a call -/

lemma locateLoop_append (h : Heap Cell) (ys : List ℕ) : ∀ (xs : List ℕ) (a : Ptr),
    locateLoop h a (xs ++ ys) = (locateLoop h a xs).bind fun o =>
      match o with
      | none => some none
      | some r => locateLoop h r ys
  | [], a => rfl
  | x :: xs, a => by
      rw [List.cons_append, locateLoop, locateLoop]
      rcases lookupChildSlotFromParentRoot h a x with _ | _ | r | v
      · rfl
      · rfl
      · exact locateLoop_append h ys xs r
      · rfl

lemma finish_congr (h : SameRoot s.heap a r) : t.finish s a = t.finish s r := by
  rw [finish, finish]
  split
  · rw [h.lookupChildSlot, h.createLayerAt]
  · rw [h.lookupChildSlot, h.insertFileAt]
  · rw [h.removeAt]
  · rw [h.lookupChild]

/-- A call that returns right after the probe. -/
lemma finish_of_atParent {s' : LhmNamespace} {x : Answer}
    (h : t.atParent s a = some (s', .inl x)) : t.finish s a = some (x, s') := by
  obtain ⟨call, p, stage⟩ := t
  cases call with
  | mkdir path ref =>
      simp only [atParent, finish] at h ⊢
      obtain ⟨slot, h1, h2⟩ := Option.map_eq_some_iff.mp h
      rw [h1, Option.bind_some]
      cases slot with
      | missing => cases h2
      | layer b => cases h2; rfl
      | value v => cases h2; rfl
  | creatFile path ref =>
      simp only [atParent, finish] at h ⊢
      obtain ⟨slot, h1, h2⟩ := Option.map_eq_some_iff.mp h
      rw [h1, Option.bind_some]
      cases slot with
      | missing => cases h2
      | layer b => cases h2; rfl
      | value v => cases h2
  | removePath path =>
      simp only [atParent, finish, returns, answers] at h ⊢
      obtain ⟨q, h1, h2⟩ := Option.map_eq_some_iff.mp h
      cases h2
      rw [h1, Option.map_some]
  | lookupEntry path =>
      simp only [atParent, finish] at h ⊢
      obtain ⟨e, h1, h2⟩ := Option.map_eq_some_iff.mp h
      cases h2
      rw [h1, Option.map_some]

/-- `create_layer_with_meta` looks at the slot again. -/
lemma createLayerAt_of_slot {p : ParsedPath} {ref : InodeRef} {slot : ChildSlot}
    (h : lookupChildSlotFromParentRoot s.heap a p.hash = some slot) (hne : slot ≠ .missing) :
    s.createLayerAt a p ref = some (false, s) := by
  rw [lookupChildSlotFromParentRoot] at h
  rw [LhmNamespace.createLayerAt, LhmNamespace.insertLayer]
  cases hc : findWith (edgeCompare p.hash) s.heap a p.hash with
  | none => simp [hc] at h
  | some c =>
      rw [hc] at h
      cases hp : c.p with
      | none =>
          simp only [Option.bind_eq_bind, Option.bind_some, hp, Option.pure_def,
            Option.some.injEq] at h
          exact absurd h.symm hne
      | some i => simp [hp]

/-- `find_insert` finds a value. -/
lemma insertFileAt_of_value {G : Ghost} {T : Table} {f : Ptr} (hR : Represents s G T)
    (ha : Represents.Handle s G a f) {p : ParsedPath} (hp : p.hash < ikeyLimit) {ref : InodeRef}
    {v : NamespaceEntry}
    (h : lookupChildSlotFromParentRoot s.heap a p.hash = some (.value v)) :
    s.insertFileAt a p ref = some (false, s) := by
  have hcell : T.cell f p.hash = some (.value v) := by
    rw [hR.lookupChildSlot_eq ha hp, Option.some.injEq] at h
    cases hc : T.cell f p.hash with
    | none => simp [hc] at h
    | some c =>
        cases c with
        | directory g => simp [hc] at h
        | value w => simpa [hc] using h
  obtain ⟨cur, l, i, h1, -⟩ := hR.findInsert_found ha hcell
  simp [LhmNamespace.insertFileAt, h1]

/-- A name that is taken is not chained again. -/
lemma insertIntoConflictChain_of_nameTaken {v e : NamespaceEntry} {x : ℕ}
    (h : s.nameTaken v e.name) : s.insertIntoConflictChain x v e = some (false, s) := by
  rw [LhmNamespace.nameTaken] at h
  rw [LhmNamespace.insertIntoConflictChain]
  split_ifs at h ⊢ with hk
  · cases hb : s.findBucket v.ref.blockId with
    | none => rfl
    | some es =>
        rw [hb] at h
        simp only at h ⊢
        rw [if_pos h]
        rfl
  · rfl

/-- The directory that a task has come to, in the table. -/
lemma Ok.handle (h : t.Ok hash) {G : Ghost} {T : Table} (hR : Represents s G T)
    (hr : locateLoop s.heap s.root t.parsed.parent.hashes = some (some r)) :
    Represents.Handle s G r (G.fam r) := by
  obtain ⟨cs, hcs, hp⟩ := parseAbsolutePath_some h.parse
  have hlt : ∀ x ∈ t.parsed.parent.hashes, x < ikeyLimit := by
    rw [hp]
    intro x hx
    obtain ⟨c, -, rfl⟩ := List.mem_map.mp (List.dropLast_subset _ hx)
    exact hash_lt hash c
  obtain ⟨o, h1, -, h3, -⟩ := hR.locateLoop_eq _ hR.handle_root hlt
  rw [hr] at h1
  exact h3 r (Option.some.inj h1).symm

lemma Ok.hash_lt (h : t.Ok hash) : t.parsed.hash < ikeyLimit := by
  obtain ⟨cs, hcs, hp⟩ := parseAbsolutePath_some h.parse
  rcases List.eq_nil_or_concat' cs with rfl | ⟨ds, c, rfl⟩
  · rw [hp]
    exact Nat.two_pow_pos 64
  · rw [hp, ParsedPath.of_hash]
    exact MasstreeLHM.hash_lt hash c

/-- The rest of a call that goes on to insert. -/
lemma Ok.finish_of_insert (h : t.Ok hash) {G : Ghost} {T : Table} (hR : Represents s G T)
    (ha : t.stage = .insert a) (hr : Represents.Handle s G r (G.fam r))
    (hsame : SameRoot s.heap a r) (hslot : t.slotOk s) {s' : LhmNamespace} {x : Answer}
    (hstep : t.step s = some (s', .inl x)) : t.finish s r = some (x, s') := by
  have hlt := h.hash_lt
  have hinsert := h.insert a ha
  obtain ⟨call, p, stage⟩ := t
  obtain rfl : stage = .insert a := ha
  cases call with
  | mkdir path ref =>
      simp only [step, returns] at hstep
      obtain ⟨q, h1, h2⟩ := Option.map_eq_some_iff.mp hstep
      cases h2
      rw [hsame.createLayerAt] at h1
      obtain ⟨slot, hlook⟩ :
          ∃ slot, lookupChildSlotFromParentRoot s.heap r p.hash = some slot :=
        ⟨_, hR.lookupChildSlot_eq hr hlt⟩
      simp only [finish]
      rw [hlook, Option.bind_some]
      cases slot with
      | missing => simp only [answers, h1, Option.map_some]
      | layer b =>
          rw [createLayerAt_of_slot hlook (by simp)] at h1
          cases h1
          rfl
      | value v =>
          rw [createLayerAt_of_slot hlook (by simp)] at h1
          cases h1
          rfl
  | creatFile path ref =>
      simp only [step, returns] at hstep
      obtain ⟨q, h1, h2⟩ := Option.map_eq_some_iff.mp hstep
      cases h2
      rw [hsame.insertFileAt] at h1
      simp only [slotOk, hsame.lookupChildSlot] at hslot
      simp only [finish]
      split at hslot
      · next h3 =>
          rw [h3]
          simp only [Option.bind_some, answers, h1, Option.map_some]
      · next v h3 =>
          rw [insertFileAt_of_value hR hr hlt h3] at h1
          cases h1
          rw [h3]
          simp only [Option.bind_some, answers, Task.entry]
          rw [insertIntoConflictChain_of_nameTaken hslot, Option.map_some]
      · cases hslot
  | removePath path => exact absurd rfl (hinsert path).1
  | lookupEntry path => exact absurd rfl (hinsert path).2

/-- The rest of a call that goes on to the chain of the slot. -/
lemma Ok.finish_of_chain (h : t.Ok hash) {v : NamespaceEntry} (ha : t.stage = .chain a v)
    (hsame : SameRoot s.heap a r) (hslot : t.slotOk s) {s' : LhmNamespace} {x : Answer}
    (hstep : t.step s = some (s', .inl x)) : t.finish s r = some (x, s') := by
  obtain ⟨path, ref, hcall⟩ := h.chain a v ha
  obtain ⟨call, p, stage⟩ := t
  obtain rfl : stage = .chain a v := ha
  obtain rfl : call = .creatFile path ref := hcall
  simp only [slotOk, hsame.lookupChildSlot, decide_eq_true_eq] at hslot
  simp only [step, returns] at hstep
  obtain ⟨q, h1, h2⟩ := Option.map_eq_some_iff.mp hstep
  cases h2
  simp only [finish]
  rw [hslot]
  simp only [Option.bind_some, answers, h1, Option.map_some]

/-- A call whose parent directory is `r`. -/
lemma Ok.perform_at (h : t.Ok hash)
    (hr : locateLoop s.heap s.root t.parsed.parent.hashes = some (some r)) :
    t.call.perform hash s = t.finish s r := by
  rw [h.perform_eq, hr, Option.bind_some]

/-- **The last step of a call does what the whole call would do.** -/
lemma Ok.perform_of_step (h : t.Ok hash) {G : Ghost} {T : Table} (hR : Represents s G T)
    (hcur : t.Current s) {s' : LhmNamespace} {x : Answer} (hstep : t.step s = some (s', .inl x)) :
    t.call.perform hash s = some (x, s') := by
  obtain ⟨⟨r, hr, hsame⟩, hslot⟩ := hcur
  have hr : locateLoop s.heap s.root t.gone = some (some r) := Option.join_eq_some_iff.mp hr
  cases hst : t.stage with
  | walk gone rest a =>
      have hrest := h.walk gone rest a hst
      simp only [Task.gone, node, hst] at hr hsame
      cases rest with
      | cons y rest =>
          simp only [step, hst] at hstep
          obtain ⟨slot, h1, h2⟩ := Option.map_eq_some_iff.mp hstep
          rw [hsame.lookupChildSlot] at h1
          rw [h.perform_eq, ← hrest, locateLoop_append, hr, Option.bind_some]
          simp only [locateLoop, h1, Option.bind_eq_bind, Option.bind_some]
          cases slot with
          | layer b => cases h2
          | missing => cases h2; rfl
          | value v => cases h2; rfl
      | nil =>
          rw [List.append_nil] at hrest
          rw [hrest] at hr
          simp only [step, hst] at hstep
          rw [h.perform_at hr, ← finish_congr hsame]
          exact finish_of_atParent hstep
  | insert a =>
      simp only [Task.gone, node, hst] at hr hsame
      rw [h.perform_at hr]
      exact h.finish_of_insert hR hst (h.handle hR hr) hsame hslot hstep
  | chain a v =>
      simp only [Task.gone, node, hst] at hr hsame
      rw [h.perform_at hr]
      exact h.finish_of_chain hst hsame hslot hstep

/-- Nothing is removed from a slot that is not there. -/
lemma removeAt_of_missing {p : ParsedPath}
    (h : lookupChildSlotFromParentRoot s.heap a p.hash = some .missing) :
    s.removeAt a p = some (false, s) := by
  rw [lookupChildSlotFromParentRoot] at h
  rw [LhmNamespace.removeAt]
  obtain ⟨c, hc, h⟩ := Option.bind_eq_some_iff.mp h
  rw [hc]
  simp only [Option.bind_eq_bind, Option.bind_some]
  cases hp : c.p with
  | none => rfl
  | some i =>
      simp only [hp] at h ⊢
      split_ifs at h with h1 h2
      · obtain ⟨b, -, h3⟩ := Option.bind_eq_some_iff.mp h
        obtain ⟨d, -, h4⟩ := Option.bind_eq_some_iff.mp h3
        cases h4
      · rw [if_neg h1, if_pos h2]
        rfl
      · obtain ⟨v, -, h3⟩ := Option.bind_eq_some_iff.mp h
        cases h3

/-- The step of a call that has lost its directory. -/
lemma Ok.step_of_lost (h : t.Ok hash) (hlost : t.Lost s) :
    (t.step s = some (s, .inl t.call.notFound) ∨ ∃ t', t.step s = some (s, .inr t')) ∧
      t.call.perform hash s = some (t.call.notFound, s) := by
  obtain ⟨hr, hslot⟩ := hlost
  cases hst : t.stage with
  | walk gone rest a =>
      simp only [Task.gone, findsNothing, hst, decide_eq_true_eq] at hr hslot
      refine ⟨?_, ?_⟩
      · cases rest with
        | cons y rest =>
            simp only [List.headD_cons] at hslot
            left
            simp only [step, hst, hslot, Option.map_some]
        | nil =>
            simp only [List.headD_nil] at hslot
            simp only [step, hst]
            cases hcall : t.call with
            | mkdir path ref =>
                simp only [atParent, hcall, hslot, Option.map_some]
                exact Or.inr ⟨_, rfl⟩
            | creatFile path ref =>
                simp only [atParent, hcall, hslot, Option.map_some]
                exact Or.inr ⟨_, rfl⟩
            | removePath path =>
                simp only [atParent, hcall, removeAt_of_missing hslot]
                exact Or.inl rfl
            | lookupEntry path =>
                simp only [atParent, hcall, LhmNamespace.lookupChildFromParentRoot, hslot]
                exact Or.inl rfl
      · rw [h.perform_eq, ← h.walk gone rest a hst, locateLoop_append, hr]
        rfl
  | insert a => simp [findsNothing, hst] at hslot
  | chain a v => simp [findsNothing, hst] at hslot

/-- Any other step at the parent directory only looks. -/
lemma Ok.atParent_inr (h : t.Ok hash) {s' : LhmNamespace} {t' : Task}
    (hstep : t.atParent s a = some (s', .inr t')) : s' = s ∧ t'.Ok hash := by
  have hparse := h.parse
  have hlater := h.later
  obtain ⟨call, p, stage⟩ := t
  cases call with
  | mkdir path ref =>
      simp only [atParent] at hstep
      obtain ⟨slot, h1, h2⟩ := Option.map_eq_some_iff.mp hstep
      cases slot with
      | missing =>
          cases h2
          exact ⟨rfl, hparse, hlater, by simp, by simp, by simp⟩
      | layer b => cases h2
      | value v => cases h2
  | creatFile path ref =>
      simp only [atParent] at hstep
      obtain ⟨slot, h1, h2⟩ := Option.map_eq_some_iff.mp hstep
      cases slot with
      | missing =>
          cases h2
          exact ⟨rfl, hparse, hlater, by simp, by simp, by simp⟩
      | layer b => cases h2
      | value v =>
          cases h2
          exact ⟨rfl, hparse, hlater, by simp, by simp, by simp⟩
  | removePath path =>
      simp only [atParent, returns] at hstep
      obtain ⟨q, h1, h2⟩ := Option.map_eq_some_iff.mp hstep
      cases h2
  | lookupEntry path =>
      simp only [atParent] at hstep
      obtain ⟨q, h1, h2⟩ := Option.map_eq_some_iff.mp hstep
      cases h2

lemma returns_ne_inr {o : Option (Bool × LhmNamespace)} {s' : LhmNamespace} {t' : Task} :
    returns o ≠ some (s', .inr t') := by
  intro h0
  obtain ⟨q, h1, h2⟩ := Option.map_eq_some_iff.mp h0
  cases h2

/-- **Any other step of a call only looks.** -/
lemma Ok.step_inr (h : t.Ok hash) {s' : LhmNamespace} {t' : Task}
    (hstep : t.step s = some (s', .inr t')) : s' = s ∧ t'.Ok hash := by
  cases hst : t.stage with
  | walk gone rest a =>
      cases rest with
      | nil =>
          simp only [step, hst] at hstep
          exact h.atParent_inr hstep
      | cons x rest =>
          simp only [step, hst] at hstep
          obtain ⟨slot, h1, h2⟩ := Option.map_eq_some_iff.mp hstep
          cases slot with
          | missing => cases h2
          | value v => cases h2
          | layer b =>
              cases h2
              refine ⟨rfl, h.parse, h.later, ?_, by simp, by simp⟩
              rintro gone' rest' a' ⟨⟩
              rw [List.append_assoc]
              exact h.walk gone (x :: rest) a hst
  | insert a =>
      have hcall := h.insert a hst
      cases hc : t.call with
      | mkdir path ref =>
          simp only [step, hst, hc] at hstep
          exact absurd hstep returns_ne_inr
      | creatFile path ref =>
          simp only [step, hst, hc] at hstep
          exact absurd hstep returns_ne_inr
      | removePath path => exact absurd hc (hcall path).1
      | lookupEntry path => exact absurd hc (hcall path).2
  | chain a v =>
      obtain ⟨path, ref, hc⟩ := h.chain a v hst
      simp only [step, hst, hc] at hstep
      exact absurd hstep returns_ne_inr

/-- A step of a creation that goes on to insert returns. -/
lemma Ok.insert_returns (h : t.Ok hash) {G : Ghost} {T : Table} (hR : Represents s G T)
    (ha : t.stage = .insert a) (hr : Represents.Handle s G r (G.fam r))
    (hsame : SameRoot s.heap a r) (hfin : t.finish s r ≠ none) (hslot : t.slotOk s) :
    t.step s ≠ none := by
  have hlt := h.hash_lt
  have hinsert := h.insert a ha
  obtain ⟨call, p, stage⟩ := t
  obtain rfl : stage = .insert a := ha
  cases call with
  | mkdir path ref =>
      simp only [step, returns, ne_eq, Option.map_eq_none_iff]
      rw [hsame.createLayerAt]
      obtain ⟨slot, hlook⟩ :
          ∃ slot, lookupChildSlotFromParentRoot s.heap r p.hash = some slot :=
        ⟨_, hR.lookupChildSlot_eq hr hlt⟩
      by_cases h0 : slot = .missing
      · subst h0
        simpa only [finish, hlook, Option.bind_some, answers, ne_eq, Option.map_eq_none_iff]
          using hfin
      · rw [createLayerAt_of_slot hlook h0]
        simp
  | creatFile path ref =>
      simp only [step, returns, ne_eq, Option.map_eq_none_iff]
      rw [hsame.insertFileAt]
      simp only [slotOk, hsame.lookupChildSlot] at hslot
      split at hslot
      · next h3 =>
          simpa only [finish, h3, Option.bind_some, answers, ne_eq, Option.map_eq_none_iff]
            using hfin
      · next v h3 =>
          rw [insertFileAt_of_value hR hr hlt h3]
          simp
      · cases hslot
  | removePath path => exact absurd rfl (hinsert path).1
  | lookupEntry path => exact absurd rfl (hinsert path).2

lemma atParent_ne_none (h : t.finish s a ≠ none) : t.atParent s a ≠ none := by
  obtain ⟨call, p, stage⟩ := t
  cases call with
  | mkdir path ref =>
      simp only [atParent, finish, ne_eq, Option.map_eq_none_iff] at h ⊢
      intro h0
      exact h (by rw [h0]; rfl)
  | creatFile path ref =>
      simp only [atParent, finish, ne_eq, Option.map_eq_none_iff] at h ⊢
      intro h0
      exact h (by rw [h0]; rfl)
  | removePath path =>
      simpa only [atParent, finish, returns, answers, ne_eq, Option.map_eq_none_iff] using h
  | lookupEntry path => simpa only [atParent, finish, ne_eq, Option.map_eq_none_iff] using h

/-- **A careful step returns.** -/
lemma Ok.step_returns (h : t.Ok hash) {G : Ghost} {T : Table} (hR : Represents s G T)
    (hcur : t.Current s) : t.step s ≠ none := by
  obtain ⟨⟨r, hr, hsame⟩, hslot⟩ := hcur
  have hr : locateLoop s.heap s.root t.gone = some (some r) := Option.join_eq_some_iff.mp hr
  have hperform : t.call.perform hash s ≠ none := by
    obtain ⟨cs, hcs⟩ : ∃ cs, componentsOf t.call.path = some cs := by
      have hp := h.parse
      rw [parse_eq] at hp
      obtain ⟨cs, hcs, -⟩ := Option.map_eq_some_iff.mp hp
      exact ⟨cs, hcs⟩
    obtain ⟨s', G', g, h1, -⟩ := hR.perform hash hcs
    rw [h1]
    simp
  cases hst : t.stage with
  | walk gone rest a =>
      have hrest := h.walk gone rest a hst
      simp only [Task.gone, node, hst] at hr hsame
      cases rest with
      | cons y rest =>
          simp only [step, hst, ne_eq, Option.map_eq_none_iff]
          rw [hsame.lookupChildSlot]
          rw [h.perform_eq, ← hrest, locateLoop_append, hr, Option.bind_some] at hperform
          intro h0
          exact hperform (by simp [locateLoop, h0])
      | nil =>
          rw [List.append_nil] at hrest
          rw [hrest] at hr
          rw [h.perform_at hr, ← finish_congr hsame] at hperform
          simp only [step, hst]
          exact atParent_ne_none hperform
  | insert a =>
      simp only [Task.gone, node, hst] at hr hsame
      rw [h.perform_at hr] at hperform
      exact h.insert_returns hR hst (h.handle hR hr) hsame hperform hslot
  | chain a v =>
      obtain ⟨path, ref, hcall⟩ := h.chain a v hst
      simp only [Task.gone, node, hst] at hr hsame
      rw [h.perform_at hr] at hperform
      simp only [slotOk, hst, hsame.lookupChildSlot, decide_eq_true_eq] at hslot
      simp only [step, hst, hcall, returns, ne_eq, Option.map_eq_none_iff]
      simpa only [finish, hcall, hslot, Option.bind_some, answers, ne_eq, Option.map_eq_none_iff]
        using hperform

end Task

/-! ## Runs -/

lemma BasicCall.performAll_concat (call : BasicCall) : ∀ (calls : List BasicCall)
    (s : LhmNamespace), performAll hash s (calls ++ [call])
      = (performAll hash s calls).bind fun r =>
          (call.perform hash r.2).map fun q => (r.1 ++ [q.1], q.2)
  | [], s => by
      simp only [List.nil_append, performAll, Option.bind_some]
      cases call.perform hash s <;> rfl
  | d :: calls, s => by
      rw [List.cons_append, performAll, performAll]
      cases d.perform hash s with
      | none => rfl
      | some q =>
          simp only [performAll_concat call calls q.2]
          cases performAll hash q.2 calls with
          | none => rfl
          | some r =>
              simp only [Option.bind_some, Option.map_some]
              cases call.perform hash r.2 <;> rfl

namespace Clients

variable {k k' : Clients} {act : ClientAction}

/-- The calls that have returned are as if they had been run in this order. -/
structure InOrder (hash : Bytes → UInt64) (k : Clients) : Prop where
  run : BasicCall.performAll hash LhmNamespace.initialState (k.history.map Prod.fst)
    = some (k.history.map Prod.snd, k.state)
  accepted : ∀ p ∈ k.history, componentsOf p.1.path ≠ none
  lookups : ∀ p ∈ k.history, ∀ path, p.1 = .lookupEntry path → p.2 ≠ .done true
  tasks : ∀ c t, k.tasks c = some t → t.Ok hash
  table : ∃ G T, Represents k.state G T

lemma start_inOrder (hash : Bytes → UInt64) : InOrder hash start :=
  ⟨rfl, by simp [start], by simp [start], by simp [start], _, _, initialState_represents⟩

lemma accepted_of_parse {path : Bytes} {p : ParsedPath}
    (h : parseAbsolutePath hash path = some p) : componentsOf path ≠ none := by
  rw [parse_eq] at h
  intro h0
  rw [h0] at h
  cases h

/-- A call returns. -/
lemma InOrder.returned (h : k.InOrder hash) {call : BasicCall} {p : ParsedPath} {x : Answer}
    {s : LhmNamespace} (hp : parseAbsolutePath hash call.path = some p)
    (hcall : call.perform hash k.state = some (x, s)) {tasks : ℕ → Option Task}
    (htasks : ∀ c t, tasks c = some t → t.Ok hash) :
    InOrder hash ⟨s, tasks, k.history ++ [(call, x)]⟩ := by
  have haccept := accepted_of_parse hp
  refine ⟨?_, ?_, ?_, htasks, ?_⟩
  · simp only [List.map_append, List.map_cons, List.map_nil]
    rw [BasicCall.performAll_concat, h.run, Option.bind_some, hcall, Option.map_some]
  · intro q hq
    rcases List.mem_append.mp hq with h0 | h0
    · exact h.accepted q h0
    · obtain rfl : q = (call, x) := by simpa using h0
      exact haccept
  · intro q hq path hpath h1
    rcases List.mem_append.mp hq with h0 | h0
    · exact h.lookups q h0 path hpath h1
    · obtain rfl : q = (call, x) := by simpa using h0
      obtain rfl : call = .lookupEntry path := hpath
      obtain ⟨e, -, h2⟩ := Option.map_eq_some_iff.mp hcall
      obtain rfl : x = .done true := h1
      cases h2
  · obtain ⟨G, T, hR⟩ := h.table
    obtain ⟨cs, hcs⟩ := Option.ne_none_iff_exists'.mp haccept
    obtain ⟨s', G', g, h1, -, hR'⟩ := hR.perform hash hcs
    rw [hcall] at h1
    obtain ⟨-, rfl⟩ : _ ∧ s = s' := by simpa using h1
    exact ⟨G', _, hR'⟩

/-- **A careful step keeps the order.** -/
lemma InOrder.step (h : k.InOrder hash) (hcare : k.Careful act)
    (hstep : k.step hash act = some k') : k'.InOrder hash := by
  cases act with
  | invoke c call =>
      simp only [Clients.step] at hstep
      split at hstep
      · next p hc hp =>
          split at hstep
          · next x hx =>
              cases hstep
              exact h.returned hp (Task.perform_immediate hp hx k.state) h.tasks
          · next hx =>
              cases hstep
              refine ⟨h.run, h.accepted, h.lookups, ?_, h.table⟩
              intro d t ht
              simp only [Function.update_apply] at ht
              split_ifs at ht with hd
              · cases ht
                exact ⟨hp, hx, by simp, by simp, by simp⟩
              · exact h.tasks d t ht
      · cases hstep
  | advance c =>
      simp only [Clients.step] at hstep
      split at hstep
      · cases hstep
      · next t ht =>
          have hok := h.tasks c t ht
          split at hstep
          · cases hstep
          · next s x hs =>
              cases hstep
              obtain ⟨G, T, hR⟩ := h.table
              have hperform : t.call.perform hash k.state = some (x, s) := by
                rcases hcare t ht with hcur | hlost
                · exact hok.perform_of_step hR hcur hs
                · obtain ⟨h1 | ⟨t', h1⟩, h2⟩ := hok.step_of_lost hlost
                  · rw [hs] at h1
                    cases h1
                    exact h2
                  · rw [hs] at h1
                    cases h1
              refine h.returned hok.parse hperform ?_
              intro d t' ht'
              rw [Function.update_apply] at ht'
              split_ifs at ht' with hd
              exact h.tasks d t' ht'
          · next s t' hs =>
              cases hstep
              obtain ⟨rfl, hok'⟩ := hok.step_inr hs
              refine ⟨h.run, h.accepted, h.lookups, ?_, h.table⟩
              intro d t₁ ht₁
              simp only [Function.update_apply] at ht₁
              split_ifs at ht₁ with hd
              · cases ht₁
                exact hok'
              · exact h.tasks d t₁ ht₁

/-- A careful run keeps the order. -/
lemma InOrder.steps : ∀ (acts : List ClientAction) {k k' : Clients}, k.InOrder hash →
    k.CarefulSteps hash acts → k.steps hash acts = some k' → k'.InOrder hash
  | [], k, k', h, _, hrun => by
      cases hrun
      exact h
  | act :: acts, k, k', h, ⟨hcare, hrest⟩, hrun => by
      rw [Clients.steps] at hrun
      obtain ⟨k₁, h1, h2⟩ := Option.bind_eq_some_iff.mp hrun
      exact InOrder.steps acts (h.step hcare h1) (hrest k₁ h1) h2

/-- No directory of the table has two slots of one hash. -/
lemma InOrder.distinctSlots (h : k.InOrder hash) : DistinctSlots k.state := by
  intro hs r top hr htop
  obtain ⟨G, T, hR⟩ := h.table
  obtain ⟨o, h1, -, h3, -⟩ := hR.locateLoop_eq (hs.map UInt64.toNat) hR.handle_root (by
    intro x hx
    obtain ⟨y, -, rfl⟩ := List.mem_map.mp hx
    exact y.toNat_lt)
  rw [hr] at h1
  have hhandle := h3 r (Option.some.inj h1).symm
  rw [hR.heap.tree.climbToRoot_eq _ (hR.known hhandle.lt) hhandle.start (by omega)] at htop
  obtain rfl := Option.some.inj htop
  rw [List.Nodup, List.pairwise_map]
  refine (slotsBelow_top hR.heap (hR.known hhandle.lt)).1.imp fun {a b} hab => ?_
  exact hab.ne

end Clients

/-! ## What has been created stays -/

/-- The registry after calls and answers. -/
def Registry.recordAll : ℕ → Registry → List (BasicCall × Answer) → Registry
  | _, t, [] => t
  | i, t, p :: ps => recordAll (i + 1) (t.record i ((componentsOf p.1.path).getD []) p.1 p.2) ps

/-- A run that is routed by names ends in step with its registry. -/
lemma registered_recordAll : ∀ (ps : List (BasicCall × Answer)) {s s' : LhmNamespace} {G : Ghost}
    {T : Table} {n i : ℕ} {t : Registry}, Represents s G T → T.Marked hash n → T.AllNames IsName →
    Registered hash T t i → (∀ p ∈ ps, componentsOf p.1.path ≠ none) →
    BasicCall.RunMeetsNames hash s (ps.map Prod.fst) →
    n + BasicCall.chainsStarted hash s (ps.map Prod.fst) < 2 ^ 32 - 1 →
    BasicCall.performAll hash s (ps.map Prod.fst) = some (ps.map Prod.snd, s') →
    ∃ G' T' j, Represents s' G' T' ∧ Registered hash T' (t.recordAll i ps) j
  | [], s, s', G, T, n, i, t, hR, _, _, hS, _, _, _, hrun => by
      cases hrun
      exact ⟨G, T, i, hR, hS⟩
  | p :: ps, s, s', G, T, n, i, t, hR, hC, hN, hS, haccept, hmeets, hcount, hrun => by
      obtain ⟨cs, hc⟩ := Option.ne_none_iff_exists'.mp (haccept p (by simp))
      obtain ⟨a, s₁, G₁, T₁, m, h1, -, hR₁, hC₁, hN₁, hS₁, hcount₁⟩ :=
        hS.perform hR hC hN hc hmeets.1 hcount
      rw [List.map_cons, BasicCall.performAll, h1] at hrun
      obtain ⟨⟨as, s₂⟩, h2, h3⟩ := Option.map_eq_some_iff.mp hrun
      simp only [List.map_cons, Prod.mk.injEq, List.cons.injEq] at h3
      obtain ⟨⟨rfl, rfl⟩, rfl⟩ := h3
      rw [Registry.recordAll, hc]
      exact registered_recordAll ps hR₁ hC₁ hN₁ hS₁ (fun q hq => haccept q (by simp [hq]))
        (hmeets.2 _ _ h1) hcount₁ h2

namespace Registry

open Clients (Creates Removes)

variable {cs : List Bytes}

/-- What is in the registry stays there until it is removed. -/
lemma recordAll_ne_none : ∀ (ps : List (BasicCall × Answer)) {i : ℕ} {t : Registry}, t cs ≠ none →
    (∀ q ∈ ps, componentsOf q.1.path ≠ none) →
    (∀ q ∈ ps, ∀ path, q.1 = .lookupEntry path → q.2 ≠ .done true) →
    (∀ q ∈ ps, ¬ Removes cs q) → t.recordAll i ps cs ≠ none
  | [], _, _, ht, _, _, _ => ht
  | q :: ps, i, t, ht, haccept, hlook, hrem => by
      refine recordAll_ne_none ps ?_ (fun r hr => haccept r (by simp [hr]))
        (fun r hr => hlook r (by simp [hr])) (fun r hr => hrem r (by simp [hr]))
      rw [record]
      split_ifs with h0
      · obtain ⟨h1, h2⟩ := h0
        obtain ⟨ds, hds⟩ := Option.ne_none_iff_exists'.mp (haccept q (by simp))
        obtain rfl : cs = ds := by simpa [hds] using h1
        have hq := hrem q (by simp)
        have hl := hlook q (by simp)
        cases hcall : q.1 with
        | mkdir path ref => simp [left]
        | creatFile path ref => simp [left]
        | removePath path => exact absurd ⟨h2, hds, path, hcall⟩ hq
        | lookupEntry path => exact absurd h2 (hl path hcall)
      · exact ht

lemma recordAll_append : ∀ (ps qs : List (BasicCall × Answer)) (i : ℕ) (t : Registry),
    t.recordAll i (ps ++ qs) = (t.recordAll i ps).recordAll (i + ps.length) qs
  | [], qs, i, t => rfl
  | p :: ps, qs, i, t => by
      rw [List.cons_append, recordAll, recordAll, recordAll_append, List.length_cons]
      congr 1
      omega

/-- What was created and not removed since is in the registry. -/
lemma recordAll_created {before after : List (BasicCall × Answer)} {p : BasicCall × Answer}
    {t : Registry} (hp : Creates cs p) (haccept : ∀ q ∈ after, componentsOf q.1.path ≠ none)
    (hlook : ∀ q ∈ after, ∀ path, q.1 = .lookupEntry path → q.2 ≠ .done true)
    (hrem : ∀ q ∈ after, ¬ Removes cs q) :
    t.recordAll 0 (before ++ p :: after) cs ≠ none := by
  rw [recordAll_append, recordAll]
  refine recordAll_ne_none after ?_ haccept hlook hrem
  obtain ⟨h1, h2, h3⟩ := hp
  rw [record, if_pos ⟨by rw [h2]; rfl, h1⟩]
  rcases h3 with ⟨path, ref, h3⟩ | ⟨path, ref, h3⟩ <;> simp [h3, left]

end Registry

/-- A path in the registry is found. -/
lemma Registered.lookupEntry {G : Ghost} {T : Table} {u : Registry} {j : ℕ} {cs : List Bytes}
    {path : Bytes} (hS : Registered hash T u j) (hR : Represents s G T)
    (hpath : componentsOf path = some cs) (h : u cs ≠ none) :
    ∃ e, s.lookupEntry hash path = some (some e) := by
  have hparse := parse_eq hash path
  rw [hpath, Option.map_some] at hparse
  rw [hR.lookupEntry_eq hparse (componentsOf_names hpath)]
  rcases List.eq_nil_or_concat' cs with rfl | ⟨ds, c, rfl⟩
  · exact absurd hS.root h
  obtain ⟨f, hf⟩ := Option.ne_none_iff_exists'.mp (hS.parent h)
  obtain ⟨⟨i, n⟩, hn⟩ := Option.ne_none_iff_exists'.mp h
  refine ⟨NameTree.entryOf c n, ?_⟩
  rw [Table.find_concat, Table.resolve_locate _ hf, Option.bind_some, hS.lookup hf, hn]
  rfl

namespace Clients

variable {k : Clients}

lemma InOrder.visibleUntilRemoved (h : k.InOrder hash)
    (hmeets : BasicCall.RunMeetsNames hash LhmNamespace.initialState (k.history.map Prod.fst))
    (hcount : BasicCall.chainsStarted hash LhmNamespace.initialState (k.history.map Prod.fst)
      < 2 ^ 32 - 1) : VisibleUntilRemoved hash k := by
  intro cs before p after hhist hp hrem
  obtain ⟨G, T, j, hR, hS⟩ := registered_recordAll k.history initialState_represents
    (Table.initial_marked hash) (Table.initial_allNames IsName) (initial_registered hash)
    h.accepted hmeets (by omega) h.run
  have hmem : ∀ q ∈ after, q ∈ k.history := fun q hq => by rw [hhist]; simp [hq]
  refine hS.lookupEntry hR hp.2.1 ?_
  rw [hhist]
  exact Registry.recordAll_created hp (fun q hq => h.accepted q (hmem q hq))
    (fun q hq => h.lookups q (hmem q hq)) hrem

end Clients

/-- **Clients in some order.**  In every interleaving whose steps all find the directory that their
call has come to still at its path (or find nothing in it, when there is none any more), and the
slot as the call has left it, every step returns, the answers and the namespace are those of the
calls one after another, and no directory holds two slots for one hash.  If these calls meet
directories of their own names only, start no chain outside `/` and fewer than `2 ^ 32 - 1` in all,
what was created is visible until it is removed. -/
theorem clients_serializable (hash : Bytes → UInt64) (acts : List ClientAction) {k : Clients}
    (hcare : Clients.start.CarefulSteps hash acts)
    (hrun : Clients.start.steps hash acts = some k) :
    (∀ c t, k.tasks c = some t → k.Careful (.advance c) → t.step k.state ≠ none) ∧
      k.Serializable hash ∧ Clients.DistinctSlots k.state ∧
      (BasicCall.RunMeetsNames hash LhmNamespace.initialState (k.history.map Prod.fst) →
        BasicCall.chainsStarted hash LhmNamespace.initialState (k.history.map Prod.fst)
          < 2 ^ 32 - 1 →
        k.VisibleUntilRemoved hash) := by
  have h := (Clients.start_inOrder hash).steps acts hcare hrun
  refine ⟨?_, ⟨k.history, List.Perm.refl _, h.run⟩, h.distinctSlots, h.visibleUntilRemoved⟩
  intro c t ht hcur
  obtain ⟨G, T, hR⟩ := h.table
  rcases hcur t ht with hcur | hlost
  · exact (h.tasks c t ht).step_returns hR hcur
  · obtain ⟨h1 | ⟨t', h1⟩, -⟩ := (h.tasks c t ht).step_of_lost hlost <;> simp [h1]

/-- A client creates a file while another makes a directory. -/
def apartSteps : List ClientAction :=
  [.invoke 0 (.creatFile (joinPath [[102]]) ⟨1, 1⟩), .invoke 1 (.mkdir (joinPath [[100]]) ⟨1, 2⟩),
    .advance 0, .advance 1, .advance 1, .advance 0]

/-- The directory is made first, though the file's creation was begun first. -/
theorem clients_serializable_apartSteps :
    ∃ k, Clients.start.steps hashComponent apartSteps = some k ∧
    k.history.map Prod.snd = [.done true, .done true] ∧ k.Serializable hashComponent ∧
    Clients.DistinctSlots k.state ∧ k.VisibleUntilRemoved hashComponent := by
  have hhist : (Clients.start.steps hashComponent apartSteps).map Clients.history
      = some [(.mkdir (joinPath [[100]]) ⟨1, 2⟩, .done true),
        (.creatFile (joinPath [[102]]) ⟨1, 1⟩, .done true)] := by decide +kernel
  obtain ⟨k, hk, h1⟩ := Option.map_eq_some_iff.mp hhist
  obtain ⟨-, h2, h3, h4⟩ := clients_serializable hashComponent apartSteps (by decide +kernel) hk
  have hmeets : ∀ s (call : BasicCall) (c : Bytes), componentsOf call.path = some [c] →
      call.MeetsNames hashComponent s := by
    intro s call c hc cs hcs
    obtain rfl : [c] = cs := Option.some.inj (hc.symm.trans hcs)
    refine ⟨fun ds d r h => by simp at h, ?_⟩
    rintro - ds d r v hd hds
    rcases ds with _ | ⟨e, ds⟩
    · exact absurd rfl hds
    · simp at hd
  rw [h1] at h4
  refine ⟨k, hk, by rw [h1]; rfl, h2, h3, h4 ⟨?_, fun _ _ _ => ⟨?_, fun _ _ _ => trivial⟩⟩ ?_⟩
  · exact hmeets _ _ [100] (by decide +kernel)
  · exact hmeets _ _ [102] (by decide +kernel)
  · decide +kernel

/-- Two clients find nothing at `/f`; one makes a directory there, and then the other a file. -/
def racingSteps : List ClientAction :=
  [.invoke 0 (.creatFile (joinPath [[102]]) ⟨1, 1⟩), .invoke 1 (.mkdir (joinPath [[102]]) ⟨1, 2⟩),
    .advance 0, .advance 1, .advance 1, .advance 0]

/-- `find_insert` does not see the slot of the directory: both calls succeed, and the root directory
has two slots of one hash. -/
theorem not_serializable_racingSteps : ∃ k, Clients.start.steps hashComponent racingSteps = some k ∧
    ¬ k.Serializable hashComponent ∧ ¬ Clients.DistinctSlots k.state := by
  have hrun : (Clients.start.steps hashComponent racingSteps).map (fun k =>
      (k.history, locateLoop k.state.heap k.state.root [],
        climbToRoot k.state.heap (k.state.heap.size + 1) 0,
        (slotsBelow k.state.heap (k.state.heap.size + 1) 0).map Slot.ikey))
      = some ([(.mkdir (joinPath [[102]]) ⟨1, 2⟩, .done true),
          (.creatFile (joinPath [[102]]) ⟨1, 1⟩, .done true)], some (some 0), some 0,
        [(hashComponent [102]).toNat, (hashComponent [102]).toNat]) := by decide +kernel
  obtain ⟨k, hk, h1⟩ := Option.map_eq_some_iff.mp hrun
  simp only [Prod.mk.injEq] at h1
  obtain ⟨hhist, hroot, htop, hslots⟩ := h1
  refine ⟨k, hk, ?_, ?_⟩
  · rintro ⟨order, hperm, hseq⟩
    -- in either order the second call finds the entry of the first
    rw [hhist] at hperm
    have hboth : order.map Prod.snd = List.replicate 2 (.done true) :=
      List.perm_replicate.mp (hperm.map Prod.snd)
    have hcalls := List.mem_permutations'.mpr (hperm.map Prod.fst)
    have hanswers : ∀ calls ∈ List.permutations' [BasicCall.mkdir (joinPath [[102]]) ⟨1, 2⟩,
        .creatFile (joinPath [[102]]) ⟨1, 1⟩],
        (BasicCall.performAll hashComponent LhmNamespace.initialState calls).map Prod.fst
          ≠ some [.done true, .done true] := by decide +kernel
    refine hanswers _ hcalls ?_
    rw [hseq, Option.map_some, hboth]
    rfl
  · intro hdistinct
    have := hdistinct [] 0 0 hroot htop
    rw [hslots] at this
    simp at this

end MasstreeLHM
