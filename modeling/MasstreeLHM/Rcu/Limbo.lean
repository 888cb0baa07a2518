import MasstreeLHM.Log.Record

/-!
# Limbo lists

The objects that a thread has retired and not yet freed: `limbo_group` of `kvthread.hh`, and
`record_rcu` and `hard_rcu_quiesce` of `threadinfo`.  Freeing an object may run a callback, which
may retire more objects.

The list is a sequence of groups, and a group has markers with the epoch of the objects behind them.
`labelled` writes the epoch to each object, and `Limbo.pending` are the objects that wait with their
epochs, oldest first: that is what the list is for, without groups and markers.  `Limbo.Ok` is the
invariant between two operations, `Limbo.OkAt` the one in the middle of cleaning.

`OkAt.record` appends one object to what waits.  `Freed` says what cleaning does: it frees the first
of the waiting objects, none with an epoch past a bound, and what the callbacks retire goes to the
end.  It is transitive, so **`hardRcuQuiesce_spec`** follows from `cleanUntil_spec`, the loop over
one group, and `cleanGroups_spec`, the loop over the groups.
-/

namespace MasstreeLHM

/-- `limbo_element`: an object, or a marker with the epoch of the objects behind it. -/
inductive LimboElement (α : Type) where
  | marker (epoch : UInt64)
  | object (o : α)
deriving Repr, DecidableEq

/-- `limbo_group`; `elements` is `e_` up to `tail_`. -/
structure LimboGroup (α : Type) where
  head : ℕ
  elements : List (LimboElement α)
  epoch : UInt64
deriving Repr, DecidableEq

/-- The groups from `limbo_head_` to `limbo_tail_`, and the empty ones linked behind them. -/
structure Limbo (α : Type) where
  groups : List (LimboGroup α)
  spare : List (LimboGroup α)
deriving Repr, DecidableEq

variable {α : Type}

namespace LimboGroup

/-- `capacity`: what fits into 4076 bytes behind the epoch and the link. -/
def capacity : ℕ := (4076 - 8 - 8) / 16

/-- `tail_`. -/
def tail (g : LimboGroup α) : ℕ := g.elements.length

/-- A new group. -/
def fresh : LimboGroup α := ⟨0, [], 0⟩

/-- `push_back`. -/
def pushBack (g : LimboGroup α) (o : α) (epoch : UInt64) : LimboGroup α :=
  if g.head = g.tail ∨ g.epoch ≠ epoch then
    { g with elements := g.elements ++ [.marker epoch, .object o], epoch := epoch }
  else { g with elements := g.elements ++ [.object o] }

/-- The end of `clean_until`: a group that has been cleaned is used from the start again. -/
def reset (g : LimboGroup α) : LimboGroup α :=
  if g.head = g.tail then { g with head := 0, elements := [] } else g

end LimboGroup

namespace Limbo

/-- The limbo list of a new thread. -/
def fresh : Limbo α := ⟨[.fresh], []⟩

/-- `limbo_head_`. -/
def headGroup (l : Limbo α) : LimboGroup α := l.groups.headD .fresh

/-- `limbo_tail_`. -/
def tailGroup (l : Limbo α) : LimboGroup α := l.groups.getLastD .fresh

/-- Overwrite the first group. -/
def setHead (l : Limbo α) (g : LimboGroup α) : Limbo α := { l with groups := g :: l.groups.tail }

/-- `refill_rcu`: go on to the next group, or link a new one. -/
def refill (l : Limbo α) : Limbo α :=
  ⟨l.groups ++ [l.spare.headD .fresh], l.spare.tail⟩

/-- `record_rcu`, when `globalepoch` is `epoch`. -/
def record (l : Limbo α) (o : α) (epoch : UInt64) : Limbo α :=
  let l := if LimboGroup.capacity < l.tailGroup.tail + 2 then l.refill else l
  { l with groups := l.groups.dropLast ++ [l.tailGroup.pushBack o epoch] }

/-- The objects that a callback retires, each with `globalepoch` at that time. -/
def recordAll (l : Limbo α) (os : List (α × UInt64)) : Limbo α :=
  os.foldl (fun l o => l.record o.1 o.2) l

end Limbo

/-- A run of the cleaning loops: the limbo list, how many objects may still be freed, and those that
have been. -/
structure Cleaning (α : Type) where
  limbo : Limbo α
  count : ℕ
  freed : List α

namespace Limbo

/-- `clean_until` on the first group.  `epoch` is the epoch of the last marker, and `freeing o` what
the callback of `o` retires, with `globalepoch` at that time. -/
def cleanUntil (freeing : α → List (α × UInt64)) (bound : UInt64) (epoch : UInt64)
    (c : Cleaning α) :
    Cleaning α :=
  let g := c.limbo.headGroup
  match _hg : g.elements[g.head]? with
  | none => { c with limbo := c.limbo.setHead g.reset }
  | some (.object o) =>
      let l := c.limbo.recordAll (freeing o)
      if _h : c.count ≤ 1 then
        -- the slot becomes a marker for what is left
        let g := l.headGroup
        ⟨l.setHead { g with elements := g.elements.set g.head (.marker epoch) }, 0, c.freed ++ [o]⟩
      else
        let g := l.headGroup
        cleanUntil freeing bound epoch
          ⟨l.setHead { g with head := g.head + 1 }, c.count - 1, c.freed ++ [o]⟩
  | some (.marker e) =>
      if circularLess bound e then c
      else cleanUntil freeing bound e
        { c with limbo := c.limbo.setHead { g with head := g.head + 1 } }
termination_by (c.count, c.limbo.headGroup.tail - c.limbo.headGroup.head)
decreasing_by
  · exact Prod.Lex.left _ _ (by omega)
  · refine Prod.Lex.right _ ?_
    have hlt : c.limbo.headGroup.head < c.limbo.headGroup.elements.length :=
      (List.getElem?_eq_some_iff.mp _hg).1
    change c.limbo.headGroup.elements.length - (c.limbo.headGroup.head + 1)
      < c.limbo.headGroup.elements.length - c.limbo.headGroup.head
    omega

/-- Cleaning one group frees an object, or leaves the groups as they are. -/
lemma cleanUntil_count (freeing : α → List (α × UInt64)) (bound epoch : UInt64) (c : Cleaning α)
    (hgroups : c.limbo.groups ≠ []) (hcount : c.count ≠ 0) :
    (cleanUntil freeing bound epoch c).count < c.count ∨
      (cleanUntil freeing bound epoch c).count = c.count ∧
        (cleanUntil freeing bound epoch c).limbo.groups.length = c.limbo.groups.length := by
  have hset : ∀ (l : Limbo α) g, l.groups ≠ [] → (l.setHead g).groups.length = l.groups.length := by
    intro l g hl
    have := List.length_pos_iff.mpr hl
    simp only [setHead, List.length_cons, List.length_tail]
    omega
  fun_induction cleanUntil freeing bound epoch c with
  | case1 epoch c g hg => exact Or.inr ⟨rfl, hset _ _ hgroups⟩
  | case2 epoch c g o hg l hc g' => exact Or.inl (Nat.pos_of_ne_zero hcount)
  | case3 epoch c g o hg l hc g' ih =>
      have := ih (by simp [setHead]) (by simp only; omega)
      left
      simp only at this
      omega
  | case4 epoch c g e hg hless => exact Or.inr ⟨rfl, rfl⟩
  | case5 epoch c g e hg hless ih =>
      rw [hset _ _ hgroups] at ih
      exact ih (by simp [setHead]) hcount

/-! The three cases of `clean_until`. -/

lemma cleanUntil_none (freeing : α → List (α × UInt64)) (bound epoch : UInt64) (c : Cleaning α)
    (h : c.limbo.headGroup.elements[c.limbo.headGroup.head]? = none) :
    cleanUntil freeing bound epoch c
      = { c with limbo := c.limbo.setHead c.limbo.headGroup.reset } := by
  rw [cleanUntil]
  split <;> simp_all

lemma cleanUntil_object (freeing : α → List (α × UInt64)) (bound epoch : UInt64)
    (c : Cleaning α) {o : α} (h : c.limbo.headGroup.elements[c.limbo.headGroup.head]? =
      some (.object o))
    (hcount : 1 < c.count) :
    let l := c.limbo.recordAll (freeing o)
    cleanUntil freeing bound epoch c = cleanUntil freeing bound epoch
      ⟨l.setHead { l.headGroup with head := l.headGroup.head + 1 }, c.count - 1,
        c.freed ++ [o]⟩ := by
  intro l
  rw [cleanUntil]
  split
  · simp_all
  · rename_i o' h'
    rw [h] at h'
    cases h'
    rw [dif_neg (by omega)]
  · simp_all

lemma cleanUntil_marker (freeing : α → List (α × UInt64)) (bound epoch : UInt64) (c : Cleaning α)
    {e : UInt64} (h : c.limbo.headGroup.elements[c.limbo.headGroup.head]? = some (.marker e))
    (hless : circularLess bound e = false) :
    let g := c.limbo.headGroup
    cleanUntil freeing bound epoch c = cleanUntil freeing bound e
      { c with limbo := c.limbo.setHead { g with head := g.head + 1 } } := by
  intro g
  rw [cleanUntil]
  split <;> simp_all [g]

/-- The emptied groups are linked behind the tail. -/
def hook (l : Limbo α) (emptied : List (LimboGroup α)) : Limbo α :=
  { l with spare := emptied ++ l.spare }

/-- The loop of `hard_rcu_quiesce`; `emptied` are the groups from `empty_head` to `empty_tail`. -/
def cleanGroups (freeing : α → List (α × UInt64)) (bound : UInt64) (emptied : List (LimboGroup α))
    (c : Cleaning α) : Cleaning α :=
  if _h : c.count = 0 ∨ c.limbo.groups = [] then { c with limbo := c.limbo.hook emptied }
  else
    let c' := cleanUntil freeing bound 0 c
    let g := c'.limbo.headGroup
    if g.head ≠ g.tail then { c' with limbo := c'.limbo.hook emptied }
    else
      match _hrest : c'.limbo.groups.tail with
      | [] =>
          { c' with limbo := ⟨[(emptied ++ [g]).headD g], (emptied ++ [g]).tail ++ c'.limbo.spare⟩ }
      | g' :: rest =>
          cleanGroups freeing bound (emptied ++ [g])
            { c' with limbo := { c'.limbo with groups := g' :: rest } }
termination_by (c.count, c.limbo.groups.length)
decreasing_by
  obtain ⟨hcount, hgroups⟩ := not_or.mp _h
  rcases cleanUntil_count freeing bound 0 c hgroups hcount with h1 | ⟨h1, h2⟩
  · exact Prod.Lex.left _ _ h1
  · have hlen := congrArg List.length _hrest
    have hpos := List.length_pos_iff.mpr hgroups
    rw [List.length_tail, h2] at hlen
    refine Prod.lex_def.mpr (Or.inr ⟨h1, ?_⟩)
    simp only [hlen.symm]
    omega

/-! The cases of the loop. -/

section

variable {freeing : α → List (α × UInt64)} {bound : UInt64} {emptied : List (LimboGroup α)}
  {c : Cleaning α}

lemma cleanGroups_stop (hcount : c.count ≠ 0) (hgroups : c.limbo.groups ≠ [])
    (hne : (cleanUntil freeing bound 0 c).limbo.headGroup.head
      ≠ (cleanUntil freeing bound 0 c).limbo.headGroup.tail) :
    cleanGroups freeing bound emptied c = { cleanUntil freeing bound 0 c with
      limbo := (cleanUntil freeing bound 0 c).limbo.hook emptied } := by
  rw [cleanGroups, dif_neg (not_or.mpr ⟨hcount, hgroups⟩)]
  exact if_pos hne

lemma cleanGroups_last (hcount : c.count ≠ 0) (hgroups : c.limbo.groups ≠ [])
    (hempty : (cleanUntil freeing bound 0 c).limbo.headGroup.head
      = (cleanUntil freeing bound 0 c).limbo.headGroup.tail)
    (hrest : (cleanUntil freeing bound 0 c).limbo.groups.tail = []) :
    let c' := cleanUntil freeing bound 0 c
    let g := c'.limbo.headGroup
    cleanGroups freeing bound emptied c = { c' with
      limbo := ⟨[(emptied ++ [g]).headD g], (emptied ++ [g]).tail ++ c'.limbo.spare⟩ } := by
  intro c' g
  rw [cleanGroups, dif_neg (not_or.mpr ⟨hcount, hgroups⟩)]
  simp only
  rw [if_neg (not_not.mpr hempty)]
  split
  · rfl
  · simp_all

lemma cleanGroups_next {g' : LimboGroup α} {rest : List (LimboGroup α)} (hcount : c.count ≠ 0)
    (hgroups : c.limbo.groups ≠ [])
    (hempty : (cleanUntil freeing bound 0 c).limbo.headGroup.head
      = (cleanUntil freeing bound 0 c).limbo.headGroup.tail)
    (hrest : (cleanUntil freeing bound 0 c).limbo.groups.tail = g' :: rest) :
    let c' := cleanUntil freeing bound 0 c
    cleanGroups freeing bound emptied c
      = cleanGroups freeing bound (emptied ++ [c'.limbo.headGroup])
        { c' with limbo := { c'.limbo with groups := g' :: rest } } := by
  intro c'
  rw [cleanGroups, dif_neg (not_or.mpr ⟨hcount, hgroups⟩)]
  simp only
  rw [if_neg (not_not.mpr hempty)]
  split
  · simp_all
  · rename_i x xs hx
    rw [hrest] at hx
    cases hx
    rfl

end

/-- `rcu_free_count`. -/
def rcuFreeCount : ℕ := 128

/-- `hard_rcu_quiesce`, when `active_epoch` is `active`: the limbo list, `perform_gc_epoch_` and the
freed objects. -/
def hardRcuQuiesce (freeing : α → List (α × UInt64)) (active : UInt64) (l : Limbo α) :
    Limbo α × UInt64 × List α :=
  let bound := active - 1
  let g := l.headGroup
  match g.elements[g.head]? with
  | some (.marker e) =>
      if circularLess bound e then (l, bound + 1, [])
      else
        let c := cleanGroups freeing bound [] ⟨l, rcuFreeCount, []⟩
        (c.limbo, if c.count = 0 then bound else bound + 1, c.freed)
  -- a group that is not empty starts with a marker
  | _ => (l, bound + 1, [])

lemma hardRcuQuiesce_freed (freeing : α → List (α × UInt64)) (active : UInt64)
    (l : Limbo α) {e : UInt64} (h : l.headGroup.elements[l.headGroup.head]? = some (.marker e))
    (hless : circularLess (active - 1) e = false) :
    (hardRcuQuiesce freeing active l).2.2
      = (cleanGroups freeing (active - 1) [] ⟨l, rcuFreeCount, []⟩).freed := by
  rw [hardRcuQuiesce]
  split <;> simp_all

end Limbo

/-! ## What is waiting -/

/-- The objects with their epochs; `e` is the epoch in force at the start. -/
def labelled : UInt64 → List (LimboElement α) → List (α × UInt64)
  | _, [] => []
  | _, .marker e :: es => labelled e es
  | e, .object o :: es => (o, e) :: labelled e es

/-- The epoch in force at the end. -/
def lastEpoch : UInt64 → List (LimboElement α) → UInt64
  | e, [] => e
  | _, .marker e :: es => lastEpoch e es
  | e, .object _ :: es => lastEpoch e es

lemma labelled_append (es fs : List (LimboElement α)) (e : UInt64) :
    labelled e (es ++ fs) = labelled e es ++ labelled (lastEpoch e es) fs := by
  induction es generalizing e with
  | nil => rfl
  | cons x es ih => cases x <;> simp [labelled, lastEpoch, ih]

lemma lastEpoch_append (es fs : List (LimboElement α)) (e : UInt64) :
    lastEpoch e (es ++ fs) = lastEpoch (lastEpoch e es) fs := by
  induction es generalizing e with
  | nil => rfl
  | cons x es ih => cases x <;> simp [lastEpoch, ih]

namespace LimboGroup

/-- What is behind `head_`. -/
def waiting (g : LimboGroup α) : List (LimboElement α) := g.elements.drop g.head

/-- `epoch_` is the epoch of the last object, if `epoch` is in force at `head_`. -/
structure OkAt (epoch : UInt64) (g : LimboGroup α) : Prop where
  head_le : g.head ≤ g.tail
  last : g.head ≠ g.tail → lastEpoch epoch g.waiting = g.epoch

/-- A group between two operations: it is empty, or starts with a marker. -/
structure Ok (g : LimboGroup α) : Prop where
  at_zero : g.OkAt 0
  empty : g.head = g.tail → g.elements = []
  marker : g.head ≠ g.tail → ∃ e, g.elements[g.head]? = some (.marker e)

lemma fresh_ok : (fresh : LimboGroup α).Ok :=
  ⟨⟨le_rfl, fun h => absurd rfl h⟩, fun _ => rfl, fun h => absurd rfl h⟩

lemma OkAt.of_marker {e e' : UInt64} {g : LimboGroup α} (h : g.OkAt e)
    (hm : g.head ≠ g.tail → ∃ e, g.elements[g.head]? = some (.marker e)) : g.OkAt e' := by
  refine ⟨h.head_le, fun hne => ?_⟩
  obtain ⟨d, hd⟩ := hm hne
  have hlt := (List.getElem?_eq_some_iff.mp hd).1
  have hlast := h.last hne
  rw [waiting, List.drop_eq_getElem_cons hlt, (List.getElem?_eq_some_iff.mp hd).2] at hlast ⊢
  exact hlast

lemma waiting_of_empty {g : LimboGroup α} (h : g.head = g.tail) : g.waiting = [] := by
  rw [waiting, h]
  exact List.drop_length

/-- **`push_back`.** -/
lemma OkAt.pushBack {e : UInt64} {g : LimboGroup α} (h : g.OkAt e) (o : α) (e' : UInt64) :
    (g.pushBack o e').OkAt e ∧ (g.pushBack o e').head = g.head ∧
      (∃ es, (g.pushBack o e').elements = g.elements ++ es) ∧
      g.tail < (g.pushBack o e').tail ∧
      labelled e (g.pushBack o e').waiting = labelled e g.waiting ++ [(o, e')] := by
  have hle := h.head_le
  rw [LimboGroup.pushBack]
  split_ifs with hc
  · have hdrop : (g.elements ++ [LimboElement.marker e', .object o]).drop g.head
        = g.waiting ++ [LimboElement.marker e', .object o] := List.drop_append_of_le_length hle
    refine ⟨⟨?_, fun _ => ?_⟩, rfl, ⟨_, rfl⟩, ?_, ?_⟩
    · simp only [tail, List.length_append] at hle ⊢
      omega
    · simp only [waiting] at hdrop ⊢
      rw [hdrop, lastEpoch_append]
      rfl
    · simp [tail]
    · simp only [waiting] at hdrop ⊢
      rw [hdrop, labelled_append]
      rfl
  · obtain ⟨h1, h2⟩ := not_or.mp hc
    rw [ne_eq, not_not] at h2
    have hdrop : (g.elements ++ [LimboElement.object o]).drop g.head
        = g.waiting ++ [LimboElement.object o] :=
      List.drop_append_of_le_length hle
    refine ⟨⟨?_, fun _ => ?_⟩, rfl, ⟨_, rfl⟩, ?_, ?_⟩
    · simp only [tail, List.length_append] at hle ⊢
      omega
    · simp only [waiting] at hdrop ⊢
      rw [hdrop, lastEpoch_append]
      exact h.last h1
    · simp [tail]
    · simp only [waiting] at hdrop ⊢
      rw [hdrop, labelled_append, ← h2, ← h.last h1]
      rfl

lemma Ok.pushBack {g : LimboGroup α} (h : g.Ok) (o : α) (e : UInt64) : (g.pushBack o e).Ok := by
  obtain ⟨h1, h2, ⟨es, h3⟩, h4, -⟩ := h.at_zero.pushBack o e
  refine ⟨h1, fun h0 => ?_, fun _ => ?_⟩
  · have := h.at_zero.head_le
    omega
  · by_cases h0 : g.head = g.tail
    · have hel := h.empty h0
      refine ⟨e, ?_⟩
      rw [h2, LimboGroup.pushBack, if_pos (Or.inl h0), h0, tail, hel]
      rfl
    · obtain ⟨d, hd⟩ := h.marker h0
      refine ⟨d, ?_⟩
      rw [h2, h3, List.getElem?_append_left (List.getElem?_eq_some_iff.mp hd).1, hd]

lemma OkAt.reset {e : UInt64} {g : LimboGroup α} (h : g.OkAt e)
    (hm : g.head ≠ g.tail → ∃ e, g.elements[g.head]? = some (.marker e)) : g.reset.Ok := by
  rw [LimboGroup.reset]
  split_ifs with h0
  · exact ⟨⟨le_rfl, fun h => absurd rfl h⟩, fun _ => rfl, fun h => absurd rfl h⟩
  · exact ⟨h.of_marker hm, fun h1 => absurd h1 h0, hm⟩

end LimboGroup

namespace Limbo

/-- The invariant of a limbo list, if `epoch` is in force at its head. -/
structure OkAt (epoch : UInt64) (l : Limbo α) : Prop where
  groups : l.groups = l.headGroup :: l.groups.tail
  head : l.headGroup.OkAt epoch
  rest : ∀ g ∈ l.groups.tail, g.Ok
  spare : ∀ g ∈ l.spare, g.head = 0 ∧ g.elements = []

/-- What is waiting in the limbo list, oldest first, if `epoch` is in force at its head. -/
def pendingAt (epoch : UInt64) (l : Limbo α) : List (α × UInt64) :=
  labelled epoch l.headGroup.waiting ++ l.groups.tail.flatMap (fun g => labelled 0 g.waiting)

/-- What is waiting between two operations. -/
def pending (l : Limbo α) : List (α × UInt64) := l.pendingAt 0

/-- The invariant of a limbo list between two operations. -/
structure Ok (l : Limbo α) : Prop where
  groups : l.groups = l.headGroup :: l.groups.tail
  all : ∀ g ∈ l.groups, g.Ok
  spare : ∀ g ∈ l.spare, g.head = 0 ∧ g.elements = []

lemma fresh_ok : (fresh : Limbo α).Ok := by
  refine ⟨rfl, fun g hg => ?_, fun g hg => ?_⟩
  · rw [List.mem_singleton.mp hg]
    exact LimboGroup.fresh_ok
  · exact absurd hg List.not_mem_nil

lemma Ok.headGroup {l : Limbo α} (h : l.Ok) : l.headGroup.Ok :=
  h.all _ (by rw [h.groups]; exact List.mem_cons_self)

lemma Ok.okAt {l : Limbo α} (h : l.Ok) : l.OkAt 0 :=
  ⟨h.groups, h.headGroup.at_zero, fun g hg => h.all g (List.mem_of_mem_tail hg), h.spare⟩

lemma empty_ok {g : LimboGroup α} (h : g.head = 0 ∧ g.elements = []) : g.Ok := by
  have ht : g.head = g.tail := by rw [h.1, LimboGroup.tail, h.2]; rfl
  exact ⟨⟨ht.le, fun h => absurd ht h⟩, fun _ => h.2, fun h => absurd ht h⟩

/-- `refill_rcu` adds an empty group. -/
lemma OkAt.refill {e : UInt64} {l : Limbo α} (h : l.OkAt e) :
    l.refill.OkAt e ∧ l.refill.headGroup = l.headGroup ∧ l.refill.pendingAt e = l.pendingAt e := by
  have hnew : (l.spare.headD .fresh).head = 0 ∧ (l.spare.headD .fresh).elements = [] := by
    cases hs : l.spare with
    | nil => exact ⟨rfl, rfl⟩
    | cons g gs => exact h.spare g (by rw [hs]; exact List.mem_cons_self)
  have hgroups : l.refill.groups = l.headGroup :: (l.groups.tail ++ [l.spare.headD .fresh]) := by
    rw [Limbo.refill, h.groups]
    rfl
  have hhead : l.refill.headGroup = l.headGroup := by rw [headGroup, hgroups]; rfl
  have htail : l.refill.groups.tail = l.groups.tail ++ [l.spare.headD .fresh] := by
    rw [hgroups]; rfl
  refine ⟨⟨?_, ?_, ?_, ?_⟩, hhead, ?_⟩
  · rw [hhead, htail, hgroups]
  · rw [hhead]
    exact h.head
  · intro g hg
    rw [htail] at hg
    rcases List.mem_append.mp hg with hg | hg
    · exact h.rest g hg
    · rw [List.mem_singleton.mp hg]
      exact empty_ok hnew
  · exact fun g hg => h.spare g (List.mem_of_mem_tail hg)
  · rw [pendingAt, hhead, htail, List.flatMap_append, pendingAt]
    have : labelled 0 (l.spare.headD .fresh).waiting = [] := by
      rw [LimboGroup.waiting, hnew.2]
      simp [labelled]
    rw [List.flatMap_singleton, this, List.append_nil]

/-- The second half of `record_rcu`. -/
lemma OkAt.pushBack {e : UInt64} {l : Limbo α} (h : l.OkAt e) (o : α) (e' : UInt64) :
    let l' : Limbo α := { l with groups := l.groups.dropLast ++ [l.tailGroup.pushBack o e'] }
    l'.OkAt e ∧ l'.headGroup.head = l.headGroup.head ∧
      (∃ es, l'.headGroup.elements = l.headGroup.elements ++ es) ∧
      l'.pendingAt e = l.pendingAt e ++ [(o, e')] ∧ (l.headGroup.Ok → l'.headGroup.Ok) := by
  intro l'
  rcases List.eq_nil_or_concat l.groups.tail with ht | ⟨rest, t, ht⟩
  · -- the first group is the last one
    have hl : l.groups = [l.headGroup] := by rw [h.groups, ht]
    have htg : l.tailGroup = l.headGroup := by rw [tailGroup, hl]; rfl
    have hl' : l'.groups = [l.headGroup.pushBack o e'] := by
      simp only [l', htg]
      rw [hl]
      rfl
    have hh : l'.headGroup = l.headGroup.pushBack o e' := by rw [headGroup, hl']; rfl
    have ht' : l'.groups.tail = [] := by rw [hl']; rfl
    obtain ⟨h1, h2, h3, -, h5⟩ := h.head.pushBack o e'
    refine ⟨⟨?_, by rwa [hh], ?_, h.spare⟩, by rw [hh, h2], by rwa [hh], ?_, fun hok => ?_⟩
    · rw [hh, ht', hl']
    · intro g hg
      rw [ht'] at hg
      exact absurd hg List.not_mem_nil
    · rw [pendingAt, pendingAt, hh, ht', ht, h5]
      simp
    · rw [hh]
      exact hok.pushBack o e'
  · have hl : l.groups = (l.headGroup :: rest) ++ [t] := by
      rw [h.groups, ht, List.concat_eq_append]
      rfl
    have htg : l.tailGroup = t := by rw [tailGroup, hl, List.getLastD_concat]
    have hl' : l'.groups = (l.headGroup :: rest) ++ [t.pushBack o e'] := by
      simp only [l', htg]
      rw [hl, List.dropLast_concat]
    have hh : l'.headGroup = l.headGroup := by rw [headGroup, hl']; rfl
    have ht' : l'.groups.tail = rest ++ [t.pushBack o e'] := by rw [hl']; rfl
    have htok : t.Ok := h.rest t (by rw [ht, List.concat_eq_append]; simp)
    obtain ⟨h1, h2, h3, -, h5⟩ := htok.at_zero.pushBack o e'
    refine ⟨⟨?_, by rw [hh]; exact h.head, ?_, h.spare⟩, by rw [hh], ⟨[], by rw [hh]; simp⟩, ?_,
      fun hok => by rwa [hh]⟩
    · rw [hh, ht', hl']
      rfl
    · intro g hg
      rw [ht'] at hg
      rcases List.mem_append.mp hg with hg | hg
      · exact h.rest g (by rw [ht, List.concat_eq_append]; simp [hg])
      · rw [List.mem_singleton.mp hg]
        exact htok.pushBack o e'
    · rw [pendingAt, pendingAt, hh, ht', ht, List.concat_eq_append, List.flatMap_append,
        List.flatMap_append]
      simp [h5]

/-- **`record_rcu`.** -/
lemma OkAt.record {e : UInt64} {l : Limbo α} (h : l.OkAt e) (o : α) (e' : UInt64) :
    (l.record o e').OkAt e ∧ (l.record o e').headGroup.head = l.headGroup.head ∧
      (∃ es, (l.record o e').headGroup.elements = l.headGroup.elements ++ es) ∧
      (l.record o e').pendingAt e = l.pendingAt e ++ [(o, e')] ∧
      (l.headGroup.Ok → (l.record o e').headGroup.Ok) := by
  rw [Limbo.record]
  split_ifs
  · obtain ⟨h1, h2, h3⟩ := h.refill
    obtain ⟨k1, k2, k3, k4, k5⟩ := h1.pushBack o e'
    rw [h2] at k2 k3 k5
    rw [h3] at k4
    exact ⟨k1, k2, k3, k4, k5⟩
  · exact h.pushBack o e'

lemma OkAt.recordAll {e : UInt64} {l : Limbo α} (h : l.OkAt e) (os : List (α × UInt64)) :
    (l.recordAll os).OkAt e ∧ (l.recordAll os).headGroup.head = l.headGroup.head ∧
      (∃ es, (l.recordAll os).headGroup.elements = l.headGroup.elements ++ es) ∧
      (l.recordAll os).pendingAt e = l.pendingAt e ++ os := by
  rw [Limbo.recordAll]
  induction os generalizing l with
  | nil => exact ⟨h, rfl, ⟨[], by simp⟩, by simp⟩
  | cons o os ih =>
      obtain ⟨h1, h2, ⟨es, h3⟩, h4, -⟩ := h.record o.1 o.2
      obtain ⟨k1, k2, ⟨fs, k3⟩, k4⟩ := ih h1
      rw [List.foldl_cons]
      refine ⟨k1, k2.trans h2, ⟨es ++ fs, ?_⟩, ?_⟩
      · rw [k3, h3, List.append_assoc]
      · rw [k4, h4]
        simp

@[simp] lemma setHead_headGroup (l : Limbo α) (g : LimboGroup α) : (l.setHead g).headGroup = g :=
  rfl

@[simp] lemma setHead_tail (l : Limbo α) (g : LimboGroup α) :
    (l.setHead g).groups.tail = l.groups.tail := rfl

lemma OkAt.setHead {e e' : UInt64} {l : Limbo α} (h : l.OkAt e) {g : LimboGroup α}
    (hg : g.OkAt e') : (l.setHead g).OkAt e' :=
  ⟨rfl, hg, h.rest, h.spare⟩

lemma OkAt.ok {e : UInt64} {l : Limbo α} (h : l.OkAt e) (hg : l.headGroup.Ok) : l.Ok := by
  refine ⟨h.groups, fun g hmem => ?_, h.spare⟩
  rw [h.groups] at hmem
  rcases List.mem_cons.mp hmem with rfl | hmem
  · exact hg
  · exact h.rest g hmem

lemma Ok.record {l : Limbo α} (h : l.Ok) (o : α) (e : UInt64) :
    (l.record o e).Ok ∧ (l.record o e).pending = l.pending ++ [(o, e)] := by
  obtain ⟨h1, -, -, h4, h5⟩ := h.okAt.record o e
  exact ⟨h1.ok (h5 h.headGroup), h4⟩

/-- Step over an element. -/
lemma OkAt.advance {e : UInt64} {l : Limbo α} (h : l.OkAt e) {x : LimboElement α}
    (hx : l.headGroup.elements[l.headGroup.head]? = some x) :
    (l.setHead { l.headGroup with head := l.headGroup.head + 1 }).OkAt (lastEpoch e [x]) ∧
      l.pendingAt e = labelled e [x] ++
        (l.setHead { l.headGroup with head := l.headGroup.head + 1 }).pendingAt
          (lastEpoch e [x]) := by
  obtain ⟨hlt, hget⟩ := List.getElem?_eq_some_iff.mp hx
  have hdrop : l.headGroup.waiting = [x] ++ l.headGroup.elements.drop (l.headGroup.head + 1) := by
    rw [LimboGroup.waiting, List.drop_eq_getElem_cons hlt, hget]
    rfl
  refine ⟨h.setHead ⟨hlt, fun _ => ?_⟩, ?_⟩
  · have hlast := h.head.last (ne_of_lt hlt)
    rw [hdrop, lastEpoch_append] at hlast
    exact hlast
  · rw [pendingAt, hdrop, labelled_append, List.append_assoc]
    rfl

/-- Replace the object at the head by a marker. -/
lemma OkAt.replace {e : UInt64} {l : Limbo α} (h : l.OkAt e) {o : α}
    (ho : l.headGroup.elements[l.headGroup.head]? = some (.object o)) :
    let g := l.headGroup
    let l' := l.setHead { g with elements := g.elements.set g.head (.marker e) }
    l'.Ok ∧ l.pendingAt e = (o, e) :: l'.pending := by
  intro g l'
  obtain ⟨hlt, hget⟩ := List.getElem?_eq_some_iff.mp ho
  have hdrop : g.waiting = .object o :: g.elements.drop (g.head + 1) := by
    rw [LimboGroup.waiting, List.drop_eq_getElem_cons hlt, hget]
  have hdrop' : l'.headGroup.waiting = .marker e :: g.elements.drop (g.head + 1) := by
    have hlt' : g.head < (g.elements.set g.head (.marker e)).length := by
      rw [List.length_set]
      exact hlt
    change (g.elements.set g.head (.marker e)).drop g.head = _
    rw [List.drop_eq_getElem_cons hlt', List.getElem_set_self]
    congr 1
    rw [List.drop_set, if_pos (by omega)]
  have hmark : ∃ d, l'.headGroup.elements[l'.headGroup.head]? = some (.marker d) :=
    ⟨e, List.getElem?_set_self hlt⟩
  have hok : l'.headGroup.OkAt 0 := by
    refine ⟨?_, fun _ => ?_⟩
    · have hle := h.head.head_le
      change g.head ≤ (g.elements.set g.head (.marker e)).length
      rw [List.length_set]
      exact hle
    · have hlast := h.head.last (ne_of_lt hlt)
      rw [hdrop] at hlast
      rw [hdrop']
      exact hlast
  refine ⟨(h.setHead hok).ok ⟨hok, fun h0 => ?_, fun _ => hmark⟩, ?_⟩
  · have : g.head = (g.elements.set g.head (.marker e)).length := h0
    rw [List.length_set] at this
    exact absurd this (ne_of_lt hlt)
  · rw [pendingAt, hdrop, pending, pendingAt, hdrop']
    rfl

/-- What a cleaning loop does: it frees the first of the waiting objects, none with an epoch past
`bound`, and what the callbacks retire goes to the end. -/
structure Freed (freeing : α → List (α × UInt64)) (bound : UInt64) (c c' : Cleaning α)
    (pending : List (α × UInt64)) (fs : List (α × UInt64)) : Prop where
  freed : c'.freed = c.freed ++ fs.map Prod.fst
  balance : pending ++ fs.flatMap (fun f => freeing f.1) = fs ++ c'.limbo.pending
  old : ∀ f ∈ fs, ¬ circularLess bound f.2
  ok : c'.limbo.Ok

/-- **`clean_until`.** -/
lemma cleanUntil_spec (freeing : α → List (α × UInt64)) (bound epoch : UInt64) (c : Cleaning α)
    (h : c.limbo.OkAt epoch)
    (hstart : circularLess bound epoch → c.limbo.headGroup.head ≠ c.limbo.headGroup.tail →
      ∃ e, c.limbo.headGroup.elements[c.limbo.headGroup.head]? = some (.marker e)) :
    ∃ fs, Freed freeing bound c (cleanUntil freeing bound epoch c)
      (c.limbo.pendingAt epoch) fs := by
  fun_induction cleanUntil freeing bound epoch c with
  | case1 epoch c g hg =>
      -- the group is empty
      have hle := h.head.head_le
      have hge := List.getElem?_eq_none_iff.mp hg
      have h0 : g.head = g.tail := le_antisymm hle hge
      have hok : g.reset.Ok := h.head.reset (fun hne => absurd h0 hne)
      have hw : g.reset.waiting = [] := by
        rw [LimboGroup.reset, if_pos h0]
        rfl
      refine ⟨[], by simp, ?_, by simp, (h.setHead hok.at_zero).ok hok⟩
      rw [pending, pendingAt, pendingAt, LimboGroup.waiting_of_empty h0]
      simp [hw, labelled]
  | case2 epoch c g o hg l hc g' =>
      -- the last object that may be freed
      obtain ⟨h1, h2, ⟨es, h3⟩, h4⟩ := h.recordAll (freeing o)
      have ho : g'.elements[g'.head]? = some (.object o) := by
        simp only [g', l]
        rw [h2, h3, List.getElem?_append_left (List.getElem?_eq_some_iff.mp hg).1, hg]
      obtain ⟨k1, k2⟩ := h1.replace ho
      refine ⟨[(o, epoch)], rfl, ?_, ?_, k1⟩
      · simpa using h4.symm.trans k2
      · intro f hf
        rw [List.mem_singleton.mp hf]
        intro hless
        obtain ⟨e, he⟩ := hstart hless (ne_of_lt (List.getElem?_eq_some_iff.mp hg).1)
        rw [hg] at he
        cases he
  | case3 epoch c g o hg l hc g' ih =>
      obtain ⟨h1, h2, ⟨es, h3⟩, h4⟩ := h.recordAll (freeing o)
      have ho : g'.elements[g'.head]? = some (.object o) := by
        simp only [g', l]
        rw [h2, h3, List.getElem?_append_left (List.getElem?_eq_some_iff.mp hg).1, hg]
      have hold : ¬ circularLess bound epoch := by
        intro hless
        obtain ⟨e, he⟩ := hstart hless (ne_of_lt (List.getElem?_eq_some_iff.mp hg).1)
        rw [hg] at he
        cases he
      obtain ⟨k1, k2⟩ := h1.advance ho
      obtain ⟨fs, i1, i2, i3, i4⟩ := ih k1 (fun hless => absurd hless hold)
      refine ⟨(o, epoch) :: fs, ?_, ?_, ?_, i4⟩
      · rw [i1]
        simp
      · rw [List.flatMap_cons, ← List.append_assoc, ← h4, k2]
        exact congrArg ((o, epoch) :: ·) i2
      · exact List.forall_mem_cons.mpr ⟨hold, i3⟩
  | case4 epoch c g e hg hless =>
      have hok : c.limbo.headGroup.Ok :=
        ⟨h.head.of_marker (fun _ => ⟨e, hg⟩),
          fun h0 => absurd h0 (ne_of_lt (List.getElem?_eq_some_iff.mp hg).1), fun _ => ⟨e, hg⟩⟩
      refine ⟨[], by simp, ?_, by simp, h.ok hok⟩
      have hp := (h.advance hg).2
      have hp' := ((h.ok hok).okAt.advance hg).2
      simp only [List.flatMap_nil, List.append_nil, List.nil_append]
      rw [hp, pending, hp']
      rfl
  | case5 epoch c g e hg hless ih =>
      obtain ⟨k1, k2⟩ := h.advance hg
      obtain ⟨fs, i1, i2, i3, i4⟩ := ih k1 (fun hl => absurd hl hless)
      refine ⟨fs, i1, ?_, i3, i4⟩
      rw [k2]
      exact i2

lemma Freed.trans {freeing : α → List (α × UInt64)} {bound : UInt64} {c c' c'' : Cleaning α}
    {p fs fs' : List (α × UInt64)} (h : Freed freeing bound c c' p fs)
    (h' : Freed freeing bound c' c'' c'.limbo.pending fs') :
    Freed freeing bound c c'' p (fs ++ fs') := by
  refine ⟨?_, ?_, fun f hf => ?_, h'.ok⟩
  · rw [h'.freed, h.freed, List.map_append, List.append_assoc]
  · rw [List.flatMap_append, ← List.append_assoc, h.balance, List.append_assoc,
      h'.balance, List.append_assoc]
  · rcases List.mem_append.mp hf with hf | hf
    · exact h.old f hf
    · exact h'.old f hf

/-- Rearranging empty groups. -/
lemma Freed.relink {freeing : α → List (α × UInt64)} {bound : UInt64} {c c' : Cleaning α}
    {p fs : List (α × UInt64)} (h : Freed freeing bound c c' p fs) {l : Limbo α} (hl : l.Ok)
    (hp : l.pending = c'.limbo.pending) : Freed freeing bound c { c' with limbo := l } p fs :=
  ⟨h.freed, by rw [hp]; exact h.balance, h.old, hl⟩

lemma Freed.refl (freeing : α → List (α × UInt64)) (bound : UInt64) {c : Cleaning α}
    (h : c.limbo.Ok) :
    Freed freeing bound c c c.limbo.pending [] :=
  ⟨by simp, by simp, by simp, h⟩

lemma Ok.hook {l : Limbo α} (h : l.Ok) {emptied : List (LimboGroup α)}
    (he : ∀ g ∈ emptied, g.head = 0 ∧ g.elements = []) : (l.hook emptied).Ok := by
  refine ⟨h.groups, h.all, fun g hg => ?_⟩
  rcases List.mem_append.mp hg with hg | hg
  · exact he g hg
  · exact h.spare g hg

lemma emptied_of_tail {g : LimboGroup α} (h : g.Ok) (h0 : g.head = g.tail) :
    g.head = 0 ∧ g.elements = [] := by
  have hel := h.empty h0
  refine ⟨?_, hel⟩
  rw [h0, LimboGroup.tail, hel]
  rfl

/-- The first group goes. -/
lemma Ok.dropHead {l : Limbo α} (h : l.Ok) {g : LimboGroup α} {gs : List (LimboGroup α)}
    (hrest : l.groups.tail = g :: gs) : ({ l with groups := g :: gs } : Limbo α).Ok := by
  refine ⟨rfl, fun x hx => h.all x (List.mem_of_mem_tail ?_), h.spare⟩
  rw [hrest]
  exact hx

/-- The loop over the groups. -/
lemma cleanGroups_spec (freeing : α → List (α × UInt64)) (bound : UInt64)
    (emptied : List (LimboGroup α)) (c : Cleaning α) (h : c.limbo.Ok)
    (he : ∀ g ∈ emptied, g.head = 0 ∧ g.elements = []) :
    ∃ fs, Freed freeing bound c (cleanGroups freeing bound emptied c)
      c.limbo.pending fs := by
  have hclean : ∀ c : Cleaning α, c.limbo.Ok →
      ∃ fs, Freed freeing bound c (cleanUntil freeing bound 0 c) c.limbo.pending fs :=
    fun c h => cleanUntil_spec freeing bound 0 c h.okAt
      (fun _ => h.headGroup.marker)
  fun_induction cleanGroups freeing bound emptied c with
  | case1 emptied c h0 =>
      exact ⟨[], (Freed.refl freeing bound h).relink (h.hook he) rfl⟩
  | case2 emptied c h0 c' g hne =>
      obtain ⟨fs, hf⟩ := hclean c h
      exact ⟨fs, hf.relink (hf.ok.hook he) rfl⟩
  | case3 emptied c h0 c' g hne hrest =>
      obtain ⟨fs, hf⟩ := hclean c h
      have hgok : g.Ok := hf.ok.headGroup
      have hempty : ∀ g' ∈ emptied ++ [g], g'.head = 0 ∧ g'.elements = [] := by
        intro g' hg'
        rcases List.mem_append.mp hg' with hg' | hg'
        · exact he g' hg'
        · rw [List.mem_singleton.mp hg']
          exact emptied_of_tail hgok (not_not.mp hne)
      have hhead : ((emptied ++ [g]).headD g).head = 0 ∧
        ((emptied ++ [g]).headD g).elements = [] := by
        cases hem : emptied with
        | nil => exact hempty g (by simp)
        | cons x xs => exact hempty x (by simp [hem])
      refine ⟨fs, hf.relink ⟨rfl, ?_, ?_⟩ ?_⟩
      · intro g' hg'
        rw [List.mem_singleton.mp hg']
        exact empty_ok hhead
      · intro g' hg'
        rcases List.mem_append.mp hg' with hg' | hg'
        · exact hempty g' (List.mem_of_mem_tail hg')
        · exact hf.ok.spare g' hg'
      · rw [pending, pendingAt, pending, pendingAt, hrest]
        have h1 : ((emptied ++ [g]).headD g).waiting = [] := by
          rw [LimboGroup.waiting, hhead.2]; simp
        have h2 : g.waiting = [] := LimboGroup.waiting_of_empty (not_not.mp hne)
        change labelled 0 ((emptied ++ [g]).headD g).waiting ++ _ = labelled 0 g.waiting ++ _
        rw [h1, h2]
        rfl
  | case4 emptied c h0 c' g hne g' rest hrest ih =>
      obtain ⟨fs, hf⟩ := hclean c h
      have hgroups : c'.limbo.groups = g :: g' :: rest := by rw [← hrest]; exact hf.ok.groups
      have hgok : g.Ok := hf.ok.headGroup
      have hempty : ∀ g' ∈ emptied ++ [g], g'.head = 0 ∧ g'.elements = [] := by
        intro g' hg'
        rcases List.mem_append.mp hg' with hg' | hg'
        · exact he g' hg'
        · rw [List.mem_singleton.mp hg']
          exact emptied_of_tail hgok (not_not.mp hne)
      have hok : ({ c'.limbo with groups := g' :: rest } : Limbo α).Ok := hf.ok.dropHead hrest
      have hpend : ({ c'.limbo with groups := g' :: rest } : Limbo α).pending =
        c'.limbo.pending := by
        have h2 : g.waiting = [] := LimboGroup.waiting_of_empty (not_not.mp hne)
        have hh : c'.limbo.headGroup = g := rfl
        rw [pending, pendingAt, pending, pendingAt, hh, h2, hrest]
        rfl
      obtain ⟨fs', hf'⟩ := ih hok hempty
      exact ⟨fs ++ fs', (hf.relink hok hpend).trans hf'⟩

/-- **`hard_rcu_quiesce`** frees the first of the waiting objects, none with an epoch from `active`
on. -/
lemma hardRcuQuiesce_spec (freeing : α → List (α × UInt64)) (active : UInt64)
    (l : Limbo α) (h : l.Ok) :
    ∃ fs, (hardRcuQuiesce freeing active l).2.2 = fs.map Prod.fst ∧
      (∀ f ∈ fs, ¬ circularLess (active - 1) f.2) ∧
      l.pending ++ fs.flatMap (fun f => freeing f.1)
        = fs ++ (hardRcuQuiesce freeing active l).1.pending ∧
      (hardRcuQuiesce freeing active l).1.Ok := by
  have hnone : ∃ fs : List (α × UInt64), [] = fs.map Prod.fst ∧
      (∀ f ∈ fs, ¬ circularLess (active - 1) f.2) ∧
      l.pending ++ fs.flatMap (fun f => freeing f.1) = fs ++ l.pending ∧ l.Ok :=
    ⟨[], by simp, by simp, by simp, h⟩
  rw [hardRcuQuiesce]
  split
  · split_ifs
    · exact hnone
    · obtain ⟨fs, hf⟩ :=
        cleanGroups_spec freeing (active - 1) [] ⟨l, rcuFreeCount, []⟩ h (by simp)
      exact ⟨fs, by simpa using hf.freed, hf.old, hf.balance, hf.ok⟩
  · exact hnone

/-! ## The groups behind the first -/

/-- Every group behind the first holds an object. -/
def Filled (l : Limbo α) : Prop := ∀ g ∈ l.groups.tail, labelled 0 g.waiting ≠ []

lemma fresh_filled : (fresh : Limbo α).Filled := by simp [Filled, fresh]

/-- The last group gets an object. -/
lemma OkAt.filled_pushBack {e : UInt64} {l : Limbo α} (h : l.OkAt e)
    (hf : ∀ g ∈ l.groups.tail.dropLast, labelled 0 g.waiting ≠ []) (o : α) (e' : UInt64) :
    ({ l with groups := l.groups.dropLast ++ [l.tailGroup.pushBack o e'] } : Limbo α).Filled := by
  rcases List.eq_nil_or_concat l.groups.tail with ht | ⟨rest, t, ht⟩
  · rw [Filled, h.groups, ht]
    simp
  · rw [List.concat_eq_append] at ht
    have htg : l.tailGroup = t := by
      rw [tailGroup, h.groups, ht, ← List.cons_append, List.getLastD_concat]
    have htok : t.Ok := h.rest t (by rw [ht]; simp)
    intro g hg
    rw [ht, List.dropLast_concat] at hf
    rw [htg, h.groups, ht, ← List.cons_append, List.dropLast_concat] at hg
    rcases List.mem_append.mp hg with hg | hg
    · exact hf g hg
    · rw [List.mem_singleton.mp hg, (htok.at_zero.pushBack o e').2.2.2.2]
      simp

lemma OkAt.filled_record {e : UInt64} {l : Limbo α} (h : l.OkAt e) (hf : l.Filled) (o : α)
    (e' : UInt64) : (l.record o e').Filled := by
  rw [Limbo.record]
  split_ifs
  · refine h.refill.1.filled_pushBack (fun g hg => hf g ?_) o e'
    rw [Limbo.refill, h.groups, List.cons_append, List.tail_cons, List.dropLast_concat] at hg
    exact hg
  · exact h.filled_pushBack (fun g hg => hf g (List.dropLast_subset _ hg)) o e'

lemma OkAt.filled_recordAll {e : UInt64} {l : Limbo α} (h : l.OkAt e) (hf : l.Filled)
    (os : List (α × UInt64)) : (l.recordAll os).Filled := by
  rw [Limbo.recordAll]
  induction os generalizing l with
  | nil => exact hf
  | cons o os ih => exact ih (h.record o.1 o.2).1 (h.filled_record hf o.1 o.2)

lemma Filled.setHead {l : Limbo α} (h : l.Filled) (g : LimboGroup α) : (l.setHead g).Filled := h

/-- `clean_until` keeps the groups behind the first filled. -/
lemma OkAt.filled_cleanUntil (freeing : α → List (α × UInt64)) (bound epoch : UInt64)
    (c : Cleaning α) (h : c.limbo.OkAt epoch) (hf : c.limbo.Filled) :
    (cleanUntil freeing bound epoch c).limbo.Filled := by
  fun_induction cleanUntil freeing bound epoch c with
  | case1 epoch c g hg => exact hf.setHead _
  | case2 epoch c g o hg l hc g' => exact (h.filled_recordAll hf (freeing o)).setHead _
  | case3 epoch c g o hg l hc g' ih =>
      obtain ⟨h1, h2, ⟨es, h3⟩, h4⟩ := h.recordAll (freeing o)
      have ho : g'.elements[g'.head]? = some (.object o) := by
        simp only [g', l]
        rw [h2, h3, List.getElem?_append_left (List.getElem?_eq_some_iff.mp hg).1, hg]
      exact ih (h1.advance ho).1 ((h.filled_recordAll hf (freeing o)).setHead _)
  | case4 epoch c g e hg hless => exact hf
  | case5 epoch c g e hg hless ih => exact ih (h.advance hg).1 (hf.setHead _)

/-- A group that holds an object is not emptied without freeing it. -/
lemma OkAt.cleanUntil_progress (freeing : α → List (α × UInt64)) (bound epoch : UInt64)
    (c : Cleaning α) (h : c.limbo.OkAt epoch) (hcount : c.count ≠ 0)
    (hobj : labelled epoch c.limbo.headGroup.waiting ≠ []) :
    (cleanUntil freeing bound epoch c).count < c.count ∨
      (cleanUntil freeing bound epoch c).limbo.headGroup.head
        ≠ (cleanUntil freeing bound epoch c).limbo.headGroup.tail := by
  fun_induction cleanUntil freeing bound epoch c with
  | case1 epoch c g hg =>
      have h0 : g.head = g.tail := le_antisymm h.head.head_le (List.getElem?_eq_none_iff.mp hg)
      rw [LimboGroup.waiting_of_empty h0] at hobj
      exact absurd rfl hobj
  | case2 epoch c g o hg l hc g' => exact Or.inl (Nat.pos_of_ne_zero hcount)
  | case3 epoch c g o hg l hc g' ih =>
      left
      have := cleanUntil_count freeing bound epoch
        ⟨l.setHead { g' with head := g'.head + 1 }, c.count - 1, c.freed ++ [o]⟩
        (List.cons_ne_nil _ _) (by simp only; omega)
      simp only at this
      omega
  | case4 epoch c g e hg hless => exact Or.inr (ne_of_lt (List.getElem?_eq_some_iff.mp hg).1)
  | case5 epoch c g e hg hless ih =>
      obtain ⟨hlt, hget⟩ := List.getElem?_eq_some_iff.mp hg
      rw [LimboGroup.waiting, List.drop_eq_getElem_cons hlt, hget] at hobj
      exact ih (h.advance hg).1 hcount hobj

end Limbo

end MasstreeLHM
