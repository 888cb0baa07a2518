import MasstreeLHM.Rcu.Limbo
import MasstreeLHM.Rcu.Linked

/-!
# The ring of limbo groups

The limbo list as `threadinfo` has it: groups in memory, linked by `next_`, from `limbo_head_` over
`limbo_tail_` to the empty ones behind it.  An operation has no result where an assertion fails or a
pointer leads nowhere.

`LimboRing` has the memory and the pointers, and its operations follow the source statement by
statement.  `Views` connects it with the list of groups: the cells are linked as the list says, in
three parts (`Chained`), and each holds the group at its place.  While `hard_rcu_quiesce` runs, the
groups that it has emptied are a part of their own.

Reads and writes through a pointer become reads and writes in the list (`Views.headGroup`,
`Views.setHead`, `Views.setTail`, `Views.advanceTail`, `Views.linkNew`).  From these come
**`Views.refillRcu`**, **`Views.recordRcu`** and **`Views.cleanUntil`**, each of which says that an
operation on the ring is the one on the list.
-/

namespace MasstreeLHM

/-- A `limbo_group` in memory, with its `next_`. -/
structure LimboCell (α : Type) where
  group : LimboGroup α
  next : Option ℕ
deriving Repr, DecidableEq

/-- The groups that a thread has allocated; a pointer is a position. -/
structure LimboRing (α : Type) where
  cells : List (LimboCell α)
  limboHead : ℕ
  limboTail : ℕ
deriving Repr, DecidableEq

variable {α : Type}

/-- `first_epoch`. -/
def LimboGroup.firstEpoch (g : LimboGroup α) : Option UInt64 :=
  if g.head ≠ g.tail then
    match g.elements[g.head]? with
    | some (.marker e) => some e
    -- the tag of an object is no epoch
    | _ => none
  else none

namespace LimboRing

/-- The list of a new thread. -/
def make : LimboRing α := ⟨[⟨.fresh, none⟩], 0, 0⟩

/-- Write the group at `p`. -/
def setGroup (r : LimboRing α) (p : ℕ) (g : LimboGroup α) : LimboRing α :=
  { r with cells := r.cells.modify p (fun c => { c with group := g }) }

/-- Write `next_` of the group at `p`. -/
def setNext (r : LimboRing α) (p : ℕ) (next : Option ℕ) : LimboRing α :=
  { r with cells := r.cells.modify p (fun c => { c with next := next }) }

/-- Allocate a group. -/
def allocate (r : LimboRing α) : LimboRing α := { r with cells := r.cells ++ [⟨.fresh, none⟩] }

/-- `refill_rcu`. -/
def refillRcu (r : LimboRing α) : Option (LimboRing α) := do
  let t ← r.cells[r.limboTail]?
  let r := if t.next = none then r.allocate.setNext r.limboTail (some r.cells.length) else r
  let t ← r.cells[r.limboTail]?
  let n ← t.next
  let c ← r.cells[n]?
  -- the assertion
  if c.group.head = 0 ∧ c.group.tail = 0 then some { r with limboTail := n } else none

/-- `record_rcu`, when `globalepoch` is `epoch`. -/
def recordRcu (r : LimboRing α) (o : α) (epoch : UInt64) : Option (LimboRing α) := do
  let t ← r.cells[r.limboTail]?
  let r ← if LimboGroup.capacity < t.group.tail + 2 then r.refillRcu else some r
  let t ← r.cells[r.limboTail]?
  -- the assertion of `push_back`
  if t.group.tail + 2 ≤ LimboGroup.capacity then
    some (r.setGroup r.limboTail (t.group.pushBack o epoch))
  else none

/-- What a callback retires. -/
def recordEach (r : LimboRing α) (os : List (α × UInt64)) : Option (LimboRing α) :=
  os.foldlM (fun r o => r.recordRcu o.1 o.2) r

end LimboRing

/-- A run of the cleaning loops. -/
structure Sweep (α : Type) where
  ring : LimboRing α
  count : ℕ
  freed : List α
deriving Repr, DecidableEq

namespace LimboRing

/-- `clean_until` on the group at `p`, from the top of the loop. -/
def cleanUntil (freeing : α → List (α × UInt64)) (bound : UInt64) (p : ℕ) (epoch : UInt64)
    (s : Sweep α) : Option (Sweep α) :=
  match _hc : s.ring.cells[p]? with
  | none => none
  | some c =>
      if c.group.head = c.group.tail then
        some { s with ring := s.ring.setGroup p c.group.reset }
      else
        match _hg : c.group.elements[c.group.head]? with
        | none => none
        | some (.object o) =>
            match s.ring.recordEach (freeing o) with
            | none => none
            | some r =>
                match r.cells[p]? with
                | none => none
                | some c =>
                    let g := c.group
                    if _h : s.count ≤ 1 then
                      some ⟨r.setGroup p { g with
                        elements := g.elements.set g.head (.marker epoch) }, 0, s.freed ++ [o]⟩
                    else
                      cleanUntil freeing bound p epoch
                        ⟨r.setGroup p { g with head := g.head + 1 }, s.count - 1, s.freed ++ [o]⟩
        | some (.marker e) =>
            if circularLess bound e then some s
            else
              cleanUntil freeing bound p e
                { s with ring := s.ring.setGroup p { c.group with head := c.group.head + 1 } }
termination_by (s.count, (s.ring.cells[p]?.map (fun c => c.group.tail - c.group.head)).getD 0)
decreasing_by
  · exact Prod.Lex.left _ _ (by omega)
  · refine Prod.Lex.right _ ?_
    have hlt : c.group.head < c.group.elements.length := (List.getElem?_eq_some_iff.mp _hg).1
    rw [_hc, setGroup, List.getElem?_modify_eq, _hc]
    change c.group.elements.length - (c.group.head + 1) < c.group.elements.length - c.group.head
    omega

/-- The empty groups go behind `limbo_tail_`. -/
def hookEmpties (r : LimboRing α) (emptyHead emptyTail : Option ℕ) : Option (LimboRing α) :=
  match emptyHead with
  | none => some r
  | some h => do
      let e ← emptyTail
      let t ← r.cells[r.limboTail]?
      some ((r.setNext e t.next).setNext r.limboTail (some h))

/-- The loop of `hard_rcu_quiesce`; `fuel` bounds the number of groups. -/
def sweepGroups (freeing : α → List (α × UInt64)) (bound : UInt64) :
    ℕ → Option ℕ → Option ℕ → Sweep α → Option (Sweep α)
  | 0, _, _, _ => none
  | fuel + 1, emptyHead, emptyTail, s =>
      if s.count = 0 then do
        let r ← s.ring.hookEmpties emptyHead emptyTail
        some { s with ring := r }
      else do
        let s ← cleanUntil freeing bound s.ring.limboHead 0 s
        let p := s.ring.limboHead
        let c ← s.ring.cells[p]?
        if c.group.head ≠ c.group.tail then
          let r ← s.ring.hookEmpties emptyHead emptyTail
          some { s with ring := r }
        else
          let emptyHead := emptyHead.getD p
          if p = s.ring.limboTail then
            some { s with ring := { s.ring with limboHead := emptyHead, limboTail := emptyHead } }
          else
            let n ← c.next
            sweepGroups freeing bound fuel (some emptyHead) (some p)
              { s with ring := { s.ring with limboHead := n } }

/-- `hard_rcu_quiesce`, when `active_epoch` is `active`: the ring, `perform_gc_epoch_` and the freed
objects. -/
def hardRcuQuiesce (freeing : α → List (α × UInt64)) (active : UInt64) (r : LimboRing α) :
    Option (LimboRing α × UInt64 × List α) := do
  let bound := active - 1
  let c ← r.cells[r.limboHead]?
  if c.group.head = c.group.tail then some (r, bound + 1, [])
  else
    let e ← c.group.firstEpoch
    if circularLess bound e then some (r, bound + 1, [])
    else
      let s ← sweepGroups freeing bound (Limbo.rcuFreeCount + 2) none none ⟨r,
        Limbo.rcuFreeCount, []⟩
      some (s.ring, if s.count = 0 then bound else bound + 1, s.freed)

/-! ## Reading and writing groups -/

/-- The group at `p`. -/
def groupAt (r : LimboRing α) (p : ℕ) : LimboGroup α := (r.cells[p]?.map (·.group)).getD .fresh

/-- `next_` of the group at `p`. -/
def next (r : LimboRing α) (p : ℕ) : Option ℕ := r.cells[p]?.bind (·.next)

lemma cell_eq {r : LimboRing α} {p : ℕ} (hp : p < r.cells.length) :
    r.cells[p]? = some ⟨r.groupAt p, r.next p⟩ := by
  simp [groupAt, next, hp]

@[simp] lemma length_setGroup (r : LimboRing α) (p : ℕ) (g : LimboGroup α) :
    (r.setGroup p g).cells.length = r.cells.length := by simp [setGroup]

@[simp] lemma length_setNext (r : LimboRing α) (p : ℕ) (n : Option ℕ) :
    (r.setNext p n).cells.length = r.cells.length := by simp [setNext]

@[simp] lemma next_setGroup (r : LimboRing α) (p : ℕ) (g : LimboGroup α) :
    (r.setGroup p g).next = r.next := by
  funext a
  simp only [next, setGroup, List.getElem?_modify]
  cases r.cells[a]? with
  | none => rfl
  | some c => by_cases h : p = a <;> simp [h]

@[simp] lemma groupAt_setNext (r : LimboRing α) (p : ℕ) (n : Option ℕ) :
    (r.setNext p n).groupAt = r.groupAt := by
  funext a
  simp only [groupAt, setNext, List.getElem?_modify]
  cases r.cells[a]? with
  | none => rfl
  | some c => by_cases h : p = a <;> simp [h]

lemma groupAt_setGroup {r : LimboRing α} {p : ℕ} (hp : p < r.cells.length) (g : LimboGroup α) :
    (r.setGroup p g).groupAt = Function.update r.groupAt p g := by
  funext a
  simp only [groupAt, setGroup, List.getElem?_modify, Function.update_apply]
  by_cases h : p = a
  · subst h
    simp [hp]
  · have h' : a ≠ p := fun heq => h heq.symm
    cases r.cells[a]? <;> simp [h, h']

lemma next_setNext {r : LimboRing α} {p : ℕ} (hp : p < r.cells.length) (n : Option ℕ) :
    (r.setNext p n).next = Function.update r.next p n := by
  funext a
  simp only [next, setNext, List.getElem?_modify, Function.update_apply]
  by_cases h : p = a
  · subst h
    simp [hp]
  · have h' : a ≠ p := fun heq => h heq.symm
    cases r.cells[a]? <;> simp [h, h']

/-- A write to a group that the list does not name. -/
lemma map_groupAt_setGroup {r : LimboRing α} {p : ℕ} (hp : p < r.cells.length) (g : LimboGroup α)
    {ps : List ℕ} (hnot : p ∉ ps) : ps.map (r.setGroup p g).groupAt = ps.map r.groupAt := by
  refine List.map_congr_left (fun a ha => ?_)
  rw [groupAt_setGroup hp, Function.update_of_ne]
  rintro rfl
  exact hnot ha

/-! ## The groups as a list -/

/-- The groups that have been emptied, those from `limbo_head_` to `limbo_tail_`, and those behind
it, as they are linked. -/
structure Chained (r : LimboRing α) (emptied ids spare : List ℕ) : Prop where
  linked : Linked r.next (emptied ++ ids ++ spare) none
  nodup : (emptied ++ ids ++ spare).Nodup
  valid : ∀ p ∈ emptied ++ ids ++ spare, p < r.cells.length
  head : ids.head? = some r.limboHead
  tail : ids.getLast? = some r.limboTail

/-- The ring holds the groups `E` that have been emptied, and the limbo list `l`. -/
structure Views (r : LimboRing α) (emptied ids spare : List ℕ) (E : List (LimboGroup α))
    (l : Limbo α) : Prop extends Chained r emptied ids spare where
  emptied_eq : E = emptied.map r.groupAt
  groups_eq : l.groups = ids.map r.groupAt
  spare_eq : l.spare = spare.map r.groupAt

lemma make_views : (make : LimboRing α).Views [] [0] [] [] .fresh := by
  refine ⟨⟨?_, ?_, ?_, rfl, rfl⟩, rfl, rfl, rfl⟩
  · exact ⟨rfl, trivial⟩
  · simp
  · simp [make]

section

variable {r : LimboRing α} {em ids sp : List ℕ} {E : List (LimboGroup α)} {l : Limbo α}

lemma Chained.head_mem (h : r.Chained em ids sp) : r.limboHead ∈ ids :=
  List.mem_of_mem_head? h.head

lemma Chained.tail_mem (h : r.Chained em ids sp) : r.limboTail ∈ ids :=
  List.mem_of_getLast? h.tail

lemma Chained.head_lt (h : r.Chained em ids sp) : r.limboHead < r.cells.length :=
  h.valid _ (by simp [h.head_mem])

lemma Chained.tail_lt (h : r.Chained em ids sp) : r.limboTail < r.cells.length :=
  h.valid _ (by simp [h.tail_mem])

/-- Writing a group leaves the links alone. -/
lemma Chained.setGroup (h : r.Chained em ids sp) (p : ℕ) (g : LimboGroup α) :
    (r.setGroup p g).Chained em ids sp :=
  ⟨by rw [next_setGroup]; exact h.linked, h.nodup, by simpa using h.valid, h.head, h.tail⟩

/-- The three parts of the chain. -/
lemma Chained.parts (h : r.Chained em ids sp) :
    Linked r.next em (some r.limboHead) ∧ Linked r.next ids sp.head? ∧ Linked r.next sp none := by
  have h0 := h.linked
  rw [List.append_assoc, linked_append, linked_append, List.head?_append, h.head] at h0
  simpa using h0

/-- The group at `limbo_head_`. -/
lemma Views.headGroup (h : r.Views em ids sp E l) : r.groupAt r.limboHead = l.headGroup := by
  obtain ⟨ids', rfl⟩ := List.head?_eq_some_iff.mp h.head
  rw [Limbo.headGroup, h.groups_eq]
  rfl

/-- The group at `limbo_tail_`. -/
lemma Views.tailGroup (h : r.Views em ids sp E l) : r.groupAt r.limboTail = l.tailGroup := by
  obtain ⟨ids', hids⟩ := List.getLast?_eq_some_iff.mp h.tail
  rw [Limbo.tailGroup, h.groups_eq, hids, List.map_append, List.map_singleton, List.getLastD_concat]

/-- Write the group at `limbo_head_`. -/
lemma Views.setHead (h : r.Views em ids sp E l) (g : LimboGroup α) :
    (r.setGroup r.limboHead g).Views em ids sp E (l.setHead g) := by
  have hlt := h.head_lt
  obtain ⟨ids', hids⟩ := List.head?_eq_some_iff.mp h.head
  have hnodup := h.nodup
  rw [hids, List.append_assoc, List.nodup_append] at hnodup
  obtain ⟨-, h1, h2⟩ := hnodup
  rw [List.cons_append, List.nodup_cons, List.mem_append, not_or] at h1
  have hem : r.limboHead ∉ em := fun hmem => h2 _ hmem r.limboHead (by simp) rfl
  refine ⟨h.toChained.setGroup _ _, ?_, ?_, ?_⟩
  · rw [map_groupAt_setGroup hlt g hem]
    exact h.emptied_eq
  · rw [Limbo.setHead, h.groups_eq, hids, List.map_cons, List.map_cons, List.tail_cons,
      map_groupAt_setGroup hlt g h1.1.1, groupAt_setGroup hlt, Function.update_self]
  · rw [map_groupAt_setGroup hlt g h1.1.2]
    exact h.spare_eq

/-- Write the group at `limbo_tail_`. -/
lemma Views.setTail (h : r.Views em ids sp E l) (g : LimboGroup α) :
    (r.setGroup r.limboTail g).Views em ids sp E { l with groups := l.groups.dropLast ++ [g] } := by
  have hlt := h.tail_lt
  obtain ⟨ids', hids⟩ := List.getLast?_eq_some_iff.mp h.tail
  have hnodup := h.nodup
  rw [List.nodup_append, List.nodup_append, hids, List.nodup_append] at hnodup
  obtain ⟨⟨-, ⟨-, -, h1⟩, h2⟩, -, h3⟩ := hnodup
  have hem : r.limboTail ∉ em := fun hmem => h2 _ hmem r.limboTail (by simp) rfl
  have hin : r.limboTail ∉ ids' := fun hmem => h1 _ hmem r.limboTail (by simp) rfl
  have hsp : r.limboTail ∉ sp := fun hmem => h3 r.limboTail (by simp) _ hmem rfl
  refine ⟨h.toChained.setGroup _ _, ?_, ?_, ?_⟩
  · rw [map_groupAt_setGroup hlt g hem]
    exact h.emptied_eq
  · rw [h.groups_eq, hids, List.map_append, List.map_append, List.map_singleton, List.map_singleton,
      List.dropLast_concat, map_groupAt_setGroup hlt g hin, groupAt_setGroup hlt,
      Function.update_self]
  · rw [map_groupAt_setGroup hlt g hsp]
    exact h.spare_eq

/-- Go on to the group behind `limbo_tail_`. -/
lemma Views.advanceTail {n : ℕ} (h : r.Views em ids (n :: sp) E l) :
    ({ r with limboTail := n } : LimboRing α).Views em (ids ++ [n]) sp E l.refill := by
  have happend : em ++ (ids ++ [n]) ++ sp = em ++ ids ++ n :: sp := by simp
  refine ⟨⟨?_, ?_, ?_, ?_, by simp⟩, h.emptied_eq, ?_, ?_⟩
  · rw [happend]
    exact h.linked
  · rw [happend]
    exact h.nodup
  · rw [happend]
    exact h.valid
  · rw [List.head?_append, h.head]
    rfl
  · rw [Limbo.refill, h.groups_eq, h.spare_eq, List.map_append]
    rfl
  · rw [Limbo.refill, h.spare_eq]
    rfl

lemma next_allocate (r : LimboRing α) : r.allocate.next = r.next := by
  funext a
  simp only [next, allocate, List.getElem?_append]
  split_ifs with h
  · rfl
  · rw [List.getElem?_eq_none (not_lt.mp h)]
    cases (a - r.cells.length) <;> rfl

lemma groupAt_allocate (r : LimboRing α) : r.allocate.groupAt = r.groupAt := by
  funext a
  simp only [groupAt, allocate, List.getElem?_append]
  split_ifs with h
  · rfl
  · rw [List.getElem?_eq_none (not_lt.mp h)]
    cases (a - r.cells.length) <;> rfl

/-- Link a new group behind `limbo_tail_`. -/
lemma Views.linkNew (h : r.Views em ids [] E l) :
    (r.allocate.setNext r.limboTail (some r.cells.length)).Views em ids [r.cells.length] E
      { l with spare := [.fresh] } := by
  have hlt : r.limboTail < r.allocate.cells.length := by
    have := h.tail_lt
    simp only [allocate, List.length_append, List.length_singleton]
    omega
  have hnext := next_setNext hlt (some r.cells.length)
  rw [next_allocate] at hnext
  have hgroup : (r.allocate.setNext r.limboTail (some r.cells.length)).groupAt = r.groupAt := by
    rw [groupAt_setNext, groupAt_allocate]
  have hlinked := h.linked
  have hnodup := h.nodup
  have hvalid := h.valid
  rw [List.append_nil] at hlinked hnodup hvalid
  have htail : (em ++ ids).getLast? = some r.limboTail := by
    rw [List.getLast?_append, h.tail]
    rfl
  have hfresh : r.cells.length ∉ em ++ ids := fun hmem => lt_irrefl _ (hvalid _ hmem)
  have hne : r.cells.length ≠ r.limboTail := ne_of_gt h.tail_lt
  refine ⟨⟨?_, ?_, ?_, h.head, h.tail⟩, ?_, ?_, ?_⟩
  · rw [linked_append, hnext]
    refine ⟨hlinked.retarget hnodup htail _, ?_, trivial⟩
    rw [Function.update_of_ne hne, next, List.getElem?_eq_none le_rfl]
    rfl
  · rw [List.nodup_append]
    refine ⟨hnodup, by simp, fun a ha b hb => ?_⟩
    rw [List.mem_singleton.mp hb]
    rintro rfl
    exact hfresh ha
  · intro p hp
    rw [length_setNext]
    simp only [allocate, List.length_append, List.length_singleton]
    rcases List.mem_append.mp hp with hp | hp
    · have := hvalid p hp
      omega
    · rw [List.mem_singleton.mp hp]
      omega
  · rw [hgroup]
    exact h.emptied_eq
  · rw [hgroup]
    exact h.groups_eq
  · rw [hgroup, List.map_singleton, groupAt, List.getElem?_eq_none le_rfl]
    rfl

/-- **`refill_rcu`** on the list. -/
lemma Views.refillRcu (h : r.Views em ids sp E l)
    (hspare : ∀ g ∈ l.spare, g.head = 0 ∧ g.elements = []) :
    ∃ r' ids' sp', r.refillRcu = some r' ∧ r'.limboHead = r.limboHead ∧
      r'.Views em ids' sp' E l.refill := by
  have hlink : ∀ {r : LimboRing α} {n sp l}, r.Views em ids (n :: sp) E l →
      (∀ g ∈ l.spare, g.head = 0 ∧ g.elements = []) →
      r.next r.limboTail = some n ∧ n < r.cells.length ∧
        (r.groupAt n).head = 0 ∧ (r.groupAt n).tail = 0 := by
    intro r n sp l h hspare
    have hn := hspare (r.groupAt n) (by rw [h.spare_eq]; simp)
    refine ⟨h.parts.2.1.last h.tail, h.valid n (by simp), hn.1, ?_⟩
    rw [LimboGroup.tail, hn.2]
    rfl
  cases sp with
  | nil =>
      have h' := h.linkNew
      have hnone : r.next r.limboTail = none := h.parts.2.1.last h.tail
      obtain ⟨k1, k2, k3⟩ := hlink h' (by simp [LimboGroup.fresh])
      have hrefill : ({ l with spare := [.fresh] } : Limbo α).refill = l.refill := by
        rw [Limbo.refill, Limbo.refill, h.spare_eq]
        rfl
      have hview := h'.advanceTail
      rw [hrefill] at hview
      refine ⟨{ (r.allocate.setNext r.limboTail (some r.cells.length)) with
        limboTail := r.cells.length }, _, _, ?_, rfl, hview⟩
      have hcell := cell_eq h'.tail_lt
      have htail : (r.allocate.setNext r.limboTail (some r.cells.length)).limboTail
        = r.limboTail := rfl
      rw [htail] at hcell k1
      rw [LimboRing.refillRcu, cell_eq h.tail_lt]
      simp only [Option.bind_eq_bind, Option.bind_some, hnone, if_true]
      rw [htail, hcell, Option.bind_some, k1, Option.bind_some, cell_eq k2, Option.bind_some,
        if_pos k3]
  | cons n sp =>
      obtain ⟨k1, k2, k3⟩ := hlink h hspare
      refine ⟨{ r with limboTail := n }, _, _, ?_, rfl, h.advanceTail⟩
      rw [LimboRing.refillRcu, cell_eq h.tail_lt]
      simp only [Option.bind_eq_bind, Option.bind_some, k1, reduceCtorEq, if_false]
      rw [cell_eq h.tail_lt, Option.bind_some, k1, Option.bind_some, cell_eq k2, Option.bind_some,
        if_pos k3]

/-- **`record_rcu`** on the list. -/
lemma Views.recordRcu (h : r.Views em ids sp E l)
    (hspare : ∀ g ∈ l.spare, g.head = 0 ∧ g.elements = []) (o : α) (epoch : UInt64) :
    ∃ r' ids' sp', r.recordRcu o epoch = some r' ∧ r'.limboHead = r.limboHead ∧
      r'.Views em ids' sp' E (l.record o epoch) := by
  -- the tail group has room in both cases
  have hpush : ∀ {r : LimboRing α} {ids sp l}, r.Views em ids sp E l →
      l.tailGroup.tail + 2 ≤ LimboGroup.capacity →
      (do
        let t ← r.cells[r.limboTail]?
        if t.group.tail + 2 ≤ LimboGroup.capacity then
          some (r.setGroup r.limboTail (t.group.pushBack o epoch))
        else none) = some (r.setGroup r.limboTail (l.tailGroup.pushBack o epoch)) := by
    intro r ids sp l h hroom
    have hg := h.tailGroup
    simp only [cell_eq h.tail_lt, Option.bind_eq_bind, Option.bind_some, hg, if_pos hroom]
  have hg := h.tailGroup
  rw [LimboRing.recordRcu, cell_eq h.tail_lt, Limbo.record]
  simp only [Option.bind_eq_bind, Option.bind_some, hg]
  split_ifs with hfull
  · obtain ⟨r', ids', sp', hr', hhead, hv⟩ := h.refillRcu hspare
    have hempty : l.refill.tailGroup.tail = 0 := by
      rw [Limbo.tailGroup, Limbo.refill, List.getLastD_concat]
      cases hsp : l.spare with
      | nil => rfl
      | cons g gs =>
          rw [List.headD_cons, LimboGroup.tail, (hspare g (by simp [hsp])).2]
          rfl
    refine ⟨r'.setGroup r'.limboTail (l.refill.tailGroup.pushBack o epoch), ids', sp', ?_, hhead,
      hv.setTail _⟩
    rw [hr', Option.bind_some]
    exact hpush hv (by rw [hempty]; decide)
  · exact ⟨_, ids, sp, hpush h (not_lt.mp hfull), rfl, h.setTail _⟩

/-- The invariant of a limbo list is enough for a callback's records. -/
lemma Views.recordEach (os : List (α × UInt64)) {r : LimboRing α} {ids sp : List ℕ} {l : Limbo α}
    (h : r.Views em ids sp E l) {e : UInt64} (hok : l.OkAt e) :
    ∃ r' ids' sp', r.recordEach os = some r' ∧ r'.limboHead = r.limboHead ∧
      r'.Views em ids' sp' E (l.recordAll os) := by
  induction os generalizing r ids sp l with
  | nil => exact ⟨r, ids, sp, rfl, rfl, h⟩
  | cons o os ih =>
      obtain ⟨r₁, ids₁, sp₁, h₁, hhead₁, hv₁⟩ := h.recordRcu hok.spare o.1 o.2
      obtain ⟨r₂, ids₂, sp₂, h₂, hhead₂, hv₂⟩ := ih hv₁ (hok.record o.1 o.2).1
      refine ⟨r₂, ids₂, sp₂, ?_, hhead₂.trans hhead₁, hv₂⟩
      rw [LimboRing.recordEach, List.foldlM_cons, h₁]
      exact h₂

end

/-! The cases of `clean_until`. -/

section

variable {freeing : α → List (α × UInt64)} {bound epoch : UInt64} {p : ℕ} {s : Sweep α}
  {c c' : LimboCell α}

lemma cleanUntil_empty (hc : s.ring.cells[p]? = some c) (h : c.group.head = c.group.tail) :
    cleanUntil freeing bound p epoch s
      = some { s with ring := s.ring.setGroup p c.group.reset } := by
  rw [cleanUntil]
  split <;> simp_all

lemma cleanUntil_last {o : α} {r : LimboRing α} (hc : s.ring.cells[p]? = some c)
    (h : c.group.head ≠ c.group.tail)
    (hg : c.group.elements[c.group.head]? = some (.object o))
    (hr : s.ring.recordEach (freeing o) = some r) (hc' : r.cells[p]? = some c') (h1 : s.count ≤ 1) :
    cleanUntil freeing bound p epoch s = some ⟨r.setGroup p { c'.group with
      elements := c'.group.elements.set c'.group.head (.marker epoch) }, 0, s.freed ++ [o]⟩ := by
  rw [cleanUntil]
  split
  · simp_all
  · rename_i d hd
    rw [hc] at hd
    cases hd
    rw [if_neg h]
    split
    · simp_all
    · rename_i o' ho
      rw [hg] at ho
      cases ho
      simp only [hr, hc', dif_pos h1]
    · simp_all

lemma cleanUntil_object {o : α} {r : LimboRing α} (hc : s.ring.cells[p]? = some c)
    (h : c.group.head ≠ c.group.tail)
    (hg : c.group.elements[c.group.head]? = some (.object o))
    (hr : s.ring.recordEach (freeing o) = some r) (hc' : r.cells[p]? = some c')
    (h1 : ¬ s.count ≤ 1) :
    cleanUntil freeing bound p epoch s = cleanUntil freeing bound p epoch
      ⟨r.setGroup p { c'.group with head := c'.group.head + 1 }, s.count - 1, s.freed ++ [o]⟩ := by
  rw [cleanUntil]
  split
  · simp_all
  · rename_i d hd
    rw [hc] at hd
    cases hd
    rw [if_neg h]
    split
    · simp_all
    · rename_i o' ho
      rw [hg] at ho
      cases ho
      simp only [hr, hc', dif_neg h1]
    · simp_all

lemma cleanUntil_stop {e : UInt64} (hc : s.ring.cells[p]? = some c)
    (h : c.group.head ≠ c.group.tail)
    (hg : c.group.elements[c.group.head]? = some (.marker e)) (hless : circularLess bound e) :
    cleanUntil freeing bound p epoch s = some s := by
  rw [cleanUntil]
  split
  · simp_all
  · rename_i d hd
    rw [hc] at hd
    cases hd
    rw [if_neg h]
    split
    · simp_all
    · simp_all
    · rename_i e' he
      rw [hg] at he
      cases he
      rw [if_pos hless]

lemma cleanUntil_marker {e : UInt64} (hc : s.ring.cells[p]? = some c)
    (h : c.group.head ≠ c.group.tail)
    (hg : c.group.elements[c.group.head]? = some (.marker e)) (hless : ¬ circularLess bound e) :
    cleanUntil freeing bound p epoch s = cleanUntil freeing bound p e
      { s with ring := s.ring.setGroup p { c.group with head := c.group.head + 1 } } := by
  rw [cleanUntil]
  split
  · simp_all
  · rename_i d hd
    rw [hc] at hd
    cases hd
    rw [if_neg h]
    split
    · simp_all
    · simp_all
    · rename_i e' he
      rw [hg] at he
      cases he
      rw [if_neg hless]

end

/-- **`clean_until`** on the list. -/
lemma Views.cleanUntil (freeing : α → List (α × UInt64)) (bound epoch : UInt64) (c : Cleaning α)
    {r : LimboRing α} {em ids sp : List ℕ} {E : List (LimboGroup α)}
    (h : r.Views em ids sp E c.limbo) (hok : c.limbo.OkAt epoch) :
    ∃ r' ids' sp', LimboRing.cleanUntil freeing bound r.limboHead epoch ⟨r, c.count, c.freed⟩
        = some ⟨r', (Limbo.cleanUntil freeing bound epoch c).count,
          (Limbo.cleanUntil freeing bound epoch c).freed⟩ ∧
      r'.limboHead = r.limboHead ∧
      r'.Views em ids' sp' E (Limbo.cleanUntil freeing bound epoch c).limbo := by
  have hcell := cell_eq h.head_lt
  rw [h.headGroup] at hcell
  fun_induction Limbo.cleanUntil freeing bound epoch c generalizing r ids sp with
  | case1 =>
      rename_i epoch c g hg
      have h0 := le_antisymm hok.head.head_le (List.getElem?_eq_none_iff.mp hg)
      exact ⟨_, ids, sp, cleanUntil_empty hcell h0, rfl, h.setHead _⟩
  | case2 =>
      rename_i epoch c g o hg l hc g'
      have hne := ne_of_lt (List.getElem?_eq_some_iff.mp hg).1
      obtain ⟨r₁, ids₁, sp₁, h₁, hhead, hv⟩ := h.recordEach (freeing o) hok
      have hcell₁ := cell_eq hv.head_lt
      rw [hv.headGroup, hhead] at hcell₁
      refine ⟨_, ids₁, sp₁, cleanUntil_last hcell hne hg h₁ hcell₁ hc, hhead, ?_⟩
      rw [← hhead]
      exact hv.setHead _
  | case3 =>
      rename_i epoch c g o hg l hc g' ih
      have hne := ne_of_lt (List.getElem?_eq_some_iff.mp hg).1
      obtain ⟨r₁, ids₁, sp₁, h₁, hhead, hv⟩ := h.recordEach (freeing o) hok
      obtain ⟨k1, k2, ⟨es, k3⟩, -⟩ := hok.recordAll (freeing o)
      have ho : (c.limbo.recordAll (freeing o)).headGroup.elements[
          (c.limbo.recordAll (freeing o)).headGroup.head]? = some (.object o) := by
        rw [k2, k3, List.getElem?_append_left (List.getElem?_eq_some_iff.mp hg).1, hg]
      have hcell₁ := cell_eq hv.head_lt
      rw [hv.headGroup, hhead] at hcell₁
      have hv₂ := hv.setHead { (c.limbo.recordAll (freeing o)).headGroup with
        head := (c.limbo.recordAll (freeing o)).headGroup.head + 1 }
      have hcell₂ := cell_eq hv₂.head_lt
      rw [hv₂.headGroup] at hcell₂
      rw [cleanUntil_object hcell hne hg h₁ hcell₁ hc]
      rw [hhead] at hv₂ hcell₂
      obtain ⟨r', ids', sp', i1, i2, i3⟩ := ih hv₂ (k1.advance ho).1 hcell₂
      refine ⟨r', ids', sp', ?_, i2.trans hhead, i3⟩
      rw [← i1]
      exact congrArg (fun a => LimboRing.cleanUntil freeing bound a _ _) hhead.symm
  | case4 =>
      rename_i epoch c g e hg hless
      have hne := ne_of_lt (List.getElem?_eq_some_iff.mp hg).1
      exact ⟨r, ids, sp, cleanUntil_stop hcell hne hg hless, rfl, h⟩
  | case5 =>
      rename_i epoch c g e hg hless ih
      have hne := ne_of_lt (List.getElem?_eq_some_iff.mp hg).1
      have hv := h.setHead { c.limbo.headGroup with head := c.limbo.headGroup.head + 1 }
      have hcell₁ := cell_eq hv.head_lt
      rw [hv.headGroup] at hcell₁
      rw [cleanUntil_marker hcell hne hg hless]
      exact ih hv (hok.advance hg).1 hcell₁

end LimboRing

end MasstreeLHM
