import MasstreeLHM.Rcu.Ring

/-!
# Runs of the limbo ring

`hard_rcu_quiesce` on the ring does what it does on the list of groups, and any sequence of
`record_rcu` and `hard_rcu_quiesce` frees what has been recorded in that order.

The emptied groups are linked behind `limbo_tail_` (`Views.hookEmpties`), with a special case when
all groups have been emptied (`Views.allEmptied`).  `Views.sweepGroups` is the loop over the groups:
every group but the first holds an object, which is freed before the group is left behind, so the
loop ends.

A `LimboTrace` is a run of one thread with all that has been recorded and freed, each with the epoch
of that time.  `Inv` says that what has been freed, followed by what waits in the ring, is what has
been recorded.  `Inv.step` and `Inv.run` keep it, and **`run_frees_in_order`** reads off that no
assertion fails and that objects are freed in order, and none too early, as the signed comparison of
epochs goes.
-/

namespace MasstreeLHM

variable {α : Type}

namespace LimboRing

section

variable {r : LimboRing α} {em ids sp : List ℕ} {E : List (LimboGroup α)} {l : Limbo α}

/-- **The emptied groups go behind `limbo_tail_`.** -/
lemma Views.hookEmpties (h : r.Views em ids sp E l) :
    ∃ r' ids' sp', r.hookEmpties em.head? em.getLast? = some r' ∧
      r'.Views [] ids' sp' [] (l.hook E) := by
  obtain rfl | ⟨em', e, rfl⟩ := List.eq_nil_or_concat' em
  · refine ⟨r, ids, sp, rfl, ⟨h.linked, h.nodup, h.valid, h.head, h.tail⟩, rfl, h.groups_eq, ?_⟩
    rw [Limbo.hook, h.emptied_eq]
    exact h.spare_eq
  · have hlast : (em' ++ [e]).getLast? = some e := by simp
    obtain ⟨x, hx⟩ : ∃ x, (em' ++ [e]).head? = some x := by cases em' <;> exact ⟨_, rfl⟩
    obtain ⟨k1, k2, k3⟩ := h.parts
    have hnodup := h.nodup
    rw [List.append_assoc, List.nodup_append] at hnodup
    obtain ⟨n1, hrest, n1'⟩ := hnodup
    obtain ⟨n2, n3, n23⟩ := List.nodup_append.mp hrest
    have he : e < r.cells.length := h.valid e (by simp)
    have htail : r.limboTail < (r.setNext e sp.head?).cells.length := by
      rw [length_setNext]
      exact h.tail_lt
    have hnext := next_setNext htail (some x)
    rw [next_setNext he] at hnext
    have hgroup : ((r.setNext e sp.head?).setNext r.limboTail (some x)).groupAt = r.groupAt := by
      rw [groupAt_setNext, groupAt_setNext]
    refine ⟨(r.setNext e sp.head?).setNext r.limboTail (some x), ids, (em' ++ [e]) ++ sp, ?_,
      ⟨?_, ?_, ?_, h.head, h.tail⟩, rfl, ?_, ?_⟩
    · rw [hx, hlast]
      simp only [LimboRing.hookEmpties, cell_eq h.tail_lt, Option.bind_eq_bind, Option.bind_some,
        k2.last h.tail]
    · rw [List.nil_append, linked_append, linked_append, List.head?_append, hx, hnext]
      refine ⟨?_, ?_, ?_⟩
      · -- from `limbo_head_` to `limbo_tail_`
        refine Linked.retarget (q := sp.head?) (k2.congr (fun p hp => ?_)) n2 h.tail _
        refine Function.update_of_ne ?_ _ _
        rintro rfl
        exact n1' p (by simp) p (by simp [hp]) rfl
      · -- the emptied groups
        rw [Option.or_none]
        refine (k1.retarget n1 hlast sp.head?).congr (fun p hp => ?_)
        exact Function.update_of_ne (fun heq => n1' p hp _ (by simp [h.tail_mem]) heq) _ _
      · refine k3.congr (fun p hp => ?_)
        rw [Function.update_of_ne, Function.update_of_ne]
        · rintro rfl
          exact n1' p (by simp) p (by simp [hp]) rfl
        · rintro rfl
          exact n23 _ h.tail_mem _ hp rfl
    · refine (List.Perm.nodup_iff ?_).mp h.nodup
      rw [List.nil_append, ← List.append_assoc]
      exact (List.perm_append_comm).append_right sp
    · intro p hp
      rw [length_setNext, length_setNext]
      refine h.valid p ?_
      simp only [List.nil_append, List.mem_append] at hp ⊢
      tauto
    · rw [hgroup]
      exact h.groups_eq
    · rw [hgroup, Limbo.hook, h.emptied_eq, h.spare_eq, ← List.map_append]

/-- All groups are empty, and the first of them becomes the list. -/
lemma Views.allEmptied (h : r.Views em ids sp E l) (hrest : l.groups.tail = []) :
    r.limboHead = r.limboTail ∧ ∃ ids' sp', ({ r with
      limboHead := em.head?.getD r.limboHead,
      limboTail := em.head?.getD r.limboHead } : LimboRing α).Views [] ids' sp' []
        ⟨[(E ++ [l.headGroup]).headD l.headGroup], (E ++ [l.headGroup]).tail ++ l.spare⟩ := by
  have hids : ids = [r.limboHead] := by
    obtain ⟨rest, hids⟩ := List.head?_eq_some_iff.mp h.head
    rw [h.groups_eq, hids, List.map_cons, List.tail_cons, List.map_eq_nil_iff] at hrest
    rw [hids, hrest]
  have htail := h.tail
  rw [hids] at htail
  refine ⟨Option.some.inj htail, ?_⟩
  have hlinked := h.linked
  have hnodup := h.nodup
  have hvalid := h.valid
  rw [hids] at hlinked hnodup hvalid
  have hE : E ++ [l.headGroup] = (em ++ [r.limboHead]).map r.groupAt := by
    rw [h.emptied_eq, List.map_append, List.map_singleton, h.headGroup]
  cases em with
  | nil =>
      refine ⟨[r.limboHead], sp, ⟨hlinked, hnodup, hvalid, rfl, rfl⟩, rfl, ?_, ?_⟩
      · rw [hE]
        rfl
      · rw [hE, h.spare_eq]
        rfl
  | cons x em =>
      have hsplit : x :: em ++ [r.limboHead] ++ sp = [] ++ [x] ++ (em ++ [r.limboHead] ++ sp) := by
        simp
      rw [hsplit] at hlinked hnodup hvalid
      refine ⟨[x], em ++ [r.limboHead] ++ sp, ⟨hlinked, hnodup, hvalid, rfl, rfl⟩, rfl, ?_, ?_⟩
      · rw [hE]
        rfl
      · rw [hE, h.spare_eq]
        change List.map r.groupAt (em ++ [r.limboHead]) ++ List.map r.groupAt sp
          = List.map r.groupAt (em ++ [r.limboHead] ++ sp)
        rw [← List.map_append]

/-- The first group is empty, and another one follows. -/
lemma Views.dropHead (h : r.Views em ids sp E l) {g : LimboGroup α} {gs : List (LimboGroup α)}
    (hrest : l.groups.tail = g :: gs) :
    ∃ n ids', r.next r.limboHead = some n ∧ r.limboHead ≠ r.limboTail ∧
      ({ r with limboHead := n } : LimboRing α).Views (em ++ [r.limboHead]) ids' sp
        (E ++ [l.headGroup]) { l with groups := g :: gs } := by
  obtain ⟨rest, hids⟩ := List.head?_eq_some_iff.mp h.head
  have hgroups := h.groups_eq
  rw [hids, List.map_cons] at hgroups
  rw [hgroups, List.tail_cons] at hrest
  obtain _ | ⟨n, rest⟩ := rest
  · exact absurd hrest (by simp)
  have hsplit : em ++ ids ++ sp = em ++ [r.limboHead] ++ n :: rest ++ sp := by simp [hids]
  have hlinked := h.linked
  have hnodup := h.nodup
  have hvalid := h.valid
  rw [hsplit] at hlinked hnodup hvalid
  have htail := h.tail
  rw [hids, List.getLast?_cons_cons] at htail
  refine ⟨n, n :: rest, ?_, ?_, ⟨hlinked, hnodup, hvalid, rfl, htail⟩, ?_, ?_, h.spare_eq⟩
  · have := h.parts.2.1
    rw [hids] at this
    exact this.1
  · rw [List.append_assoc, List.append_assoc, List.nodup_append] at hnodup
    have hn := (List.nodup_append.mp hnodup.2.1).2.2
    exact hn r.limboHead (by simp) r.limboTail (List.mem_append_left _ (List.mem_of_getLast? htail))
  · rw [h.emptied_eq, List.map_append, List.map_singleton, ← h.headGroup]
    rfl
  · exact hrest.symm

end

/-- **The loop of `hard_rcu_quiesce`** on the list.  Every group but the first holds an object,
which is freed before the group is left behind; so the fuel is enough. -/
lemma Views.sweepGroups (freeing : α → List (α × UInt64)) (bound : UInt64) (fuel : ℕ)
    {c : Cleaning α} {r : LimboRing α} {em ids sp : List ℕ} {E : List (LimboGroup α)}
    (h : r.Views em ids sp E c.limbo) (hok : c.limbo.Ok) (hf : c.limbo.Filled)
    (hfuel : c.count + 1 < fuel ∨
      c.count < fuel ∧ labelled 0 c.limbo.headGroup.waiting ≠ []) :
    ∃ r' ids' sp', LimboRing.sweepGroups freeing bound fuel em.head? em.getLast?
      ⟨r, c.count, c.freed⟩
        = some ⟨r', (Limbo.cleanGroups freeing bound E c).count,
          (Limbo.cleanGroups freeing bound E c).freed⟩ ∧
      r'.Views [] ids' sp' [] (Limbo.cleanGroups freeing bound E c).limbo ∧
      (Limbo.cleanGroups freeing bound E c).limbo.Filled := by
  have hgroups : ∀ {l : Limbo α} {r : LimboRing α} {em ids sp E}, r.Views em ids sp E l →
      l.groups ≠ [] := by
    intro l r em ids sp E h h0
    have hmem := h.head_mem
    rw [List.map_eq_nil_iff.mp (h.groups_eq.symm.trans h0)] at hmem
    exact absurd hmem List.not_mem_nil
  induction fuel generalizing c r em ids sp E with
  | zero => omega
  | succ fuel ih =>
      rw [LimboRing.sweepGroups]
      by_cases hcount : c.count = 0
      · obtain ⟨r', ids', sp', k1, k2⟩ := h.hookEmpties
        rw [Limbo.cleanGroups, dif_pos (Or.inl hcount), if_pos hcount, k1]
        exact ⟨r', ids', sp', rfl, k2, hf⟩
      · obtain ⟨r₁, ids₁, sp₁, j1, j2, j3⟩ := h.cleanUntil freeing bound 0 c hok.okAt
        have hf₁ := hok.okAt.filled_cleanUntil freeing bound 0 c hf
        obtain ⟨fs, hfreed⟩ := Limbo.cleanUntil_spec freeing bound 0 c hok.okAt
          (fun _ => hok.headGroup.marker)
        have hcell := cell_eq j3.head_lt
        rw [j3.headGroup] at hcell
        rw [if_neg hcount, j1]
        simp only [Option.bind_eq_bind, Option.bind_some, hcell]
        by_cases hne : (Limbo.cleanUntil freeing bound 0 c).limbo.headGroup.head
            = (Limbo.cleanUntil freeing bound 0 c).limbo.headGroup.tail
        · rw [if_neg (not_not.mpr hne)]
          cases hrest : (Limbo.cleanUntil freeing bound 0 c).limbo.groups.tail with
          | nil =>
              obtain ⟨hone, ids', sp', k⟩ := j3.allEmptied hrest
              rw [Limbo.cleanGroups_last hcount (hgroups h) hne hrest, if_pos hone]
              exact ⟨_, ids', sp', rfl, k, by simp [Limbo.Filled]⟩
          | cons g gs =>
              obtain ⟨n, ids', k1, k2, k3⟩ := j3.dropHead hrest
              have hg : labelled 0 g.waiting ≠ [] := hf₁ g (by rw [hrest]; simp)
              have hf₂ : ({ (Limbo.cleanUntil freeing bound 0 c).limbo with
                  groups := g :: gs } : Limbo α).Filled :=
                fun x hx => hf₁ x (by rw [hrest]; exact List.mem_cons_of_mem _ hx)
              have hless : (Limbo.cleanUntil freeing bound 0 c).count < fuel := by
                rcases hfuel with hfuel | ⟨hfuel, hobj⟩
                · rcases Limbo.cleanUntil_count freeing bound 0 c (hgroups h) hcount with
                    h1 | ⟨h1, -⟩ <;>
                    omega
                · rcases hok.okAt.cleanUntil_progress freeing bound 0 c hcount hobj with h1 | h1
                  · omega
                  · exact absurd hne h1
              rw [Limbo.cleanGroups_next hcount (hgroups h) hne hrest, if_neg k2, k1,
                Option.bind_some]
              have hnext := ih (c := { Limbo.cleanUntil freeing bound 0 c with
                limbo := { (Limbo.cleanUntil freeing bound 0 c).limbo with groups := g :: gs } })
                k3 (hfreed.ok.dropHead hrest) hf₂ (Or.inr ⟨hless, hg⟩)
              rw [List.head?_append, List.getLast?_concat] at hnext
              cases em <;> exact hnext
        · obtain ⟨r', ids', sp', k1, k2⟩ := j3.hookEmpties
          rw [Limbo.cleanGroups_stop hcount (hgroups h) hne, if_pos hne, k1]
          exact ⟨r', ids', sp', rfl, k2, hf₁⟩

/-- `hard_rcu_quiesce` when the first epoch is old enough. -/
lemma hardRcuQuiesce_sweep {freeing : α → List (α × UInt64)} {active : UInt64} {r : LimboRing α}
    {c : LimboCell α} {e : UInt64} (hc : r.cells[r.limboHead]? = some c)
    (h : c.group.head ≠ c.group.tail) (hg : c.group.elements[c.group.head]? = some (.marker e))
    (hless : ¬ circularLess (active - 1) e) :
    r.hardRcuQuiesce freeing active =
      (LimboRing.sweepGroups freeing (active - 1) (Limbo.rcuFreeCount + 2) none none
        ⟨r, Limbo.rcuFreeCount, []⟩).bind
        (fun s => some (s.ring, if s.count = 0 then active - 1 else active - 1 + 1, s.freed)) := by
  have hfirst : c.group.firstEpoch = some e := by
    rw [LimboGroup.firstEpoch, if_pos h, hg]
  simp only [LimboRing.hardRcuQuiesce, hc, Option.bind_eq_bind, Option.bind_some, if_neg h, hfirst,
    if_neg hless]

/-- **`hard_rcu_quiesce`** on the list. -/
lemma Views.hardRcuQuiesce (freeing : α → List (α × UInt64)) (active : UInt64) {l : Limbo α}
    {r : LimboRing α} {ids sp : List ℕ} (h : r.Views [] ids sp [] l) (hok : l.Ok) (hf : l.Filled) :
    ∃ r' ids' sp', r.hardRcuQuiesce freeing active
        = some (r', (l.hardRcuQuiesce freeing active).2) ∧
      r'.Views [] ids' sp' [] (l.hardRcuQuiesce freeing active).1 ∧
      (l.hardRcuQuiesce freeing active).1.Filled := by
  have hcell := cell_eq h.head_lt
  rw [h.headGroup] at hcell
  rw [Limbo.hardRcuQuiesce]
  by_cases h0 : l.headGroup.head = l.headGroup.tail
  · have hnone : l.headGroup.elements[l.headGroup.head]? = none := List.getElem?_eq_none h0.ge
    rw [hnone]
    refine ⟨r, ids, sp, ?_, h, hf⟩
    simp only [LimboRing.hardRcuQuiesce, hcell, Option.bind_eq_bind, Option.bind_some, if_pos h0]
  · obtain ⟨e, he⟩ := hok.headGroup.marker h0
    rw [he]
    by_cases hless : circularLess (active - 1) e
    · have hfirst : l.headGroup.firstEpoch = some e := by
        rw [LimboGroup.firstEpoch, if_pos h0, he]
      simp only [if_pos hless]
      refine ⟨r, ids, sp, ?_, h, hf⟩
      simp only [LimboRing.hardRcuQuiesce, hcell, Option.bind_eq_bind, Option.bind_some, if_neg h0,
        hfirst, if_pos hless]
    · simp only [if_neg hless]
      obtain ⟨r', ids', sp', k1, k2, k3⟩ := h.sweepGroups freeing (active - 1)
        (Limbo.rcuFreeCount + 2) (c := ⟨l, Limbo.rcuFreeCount, []⟩) hok hf (Or.inl (by simp))
      refine ⟨r', ids', sp', ?_, k2, k3⟩
      rw [List.head?_nil, List.getLast?_nil] at k1
      rw [hardRcuQuiesce_sweep hcell h0 he hless, k1]
      rfl

end LimboRing

/-! ## Runs -/

/-- A call of a thread.  `freeing o` is what the callback `o` retires if it is freed. -/
inductive LimboCall (α : Type) where
  | record (o : α) (globalepoch : UInt64)
  | quiesce (freeing : α → List (α × UInt64)) (activeEpoch : UInt64)

/-- The ring, what has been recorded, each with `globalepoch` at that time, and what has been freed,
each with `active_epoch` at that time. -/
structure LimboTrace (α : Type) where
  ring : LimboRing α
  recorded : List (α × UInt64)
  freed : List (α × UInt64)

namespace LimboTrace

/-- A new thread. -/
def make : LimboTrace α := ⟨.make, [], []⟩

/-- One call. -/
def step (t : LimboTrace α) : LimboCall α → Option (LimboTrace α)
  | .record o e => do
      let r ← t.ring.recordRcu o e
      some { t with ring := r, recorded := t.recorded ++ [(o, e)] }
  | .quiesce freeing active => do
      let (r, _, fs) ← t.ring.hardRcuQuiesce freeing active
      some ⟨r, t.recorded ++ fs.flatMap freeing, t.freed ++ fs.map (·, active)⟩

/-- Any sequence of calls. -/
def run (t : LimboTrace α) (calls : List (LimboCall α)) : Option (LimboTrace α) :=
  calls.foldlM step t

/-- The objects of the groups `ids`, oldest first, each with its epoch. -/
def waiting (t : LimboTrace α) (ids : List ℕ) : List (α × UInt64) :=
  ids.flatMap (fun p => labelled 0 (t.ring.groupAt p).waiting)

/-- `o` has been freed as the recorded `r`: its epoch is at most `active_epoch - 1`, as a signed
difference. -/
def FreedAs (f r : α × UInt64) : Prop := f.1 = r.1 ∧ ¬ circularLess (f.2 - 1) r.2

/-- What holds between two calls. -/
structure Inv (t : LimboTrace α) (l : Limbo α) (done : List (α × UInt64)) : Prop where
  views : ∃ ids sp, t.ring.Views [] ids sp [] l
  ok : l.Ok
  filled : l.Filled
  recorded : t.recorded = done ++ l.pending
  freed : List.Forall₂ FreedAs t.freed done

lemma make_inv : (make : LimboTrace α).Inv .fresh [] :=
  ⟨⟨_, _, LimboRing.make_views⟩, Limbo.fresh_ok, Limbo.fresh_filled, rfl, .nil⟩

/-- **One call.** -/
lemma Inv.step {t : LimboTrace α} {l : Limbo α} {done : List (α × UInt64)} (h : t.Inv l done)
    (c : LimboCall α) : ∃ t' l' done', t.step c = some t' ∧ t'.Inv l' done' := by
  obtain ⟨ids, sp, hv⟩ := h.views
  cases c with
  | record o e =>
      obtain ⟨r', ids', sp', k1, -, k3⟩ := hv.recordRcu h.ok.spare o e
      obtain ⟨j1, j2⟩ := h.ok.record o e
      refine ⟨{ t with ring := r', recorded := t.recorded ++ [(o, e)] }, l.record o e, done, ?_,
        ⟨ids', sp', k3⟩, j1, h.ok.okAt.filled_record h.filled o e, ?_, h.freed⟩
      · rw [LimboTrace.step, k1]
        rfl
      · rw [h.recorded, j2, List.append_assoc]
  | quiesce freeing active =>
      obtain ⟨r', ids', sp', k1, k2, k3⟩ := hv.hardRcuQuiesce freeing active h.ok h.filled
      obtain ⟨fs, j1, j2, j3, j4⟩ := l.hardRcuQuiesce_spec freeing active h.ok
      refine ⟨⟨r', t.recorded ++ (fs.map Prod.fst).flatMap freeing,
        t.freed ++ (fs.map Prod.fst).map (·, active)⟩, _, done ++ fs, ?_, ⟨ids', sp', k2⟩, j4, k3,
        ?_, ?_⟩
      · rw [LimboTrace.step, k1, ← j1]
        rfl
      · rw [h.recorded, List.flatMap_map, List.append_assoc, j3, List.append_assoc]
      · refine List.rel_append h.freed ?_
        rw [List.map_map, List.forall₂_map_left_iff, List.forall₂_same]
        exact fun f hf => ⟨rfl, j2 f hf⟩

/-- **Any sequence of calls.** -/
lemma Inv.run {t : LimboTrace α} {l : Limbo α} {done : List (α × UInt64)} (h : t.Inv l done)
    (calls : List (LimboCall α)) : ∃ t' l' done', t.run calls = some t' ∧ t'.Inv l' done' := by
  induction calls generalizing t l done with
  | nil => exact ⟨t, l, done, rfl, h⟩
  | cons c calls ih =>
      obtain ⟨t₁, l₁, done₁, k1, k2⟩ := h.step c
      obtain ⟨t', l', done', j1, j2⟩ := ih k2
      refine ⟨t', l', done', ?_, j2⟩
      rw [LimboTrace.run, List.foldlM_cons, k1]
      exact j1

/-- The epochs as numbers. -/
lemma FreedAs.epoch_le {f r : α × UInt64} (h : FreedAs f r) :
    r.2.toNat ≤ (f.2 - 1).toNat ∨ (f.2 - 1).toNat + 2 ^ 63 < r.2.toNat := by
  obtain ⟨-, hless⟩ := h
  generalize f.2 - 1 = bound at hless ⊢
  rw [circularLess, decide_eq_true_eq, UInt64.toNat_sub] at hless
  have h1 := bound.toNat_lt
  have h2 := r.2.toNat_lt
  omega

/-- **Limbo lists.**  Whatever a thread calls, no assertion fails.  What has been freed is the first
part of what has been recorded, in that order and each at an `active_epoch` past its epoch; the rest
is in the groups from `limbo_head_` to `limbo_tail_`, and `head_` of each that is not empty is at a
marker. -/
theorem run_frees_in_order (calls : List (LimboCall α)) :
    ∃ t ids spare done, run make calls = some t ∧
      t.ring.Chained [] ids spare ∧
      t.recorded = done ++ t.waiting ids ∧
      List.Forall₂ FreedAs t.freed done ∧
      (∀ p ∈ t.freed.zip done, p.2.2.toNat ≤ (p.1.2 - 1).toNat ∨
        (p.1.2 - 1).toNat + 2 ^ 63 < p.2.2.toNat) ∧
      ∀ p ∈ ids, (t.ring.groupAt p).head ≠ (t.ring.groupAt p).tail →
        ∃ e, (t.ring.groupAt p).elements[(t.ring.groupAt p).head]? = some (.marker e) := by
  obtain ⟨t, l, done, hrun, h⟩ := make_inv.run calls
  obtain ⟨ids, sp, hv⟩ := h.views
  refine ⟨t, ids, sp, done, hrun, hv.toChained, ?_, h.freed, ?_, ?_⟩
  · have hpending : l.pending = l.groups.flatMap (fun g => labelled 0 g.waiting) := by
      rw [h.ok.groups]
      rfl
    rw [h.recorded, hpending, hv.groups_eq, List.flatMap_map]
    rfl
  · exact fun p hp => (List.forall₂_iff_zip.mp h.freed).2 hp |>.epoch_le
  · exact fun p hp => (h.ok.all _ (by rw [hv.groups_eq]; exact List.mem_map_of_mem hp)).marker

/-- An epoch more than 2^63 past `active_epoch - 1` counts as an old one: recorded at
`2 ^ 63 + 2`, an object is freed when `active_epoch` is 1. -/
theorem freed_past_active_epoch :
    ∃ t, run make [.record 7 9223372036854775810, .quiesce (fun _ : ℕ => []) 1] = some t ∧
      t.recorded = [(7, 9223372036854775810)] ∧ t.freed = [(7, 1)] ∧
      ¬ (9223372036854775810 : UInt64).toNat ≤ (1 : UInt64).toNat - 1 := by
  let before : LimboRing ℕ := ⟨[⟨⟨0, [.marker 9223372036854775810, .object 7], 9223372036854775810⟩,
    none⟩], 0, 0⟩
  let after : LimboRing ℕ := ⟨[⟨⟨0, [], 9223372036854775810⟩, none⟩], 0, 0⟩
  have hclean : LimboRing.cleanUntil (fun _ => []) 0 0 0 ⟨before, 128, []⟩
      = some ⟨after, 127, [7]⟩ := by
    rw [LimboRing.cleanUntil_marker rfl (by decide) rfl (by decide),
      LimboRing.cleanUntil_object rfl (by decide) rfl rfl rfl (by decide),
      LimboRing.cleanUntil_empty rfl (by decide)]
    rfl
  have hsweep : LimboRing.sweepGroups (fun _ => []) 0 130 none none ⟨before, 128, []⟩
      = some ⟨after, 127, [7]⟩ := by
    rw [LimboRing.sweepGroups, if_neg (by decide), hclean]
    rfl
  have hquiesce : before.hardRcuQuiesce (fun _ => []) 1 = some (after, 1, [7]) := by
    rw [LimboRing.hardRcuQuiesce_sweep rfl (by decide) rfl (by decide)]
    change (LimboRing.sweepGroups (fun _ => []) 0 130 none none ⟨before, 128, []⟩).bind _ = _
    rw [hsweep]
    rfl
  refine ⟨⟨after, [(7, 9223372036854775810)], [(7, 1)]⟩, ?_, rfl, rfl, by decide⟩
  have hrecord : make.step (.record 7 9223372036854775810)
      = some ⟨before, [(7, 9223372036854775810)], []⟩ := rfl
  rw [run, List.foldlM_cons, hrecord, Option.bind_eq_bind, Option.bind_some, List.foldlM_cons, step,
    hquiesce]
  rfl

end LimboTrace

end MasstreeLHM
