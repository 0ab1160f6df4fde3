import Mathlib
import Alpine.Lib.Outcome
import Alpine.Sim.EventOrder

/-!
# Runs of the event queue

`Tracked` adds to a queue the number of the call that scheduled each event last; `Sorted` is `Rep`
together with the last-scheduled-first order of events with equal keys.

* `step_spec` — a call either fails one of its own assertions, or services an empty queue, or does to
  the list what `absList` says: put the event before the first event that is not smaller, take it out,
  or take off the first event.
* `queue_refines_sorted_list` — so in every reachable state the queue is such a list, and no call
  panics or runs forever.
-/

namespace Alpine.Sim

variable {n : Nat}

/-! ## The sorted list -/

/-- Put `e` before the first element that is not smaller. -/
def insertSorted (q : EventQueue n) (e : Fin n) (l : List (Fin n)) : List (Fin n) :=
  l.takeWhile (fun x => (q.events x).Lt (q.events e)) ++
    e :: l.dropWhile (fun x => (q.events x).Lt (q.events e))

/-- What a call does to the list of scheduled events; `q` gives the keys after the call. -/
def absList (q : EventQueue n) : Op n → List (Fin n) → List (Fin n)
  | .construct _ _ _, l => l
  | .squash _, l => l
  | .schedule event _, l => insertSorted q event l
  | .deschedule event, l => l.erase event
  | .reschedule event _ _, l => insertSorted q event (l.erase event)
  | .serviceOne, l => l.tail

variable {q : EventQueue n} {e : Fin n}

theorem insertSorted_eq {l l' : List (Fin n)} (hl : ∀ x ∈ l, (q.events x).Lt (q.events e))
    (hl' : ∀ x ∈ l', ¬ (q.events x).Lt (q.events e)) : insertSorted q e (l ++ l') = l ++ e :: l' := by
  have hall : ∀ x ∈ l, decide ((q.events x).Lt (q.events e)) = true :=
    fun x hx => decide_eq_true (hl x hx)
  unfold insertSorted
  rw [List.takeWhile_append_of_pos hall, List.dropWhile_append_of_pos hall]
  cases l' with
  | nil => simp
  | cons a l' =>
    have ha := hl' a List.mem_cons_self
    simp [ha]

/-! ## Tracked queues -/

structure Tracked (n : Nat) where
  q : EventQueue n
  /-- Number of the call that last scheduled the event. -/
  stamp : Fin n → Nat
  clock : Nat

/-- The event a call puts into the queue. -/
def Op.scheduled? : Op n → Option (Fin n)
  | .schedule event _ => some event
  | .reschedule event _ _ => some event
  | _ => none

def Tracked.step (s : Tracked n) (op : Op n) : Except Fault (Tracked n) :=
  (Sim.step s.q op).map fun q' =>
    { q := q'
      stamp := fun e => if op.scheduled? = some e then s.clock else s.stamp e
      clock := s.clock + 1 }

/-- A new queue; no event object is scheduled and its pointers are arbitrary. -/
def Tracked.Initial (s : Tracked n) : Prop :=
  s.q.head = none ∧ ∀ e, (s.q.events e).scheduled = false

/-- The representation invariant with the order of events with equal keys. -/
structure Sorted (s : Tracked n) (bins : Bins n) : Prop extends Rep s.q bins where
  lifo : (toList bins).Pairwise fun a b =>
    (s.q.events a).Eq (s.q.events b) → s.stamp b < s.stamp a
  stamped : ∀ e ∈ toList bins, s.stamp e < s.clock

variable {s : Tracked n}

theorem Sorted.initial (h : s.Initial) : Sorted s [] where
  byBin := h.1
  inBin := fun _ hb => absurd hb List.not_mem_nil
  nodup := List.nodup_nil
  sameKey := fun _ hb => absurd hb List.not_mem_nil
  increasing := List.Pairwise.nil
  scheduled := fun e => by rw [h.2 e]; simp
  future := fun _ he => absurd he List.not_mem_nil
  lifo := List.Pairwise.nil
  stamped := fun _ he => absurd he List.not_mem_nil

/-! ## Updates that keep the pointers -/

variable {q' : EventQueue n} {bins : Bins n}

theorem Spells.congr (h : Spells q bins) (hhead : q'.head = q.head)
    (hbin : ∀ x ∈ toList bins, q'.nextBin x = q.nextBin x)
    (hin : ∀ x ∈ toList bins, q'.nextInBin x = q.nextInBin x) : Spells q' bins := by
  refine ⟨?_, fun b hb => ?_⟩
  · rw [hhead]
    exact h.byBin.congr fun x hx => hbin x ((tops_sublist bins).subset hx)
  · rw [hin b.1 (top_mem hb)]
    exact (h.inBin b hb).congr fun x hx => hin x (below_mem hb hx)

variable {f : Event n → Event n}

theorem Spells.modify (h : Spells q bins) (hf : e ∈ toList bins →
      (f (q.events e)).nextBin = (q.events e).nextBin ∧ (f (q.events e)).nextInBin = (q.events e).nextInBin) :
    Spells (q.modify e f) bins := by
  refine h.congr rfl (fun x hx => ?_) fun x hx => ?_
  · unfold EventQueue.nextBin
    by_cases he : x = e
    · subst he
      rw [EventQueue.modify_same, (hf hx).1]
    · rw [EventQueue.modify_ne q he]
  · unfold EventQueue.nextInBin
    by_cases he : x = e
    · subst he
      rw [EventQueue.modify_same, (hf hx).2]
    · rw [EventQueue.modify_ne q he]

theorem Ordered.modify (h : Ordered q bins) (hf : e ∈ toList bins →
      (f (q.events e)).when = (q.events e).when ∧ (f (q.events e)).priority = (q.events e).priority) :
    Ordered (q.modify e f) bins := by
  refine h.congr fun x hx => ?_
  by_cases he : x = e
  · subst he
    rw [EventQueue.modify_same]
    exact hf hx
  · rw [EventQueue.modify_ne q he]
    exact ⟨rfl, rfl⟩

/-! ## Putting an event into the queue -/

theorem Ordered.key_of_mem (h : Ordered q bins) {b : Fin n × List (Fin n)} (hb : b ∈ bins) {x : Fin n}
    (hx : x ∈ b.1 :: b.2) : (q.events x).Eq (q.events b.1) := by
  rcases List.mem_cons.1 hx with rfl | hx
  · exact ⟨rfl, rfl⟩
  · exact h.sameKey b hb x hx

/-- The queue and the list after an event has been given a time, inserted and flagged. -/
structure Placed (q q' : EventQueue n) (bins bins' : Bins n) (e : Fin n) : Prop where
  rep : Rep q' bins'
  curTick : q'.curTick = q.curTick
  keys : ∀ x, x ≠ e → (q'.events x).when = (q.events x).when ∧ (q'.events x).priority = (q.events x).priority
  split : ∃ l l', toList bins = l ++ l' ∧ toList bins' = l ++ e :: l' ∧
    (∀ x ∈ l, (q'.events x).Lt (q'.events e)) ∧ ∀ x ∈ l', ¬ (q'.events x).Lt (q'.events e)

theorem Placed.list_eq {bins' : Bins n} (h : Placed q q' bins bins' e) :
    toList bins' = insertSorted q' e (toList bins) := by
  obtain ⟨l, l', hl, hl', hlt, hge⟩ := h.split
  rw [hl, hl', insertSorted_eq hlt hge]

theorem place_spec {w : Nat} (hs : Spells q bins) (ho : Ordered q bins) (he : e ∉ toList bins)
    (hsched : ∀ x, x ≠ e → ((q.events x).scheduled = true ↔ x ∈ toList bins))
    (hfuture : ∀ x ∈ toList bins, q.curTick ≤ (q.events x).when) (hw : q.curTick ≤ w)
    (hf : ∀ ev, (f ev).nextBin = ev.nextBin ∧ (f ev).nextInBin = ev.nextInBin ∧ (f ev).when = ev.when ∧
      (f ev).priority = ev.priority ∧ (f ev).scheduled = true) :
    ∃ q2 bins', insert (q.modify e fun ev => { ev with when := w }) e = .ok q2 ∧
      Placed q (q2.modify e f) bins bins' e := by
  have hs1 : Spells (q.modify e fun ev => { ev with when := w }) bins :=
    hs.modify fun hmem => absurd hmem he
  have ho1 : Ordered (q.modify e fun ev => { ev with when := w }) bins :=
    ho.modify fun hmem => absurd hmem he
  obtain ⟨q2, pre, post, hins, rfl, hdata, hpre, hpost, hs2, ho2⟩ := insert_spec hs1 ho1 he
  -- time and priority in the final queue
  have hkeys : ∀ x, ((q2.modify e f).events x).when =
        ((q.modify e fun ev => { ev with when := w }).events x).when ∧
      ((q2.modify e f).events x).priority =
        ((q.modify e fun ev => { ev with when := w }).events x).priority := by
    intro x
    by_cases hx : x = e
    · subst hx
      rw [EventQueue.modify_same, (hf _).2.2.1, (hf _).2.2.2.1]
      exact ⟨hdata.when x, hdata.priority x⟩
    · rw [EventQueue.modify_ne q2 hx]
      exact ⟨hdata.when x, hdata.priority x⟩
  have hlt : ∀ x y, ((q2.modify e f).events x).Lt ((q2.modify e f).events y) ↔
      ((q.modify e fun ev => { ev with when := w }).events x).Lt
        ((q.modify e fun ev => { ev with when := w }).events y) := by
    intro x y
    unfold Event.Lt
    rw [(hkeys x).1, (hkeys x).2, (hkeys y).1, (hkeys y).2]
  have htick : (q2.modify e f).curTick = q.curTick := hdata.curTick
  have hlist : toList (pre ++ pushBin (q.modify e fun ev => { ev with when := w }) e post) =
      toList pre ++ e :: toList post := by rw [toList_append, toList_pushBin]
  have hmem : ∀ x, x ∈ toList pre ++ e :: toList post ↔ x = e ∨ x ∈ toList (pre ++ post) := by
    intro x
    rw [toList_append]
    simp only [List.mem_append, List.mem_cons]
    exact or_left_comm
  have hother : ∀ x, x ≠ e → ((q2.modify e f).events x).when = (q.events x).when ∧
      ((q2.modify e f).events x).priority = (q.events x).priority := by
    intro x hx
    rw [(hkeys x).1, (hkeys x).2, EventQueue.modify_ne q hx]
    exact ⟨rfl, rfl⟩
  refine ⟨q2, _, hins, ⟨⟨hs2.modify fun _ => ⟨(hf _).1, (hf _).2.1⟩,
    ho2.modify fun _ => ⟨(hf _).2.2.1, (hf _).2.2.2.1⟩, fun x => ?_, fun x hx => ?_⟩, htick, hother, ?_⟩⟩
  · rw [hlist, hmem]
    by_cases hx : x = e
    · subst hx
      rw [EventQueue.modify_same, (hf _).2.2.2.2]
      simp
    · rw [EventQueue.modify_ne q2 hx, hdata.scheduled x, EventQueue.modify_ne q hx, hsched x hx]
      simp [hx]
  · rw [hlist, hmem] at hx
    rw [htick]
    by_cases he' : x = e
    · subst he'
      rw [(hkeys x).1, EventQueue.modify_same]
      exact hw
    · rw [(hother x he').1]
      exact hfuture x (hx.resolve_left he')
  · refine ⟨toList pre, toList post, toList_append pre post, hlist, fun x hx => ?_, fun x hx => ?_⟩
    · obtain ⟨b, hb, hxb⟩ := mem_toList.1 hx
      exact (hlt x e).2 ((ho1.key_of_mem (List.mem_append_left _ hb) hxb).lt (hpre b hb))
    · obtain ⟨b, hb, hxb⟩ := mem_toList.1 hx
      exact fun hlt' => hpost b hb
        ((ho1.key_of_mem (List.mem_append_right _ hb) hxb).symm.lt ((hlt x e).1 hlt'))

/-- The order of equal keys when the placed event gets the highest stamp. -/
theorem Placed.lifo {bins' : Bins n} {stamp : Fin n → Nat} {clock : Nat} (h : Placed q q' bins bins' e)
    (stamp' : Fin n → Nat) (he : e ∉ toList bins)
    (hold : (toList bins).Pairwise fun a b => (q.events a).Eq (q.events b) → stamp b < stamp a)
    (hclock : ∀ x ∈ toList bins, stamp x < clock) (hnew : stamp' e = clock)
    (hsame : ∀ x, x ≠ e → stamp' x = stamp x) :
    (toList bins').Pairwise (fun a b => (q'.events a).Eq (q'.events b) → stamp' b < stamp' a) ∧
      ∀ x ∈ toList bins', stamp' x < clock + 1 := by
  obtain ⟨l, l', hl, hl', hlt, -⟩ := h.split
  rw [hl] at hold hclock he
  have hne : ∀ x, x ∈ l ∨ x ∈ l' → x ≠ e := by
    rintro x hx rfl
    exact he (List.mem_append.2 hx)
  have hpair : ∀ a b, a ≠ e → b ≠ e → ((q.events a).Eq (q.events b) → stamp b < stamp a) →
      (q'.events a).Eq (q'.events b) → stamp' b < stamp' a := by
    intro a b ha hb hab hEq
    rw [hsame a ha, hsame b hb]
    refine hab ?_
    unfold Event.Eq at hEq ⊢
    rw [← (h.keys a ha).1, ← (h.keys a ha).2, ← (h.keys b hb).1, ← (h.keys b hb).2]
    exact hEq
  obtain ⟨h1, h2, h3⟩ := List.pairwise_append.1 hold
  rw [hl']
  refine ⟨List.pairwise_append.2 ⟨?_, List.pairwise_cons.2 ⟨fun b hb _ => ?_, ?_⟩, fun a ha b hb => ?_⟩,
    fun x hx => ?_⟩
  · exact h1.imp_of_mem fun {a b} ha hb hab => hpair a b (hne a (Or.inl ha)) (hne b (Or.inl hb)) hab
  · rw [hnew, hsame b (hne b (Or.inr hb))]
    exact hclock b (List.mem_append_right _ hb)
  · exact h2.imp_of_mem fun {a b} ha hb hab => hpair a b (hne a (Or.inr ha)) (hne b (Or.inr hb)) hab
  · rcases List.mem_cons.1 hb with rfl | hb
    · exact fun hEq => absurd hEq (hlt a ha).not_eq
    · exact hpair a b (hne a (Or.inl ha)) (hne b (Or.inr hb)) (h3 a ha b hb)
  · by_cases hxe : x = e
    · rw [hxe, hnew]
      exact Nat.lt_succ_self _
    · rw [hsame x hxe]
      have hx' : x ∈ l ++ l' := by
        rcases List.mem_append.1 hx with hx | hx
        · exact List.mem_append_left _ hx
        · exact List.mem_append_right _ ((List.mem_cons.1 hx).resolve_left hxe)
      exact Nat.lt_succ_of_lt (hclock x hx')

/-! ## One call -/

/-- The outcomes of a call on a queue that is a sorted list. -/
def Outcome (s : Tracked n) (bins : Bins n) (op : Op n) : Prop :=
  s.step op = .error .assertion ∨
  (op = .serviceOne ∧ bins = [] ∧ s.step op = .error .nullPointer) ∨
  ∃ s' bins', s.step op = .ok s' ∧ Sorted s' bins' ∧
    toList bins' = absList s'.q op (toList bins) ∧ s.q.curTick ≤ s'.q.curTick

theorem Tracked.step_ok {op : Op n} (h : Sim.step s.q op = .ok q') :
    s.step op = .ok ⟨q', fun e => if op.scheduled? = some e then s.clock else s.stamp e, s.clock + 1⟩ := by
  unfold Tracked.step
  rw [h]
  rfl

theorem Tracked.step_error {op : Op n} {f : Fault} (h : Sim.step s.q op = .error f) : s.step op = .error f := by
  unfold Tracked.step
  rw [h]
  rfl

/-- Equal keys stay in order when keys and stamps of the remaining events do not change. -/
theorem lifo_sublist {l l' : List (Fin n)} {stamp : Fin n → Nat}
    (h : l.Pairwise fun a b => (q.events a).Eq (q.events b) → stamp b < stamp a) (hsub : l'.Sublist l)
    (hkeys : ∀ x ∈ l', (q'.events x).when = (q.events x).when ∧ (q'.events x).priority = (q.events x).priority) :
    l'.Pairwise fun a b => (q'.events a).Eq (q'.events b) → stamp b < stamp a := by
  refine (h.sublist hsub).imp_of_mem fun {a b} ha hb hab hEq => hab ?_
  unfold Event.Eq at hEq ⊢
  rw [← (hkeys a ha).1, ← (hkeys a ha).2, ← (hkeys b hb).1, ← (hkeys b hb).2]
  exact hEq

theorem Sorted.modify (h : Sorted s bins) {clock : Nat} (hclock : s.clock ≤ clock)
    (hsched : (f (s.q.events e)).scheduled = (s.q.events e).scheduled) (hf : e ∈ toList bins →
      ((f (s.q.events e)).nextBin = (s.q.events e).nextBin ∧
        (f (s.q.events e)).nextInBin = (s.q.events e).nextInBin) ∧ (f (s.q.events e)).when = (s.q.events e).when ∧
        (f (s.q.events e)).priority = (s.q.events e).priority) : Sorted ⟨s.q.modify e f, s.stamp, clock⟩ bins := by
  have hkeys : ∀ x ∈ toList bins, ((s.q.modify e f).events x).when = (s.q.events x).when ∧
      ((s.q.modify e f).events x).priority = (s.q.events x).priority := by
    intro x hx
    by_cases he : x = e
    · subst he
      rw [EventQueue.modify_same]
      exact (hf hx).2
    · rw [EventQueue.modify_ne s.q he]
      exact ⟨rfl, rfl⟩
  refine ⟨⟨h.toSpells.modify fun he => (hf he).1, h.toOrdered.modify fun he => (hf he).2,
    fun x => ?_, fun x hx => ?_⟩, lifo_sublist h.lifo (List.Sublist.refl _) hkeys,
    fun x hx => Nat.lt_of_lt_of_le (h.stamped x hx) hclock⟩
  · rw [← h.scheduled x]
    by_cases he : x = e
    · subst he
      rw [EventQueue.modify_same, hsched]
    · rw [EventQueue.modify_ne s.q he]
  · rw [(hkeys x hx).1]
    exact h.future x hx

theorem construct_outcome (h : Sorted s bins) (e : Fin n) (p : Int) (x : Bool) :
    Outcome s bins (.construct e p x) := by
  by_cases hsched : (s.q.events e).scheduled = false
  · have he : e ∉ toList bins := by
      intro he
      rw [(h.scheduled e).2 he] at hsched
      cases hsched
    have hstep : Sim.step s.q (.construct e p x) =
        .ok (s.q.modify e fun _ => ⟨none, none, 0, p, false, false, x⟩) := if_pos hsched
    exact Or.inr (Or.inr ⟨_, bins, Tracked.step_ok hstep,
      h.modify (Nat.le_succ _) hsched.symm fun hmem => absurd hmem he, rfl, Nat.le_refl _⟩)
  · have hstep : Sim.step s.q (.construct e p x) = .error .assertion := if_neg hsched
    exact Or.inl (Tracked.step_error hstep)

theorem squash_outcome (h : Sorted s bins) (e : Fin n) : Outcome s bins (.squash e) := by
  have hstep : Sim.step s.q (.squash e) = .ok (s.q.modify e fun ev => { ev with squashed := true }) := rfl
  exact Or.inr (Or.inr ⟨_, bins, Tracked.step_ok hstep,
    h.modify (Nat.le_succ _) rfl fun _ => ⟨⟨rfl, rfl⟩, rfl, rfl⟩, rfl, Nat.le_refl _⟩)

theorem schedule_outcome (h : Sorted s bins) (e : Fin n) (w : Nat) : Outcome s bins (.schedule e w) := by
  by_cases hcond : s.q.curTick ≤ w ∧ (s.q.events e).scheduled = false
  · have he : e ∉ toList bins := by
      intro he
      rw [(h.scheduled e).2 he] at hcond
      cases hcond.2
    obtain ⟨q2, bins', hins, hplaced⟩ := place_spec (f := fun ev => { ev with scheduled := true })
      h.toSpells h.toOrdered he (fun x _ => h.scheduled x) h.future hcond.1
      fun _ => ⟨rfl, rfl, rfl, rfl, rfl⟩
    have hstep : Sim.step s.q (.schedule e w) =
        .ok (q2.modify e fun ev => { ev with scheduled := true }) := by
      show Sim.schedule s.q e w = _
      unfold Sim.schedule
      rw [if_pos hcond, hins]
      rfl
    obtain ⟨hlifo, hstamped⟩ := hplaced.lifo
      (fun x => if (Op.schedule e w).scheduled? = some x then s.clock else s.stamp x) he
      h.lifo h.stamped (if_pos rfl) fun x hx => if_neg fun heq => hx (Option.some.inj heq).symm
    exact Or.inr (Or.inr ⟨_, bins', Tracked.step_ok hstep, ⟨hplaced.rep, hlifo, hstamped⟩,
      hplaced.list_eq, Nat.le_of_eq hplaced.curTick.symm⟩)
  · have hstep : Sim.step s.q (.schedule e w) = .error .assertion := if_neg hcond
    exact Or.inl (Tracked.step_error hstep)

theorem deschedule_outcome (h : Sorted s bins) (e : Fin n) : Outcome s bins (.deschedule e) := by
  by_cases hcond : (s.q.events e).scheduled = true
  · obtain ⟨q', bins', hrem, hdata, hs', ho', hlist⟩ :=
      remove_spec h.toSpells h.toOrdered ((h.scheduled e).1 hcond)
    have he : e ∉ toList bins' := by
      rw [hlist]
      exact fun hmem => ((h.nodup.mem_erase_iff).1 hmem).1 rfl
    have hstep : Sim.step s.q (.deschedule e) =
        .ok (q'.modify e fun ev => { ev with squashed := false, scheduled := false }) := by
      show Sim.deschedule s.q e = _
      unfold Sim.deschedule
      rw [if_pos hcond, hrem]
      rfl
    have hsub : (toList bins').Sublist (toList bins) := hlist ▸ List.erase_sublist
    have hkeys : ∀ x ∈ toList bins',
        ((q'.modify e fun ev => { ev with squashed := false, scheduled := false }).events x).when =
          (s.q.events x).when ∧
        ((q'.modify e fun ev => { ev with squashed := false, scheduled := false }).events x).priority =
          (s.q.events x).priority := by
      intro x hx
      have hxe : x ≠ e := by
        rintro rfl
        exact he hx
      rw [EventQueue.modify_ne q' hxe]
      exact ⟨hdata.when x, hdata.priority x⟩
    have hs'' : Spells (q'.modify e fun ev => { ev with squashed := false, scheduled := false }) bins' :=
      hs'.modify fun hmem => absurd hmem he
    have ho'' : Ordered (q'.modify e fun ev => { ev with squashed := false, scheduled := false }) bins' :=
      ho'.modify fun hmem => absurd hmem he
    refine Or.inr (Or.inr ⟨_, bins', Tracked.step_ok hstep, ⟨⟨hs'', ho'', fun x => ?_, fun x hx => ?_⟩,
      lifo_sublist h.lifo hsub hkeys, fun x hx => Nat.lt_succ_of_lt (h.stamped x (hsub.subset hx))⟩,
      hlist, Nat.le_of_eq hdata.curTick.symm⟩)
    · by_cases hx : x = e
      · subst hx
        rw [EventQueue.modify_same]
        exact ⟨fun hfalse => (by cases hfalse), fun hmem => absurd hmem he⟩
      · rw [EventQueue.modify_ne q' hx, hdata.scheduled x, h.scheduled x, hlist, h.nodup.mem_erase_iff]
        exact ⟨fun hmem => ⟨hx, hmem⟩, fun hmem => hmem.2⟩
    · rw [(hkeys x hx).1, EventQueue.modify_curTick, hdata.curTick]
      exact h.future x (hsub.subset hx)
  · have hstep : Sim.step s.q (.deschedule e) = .error .assertion := if_neg hcond
    exact Or.inl (Tracked.step_error hstep)

theorem reschedule_outcome (h : Sorted s bins) (e : Fin n) (w : Nat) (always : Bool) :
    Outcome s bins (.reschedule e w always) := by
  by_cases hcond : s.q.curTick ≤ w ∧ (always = true ∨ (s.q.events e).scheduled = true)
  · -- the queue without the event
    have hout : ∃ q' bins', (if (s.q.events e).scheduled = true then remove s.q e else .ok s.q) = .ok q' ∧
        SameData s.q q' ∧ Spells q' bins' ∧ Ordered q' bins' ∧ toList bins' = (toList bins).erase e := by
      by_cases hsched : (s.q.events e).scheduled = true
      · rw [if_pos hsched]
        exact remove_spec h.toSpells h.toOrdered ((h.scheduled e).1 hsched)
      · have he : e ∉ toList bins := fun hmem => hsched ((h.scheduled e).2 hmem)
        rw [if_neg hsched]
        exact ⟨s.q, bins, rfl, SameData.refl s.q, h.toSpells, h.toOrdered,
          (List.erase_of_not_mem he).symm⟩
    obtain ⟨q', bins', hrem, hdata, hs', ho', hlist⟩ := hout
    have hmem : ∀ x, x ∈ toList bins' ↔ x ≠ e ∧ x ∈ toList bins := by
      intro x
      rw [hlist, h.nodup.mem_erase_iff]
    have he : e ∉ toList bins' := fun hmem' => ((hmem e).1 hmem').1 rfl
    have hsub : (toList bins').Sublist (toList bins) := hlist ▸ List.erase_sublist
    obtain ⟨q2, bins'', hins, hplaced⟩ := place_spec
      (f := fun ev => { ev with squashed := false, scheduled := true }) hs' ho' he
      (fun x hx => by rw [hdata.scheduled x, h.scheduled x, hmem x]; simp [hx])
      (fun x hx => by rw [hdata.curTick, hdata.when x]; exact h.future x (hsub.subset hx))
      (hdata.curTick ▸ hcond.1) fun _ => ⟨rfl, rfl, rfl, rfl, rfl⟩
    have hstep : Sim.step s.q (.reschedule e w always) =
        .ok (q2.modify e fun ev => { ev with squashed := false, scheduled := true }) := by
      show Sim.reschedule s.q e w always = _
      unfold Sim.reschedule
      rw [if_pos hcond, hrem]
      show (insert _ e).bind _ = _
      rw [hins]
      rfl
    obtain ⟨hlifo, hstamped⟩ := hplaced.lifo
      (fun x => if (Op.reschedule e w always).scheduled? = some x then s.clock else s.stamp x) he
      (lifo_sublist h.lifo hsub fun x _ => ⟨hdata.when x, hdata.priority x⟩)
      (fun x hx => h.stamped x (hsub.subset hx)) (if_pos rfl)
      fun x hx => if_neg fun heq => hx (Option.some.inj heq).symm
    refine Or.inr (Or.inr ⟨_, bins'', Tracked.step_ok hstep, ⟨hplaced.rep, hlifo, hstamped⟩, ?_, ?_⟩)
    · rw [hplaced.list_eq, hlist]
      rfl
    · exact Nat.le_of_eq (hplaced.curTick.trans hdata.curTick).symm
  · have hstep : Sim.step s.q (.reschedule e w always) = .error .assertion := if_neg hcond
    exact Or.inl (Tracked.step_error hstep)

variable {c : Fin n}

theorem popHead_none (h : q.nextInBin c = none) :
    popHead q c = (q.modify c fun ev => { ev with scheduled := false }).setHead (q.nextBin c) := by
  unfold popHead
  rw [h]

theorem popHead_some {d : Fin n} (h : q.nextInBin c = some d) :
    popHead q c = ((q.modify c fun ev => { ev with scheduled := false }).modify d fun ev =>
      { ev with nextBin := q.nextBin c }).setHead (some d) := by
  unfold popHead
  rw [h]

/-- The queue and the list after the head has been taken off. -/
structure Popped (q q' : EventQueue n) (bins' : Bins n) (c : Fin n) (rest : List (Fin n)) : Prop where
  spells : Spells q' bins'
  ordered : Ordered q bins'
  list : toList bins' = rest
  curTick : q'.curTick = q.curTick
  head : (q'.events c).scheduled = false
  data : ∀ x, x ≠ c → (q'.events x).data = (q.events x).data

theorem popHead_single {post : Bins n} (hs : Spells q ((c, []) :: post)) (ho : Ordered q ((c, []) :: post)) :
    Popped q (popHead q c) post c (toList post) := by
  have hcpost : c ∉ toList post := (List.nodup_cons.1 ho.nodup).1
  have hne : ∀ x ∈ toList post, x ≠ c := by
    rintro x hx rfl
    exact hcpost hx
  have hsame : ∀ x, x ≠ c → (popHead q c).events x = q.events x := by
    intro x hx
    rw [popHead_none (hs.inBin (c, []) List.mem_cons_self), EventQueue.setHead_events,
      EventQueue.modify_ne q hx]
  have hhead : (popHead q c).head = q.nextBin c := by
    rw [popHead_none (hs.inBin (c, []) List.mem_cons_self)]
    rfl
  obtain ⟨-, hchain⟩ := hs.byBin
  refine ⟨⟨?_, fun b hb => ?_⟩, Ordered.drop [] ho, rfl, ?_, ?_, fun x hx => ?_⟩
  · rw [hhead]
    exact hchain.congr fun x hx =>
      congrArg Event.nextBin (hsame x (hne x ((tops_sublist post).subset hx)))
  · have hin : ∀ x ∈ toList post, (popHead q c).nextInBin x = q.nextInBin x :=
      fun x hx => congrArg Event.nextInBin (hsame x (hne x hx))
    rw [hin b.1 (top_mem hb)]
    exact (hs.inBin b (List.mem_cons_of_mem _ hb)).congr fun x hx => hin x (below_mem hb hx)
  · rw [popHead_none (hs.inBin (c, []) List.mem_cons_self)]
    rfl
  · rw [popHead_none (hs.inBin (c, []) List.mem_cons_self), EventQueue.setHead_events,
      EventQueue.modify_same]
  · rw [hsame x hx]

/-- The event below the head takes its place, as in `removeItem`. -/
theorem popHead_top {d : Fin n} {ds : List (Fin n)} {post : Bins n} (hs : Spells q ((c, d :: ds) :: post))
    (ho : Ordered q ((c, d :: ds) :: post)) :
    Popped q (popHead q c) ([(d, ds)] ++ post) c (d :: ds ++ toList post) := by
  obtain ⟨r, hr, hrem⟩ := removeItem_top [] hs ho
  have hcd : q.nextInBin c = some d := (hs.inBin (c, d :: ds) List.mem_cons_self).1
  have hdc : c ≠ d := by
    rintro rfl
    exact (List.nodup_cons.1 ho.nodup).1 List.mem_cons_self
  unfold removeItem at hr
  rw [if_pos rfl, hcd] at hr
  cases hr
  have hevents : (popHead q c).events = ((q.modify c fun ev => { ev with scheduled := false }).modify d
      fun ev => { ev with nextBin := q.nextBin c }).events := by
    rw [popHead_some hcd, EventQueue.setHead_events]
  have hpointers : ∀ x, ((popHead q c).events x).nextBin =
        ((q.modify d fun ev => { ev with nextBin := q.nextBin c }).events x).nextBin ∧
      ((popHead q c).events x).nextInBin =
        ((q.modify d fun ev => { ev with nextBin := q.nextBin c }).events x).nextInBin := by
    intro x
    rw [hevents]
    by_cases hxd : x = d
    · subst hxd
      rw [EventQueue.modify_same, EventQueue.modify_same, EventQueue.modify_ne _ (Ne.symm hdc)]
      exact ⟨rfl, rfl⟩
    · rw [EventQueue.modify_ne _ hxd, EventQueue.modify_ne _ hxd]
      by_cases hxc : x = c
      · subst hxc
        rw [EventQueue.modify_same]
        exact ⟨rfl, rfl⟩
      · rw [EventQueue.modify_ne _ hxc]
        exact ⟨rfl, rfl⟩
  refine ⟨hrem.spells.congr ?_ (fun x _ => (hpointers x).1) (fun x _ => (hpointers x).2), hrem.ordered,
    ?_, ?_, ?_, fun x hx => ?_⟩
  · rw [popHead_some hcd]
    rfl
  · rw [toList_append, hrem.mid, List.erase_cons_head]
  · rw [popHead_some hcd]
    rfl
  · rw [hevents, EventQueue.modify_ne _ hdc, EventQueue.modify_same]
  · rw [hevents]
    by_cases hxd : x = d
    · subst hxd
      rw [EventQueue.modify_same, EventQueue.modify_ne _ hx]
      rfl
    · rw [EventQueue.modify_ne _ hxd, EventQueue.modify_ne _ hx]

theorem popHead_spec {cs : List (Fin n)} {post : Bins n} (hs : Spells q ((c, cs) :: post))
    (ho : Ordered q ((c, cs) :: post)) : ∃ bins', Popped q (popHead q c) bins' c (cs ++ toList post) := by
  cases cs with
  | nil => exact ⟨_, popHead_single hs ho⟩
  | cons d ds => exact ⟨_, popHead_top hs ho⟩

theorem first_le {cs : List (Fin n)} {post : Bins n} (ho : Ordered q ((c, cs) :: post)) {x : Fin n}
    (hx : x ∈ cs ++ toList post) : (q.events c).when ≤ (q.events x).when := by
  rcases List.mem_append.1 hx with hx | hx
  · exact Nat.le_of_eq (ho.sameKey (c, cs) List.mem_cons_self x hx).1.symm
  · obtain ⟨b, hb, hxb⟩ := mem_toList.1 hx
    have hlt : (q.events c).Lt (q.events b.1) := (List.pairwise_cons.1 ho.increasing).1 b hb
    have hEq := ho.key_of_mem (List.mem_cons_of_mem _ hb) hxb
    unfold Event.Lt at hlt
    unfold Event.Eq at hEq
    omega

theorem step_serviceOne (hhead : q.head = some c) : Sim.step q .serviceOne =
      .ok (if (q.events c).squashed = false then { popHead q c with curTick := (q.events c).when }
        else (popHead q c).modify c fun ev => { ev with squashed := false }) := by
  show (Sim.serviceOne q).map _ = _
  unfold Sim.serviceOne
  rw [hhead]
  dsimp only
  split
  · rfl
  · rfl

theorem serviceOne_outcome (h : Sorted s bins) : Outcome s bins .serviceOne := by
  have hhead := h.toSpells.head_eq
  cases bins with
  | nil =>
    have hstep : Sim.step s.q .serviceOne = .error .nullPointer := by
      show (Sim.serviceOne s.q).map _ = _
      unfold Sim.serviceOne
      rw [hhead]
      rfl
    exact Or.inr (Or.inl ⟨rfl, rfl, Tracked.step_error hstep⟩)
  | cons b post =>
    obtain ⟨c, cs⟩ := b
    have hhead : s.q.head = some c := hhead
    obtain ⟨bins', hs2, ho2, hlist, htick, hsched, hdata⟩ := popHead_spec h.toSpells h.toOrdered
    have hnd : (c :: (cs ++ toList post)).Nodup := h.nodup
    obtain ⟨hc, hnd⟩ := List.nodup_cons.1 hnd
    have hne : ∀ x ∈ toList bins', x ≠ c := by
      rintro x hx rfl
      exact hc (hlist ▸ hx)
    have hsub : (toList bins').Sublist (toList ((c, cs) :: post)) :=
      hlist ▸ List.sublist_cons_self c (cs ++ toList post)
    have hkeys : ∀ x ∈ toList bins', ((popHead s.q c).events x).when = (s.q.events x).when ∧
        ((popHead s.q c).events x).priority = (s.q.events x).priority :=
      fun x hx => ⟨congrArg Prod.fst (hdata x (hne x hx)), congrArg (·.2.1) (hdata x (hne x hx))⟩
    have hmem : ∀ x, ((popHead s.q c).events x).scheduled = true ↔ x ∈ toList bins' := by
      intro x
      by_cases hx : x = c
      · subst hx
        rw [hsched]
        exact ⟨fun hfalse => (by cases hfalse), fun hx => absurd rfl (hne x hx)⟩
      · rw [show ((popHead s.q c).events x).scheduled = (s.q.events x).scheduled from
          congrArg (·.2.2.1) (hdata x hx), h.scheduled x, hlist, toList_cons, List.cons_append,
          List.mem_cons]
        simp [hx]
    have hnow : s.q.curTick ≤ (s.q.events c).when := h.future c (top_mem List.mem_cons_self)
    have hstep := step_serviceOne hhead
    by_cases hsq : (s.q.events c).squashed = false
    · rw [if_pos hsq] at hstep
      refine Or.inr (Or.inr ⟨_, bins', Tracked.step_ok hstep, ⟨⟨hs2.congr rfl (fun _ _ => rfl)
        fun _ _ => rfl, ho2.congr hkeys, hmem, fun x hx => ?_⟩, lifo_sublist h.lifo hsub hkeys,
        fun x hx => Nat.lt_succ_of_lt (h.stamped x (hsub.subset hx))⟩, hlist, hnow⟩)
      show (s.q.events c).when ≤ ((popHead s.q c).events x).when
      rw [(hkeys x hx).1]
      exact first_le h.toOrdered (hlist ▸ hx)
    · rw [if_neg hsq] at hstep
      have hrep : Rep (popHead s.q c) bins' := ⟨hs2, ho2.congr hkeys, hmem, fun x hx => by
        rw [htick, (hkeys x hx).1]
        exact h.future x (hsub.subset hx)⟩
      have hsorted : Sorted ⟨popHead s.q c, s.stamp, s.clock⟩ bins' := ⟨hrep, lifo_sublist h.lifo hsub hkeys,
        fun x hx => h.stamped x (hsub.subset hx)⟩
      exact Or.inr (Or.inr ⟨_, bins', Tracked.step_ok hstep,
        hsorted.modify (Nat.le_succ _) rfl fun _ => ⟨⟨rfl, rfl⟩, rfl, rfl⟩, hlist,
        Nat.le_of_eq htick.symm⟩)

theorem step_spec (h : Sorted s bins) (op : Op n) : Outcome s bins op := by
  cases op with
  | construct e p x => exact construct_outcome h e p x
  | squash e => exact squash_outcome h e
  | schedule e w => exact schedule_outcome h e w
  | deschedule e => exact deschedule_outcome h e
  | reschedule e w always => exact reschedule_outcome h e w always
  | serviceOne => exact serviceOne_outcome h

/-! ## Runs -/

/-- The calls of a run that return. -/
def Tracked.next (s : Tracked n) (op : Op n) : Option (Tracked n) := (s.step op).toOption

theorem reachable_sorted {s₀ : Tracked n} (h₀ : s₀.Initial)
    (h : Run.Reaches Tracked.next (fun _ _ => True) s₀ s) : ∃ bins, Sorted s bins := by
  refine h.inv (P := fun s => ∃ bins, Sorted s bins) ⟨[], Sorted.initial h₀⟩ ?_
  rintro t op t' ⟨bins, ht⟩ - hnext
  have hstep := toOption_eq_some.1 hnext
  rcases step_spec ht op with herr | ⟨-, -, herr⟩ | ⟨s', bins', hok, hs', -, -⟩
  · rw [herr] at hstep; cases hstep
  · rw [herr] at hstep; cases hstep
  · rw [hok] at hstep
    cases hstep
    exact ⟨bins', hs'⟩

/-- **The queue refines a sorted list.**  In every reachable state the pointers spell bins that hold
exactly the scheduled events, once each, with increasing keys and the last scheduled first among equal
keys; a call that returns does to that list what `absList` says and does not move time back; a call
that does not return has failed its own assertion or serviced the empty queue. -/
theorem queue_refines_sorted_list {s₀ s : Tracked n} (h₀ : s₀.Initial)
    (h : Run.Reaches Tracked.next (fun _ _ => True) s₀ s) : ∃ bins, Spells s.q bins ∧ Ordered s.q bins ∧
      (∀ e, (s.q.events e).scheduled = true ↔ e ∈ toList bins) ∧
      ((toList bins).Pairwise fun a b => (s.q.events a).Eq (s.q.events b) → s.stamp b < s.stamp a) ∧
      ∀ op,
        (∀ s', s.step op = .ok s' → s.q.curTick ≤ s'.q.curTick ∧
          ∃ bins', Spells s'.q bins' ∧ toList bins' = absList s'.q op (toList bins)) ∧
        ∀ f, s.step op = .error f →
          f = .assertion ∨ f = .nullPointer ∧ op = .serviceOne ∧ toList bins = [] := by
  obtain ⟨bins, hs⟩ := reachable_sorted h₀ h
  refine ⟨bins, hs.toSpells, hs.toOrdered, hs.scheduled, hs.lifo, fun op => ?_⟩
  rcases step_spec hs op with herr | ⟨hop, hnil, herr⟩ | ⟨s', bins', hok, hs', hlist, htick⟩
  · rw [herr]
    exact ⟨fun _ hok => (by cases hok), fun f hf => Or.inl (by cases hf; rfl)⟩
  · rw [herr]
    refine ⟨fun _ hok => (by cases hok), fun f hf => Or.inr ?_⟩
    cases hf
    exact ⟨rfl, hop, by rw [hnil]; rfl⟩
  · rw [hok]
    refine ⟨fun s'' hs'' => ?_, fun f hf => (by cases hf)⟩
    cases hs''
    exact ⟨htick, bins', hs'.toSpells, hlist⟩

/-- A new queue with two event objects whose pointers are not null. -/
def twoEvents : Tracked 2 where
  q := { events := fun _ => ⟨some ⟨0, Nat.two_pos⟩, some ⟨1, Nat.one_lt_two⟩, 0, 0, false, false, false⟩
         head := none
         curTick := 3 }
  stamp := fun _ => 0
  clock := 0

/-- Both events scheduled for tick 5. -/
theorem queue_refines_two_events : ∃ s : Tracked 2,
    ((twoEvents.next (.schedule 0 5)).bind fun s => s.next (.schedule 1 5)) = some s ∧
      ∃ bins, Spells s.q bins ∧ Ordered s.q bins ∧
        ∀ e, (s.q.events e).scheduled = true ↔ e ∈ toList bins := by
  have h1 : ∃ s1, twoEvents.next (.schedule 0 5) = some s1 := ⟨_, rfl⟩
  obtain ⟨s1, h1⟩ := h1
  have h2 : ∃ s2, ((twoEvents.next (.schedule 0 5)).bind fun s => s.next (.schedule 1 5)) = some s2 :=
    ⟨_, rfl⟩
  obtain ⟨s2, h2⟩ := h2
  have h3 : s1.next (.schedule 1 5) = some s2 := by
    rw [h1] at h2
    exact h2
  have hreach : Run.Reaches Tracked.next (fun _ _ => True) twoEvents s2 :=
    .step (.step .refl trivial h1) trivial h3
  obtain ⟨bins, hs, ho, hsched, -⟩ := queue_refines_sorted_list ⟨rfl, fun _ => rfl⟩ hreach
  exact ⟨s2, h2, bins, hs, ho, hsched⟩

end Alpine.Sim
