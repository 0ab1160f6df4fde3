import Alpine.Sim.EventRun

/-!
# Events in a checkpoint (`sim/eventq.cc`, `sim/eventq.hh`, `base/flags.hh`)

The flags of an event are written to a checkpoint and read back.  `unserialize` clears `Scheduled` for an
event that was scheduled and not squashed, and `checkpointReschedule` inserts the events that have it.

* `serialize`, `unserialize`, `checkpointReschedule` as in the source, on a queue with the flag words of its
  events.
* `restore_spec` — the events that end up in the queue are those that were scheduled and squashed.
* `RoundTrip` — the events that were scheduled and not squashed are in the queue, at their ticks, and the
  others can be scheduled again.
* `restore_roundTrip_iff` — a set of events survives if and only if none of them was scheduled.
-/

namespace Alpine.Sim

variable {n : Nat}

/-! ## Flags -/

/-- `unsigned short`. -/
abbrev FlagsType := BitVec 16

namespace EventBase

def PublicWrite : FlagsType := 0x001d
def Squashed : FlagsType := 0x0001
def Scheduled : FlagsType := 0x0002
def IsExitEvent : FlagsType := 0x0010
def Initialized : FlagsType := 0x7a40
def InitMask : FlagsType := 0xffc0

def isSet (flags mask : FlagsType) : Bool := flags &&& mask ≠ 0
def clear (flags mask : FlagsType) : FlagsType := flags &&& ~~~mask
def set (flags mask : FlagsType) : FlagsType := flags ||| mask
def noneSet (flags mask : FlagsType) : Bool := flags &&& mask = 0

def initialized (flags : FlagsType) : Bool := flags &&& InitMask = Initialized

end EventBase

open EventBase

/-- What is written of an event; the flags as a `short`. -/
structure Checkpoint where
  _when : Nat
  _priority : Int
  _flags : Int

/-- The members of an event that are written. -/
structure EventState where
  _when : Nat
  _priority : Int
  flags : FlagsType

def EventState.serialize (ev : EventState) : Checkpoint := ⟨ev._when, ev._priority, ev.flags.toInt⟩

def EventState.scheduled (ev : EventState) : Bool := isSet ev.flags Scheduled
def EventState.squashed (ev : EventState) : Bool := isSet ev.flags Squashed

/-- Reading an `unsigned short`: `stoull` makes a large number of a negative one. -/
def to_number (value : Int) : Option FlagsType :=
  if 0 ≤ value ∧ value < 2 ^ 16 then some (BitVec.ofInt 16 value) else none

/-- How the restoring of an event can fail. -/
inductive RestoreFault where
  | assertion
  | fatal (msg : String)
  | queue (f : Fault)

/-- A queue, and the flag words of its events. -/
structure FlaggedQueue (n : Nat) where
  q : EventQueue n
  flags : Fin n → FlagsType

/-- The members of an event object are given new values. -/
def FlaggedQueue.assign (s : FlaggedQueue n) (event : Fin n) (ev : EventState) : FlaggedQueue n where
  q := s.q.modify event fun e =>
    { e with
      when := ev._when
      priority := ev._priority
      scheduled := isSet ev.flags Scheduled
      squashed := isSet ev.flags Squashed
      isExitEvent := isSet ev.flags IsExitEvent }
  flags := Function.update s.flags event ev.flags

/-- The flags of an event that reads them from a checkpoint. -/
def unserializeFlags (_flags : FlagsType) : FlagsType :=
  let flags := set _flags Initialized
  if isSet flags Scheduled && !isSet flags Squashed then clear flags (Squashed ||| Scheduled) else flags

/-- `Event::unserialize`. -/
def unserialize (s : FlaggedQueue n) (event : Fin n) (cp : Checkpoint) : Except RestoreFault (FlaggedQueue n) :=
  if isSet (s.flags event) Scheduled then .error .assertion
  else
    match to_number cp._flags with
    | none => .error (.fatal "Can't unserialize '%s:%s'\n")
    | some _flags =>
      if initialized (s.flags event) then
        .ok (s.assign event ⟨cp._when, cp._priority, unserializeFlags _flags⟩)
      else .error .assertion

/-- `EventQueue::checkpointReschedule`. -/
def checkpointReschedule (s : FlaggedQueue n) (event : Fin n) : Except RestoreFault (FlaggedQueue n) :=
  if isSet (s.flags event) Scheduled then
    match insert s.q event with
    | .error f => .error (.queue f)
    | .ok q => .ok { s with q := q }
  else .ok s

/-- `UNSERIALIZE_EVENT`. -/
def restoreEvent (saved : Fin n → EventState) (s : FlaggedQueue n) (event : Fin n) :
    Except RestoreFault (FlaggedQueue n) := do
  let s ← unserialize s event (saved event).serialize
  checkpointReschedule s event

/-- New event objects and an empty queue.  The constructor gives an object the flag `Initialized` and those of
its kind. -/
structure Fresh (s : FlaggedQueue n) : Prop where
  head : s.q.head = none
  flags : ∀ e, ∃ f, noneSet f (~~~PublicWrite) = true ∧ s.flags e = set Initialized f
  scheduled : ∀ e, (s.q.events e).scheduled = isSet (s.flags e) Scheduled

/-! ## What happens to the flags -/

theorem initialized_of_constructed {f : FlagsType} (hf : noneSet f (~~~PublicWrite) = true) :
    initialized (set Initialized f) = true ∧ isSet (set Initialized f) Scheduled = false := by
  have hnone : f &&& ~~~PublicWrite = 0 := of_decide_eq_true hf
  have hwrite : f = f &&& PublicWrite := by
    have hsplit : f &&& (PublicWrite ||| ~~~PublicWrite) = f := by
      rw [show PublicWrite ||| ~~~PublicWrite = BitVec.allOnes 16 by decide, BitVec.and_allOnes]
    rw [BitVec.and_or_distrib_left, hnone] at hsplit
    simpa using hsplit.symm
  constructor
  · unfold initialized EventBase.set
    rw [decide_eq_true_eq, BitVec.and_or_distrib_right, hwrite, BitVec.and_assoc,
      show PublicWrite &&& InitMask = 0#16 by decide]
    rw [BitVec.and_zero]
    decide
  · unfold isSet EventBase.set
    rw [decide_eq_false_iff_not, not_not, BitVec.and_or_distrib_right, hwrite, BitVec.and_assoc,
      show PublicWrite &&& Scheduled = 0#16 by decide]
    rw [BitVec.and_zero]
    decide

/-- The flags of an event are read back as they were written. -/
theorem to_number_toInt {flags : FlagsType} (h : initialized flags = true) : to_number flags.toInt = some flags := by
  have hmask : flags &&& InitMask = Initialized := of_decide_eq_true h
  have hmsb : flags.msb = false := by
    have hbit := congrArg BitVec.msb hmask
    rw [BitVec.msb_and, show InitMask.msb = true by decide, Bool.and_true] at hbit
    exact hbit
  have hlt := flags.isLt
  unfold to_number
  rw [BitVec.toInt_eq_toNat_of_msb hmsb, if_pos ⟨Int.natCast_nonneg _, by omega⟩, BitVec.ofInt_natCast,
    BitVec.ofNat_toNat, BitVec.setWidth_eq]

theorem isSet_set {flags : FlagsType} (mask : FlagsType) (h : Initialized &&& mask = 0#16) :
    isSet (set flags Initialized) mask = isSet flags mask := by
  unfold isSet EventBase.set
  rw [BitVec.and_or_distrib_right, h, BitVec.or_zero]

/-- An event that was scheduled and squashed is the only one that reads `Scheduled`. -/
theorem unserializeFlags_scheduled (flags : FlagsType) :
    isSet (unserializeFlags flags) Scheduled = (isSet flags Scheduled && isSet flags Squashed) := by
  unfold unserializeFlags
  dsimp only
  rw [isSet_set Scheduled (by decide), isSet_set Squashed (by decide)]
  cases hsched : isSet flags Scheduled with
  | false =>
    rw [Bool.false_and, if_neg Bool.false_ne_true, isSet_set Scheduled (by decide), hsched]
    rfl
  | true =>
    cases isSet flags Squashed with
    | false =>
      rw [Bool.not_false, Bool.and_true, if_pos rfl]
      unfold isSet clear
      rw [BitVec.and_assoc, show ~~~(Squashed ||| Scheduled) &&& Scheduled = 0#16 by decide]
      simp
    | true =>
      rw [Bool.not_true, Bool.and_false, if_neg Bool.false_ne_true, isSet_set Scheduled (by decide), hsched]
      rfl

theorem unserializeFlags_initialized {flags : FlagsType} (h : initialized flags = true) :
    initialized (unserializeFlags flags) = true := by
  have hmask : flags &&& InitMask = Initialized := of_decide_eq_true h
  have hset : set flags Initialized &&& InitMask = Initialized := by
    unfold EventBase.set
    rw [BitVec.and_or_distrib_right, hmask]
    decide
  unfold unserializeFlags initialized
  rw [decide_eq_true_eq]
  dsimp only
  split
  · unfold clear
    rw [BitVec.and_assoc, show ~~~(Squashed ||| Scheduled) &&& InitMask = InitMask by decide, hset]
  · exact hset

/-! ## Restoring -/

/-- The members of an event that has read them. -/
def EventState.readBack (ev : EventState) : EventState := ⟨ev._when, ev._priority, unserializeFlags ev.flags⟩

/-- An event that is put back into the queue. -/
def EventState.putBack (ev : EventState) : Prop := ev.scheduled = true ∧ ev.squashed = true

instance (ev : EventState) : Decidable ev.putBack := inferInstanceAs (Decidable (_ ∧ _))

/-- The queue after the events of a list have been restored. -/
structure Restored (saved : Fin n → EventState) (s : FlaggedQueue n) (done : List (Fin n)) (bins : Bins n) :
    Prop extends Spells s.q bins, Ordered s.q bins where
  mem : ∀ e, e ∈ toList bins ↔ e ∈ done ∧ (saved e).putBack
  keys : ∀ e ∈ done, (s.q.events e).when = (saved e)._when ∧ (s.q.events e).priority = (saved e)._priority
  scheduled : ∀ e, (s.q.events e).scheduled = isSet (s.flags e) Scheduled
  flags : ∀ e ∈ done, s.flags e = unserializeFlags (saved e).flags
  fresh : ∀ e, initialized (s.flags e) = true ∧ (e ∉ done → isSet (s.flags e) Scheduled = false)

variable {s : FlaggedQueue n}

theorem Fresh.restored (h : Fresh s) (saved : Fin n → EventState) : Restored saved s [] [] where
  byBin := h.head
  inBin := fun _ hb => absurd hb List.not_mem_nil
  nodup := List.nodup_nil
  sameKey := fun _ hb => absurd hb List.not_mem_nil
  increasing := .nil
  mem := fun e => ⟨fun he => absurd he List.not_mem_nil, fun he => absurd he.1 List.not_mem_nil⟩
  keys := fun _ he => absurd he List.not_mem_nil
  scheduled := h.scheduled
  flags := fun _ he => absurd he List.not_mem_nil
  fresh := fun e => by
    obtain ⟨f, hf, hflags⟩ := h.flags e
    obtain ⟨hinit, hsched⟩ := initialized_of_constructed hf
    rw [hflags]
    exact ⟨hinit, fun _ => hsched⟩

theorem assign_same (s : FlaggedQueue n) (event : Fin n) (ev : EventState) :
    ((s.assign event ev).q.events event).when = ev._when ∧
      ((s.assign event ev).q.events event).priority = ev._priority ∧
      ((s.assign event ev).q.events event).scheduled = isSet ev.flags Scheduled ∧
      (s.assign event ev).flags event = ev.flags := by
  unfold FlaggedQueue.assign
  dsimp only
  rw [EventQueue.modify_same, Function.update_self]
  exact ⟨rfl, rfl, rfl, rfl⟩

theorem assign_ne (s : FlaggedQueue n) {event x : Fin n} (h : x ≠ event) (ev : EventState) :
    (s.assign event ev).q.events x = s.q.events x ∧ (s.assign event ev).flags x = s.flags x := by
  unfold FlaggedQueue.assign
  dsimp only
  rw [EventQueue.modify_ne s.q h, Function.update_of_ne h]
  exact ⟨rfl, rfl⟩

variable {saved : Fin n → EventState}

/-- The event after it has read its members, before it is put back. -/
theorem Restored.unserialize {done : List (Fin n)} {bins : Bins n} (h : Restored saved s done bins)
    {event : Fin n} (hnew : event ∉ done) (hinit : initialized (saved event).flags = true) :
    Sim.unserialize s event (saved event).serialize = .ok (s.assign event (saved event).readBack) := by
  obtain ⟨hi, hsched⟩ := h.fresh event
  unfold Sim.unserialize
  rw [hsched hnew, if_neg Bool.false_ne_true]
  show (match to_number (saved event).flags.toInt with
    | none => Except.error (RestoreFault.fatal "Can't unserialize '%s:%s'\n")
    | some _flags =>
      if initialized (s.flags event) then
        .ok (s.assign event ⟨(saved event)._when, (saved event)._priority, unserializeFlags _flags⟩)
      else .error .assertion) = _
  rw [to_number_toInt hinit]
  exact if_pos hi

/-- **What one event does to the queue**: it is inserted if it was scheduled and squashed. -/
theorem restoreEvent_spec {done : List (Fin n)} {bins : Bins n} (h : Restored saved s done bins)
    {event : Fin n} (hnew : event ∉ done) (hinit : initialized (saved event).flags = true) :
    ∃ s' bins', restoreEvent saved s event = .ok s' ∧ Restored saved s' (event :: done) bins' ∧
      s'.q.curTick = s.q.curTick := by
  obtain ⟨hwhen, hpriority, hscheduled, hflags⟩ := assign_same s event (saved event).readBack
  have hne : ∀ x, x ≠ event → _ := fun x hx => assign_ne s hx (saved event).readBack
  have hspells : Spells (s.assign event (saved event).readBack).q bins := by
    unfold FlaggedQueue.assign
    dsimp only
    exact h.toSpells.modify fun _ => ⟨rfl, rfl⟩
  have hstep : restoreEvent saved s event =
      checkpointReschedule (s.assign event (saved event).readBack) event := by
    unfold restoreEvent
    rw [h.unserialize hnew hinit]
    rfl
  have htick : (s.assign event (saved event).readBack).q.curTick = s.q.curTick := rfl
  revert hwhen hpriority hscheduled hflags hne hspells hstep htick
  generalize s.assign event (saved event).readBack = t
  intro hwhen hpriority hscheduled hflags hne hspells hstep htick
  have hout : event ∉ toList bins := fun hin => hnew ((h.mem event).1 hin).1
  have hordered : Ordered t.q bins := h.toOrdered.congr fun x hx => by
    rw [(hne x (fun heq => hout (heq ▸ hx))).1]
    exact ⟨rfl, rfl⟩
  have hkeys : ∀ e ∈ event :: done, (t.q.events e).when = (saved e)._when ∧
      (t.q.events e).priority = (saved e)._priority := by
    intro e he
    by_cases heq : e = event
    · subst heq
      exact ⟨hwhen, hpriority⟩
    · rw [(hne e heq).1]
      exact h.keys e (List.mem_of_ne_of_mem heq he)
  have hsched : ∀ e, (t.q.events e).scheduled = isSet (t.flags e) Scheduled := by
    intro e
    by_cases heq : e = event
    · subst heq
      rw [hscheduled, hflags]
    · rw [(hne e heq).1, (hne e heq).2]
      exact h.scheduled e
  have hread : ∀ e ∈ event :: done, t.flags e = unserializeFlags (saved e).flags := by
    intro e he
    by_cases heq : e = event
    · subst heq
      exact hflags
    · rw [(hne e heq).2]
      exact h.flags e (List.mem_of_ne_of_mem heq he)
  have hfresh : ∀ e, initialized (t.flags e) = true ∧
      (e ∉ event :: done → isSet (t.flags e) Scheduled = false) := by
    intro e
    by_cases heq : e = event
    · subst heq
      rw [hflags]
      exact ⟨unserializeFlags_initialized hinit, fun hnot => absurd List.mem_cons_self hnot⟩
    · rw [(hne e heq).2]
      exact ⟨(h.fresh e).1, fun hnot => (h.fresh e).2 fun hin => hnot (List.mem_cons_of_mem _ hin)⟩
  have hmem : ∀ e, e ∈ event :: done ∧ (saved e).putBack ↔
      (e = event ∧ (saved event).putBack) ∨ e ∈ toList bins := by
    intro e
    rw [h.mem e, List.mem_cons, or_and_right]
    refine or_congr_left (and_congr_right ?_)
    rintro rfl
    rfl
  rw [hstep]
  unfold checkpointReschedule
  have hput : isSet (t.flags event) Scheduled = true ↔ (saved event).putBack := by
    rw [hflags]
    show isSet (unserializeFlags (saved event).flags) Scheduled = true ↔ _
    rw [unserializeFlags_scheduled, Bool.and_eq_true]
    rfl
  by_cases hback : (saved event).putBack
  · obtain ⟨q', pre, post, hins, rfl, hdata, -, -, hspells', hordered'⟩ := insert_spec hspells hordered hout
    rw [if_pos (hput.2 hback), hins]
    refine ⟨_, _, rfl, ⟨hspells', hordered', fun e => ?_, fun e he => ?_, fun e => ?_, hread, hfresh⟩, ?_⟩
    · rw [hmem, toList_append, toList_pushBin, toList_append, List.mem_append, List.mem_cons, List.mem_append]
      constructor
      · rintro (hin | rfl | hin)
        · exact .inr (.inl hin)
        · exact .inl ⟨rfl, hback⟩
        · exact .inr (.inr hin)
      · rintro (⟨rfl, -⟩ | hin | hin)
        · exact .inr (.inl rfl)
        · exact .inl hin
        · exact .inr (.inr hin)
    · exact ⟨(hdata.when e).trans (hkeys e he).1, (hdata.priority e).trans (hkeys e he).2⟩
    · exact (hdata.scheduled e).trans (hsched e)
    · exact hdata.curTick.trans htick
  · rw [if_neg fun hset => hback (hput.1 hset)]
    refine ⟨_, bins, rfl, ⟨hspells, hordered, fun e => ?_, hkeys, hsched, hread, hfresh⟩, htick⟩
    rw [hmem]
    exact ⟨.inr, fun h => h.resolve_left fun ⟨_, hb⟩ => hback hb⟩

/-- **What the restoring of events makes of the queue.** -/
theorem restore_spec (hinit : ∀ e, initialized (saved e).flags = true) :
    ∀ (events : List (Fin n)) {done : List (Fin n)} {s : FlaggedQueue n} {bins : Bins n}, Restored saved s done bins →
      (events.reverse ++ done).Nodup → ∃ s' bins', events.foldlM (restoreEvent saved) s = .ok s' ∧
        Restored saved s' (events.reverse ++ done) bins' ∧ s'.q.curTick = s.q.curTick
  | [], done, s, bins, h, _ => ⟨s, bins, rfl, h, rfl⟩
  | event :: events, done, s, bins, h, hnodup => by
    rw [List.reverse_cons, List.append_assoc, List.singleton_append] at hnodup
    have hnew : event ∉ done := (List.nodup_cons.1 (List.nodup_append.1 hnodup).2.1).1
    obtain ⟨s1, bins1, hstep, h1, htick⟩ := restoreEvent_spec h hnew (hinit event)
    obtain ⟨s', bins', hrest, h', htick'⟩ := restore_spec hinit events h1 hnodup
    refine ⟨s', bins', ?_, ?_, htick'.trans htick⟩
    · rw [List.foldlM_cons, hstep]
      exact hrest
    · rw [List.reverse_cons, List.append_assoc, List.singleton_append]
      exact h'

/-! ## The round trip -/

/-- The queue is well formed, the events that were scheduled and not squashed are in it at their ticks and
priorities, and the others are not scheduled and can be scheduled again. -/
def RoundTrip (saved : Fin n → EventState) (s : FlaggedQueue n) : Prop :=
  ∃ bins, Spells s.q bins ∧ Ordered s.q bins ∧
    (∀ e, e ∈ toList bins ↔ (saved e).scheduled = true ∧ (saved e).squashed = false) ∧
    (∀ e ∈ toList bins, (s.q.events e).when = (saved e)._when ∧
      (s.q.events e).priority = (saved e)._priority) ∧
    ∀ e, e ∉ toList bins → (s.q.events e).scheduled = false ∧ initialized (s.flags e) = true ∧
      ∀ when, s.q.curTick ≤ when → ∃ q, schedule s.q e when = .ok q

theorem Restored.roundTrip_iff {done : List (Fin n)} {bins : Bins n} (h : Restored saved s done bins)
    (hdone : ∀ e, e ∈ done) : RoundTrip saved s ↔ ∀ e, (saved e).scheduled = false := by
  refine ⟨fun htrip e => ?_, fun hnone => ?_⟩
  · obtain ⟨bins', hspells, -, hmem, -⟩ := htrip
    obtain rfl := h.toSpells.unique hspells
    -- the event would have to be squashed and not squashed
    cases hsched : (saved e).scheduled with
    | false => rfl
    | true =>
      cases hsquash : (saved e).squashed with
      | false =>
        have hback := ((h.mem e).1 ((hmem e).2 ⟨hsched, hsquash⟩)).2.2
        rw [hsquash] at hback
        cases hback
      | true =>
        have hnot := ((hmem e).1 ((h.mem e).2 ⟨hdone e, hsched, hsquash⟩)).2
        rw [hsquash] at hnot
        cases hnot
  · have hempty : ∀ e, e ∉ toList bins := by
      intro e he
      have hsched := ((h.mem e).1 he).2.1
      rw [hnone e] at hsched
      cases hsched
    have hidle : ∀ e, (s.q.events e).scheduled = false := by
      intro e
      rw [h.scheduled, h.flags e (hdone e), unserializeFlags_scheduled]
      show ((saved e).scheduled && _) = false
      rw [hnone e, Bool.false_and]
    refine ⟨bins, h.toSpells, h.toOrdered, fun e => ?_, fun e he => absurd he (hempty e), fun e he => ?_⟩
    · rw [hnone e]
      exact iff_of_false (hempty e) fun hsched => Bool.false_ne_true hsched.1
    · refine ⟨hidle e, (h.fresh e).1, fun when hwhen => ?_⟩
      obtain ⟨q', -, hins, -⟩ := place_spec (f := fun ev => { ev with scheduled := true }) h.toSpells
        h.toOrdered he (fun x _ => iff_of_false (by rw [hidle x]; decide) (hempty x))
        (fun x hx => absurd hx (hempty x)) hwhen fun _ => ⟨rfl, rfl, rfl, rfl, rfl⟩
      unfold schedule
      rw [if_pos ⟨hwhen, hidle e⟩, hins]
      exact ⟨_, rfl⟩

/-- **When events survive a checkpoint.**  For every set of events with any flags, restored in any order into
new objects of their kinds, the restoring returns, and the events that were scheduled and not squashed are in
the queue and the others out of it if and only if no event was scheduled. -/
theorem restore_roundTrip_iff {saved : Fin n → EventState}
    (hinit : ∀ e, initialized (saved e).flags = true) {s : FlaggedQueue n} (hs : Fresh s)
    (events : List (Fin n)) (hnodup : events.Nodup) (hall : ∀ e, e ∈ events) :
    ∃ s', events.foldlM (restoreEvent saved) s = .ok s' ∧
      (RoundTrip saved s' ↔ ∀ e, (saved e).scheduled = false) := by
  obtain ⟨s', bins, hrun, h, -⟩ := restore_spec hinit events (hs.restored saved)
    (by rw [List.append_nil]; exact List.nodup_reverse.2 hnodup)
  rw [List.append_nil] at h
  exact ⟨s', hrun, h.roundTrip_iff fun e => List.mem_reverse.2 (hall e)⟩

/-- New objects, all of the same kind, and an empty queue. -/
def newObjects (n : Nat) (f : FlagsType) : FlaggedQueue n where
  q := { events := fun _ => ⟨none, none, 0, 0, false, false, isSet f IsExitEvent⟩
         head := none
         curTick := 0 }
  flags := fun _ => EventBase.set Initialized f

theorem newObjects_fresh (n : Nat) : Fresh (newObjects n 0) where
  head := rfl
  flags := fun _ => ⟨0, by decide, rfl⟩
  scheduled := fun _ => by
    show false = isSet (EventBase.set Initialized 0) Scheduled
    decide

/-- An event that was never scheduled, and one that is not any more. -/
def idleEvents : Fin 2 → EventState := fun e => ⟨if e.val = 0 then 0 else 500, -1, 0x7a41⟩

theorem restore_roundTrip_idle : ∃ s', RoundTrip idleEvents s' ∧
    [⟨1, Nat.one_lt_two⟩, ⟨0, Nat.two_pos⟩].foldlM (restoreEvent idleEvents) (newObjects 2 0) = .ok s' := by
  have hinit : ∀ e, initialized (idleEvents e).flags = true := by decide
  obtain ⟨s', hrun, hiff⟩ := restore_roundTrip_iff hinit (newObjects_fresh 2)
    [⟨1, Nat.one_lt_two⟩, ⟨0, Nat.two_pos⟩] (by decide) (by decide)
  exact ⟨s', hiff.2 (by decide), hrun⟩

/-- A tick event, scheduled for tick 1000. -/
def tickEvent : Fin 1 → EventState := fun _ => ⟨1000, 50, 0x7a42⟩

/-- A scheduled event is not put back into the queue. -/
theorem scheduled_event_lost : ¬ ∀ (n : Nat) (saved : Fin n → EventState) (s s' : FlaggedQueue n)
    (events : List (Fin n)), (∀ e, initialized (saved e).flags = true) → Fresh s → events.Nodup →
    (∀ e, e ∈ events) → events.foldlM (restoreEvent saved) s = .ok s' → RoundTrip saved s' := by
  intro hall
  have hinit : ∀ e, initialized (tickEvent e).flags = true := by decide
  have hnodup : (List.finRange 1).Nodup := List.nodup_finRange 1
  obtain ⟨s', bins, hrun, h, -⟩ := restore_spec hinit (List.finRange 1)
    ((newObjects_fresh 1).restored tickEvent) (by rw [List.append_nil]; exact List.nodup_reverse.2 hnodup)
  rw [List.append_nil] at h
  have htrip := hall 1 tickEvent (newObjects 1 0) s' (List.finRange 1) hinit (newObjects_fresh 1) hnodup
    List.mem_finRange hrun
  have hnone := (h.roundTrip_iff fun e => List.mem_reverse.2 (List.mem_finRange e)).1 htrip
  exact absurd (hnone ⟨0, Nat.one_pos⟩) (by decide)

end Alpine.Sim
