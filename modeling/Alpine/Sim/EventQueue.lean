import Alpine.Lib.Chain

/-!
# The event queue (`sim/eventq.cc`, `sim/eventq.hh`, `sim/eventq_impl.hh`)

The queue is a linked list of linked lists: `nextBin` links the top events of the bins, `nextInBin` the
events of one bin, which share time and priority.  Events outside the queue, and events below the
top of a bin, keep whatever values these two fields had.

A queue of the serial mode (`inParallelMode` is false) with `n` event objects: a pointer is an
`Option (Fin n)`.  A loop that follows a pointer field for more than `n` steps has met an event twice
and never ends.  `process()` is not part of `serviceOne` here: what it does to the queue are further
calls, made after the event has been taken off; the memory management hooks `acquire` and `release` do
not touch the queue, and an event whose storage is reused is constructed anew.
-/

namespace Alpine.Sim

variable {n : Nat}

structure Event (n : Nat) where
  nextBin : Option (Fin n)
  nextInBin : Option (Fin n)
  when : Nat
  priority : Int
  scheduled : Bool
  squashed : Bool
  isExitEvent : Bool

/-! ## Order of events -/

/-- `operator<`. -/
def Event.Lt (l r : Event n) : Prop := l.when < r.when ∨ l.when = r.when ∧ l.priority < r.priority

/-- `operator<=`. -/
def Event.Le (l r : Event n) : Prop := l.when < r.when ∨ l.when = r.when ∧ l.priority ≤ r.priority

/-- `operator==`. -/
def Event.Eq (l r : Event n) : Prop := l.when = r.when ∧ l.priority = r.priority

instance (l r : Event n) : Decidable (l.Lt r) := inferInstanceAs (Decidable (_ ∨ _))
instance (l r : Event n) : Decidable (l.Le r) := inferInstanceAs (Decidable (_ ∨ _))
instance (l r : Event n) : Decidable (l.Eq r) := inferInstanceAs (Decidable (_ ∧ _))

variable {a b : Event n}

theorem Event.Lt.trans {c : Event n} (h1 : a.Lt b) (h2 : b.Lt c) : a.Lt c := by
  unfold Event.Lt at *; omega

theorem Event.Lt.not_eq (h : a.Lt b) : ¬ a.Eq b := by
  unfold Event.Lt Event.Eq at *; omega

theorem Event.le_iff : a.Le b ↔ ¬ b.Lt a := by
  unfold Event.Lt Event.Le; omega

theorem Event.not_lt_iff : ¬ a.Lt b ↔ b.Lt a ∨ b.Eq a := by
  unfold Event.Lt Event.Eq; omega

theorem Event.Eq.symm (h : a.Eq b) : b.Eq a := ⟨h.1.symm, h.2.symm⟩

theorem Event.Eq.trans {c : Event n} (h1 : a.Eq b) (h2 : b.Eq c) : a.Eq c :=
  ⟨h1.1.trans h2.1, h1.2.trans h2.2⟩

theorem Event.Lt.of_eq {c : Event n} (h1 : a.Lt b) (h2 : b.Eq c) : a.Lt c := by
  unfold Event.Lt Event.Eq at *; omega

theorem Event.Eq.lt {c : Event n} (h1 : a.Eq b) (h2 : b.Lt c) : a.Lt c := by
  unfold Event.Lt Event.Eq at *; omega

/-! ## The queue -/

structure EventQueue (n : Nat) where
  events : Fin n → Event n
  head : Option (Fin n)
  curTick : Nat

/-- How a call can fail. -/
inductive Fault where
  | assertion
  | panic (msg : String)
  | nullPointer
  | diverges

/-- Update of one event. -/
def EventQueue.modify (q : EventQueue n) (e : Fin n) (f : Event n → Event n) : EventQueue n :=
  { q with events := fun x => if x = e then f (q.events x) else q.events x }

@[simp] theorem EventQueue.modify_head (q : EventQueue n) (e : Fin n) (f : Event n → Event n) :
    (q.modify e f).head = q.head := rfl

@[simp] theorem EventQueue.modify_curTick (q : EventQueue n) (e : Fin n) (f : Event n → Event n) :
    (q.modify e f).curTick = q.curTick := rfl

@[simp] theorem EventQueue.modify_same (q : EventQueue n) (e : Fin n) (f : Event n → Event n) :
    (q.modify e f).events e = f (q.events e) := if_pos rfl

theorem EventQueue.modify_ne (q : EventQueue n) {e x : Fin n} (h : x ≠ e) (f : Event n → Event n) :
    (q.modify e f).events x = q.events x := if_neg h

def EventQueue.setHead (q : EventQueue n) (p : Option (Fin n)) : EventQueue n := { q with head := p }

@[simp] theorem EventQueue.setHead_events (q : EventQueue n) (p : Option (Fin n)) :
    (q.setHead p).events = q.events := rfl

/-- The two pointer fields. -/
def EventQueue.nextBin (q : EventQueue n) (e : Fin n) : Option (Fin n) := (q.events e).nextBin
def EventQueue.nextInBin (q : EventQueue n) (e : Fin n) : Option (Fin n) := (q.events e).nextInBin

/-- `Event::insertBefore(event, curr)`; it returns `event`. -/
def insertBefore (q : EventQueue n) (event : Fin n) (curr : Option (Fin n)) : EventQueue n :=
  match curr with
  | none => q.modify event fun ev => { ev with nextBin := none, nextInBin := none }
  | some c =>
    if (q.events event).Lt (q.events c) then
      q.modify event fun ev => { ev with nextBin := some c, nextInBin := none }
    else
      q.modify event fun ev => { ev with nextBin := q.nextBin c, nextInBin := some c }

/-- The loop of `insert` and `remove` over the bins. -/
def findBin (q : EventQueue n) (event h : Fin n) : Option (Fin n × Option (Fin n)) :=
  scan q.nextBin (fun curr => (q.events curr).Lt (q.events event)) (n + 1) h (q.nextBin h)

/-- `EventQueue::insert`. -/
def insert (q : EventQueue n) (event : Fin n) : Except Fault (EventQueue n) :=
  match q.head with
  | none => .ok { insertBefore q event none with head := some event }
  | some h =>
    if (q.events event).Le (q.events h) then
      .ok { insertBefore q event (some h) with head := some event }
    else
      match findBin q event h with
      | none => .error .diverges
      | some (prev, curr) =>
        .ok ((insertBefore q event curr).modify prev fun ev => { ev with nextBin := some event })

/-- `Event::removeItem(event, top)`: the new queue and the new top of the bin. -/
def removeItem (q : EventQueue n) (event top : Fin n) : Except Fault (EventQueue n × Option (Fin n)) :=
  if event = top then
    match q.nextInBin top with
    | none => .ok (q, q.nextBin top)
    | some next => .ok (q.modify next fun ev => { ev with nextBin := q.nextBin top }, some next)
  else
    match scan q.nextInBin (fun next => event ≠ next) (n + 1) top (q.nextInBin top) with
    | none => .error .diverges
    | some (_, none) => .error (.panic "event not found!")
    | some (curr, some next) =>
      .ok (q.modify curr fun ev => { ev with nextInBin := q.nextInBin next }, some top)

/-- `EventQueue::remove`. -/
def remove (q : EventQueue n) (event : Fin n) : Except Fault (EventQueue n) :=
  match q.head with
  | none => .error (.panic "event not found!")
  | some h =>
    if (q.events h).Eq (q.events event) then
      (removeItem q event h).map fun r => { r.1 with head := r.2 }
    else
      match findBin q event h with
      | none => .error .diverges
      | some (_, none) => .error (.panic "event not found!")
      | some (prev, some curr) =>
        if ¬ (q.events curr).Eq (q.events event) then .error (.panic "event not found!")
        else (removeItem q event curr).map fun r => r.1.modify prev fun ev => { ev with nextBin := r.2 }

/-- `EventQueue::schedule`. -/
def schedule (q : EventQueue n) (event : Fin n) (when : Nat) : Except Fault (EventQueue n) :=
  if q.curTick ≤ when ∧ (q.events event).scheduled = false then
    (insert (q.modify event fun ev => { ev with when := when }) event).map fun q =>
      q.modify event fun ev => { ev with scheduled := true }
  else .error .assertion

/-- `EventQueue::deschedule`. -/
def deschedule (q : EventQueue n) (event : Fin n) : Except Fault (EventQueue n) :=
  if (q.events event).scheduled = true then
    (remove q event).map fun q =>
      q.modify event fun ev => { ev with squashed := false, scheduled := false }
  else .error .assertion

/-- `EventQueue::reschedule`. -/
def reschedule (q : EventQueue n) (event : Fin n) (when : Nat) (always : Bool) : Except Fault (EventQueue n) :=
  if q.curTick ≤ when ∧ (always = true ∨ (q.events event).scheduled = true) then do
    let q ← (if (q.events event).scheduled = true then remove q event else .ok q)
    let q ← insert (q.modify event fun ev => { ev with when := when }) event
    .ok (q.modify event fun ev => { ev with squashed := false, scheduled := true })
  else .error .assertion

/-- The part of `serviceOne` that takes the head off. -/
def popHead (q : EventQueue n) (event : Fin n) : EventQueue n :=
  match q.nextInBin event with
  | some next =>
    ((q.modify event fun ev => { ev with scheduled := false }).modify next fun ev =>
      { ev with nextBin := q.nextBin event }).setHead (some next)
  | none => (q.modify event fun ev => { ev with scheduled := false }).setHead (q.nextBin event)

/-- `EventQueue::serviceOne` up to `event->process()`, and the returned event. -/
def serviceOne (q : EventQueue n) : Except Fault (EventQueue n × Option (Fin n)) :=
  match q.head with
  | none => .error .nullPointer
  | some event =>
    if (q.events event).squashed = false then
      .ok ({ popHead q event with curTick := (q.events event).when },
        if (q.events event).isExitEvent = true then some event else none)
    else .ok ((popHead q event).modify event fun ev => { ev with squashed := false }, none)

/-- Calls on the queue and its events. -/
inductive Op (n : Nat) where
  /-- A new event object. -/
  | construct (event : Fin n) (priority : Int) (isExitEvent : Bool)
  | squash (event : Fin n)
  | schedule (event : Fin n) (when : Nat)
  | deschedule (event : Fin n)
  | reschedule (event : Fin n) (when : Nat) (always : Bool)
  | serviceOne

def step (q : EventQueue n) : Op n → Except Fault (EventQueue n)
  | .construct event priority isExitEvent =>
    -- the destructor of the object that used the storage before asserts this
    if (q.events event).scheduled = false then
      .ok (q.modify event fun _ => ⟨none, none, 0, priority, false, false, isExitEvent⟩)
    else .error .assertion
  | .squash event => .ok (q.modify event fun ev => { ev with squashed := true })
  | .schedule event when => Sim.schedule q event when
  | .deschedule event => Sim.deschedule q event
  | .reschedule event when always => Sim.reschedule q event when always
  | .serviceOne => (Sim.serviceOne q).map (·.1)

end Alpine.Sim
