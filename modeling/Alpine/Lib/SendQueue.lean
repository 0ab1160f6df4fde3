import Mathlib.Data.List.Basic

/-!
# Queues of deferred items

Items wait in a list, each from its tick on, for an event that offers the first one to a peer.  The peer takes it, or
refuses it and asks for it later.  An offer is not atomic: other items may come in before the peer has answered.

* `SendQueue` — the list and the event, with what has come in and what has left.
* `push`, `trySend`, `sent`, `refuse` — the operations; `none` where the list is empty, an item is early, or the event
  is scheduled twice or for the past.
* `Status` — what a queue waits for: nothing, its event, the answer of the peer, or a retry.
* `Sound` — the invariant: what came in has left or is held, in its order, and the first item is waited for.
* `Sound.push`, `Sound.fire`, `Sound.retry`, `Sound.sent`, `Sound.refuse` — no operation fails, and each keeps it.
-/

namespace Alpine

structure SendQueue.Deferred (α : Type) where
  tick : Nat
  item : α

structure SendQueue (α : Type) where
  transmitList : List (SendQueue.Deferred α)
  /-- The tick that the event is scheduled for. -/
  sendEvent : Option Nat
  /-- The first item is offered to the peer; or it was refused, and a retry is to come. -/
  sending : Bool
  refused : Bool
  /-- All items that have come in, and those that have left, with the time. -/
  came : List (SendQueue.Deferred α)
  left : List (SendQueue.Deferred α × Nat)

namespace SendQueue

variable {α : Type}

def empty : SendQueue α := ⟨[], none, false, false, [], []⟩

/-- The event must not be scheduled yet, and not for the past. -/
def schedule (q : SendQueue α) (now whenTick : Nat) : Option (SendQueue α) :=
  if q.sendEvent = none ∧ now ≤ whenTick then some { q with sendEvent := some whenTick } else none

/-- The event is scheduled for the first item only. -/
def push (q : SendQueue α) (now : Nat) (d : Deferred α) : Option (SendQueue α) :=
  (if q.transmitList = [] then q.schedule now d.tick else some q).map fun q =>
    { q with transmitList := q.transmitList ++ [d], came := q.came ++ [d] }

/-- The first item is offered. -/
def trySend (q : SendQueue α) (now : Nat) : Option (SendQueue α) :=
  match q.transmitList with
  | [] => none
  | d :: _ => if d.tick ≤ now then some { q with sending := true } else none

/-- The event takes place. -/
def fire (q : SendQueue α) (now : Nat) : Option (SendQueue α) := { q with sendEvent := none }.trySend now

/-- The peer asks for the item that it has refused. -/
def retry (q : SendQueue α) (now : Nat) : Option (SendQueue α) := { q with refused := false }.trySend now

/-- The peer has taken the first item; the next one is offered not before the next edge. -/
def sent (q : SendQueue α) (now edge : Nat) : Option (SendQueue α) :=
  match q.transmitList with
  | [] => none
  | d :: ds =>
    let q := { q with transmitList := ds, sending := false, left := q.left ++ [(d, now)] }
    match ds with
    | [] => some q
    | next :: _ => q.schedule now (max next.tick edge)

def refuse (q : SendQueue α) : SendQueue α := { q with sending := false, refused := true }

/-! ## The invariant -/

inductive Status (now : Nat) : List (Deferred α) → Option Nat → Bool → Bool → Prop
  | idle : Status now [] none false false
  | scheduled {d : Deferred α} {ds : List (Deferred α)} {t : Nat} : d.tick ≤ t → now ≤ t →
      Status now (d :: ds) (some t) false false
  | sending {d : Deferred α} {ds : List (Deferred α)} : d.tick ≤ now → Status now (d :: ds) none true false
  | refused {d : Deferred α} {ds : List (Deferred α)} : d.tick ≤ now → Status now (d :: ds) none false true

structure Sound (q : SendQueue α) (now : Nat) : Prop where
  fifo : q.came = q.left.map Prod.fst ++ q.transmitList
  in_time : ∀ x ∈ q.left, x.1.tick ≤ x.2
  status : Status now q.transmitList q.sendEvent q.sending q.refused

variable {q : SendQueue α} {now : Nat}

theorem sound_empty : Sound (empty : SendQueue α) now := ⟨rfl, fun _ hx => absurd hx List.not_mem_nil, .idle⟩

/-- A queue that holds an item waits for its event, for the peer's answer or for a retry. -/
theorem Sound.awake (h : Sound q now) (hne : q.transmitList ≠ []) :
    q.sendEvent ≠ none ∨ q.refused = true ∨ q.sending = true := by
  have hstatus := h.status
  generalize q.transmitList = l, q.sendEvent = e, q.sending = b, q.refused = r at hne hstatus
  cases hstatus with
  | idle => exact absurd rfl hne
  | scheduled => exact .inl (Option.some_ne_none _)
  | sending => exact .inr (.inr rfl)
  | refused => exact .inr (.inl rfl)

/-- Time may pass up to the event. -/
theorem Sound.wait (h : Sound q now) {till : Nat} (hle : now ≤ till) (hevent : ∀ t ∈ q.sendEvent, till ≤ t) :
    Sound q till := by
  refine ⟨h.fifo, h.in_time, ?_⟩
  have hstatus := h.status
  generalize q.transmitList = l, q.sendEvent = e, q.sending = b, q.refused = r at hevent hstatus
  cases hstatus with
  | idle => exact .idle
  | scheduled htick _ => exact .scheduled htick (hevent _ rfl)
  | sending htick => exact .sending (Nat.le_trans htick hle)
  | refused htick => exact .refused (Nat.le_trans htick hle)

theorem schedule_eq (hevent : q.sendEvent = none) {t : Nat} (ht : now ≤ t) :
    q.schedule now t = some { q with sendEvent := some t } := if_pos ⟨hevent, ht⟩

theorem Sound.push (h : Sound q now) {d : Deferred α} (hd : now ≤ d.tick) :
    ∃ q', q.push now d = some q' ∧ Sound q' now ∧ q'.transmitList = q.transmitList ++ [d] ∧
      q'.came = q.came ++ [d] ∧ q'.left = q.left ∧ q'.sending = q.sending := by
  have hfifo : q.came ++ [d] = q.left.map Prod.fst ++ (q.transmitList ++ [d]) := by
    rw [h.fifo, List.append_assoc]
  have hstatus := h.status
  obtain ⟨l, e, b, r, came, left⟩ := q
  dsimp only at hfifo hstatus
  unfold SendQueue.push
  cases hstatus with
  | idle =>
    rw [if_pos rfl, schedule_eq rfl hd]
    exact ⟨_, rfl, ⟨hfifo, h.in_time, .scheduled (Nat.le_refl _) hd⟩, rfl, rfl, rfl, rfl⟩
  | scheduled htick hle =>
    rw [if_neg (List.cons_ne_nil _ _)]
    exact ⟨_, rfl, ⟨hfifo, h.in_time, .scheduled htick hle⟩, rfl, rfl, rfl, rfl⟩
  | sending htick =>
    rw [if_neg (List.cons_ne_nil _ _)]
    exact ⟨_, rfl, ⟨hfifo, h.in_time, .sending htick⟩, rfl, rfl, rfl, rfl⟩
  | refused htick =>
    rw [if_neg (List.cons_ne_nil _ _)]
    exact ⟨_, rfl, ⟨hfifo, h.in_time, .refused htick⟩, rfl, rfl, rfl, rfl⟩

theorem Sound.fire (h : Sound q now) (hevent : now ∈ q.sendEvent) :
    q.fire now = some { q with sendEvent := none, sending := true } ∧
      Sound { q with sendEvent := none, sending := true } now := by
  have hstatus := h.status
  obtain ⟨l, e, b, r, came, left⟩ := q
  obtain rfl : e = some now := hevent
  cases hstatus with
  | scheduled htick _ => exact ⟨if_pos htick, h.fifo, h.in_time, .sending htick⟩

theorem Sound.retry (h : Sound q now) (hrefused : q.refused = true) :
    q.retry now = some { q with refused := false, sending := true } ∧
      Sound { q with refused := false, sending := true } now := by
  have hstatus := h.status
  obtain ⟨l, e, b, r, came, left⟩ := q
  obtain rfl : r = true := hrefused
  cases hstatus with
  | refused htick => exact ⟨if_pos htick, h.fifo, h.in_time, .sending htick⟩

theorem Sound.refuse (h : Sound q now) (hsending : q.sending = true) : Sound q.refuse now := by
  refine ⟨h.fifo, h.in_time, ?_⟩
  have hstatus := h.status
  obtain ⟨l, e, b, r, came, left⟩ := q
  obtain rfl : b = true := hsending
  cases hstatus with
  | sending htick => exact .refused htick

theorem Sound.sent (h : Sound q now) (hsending : q.sending = true) {edge : Nat} (hedge : now ≤ edge) :
    ∃ d ds q', q.transmitList = d :: ds ∧ q.sent now edge = some q' ∧ Sound q' now ∧ q'.transmitList = ds ∧
      q'.came = q.came ∧ q'.left = q.left ++ [(d, now)] ∧ q'.sending = false := by
  have hstatus := h.status
  have hfifo := h.fifo
  obtain ⟨l, e, b, r, came, left⟩ := q
  obtain rfl : b = true := hsending
  cases hstatus with
  | @sending d ds htick =>
    have hfifo' : came = (left ++ [(d, now)]).map Prod.fst ++ ds := by
      rw [List.map_append, List.append_assoc]
      exact hfifo
    have htime : ∀ x ∈ left ++ [(d, now)], x.1.tick ≤ x.2 := by
      intro x hx
      rcases List.mem_append.1 hx with hx | hx
      · exact h.in_time x hx
      · cases List.mem_singleton.1 hx
        exact htick
    cases ds with
    | nil => exact ⟨d, [], _, rfl, rfl, ⟨hfifo', htime, .idle⟩, rfl, rfl, rfl, rfl⟩
    | cons next ds =>
      have hle : now ≤ max next.tick edge := Nat.le_trans hedge (Nat.le_max_right _ _)
      exact ⟨d, next :: ds, _, rfl, schedule_eq rfl hle,
        ⟨hfifo', htime, .scheduled (Nat.le_max_left _ _) hle⟩, rfl, rfl, rfl, rfl⟩

end SendQueue

end Alpine
