import Alpine.Lib.Run
import Mathlib

/-!
# Miss and write queues (`mem/cache/queue.hh`, `mshr_queue.cc`, `write_queue.cc`)

The three lists of a queue and the ready times of its entries.  A run has the calls on the queue and, between
them, whatever else changes the targets of an allocated entry.

* `addToReadyList`, `allocate`, `markInService`, `markPending`, `forceDeallocateTarget`, `deallocate` as in
  the source.  An iterator is the entry it points to: to erase one that is not on the list is undefined.
* `Lists` — every entry is where it belongs, and the counters count; `Lists.step` keeps it in every run.
* `Ordered` — the ready list is sorted by ready time.
* `queue_consistent_iff` — a call keeps the order if and only if it changes no ready time on the ready list
  out of place.
-/

namespace Alpine.Mem.MissQueue

/-! ## The queue -/

/-- A target, as far as the queue reads it. -/
structure Target where
  readyTime : Nat
  isCacheMaintenance : Bool

/-- An entry; those of the write queue have no deferred targets. -/
structure Entry where
  readyTime : Nat
  inService : Bool
  targets : List Target
  deferredTargets : List Target

/-- `MSHR::promoteDeferredTargets`; `none` if there is nothing to promote. -/
def Entry.promoteDeferredTargets (curTick : Nat) (e : Entry) : Option Entry :=
  let lists := match e.deferredTargets with
    | [] => (e.targets, [])
    | t :: ts =>
      if t.isCacheMaintenance then
        if e.targets.isEmpty then ([t], ts) else (e.targets, t :: ts)
      else (e.targets ++ (t :: ts).takeWhile fun t : Target => !t.isCacheMaintenance,
        (t :: ts).dropWhile fun t : Target => !t.isCacheMaintenance)
  match lists.1 with
  | [] => none
  | f :: _ =>
    some { e with targets := lists.1, deferredTargets := lists.2, readyTime := max curTick f.readyTime }

variable {n : Nat}

structure Queue (n : Nat) where
  entries : Fin n → Entry
  allocatedList : List (Fin n)
  readyList : List (Fin n)
  freeList : List (Fin n)
  numInService : Int
  allocated : Int

/-- `list.erase(iterator)`. -/
def eraseIter {α : Type} [DecidableEq α] (l : List α) (e : α) : Option (List α) :=
  if e ∈ l then some (l.erase e) else none

/-- The loop of `addToReadyList`; `none` is its `assert(false)`. -/
def insertBefore (entries : Fin n → Entry) (entry : Fin n) : List (Fin n) → Option (List (Fin n))
  | [] => none
  | i :: l =>
    if (entries i).readyTime > (entries entry).readyTime then some (entry :: i :: l)
    else (insertBefore entries entry l).map (i :: ·)

/-- `Queue::addToReadyList`. -/
def addToReadyList (entries : Fin n → Entry) (readyList : List (Fin n)) (entry : Fin n) : Option (List (Fin n)) :=
  match readyList.getLast? with
  | none => some [entry]
  | some b =>
    if (entries b).readyTime ≤ (entries entry).readyTime then some (readyList ++ [entry])
    else insertBefore entries entry readyList

namespace Queue

variable (q : Queue n)

def set (e : Fin n) (x : Entry) : Queue n := { q with entries := Function.update q.entries e x }

/-- `MaxTick` if nothing is pending. -/
def nextReadyTime : Nat :=
  match q.readyList with
  | [] => 2 ^ 64 - 1
  | e :: _ => (q.entries e).readyTime

/-- `MSHRQueue::allocate` and `WriteQueue::allocate`. -/
def allocate (when_ready : Nat) (isCacheMaintenance : Bool) : Option (Queue n) :=
  match q.freeList with
  | [] => none
  | e :: freeList =>
    if (q.entries e).targets.length + (q.entries e).deferredTargets.length ≠ 0 then none
    else
      let q' := q.set e ⟨when_ready, false, [⟨when_ready, isCacheMaintenance⟩], []⟩
      (addToReadyList q'.entries q.readyList e).map fun readyList =>
        { q' with
          freeList := freeList
          allocatedList := q.allocatedList ++ [e]
          readyList := readyList
          allocated := q.allocated + 1 }

/-- `MSHRQueue::markInService`. -/
def markInService (e : Fin n) : Option (Queue n) :=
  if (q.entries e).inService then none
  else
    let x := q.entries e
    (eraseIter q.readyList e).map fun readyList =>
      { q.set e { x with inService := true } with
        readyList := readyList
        numInService := q.numInService + 1 }

/-- `MSHRQueue::markPending`. -/
def markPending (e : Fin n) : Option (Queue n) :=
  if !(q.entries e).inService then none
  else
    let x := q.entries e
    let q' := q.set e { x with inService := false }
    (addToReadyList q'.entries q.readyList e).map fun readyList =>
      { q' with
        readyList := readyList
        numInService := q.numInService - 1 }

/-- `Queue::deallocate`, with the assertions of `MSHR::deallocate` and `WriteQueueEntry::deallocate`. -/
def deallocate (e : Fin n) : Option (Queue n) :=
  let x := q.entries e
  match eraseIter q.allocatedList e,
    (if x.inService then some q.readyList else eraseIter q.readyList e) with
  | some allocatedList, some readyList =>
    if !(x.targets.isEmpty && x.deferredTargets.isEmpty) then none
    else some { q.set e { x with inService := false } with
      allocatedList := allocatedList
      freeList := e :: q.freeList
      allocated := q.allocated - 1
      numInService := if x.inService then q.numInService - 1 else q.numInService
      readyList := readyList }
  | _, _ => none

/-- `popTarget`. -/
def popTarget (e : Fin n) : Queue n :=
  let x := q.entries e
  q.set e { x with targets := x.targets.tail }

/-- `MSHRQueue::forceDeallocateTarget`. -/
def forceDeallocateTarget (e : Fin n) (curTick : Nat) : Option (Queue n) :=
  if (q.entries e).targets.isEmpty then none
  else
    let q' := q.popTarget e
    if !(q'.entries e).targets.isEmpty then some q'
    else
      match (q'.entries e).promoteDeferredTargets curTick with
      | some x => some (q'.set e x)
      | none => q'.deallocate e

/-- `WriteQueue::markInService`. -/
def send (e : Fin n) : Option (Queue n) :=
  if (q.entries e).targets.isEmpty then none else (q.popTarget e).deallocate e

end Queue

/-! ## Runs -/

/-- The calls, and what happens between them: an allocated entry gets and loses targets, and one in service is
promoted after its response. -/
inductive Call (n : Nat) where
  | allocate (when_ready : Nat) (isCacheMaintenance : Bool)
  | markInService (e : Fin n)
  | markPending (e : Fin n)
  | forceDeallocateTarget (e : Fin n) (curTick : Nat)
  | deallocate (e : Fin n)
  | send (e : Fin n)
  | retarget (e : Fin n) (targets deferredTargets : List Target)
  | promote (e : Fin n) (curTick : Nat)

def Queue.step (q : Queue n) : Call n → Option (Queue n)
  | .allocate when_ready isCacheMaintenance => q.allocate when_ready isCacheMaintenance
  | .markInService e => q.markInService e
  | .markPending e => q.markPending e
  | .forceDeallocateTarget e curTick => q.forceDeallocateTarget e curTick
  | .deallocate e => q.deallocate e
  | .send e => q.send e
  | .retarget e targets deferredTargets =>
    let x := q.entries e
    some (q.set e { x with targets, deferredTargets })
  | .promote e curTick => some (((q.entries e).promoteDeferredTargets curTick).elim q (q.set e))

/-- The constructor: all entries are free. -/
def Queue.new (n : Nat) : Queue n := ⟨fun _ => ⟨0, false, [], []⟩, [], [], List.finRange n, 0, 0⟩

/-- What the cache may call: it allocates when the queue is not exhausted, sends entries that are not in
service, and deallocates those that have no targets. -/
def Permitted (q : Queue n) : Call n → Prop
  | .allocate _ _ => q.freeList ≠ []
  | .markInService e => e ∈ q.allocatedList ∧ (q.entries e).inService = false
  | .markPending e => e ∈ q.allocatedList ∧ (q.entries e).inService = true
  | .forceDeallocateTarget e _ => e ∈ q.allocatedList ∧ (q.entries e).targets ≠ []
  | .deallocate e =>
    e ∈ q.allocatedList ∧ (q.entries e).targets = [] ∧ (q.entries e).deferredTargets = []
  | .send e =>
    e ∈ q.allocatedList ∧ (q.entries e).targets.length = 1 ∧ (q.entries e).deferredTargets = []
  | .retarget e _ _ => e ∈ q.allocatedList
  | .promote e _ => e ∈ q.allocatedList ∧ (q.entries e).inService = true

/-! ## What a queue should be -/

/-- Every entry is on one of the free list and the allocated list, the ready list has those that are allocated
and not in service, and the counters count. -/
structure Lists (q : Queue n) : Prop where
  nodup : (q.freeList ++ q.allocatedList).Nodup
  all : ∀ e, e ∈ q.freeList ∨ e ∈ q.allocatedList
  readyNodup : q.readyList.Nodup
  ready : ∀ e, e ∈ q.readyList ↔ e ∈ q.allocatedList ∧ (q.entries e).inService = false
  allocated : q.allocated = q.allocatedList.length
  numInService : q.numInService = q.allocatedList.countP fun e => (q.entries e).inService
  free : ∀ e ∈ q.freeList, (q.entries e).targets = [] ∧ (q.entries e).deferredTargets = [] ∧
    (q.entries e).inService = false

/-- The ready list is sorted by ready time. -/
def SortedBy (entries : Fin n → Entry) (l : List (Fin n)) : Prop :=
  l.Pairwise fun e e' => (entries e).readyTime ≤ (entries e').readyTime

/-- `Lists`, with the order and what the order is for. -/
structure Consistent (q : Queue n) : Prop where
  lists : Lists q
  sorted : SortedBy q.entries q.readyList
  earliest : ∀ e ∈ q.allocatedList, (q.entries e).inService = false →
    q.nextReadyTime ≤ (q.entries e).readyTime

/-- The ready time `t` is in order at the place of entry `e` on the ready list. -/
def InPlace (q : Queue n) (e : Fin n) (t : Nat) : Prop :=
  ∀ pre post, q.readyList = pre ++ e :: post →
    (∀ x ∈ pre, (q.entries x).readyTime ≤ t) ∧ ∀ x ∈ post, t ≤ (q.entries x).readyTime

/-- A call that promotes the deferred targets of an entry on the ready list gives it a ready time that is in
order there. -/
def Keeps (q : Queue n) : Call n → Prop
  | .forceDeallocateTarget e curTick =>
    (q.entries e).inService = false → (q.entries e).targets.length = 1 →
      ∀ d ∈ (q.entries e).deferredTargets.head?, InPlace q e (max curTick d.readyTime)
  | _ => True

/-! ## The ready list -/

variable {x : Entry} {l : List (Fin n)}

section Ready

variable {entries : Fin n → Entry} {entry : Fin n}

theorem insertBefore_spec : ∀ {l : List (Fin n)}, (∃ b ∈ l, (entries entry).readyTime < (entries b).readyTime) →
    ∃ l', insertBefore entries entry l = some l' ∧ l'.Perm (entry :: l) ∧ (SortedBy entries l → SortedBy entries l')
  | [], ⟨_, hb, _⟩ => absurd hb List.not_mem_nil
  | i :: l, ⟨b, hb, hlt⟩ => by
    unfold insertBefore
    by_cases hi : (entries i).readyTime > (entries entry).readyTime
    · rw [if_pos hi]
      refine ⟨_, rfl, .refl _, fun hs => List.pairwise_cons.2 ⟨fun x hx => ?_, hs⟩⟩
      rcases List.mem_cons.1 hx with rfl | hx
      · exact hi.le
      · exact hi.le.trans (List.rel_of_pairwise_cons hs hx)
    · rw [if_neg hi]
      have hbl : b ∈ l := by
        rcases List.mem_cons.1 hb with rfl | hb
        · exact absurd hlt hi
        · exact hb
      obtain ⟨l', hl', hperm, hsorted⟩ := insertBefore_spec ⟨b, hbl, hlt⟩
      rw [hl']
      refine ⟨_, rfl, (hperm.cons i).trans (.swap ..), fun hs => ?_⟩
      obtain ⟨hfirst, hs⟩ := List.pairwise_cons.1 hs
      refine List.pairwise_cons.2 ⟨fun x hx => ?_, hsorted hs⟩
      rcases List.mem_cons.1 (hperm.subset hx) with rfl | hx
      · exact Nat.le_of_not_lt hi
      · exact hfirst x hx

/-- **`addToReadyList` never reaches its `assert(false)`**, on any list, and it keeps a sorted list sorted. -/
theorem addToReadyList_spec (entries : Fin n → Entry) (entry : Fin n) (l : List (Fin n)) :
    ∃ l', addToReadyList entries l entry = some l' ∧ l'.Perm (entry :: l) ∧
      (SortedBy entries l → SortedBy entries l') := by
  unfold addToReadyList
  cases hlast : l.getLast? with
  | none =>
    rw [List.getLast?_eq_none_iff.1 hlast]
    exact ⟨_, rfl, .refl _, fun _ => List.pairwise_singleton _ _⟩
  | some b =>
    have hb : b ∈ l := List.mem_of_getLast? hlast
    dsimp only
    by_cases hle : (entries b).readyTime ≤ (entries entry).readyTime
    · rw [if_pos hle]
      refine ⟨_, rfl, List.perm_append_singleton _ _, fun hs => ?_⟩
      refine List.pairwise_append.2 ⟨hs, List.pairwise_singleton _ _, fun x hx y hy => ?_⟩
      rw [List.mem_singleton.1 hy]
      -- nothing is later than the last one
      obtain ⟨l0, rfl⟩ := List.getLast?_eq_some_iff.1 hlast
      rcases List.mem_append.1 hx with hx | hx
      · exact ((List.pairwise_append.1 hs).2.2 x hx b (List.mem_singleton.2 rfl)).trans hle
      · rw [List.mem_singleton.1 hx]
        exact hle
    · rw [if_neg hle]
      exact insertBefore_spec ⟨b, hb, Nat.lt_of_not_le hle⟩

theorem sortedBy_update (he : entry ∉ l) : SortedBy (Function.update entries entry x) l ↔ SortedBy entries l := by
  unfold SortedBy
  have hne : ∀ i ∈ l, i ≠ entry := fun i hi => ne_of_mem_of_not_mem hi he
  refine ⟨fun h => h.imp_of_mem fun hi hj hr => ?_, fun h => h.imp_of_mem fun hi hj hr => ?_⟩
  · rwa [Function.update_of_ne (hne _ hi), Function.update_of_ne (hne _ hj)] at hr
  · rwa [Function.update_of_ne (hne _ hi), Function.update_of_ne (hne _ hj)]

theorem sortedBy_congr {entries' : Fin n → Entry} (h : ∀ e, (entries' e).readyTime = (entries e).readyTime) :
    SortedBy entries' l ↔ SortedBy entries l := by
  unfold SortedBy
  simp only [h]

end Ready

/-! ## The lists -/

section Lists

variable {q : Queue n} {e : Fin n} {x : Entry}

theorem eraseIter_mem (h : e ∈ l) : eraseIter l e = some (l.erase e) := if_pos h

theorem countP_update (x : Entry) (entries : Fin n → Entry) (hl : l.Nodup) (he : e ∈ l) :
    (l.countP fun i => (Function.update entries e x i).inService) +
        (if (entries e).inService then 1 else 0) =
      (l.countP fun i => (entries i).inService) + if x.inService then 1 else 0 := by
  have hrest : ((l.erase e).countP fun i => (Function.update entries e x i).inService) =
      (l.erase e).countP fun i => (entries i).inService := by
    refine List.countP_congr fun i hi => ?_
    have hne : i ≠ e := ((hl.mem_erase_iff).1 hi).1
    rw [Function.update_of_ne hne]
  rw [(List.perm_cons_erase he).countP_eq, (List.perm_cons_erase he).countP_eq, List.countP_cons,
    List.countP_cons, Function.update_self, hrest]
  omega

theorem countP_update_not_mem {entries : Fin n → Entry} (he : e ∉ l) :
    (l.countP fun i => (Function.update entries e x i).inService) =
      l.countP fun i => (entries i).inService := by
  refine List.countP_congr fun i hi => ?_
  rw [Function.update_of_ne (ne_of_mem_of_not_mem hi he)]

namespace Lists

theorem free_not_mem (h : Lists q) (he : e ∈ q.allocatedList) : e ∉ q.freeList :=
  fun hf => (List.nodup_append.1 h.nodup).2.2 e hf e he rfl

theorem allocNodup (h : Lists q) : q.allocatedList.Nodup := (List.nodup_append.1 h.nodup).2.1

theorem free_update (h : Lists q) {i : Fin n} (hi : i ∈ q.freeList) (hne : i ≠ e) :
    ((q.set e x).entries i).targets = [] ∧ ((q.set e x).entries i).deferredTargets = [] ∧
      ((q.set e x).entries i).inService = false := by
  unfold Queue.set
  dsimp only
  rw [Function.update_of_ne hne]
  exact h.free i hi

theorem set (h : Lists q) (he : e ∈ q.allocatedList) (hx : x.inService = (q.entries e).inService) :
    Lists (q.set e x) where
  nodup := h.nodup
  all := h.all
  readyNodup := h.readyNodup
  ready i := by
    rw [show (q.set e x).readyList = q.readyList from rfl, h.ready i]
    unfold Queue.set
    dsimp only
    by_cases hi : i = e
    · rw [hi, Function.update_self, hx]
    · rw [Function.update_of_ne hi]
  allocated := h.allocated
  numInService := by
    have hcount := countP_update x q.entries h.allocNodup he
    rw [hx] at hcount
    have heq := Nat.add_right_cancel hcount
    rw [show (q.set e x).numInService = q.numInService from rfl, h.numInService]
    exact congrArg Nat.cast heq.symm
  free i hi := h.free_update hi (ne_of_mem_of_not_mem hi (h.free_not_mem he))

theorem markPending (h : Lists q) (he : e ∈ q.allocatedList) (hin : (q.entries e).inService = true)
    (hx : x.inService = false) {readyList : List (Fin n)} (hready : readyList.Perm (e :: q.readyList)) :
    Lists { q.set e x with readyList := readyList, numInService := q.numInService - 1 } where
  nodup := h.nodup
  all := h.all
  readyNodup := by
    refine hready.nodup_iff.2 (List.nodup_cons.2 ⟨fun hmem => ?_, h.readyNodup⟩)
    rw [((h.ready e).1 hmem).2] at hin
    cases hin
  ready i := by
    dsimp only [Queue.set]
    rw [hready.mem_iff, List.mem_cons, h.ready i]
    by_cases hi : i = e
    · subst hi
      rw [Function.update_self]
      exact iff_of_true (.inl rfl) ⟨he, hx⟩
    · rw [Function.update_of_ne hi]
      exact or_iff_right hi
  allocated := h.allocated
  numInService := by
    have hcount := countP_update x q.entries h.allocNodup he
    rw [hx, hin, if_pos rfl, if_neg Bool.false_ne_true] at hcount
    dsimp only [Queue.set]
    rw [h.numInService]
    omega
  free i hi := h.free_update hi (ne_of_mem_of_not_mem hi (h.free_not_mem he))

theorem markInService (h : Lists q) (he : e ∈ q.allocatedList) (hin : (q.entries e).inService = false)
    (hx : x.inService = true) :
    Lists { q.set e x with readyList := q.readyList.erase e, numInService := q.numInService + 1 } where
  nodup := h.nodup
  all := h.all
  readyNodup := h.readyNodup.erase e
  ready i := by
    dsimp only [Queue.set]
    rw [h.readyNodup.mem_erase_iff, h.ready i]
    by_cases hi : i = e
    · subst hi
      rw [Function.update_self, hx]
      exact iff_of_false (fun hc => hc.1 rfl) fun hc => by cases hc.2
    · rw [Function.update_of_ne hi]
      exact and_iff_right hi
  allocated := h.allocated
  numInService := by
    have hcount := countP_update x q.entries h.allocNodup he
    rw [hx, hin, if_pos rfl, if_neg Bool.false_ne_true] at hcount
    dsimp only [Queue.set]
    rw [h.numInService]
    omega
  free i hi := h.free_update hi (ne_of_mem_of_not_mem hi (h.free_not_mem he))

theorem allocate (h : Lists q) {freeList : List (Fin n)} (hfree : q.freeList = e :: freeList)
    (hx : x.inService = false) {readyList : List (Fin n)} (hready : readyList.Perm (e :: q.readyList)) :
    Lists { q.set e x with
      freeList := freeList
      allocatedList := q.allocatedList ++ [e]
      readyList := readyList
      allocated := q.allocated + 1 } := by
  have hnodup := h.nodup
  rw [hfree, List.cons_append] at hnodup
  obtain ⟨hnot, hnodup'⟩ := List.nodup_cons.1 hnodup
  rw [List.mem_append, not_or] at hnot
  have heready : e ∉ q.readyList := fun hmem => hnot.2 ((h.ready e).1 hmem).1
  refine ⟨?_, fun i => ?_, ?_, fun i => ?_, ?_, ?_, fun i hi => ?_⟩
  · dsimp only
    rw [← List.append_assoc]
    exact (List.perm_append_singleton e _).nodup_iff.2 hnodup
  · have hi := h.all i
    rw [hfree] at hi
    dsimp only
    rw [List.mem_append, List.mem_singleton]
    rcases hi with hi | hi
    · rcases List.mem_cons.1 hi with hi | hi
      · exact .inr (.inr hi)
      · exact .inl hi
    · exact .inr (.inl hi)
  · exact hready.nodup_iff.2 (List.nodup_cons.2 ⟨heready, h.readyNodup⟩)
  · dsimp only [Queue.set]
    rw [hready.mem_iff, List.mem_cons, h.ready i, List.mem_append, List.mem_singleton]
    by_cases hi : i = e
    · subst hi
      rw [Function.update_self]
      exact iff_of_true (.inl rfl) ⟨.inr rfl, hx⟩
    · rw [Function.update_of_ne hi, or_iff_right hi, or_iff_left hi]
  · dsimp only
    rw [h.allocated, List.length_append, List.length_singleton]
    push_cast
    rfl
  · dsimp only [Queue.set]
    rw [List.countP_append, countP_update_not_mem hnot.2, List.countP_singleton, Function.update_self, hx,
      if_neg Bool.false_ne_true, Nat.add_zero]
    exact h.numInService
  · refine h.free_update (hfree ▸ List.mem_cons_of_mem _ hi) ?_
    exact ne_of_mem_of_not_mem hi hnot.1

theorem deallocate (h : Lists q) (he : e ∈ q.allocatedList) (hx : x.inService = false)
    (ht : x.targets = []) (hd : x.deferredTargets = []) : Lists { q.set e x with
      allocatedList := q.allocatedList.erase e
      freeList := e :: q.freeList
      allocated := q.allocated - 1
      numInService := if (q.entries e).inService then q.numInService - 1 else q.numInService
      readyList := if (q.entries e).inService then q.readyList else q.readyList.erase e } := by
  have hmem : ∀ i, i ∈ (if (q.entries e).inService then q.readyList else q.readyList.erase e) ↔
      i ∈ q.readyList ∧ i ≠ e := by
    intro i
    split
    · rename_i hin
      refine ⟨fun hi => ⟨hi, ?_⟩, And.left⟩
      rintro rfl
      rw [((h.ready i).1 hi).2] at hin
      cases hin
    · rw [h.readyNodup.mem_erase_iff, and_comm]
  refine ⟨?_, fun i => ?_, ?_, fun i => ?_, ?_, ?_, fun i hi => ?_⟩
  · dsimp only
    have hperm : (e :: q.freeList ++ q.allocatedList.erase e).Perm (q.freeList ++ q.allocatedList) :=
      List.perm_middle.symm.trans ((List.perm_cons_erase he).symm.append_left _)
    exact hperm.nodup_iff.2 h.nodup
  · dsimp only
    by_cases hi : i = e
    · exact .inl (List.mem_cons.2 (.inl hi))
    · rcases h.all i with hf | ha
      · exact .inl (List.mem_cons_of_mem _ hf)
      · exact .inr (h.allocNodup.mem_erase_iff.2 ⟨hi, ha⟩)
  · dsimp only
    split
    · exact h.readyNodup
    · exact h.readyNodup.erase e
  · dsimp only [Queue.set]
    rw [hmem, h.ready i, h.allocNodup.mem_erase_iff]
    by_cases hi : i = e
    · exact iff_of_false (fun hc => hc.2 hi) fun hc => hc.1.1 hi
    · rw [Function.update_of_ne hi]
      exact ⟨fun hc => ⟨⟨hi, hc.1.1⟩, hc.1.2⟩, fun hc => ⟨⟨hc.1.2, hc.2⟩, hi⟩⟩
  · dsimp only
    have hpos := List.length_pos_of_mem he
    rw [h.allocated, List.length_erase_of_mem he]
    omega
  · have hcount := countP_update x q.entries h.allocNodup he
    have hsplit := (List.perm_cons_erase he).countP_eq fun i => (Function.update q.entries e x i).inService
    rw [List.countP_cons, Function.update_self, hx, if_neg Bool.false_ne_true, Nat.add_zero] at hsplit
    rw [hx, if_neg Bool.false_ne_true, Nat.add_zero, hsplit] at hcount
    dsimp only [Queue.set]
    rw [h.numInService]
    split
    · rename_i hin
      rw [if_pos hin] at hcount
      omega
    · rename_i hin
      rw [if_neg hin] at hcount
      omega
  · dsimp only at hi
    by_cases hie : i = e
    · subst hie
      dsimp only [Queue.set]
      rw [Function.update_self]
      exact ⟨ht, hd, hx⟩
    · refine h.free_update ?_ hie
      exact (List.mem_cons.1 hi).resolve_left hie

end Lists

end Lists

/-! ## The calls -/

section Calls

variable {q : Queue n} {e : Fin n}

/-- What a call does, apart from the order: the lists stay right, and a sorted ready list stays sorted if
`keeps` holds, and only then. -/
def Steps (q : Queue n) (keeps : Prop) (q' : Queue n) : Prop :=
  Lists q' ∧ (SortedBy q.entries q.readyList → (SortedBy q'.entries q'.readyList ↔ keeps))

theorem not_ready (h : Lists q) (hin : (q.entries e).inService = true) : e ∉ q.readyList := by
  intro hmem
  rw [((h.ready e).1 hmem).2] at hin
  cases hin

theorem readyTime_update {entries : Fin n → Entry} (hx : x.readyTime = (entries e).readyTime) (i : Fin n) :
    (Function.update entries e x i).readyTime = (entries i).readyTime := by
  by_cases hi : i = e
  · rw [hi, Function.update_self, hx]
  · rw [Function.update_of_ne hi]

theorem Steps.set (h : Lists q) (he : e ∈ q.allocatedList) (hx : x.inService = (q.entries e).inService)
    (ht : x.readyTime = (q.entries e).readyTime) : Steps q True (q.set e x) :=
  ⟨h.set he hx, fun hs => iff_true_intro ((sortedBy_congr (readyTime_update ht)).2 hs)⟩

theorem allocate_spec (h : Lists q) (hfree : q.freeList ≠ []) (when_ready : Nat) (maintenance : Bool) :
    ∃ q', q.allocate when_ready maintenance = some q' ∧ Steps q True q' := by
  unfold Queue.allocate
  cases hlist : q.freeList with
  | nil => exact absurd hlist hfree
  | cons e freeList =>
    have hmem : e ∈ q.freeList := hlist ▸ List.mem_cons_self
    obtain ⟨ht, hd, -⟩ := h.free e hmem
    obtain ⟨l', hadd, hperm, hsorted⟩ := addToReadyList_spec
      (q.set e ⟨when_ready, false, [⟨when_ready, maintenance⟩], []⟩).entries e q.readyList
    have hready : e ∉ q.readyList := fun hr => h.free_not_mem ((h.ready e).1 hr).1 hmem
    dsimp only
    rw [ht, hd, if_neg (fun hne => hne rfl), hadd]
    refine ⟨_, rfl, h.allocate hlist rfl hperm, fun hs => iff_true_intro (hsorted ?_)⟩
    exact (sortedBy_update hready).2 hs

theorem markInService_spec (h : Lists q) (he : e ∈ q.allocatedList) (hin : (q.entries e).inService = false) :
    ∃ q', q.markInService e = some q' ∧ Steps q True q' := by
  unfold Queue.markInService
  rw [if_neg (by rw [hin]; exact Bool.false_ne_true), eraseIter_mem ((h.ready e).2 ⟨he, hin⟩)]
  refine ⟨_, rfl, h.markInService he hin rfl, fun hs => iff_true_intro ?_⟩
  refine (sortedBy_congr (readyTime_update ?_)).2 (hs.sublist List.erase_sublist)
  rfl

theorem markPending_spec (h : Lists q) (he : e ∈ q.allocatedList) (hin : (q.entries e).inService = true) :
    ∃ q', q.markPending e = some q' ∧ Steps q True q' := by
  unfold Queue.markPending
  rw [hin, Bool.not_true, if_neg Bool.false_ne_true]
  dsimp only
  generalize hx : ({ q.entries e with inService := false } : Entry) = x
  have hxin : x.inService = false := by rw [← hx]
  obtain ⟨l', hadd, hperm, hsorted⟩ := addToReadyList_spec (q.set e x).entries e q.readyList
  rw [hadd]
  exact ⟨_, rfl, h.markPending he hin hxin hperm,
    fun hs => iff_true_intro (hsorted ((sortedBy_update (not_ready h hin)).2 hs))⟩

theorem deallocate_spec (h : Lists q) (he : e ∈ q.allocatedList) (ht : (q.entries e).targets = [])
    (hd : (q.entries e).deferredTargets = []) : ∃ q', q.deallocate e = some q' ∧ Steps q True q' := by
  have hready : (if (q.entries e).inService then some q.readyList else eraseIter q.readyList e) =
      some (if (q.entries e).inService then q.readyList else q.readyList.erase e) := by
    cases hin : (q.entries e).inService with
    | true => rfl
    | false => exact eraseIter_mem ((h.ready e).2 ⟨he, hin⟩)
  unfold Queue.deallocate
  dsimp only
  rw [eraseIter_mem he, hready, ht, hd]
  refine ⟨_, rfl, h.deallocate he rfl rfl rfl, fun hs => iff_true_intro ?_⟩
  refine (sortedBy_congr (readyTime_update ?_)).2 ?_
  · rfl
  · dsimp only
    split
    · exact hs
    · exact hs.sublist List.erase_sublist

theorem popTarget_steps (h : Lists q) (he : e ∈ q.allocatedList) : Steps q True (q.popTarget e) :=
  .set h he rfl rfl

theorem popTarget_entries (q : Queue n) (e : Fin n) : (q.popTarget e).entries e =
    { q.entries e with targets := (q.entries e).targets.tail } := Function.update_self ..

theorem Steps.trans {keeps : Prop} {q1 q2 : Queue n} (h1 : Steps q True q1) (h2 : Steps q1 keeps q2) :
    Steps q keeps q2 :=
  ⟨h2.1, fun hs => h2.2 ((h1.2 hs).2 trivial)⟩

theorem send_spec (h : Lists q) (he : e ∈ q.allocatedList) (ht : (q.entries e).targets.length = 1)
    (hd : (q.entries e).deferredTargets = []) : ∃ q', q.send e = some q' ∧ Steps q True q' := by
  obtain ⟨t, ht⟩ := List.length_eq_one_iff.1 ht
  have hpop := popTarget_steps h he
  have hentry := popTarget_entries q e
  rw [ht] at hentry
  obtain ⟨q', hq', hs⟩ := deallocate_spec hpop.1 he (by rw [hentry]; rfl) (by rw [hentry]; exact hd)
  refine ⟨q', ?_, hpop.trans hs⟩
  unfold Queue.send
  rw [ht]
  exact hq'

/-! ### Promotion -/

theorem promote_inService {curTick : Nat} {y : Entry} (h : x.promoteDeferredTargets curTick = some y) :
    y.inService = x.inService := by
  unfold Entry.promoteDeferredTargets at h
  dsimp only at h
  split at h
  · cases h
  · cases h
    rfl

theorem promote_deferred (curTick : Nat) {d : Target} {ds : List Target} (ht : x.targets = [])
    (hd : x.deferredTargets = d :: ds) :
    ∃ y, x.promoteDeferredTargets curTick = some y ∧ y.readyTime = max curTick d.readyTime := by
  unfold Entry.promoteDeferredTargets
  rw [ht, hd]
  dsimp only
  cases hm : d.isCacheMaintenance with
  | true => exact ⟨_, rfl, rfl⟩
  | false =>
    rw [if_neg Bool.false_ne_true, List.takeWhile_cons_of_pos (by rw [hm]; rfl)]
    exact ⟨_, rfl, rfl⟩

/-- **A new ready time on the ready list keeps the order exactly if it is in place.** -/
theorem sorted_set_iff (hready : e ∈ q.readyList) (hnodup : q.readyList.Nodup) (hs : SortedBy q.entries q.readyList) :
    SortedBy (q.set e x).entries (q.set e x).readyList ↔ InPlace q e x.readyTime := by
  have hother : ∀ {l : List (Fin n)}, e ∉ l → ∀ i ∈ l, Function.update q.entries e x i = q.entries i :=
    fun he i hi => Function.update_of_ne (ne_of_mem_of_not_mem hi he) ..
  have hout : ∀ {pre post : List (Fin n)}, q.readyList = pre ++ e :: post → e ∉ pre ∧ e ∉ post := by
    intro pre post hq
    rw [hq] at hnodup
    obtain ⟨-, hpost, hdisj⟩ := List.nodup_append.1 hnodup
    exact ⟨fun hpre => hdisj e hpre e List.mem_cons_self rfl, (List.nodup_cons.1 hpost).1⟩
  unfold SortedBy Queue.set
  dsimp only
  constructor
  · intro hsorted pre post hq
    obtain ⟨hpre, hpost⟩ := hout hq
    rw [hq] at hsorted
    obtain ⟨-, hright, hcross⟩ := List.pairwise_append.1 hsorted
    refine ⟨fun i hi => ?_, fun i hi => ?_⟩
    · have hle := hcross i hi e List.mem_cons_self
      rwa [hother hpre i hi, Function.update_self] at hle
    · have hle := List.rel_of_pairwise_cons hright hi
      rwa [hother hpost i hi, Function.update_self] at hle
  · intro hplace
    obtain ⟨pre, post, hq⟩ := List.append_of_mem hready
    obtain ⟨hpre, hpost⟩ := hout hq
    obtain ⟨hbefore, hafter⟩ := hplace pre post hq
    rw [hq]
    unfold SortedBy at hs
    rw [hq] at hs
    obtain ⟨hleft, hright, hcross⟩ := List.pairwise_append.1 hs
    obtain ⟨-, hright⟩ := List.pairwise_cons.1 hright
    refine List.pairwise_append.2 ⟨(sortedBy_update hpre).2 hleft,
      List.pairwise_cons.2 ⟨fun i hi => ?_, (sortedBy_update hpost).2 hright⟩, fun i hi j hj => ?_⟩
    · rw [hother hpost i hi, Function.update_self]
      exact hafter i hi
    · rw [hother hpre i hi]
      rcases List.mem_cons.1 hj with rfl | hj
      · rw [Function.update_self]
        exact hbefore i hi
      · rw [hother hpost j hj]
        exact hcross i hi j (List.mem_cons_of_mem _ hj)

theorem forceDeallocateTarget_spec (h : Lists q) (he : e ∈ q.allocatedList)
    (ht : (q.entries e).targets ≠ []) (curTick : Nat) : ∃ q', q.forceDeallocateTarget e curTick = some q' ∧
      Steps q (Keeps q (.forceDeallocateTarget e curTick)) q' := by
  have hpop := popTarget_steps h he
  have hentry := popTarget_entries q e
  unfold Keeps
  cases htargets : (q.entries e).targets with
  | nil => exact absurd htargets ht
  | cons t ts =>
    rw [htargets] at hentry
    have hempty : ((q.popTarget e).entries e).targets.isEmpty = ts.isEmpty := by
      rw [hentry]
      rfl
    unfold Queue.forceDeallocateTarget
    dsimp only
    rw [htargets, hempty, List.isEmpty_cons, if_neg Bool.false_ne_true]
    cases ts with
    | cons t' ts =>
      -- a target is left
      refine ⟨_, rfl, hpop.1, fun hs => ?_⟩
      refine iff_of_true ((hpop.2 hs).2 trivial) fun _ hlen => ?_
      cases hlen
    | nil =>
      rw [List.isEmpty_nil, Bool.not_true, if_neg Bool.false_ne_true]
      cases hdeferred : (q.entries e).deferredTargets with
      | nil =>
        -- nothing is left
        have hnone : ((q.popTarget e).entries e).promoteDeferredTargets curTick = none := by
          rw [hentry]
          unfold Entry.promoteDeferredTargets
          rw [hdeferred]
          rfl
        obtain ⟨q', hq', hs⟩ := deallocate_spec hpop.1 he (by rw [hentry]; rfl)
          (by rw [hentry]; exact hdeferred)
        rw [hnone]
        refine ⟨q', hq', hs.1, fun hsorted => ?_⟩
        refine iff_of_true (((hpop.trans hs).2 hsorted).2 trivial) fun _ _ d hd => ?_
        cases hd
      | cons d ds =>
        -- the deferred targets are promoted
        obtain ⟨y, hy, htime⟩ := promote_deferred curTick
          (x := (q.popTarget e).entries e) (by rw [hentry]; rfl) (by rw [hentry]; exact hdeferred)
        have hin : y.inService = (q.entries e).inService := by
          rw [promote_inService hy, hentry]
        have hset : (q.popTarget e).set e y = q.set e y := by
          unfold Queue.popTarget Queue.set
          dsimp only
          rw [Function.update_idem]
        rw [hy]
        refine ⟨_, rfl, ?_⟩
        rw [hset]
        refine ⟨h.set he hin, fun hs => ?_⟩
        cases hserv : (q.entries e).inService with
        | true =>
          have hno := not_ready h hserv
          exact iff_of_true ((sortedBy_update hno).2 hs) fun hf => by cases hf
        | false =>
          rw [sorted_set_iff ((h.ready e).2 ⟨he, hserv⟩) h.readyNodup hs, htime]
          constructor
          · intro hplace _ _ d' hd'
            cases hd'
            exact hplace
          · exact fun hkeep => hkeep rfl rfl d rfl

/-- **One call.** -/
theorem step_spec (h : Lists q) {c : Call n} (hc : Permitted q c) :
    ∃ q', q.step c = some q' ∧ Steps q (Keeps q c) q' := by
  cases c with
  | allocate when_ready maintenance => exact allocate_spec h hc when_ready maintenance
  | markInService e => exact markInService_spec h hc.1 hc.2
  | markPending e => exact markPending_spec h hc.1 hc.2
  | forceDeallocateTarget e curTick => exact forceDeallocateTarget_spec h hc.1 hc.2 curTick
  | deallocate e => exact deallocate_spec h hc.1 hc.2.1 hc.2.2
  | send e => exact send_spec h hc.1 hc.2.1 hc.2.2
  | retarget e targets deferredTargets => exact ⟨_, rfl, .set h hc rfl rfl⟩
  | promote e curTick =>
    refine ⟨_, rfl, ?_⟩
    cases hp : (q.entries e).promoteDeferredTargets curTick with
    | none => exact ⟨h, fun hs => iff_true_intro hs⟩
    | some x =>
      refine ⟨h.set hc.1 (promote_inService hp), fun hs => iff_true_intro ?_⟩
      exact (sortedBy_update (not_ready h hc.2)).2 hs

theorem Consistent.of_sorted (h : Lists q) (hs : SortedBy q.entries q.readyList) : Consistent q where
  lists := h
  sorted := hs
  earliest e he hin := by
    have hready := (h.ready e).2 ⟨he, hin⟩
    unfold Queue.nextReadyTime
    cases hl : q.readyList with
    | nil =>
      rw [hl] at hready
      exact absurd hready List.not_mem_nil
    | cons f l =>
      rw [hl] at hready hs
      rcases List.mem_cons.1 hready with rfl | hmem
      · exact Nat.le_refl _
      · exact List.rel_of_pairwise_cons hs hmem

end Calls

theorem lists_new (n : Nat) : Lists (Queue.new n) where
  nodup := by
    show (List.finRange n ++ []).Nodup
    rw [List.append_nil]
    exact List.nodup_finRange n
  all e := .inl (List.mem_finRange e)
  readyNodup := List.nodup_nil
  ready e := iff_of_false List.not_mem_nil fun h => List.not_mem_nil h.1
  allocated := rfl
  numInService := rfl
  free e _ := ⟨rfl, rfl, rfl⟩

/-- **The lists of a queue are right in every run**, and the `assert(false)` of `addToReadyList` and all other
assertions of the calls hold. -/
theorem lists_of_reaches {q : Queue n} (h : Run.Reaches Queue.step Permitted (Queue.new n) q) {c : Call n}
    (hc : Permitted q c) : Lists q ∧ ∃ q', q.step c = some q' := by
  have hl : Lists q := by
    refine h.inv (lists_new n) fun t c t' ht hc hstep => ?_
    obtain ⟨t1, ht1, hs⟩ := step_spec ht hc
    cases hstep.symm.trans ht1
    exact hs.1
  obtain ⟨q', hq', -⟩ := step_spec hl hc
  exact ⟨hl, q', hq'⟩

/-- **The queues stay consistent as long as no promotion on the ready list breaks its order.**  In a run whose
calls all kept the order the queue is consistent, the next call returns with all lists and counters right, and
it leaves the queue consistent if and only if it keeps the order. -/
theorem queue_consistent_iff {q : Queue n} {c : Call n}
    (h : Run.Reaches Queue.step (fun q c => Permitted q c ∧ Keeps q c) (Queue.new n) q) (hc : Permitted q c) :
    Consistent q ∧ ∃ q', q.step c = some q' ∧ Lists q' ∧ (Consistent q' ↔ Keeps q c) := by
  have hq : Consistent q := by
    refine h.inv (.of_sorted (lists_new n) .nil) fun t c t' ht hc hstep => ?_
    obtain ⟨t1, ht1, hs⟩ := step_spec ht.lists hc.1
    cases hstep.symm.trans ht1
    exact .of_sorted hs.1 ((hs.2 ht.sorted).2 hc.2)
  obtain ⟨q', hq', hlists, hsorted⟩ := step_spec hq.lists hc
  refine ⟨hq, q', hq', hlists, fun hc' => (hsorted hq.sorted).1 hc'.sorted, fun hk => ?_⟩
  exact .of_sorted hlists ((hsorted hq.sorted).2 hk)

/-! ## Two misses -/

local instance neZeroTwo : NeZero 2 := ⟨two_ne_zero⟩

/-- A prefetch that is ready at tick 10, with a deferred target of tick 15, and a miss of tick 20: the prefetch is dropped
at tick 12, and its entry is ready at tick 15 then, still before the other. -/
theorem queue_consistent_dropped : ∃ q q' : Queue 2, q.readyList = [0, 1] ∧
    q.step (.forceDeallocateTarget 0 12) = some q' ∧ (q'.entries 0).readyTime = 15 ∧ q'.readyList = [0, 1] ∧
    Consistent q' := by
  have h1 := (Run.Reaches.refl : Run.Reaches Queue.step (fun q c => Permitted q c ∧ Keeps q c) (Queue.new 2) _).step
    (i := Call.allocate 10 false) ⟨by exact List.cons_ne_nil 0 [1], by exact trivial⟩ rfl
  have h2 := h1.step (i := Call.retarget 0 [⟨10, false⟩] [⟨15, true⟩]) ⟨by exact List.mem_cons_self, by exact trivial⟩ rfl
  have h3 := h2.step (i := Call.allocate 20 false) ⟨by exact List.cons_ne_nil 1 [], by exact trivial⟩ rfl
  obtain ⟨-, q', hq', -, hkeeps⟩ := queue_consistent_iff h3 (c := .forceDeallocateTarget 0 12) ⟨by decide, by decide⟩
  refine ⟨_, q', rfl, hq', ?_, ?_, hkeeps.2 ?_⟩
  · cases hq'
    rfl
  · cases hq'
    rfl
  · rintro - - d hd pre post hl
    obtain rfl : ⟨15, true⟩ = d := Option.some.inj hd
    cases pre with
    | nil =>
      cases hl
      exact ⟨fun x hx => absurd hx List.not_mem_nil, by decide⟩
    | cons a pre =>
      have htail : [(1 : Fin 2)] = pre ++ 0 :: post := (List.cons.inj hl).2
      have hmem : (0 : Fin 2) ∈ [1] := htail ▸ List.mem_append_right pre List.mem_cons_self
      exact absurd hmem (by decide)

/-- A prefetch that is ready at tick 10 and has a deferred target of tick 50, and a miss of tick 20. -/
def prefetchThenMiss : Option (Queue 2) := do
  let q ← (Queue.new 2).step (.allocate 10 false)
  let q ← q.step (.retarget 0 [⟨10, false⟩] [⟨50, true⟩])
  q.step (.allocate 20 false)

theorem lists_of_reaches_promotion : ∃ q, prefetchThenMiss = some q ∧ Lists q ∧
    ∃ q', q.step (.forceDeallocateTarget 0 12) = some q' := by
  have h1 : Run.Reaches Queue.step Permitted (Queue.new 2) _ :=
    .step .refl (i := .allocate 10 false) (List.cons_ne_nil 0 [1]) rfl
  have h2 := h1.step (i := .retarget 0 [⟨10, false⟩] [⟨50, true⟩]) List.mem_cons_self rfl
  have h3 := h2.step (i := .allocate 20 false) (by exact List.cons_ne_nil 1 []) rfl
  exact ⟨_, rfl, lists_of_reaches h3 ⟨by decide, by decide⟩⟩

/-- **A promotion leaves the ready list unsorted:** the prefetch is dropped at tick 12, and the time at which
the next entry is ready is now that of its deferred target. -/
theorem promotion_out_of_order : ∃ q q', prefetchThenMiss = some q ∧
    Permitted q (.forceDeallocateTarget 0 12) ∧ q.step (.forceDeallocateTarget 0 12) = some q' ∧
    q'.readyList = [0, 1] ∧ q'.nextReadyTime = 50 ∧ (q'.entries 1).readyTime = 20 ∧ ¬ Consistent q' := by
  refine ⟨_, _, rfl, ⟨by decide, by decide⟩, rfl, rfl, rfl, rfl, fun h => ?_⟩
  exact absurd (h.earliest 1 (by decide) rfl) (by decide)

end Alpine.Mem.MissQueue
