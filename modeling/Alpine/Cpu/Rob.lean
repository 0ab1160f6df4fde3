import Mathlib

/-!
# The reorder buffer (`cpu/o3/rob.hh`, `cpu/o3/rob_impl.hh`)

`ROB` for any number of threads.  An instruction is named by its sequence number, which is unique in the CPU,
and an iterator of an instruction list is the instruction it points to; `none` is `end()`.  A failed assertion
and an iterator that is dereferenced or decremented out of its list are `none`.  The statistics are left out.

* `insertInst`, `retireHead`, `resetEntries`, `squash`, `doSquash` and the rest as in the source.
* `updateHead_oldest` — what `updateHead` finds.
* `Frame` — what the squash functions leave alone.
-/

namespace Alpine.Cpu

namespace Rob

inductive ROBPolicy where
  | Dynamic
  | Partitioned
  | Threshold
  deriving DecidableEq

/-- `ROB::Status`. -/
inductive Status where
  | Running
  | Idle
  | ROBSquashing

/-- The status bits of a `DynInst` that the buffer reads or sets. -/
structure DynInst where
  inROB : Bool := false
  canCommit : Bool := false
  committed : Bool := false
  squashed : Bool := false

def DynInst.setSquashed (x : DynInst) : DynInst := { x with squashed := true }

def DynInst.setCanCommit (x : DynInst) : DynInst := { x with canCommit := true }

variable {n : Nat}

structure ROB (n : Nat) where
  robPolicy : ROBPolicy
  numEntries : Nat
  squashWidth : Nat
  activeThreads : List (Fin n)
  maxEntries : Fin n → Nat
  threadEntries : Fin n → Nat
  instList : Fin n → List Nat
  numInstsInROB : Nat
  head : Option Nat
  tail : Option Nat
  robStatus : Fin n → Status
  squashIt : Fin n → Option Nat
  squashedSeqNum : Fin n → Nat
  doneSquashing : Fin n → Bool
  insts : Nat → DynInst

/-- What the buffer reads of `DerivO3CPUParams`. -/
structure Params where
  numROBEntries : Nat
  squashWidth : Nat
  smtROBPolicy : ROBPolicy
  smtROBThreshold : Nat

/-- `--it` on the iterator of `p`. -/
def prev (l : List Nat) (p : Nat) : Option Nat := (l.takeWhile (· ≠ p)).getLast?

namespace ROB

/-- The constructor, with `resetState`, and `setActiveThreads`. -/
def new (p : Params) (activeThreads : List (Fin n)) : ROB n where
  robPolicy := p.smtROBPolicy
  numEntries := p.numROBEntries
  squashWidth := p.squashWidth
  activeThreads := activeThreads
  maxEntries _ := match p.smtROBPolicy with
    | .Dynamic => p.numROBEntries
    | .Partitioned => p.numROBEntries / n
    | .Threshold => p.smtROBThreshold
  threadEntries _ := 0
  instList _ := []
  numInstsInROB := 0
  head := none
  tail := none
  robStatus _ := .Idle
  squashIt _ := none
  squashedSeqNum _ := 0
  doneSquashing _ := true
  insts _ := {}

variable (s : ROB n) (tid : Fin n)

/-- The unsigned difference. -/
def numFreeEntries : Nat := (s.maxEntries tid + 2 ^ 32 - s.threadEntries tid) % 2 ^ 32

def isEmpty : Bool := s.threadEntries tid = 0

def isHeadReady : Bool :=
  s.threadEntries tid ≠ 0 && (s.instList tid).head?.any fun i => (s.insts i).canCommit

def resetEntries : ROB n :=
  if s.robPolicy ≠ .Dynamic ∨ 1 < n then
    let active_threads := s.activeThreads.length
    { s with maxEntries := fun tid =>
        if tid ∈ s.activeThreads then
          match s.robPolicy with
          | .Partitioned => s.numEntries / active_threads
          | .Threshold => if active_threads = 1 then s.numEntries else s.maxEntries tid
          | .Dynamic => s.maxEntries tid
        else s.maxEntries tid }
  else s

/-- One thread in the loop of `updateHead`. -/
def older (head : Option Nat) (tid : Fin n) : Option Nat :=
  match (s.instList tid).head?, head with
  | none, head => head
  | some i, none => some i
  | some i, some h => if i < h then some i else some h

def updateHead : ROB n := { s with head := s.activeThreads.foldl s.older none }

/-- One thread in the loop of `updateTail`. -/
def younger (tail : Option Nat) (tid : Fin n) : Option Nat :=
  match (s.instList tid).getLast?, tail with
  | none, tail => tail
  | some i, none => some i
  | some i, some h => if i > h then some i else some h

def updateTail : ROB n := { s with tail := s.activeThreads.foldl s.younger none }

def insertInst (inst : Nat) : Option (ROB n) :=
  if s.numInstsInROB = s.numEntries then none
  else
    let list := s.instList tid ++ [inst]
    if s.numInstsInROB = 0 ∧ list.head? ≠ some inst then none
    else some { s with
      instList := Function.update s.instList tid list
      head := if s.numInstsInROB = 0 then list.head? else s.head
      tail := list.getLast?
      insts := Function.update s.insts inst { s.insts inst with inROB := true }
      numInstsInROB := s.numInstsInROB + 1
      threadEntries := Function.update s.threadEntries tid (s.threadEntries tid + 1) }

def retireHead : Option (ROB n) :=
  if s.numInstsInROB = 0 then none
  else
    match s.instList tid with
    | [] => none
    | i :: list =>
      if !(s.insts i).canCommit then none
      else some (updateHead { s with
        numInstsInROB := s.numInstsInROB - 1
        threadEntries := Function.update s.threadEntries tid (s.threadEntries tid - 1)
        insts := Function.update s.insts i { s.insts i with inROB := false, committed := true }
        instList := Function.update s.instList tid list })

/-- Ends the squash of the thread. -/
def endSquash : ROB n :=
  { s with
    squashIt := Function.update s.squashIt tid none
    doneSquashing := Function.update s.doneSquashing tid true }

/-- How the loop of `doSquash` ends: at the head of the list, or with the iterator and `robTailUpdate`. -/
inductive LoopEnd where
  | head
  | at (it : Option Nat) (robTailUpdate : Bool)

/-- The loop of `doSquash` over the list of the thread, with the number of instructions it may still squash. -/
def squashLoop (list : List Nat) (num : Nat) : Nat → Option Nat → Bool → (Nat → DynInst) → (Nat → DynInst) × LoopEnd
  | 0, it, robTailUpdate, insts => (insts, .at it robTailUpdate)
  | _ + 1, none, robTailUpdate, insts => (insts, .at none robTailUpdate)
  | k + 1, some p, robTailUpdate, insts =>
    if p > num then
      let insts := Function.update insts p (insts p).setSquashed.setCanCommit
      if list.head? = some p then (insts, .head)
      else squashLoop list num k (prev list p) (robTailUpdate || list.getLast? = some p) insts
    else (insts, .at (some p) robTailUpdate)

def doSquash : Option (ROB n) :=
  match s.squashIt tid with
  | none => none
  | some p =>
    if p < s.squashedSeqNum tid then some (s.endSquash tid)
    else
      match squashLoop (s.instList tid) (s.squashedSeqNum tid) s.squashWidth (some p) false s.insts with
      | (insts, .head) => some ({ s with insts }.endSquash tid)
      | (_, .at none _) => none
      | (insts, .at (some q) robTailUpdate) =>
        let s := { s with insts, squashIt := Function.update s.squashIt tid (some q) }
        let s := if q ≤ s.squashedSeqNum tid then s.endSquash tid else s
        some (if robTailUpdate then s.updateTail else s)

def squash (squash_num : Nat) : Option (ROB n) :=
  if s.isEmpty tid then some s
  else
    let s := { s with
      robStatus := Function.update s.robStatus tid .ROBSquashing
      doneSquashing := Function.update s.doneSquashing tid false
      squashedSeqNum := Function.update s.squashedSeqNum tid squash_num }
    match (s.instList tid).getLast? with
    | none => some s
    | some p => doSquash { s with squashIt := Function.update s.squashIt tid (some p) } tid

end ROB

/-! ## The head -/

/-- `i` is the oldest instruction of the threads; `none` if they have no instruction. -/
def IsOldest (instList : Fin n → List Nat) (threads : List (Fin n)) : Option Nat → Prop
  | none => ∀ t ∈ threads, instList t = []
  | some i => (∃ t ∈ threads, i ∈ instList t) ∧ ∀ t ∈ threads, ∀ j ∈ instList t, i ≤ j

theorem head_le {l : List Nat} (hl : l.Pairwise (· < ·)) {i : Nat} (hi : l.head? = some i) :
    i ∈ l ∧ ∀ j ∈ l, i ≤ j := by
  cases l with
  | nil => simp at hi
  | cons k l =>
    simp only [List.head?_cons, Option.some.injEq] at hi
    subst hi
    refine ⟨List.mem_cons_self, fun j hj => ?_⟩
    rcases List.mem_cons.1 hj with rfl | hj
    · exact Nat.le_refl _
    · exact (List.rel_of_pairwise_cons hl hj).le

/-- One more thread in the loop of `updateHead`. -/
theorem older_isOldest {s : ROB n} {tid : Fin n} (hl : (s.instList tid).Pairwise (· < ·))
    {threads : List (Fin n)} {h : Option Nat} (hh : IsOldest s.instList threads h) :
    IsOldest s.instList (threads ++ [tid]) (s.older h tid) := by
  unfold ROB.older
  cases hi : (s.instList tid).head? with
  | none =>
    have hnil : s.instList tid = [] := List.head?_eq_none_iff.1 hi
    cases h with
    | none => simpa [IsOldest, or_imp, forall_and, hnil] using hh
    | some k =>
      refine ⟨?_, ?_⟩
      · obtain ⟨⟨t, ht, hk⟩, -⟩ := hh
        exact ⟨t, by simp [ht], hk⟩
      · intro t ht j hj
        rcases List.mem_append.1 ht with ht | ht
        · exact hh.2 t ht j hj
        · simp only [List.mem_singleton] at ht
          simp [ht, hnil] at hj
  | some i =>
    obtain ⟨hmem, hmin⟩ := head_le hl hi
    have hself : ∃ t ∈ threads ++ [tid], i ∈ s.instList t := ⟨tid, by simp, hmem⟩
    cases h with
    | none =>
      refine ⟨hself, fun t ht j hj => ?_⟩
      rcases List.mem_append.1 ht with ht | ht
      · simp [hh t ht] at hj
      · simp only [List.mem_singleton] at ht
        exact hmin j (ht ▸ hj)
    | some k =>
      obtain ⟨⟨u, hu, hk⟩, hkmin⟩ := hh
      have hbelow : ∀ m, m ≤ i → m ≤ k → ∀ t ∈ threads ++ [tid], ∀ j ∈ s.instList t, m ≤ j := by
        intro m hmi hmk t ht j hj
        rcases List.mem_append.1 ht with ht | ht
        · exact hmk.trans (hkmin t ht j hj)
        · simp only [List.mem_singleton] at ht
          exact hmi.trans (hmin j (ht ▸ hj))
      dsimp only
      split
      · rename_i hlt
        exact ⟨hself, hbelow i (Nat.le_refl i) hlt.le⟩
      · rename_i hnot
        exact ⟨⟨u, by simp [hu], hk⟩, hbelow k (Nat.le_of_not_lt hnot) (Nat.le_refl k)⟩

/-- **`updateHead` finds the oldest instruction of the active threads.** -/
theorem updateHead_oldest {s : ROB n} (hl : ∀ t, (s.instList t).Pairwise (· < ·)) :
    IsOldest s.instList s.activeThreads s.updateHead.head := by
  have hloop : ∀ (more threads : List (Fin n)) (h : Option Nat), IsOldest s.instList threads h →
      IsOldest s.instList (threads ++ more) (more.foldl s.older h) := by
    intro more
    induction more with
    | nil => intro threads h hh; simpa using hh
    | cons t more ih =>
      intro threads h hh
      have := ih (threads ++ [t]) (s.older h t) (older_isOldest (hl t) hh)
      simpa using this
  exact hloop s.activeThreads [] none (by simp [IsOldest])

end Rob

end Alpine.Cpu
