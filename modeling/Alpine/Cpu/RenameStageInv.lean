import Alpine.Cpu.RenameStageLoop
import Alpine.Lib.Fifo

/-!
# A tick of rename

* `Inv` — what the stage looks like between two ticks.
* `told` — decode has been told to stop exactly while the stage is blocked, unblocking or waits for
  serialization.
* `checkSignalsAndUpdate_checked` — the first half of a tick.
-/

namespace Alpine.Cpu

/-- The statuses in which decode must not send. -/
def ThreadStatus.stalled : ThreadStatus → Bool
  | .Blocked => true
  | .Unblocking => true
  | .SerializeStall => true
  | _ => false

namespace DefaultRename

/-- What decode believes when it has read the signals so far, `st` being what it believed before. -/
def told (st : Bool) (s : DefaultRename) : Bool :=
  !s.renameUnblock && (s.renameBlock || st)

structure Inv (s : DefaultRename) : Prop where
  resumeSerialize : s.resumeSerialize = false
  resumeUnblocking : s.resumeUnblocking = false
  serialize : s.serializeInst.isSome = true ↔ s.renameStatus = .SerializeStall
  status : s.renameStatus ≠ .StartSquash
  skid : s.renameStatus.stalled = false → s.skidBuffer = []
  unblocking : s.renameStatus = .Unblocking → s.skidBuffer ≠ []
  insts : s.insts ≠ [] → s.renameStatus = .Running ∧ live s.insts = []

theorem inv_start (entries : FreeEntries) : Inv { freeEntries := entries } where
  resumeSerialize := rfl
  resumeUnblocking := rfl
  serialize := by simp
  status := by simp
  skid := fun _ => rfl
  unblocking := by simp
  insts := by simp

theorem Inv.serializeInst_none {s : DefaultRename} (h : Inv s) (hs : s.renameStatus ≠ .SerializeStall) :
    s.serializeInst = none := by
  rw [← Option.not_isSome_iff_eq_none]
  exact fun hsome => hs (h.serialize.1 hsome)

/-! ## Blocking -/

section Block

variable (p : RenameParams) (s : DefaultRename)

/-- What `block` leaves. -/
structure BlockDone (s s' : DefaultRename) : Prop where
  insts : s'.insts = []
  skidBuffer : s'.skidBuffer = s.skidBuffer ++ s.insts
  serializeInst : s'.serializeInst = s.serializeInst
  resumeSerialize : s'.resumeSerialize = s.resumeSerialize
  resumeUnblocking : s'.resumeUnblocking = s.resumeUnblocking
  instsInProgress : s'.instsInProgress = s.instsInProgress
  loadsInProgress : s'.loadsInProgress = s.loadsInProgress
  storesInProgress : s'.storesInProgress = s.storesInProgress
  fromDecode : s'.fromDecode = s.fromDecode
  toIEW : s'.toIEW = s.toIEW
  status : s'.renameStatus = if s.renameStatus = .SerializeStall then .SerializeStall else .Blocked
  told : ∀ st, (s.renameStatus = .Blocked ∨ s.renameStatus = .Unblocking → s.told st = true) →
    s'.told st = true
  unblock : s'.renameUnblock = true → s.renameUnblock = true

theorem skidInsert_ok (h : (s.skidBuffer ++ s.insts).length ≤ p.skidBufferMax) :
    s.skidInsert p = .ok { s with skidBuffer := s.skidBuffer ++ s.insts, insts := [] } := by
  unfold skidInsert
  rw [if_neg (Nat.not_lt.2 h)]

theorem block_ok (h : (s.skidBuffer ++ s.insts).length ≤ p.skidBufferMax)
    (hr : s.resumeUnblocking = false) : ∃ s', s.block p = .ok s' ∧ BlockDone s s' := by
  unfold block
  rw [skidInsert_ok p s h]
  cases hs : s.renameStatus
  case Blocked =>
    refine ⟨{ s with skidBuffer := s.skidBuffer ++ s.insts, insts := [] }, ?_, ?_⟩
    · simp only [bind, Except.bind, hs]
      rfl
    · constructor <;> simp [hs, told]
  case Unblocking =>
    refine ⟨{ s with skidBuffer := s.skidBuffer ++ s.insts, insts := [], renameStatus := .Blocked }, ?_, ?_⟩
    · simp [bind, Except.bind, hr]
      rfl
    · constructor <;> simp [hs, told]
  case SerializeStall =>
    refine ⟨{ s with
      skidBuffer := s.skidBuffer ++ s.insts, insts := [], renameBlock := true, renameUnblock := false }, ?_, ?_⟩
    · simp [bind, Except.bind, hs, hr]
      rfl
    · constructor <;> simp [hs, told]
  all_goals
    refine ⟨{ s with
      skidBuffer := s.skidBuffer ++ s.insts, insts := [], renameBlock := true, renameUnblock := false
      renameStatus := .Blocked }, ?_, ?_⟩
    · simp [bind, Except.bind, hr]
      rfl
    · constructor <;> simp [hs, told]

end Block

/-! ## The signals -/

/-- What IEW and commit promise: commit squashes what comes after an instruction that rename has sent, IEW
takes back a stall that it has raised, and dispatches what it has received. -/
structure Promised (s : DefaultRename) (group : List DynInst) (w : Wires) : Prop where
  squash : w.fromCommit.squash = true → ∀ x ∈ s.waiting ++ group, w.fromCommit.doneSeqNum < x.seqNum
  iewUnblock : w.fromIEW.iewUnblock = true → w.fromIEW.iewBlock = true ∨ s.stallsIew = true
  insts : (w.fromIEW.dispatched : Int) ≤ s.instsInProgress
  loads : (w.fromIEW.dispatchedToLQ : Int) ≤ s.loadsInProgress
  stores : (w.fromIEW.dispatchedToSQ : Int) ≤ s.storesInProgress

/-- The stage when the instructions have been sorted and the signals read. -/
structure Sorted (s : DefaultRename) (group : List DynInst) (s1 : DefaultRename) : Prop where
  insts : s1.insts = s.insts ++ group
  skidBuffer : s1.skidBuffer = s.skidBuffer
  serializeInst : s1.serializeInst = s.serializeInst
  status : s1.renameStatus = s.renameStatus
  resumeSerialize : s1.resumeSerialize = s.resumeSerialize
  resumeUnblocking : s1.resumeUnblocking = s.resumeUnblocking
  instsInProgress : s1.instsInProgress = s.instsInProgress
  loadsInProgress : s1.loadsInProgress = s.loadsInProgress
  storesInProgress : s1.storesInProgress = s.storesInProgress
  fromDecode : s1.fromDecode = group
  toIEW : s1.toIEW = []
  renameBlock : s1.renameBlock = false
  renameUnblock : s1.renameUnblock = false
  blockThisCycle : s1.blockThisCycle = false

theorem sortInsts_sorted (s : DefaultRename) (group : List DynInst) : Sorted s group (s.sortInsts group) :=
  ⟨rfl, rfl, rfl, rfl, rfl, rfl, rfl, rfl, rfl, rfl, rfl, rfl, rfl, rfl⟩

theorem Sorted.readFreeEntries {s s1 : DefaultRename} {group : List DynInst} (h : Sorted s group s1)
    (w : Wires) : Sorted s group (s1.readFreeEntries w) ∧ (s1.readFreeEntries w).stallsIew = s1.stallsIew := by
  unfold DefaultRename.readFreeEntries
  dsimp only
  split <;> split <;> split <;>
    exact ⟨⟨h.1, h.2, h.3, h.4, h.5, h.6, h.7, h.8, h.9, h.10, h.11, h.12, h.13, h.14⟩, rfl⟩

theorem Sorted.readStallSignals {s s1 : DefaultRename} {group : List DynInst} (h : Sorted s group s1)
    {w : Wires} (hw : w.fromIEW.iewUnblock = true → w.fromIEW.iewBlock = true ∨ s1.stallsIew = true) :
    ∃ s2, s1.readStallSignals w = .ok s2 ∧ Sorted s group s2 := by
  unfold DefaultRename.readStallSignals renameAssert
  generalize hs : (if w.fromIEW.iewBlock = true then { s1 with stallsIew := true } else s1) = s2
  have hsorted : Sorted s group s2 ∧ (w.fromIEW.iewUnblock = true → s2.stallsIew = true) := by
    rw [← hs]
    split
    · exact ⟨⟨h.1, h.2, h.3, h.4, h.5, h.6, h.7, h.8, h.9, h.10, h.11, h.12, h.13, h.14⟩, fun _ => rfl⟩
    · rename_i hb
      exact ⟨h, fun hu => (hw hu).resolve_left hb⟩
  obtain ⟨h2, hstall⟩ := hsorted
  dsimp only
  split
  · rename_i hu
    rw [if_pos (hstall hu)]
    exact ⟨_, rfl, h2.1, h2.2, h2.3, h2.4, h2.5, h2.6, h2.7, h2.8, h2.9, h2.10, h2.11, h2.12, h2.13,
      h2.14⟩
  · exact ⟨s2, rfl, h2⟩

/-- Where the instructions are after the signals have been obeyed. -/
inductive Place (s : DefaultRename) (group : List DynInst) (s1 : DefaultRename) : Prop where
  | squashing (status : s1.renameStatus = .Squashing) (waiting : s1.waiting = [])
  | blocked (status : s1.renameStatus = .Blocked ∨ s1.renameStatus = .SerializeStall) (insts : s1.insts = [])
  | running (status : s1.renameStatus = .Running ∨ s1.renameStatus = .Idle) (skid : s1.skidBuffer = [])
    (blockThisCycle : s1.blockThisCycle = false)
  | unblocking (status : s1.renameStatus = .Unblocking) (skid : s1.skidBuffer ≠ []) (insts : s1.insts = group)
    (fromDecode : s1.fromDecode = group) (stalled : s.renameStatus.stalled = true)
    (blockThisCycle : s1.blockThisCycle = false)

/-- The stage when it has obeyed the signals. -/
structure Checked (s : DefaultRename) (group : List DynInst) (w : Wires) (s1 : DefaultRename) : Prop where
  resumeSerialize : s1.resumeSerialize = false
  resumeUnblocking : s1.resumeUnblocking = false
  serialize : s1.serializeInst.isSome = true ↔ s1.renameStatus = .SerializeStall
  instsInProgress : s1.instsInProgress = s.instsInProgress
  loadsInProgress : s1.loadsInProgress = s.loadsInProgress
  storesInProgress : s1.storesInProgress = s.storesInProgress
  toIEW : s1.toIEW = []
  told : s1.told s.renameStatus.stalled = s1.renameStatus.stalled
  unblock : s1.renameUnblock = true → s.renameStatus.stalled = true
  live : live s1.waiting = if w.fromCommit.squash then [] else live (s.waiting ++ group)
  room : s1.waiting.length ≤ (s.waiting ++ group).length
  place : Place s group s1

section Checked

variable {p : RenameParams} {s : DefaultRename} {group : List DynInst} {w : Wires} {s1 : DefaultRename}

theorem Sorted.waiting (h : Sorted s group s1) : s1.waiting = s.waiting ++ group := by
  unfold DefaultRename.waiting
  rw [h.insts, h.skidBuffer, h.serializeInst, List.append_assoc, List.append_assoc]

theorem Sorted.told (h : Sorted s group s1) (st : Bool) : s1.told st = st := by
  unfold DefaultRename.told
  rw [h.renameBlock, h.renameUnblock]
  rfl

theorem squash_checked (hi : Inv s) (h : Sorted s group s1) (hw : w.fromCommit.squash = true)
    (hn : ∀ x ∈ s.waiting ++ group, w.fromCommit.doneSeqNum < x.seqNum) :
    ∃ s2, s1.squash w.fromCommit.doneSeqNum = .ok s2 ∧ Checked s group w s2 := by
  have hwait : s1.serializeInst = none ∨ ∃ x, s1.serializeInst = some x ∧ w.fromCommit.doneSeqNum < x.seqNum := by
    rw [h.serializeInst]
    cases hser : s.serializeInst with
    | none => exact .inl rfl
    | some x =>
      refine .inr ⟨x, rfl, hn x ?_⟩
      simp [DefaultRename.waiting, hser]
  -- decode is told to send again where it has been told to stop
  have hdone : ∀ st : Bool, s.renameStatus.stalled = st →
      Checked s group w { s1 with
        renameStatus := .Squashing
        resumeSerialize := false
        serializeInst := none
        renameUnblock := st
        fromDecode := s1.fromDecode.map fun x =>
          if x.seqNum > w.fromCommit.doneSeqNum then x.setSquashed else x
        insts := []
        skidBuffer := [] } := by
    intro st hst
    constructor
    · rfl
    · exact h.resumeUnblocking.trans hi.resumeUnblocking
    · simp
    · exact h.instsInProgress
    · exact h.loadsInProgress
    · exact h.storesInProgress
    · exact h.toIEW
    · show (!st && (s1.renameBlock || s.renameStatus.stalled)) = false
      rw [h.renameBlock, hst]
      cases st <;> rfl
    · exact fun hu => hst.trans hu
    · rw [hw]
      rfl
    · exact Nat.zero_le _
    · exact .squashing rfl rfl
  have hnone : s.renameStatus ≠ .SerializeStall → s1.serializeInst = none := fun hne =>
    h.serializeInst.trans (hi.serializeInst_none hne)
  have hres := h.resumeSerialize.trans hi.resumeSerialize
  unfold squash
  cases hs : s.renameStatus
  case SerializeStall =>
    obtain ⟨x, hx⟩ := Option.isSome_iff_exists.1 (hi.serialize.2 hs)
    rcases hwait with hnone | ⟨y, hy, hlt⟩
    · rw [h.serializeInst, hx] at hnone
      cases hnone
    · refine ⟨_, ?_, hdone true (by rw [hs]; rfl)⟩
      simp [h.status, hs, hy, Nat.not_le.2 hlt, bind, Except.bind, pure, Except.pure]
  case Blocked =>
    exact ⟨_, by simp [h.status, hs, bind, Except.bind, pure, Except.pure], hdone true (by rw [hs]; rfl)⟩
  case Unblocking =>
    exact ⟨_, by simp [h.status, hs, bind, Except.bind, pure, Except.pure], hdone true (by rw [hs]; rfl)⟩
  all_goals
    refine ⟨_, ?_, hdone false (by rw [hs]; rfl)⟩
    have hser := hnone (by rw [hs]; decide)
    simp [h.status, hs, bind, Except.bind, pure, Except.pure, hres, hser, h.renameUnblock]

theorem block_checked (hi : Inv s) (h : Sorted s group s1) (hroom : (s.waiting ++ group).length ≤ p.skidBufferMax)
    (hw : w.fromCommit.squash = false) : ∃ s2, s1.block p = .ok s2 ∧ Checked s group w s2 := by
  have hlen : (s1.skidBuffer ++ s1.insts).length ≤ p.skidBufferMax := by
    rw [← h.waiting] at hroom
    simp only [DefaultRename.waiting, List.length_append] at hroom ⊢
    omega
  obtain ⟨s2, hrun, hb⟩ := block_ok p s1 hlen (h.resumeUnblocking.trans hi.resumeUnblocking)
  have hwaiting : s2.waiting = s.waiting ++ group := by
    rw [← h.waiting]
    simp only [DefaultRename.waiting, hb.serializeInst, hb.skidBuffer, hb.insts, List.append_nil]
  refine ⟨s2, hrun, ?_⟩
  constructor
  · rw [hb.resumeSerialize, h.resumeSerialize, hi.resumeSerialize]
  · rw [hb.resumeUnblocking, h.resumeUnblocking, hi.resumeUnblocking]
  · rw [hb.serializeInst, h.serializeInst, hi.serialize, hb.status, h.status]
    split <;> simp [*]
  · rw [hb.instsInProgress, h.instsInProgress]
  · rw [hb.loadsInProgress, h.loadsInProgress]
  · rw [hb.storesInProgress, h.storesInProgress]
  · rw [hb.toIEW, h.toIEW]
  · rw [hb.told, hb.status]
    · split <;> rfl
    · rw [h.status, h.told]
      rintro (hs | hs) <;> rw [hs] <;> rfl
  · intro hu
    have := hb.unblock hu
    rw [h.renameUnblock] at this
    cases this
  · rw [hwaiting, hw, if_neg Bool.false_ne_true]
  · rw [hwaiting]
  · refine .blocked ?_ hb.insts
    rw [hb.status]
    split
    · exact .inr rfl
    · exact .inl rfl

theorem restart_checked (hi : Inv s) (h : Sorted s group s1) (hst : s.renameStatus.stalled = true)
    (hskid : s.skidBuffer = []) (hw : w.fromCommit.squash = false) {l : List DynInst}
    (hl : Cpu.live l = Cpu.live s.serializeInst.toList) (hlen : l.length = s.serializeInst.toList.length) :
    Checked s group w { s1 with
      renameStatus := .Running
      renameUnblock := true
      insts := l ++ s1.insts
      serializeInst := none } := by
  have hskid1 := h.skidBuffer.trans hskid
  constructor
  · exact h.resumeSerialize.trans hi.resumeSerialize
  · exact h.resumeUnblocking.trans hi.resumeUnblocking
  · simp
  · exact h.instsInProgress
  · exact h.loadsInProgress
  · exact h.storesInProgress
  · exact h.toIEW
  · rfl
  · exact fun _ => hst
  · simp [DefaultRename.waiting, hw, hskid, hskid1, h.insts, hl]
  · simp [DefaultRename.waiting, hskid, hskid1, h.insts, hlen]
  · exact .running (.inl rfl) hskid1 h.blockThisCycle

/-- The stage starts to empty the skid buffer, with what it held for serialization in front. -/
theorem resume_checked (hi : Inv s) (h : Sorted s group s1) (hst : s.renameStatus.stalled = true)
    (hskid : s.skidBuffer ≠ []) (hw : w.fromCommit.squash = false) {l : List DynInst}
    (hl : Cpu.live l = Cpu.live s.serializeInst.toList) (hlen : l.length = s.serializeInst.toList.length) :
    Checked s group w { s1 with
      renameStatus := .Unblocking
      skidBuffer := l ++ s1.skidBuffer
      serializeInst := none } := by
  have hinsts : s.insts = [] := by
    by_contra hne
    rw [(hi.insts hne).1] at hst
    cases hst
  constructor
  · exact h.resumeSerialize.trans hi.resumeSerialize
  · exact h.resumeUnblocking.trans hi.resumeUnblocking
  · simp
  · exact h.instsInProgress
  · exact h.loadsInProgress
  · exact h.storesInProgress
  · exact h.toIEW
  · exact (h.told _).trans hst
  · intro hu
    rw [h.renameUnblock] at hu
    cases hu
  · simp [DefaultRename.waiting, hw, h.insts, h.skidBuffer, hl]
  · simp [DefaultRename.waiting, h.insts, h.skidBuffer, hlen]
  · refine .unblocking rfl ?_ (by rw [h.insts, hinsts, List.nil_append]) h.fromDecode hst
      h.blockThisCycle
    rw [h.skidBuffer]
    exact fun hnil => hskid (List.append_eq_nil_iff.1 hnil).2

/-- The stage keeps running, or starts to run. -/
theorem run_checked (hi : Inv s) (h : Sorted s group s1) (hst : s.renameStatus.stalled = false)
    (hw : w.fromCommit.squash = false) {status : ThreadStatus} (hrun : status = .Running ∨ status = .Idle) :
    Checked s group w { s1 with renameStatus := status } := by
  have hnone := h.serializeInst.trans (hi.serializeInst_none (by rintro he; rw [he] at hst; cases hst))
  have hne : status ≠ .SerializeStall ∧ status.stalled = false := by rcases hrun with rfl | rfl <;> decide
  constructor
  · exact h.resumeSerialize.trans hi.resumeSerialize
  · exact h.resumeUnblocking.trans hi.resumeUnblocking
  · simp [hnone, hne.1]
  · exact h.instsInProgress
  · exact h.loadsInProgress
  · exact h.storesInProgress
  · exact h.toIEW
  · exact (h.told _).trans (hst.trans hne.2.symm)
  · intro hu
    rw [h.renameUnblock] at hu
    cases hu
  · rw [hw, if_neg Bool.false_ne_true, ← h.waiting]
    rfl
  · rw [← h.waiting]
    rfl
  · exact .running hrun (h.skidBuffer.trans (hi.skid hst)) h.blockThisCycle

theorem resumeSerialization_checked (hi : Inv s) (h : Sorted s group s1) (hs : s.renameStatus = .SerializeStall)
    (hw : w.fromCommit.squash = false) : ∃ s2, s1.resumeSerialization = .ok s2 ∧ Checked s group w s2 := by
  obtain ⟨x, hx⟩ := Option.isSome_iff_exists.1 (hi.serialize.2 hs)
  have hst : s.renameStatus.stalled = true := by rw [hs]; rfl
  have hl : Cpu.live [x.clearSerializeBefore] = Cpu.live s.serializeInst.toList := by
    rw [hx]
    exact x.clearSerializeBefore_same.live_cons []
  have hlen : [x.clearSerializeBefore].length = s.serializeInst.toList.length := by rw [hx]; rfl
  have hx1 := h.serializeInst.trans hx
  unfold resumeSerialization unblock
  by_cases hskid : s.skidBuffer = []
  · refine ⟨_, ?_, restart_checked hi h hst hskid hw hl hlen⟩
    simp [h.skidBuffer, hskid, hx1]
  · refine ⟨_, ?_, resume_checked hi h hst hskid hw hl hlen⟩
    simp [h.skidBuffer, hskid, hx1]

/-- **The signals are obeyed without a fault**, and where nothing is squashed no instruction is lost. -/
theorem checkSignalsAndUpdate_checked (hi : Inv s) (h : Sorted s group s1) (hp : Promised s group w)
    (hiew : s1.stallsIew = s.stallsIew) (hroom : (s.waiting ++ group).length ≤ p.skidBufferMax) :
    ∃ s2, s1.checkSignalsAndUpdate p w = .ok s2 ∧ Checked s group w s2 := by
  obtain ⟨hfree, hfreeIew⟩ := h.readFreeEntries w
  obtain ⟨s2, hread, h2⟩ := hfree.readStallSignals (w := w) (by rw [hfreeIew, hiew]; exact hp.iewUnblock)
  unfold checkSignalsAndUpdate
  rw [hread]
  simp only [bind, Except.bind]
  by_cases hsq : w.fromCommit.squash = true
  · rw [if_pos hsq]
    exact squash_checked hi h2 hsq (hp.squash hsq)
  rw [if_neg hsq]
  have hw : w.fromCommit.squash = false := by simpa using hsq
  by_cases hstall : s2.checkStall p w = true
  · rw [if_pos hstall]
    exact block_checked hi h2 hroom hw
  rw [if_neg hstall, h2.status]
  cases hs : s.renameStatus with
  | Blocked =>
    have hst : s.renameStatus.stalled = true := by rw [hs]; rfl
    have hnone := hi.serializeInst_none (by rw [hs]; decide)
    by_cases hskid : s.skidBuffer = []
    · refine ⟨_, ?_, restart_checked (l := []) hi h2 hst hskid hw (by rw [hnone]; rfl) (by rw [hnone]; rfl)⟩
      simp [unblock, h2.skidBuffer, hskid, h2.serializeInst, hnone, pure, Except.pure]
    · refine ⟨_, ?_, resume_checked (l := []) hi h2 hst hskid hw (by rw [hnone]; rfl) (by rw [hnone]; rfl)⟩
      simp [unblock, h2.skidBuffer, hskid, h2.serializeInst, hnone, pure, Except.pure]
  | SerializeStall =>
    simp only [reduceCtorEq, if_false, if_true]
    exact resumeSerialization_checked hi h2 hs hw
  | StartSquash => exact (hi.status hs).elim
  | Squashing =>
    have hser := h2.resumeSerialize.trans hi.resumeSerialize
    have hunb := h2.resumeUnblocking.trans hi.resumeUnblocking
    refine ⟨_, ?_, run_checked hi h2 (by rw [hs]; rfl) hw (.inl rfl)⟩
    simp [hser, hunb, pure, Except.pure]
  | Unblocking =>
    have hnone := hi.serializeInst_none (by rw [hs]; decide)
    have hc := resume_checked (l := []) hi h2 (by rw [hs]; rfl) (hi.unblocking hs) hw (by rw [hnone]; rfl)
      (by rw [hnone]; rfl)
    have hsame : { s2 with
        renameStatus := .Unblocking, skidBuffer := [] ++ s2.skidBuffer, serializeInst := none } = s2 := by
      rw [← h2.status.trans hs, ← h2.serializeInst.trans hnone, List.nil_append]
    rw [hsame] at hc
    exact ⟨s2, rfl, hc⟩
  | Running => exact ⟨s2, rfl, run_checked hi h2 (by rw [hs]; rfl) hw (.inl (h2.status.trans hs))⟩
  | Idle => exact ⟨s2, rfl, run_checked hi h2 (by rw [hs]; rfl) hw (.inr (h2.status.trans hs))⟩

end Checked

end DefaultRename

end Alpine.Cpu
