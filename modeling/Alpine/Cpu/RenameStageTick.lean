import Alpine.Cpu.RenameStageInv

/-!
# The second half of a tick

* `renameInsts_done` — `renameInsts` sends a beginning of what the stage holds, and blocks unless its queue
  is empty.
* `rename_done` — so does `rename`, and in the end decode has been told to stop exactly while the stage is
  stalled.
-/

namespace Alpine.Cpu

namespace DefaultRename

/-- Where the instructions are when some have been renamed. -/
inductive InstsPlace (s s' : DefaultRename) : Prop where
  | open (status : s'.renameStatus = s.renameStatus) (serializeInst : s'.serializeInst = none)
    (skid : s'.skidBuffer = []) (insts : s'.insts = if s.renameStatus = .Unblocking then s.insts else [])
    (renameBlock : s'.renameBlock = s.renameBlock) (renameUnblock : s'.renameUnblock = s.renameUnblock)
  | shut (status : s'.renameStatus = .Blocked ∧ s'.skidBuffer ≠ [] ∨ s'.renameStatus = .SerializeStall)
    (insts : s'.insts = [])
    (told : ∀ st, (s.renameStatus = .Unblocking → s.told st = true) → s'.told st = true)

/-- Some of what the stage holds has been sent, in order. -/
structure Sent (s s' : DefaultRename) : Prop where
  sent : live (s.skidBuffer ++ s.insts) = s'.toIEW.map DynInst.bare ++ live s'.waiting
  room : s'.waiting.length ≤ (s.skidBuffer ++ s.insts).length
  resumeSerialize : s'.resumeSerialize = s.resumeSerialize
  resumeUnblocking : s'.resumeUnblocking = s.resumeUnblocking
  instsInProgress : s.instsInProgress ≤ s'.instsInProgress
  loadsInProgress : s.loadsInProgress ≤ s'.loadsInProgress
  storesInProgress : s.storesInProgress ≤ s'.storesInProgress
  fromDecode : s'.fromDecode = s.fromDecode

/-- What `renameInsts` does. -/
structure InstsDone (s s' : DefaultRename) : Prop where
  sent : Sent s s'
  serialize : s'.serializeInst.isSome = true ↔ s'.renameStatus = .SerializeStall
  place : InstsPlace s s'

/-- The stage where instructions can be renamed. -/
structure Ready (s : DefaultRename) : Prop where
  serializeInst : s.serializeInst = none
  toIEW : s.toIEW = []
  resumeUnblocking : s.resumeUnblocking = false
  blockThisCycle : s.blockThisCycle = false
  status : s.renameStatus = .Unblocking ∧ s.skidBuffer ≠ [] ∨
    (s.renameStatus = .Running ∨ s.renameStatus = .Idle) ∧ s.skidBuffer = []

section Insts

variable {p : RenameParams} {w : Wires} {s : DefaultRename}

theorem Ready.waiting (h : Ready s) : s.waiting = s.skidBuffer ++ s.insts := by
  simp [DefaultRename.waiting, h.serializeInst]

theorem Ready.sent (h : Ready s) : Sent s s where
  sent := by rw [h.toIEW, h.waiting]; rfl
  room := by rw [h.waiting]
  resumeSerialize := rfl
  resumeUnblocking := rfl
  instsInProgress := le_refl _
  loadsInProgress := le_refl _
  storesInProgress := le_refl _
  fromDecode := rfl

/-- Blocking after some instructions have been renamed. -/
theorem Sent.block {s1 : DefaultRename} (hready : Ready s) (h : Sent s s1)
    (hroom : (s.skidBuffer ++ s.insts).length ≤ p.skidBufferMax)
    (hstatus : (s1.serializeInst = none ∧ s1.renameStatus = s.renameStatus ∧ s1.skidBuffer ++ s1.insts ≠ []) ∨
      (s1.serializeInst.isSome = true ∧ s1.renameStatus = .SerializeStall))
    (hblock : s1.renameBlock = s.renameBlock) (hunblock : s1.renameUnblock = s.renameUnblock) :
    ∃ s2, s1.block p = .ok s2 ∧ InstsDone s s2 ∧ InstsDone s { s2 with renameUnblock := false } := by
  have hlen : (s1.skidBuffer ++ s1.insts).length ≤ p.skidBufferMax := by
    have := h.room
    simp only [DefaultRename.waiting, List.length_append] at this hroom ⊢
    omega
  obtain ⟨s2, hrun, hb⟩ := block_ok p s1 hlen (h.resumeUnblocking.trans hready.resumeUnblocking)
  have hwaiting : s2.waiting = s1.waiting := by
    simp only [DefaultRename.waiting, hb.serializeInst, hb.skidBuffer, hb.insts, List.append_nil]
  have hsent : Sent s s2 := by
    constructor
    · rw [h.sent, hb.toIEW, hwaiting]
    · rw [hwaiting]
      exact h.room
    · rw [hb.resumeSerialize, h.resumeSerialize]
    · rw [hb.resumeUnblocking, h.resumeUnblocking]
    · rw [hb.instsInProgress]
      exact h.instsInProgress
    · rw [hb.loadsInProgress]
      exact h.loadsInProgress
    · rw [hb.storesInProgress]
      exact h.storesInProgress
    · rw [hb.fromDecode, h.fromDecode]
  have hser : s2.serializeInst.isSome = true ↔ s2.renameStatus = .SerializeStall := by
    rw [hb.serializeInst, hb.status]
    rcases hstatus with ⟨hnone, heq, _⟩ | ⟨hsome, heq⟩
    · rw [hnone, heq]
      rcases hready.status with ⟨hs, _⟩ | ⟨hs | hs, _⟩ <;> simp [hs]
    · simp [hsome, heq]
  have hshut : s2.renameStatus = .Blocked ∧ s2.skidBuffer ≠ [] ∨ s2.renameStatus = .SerializeStall := by
    rw [hb.status, hb.skidBuffer]
    rcases hstatus with ⟨_, heq, hne⟩ | ⟨_, heq⟩
    · refine .inl ⟨if_neg ?_, hne⟩
      rw [heq]
      rcases hready.status with ⟨hs, _⟩ | ⟨hs | hs, _⟩ <;> simp [hs]
    · exact .inr (if_pos heq)
  have htold : ∀ st, (s.renameStatus = .Unblocking → s.told st = true) → s2.told st = true := by
    intro st hst
    refine hb.told st ?_
    rcases hstatus with ⟨_, heq, _⟩ | ⟨_, heq⟩
    · rw [heq]
      rintro (hs | hs)
      · rcases hready.status with ⟨hs', _⟩ | ⟨hs' | hs', _⟩ <;> simp [hs] at hs'
      · have := hst hs
        unfold DefaultRename.told at this ⊢
        rwa [hblock, hunblock]
    · rw [heq]
      rintro (hs | hs) <;> cases hs
  refine ⟨s2, hrun, ⟨hsent, hser, .shut hshut hb.insts htold⟩, ?_⟩
  refine ⟨⟨hsent.1, hsent.2, hsent.3, hsent.4, hsent.5, hsent.6, hsent.7, hsent.8⟩, hser, .shut hshut hb.insts ?_⟩
  intro st hst
  have := htold st hst
  unfold DefaultRename.told at this ⊢
  simp only [Bool.and_eq_true] at this
  exact this.2

/-- The number of instructions to rename has been limited to `n`. -/
structure Limited (s : DefaultRename) (q : List DynInst) (sb : DefaultRename) (n : Nat) : Prop where
  kept : Kept s sb
  toIEW : sb.toIEW = []
  serializeInst : sb.serializeInst = none
  status : sb.renameStatus = s.renameStatus
  loadsInProgress : sb.loadsInProgress = s.loadsInProgress
  storesInProgress : sb.storesInProgress = s.storesInProgress
  le : n ≤ q.length
  short : sb.blockThisCycle = true ↔ n < q.length

theorem Ready.limit (h : Ready s) (q : List DynInst) {free : Int} (hfree : ¬ free ≤ 0) :
    Limited s q (if free < (q.length : Int) then { s with blockThisCycle := true } else s)
      (if free < (q.length : Int) then free.toNat else q.length) := by
  split
  · refine ⟨⟨rfl, rfl, rfl, rfl, rfl, rfl, rfl, rfl⟩, h.toIEW, h.serializeInst, rfl, rfl, rfl, ?_, ?_⟩
    · omega
    · simp only [true_iff]
      omega
  · refine ⟨.refl s, h.toIEW, h.serializeInst, rfl, rfl, rfl, le_refl _, ?_⟩
    simp [h.blockThisCycle]

theorem Limited.next {q : List DynInst} {sb : DefaultRename} {n : Nat} (h : Limited s q sb n) (b : Bool) :
    Kept s { sb with serializeOnNextInst := b } :=
  ⟨h.kept.1, h.kept.2, h.kept.3, h.kept.4, h.kept.5, h.kept.6, h.kept.7, h.kept.8⟩

/-- The instructions that are left have been put back. -/
structure PutBack (s2 s3 : DefaultRename) : Prop where
  resumeSerialize : s3.resumeSerialize = s2.resumeSerialize
  resumeUnblocking : s3.resumeUnblocking = s2.resumeUnblocking
  fromDecode : s3.fromDecode = s2.fromDecode
  serializeInst : s3.serializeInst = s2.serializeInst
  toIEW : s3.toIEW = s2.toIEW
  loadsInProgress : s3.loadsInProgress = s2.loadsInProgress
  storesInProgress : s3.storesInProgress = s2.storesInProgress
  instsInProgress : s3.instsInProgress = s2.instsInProgress
  status : s3.renameStatus = s2.renameStatus
  renameBlock : s3.renameBlock = s2.renameBlock
  renameUnblock : s3.renameUnblock = s2.renameUnblock
  blockThisCycle : s3.blockThisCycle = s2.blockThisCycle

theorem putBack (u : Bool) (q2 : List DynInst) (s2 : DefaultRename) :
    PutBack s2 (if u = true then { s2 with skidBuffer := q2 } else { s2 with insts := q2 }) := by
  cases u with
  | true => exact ⟨rfl, rfl, rfl, rfl, rfl, rfl, rfl, rfl, rfl, rfl, rfl, rfl⟩
  | false => exact ⟨rfl, rfl, rfl, rfl, rfl, rfl, rfl, rfl, rfl, rfl, rfl, rfl⟩

/-- They are in front of the instructions that have come from decode. -/
theorem putBack_waiting {u : Bool} {q2 : List DynInst} {s2 : DefaultRename} (hkept : Kept s s2)
    (hskid : u = false → s.skidBuffer = []) {s3 : DefaultRename}
    (hset : s3 = if u = true then { s2 with skidBuffer := q2 } else { s2 with insts := q2 }) :
    s3.skidBuffer ++ s3.insts = q2 ++ (if u = true then s.insts else []) ∧
      s3.insts = if u = true then s.insts else q2 := by
  rw [hset]
  cases u with
  | true => exact ⟨by rw [← hkept.insts]; rfl, hkept.insts⟩
  | false =>
    refine ⟨?_, rfl⟩
    show s2.skidBuffer ++ q2 = q2 ++ []
    rw [hkept.skidBuffer, hskid rfl, List.append_nil, List.nil_append]

/-- The loop sends a beginning of what the stage holds. -/
theorem LoopDone.sent_of {n k : Nat} {q q1 q2 o : List DynInst} {sb s2 s3 : DefaultRename} {c : Bool}
    (h : LoopDone n q1 { sb with serializeOnNextInst := c } k q2 s2) (hlim : Limited s q sb n)
    (hlive : live (s.skidBuffer ++ s.insts) = live (q1 ++ o))
    (hlen : (s.skidBuffer ++ s.insts).length = (q1 ++ o).length)
    (hrest : s3.skidBuffer ++ s3.insts = q2 ++ o) (hput : PutBack s2 s3) (b : Bool) : Sent s { s3 with
      instsInProgress := s3.instsInProgress + (s3.toIEW.length : Int)
      blockThisCycle := b } := by
  have hk := (hlim.next c).trans h.kept
  have hwaiting : waiting { s3 with
      instsInProgress := s3.instsInProgress + (s3.toIEW.length : Int)
      blockThisCycle := b } = s2.serializeInst.toList ++ (q2 ++ o) := by
    rw [← hrest, ← hput.serializeInst]
    rfl
  constructor
  · obtain ⟨out, hout, hl⟩ := h.sent
    have hto : s2.toIEW = out := by rw [hout, show _ = [] from hlim.toIEW, List.nil_append]
    rw [hwaiting, hlive, live_append, hl, show _ = _ from hput.toIEW, hto]
    simp
  · rw [hwaiting, hlen]
    have hcount := h.count
    have hle := h.le
    simp only [List.length_append] at hcount ⊢
    omega
  · exact hput.resumeSerialize.trans hk.resumeSerialize
  · exact hput.resumeUnblocking.trans hk.resumeUnblocking
  · show s.instsInProgress ≤ s3.instsInProgress + (s3.toIEW.length : Int)
    rw [hput.instsInProgress, hk.instsInProgress]
    omega
  · exact (hlim.loadsInProgress.symm.le.trans h.loads).trans hput.loadsInProgress.symm.le
  · exact (hlim.storesInProgress.symm.le.trans h.stores).trans hput.storesInProgress.symm.le
  · exact hput.fromDecode.trans hk.fromDecode

/-- The stage blocks exactly when instructions are left, unless one of them is held for serialization. -/
theorem LoopDone.left_iff {n k : Nat} {q q1 q2 : List DynInst} {sb s2 : DefaultRename} {c : Bool}
    (h : LoopDone n q1 { sb with serializeOnNextInst := c } k q2 s2) (hlim : Limited s q sb n)
    (hlen : q1.length = q.length) (hnone : s2.serializeInst = none) :
    (s2.blockThisCycle || k != 0) = true ↔ q2 ≠ [] := by
  have hle := hlim.le
  have hcount := h.count
  rw [hnone] at hcount
  simp only [Option.toList_none, List.length_nil] at hcount
  constructor
  · intro hblock hnil
    rw [hnil] at hcount
    simp only [List.length_nil] at hcount
    have hshort : 0 < k ∨ n < q.length := by
      rcases Bool.or_eq_true_iff.1 hblock with hb | hb
      · rcases h.blocked hb with hb | hb
        · exact .inr (hlim.short.1 hb)
        · exact .inl hb
      · exact .inl (Nat.pos_of_ne_zero (by simpa using hb))
    omega
  · intro hne
    by_contra hno
    have hb : s2.blockThisCycle = false ∧ k = 0 := by simpa using hno
    have hnot : ¬ n < q.length := by
      intro hlt
      have := h.blockThisCycle (hlim.short.2 hlt)
      rw [hb.1] at this
      cases this
    exact hne (List.length_eq_zero_iff.1 (by omega))

/-- **`renameInsts` runs through, and forwards a beginning of what the stage holds.** -/
theorem renameInsts_done (h : Ready s) (hroom : (s.skidBuffer ++ s.insts).length ≤ p.skidBufferMax) :
    ∃ s', s.renameInsts p w = .ok s' ∧ InstsDone s s' := by
  have hser : s.serializeInst.isSome = true ↔ s.renameStatus = .SerializeStall := by
    rw [h.serializeInst]
    rcases h.status with ⟨hs, _⟩ | ⟨hs | hs, _⟩ <;> simp [hs]
  unfold renameInsts
  dsimp only
  generalize hu : decide (s.renameStatus = .Unblocking) = u
  generalize hq : (if u = true then s.skidBuffer else s.insts) = q
  have hqs : s.skidBuffer ++ s.insts = q ++ (if u = true then s.insts else []) := by
    rw [← hq]
    rcases h.status with ⟨hs, _⟩ | ⟨hs | hs, hskid⟩ <;> rw [hs] at hu <;> subst hu
    · simp
    · simp [hskid]
    · simp [hskid]
  by_cases hempty : q = []
  · rw [if_pos hempty]
    refine ⟨s, rfl, h.sent, hser, ?_⟩
    rcases h.status with ⟨hs, hne⟩ | ⟨hs, hskid⟩
    · rw [hs] at hu
      subst hu
      exact (hne (hq.trans hempty)).elim
    · have hu' : u = false := by rw [← hu]; rcases hs with hs | hs <;> simp [hs]
      subst hu'
      refine .open rfl h.serializeInst hskid ?_ rfl rfl
      rw [if_neg (by simpa using hu)]
      exact hq.trans hempty
  rw [if_neg hempty]
  have hne : s.skidBuffer ++ s.insts ≠ [] := by
    rw [hqs]
    exact fun hnil => hempty (List.append_eq_nil_iff.1 hnil).1
  by_cases hfree : min (s.calcFreeROBEntries w) (s.calcFreeIQEntries w) ≤ 0
  · rw [if_pos hfree]
    have hs := h.sent
    have hs' : Sent s { s with blockThisCycle := true } :=
      ⟨hs.1, hs.2, hs.3, hs.4, hs.5, hs.6, hs.7, hs.8⟩
    obtain ⟨s2, hrun, hdone, _⟩ := hs'.block h hroom (.inl ⟨h.serializeInst, rfl, hne⟩) rfl rfl
    exact ⟨s2, hrun, hdone⟩
  rw [if_neg hfree]
  have hlim := h.limit q hfree
  generalize (if min (s.calcFreeROBEntries w) (s.calcFreeIQEntries w) < (q.length : Int) then
    { s with blockThisCycle := true } else s) = sb at hlim ⊢
  generalize (if min (s.calcFreeROBEntries w) (s.calcFreeIQEntries w) < (q.length : Int) then
    (min (s.calcFreeROBEntries w) (s.calcFreeIQEntries w)).toNat else q.length) = n at hlim ⊢
  obtain ⟨q1, c, hnext, hlive, hlen⟩ := serializeNext_spec q sb
  rw [hnext]
  obtain ⟨k, q2, s', hloop, hdone⟩ := renameLoop_done p w n q1 { sb with serializeOnNextInst := c }
    (by rw [hlen]; exact hlim.le) hlim.serializeInst
  simp only [hloop, bind, Except.bind]
  have hk := (hlim.next c).trans hdone.kept
  have hskid : u = false → s.skidBuffer = [] := by
    intro hno
    rcases h.status with ⟨hs, _⟩ | ⟨_, hskid⟩
    · simp [hs, hno] at hu
    · exact hskid
  have hput := putBack u q2 s'
  generalize hset : (if u = true then { s' with skidBuffer := q2 } else { s' with insts := q2 }) = s3 at hput ⊢
  obtain ⟨hq3, hi3⟩ := putBack_waiting hk hskid hset.symm
  clear hset
  have hsent : Sent s { s3 with
      instsInProgress := s3.instsInProgress + (s3.toIEW.length : Int)
      blockThisCycle := s3.blockThisCycle || k != 0 } := by
    refine hdone.sent_of hlim ?_ ?_ hq3 hput _
    · rw [hqs, live_append, live_append, hlive]
    · rw [hqs, List.length_append, List.length_append, hlen]
  have hleft := hdone.left_iff hlim hlen
  rw [← hput.blockThisCycle] at hleft
  by_cases hblock : (s3.blockThisCycle || k != 0) = true
  · rw [if_pos hblock]
    have hheld : (s3.serializeInst = none ∧ s3.renameStatus = s.renameStatus ∧ s3.skidBuffer ++ s3.insts ≠ []) ∨
        (s3.serializeInst.isSome = true ∧ s3.renameStatus = .SerializeStall) := by
      rw [hput.serializeInst, hput.status]
      rcases hdone.status with ⟨hn, hst⟩ | ⟨hsome, hst, _⟩
      · refine .inl ⟨hn, hst.trans hlim.status, ?_⟩
        rw [hq3]
        exact fun hnil => (hleft hn).1 hblock (List.append_eq_nil_iff.1 hnil).1
      · exact .inr ⟨hsome, hst⟩
    obtain ⟨s5, hrun, _, hdone5⟩ := hsent.block (p := p) h hroom hheld (hput.renameBlock.trans hk.renameBlock)
      (hput.renameUnblock.trans hk.renameUnblock)
    rw [hrun]
    exact ⟨_, rfl, hdone5⟩
  · rw [if_neg hblock]
    rcases hdone.status with ⟨hn, hst⟩ | ⟨_, _, hk0⟩
    · have hstat : s3.renameStatus = s.renameStatus := hput.status.trans (hst.trans hlim.status)
      have hall : q2 = [] := by
        by_contra hne
        exact hblock ((hleft hn).2 hne)
      subst hall
      refine ⟨_, rfl, hsent, ?_, ?_⟩
      · show s3.serializeInst.isSome = true ↔ s3.renameStatus = .SerializeStall
        rw [hput.serializeInst, hn, hstat, ← h.serializeInst]
        exact hser
      · refine .open hstat (hput.serializeInst.trans hn) ?_ ?_ (hput.renameBlock.trans hk.renameBlock)
          (hput.renameUnblock.trans hk.renameUnblock)
        · show s3.skidBuffer = []
          rw [hi3] at hq3
          cases u with
          | true => simpa using hq3
          | false => simpa using hq3
        · show s3.insts = _
          rw [hi3, ← hu]
          simp
    · simp only [Bool.or_eq_true, bne_iff_ne, not_or] at hblock
      omega

end Insts

/-! ## The whole tick -/

/-- What a tick leaves. -/
structure RenameDone (s : DefaultRename) (group : List DynInst) (s1 s2 : DefaultRename) : Prop where
  inv : Inv s2
  told : s2.told s.renameStatus.stalled = s2.renameStatus.stalled
  unblock : s2.renameUnblock = true → s.renameStatus.stalled = true
  sent : live s1.waiting = s2.toIEW.map DynInst.bare ++ live s2.waiting
  room : s2.waiting.length ≤ s1.waiting.length
  leftover : s2.renameStatus.stalled = false →
    s2.waiting.length ≤ group.length ∧ (s.renameStatus.stalled = true ∨ s2.waiting = [])
  instsInProgress : s1.instsInProgress ≤ s2.instsInProgress
  loadsInProgress : s1.loadsInProgress ≤ s2.loadsInProgress
  storesInProgress : s1.storesInProgress ≤ s2.storesInProgress

section Tick

variable {p : RenameParams} {s : DefaultRename} {group : List DynInst} {w : Wires} {s1 s2 : DefaultRename}

theorem waiting_eq_nil : s.waiting = [] ↔ s.serializeInst = none ∧ s.skidBuffer = [] ∧ s.insts = [] := by
  simp [waiting]

/-- Nothing is renamed while the stage squashes or is blocked. -/
theorem Checked.idle (h : Checked s group w s1) (hinsts : s1.insts = [])
    (hst : s1.renameStatus = .Squashing ∧ s1.waiting = [] ∨
      s1.renameStatus = .Blocked ∨ s1.renameStatus = .SerializeStall) : RenameDone s group s1 s1 := by
  constructor
  · constructor
    · exact h.resumeSerialize
    · exact h.resumeUnblocking
    · exact h.serialize
    · rcases hst with ⟨hs, _⟩ | hs | hs <;> simp [hs]
    · intro hstalled
      rcases hst with ⟨_, hw⟩ | hs | hs
      · exact (waiting_eq_nil.1 hw).2.1
      · rw [hs] at hstalled
        cases hstalled
      · rw [hs] at hstalled
        cases hstalled
    · rcases hst with ⟨hs, _⟩ | hs | hs <;> simp [hs]
    · exact fun hne => (hne hinsts).elim
  · exact h.told
  · exact h.unblock
  · rw [h.toIEW]
    rfl
  · exact le_refl _
  · intro hstalled
    rcases hst with ⟨_, hw⟩ | hs | hs
    · rw [hw]
      exact ⟨Nat.zero_le _, .inr rfl⟩
    · rw [hs] at hstalled
      cases hstalled
    · rw [hs] at hstalled
      cases hstalled
  · exact le_refl _
  · exact le_refl _
  · exact le_refl _

/-- The stage blocks, or holds an instruction for serialization. -/
theorem Checked.shut (h : Checked s group w s1) (hready : Ready s1) (hdone : InstsDone s1 s2)
    (hstatus : s2.renameStatus = .Blocked ∧ s2.skidBuffer ≠ [] ∨ s2.renameStatus = .SerializeStall)
    (hinsts : s2.insts = []) (htold : ∀ st, (s1.renameStatus = .Unblocking → s1.told st = true) → s2.told st = true) :
    RenameDone s group s1 s2 := by
  have hstalled : s2.renameStatus.stalled = true := by rcases hstatus with ⟨hs, _⟩ | hs <;> rw [hs] <;> rfl
  have ht : s2.told s.renameStatus.stalled = true := by
    refine htold _ fun hs => ?_
    rw [h.told, hs]
    rfl
  constructor
  · constructor
    · rw [hdone.sent.resumeSerialize, h.resumeSerialize]
    · rw [hdone.sent.resumeUnblocking, h.resumeUnblocking]
    · exact hdone.serialize
    · rcases hstatus with ⟨hs, _⟩ | hs <;> simp [hs]
    · intro hno
      rw [hstalled] at hno
      cases hno
    · rcases hstatus with ⟨hs, _⟩ | hs <;> simp [hs]
    · exact fun hne => (hne hinsts).elim
  · rw [ht, hstalled]
  · intro hu
    simp [DefaultRename.told, hu] at ht
  · rw [hready.waiting]
    exact hdone.sent.sent
  · rw [hready.waiting]
    exact hdone.sent.room
  · intro hno
    rw [hstalled] at hno
    cases hno
  · exact hdone.sent.instsInProgress
  · exact hdone.sent.loadsInProgress
  · exact hdone.sent.storesInProgress

/-- Everything has been renamed. -/
theorem Checked.ran (h : Checked s group w s1) (hready : Ready s1) (hdone : InstsDone s1 s2)
    (hrun : s1.renameStatus = .Running ∨ s1.renameStatus = .Idle) (hstatus : s2.renameStatus = s1.renameStatus)
    (hnone : s2.serializeInst = none) (hskid : s2.skidBuffer = []) (hinsts : s2.insts = [])
    (hblock : s2.renameBlock = s1.renameBlock) (hunblock : s2.renameUnblock = s1.renameUnblock) :
    RenameDone s group s1 s2 := by
  have hwaiting : s2.waiting = [] := waiting_eq_nil.2 ⟨hnone, hskid, hinsts⟩
  constructor
  · constructor
    · rw [hdone.sent.resumeSerialize, h.resumeSerialize]
    · rw [hdone.sent.resumeUnblocking, h.resumeUnblocking]
    · exact hdone.serialize
    · rcases hrun with hs | hs <;> simp [hstatus, hs]
    · exact fun _ => hskid
    · rcases hrun with hs | hs <;> simp [hstatus, hs]
    · exact fun hne => (hne hinsts).elim
  · rw [hstatus, ← h.told]
    unfold DefaultRename.told
    rw [hblock, hunblock]
  · intro hu
    exact h.unblock (hunblock.symm.trans hu)
  · rw [hready.waiting]
    exact hdone.sent.sent
  · rw [hready.waiting]
    exact hdone.sent.room
  · intro _
    rw [hwaiting]
    exact ⟨Nat.zero_le _, .inr rfl⟩
  · exact hdone.sent.instsInProgress
  · exact hdone.sent.loadsInProgress
  · exact hdone.sent.storesInProgress

theorem Checked.refilled (h : Checked s group w s1) (hready : Ready s1) (hdone : InstsDone s1 s2)
    (hrun : s1.renameStatus = .Unblocking) (hstatus : s2.renameStatus = s1.renameStatus)
    (hskid : s2.skidBuffer = []) (hinsts : s2.insts ≠ [])
    (hblock : s2.renameBlock = s1.renameBlock) (hunblock : s2.renameUnblock = s1.renameUnblock) :
    RenameDone s group s1 { s2 with skidBuffer := s2.skidBuffer ++ s2.insts, insts := [] } := by
  have hstatus : s2.renameStatus = .Unblocking := hstatus.trans hrun
  have hwaiting : ({ s2 with skidBuffer := s2.skidBuffer ++ s2.insts, insts := [] } : DefaultRename).waiting =
      s2.waiting := by
    simp [waiting]
  constructor
  · constructor
    · exact hdone.sent.resumeSerialize.trans h.resumeSerialize
    · exact hdone.sent.resumeUnblocking.trans h.resumeUnblocking
    · exact hdone.serialize
    · simp [hstatus]
    · intro hno
      rw [show _ = ThreadStatus.Unblocking from hstatus] at hno
      cases hno
    · intro _
      rw [hskid]
      exact hinsts
    · exact fun hne => (hne rfl).elim
  · show s2.told _ = s2.renameStatus.stalled
    rw [hstatus, ← hrun, ← h.told]
    unfold DefaultRename.told
    rw [hblock, hunblock]
  · intro hu
    exact h.unblock (hunblock.symm.trans hu)
  · rw [hready.waiting, hwaiting]
    exact hdone.sent.sent
  · rw [hready.waiting, hwaiting]
    exact hdone.sent.room
  · intro hno
    rw [show _ = ThreadStatus.Unblocking from hstatus] at hno
    cases hno
  · exact hdone.sent.instsInProgress
  · exact hdone.sent.loadsInProgress
  · exact hdone.sent.storesInProgress

theorem Checked.emptied (h : Checked s group w s1) (hready : Ready s1) (hdone : InstsDone s1 s2)
    (hstalled : s.renameStatus.stalled = true) (hnone : s2.serializeInst = none) (hskid : s2.skidBuffer = [])
    (hinsts : s2.insts = group) (hgroup : Cpu.live group = []) :
    RenameDone s group s1 { s2 with renameUnblock := true, renameStatus := .Running } := by
  have hwaiting : ({ s2 with renameUnblock := true, renameStatus := .Running } : DefaultRename).waiting =
      s2.waiting := rfl
  have hw : s2.waiting = group := by simp [waiting, hnone, hskid, hinsts]
  constructor
  · constructor
    · exact hdone.sent.resumeSerialize.trans h.resumeSerialize
    · exact hdone.sent.resumeUnblocking.trans h.resumeUnblocking
    · simp [hnone]
    · simp
    · exact fun _ => hskid
    · simp
    · intro _
      refine ⟨rfl, ?_⟩
      show Cpu.live s2.insts = []
      rw [hinsts, hgroup]
  · rfl
  · exact fun _ => hstalled
  · rw [hready.waiting, hwaiting]
    exact hdone.sent.sent
  · rw [hready.waiting, hwaiting]
    exact hdone.sent.room
  · intro _
    rw [hwaiting, hw]
    exact ⟨le_refl _, .inl hstalled⟩
  · exact hdone.sent.instsInProgress
  · exact hdone.sent.loadsInProgress
  · exact hdone.sent.storesInProgress

theorem validInsts_eq_zero : s.validInsts = 0 ↔ live s.fromDecode = [] := by
  simp [validInsts, live]

/-- **`rename` runs through, and forwards a beginning of what the stage holds.** -/
theorem rename_done (h : Checked s group w s1) (hroom : s1.waiting.length ≤ p.skidBufferMax) :
    ∃ s2, s1.rename p w = .ok s2 ∧ RenameDone s group s1 s2 := by
  unfold rename
  simp only [h.resumeSerialize, h.resumeUnblocking, Bool.false_eq_true, and_false, if_false, pure, Except.pure, bind,
    Except.bind]
  have hser : s1.renameStatus ≠ .SerializeStall → s1.serializeInst = none := by
    intro hne
    rw [← Option.not_isSome_iff_eq_none]
    exact fun hsome => hne (h.serialize.1 hsome)
  cases h.place with
  | squashing status waiting =>
    rw [status]
    exact ⟨s1, rfl, h.idle (waiting_eq_nil.1 waiting).2.2 (.inl ⟨status, waiting⟩)⟩
  | blocked status insts =>
    refine ⟨s1, ?_, h.idle insts (.inr status)⟩
    rcases status with hs | hs <;> rw [hs] <;> rfl
  | running status skid hblock =>
    have hne : s1.renameStatus ≠ .Unblocking ∧ s1.renameStatus ≠ .SerializeStall := by
      rcases status with hs | hs <;> rw [hs] <;> decide
    have hready : Ready s1 := ⟨hser hne.2, h.toIEW, h.resumeUnblocking, hblock, .inr ⟨status, skid⟩⟩
    rw [hready.waiting] at hroom
    obtain ⟨s2, hrun, hdone⟩ := renameInsts_done (w := w) hready hroom
    rw [if_pos status, hrun]
    refine ⟨s2, rfl, ?_⟩
    cases hdone.place with
    | «open» hst hnone hskid hinsts hb hu =>
      rw [if_neg hne.1] at hinsts
      exact h.ran hready hdone status hst hnone hskid hinsts hb hu
    | shut hst hinsts htold => exact h.shut hready hdone hst hinsts htold
  | unblocking status skid insts fromDecode stalled hblock =>
    have hready : Ready s1 :=
      ⟨hser (by rw [status]; decide), h.toIEW, h.resumeUnblocking, hblock, .inl ⟨status, skid⟩⟩
    rw [hready.waiting] at hroom
    obtain ⟨s2, hrun, hdone⟩ := renameInsts_done (w := w) hready hroom
    rw [if_neg (by rw [status]; decide), if_pos status, hrun]
    have hskidRoom : (s2.skidBuffer ++ s2.insts).length ≤ p.skidBufferMax := by
      have := hdone.sent.room
      simp only [waiting, List.length_append] at this hroom ⊢
      omega
    have hskid := skidInsert_ok p s2 hskidRoom
    dsimp only
    cases hdone.place with
    | «open» hst hnone hskidNil hinsts hb hu =>
      rw [if_pos status, insts] at hinsts
      by_cases hvalid : s2.validInsts = 0
      · have hgroup : live group = [] := by
          rw [← fromDecode, ← hdone.sent.fromDecode]
          exact validInsts_eq_zero.1 hvalid
        rw [if_neg (by simpa using hvalid)]
        refine ⟨_, ?_, h.emptied hready hdone stalled hnone hskidNil hinsts hgroup⟩
        simp [unblock, hskidNil, hst, status]
      · have hne : s2.insts ≠ [] := by
          rintro hnil
          rw [validInsts_eq_zero, hdone.sent.fromDecode, fromDecode, ← hinsts, hnil] at hvalid
          exact hvalid rfl
        rw [if_pos hvalid, hskid]
        refine ⟨_, ?_, h.refilled hready hdone status hst hskidNil hne hb hu⟩
        simp [unblock, hne]
    | shut hst hinsts htold =>
      have hsame : { s2 with skidBuffer := s2.skidBuffer ++ s2.insts, insts := [] } = s2 := by
        rw [hinsts, List.append_nil]
        simp [← hinsts]
      rw [hsame] at hskid
      refine ⟨s2, ?_, h.shut hready hdone hst hinsts htold⟩
      have hkeep : s2.unblock = s2 := by
        unfold unblock
        rcases hst with ⟨_, hne⟩ | hs
        · simp [hne]
        · simp [hs]
      split
      · rw [hskid]
        exact congrArg Except.ok hkeep
      · exact congrArg Except.ok hkeep

end Tick

end DefaultRename

end Alpine.Cpu
