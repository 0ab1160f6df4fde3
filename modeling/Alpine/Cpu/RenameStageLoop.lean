import Alpine.Cpu.RenameStage
import Alpine.Lib.Outcome

/-!
# What the loop of rename does

* `live` — the instructions of a list that are not squashed, apart from the bits that rename sets.
* `LoopDone`, `renameLoop_done` — the loop sends a beginning of its queue, and what it leaves is behind the
  instruction that it holds for serialization.
* `skidInsert_ok`, `block_ok` — blocking, where there is room.
-/

namespace Alpine.Cpu

/-- The instruction without the bits of its status. -/
def DynInst.bare (x : DynInst) : DynInst :=
  { x with serializeBefore := false, serializeAfter := false, serializeHandled := false, squashed := false }

def live (l : List DynInst) : List DynInst :=
  (l.filter (!·.squashed)).map DynInst.bare

@[simp] theorem live_nil : live [] = [] := rfl

@[simp] theorem live_append (l m : List DynInst) : live (l ++ m) = live l ++ live m := by
  simp [live]

theorem live_cons_squashed {x : DynInst} (l : List DynInst) (h : x.squashed = true) : live (x :: l) = live l := by
  simp [live, h]

theorem live_cons {x : DynInst} (l : List DynInst) (h : x.squashed = false) : live (x :: l) = x.bare :: live l := by
  simp [live, h]

/-- An instruction whose bits for serialization alone have changed. -/
structure DynInst.Same (x y : DynInst) : Prop where
  bare : x.bare = y.bare
  squashed : x.squashed = y.squashed

theorem DynInst.Same.live_cons {x y : DynInst} (h : x.Same y) (l : List DynInst) : live (x :: l) = live (y :: l) := by
  cases hx : x.squashed with
  | true => rw [live_cons_squashed l hx, live_cons_squashed l (h.squashed.symm.trans hx)]
  | false => rw [Cpu.live_cons l hx, Cpu.live_cons l (h.squashed.symm.trans hx), h.bare]

theorem DynInst.setSerializeBefore_same (x : DynInst) : x.setSerializeBefore.Same x := ⟨rfl, rfl⟩

theorem DynInst.clearSerializeBefore_same (x : DynInst) : x.clearSerializeBefore.Same x := ⟨rfl, rfl⟩

theorem DynInst.setSerializeHandled_same (x : DynInst) : x.setSerializeHandled.Same x := ⟨rfl, rfl⟩

theorem DynInst.Same.ite {x y z : DynInst} (hy : y.Same x) (hz : z.Same x) (c : Prop) [Decidable c] :
    (if c then y else z).Same x := by
  split
  · exact hy
  · exact hz

namespace DefaultRename

/-- The instructions that the stage holds, in the order in which it sends them. -/
def waiting (s : DefaultRename) : List DynInst :=
  s.serializeInst.toList ++ (s.skidBuffer ++ s.insts)

/-! ## Marks on the next instruction -/

/-- The parts of the stage that the loop leaves alone. -/
structure Kept (s s' : DefaultRename) : Prop where
  insts : s'.insts = s.insts
  skidBuffer : s'.skidBuffer = s.skidBuffer
  resumeSerialize : s'.resumeSerialize = s.resumeSerialize
  resumeUnblocking : s'.resumeUnblocking = s.resumeUnblocking
  instsInProgress : s'.instsInProgress = s.instsInProgress
  fromDecode : s'.fromDecode = s.fromDecode
  renameBlock : s'.renameBlock = s.renameBlock
  renameUnblock : s'.renameUnblock = s.renameUnblock

theorem Kept.refl (s : DefaultRename) : Kept s s := ⟨rfl, rfl, rfl, rfl, rfl, rfl, rfl, rfl⟩

theorem Kept.trans {s1 s2 s3 : DefaultRename} (h : Kept s1 s2) (h' : Kept s2 s3) : Kept s1 s3 :=
  ⟨h'.insts.trans h.insts, h'.skidBuffer.trans h.skidBuffer, h'.resumeSerialize.trans h.resumeSerialize,
    h'.resumeUnblocking.trans h.resumeUnblocking, h'.instsInProgress.trans h.instsInProgress,
    h'.fromDecode.trans h.fromDecode, h'.renameBlock.trans h.renameBlock,
    h'.renameUnblock.trans h.renameUnblock⟩

theorem serializeAfter_spec (queue : List DynInst) (s : DefaultRename) :
    ∃ queue' b, serializeAfter queue s = (queue', { s with serializeOnNextInst := b }) ∧
      live queue' = live queue ∧ queue'.length = queue.length := by
  cases queue with
  | nil => exact ⟨[], true, rfl, rfl, rfl⟩
  | cons x rest =>
    exact ⟨x.setSerializeBefore :: rest, s.serializeOnNextInst, rfl,
      x.setSerializeBefore_same.live_cons rest, rfl⟩

theorem serializeAfter_ite (c : Bool) (queue : List DynInst) (s : DefaultRename) :
    ∃ queue' b, (if c then serializeAfter queue s else (queue, s)) =
      (queue', { s with serializeOnNextInst := b }) ∧ live queue' = live queue ∧ queue'.length = queue.length := by
  cases c with
  | true => exact serializeAfter_spec queue s
  | false => exact ⟨queue, s.serializeOnNextInst, rfl, rfl, rfl⟩

theorem serializeNext_spec (queue : List DynInst) (s : DefaultRename) :
    ∃ queue' b, serializeNext queue s = (queue', { s with serializeOnNextInst := b }) ∧
      live queue' = live queue ∧ queue'.length = queue.length := by
  unfold serializeNext
  split
  · split
    · exact ⟨queue, false, rfl, rfl, rfl⟩
    · cases queue with
      | nil => exact ⟨[], s.serializeOnNextInst, rfl, rfl, rfl⟩
      | cons x rest =>
        exact ⟨x.setSerializeBefore :: rest, s.serializeOnNextInst, rfl,
          x.setSerializeBefore_same.live_cons rest, rfl⟩
  · exact ⟨queue, s.serializeOnNextInst, rfl, rfl, rfl⟩

/-! ## The loop -/

/-- What the loop does with `n` available instructions, of which it leaves `k`. -/
structure LoopDone (n : Nat) (queue : List DynInst) (s : DefaultRename) (k : Nat) (queue' : List DynInst)
    (s' : DefaultRename) : Prop where
  kept : Kept s s'
  sent : ∃ out, s'.toIEW = s.toIEW ++ out ∧
    live queue = out.map DynInst.bare ++ live (s'.serializeInst.toList ++ queue')
  loads : s.loadsInProgress ≤ s'.loadsInProgress
  stores : s.storesInProgress ≤ s'.storesInProgress
  count : queue'.length + s'.serializeInst.toList.length + n = queue.length + k
  le : k ≤ n
  status : (s'.serializeInst = none ∧ s'.renameStatus = s.renameStatus) ∨
    (s'.serializeInst.isSome = true ∧ s'.renameStatus = .SerializeStall ∧ 0 < k)
  blocked : s'.blockThisCycle = true → s.blockThisCycle = true ∨ 0 < k
  blockThisCycle : s.blockThisCycle = true → s'.blockThisCycle = true

theorem LoopDone.stop (n : Nat) (queue : List DynInst) {s : DefaultRename} (hs : s.serializeInst = none) :
    LoopDone n queue s n queue s where
  kept := .refl s
  sent := ⟨[], by simp, by simp [hs]⟩
  loads := le_refl _
  stores := le_refl _
  count := by simp [hs]
  le := le_refl _
  status := .inl ⟨hs, rfl⟩
  blocked := .inl
  blockThisCycle := id

theorem LoopDone.blocking {n k : Nat} {queue queue' : List DynInst} {s s' : DefaultRename}
    (h : LoopDone n queue s k queue' s') (hk : 0 < k) :
    LoopDone n queue s k queue' { s' with blockThisCycle := true } where
  kept := ⟨h.kept.insts, h.kept.skidBuffer, h.kept.resumeSerialize, h.kept.resumeUnblocking,
    h.kept.instsInProgress, h.kept.fromDecode, h.kept.renameBlock, h.kept.renameUnblock⟩
  sent := h.sent
  loads := h.loads
  stores := h.stores
  count := h.count
  le := h.le
  status := h.status
  blocked := fun _ => .inr hk
  blockThisCycle := fun _ => rfl

theorem LoopDone.hold (n : Nat) (inst : DynInst) (rest : List DynInst) (s : DefaultRename) :
    LoopDone (n + 1) (inst :: rest) s (n + 1) rest { s with
      renameStatus := .SerializeStall
      serializeInst := some (if inst.isTempSerializeBefore then inst else inst.setSerializeHandled)
      blockThisCycle := true } where
  kept := ⟨rfl, rfl, rfl, rfl, rfl, rfl, rfl, rfl⟩
  sent := by
    have hsame := DynInst.Same.ite ⟨rfl, rfl⟩ inst.setSerializeHandled_same (inst.isTempSerializeBefore = true)
    exact ⟨[], by simp, (hsame.live_cons rest).symm⟩
  loads := le_refl _
  stores := le_refl _
  count := by simp
  le := le_refl _
  status := .inr ⟨rfl, rfl, Nat.succ_pos n⟩
  blocked := fun _ => .inr (Nat.succ_pos n)
  blockThisCycle := fun _ => rfl

theorem LoopDone.next {n k : Nat} {inst inst' : DynInst} {rest rest' queue' : List DynInst}
    {s s1 s' : DefaultRename} (h : LoopDone n rest' s1 k queue' s') (hkept : Kept s s1)
    (hlive : live rest' = live rest) (hlen : rest'.length = rest.length)
    (hsent : (inst.squashed = true ∧ s1.toIEW = s.toIEW) ∨
      (inst.squashed = false ∧ inst'.bare = inst.bare ∧ s1.toIEW = s.toIEW ++ [inst']))
    (hloads : s.loadsInProgress ≤ s1.loadsInProgress) (hstores : s.storesInProgress ≤ s1.storesInProgress)
    (hstatus : s1.renameStatus = s.renameStatus) (hblock : s1.blockThisCycle = s.blockThisCycle) :
    LoopDone (n + 1) (inst :: rest) s k queue' s' where
  kept := hkept.trans h.kept
  sent := by
    obtain ⟨out, hto, hl⟩ := h.sent
    rcases hsent with ⟨hsq, hto1⟩ | ⟨hsq, hbare, hto1⟩
    · exact ⟨out, by rw [hto, hto1], by rw [live_cons_squashed rest hsq, ← hlive, hl]⟩
    · refine ⟨inst' :: out, by rw [hto, hto1, List.append_assoc, List.singleton_append], ?_⟩
      rw [live_cons rest hsq, ← hlive, hl, List.map_cons, hbare, List.cons_append]
  loads := hloads.trans h.loads
  stores := hstores.trans h.stores
  count := by
    have := h.count
    simp only [List.length_cons]
    omega
  le := Nat.le_succ_of_le h.le
  status := by rw [← hstatus]; exact h.status
  blocked := by rw [← hblock]; exact h.blocked
  blockThisCycle := by rw [← hblock]; exact h.blockThisCycle

/-- **The loop runs through, and forwards a beginning of its queue.** -/
theorem renameLoop_done (p : RenameParams) (w : Wires) : ∀ (n : Nat) (queue : List DynInst)
    (s : DefaultRename), n ≤ queue.length → s.serializeInst = none →
      ∃ k queue' s', renameLoop p w n queue s = .ok (k, queue', s') ∧ LoopDone n queue s k queue' s'
  | 0, queue, s, _, hs => ⟨0, queue, s, by unfold renameLoop; rfl, .stop 0 queue hs⟩
  | n + 1, [], s, hn, _ => by simp at hn
  | n + 1, inst :: rest, s, hn, hs => by
    have hlen : n ≤ rest.length := by simpa using hn
    have hstop := LoopDone.stop (n + 1) (inst :: rest) hs
    unfold renameLoop
    split
    · dsimp only
      split
      · exact ⟨_, _, _, rfl, hstop⟩
      · split
        · exact ⟨_, _, _, rfl, hstop⟩
        · split
          · rename_i hsq
            obtain ⟨k, queue', s', hrun, hdone⟩ := renameLoop_done p w n rest s hlen hs
            have hsent : (inst.squashed = true ∧ s.toIEW = s.toIEW) ∨
                (inst.squashed = false ∧ inst.bare = inst.bare ∧ s.toIEW = s.toIEW ++ [inst]) := .inl ⟨hsq, rfl⟩
            exact ⟨k, queue', s', hrun, hdone.next (.refl s) rfl rfl hsent (le_refl _) (le_refl _) rfl rfl⟩
          · rename_i hsq
            have hsq : inst.squashed = false := by simpa using hsq
            split
            · exact ⟨_, _, _, rfl, hstop.blocking (Nat.succ_pos n)⟩
            · split
              · exact ⟨_, _, _, rfl, .hold n inst rest s⟩
              · -- the next instruction may be marked
                obtain ⟨rest', b, hafter, hlive, hl⟩ := serializeAfter_ite
                  ((inst.isStoreConditional || inst.isSerializeAfter) && !inst.serializeHandled) rest s
                rw [hafter]
                dsimp only
                generalize hin : (if ((inst.isStoreConditional || inst.isSerializeAfter) &&
                  !inst.serializeHandled) = true then inst.setSerializeHandled else inst) = inst'
                have hsame : inst'.Same inst := by
                  rw [← hin]
                  exact .ite inst.setSerializeHandled_same ⟨rfl, rfl⟩ _
                obtain ⟨k, queue', s', hrun, hdone⟩ := renameLoop_done p w n rest'
                  { s with
                    serializeOnNextInst := b
                    loadsInProgress := if inst'.isLoad then s.loadsInProgress + 1 else s.loadsInProgress
                    storesInProgress := if inst'.isStore then s.storesInProgress + 1 else s.storesInProgress
                    toIEW := s.toIEW ++ [inst'] } (by rw [hl]; exact hlen) hs
                refine ⟨k, queue', s', hrun, hdone.next ⟨rfl, rfl, rfl, rfl, rfl, rfl, rfl, rfl⟩ hlive hl
                  (.inr ⟨hsq, hsame.bare, rfl⟩) ?_ ?_ rfl rfl⟩
                · dsimp only
                  split <;> omega
                · dsimp only
                  split <;> omega
    · exact ⟨_, _, _, rfl, hstop⟩

end DefaultRename

end Alpine.Cpu
