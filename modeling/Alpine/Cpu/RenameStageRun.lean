import Alpine.Cpu.RenameStageTick

/-!
# Rename forwards every instruction once and in order

* `RenameCycle.queue` — a cycle of rename as a cycle of a queue that drops what commit squashes.
* `tick_done` — a tick is such a cycle, and it runs through.
* `SystemInv` — decode knows when to stop, and what it has sent finds room in the skid buffer.
* `renames_in_order` — **the instructions sent to IEW are those that decode has sent and commit has not
  squashed, each once and in the order of their numbers, and none of the others is lost**, if commit's numbers
  are below all that waits; `squash_drops_skid` is about another number.
-/

namespace Alpine.Cpu

open DefaultRename

namespace RenameCycle

/-- Commit squashes the instruction in this cycle. -/
def squashes (c : RenameCycle) (x : DynInst) : Bool :=
  match c.squash with
  | none => false
  | some n => n < x.seqNum

def queue (c : RenameCycle) : Fifo.Cycle DynInst where
  input := live c.fromDecode
  dropped := c.squashes
  output := c.toIEW.map DynInst.bare

end RenameCycle

/-- A cycle of the stage. -/
def DefaultRename.cycle (fromDecode : List DynInst) (w : Wires) (s : DefaultRename) : RenameCycle where
  fromDecode := fromDecode
  squash := if w.fromCommit.squash then some w.fromCommit.doneSeqNum else none
  toIEW := s.toIEW

section Tick

variable {p : RenameParams} {s : DefaultRename} {group : List DynInst} {w : Wires}

/-- What a tick does. -/
structure TickDone (s : DefaultRename) (group : List DynInst) (w : Wires) (s' : DefaultRename) : Prop where
  inv : DefaultRename.Inv s'
  told : s'.told s.renameStatus.stalled = s'.renameStatus.stalled
  unblock : s'.renameUnblock = true → s.renameStatus.stalled = true
  step : Fifo.Step (live s.waiting) (s'.cycle group w).queue (live s'.waiting)
  room : s'.waiting.length ≤ (s.waiting ++ group).length
  leftover : s'.renameStatus.stalled = false →
    s'.waiting.length ≤ group.length ∧ (s.renameStatus.stalled = true ∨ s'.waiting = [])

theorem mem_live {x : DynInst} {l : List DynInst} : x ∈ live l ↔ ∃ y ∈ l, y.squashed = false ∧ y.bare = x := by
  simp [live, and_assoc]

/-- **A tick runs through, and is a cycle of a queue.** -/
theorem tick_done (hi : DefaultRename.Inv s) (hp : Promised s group w)
    (hroom : (s.waiting ++ group).length ≤ p.skidBufferMax) :
    ∃ s', s.tick p group w = .ok s' ∧ TickDone s group w s' := by
  obtain ⟨s1, hcheck, h1⟩ := checkSignalsAndUpdate_checked hi (sortInsts_sorted s group) hp rfl hroom
  obtain ⟨s2, hrename, h2⟩ := rename_done (w := w) h1 (h1.room.trans hroom)
  have hinsts := hp.insts.trans (h1.instsInProgress.symm.le.trans h2.instsInProgress)
  have hloads := hp.loads.trans (h1.loadsInProgress.symm.le.trans h2.loadsInProgress)
  have hstores := hp.stores.trans (h1.storesInProgress.symm.le.trans h2.storesInProgress)
  unfold tick
  rw [hcheck]
  simp only [bind, Except.bind, hrename, updateProgress, renameAssert, ge_iff_le, sub_nonneg, hinsts, hloads, hstores,
    if_true]
  refine ⟨_, rfl, ?_⟩
  constructor
  · exact ⟨h2.inv.1, h2.inv.2, h2.inv.3, h2.inv.4, h2.inv.5, h2.inv.6, h2.inv.7⟩
  · exact h2.told
  · exact h2.unblock
  · show (live s.waiting ++ live group).filter _ = s2.toIEW.map DynInst.bare ++ live s2.waiting
    rw [← h2.sent, h1.live, ← live_append]
    cases hsq : w.fromCommit.squash with
    | false =>
      rw [if_neg Bool.false_ne_true]
      refine List.filter_eq_self.2 fun x _ => ?_
      simp [RenameCycle.queue, RenameCycle.squashes, cycle, hsq]
    | true =>
      rw [if_pos rfl, List.filter_eq_nil_iff]
      intro x hx
      obtain ⟨y, hy, _, rfl⟩ := mem_live.1 hx
      have := hp.squash hsq y hy
      simpa [RenameCycle.queue, RenameCycle.squashes, cycle, hsq, DynInst.bare] using this
  · exact h2.room.trans h1.room
  · exact h2.leftover

end Tick

/-! ## With decode -/

namespace System

variable {p : RenameParams}

/-- What decode, IEW and commit promise in a cycle: decode sends no more than its width, and nothing while
it is told to stop. -/
structure Legal (p : RenameParams) (y : System) (group : List DynInst) (w : Wires) : Prop where
  width : group.length ≤ p.decodeWidth
  stalled : y.decodeStalled = true → group = []
  promised : Promised y.rename ((y.decodeQueue ++ [group]).headD []) w

/-- Every cycle of a run is legal. -/
def LegalRun (p : RenameParams) : System → List (List DynInst × Wires) → Prop
  | _, [] => True
  | y, (group, w) :: rest =>
    Legal p y group w ∧ ∀ y' c, y.step p group w = .ok (y', c) → LegalRun p y' rest

/-- The instructions that decode has sent and rename has not received. -/
def inFlight (y : System) : Nat :=
  (y.decodeQueue.map List.length).sum

structure SystemInv (p : RenameParams) (y : System) : Prop where
  inv : DefaultRename.Inv y.rename
  told : y.decodeStalled = y.rename.renameStatus.stalled
  unblock : y.rename.renameUnblock = true → y.stallsRename = true
  length : y.decodeQueue.length = p.decodeToRenameDelay
  width : ∀ g ∈ y.decodeQueue, g.length ≤ p.decodeWidth
  room : y.rename.waiting.length + y.inFlight ≤ p.skidBufferMax
  running : y.rename.renameStatus.stalled = false →
    y.rename.waiting.length + y.inFlight ≤ p.decodeToRenameDelay * p.decodeWidth

theorem inFlight_le {n : Nat} {l : List (List DynInst)} (h : ∀ g ∈ l, g.length ≤ n) :
    (l.map List.length).sum ≤ l.length * n := by
  have := List.sum_le_card_nsmul (l.map List.length) n (by simpa using h)
  simpa using this

theorem start_inv (entries : FreeEntries) : SystemInv p (start p entries) where
  inv := inv_start entries
  told := rfl
  unblock := fun h => (nomatch h)
  length := List.length_replicate
  width := by
    intro g hg
    rw [List.eq_of_mem_replicate hg]
    exact Nat.zero_le _
  room := by simp [start, inFlight, waiting]
  running := by simp [start, inFlight, waiting]

theorem SystemInv.step {y : System} (h : SystemInv p y) {group : List DynInst} {w : Wires}
    (hl : Legal p y group w) : ∃ y' c, y.step p group w = .ok (y', c) ∧ SystemInv p y' ∧
      Fifo.Step (live y.rename.waiting) c.queue (live y'.rename.waiting) := by
  obtain ⟨arriving, rest, hq⟩ := List.exists_cons_of_ne_nil (List.append_ne_nil_of_right_ne_nil y.decodeQueue
    (List.cons_ne_nil group []))
  have hlen : rest.length = p.decodeToRenameDelay := by
    have := congrArg List.length hq
    simp only [List.length_append, List.length_cons, List.length_nil, h.length] at this
    omega
  have hsum : y.inFlight + group.length = arriving.length + (rest.map List.length).sum := by
    have := congrArg (fun l => (l.map List.length).sum) hq
    simpa [inFlight] using this
  have hwidth : ∀ g ∈ arriving :: rest, g.length ≤ p.decodeWidth := by
    rw [← hq]
    intro g hg
    rcases List.mem_append.1 hg with hg | hg
    · exact h.width g hg
    · rw [List.mem_singleton.1 hg]
      exact hl.width
  have hrest := inFlight_le fun g hg => hwidth g (List.mem_cons_of_mem arriving hg)
  have hmax : p.skidBufferMax = p.decodeToRenameDelay * p.decodeWidth + p.decodeWidth := by
    rw [RenameParams.skidBufferMax, Nat.add_mul, Nat.one_mul]
  -- a stage that is stalled gets nothing new, and one that is not has room for a group
  have hroom : (y.rename.waiting ++ arriving).length + (rest.map List.length).sum ≤ p.skidBufferMax := by
    rw [List.length_append]
    cases hst : y.rename.renameStatus.stalled with
    | true =>
      have hnil : group.length = 0 := by rw [hl.stalled (h.told.trans hst)]; rfl
      have := h.room
      omega
    | false =>
      have := h.running hst
      have := hl.width
      omega
  have hp := hl.promised
  rw [hq, List.headD_cons] at hp
  obtain ⟨s', hrun, hdone⟩ := tick_done h.inv hp (le_trans (Nat.le_add_right _ _) hroom)
  have hassert : y.rename.renameUnblock = true → y.rename.renameBlock = true ∨ y.stallsRename = true :=
    fun hu => .inr (h.unblock hu)
  unfold System.step renameAssert
  rw [hq, if_pos hassert]
  simp only [bind, Except.bind, List.headD_cons, hrun]
  refine ⟨_, _, rfl, ?_, ?_⟩
  swap
  · exact hdone.step
  constructor
  · exact hdone.inv
  · show s'.told y.decodeStalled = _
    rw [h.told]
    exact hdone.told
  · intro hu
    exact h.told.trans (hdone.unblock hu)
  · exact hlen
  · exact fun g hg => hwidth g (List.mem_cons_of_mem arriving hg)
  · have := hdone.room
    show s'.waiting.length + (rest.map List.length).sum ≤ _
    omega
  · intro hst
    obtain ⟨hle, hor⟩ := hdone.leftover hst
    show s'.waiting.length + (rest.map List.length).sum ≤ _
    rw [hlen] at hrest
    rcases hor with hwas | hnil
    · have hnil : group.length = 0 := by rw [hl.stalled (h.told.trans hwas)]; rfl
      have hq := inFlight_le h.width
      rw [h.length] at hq
      have : y.inFlight ≤ p.decodeToRenameDelay * p.decodeWidth := hq
      omega
    · rw [hnil]
      simpa using hrest

theorem run_fifo : ∀ {is : List (List DynInst × Wires)} {y : System}, SystemInv p y → LegalRun p y is →
    ∃ y' cs, y.run p is = .ok (y', cs) ∧ SystemInv p y' ∧
      Fifo.Run (live y.rename.waiting) (cs.map RenameCycle.queue) (live y'.rename.waiting)
  | [], y, h, _ => ⟨y, [], rfl, h, rfl⟩
  | (group, w) :: is, y, h, hl => by
    obtain ⟨hlegal, hrest⟩ := hl
    obtain ⟨y1, c, hstep, h1, hfifo⟩ := h.step hlegal
    obtain ⟨y', cs, hrun, h', hq⟩ := run_fifo h1 (hrest y1 c hstep)
    refine ⟨y', c :: cs, ?_, h', _, hfifo, hq⟩
    simp only [System.run, hstep, bind, Except.bind, hrun]
    rfl

/-- What decode sends arrives, in its order. -/
theorem step_received {y y' : System} {group : List DynInst} {w : Wires} {c : RenameCycle}
    (h : y.step p group w = .ok (y', c)) :
    y.decodeQueue.flatten ++ group = c.fromDecode ++ y'.decodeQueue.flatten := by
  simp only [System.step, bind_ok_iff] at h
  obtain ⟨_, _, s', _, hret⟩ := h
  cases hret
  obtain ⟨arriving, rest, hq⟩ := List.exists_cons_of_ne_nil (List.append_ne_nil_of_right_ne_nil y.decodeQueue
    (List.cons_ne_nil group []))
  have hflat := congrArg List.flatten hq
  simp only [List.flatten_append, List.flatten_cons, List.flatten_nil, List.append_nil] at hflat
  rw [hq]
  exact hflat

theorem run_received : ∀ {is : List (List DynInst × Wires)} {y y' : System} {cs : List RenameCycle},
    y.run p is = .ok (y', cs) → y.decodeQueue.flatten ++ is.flatMap Prod.fst =
        cs.flatMap RenameCycle.fromDecode ++ y'.decodeQueue.flatten
  | [], y, y', cs, h => by
    cases h
    simp
  | (group, w) :: is, y, y', cs, h => by
    simp only [System.run, bind_ok_iff] at h
    obtain ⟨⟨y1, c⟩, hstep, ⟨y2, cs'⟩, hrun, hret⟩ := h
    cases hret
    rw [List.flatMap_cons, ← List.append_assoc, step_received hstep, List.append_assoc, run_received hrun,
      List.flatMap_cons, List.append_assoc]

end System

/-! ## The instructions of a run -/

/-- The instructions have increasing numbers. -/
abbrev InOrder (l : List DynInst) : Prop :=
  l.Pairwise fun x x' => x.seqNum < x'.seqNum

theorem InOrder.live {l : List DynInst} (h : InOrder l) : InOrder (live l) := by
  have hkept : InOrder (l.filter fun x => !x.squashed) := List.Pairwise.sublist List.filter_sublist h
  exact List.pairwise_map.2 hkept

theorem queue_input (cs : List RenameCycle) :
    (cs.map RenameCycle.queue).flatMap Fifo.Cycle.input = live (cs.flatMap RenameCycle.fromDecode) := by
  induction cs with
  | nil => rfl
  | cons c cs ih =>
    rw [List.map_cons, List.flatMap_cons, List.flatMap_cons, live_append, ih]
    rfl

theorem queue_output (cs : List RenameCycle) :
    (cs.map RenameCycle.queue).flatMap Fifo.Cycle.output = (cs.flatMap RenameCycle.toIEW).map DynInst.bare := by
  induction cs with
  | nil => rfl
  | cons c cs ih =>
    rw [List.map_cons, List.flatMap_cons, List.flatMap_cons, List.map_append, ih]
    rfl

theorem RenameCycle.squashes_bare (c : RenameCycle) (x : DynInst) : c.squashes x.bare = c.squashes x := rfl

/-- **Rename forwards every instruction once and in order.**  A run in which decode, IEW and commit keep what
they promise fails no assertion.  What is sent to IEW has increasing numbers, it has been received from
decode and not been squashed before, and what has been received and not been squashed is sent or waits. -/
theorem renames_in_order {p : RenameParams} {entries : FreeEntries} {is : List (List DynInst × Wires)}
    (hlegal : System.LegalRun p (System.start p entries) is) (horder : InOrder (is.flatMap Prod.fst)) :
    ∃ y cs, (System.start p entries).run p is = .ok (y, cs) ∧ InOrder (cs.flatMap RenameCycle.toIEW) ∧
      (∀ pre c post x, cs = pre ++ c :: post → x ∈ c.toIEW →
        ∃ pre₁ c₁ mid, pre ++ [c] = pre₁ ++ c₁ :: mid ∧ ∃ x₁ ∈ c₁.fromDecode, x₁.bare = x.bare ∧
          x₁.squashed = false ∧ ∀ c' ∈ c₁ :: mid, c'.squashes x₁ = false) ∧
      (∀ pre c post x, cs = pre ++ c :: post → x ∈ c.fromDecode → x.squashed = false →
        (∀ c' ∈ c :: post, c'.squashes x = false) → (∃ c' ∈ c :: post, ∃ x' ∈ c'.toIEW, x'.bare = x.bare) ∨
            ∃ x' ∈ y.rename.waiting, x'.bare = x.bare) := by
  obtain ⟨y, cs, hrun, _, hfifo⟩ := System.run_fifo (System.start_inv entries) hlegal
  have hfifo : Fifo.Run [] (cs.map RenameCycle.queue) (live y.rename.waiting) := hfifo
  refine ⟨y, cs, hrun, ?_, ?_, ?_⟩
  · have hreceived : InOrder (cs.flatMap RenameCycle.fromDecode) := by
      have hsplit := System.run_received hrun
      have hempty : (System.start p entries).decodeQueue.flatten = [] := by simp [System.start]
      rw [hempty, List.nil_append] at hsplit
      rw [hsplit] at horder
      exact horder.sublist (List.sublist_append_left _ _)
    have hsub := hfifo.sublist
    rw [queue_input, queue_output, List.nil_append] at hsub
    have hsent := hreceived.live.sublist ((List.sublist_append_left _ _).trans hsub)
    exact (List.pairwise_map (f := DynInst.bare)).1 hsent
  · intro pre c post x hcs hx
    rw [hcs, List.map_append, List.map_cons] at hfifo
    obtain ⟨pre₁, c₁, mid, hsplit, hin, hno⟩ := hfifo.came_in (List.mem_map_of_mem hx)
    rw [← List.map_singleton, ← List.map_append] at hsplit
    obtain ⟨pre2, rest, hpre, rfl, hrest⟩ := List.map_eq_append_iff.1 hsplit
    obtain ⟨c2, mid2, rfl, rfl, rfl⟩ := List.map_eq_cons_iff.1 hrest
    obtain ⟨x₁, hx1, hsq, hbare⟩ := mem_live.1 hin
    refine ⟨pre2, c2, mid2, hpre, x₁, hx1, hbare, hsq, fun c' hc' => ?_⟩
    rw [← RenameCycle.squashes_bare, hbare]
    rw [← List.map_cons] at hno
    exact hno _ (List.mem_map_of_mem hc')
  · intro pre c post x hcs hx hsq hno
    rw [hcs, List.map_append, List.map_cons] at hfifo
    have hin : x.bare ∈ c.queue.input := mem_live.2 ⟨x, hx, hsq, rfl⟩
    have hkeep : ∀ c' ∈ c.queue :: post.map RenameCycle.queue, c'.dropped x.bare = false := by
      rw [← List.map_cons]
      intro c' hc'
      obtain ⟨d, hd, rfl⟩ := List.mem_map.1 hc'
      exact hno d hd
    rcases hfifo.kept hin hkeep with ⟨c', hc', hout⟩ | hwait
    · rw [← List.map_cons] at hc'
      obtain ⟨d, hd, rfl⟩ := List.mem_map.1 hc'
      obtain ⟨x', hx', hbare⟩ := List.mem_map.1 hout
      exact .inl ⟨d, hd, x', hx', hbare⟩
    · obtain ⟨x', hx', _, hbare⟩ := mem_live.1 hwait
      exact .inr ⟨x', hx', hbare⟩

/-- A load and an instruction that waits for serialization, sent in one group. -/
theorem renames_in_order_serializing : ∃ y cs, (System.start ⟨1, 2, 2, .Full⟩ ⟨4, 4, 4, 4⟩).run ⟨1, 2, 2, .Full⟩
      [([{ seqNum := 1, isLoad := true }, { seqNum := 2, staticSerializeBefore := true }], ⟨{}, {}, fun _ _ => 9⟩),
        ([], ⟨{}, {}, fun _ _ => 9⟩)] = .ok (y, cs) ∧
      InOrder (cs.flatMap RenameCycle.toIEW) ∧
      (∀ pre c post x, cs = pre ++ c :: post → x ∈ c.toIEW →
        ∃ pre₁ c₁ mid, pre ++ [c] = pre₁ ++ c₁ :: mid ∧ ∃ x₁ ∈ c₁.fromDecode, x₁.bare = x.bare ∧
          x₁.squashed = false ∧ ∀ c' ∈ c₁ :: mid, c'.squashes x₁ = false) ∧
      (∀ pre c post x, cs = pre ++ c :: post → x ∈ c.fromDecode → x.squashed = false →
        (∀ c' ∈ c :: post, c'.squashes x = false) →
          (∃ c' ∈ c :: post, ∃ x' ∈ c'.toIEW, x'.bare = x.bare) ∨
            ∃ x' ∈ y.rename.waiting, x'.bare = x.bare) := by
  refine renames_in_order ⟨⟨by decide, fun h => (nomatch h), ?_⟩, ?_⟩ (by decide)
  · constructor <;> simp [System.start]
  · intro y c hstep
    cases hstep
    refine ⟨⟨by decide, fun _ => rfl, ?_⟩, fun _ _ _ => trivial⟩
    constructor <;> decide

/-- A squash that is below what waits for serialization only: instruction 1 waits in the skid buffer, nothing waits for
serialization, and after a squash of what follows 1 it is neither sent nor kept. -/
theorem squash_drops_skid : ∃ y cs y' c, (System.start ⟨1, 2, 2, .Full⟩ ⟨4, 0, 4, 4⟩).run ⟨1, 2, 2, .Full⟩
      [([{ seqNum := 1 }, { seqNum := 2 }], ⟨{}, {}, fun _ _ => 9⟩), ([], ⟨{}, {}, fun _ _ => 9⟩)] = .ok (y, cs) ∧
      System.LegalRun ⟨1, 2, 2, .Full⟩ (System.start ⟨1, 2, 2, .Full⟩ ⟨4, 0, 4, 4⟩)
        [([{ seqNum := 1 }, { seqNum := 2 }], ⟨{}, {}, fun _ _ => 9⟩), ([], ⟨{}, {}, fun _ _ => 9⟩)] ∧
      System.Legal ⟨1, 2, 2, .Full⟩ y [] ⟨{}, {}, fun _ _ => 9⟩ ∧ y.rename.serializeInst = none ∧
      y.step ⟨1, 2, 2, .Full⟩ [] ⟨{}, { squash := true, doneSeqNum := 1 }, fun _ _ => 9⟩ = .ok (y', c) ∧
      (∃ c₁ ∈ cs, ∃ x ∈ c₁.fromDecode, x.seqNum = 1 ∧ x.squashed = false ∧
        ∀ c' ∈ cs ++ [c], c'.squashes x = false ∧ c'.toIEW.map DynInst.seqNum = []) ∧
      y'.rename.waiting.map DynInst.seqNum = [] := by
  refine ⟨_, _, _, _, rfl, ⟨⟨by decide, fun h => (nomatch h), ?_⟩, ?_⟩, ⟨by decide, fun _ => rfl, ?_⟩, rfl, rfl,
    ⟨_, List.mem_cons_of_mem _ List.mem_cons_self, _, List.mem_cons_self, rfl, rfl, by decide⟩, rfl⟩
  · constructor <;> decide
  · intro y c hstep
    cases hstep
    refine ⟨⟨by decide, fun _ => rfl, ?_⟩, fun _ _ _ => trivial⟩
    constructor <;> decide
  · constructor <;> decide

end Alpine.Cpu
