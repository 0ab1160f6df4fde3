import Alpine.Arm.CmInst

/-!
# CM instructions on the out-of-order CPU

A reorder buffer over one tile, as `cpu/o3/iew_impl.hh` treats an instruction that is neither a memory
reference nor a barrier: it is dispatched in program order, issues when its source registers are
ready, in any order, executes after that, and is committed in program order or squashed with all
younger instructions.  An instruction flagged `IsNonSpeculative` issues only at the head of the
buffer.  Executing a CM instruction changes the tile at once; a squash restores registers only.

The CM instructions are built by `buildDataXRegInst` with `optArgs = []`, so they carry no flag.

* `committed_in_order` — in every run in which CM instructions execute in program order and none that
  changes the tile is squashed after it executed, the committed instructions, executed once each in
  program order, give the same register values, and the same tile when nothing executed is in flight.
* `squashed_queue_stays` — a squashed `cmqueue` leaves its mark on the tile.
-/

namespace Alpine.Cpu

open Alpine.Arm Alpine.Aimc

variable {H W : Nat}

/-! ## Instructions -/

inductive InstFlag where
  | IsNonSpeculative
  deriving DecidableEq

/-- A CM instruction, or any other instruction that computes a register from registers. -/
inductive Inst where
  | cm (i : CmInst)
  | other (dest : Option IntRegIndex) (srcs : List IntRegIndex) (f : List (BitVec 64) → BitVec 64)
      (flags : List InstFlag)

/-- The `optArgs` argument of `buildDataXRegInst` in the CM instruction definitions. -/
def optArgs (_ : CmOp) : List InstFlag := []

def Inst.flags : Inst → List InstFlag
  | .cm i => optArgs i.op
  | .other _ _ _ flags => flags

def Inst.isNonSpeculative (inst : Inst) : Bool := inst.flags.contains .IsNonSpeculative

/-- Source registers: the operands the execute body reads. -/
def Inst.srcs : Inst → List IntRegIndex
  | .cm i =>
    match i.op with
    | .cmprocess => []
    | .cmqueue => [i.op2]
    | .cmdequeue => []
    | .cmparamread => [i.op2, i.op1]
    | .cmparamwrite => [i.op2, i.op1, i.op3]
  | .other _ srcs _ _ => srcs

/-- Destination register: the operand the execute body assigns. -/
def Inst.destReg : Inst → Option IntRegIndex
  | .cm i =>
    match i.op with
    | .cmdequeue | .cmparamread => some i.dest
    | .cmprocess | .cmqueue | .cmparamwrite => none
  | .other dest _ _ _ => dest

def Inst.IsCm : Inst → Prop
  | .cm _ => True
  | .other _ _ _ _ => False

/-- The instruction can change the tile. -/
def Inst.ChangesTile : Inst → Prop
  | .cm i => i.op ≠ .cmparamread
  | .other _ _ _ _ => False

/-- Value for the destination register. -/
def resultValue (i : CmInst) : TileRet → BitVec 64
  | .void => 0
  | .word v => v.setWidth 64 &&& mask i.intWidth
  | .param v => v.signExtend 64 &&& mask i.intWidth

/-- Effect on the tile and computed value, from the values of the source registers. -/
def Inst.run (inst : Inst) (t : Tile H W) (vals : IntRegs) : Option (Tile H W × BitVec 64) :=
  match inst with
  | .cm i => (Cluster.tileStep t (i.tileOp vals)).map fun r => (r.1, resultValue i r.2)
  | .other _ srcs f _ => some (t, f (srcs.map vals))

/-- Registers after the value is written. -/
def Inst.writeReg (inst : Inst) (regs : IntRegs) (v : BitVec 64) : IntRegs :=
  match inst.destReg with
  | none => regs
  | some d => regs.set d v

/-- In-order execution of one instruction. -/
def inOrder (s : Tile H W × IntRegs) (inst : Inst) : Option ((Tile H W × IntRegs) × BitVec 64) :=
  (inst.run s.1 s.2).map fun r => ((r.1, inst.writeReg s.2 r.2), r.2)

/-! ## The reorder buffer -/

/-- A dynamic instruction; `done` is the computed value once it has executed. -/
structure Entry where
  inst : Inst
  issued : Bool
  done : Option (BitVec 64)

/-- What an instruction sees of the registers: nothing where an older instruction that has not
executed yet writes the register. -/
abbrev View := IntRegIndex → Option (BitVec 64)

def Entry.bypass (e : Entry) (f : View) : View :=
  fun r => if e.inst.destReg = some r then e.done else f r

/-- The view behind the given instructions. -/
def viewAfter (f : View) (older : List Entry) : View := older.foldl (fun f e => e.bypass f) f

/-- Operand values of an instruction with this view. -/
def View.vals (f : View) : IntRegs := fun r => (f r).getD 0

structure State (H W : Nat) where
  tile : Tile H W
  /-- Committed registers. -/
  regs : IntRegs
  /-- In-flight instructions, oldest first. -/
  rob : List Entry
  committed : List Inst
  /-- The values the committed instructions computed. -/
  results : List (BitVec 64)

def State.init (t : Tile H W) (regs : IntRegs) : State H W := ⟨t, regs, [], [], []⟩

/-- View of the instruction at position `k`. -/
def State.viewAt (s : State H W) (k : Nat) : View :=
  viewAfter (fun r => some (s.regs r)) (s.rob.take k)

inductive Action where
  | dispatch (inst : Inst)
  | issue (k : Nat)
  | execute (k : Nat)
  /-- Squash everything from position `k` on. -/
  | squash (k : Nat)
  | commit

def State.step (s : State H W) : Action → Option (State H W)
  | .dispatch inst => some { s with rob := s.rob ++ [⟨inst, false, none⟩] }
  | .issue k =>
    match s.rob[k]? with
    | none => none
    | some e =>
      if e.issued = false ∧ (∀ r ∈ e.inst.srcs, (s.viewAt k r).isSome) ∧
          (e.inst.isNonSpeculative = true → k = 0) then
        some { s with rob := s.rob.set k { e with issued := true } }
      else none
  | .execute k =>
    match s.rob[k]? with
    | none => none
    | some e =>
      if e.issued = true ∧ e.done = none then
        (e.inst.run s.tile (s.viewAt k).vals).map fun r =>
          { s with tile := r.1, rob := s.rob.set k { e with done := some r.2 } }
      else none
  | .squash k => some { s with rob := s.rob.take k }
  | .commit =>
    match s.rob with
    | [] => none
    | e :: rob =>
      e.done.map fun v =>
        { s with
          regs := e.inst.writeReg s.regs v
          rob := rob
          committed := s.committed ++ [e.inst]
          results := s.results ++ [v] }

/-- CM instructions execute in program order, and none that changes the tile is squashed after it
executed. -/
def InProgramOrder (s : State H W) : Action → Prop
  | .execute k => ∀ e ∈ s.rob[k]?, e.inst.IsCm → ∀ e' ∈ s.rob.take k, e'.inst.IsCm → e'.done.isSome
  | .squash k => ∀ e ∈ s.rob.drop k, e.inst.ChangesTile → e.done = none
  | _ => True

/-! ## What a run keeps -/

theorem Inst.run_congr (inst : Inst) (t : Tile H W) {vals vals' : IntRegs}
    (h : ∀ r ∈ inst.srcs, vals r = vals' r) : inst.run t vals = inst.run t vals' := by
  cases inst with
  | cm i =>
    have hop : i.tileOp vals = i.tileOp vals' := by
      simp only [Inst.srcs] at h
      rw [CmInst.tileOp_eq, CmInst.tileOp_eq]
      obtain ⟨op, machInst, dest, op1, op2, op3⟩ := i
      cases op with
      | cmprocess => rfl
      | cmqueue => simp only [h op2 (by simp)]
      | cmdequeue => rfl
      | cmparamread => simp only [h op2 (by simp), h op1 (by simp)]
      | cmparamwrite => simp only [h op2 (by simp), h op1 (by simp), h op3 (by simp)]
    simp only [Inst.run, hop]
  | other dest srcs f flags =>
    have hmap : srcs.map vals = srcs.map vals' := List.map_congr_left h
    simp only [Inst.run, hmap]

/-- Other instructions leave the tile and do not look at it. -/
theorem Inst.run_other {inst : Inst} (t1 : Tile H W) (hcm : ¬ inst.IsCm) {t t' : Tile H W}
    {vals : IntRegs} {v : BitVec 64} (h : inst.run t vals = some (t', v)) : t' = t ∧ inst.run t1 vals = some (t1, v) := by
  cases inst with
  | cm i => exact absurd trivial hcm
  | other dest srcs f flags =>
    simp only [Inst.run, Option.some.injEq, Prod.mk.injEq] at h
    obtain ⟨rfl, rfl⟩ := h
    exact ⟨rfl, rfl⟩

theorem Inst.run_unchanged {inst : Inst} (hno : ¬ inst.ChangesTile) {t t' : Tile H W} {vals : IntRegs}
    {v : BitVec 64} (h : inst.run t vals = some (t', v)) : t' = t := by
  cases inst with
  | cm i =>
    have hop : i.op = .cmparamread := Decidable.of_not_not hno
    simp only [Inst.run, CmInst.tileOp, hop, Cluster.tileStep, Option.map_map,
      Option.map_eq_some_iff, Function.comp_apply, Prod.mk.injEq] at h
    obtain ⟨_, _, rfl, _⟩ := h
    rfl
  | other dest srcs f flags =>
    exact (Inst.run_other t id h).1

/-- From tile `t` and view `f`, the executed ones of these instructions have the values of in-order
execution and their effect gives tile `t'`. -/
def Sound : Tile H W → View → List Entry → Tile H W → Prop
  | t, _, [], t' => t' = t
  | t, f, e :: es, t' =>
    (e.issued = true → ∀ r ∈ e.inst.srcs, (f r).isSome) ∧
    match e.done with
    | none =>
      (e.inst.IsCm → ∀ e' ∈ es, e'.inst.IsCm → e'.done = none) ∧ Sound t (e.bypass f) es t'
    | some v =>
      e.issued = true ∧ ∃ t1, e.inst.run t f.vals = some (t1, v) ∧ Sound t1 (e.bypass f) es t'

theorem vals_eq_of_le {f f' : View} (hle : ∀ r v, f r = some v → f' r = some v) {r : IntRegIndex}
    (hr : (f r).isSome) : f.vals r = f'.vals r := by
  obtain ⟨v, hv⟩ := Option.isSome_iff_exists.1 hr
  simp only [View.vals, hv, hle r v hv]

theorem bypass_le {f f' : View} (hle : ∀ r v, f r = some v → f' r = some v) (e : Entry) :
    ∀ r v, e.bypass f r = some v → e.bypass f' r = some v := by
  intro r v h
  unfold Entry.bypass at h ⊢
  split
  · rename_i hd
    rw [if_pos hd] at h
    exact h
  · rename_i hd
    rw [if_neg hd] at h
    exact hle r v h

/-- More values in the view do not disturb the executed instructions. -/
theorem Sound.mono : ∀ {es : List Entry} {t t' : Tile H W} {f f' : View},
    (∀ r v, f r = some v → f' r = some v) → Sound t f es t' → Sound t f' es t'
  | [], _, _, _, _, _, h => h
  | e :: es, t, t', f, f', hle, h => by
    unfold Sound at h ⊢
    obtain ⟨hready, h⟩ := h
    have hready' : ∀ r ∈ e.inst.srcs, (f r).isSome → (f' r).isSome := by
      intro r _ hr
      obtain ⟨v, hv⟩ := Option.isSome_iff_exists.1 hr
      rw [hle r v hv]
      rfl
    refine ⟨fun hi r hr => hready' r hr (hready hi r hr), ?_⟩
    cases hd : e.done with
    | none =>
      rw [hd] at h
      exact ⟨h.1, Sound.mono (bypass_le hle e) h.2⟩
    | some v =>
      rw [hd] at h
      obtain ⟨hi, t1, hrun, hs⟩ := h
      refine ⟨hi, t1, ?_, Sound.mono (bypass_le hle e) hs⟩
      rw [← e.inst.run_congr t fun r hr => vals_eq_of_le hle (hready hi r hr)]
      exact hrun

theorem Sound.dispatch (inst : Inst) : ∀ {es : List Entry} {t t' : Tile H W} {f : View},
    Sound t f es t' → Sound t f (es ++ [⟨inst, false, none⟩]) t'
  | [], t, t', f, h => by
    exact ⟨fun hi => absurd hi Bool.false_ne_true, fun _ e' he' => absurd he' List.not_mem_nil, h⟩
  | e :: es, t, t', f, h => by
    unfold Sound at h
    rw [List.cons_append]
    unfold Sound
    refine ⟨h.1, ?_⟩
    cases hd : e.done with
    | none =>
      rw [hd] at h
      refine ⟨fun hcm e' he' hcm' => ?_, Sound.dispatch inst h.2.2⟩
      rcases List.mem_append.1 he' with he' | he'
      · exact h.2.1 hcm e' he' hcm'
      · rw [List.mem_singleton.1 he']
    | some v =>
      rw [hd] at h
      obtain ⟨_, hi, t1, hrun, hs⟩ := h
      exact ⟨hi, t1, hrun, Sound.dispatch inst hs⟩

/-- Without executed CM instructions the tile is the starting one, whichever that is. -/
theorem Sound.idle : ∀ {es : List Entry} {t t' : Tile H W} {f : View},
    (∀ e ∈ es, e.inst.IsCm → e.done = none) → Sound t f es t' → t' = t ∧ ∀ t1 : Tile H W, Sound t1 f es t1
  | [], _, _, _, _, h => ⟨h, fun _ => rfl⟩
  | e :: es, t, t', f, hno, h => by
    unfold Sound at h
    obtain ⟨hready, h⟩ := h
    have hnoes : ∀ e' ∈ es, e'.inst.IsCm → e'.done = none :=
      fun e' he' => hno e' (List.mem_cons_of_mem _ he')
    cases hd : e.done with
    | none =>
      rw [hd] at h
      obtain ⟨ht, hall⟩ := Sound.idle hnoes h.2
      refine ⟨ht, fun t1 => ?_⟩
      unfold Sound
      rw [hd]
      exact ⟨hready, fun _ => hnoes, hall t1⟩
    | some v =>
      rw [hd] at h
      obtain ⟨hi, t1, hrun, hs⟩ := h
      have hcm : ¬ e.inst.IsCm := by
        intro hcm
        rw [hno e List.mem_cons_self hcm] at hd
        cases hd
      obtain ⟨ht, hall⟩ := Sound.idle hnoes hs
      refine ⟨ht.trans (Inst.run_other t hcm hrun).1, fun t2 => ?_⟩
      unfold Sound
      rw [hd]
      exact ⟨hready, hi, t2, (Inst.run_other t2 hcm hrun).2, hall t2⟩

/-- Reading a `Sound` buffer at one position and changing the instruction there. -/
theorem Sound.issue : ∀ {pre post : List Entry} {e : Entry} {t t' : Tile H W} {f : View},
    (∀ r ∈ e.inst.srcs, (viewAfter f pre r).isSome) → Sound t f (pre ++ e :: post) t' →
      Sound t f (pre ++ { e with issued := true } :: post) t'
  | [], post, e, t, t', f, hready, h => by
    rw [List.nil_append] at h ⊢
    unfold Sound at h ⊢
    refine ⟨fun _ => hready, ?_⟩
    obtain ⟨inst, issued, done⟩ := e
    cases done with
    | none => exact h.2
    | some v => exact ⟨rfl, h.2.2⟩
  | a :: pre, post, e, t, t', f, hready, h => by
    rw [List.cons_append] at h ⊢
    unfold Sound at h ⊢
    refine ⟨h.1, ?_⟩
    cases hd : a.done with
    | none =>
      rw [hd] at h
      refine ⟨fun hcm e' he' hcm' => ?_, Sound.issue hready h.2.2⟩
      rcases List.mem_append.1 he' with he' | he'
      · exact h.2.1 hcm e' (List.mem_append_left _ he') hcm'
      · rcases List.mem_cons.1 he' with rfl | he'
        · exact h.2.1 hcm e (List.mem_append_right _ List.mem_cons_self) hcm'
        · exact h.2.1 hcm e' (List.mem_append_right _ (List.mem_cons_of_mem _ he')) hcm'
    | some v =>
      rw [hd] at h
      obtain ⟨_, hi, t1, hrun, hs⟩ := h
      exact ⟨hi, t1, hrun, Sound.issue hready hs⟩

theorem Sound.execute_head {post : List Entry} {e : Entry} {t t' t'' : Tile H W} {f : View}
    {v : BitVec 64} (hi : e.issued = true) (hd : e.done = none)
    (hrun : e.inst.run t' f.vals = some (t'', v)) (h : Sound t f (e :: post) t') :
    Sound t f ({ e with done := some v } :: post) t'' := by
  unfold Sound at h ⊢
  rw [hd] at h
  obtain ⟨hready, hno, hs⟩ := h
  have hle : ∀ r v', e.bypass f r = some v' → { e with done := some v }.bypass f r = some v' := by
    intro r v' hr
    unfold Entry.bypass at hr ⊢
    split
    · rename_i hdest
      rw [if_pos hdest, hd] at hr
      cases hr
    · rename_i hdest
      rw [if_neg hdest] at hr
      exact hr
  by_cases hcm : e.inst.IsCm
  · obtain ⟨rfl, hall⟩ := Sound.idle (hno hcm) hs
    exact ⟨hready, hi, t'', hrun, Sound.mono hle (hall t'')⟩
  · obtain ⟨rfl, hrun'⟩ := Inst.run_other t hcm hrun
    exact ⟨hready, hi, t, hrun', Sound.mono hle hs⟩

theorem Sound.execute : ∀ {pre post : List Entry} {e : Entry} {t t' t'' : Tile H W} {f : View}
    {v : BitVec 64}, e.issued = true → e.done = none → (e.inst.IsCm → ∀ e' ∈ pre, e'.inst.IsCm → e'.done.isSome) →
    e.inst.run t' (viewAfter f pre).vals = some (t'', v) → Sound t f (pre ++ e :: post) t' →
      Sound t f (pre ++ { e with done := some v } :: post) t''
  | [], post, e, t, t', t'', f, v, hi, hd, _, hrun, h => Sound.execute_head hi hd hrun h
  | a :: pre, post, e, t, t', t'', f, v, hi, hd, hold, hrun, h => by
    rw [List.cons_append] at h ⊢
    unfold Sound at h ⊢
    have hold' : e.inst.IsCm → ∀ e' ∈ pre, e'.inst.IsCm → e'.done.isSome :=
      fun hcm e' he' => hold hcm e' (List.mem_cons_of_mem _ he')
    refine ⟨h.1, ?_⟩
    cases ha : a.done with
    | none =>
      rw [ha] at h
      refine ⟨fun hcma e' he' hcm' => ?_, Sound.execute hi hd hold' hrun h.2.2⟩
      -- an unexecuted CM instruction is older than `e`, so `e` is none
      have hcm : ¬ e.inst.IsCm := by
        intro hcm
        have := hold hcm a List.mem_cons_self hcma
        rw [ha] at this
        cases this
      rcases List.mem_append.1 he' with he' | he'
      · exact h.2.1 hcma e' (List.mem_append_left _ he') hcm'
      · rcases List.mem_cons.1 he' with rfl | he'
        · exact absurd hcm' hcm
        · exact h.2.1 hcma e' (List.mem_append_right _ (List.mem_cons_of_mem _ he')) hcm'
    | some v =>
      rw [ha] at h
      obtain ⟨_, hia, t1, hruna, hs⟩ := h
      exact ⟨hia, t1, hruna, Sound.execute hi hd hold' hrun hs⟩

/-- Dropping instructions that have not changed the tile. -/
theorem Sound.squash : ∀ (pre : List Entry) {post : List Entry} {t t' : Tile H W} {f : View},
    (∀ e ∈ post, e.inst.ChangesTile → e.done = none) → Sound t f (pre ++ post) t' → Sound t f pre t'
  | [], [], _, _, _, _, h => h
  | [], e :: post, t, t', f, hno, h => by
    rw [List.nil_append] at h
    unfold Sound at h
    have hnopost : ∀ e' ∈ post, e'.inst.ChangesTile → e'.done = none :=
      fun e' he' => hno e' (List.mem_cons_of_mem _ he')
    cases hd : e.done with
    | none =>
      rw [hd] at h
      exact Sound.squash [] (f := e.bypass f) hnopost h.2.2
    | some v =>
      rw [hd] at h
      obtain ⟨_, _, t1, hrun, hs⟩ := h
      have hnc : ¬ e.inst.ChangesTile := by
        intro hc
        rw [hno e List.mem_cons_self hc] at hd
        cases hd
      have ht1 := Inst.run_unchanged hnc hrun
      subst ht1
      exact Sound.squash [] (f := e.bypass f) hnopost hs
  | a :: pre, post, t, t', f, hno, h => by
    rw [List.cons_append] at h
    unfold Sound at h ⊢
    refine ⟨h.1, ?_⟩
    cases hd : a.done with
    | none =>
      rw [hd] at h
      exact ⟨fun hcm e' he' => h.2.1 hcm e' (List.mem_append_left _ he'), Sound.squash pre hno h.2.2⟩
    | some v =>
      rw [hd] at h
      obtain ⟨_, hi, t1, hrun, hs⟩ := h
      exact ⟨hi, t1, hrun, Sound.squash pre hno hs⟩

/-- The committed part is an in-order execution and the in-flight part continues it. -/
def Inv (t₀ : Tile H W) (regs₀ : IntRegs) (s : State H W) : Prop :=
  ∃ t, Run.run inOrder (t₀, regs₀) s.committed = some ((t, s.regs), s.results) ∧
    Sound t (fun r => some (s.regs r)) s.rob s.tile

theorem split_at {rob : List Entry} {k : Nat} {e : Entry} (h : rob[k]? = some e) :
    rob = rob.take k ++ e :: rob.drop (k + 1) ∧ ∀ x, rob.set k x = rob.take k ++ x :: rob.drop (k + 1) := by
  obtain ⟨hk, rfl⟩ := List.getElem?_eq_some_iff.1 h
  refine ⟨?_, fun x => List.set_eq_take_append_cons_drop.trans (if_pos hk)⟩
  rw [List.getElem_cons_drop, List.take_append_drop]

theorem commit_view (regs : IntRegs) (inst : Inst) (issued : Bool) (v : BitVec 64) :
    (⟨inst, issued, some v⟩ : Entry).bypass (fun r => some (regs r)) = fun r => some (inst.writeReg regs v r) := by
  funext r
  unfold Entry.bypass Inst.writeReg
  cases inst.destReg with
  | none => exact if_neg (by simp)
  | some d =>
    simp only [Option.some.injEq, IntRegs.set]
    by_cases e : d = r
    · rw [if_pos e, if_pos e.symm]
    · rw [if_neg e, if_neg (Ne.symm e)]

theorem Inv.init (t₀ : Tile H W) (regs₀ : IntRegs) : Inv t₀ regs₀ (State.init t₀ regs₀) :=
  ⟨t₀, Run.run_nil, rfl⟩

theorem Inv.step {t₀ : Tile H W} {regs₀ : IntRegs} {s s' : State H W} {a : Action} (h : Inv t₀ regs₀ s)
    (hok : InProgramOrder s a) (hstep : s.step a = some s') : Inv t₀ regs₀ s' := by
  obtain ⟨t, hrun, hsound⟩ := h
  cases a with
  | dispatch inst =>
    simp only [State.step, Option.some.injEq] at hstep
    subst hstep
    exact ⟨t, hrun, Sound.dispatch inst hsound⟩
  | issue k =>
    simp only [State.step] at hstep
    split at hstep
    · cases hstep
    · rename_i e he
      split at hstep
      · rename_i hcond
        cases hstep
        obtain ⟨hrob, hset⟩ := split_at he
        refine ⟨t, hrun, ?_⟩
        show Sound t _ (s.rob.set k _) s.tile
        rw [hrob] at hsound
        rw [hset]
        exact Sound.issue hcond.2.1 hsound
      · cases hstep
  | execute k =>
    simp only [State.step] at hstep
    split at hstep
    · cases hstep
    · rename_i e he
      split at hstep
      · rename_i hcond
        obtain ⟨⟨t', v⟩, hexec, rfl⟩ := Option.map_eq_some_iff.1 hstep
        obtain ⟨hrob, hset⟩ := split_at he
        refine ⟨t, hrun, ?_⟩
        show Sound t _ (s.rob.set k _) t'
        rw [hrob] at hsound
        rw [hset]
        exact Sound.execute hcond.1 hcond.2 (hok e he) hexec hsound
      · cases hstep
  | squash k =>
    simp only [State.step, Option.some.injEq] at hstep
    subst hstep
    refine ⟨t, hrun, Sound.squash (s.rob.take k) hok ?_⟩
    rw [List.take_append_drop]
    exact hsound
  | commit =>
    simp only [State.step] at hstep
    split at hstep
    · cases hstep
    · rename_i e rob hrob
      obtain ⟨v, hv, rfl⟩ := Option.map_eq_some_iff.1 hstep
      rw [hrob] at hsound
      obtain ⟨inst, issued, done⟩ := e
      simp only at hv
      subst hv
      obtain ⟨_, _, t1, hrun1, hs⟩ := hsound
      rw [commit_view] at hs
      refine ⟨t1, ?_, hs⟩
      refine Run.run_append.2 ⟨_, _, _, hrun, Run.run_cons.2 ⟨_, _, _, ?_, Run.run_nil, rfl⟩, rfl⟩
      unfold inOrder
      simp only
      rw [show (View.vals fun r => some (s.regs r)) = s.regs from rfl] at hrun1
      rw [hrun1]
      rfl

/-- **The committed instructions, executed in program order, give the registers, the computed values
and, once nothing executed is in flight, the tile.** -/
theorem committed_in_order (t₀ : Tile H W) (regs₀ : IntRegs) {s : State H W}
    (h : Run.Reaches State.step InProgramOrder (State.init t₀ regs₀) s) :
    ∃ t, Run.run inOrder (t₀, regs₀) s.committed = some ((t, s.regs), s.results) ∧
      ((∀ e ∈ s.rob, e.inst.IsCm → e.done = none) → s.tile = t) := by
  have hinv : Inv t₀ regs₀ s :=
    h.inv (Inv.init t₀ regs₀) fun _ _ _ hi hok hstep => hi.step hok hstep
  obtain ⟨t, hrun, hsound⟩ := hinv
  exact ⟨t, hrun, fun hno => (Sound.idle hno hsound).1⟩

/-! ## A queue instruction -/

/-- The instruction word of `aimcQueue`. -/
def queueInst : Inst := .cm ⟨.cmqueue, 0x21088000, 0, 0, 0, 8⟩

theorem queueInst_run (t : Tile H W) (vals : IntRegs) : queueInst.run t vals =
    (Check.coreQueue t ((vals 0).setWidth 32)).map fun t' => (t', 0) := by
  unfold queueInst Inst.run
  simp only [CmInst.tileOp_eq, Cluster.tileStep, Option.map_map, coreQueue_eq_tileQueue]
  rfl

/-- Dispatched, issued and executed at the head of the buffer. -/
theorem execute_queueInst (fits : W * H < 2147483648) (regs : IntRegs) : ∃ mem : Vector (BitVec 8) H,
      Run.Reaches State.step InProgramOrder (State.init (Tile.fresh fits) regs)
        ⟨{ Tile.fresh fits with inputMemory := mem, inputMemoryCounter := (4 : Nat) }, regs,
          [⟨queueInst, true, some 0⟩], [], []⟩ := by
  obtain ⟨mem, hq, _⟩ := Check.coreQueue_spec (Tile.fresh fits) (c := 0) rfl (by omega)
    ((regs 0).setWidth 32)
  have hdispatch : (State.init (Tile.fresh fits) regs).step (.dispatch queueInst) =
      some ⟨Tile.fresh fits, regs, [⟨queueInst, false, none⟩], [], []⟩ := rfl
  have hissue : (⟨Tile.fresh fits, regs, [⟨queueInst, false, none⟩], [], []⟩ : State H W).step
      (.issue 0) = some ⟨Tile.fresh fits, regs, [⟨queueInst, true, none⟩], [], []⟩ := by
    have hcond : (⟨queueInst, false, none⟩ : Entry).issued = false ∧
        (∀ r ∈ queueInst.srcs, ((⟨Tile.fresh fits, regs, [⟨queueInst, false, none⟩], [], []⟩ :
          State H W).viewAt 0 r).isSome) ∧ (queueInst.isNonSpeculative = true → 0 = 0) :=
      ⟨rfl, fun _ _ => rfl, fun _ => rfl⟩
    exact if_pos (e := none) hcond
  have hexec : (⟨Tile.fresh fits, regs, [⟨queueInst, true, none⟩], [], []⟩ : State H W).step
      (.execute 0) = some ⟨{ Tile.fresh fits with
        inputMemory := mem, inputMemoryCounter := (4 : Nat) }, regs,
        [⟨queueInst, true, some 0⟩], [], []⟩ := by
    have hrun := queueInst_run (Tile.fresh fits) regs
    rw [hq, Option.map_some] at hrun
    have hcond : (⟨queueInst, true, none⟩ : Entry).issued = true ∧
        (⟨queueInst, true, none⟩ : Entry).done = none := ⟨rfl, rfl⟩
    refine (if_pos (e := none) hcond).trans ?_
    show Option.map _ (queueInst.run (Tile.fresh fits) regs) = _
    rw [hrun]
    rfl
  have hok : InProgramOrder (⟨Tile.fresh fits, regs, [⟨queueInst, true, none⟩], [], []⟩ : State H W)
      (.execute 0) := fun _ _ _ e' he' => absurd he' List.not_mem_nil
  refine ⟨mem, .step (.step (.step .refl ?_ hdispatch) ?_ hissue) hok hexec⟩
  · trivial
  · trivial

/-- A queue instruction that commits. -/
theorem committed_in_order_queue : ∃ s : State 5 5, s.committed = [queueInst] ∧
    ∃ t, Run.run inOrder (Tile.fresh (by decide), fun _ => 7) s.committed =
        some ((t, s.regs), s.results) ∧
      ((∀ e ∈ s.rob, e.inst.IsCm → e.done = none) → s.tile = t) := by
  obtain ⟨mem, h⟩ := execute_queueInst (H := 5) (W := 5) (by decide) fun _ => 7
  exact ⟨_, rfl, committed_in_order _ _ (h.step (i := .commit) trivial rfl)⟩

/-- The tile remembers a queue instruction that was squashed: nothing is committed or in flight, and
the tile is not the one of in-order execution. -/
theorem squashed_queue_stays : ∃ s : State 2000 2000,
    Run.Reaches State.step (fun _ _ => True) (State.init (Tile.fresh (by decide)) fun _ => 0) s ∧
      s.rob = [] ∧ s.committed = [] ∧
      ¬ ∃ t, Run.run inOrder (Tile.fresh (by decide), fun _ => 0) s.committed =
          some ((t, s.regs), s.results) ∧ s.tile = t := by
  obtain ⟨mem, h⟩ := execute_queueInst (H := 2000) (W := 2000) (by decide) fun _ => 0
  refine ⟨_, (h.mono fun _ _ _ => trivial).step (i := .squash 0) trivial rfl, rfl, rfl, ?_⟩
  rintro ⟨t, hrun, htile⟩
  simp only [Run.run, Option.some.injEq, Prod.mk.injEq] at hrun
  have hcounter := congrArg Tile.inputMemoryCounter (htile.trans hrun.1.1.symm)
  exact absurd hcounter (by show ((4 : Nat) : Int) ≠ 0; decide)

end Alpine.Cpu
