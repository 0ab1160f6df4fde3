import Alpine.Cpu.MemDepUnit
import Alpine.Lib.Run

/-!
# Memory barriers hold back younger accesses

A full barrier is to hold back the younger loads and stores, a write barrier the younger stores, from the
insertion of the barrier until it is completed or squashed.  The unit has one flag and one number for each
kind, of the youngest barrier.

* `Held` — the invariant: the flags are those of the youngest barriers in the list, and an access that waits
  is a dependent of a barrier that is at least as young as every barrier that holds it back.
* `Keeps` — a call keeps it: a squash that removes a full barrier, or any barrier, leaves none of that kind
  in the list; and an instruction that both loads and stores is not inserted behind a write barrier that is
  younger than every full barrier, if there is a full one.
* `barriers_hold_back` — in a run whose calls all kept it, no call hands out an access that a barrier in the
  list holds back.
* `squash_hands_out` — a squash that does not keep it leaves the next access free.
-/

namespace Alpine.Cpu.MemDep

/-- An instruction that is dispatched as a barrier. -/
def DynInst.IsBarrier (i : DynInst) : Prop :=
  i.isLoad = false ∧ i.isStore = false ∧ (i.isMemBarrier = true ∨ i.isWriteBarrier = true)

def DynInst.IsFull (i : DynInst) : Prop := i.IsBarrier ∧ i.isMemBarrier = true

def DynInst.IsMemRef (i : DynInst) : Prop := i.isLoad = true ∨ i.isStore = true

/-- The barrier holds back the access if it is the older one. -/
def Blocks (b i : DynInst) : Prop := b.IsFull ∧ i.isLoad = true ∨ b.IsBarrier ∧ i.isStore = true

theorem Blocks.isBarrier {b i : DynInst} (h : Blocks b i) : b.IsBarrier := by
  rcases h with ⟨hb, -⟩ | ⟨hb, -⟩
  · exact hb.1
  · exact hb

theorem DynInst.IsMemRef.not_isBarrier {i : DynInst} (h : i.IsMemRef) : ¬ i.IsBarrier := by
  rintro ⟨hl, hs, -⟩
  rcases h with h | h
  · simp [hl] at h
  · simp [hs] at h

/-- Nothing that is handed out is held back by an outstanding barrier. -/
def HeldBack (out : DynInst → Prop) (handed : List DynInst) : Prop :=
  ∀ i ∈ handed, ∀ b, out b → Blocks b i → ¬ b.seqNum < i.seqNum

@[simp] theorem heldBack_nil (out : DynInst → Prop) : HeldBack out [] :=
  fun _ hi => absurd hi List.not_mem_nil

variable {out : DynInst → Prop} {l : List DynInst}

theorem HeldBack.append {l' : List DynInst} (h : HeldBack out l) (h' : HeldBack out l') : HeldBack out (l ++ l') := by
  intro i hi
  rcases List.mem_append.1 hi with hi | hi
  · exact h i hi
  · exact h' i hi

/-! ## The calls -/

inductive Call where
  | insert (inst : DynInst)
  | insertNonSpec (inst : DynInst)
  | insertBarrier (inst : DynInst)
  | regsReady (inst : DynInst)
  | nonSpecInstReady (inst : DynInst)
  | reschedule (inst : DynInst)
  | replay
  | wakeDependents (inst : DynInst)
  | completed (inst : DynInst)
  | completeBarrier (inst : DynInst)
  | squash (squashedNum : Nat)
  | violation (store load : DynInst)
  | issue (inst : DynInst)
  | setCanIssue (n : Nat) (b : Bool)

variable {P : Type}

namespace MemDepUnit

/-- One call, with what it hands out. -/
def call [MemDepPred P] (s : MemDepUnit P) : Call → Option (MemDepUnit P × List DynInst)
  | .insert inst => s.insert inst
  | .insertNonSpec inst => s.insertNonSpec inst
  | .insertBarrier inst => some (s.insertBarrier inst, [])
  | .regsReady inst => s.regsReady inst
  | .nonSpecInstReady inst => s.nonSpecInstReady inst
  | .reschedule inst => some (s.reschedule inst, [])
  | .replay => s.replay
  | .wakeDependents inst => s.wakeDependents inst
  | .completed inst => (s.completed inst).map fun s => (s, [])
  | .completeBarrier inst => s.completeBarrier inst
  | .squash squashedNum => (s.squash squashedNum).map fun s => (s, [])
  | .violation store load => some (s.violation store load, [])
  | .issue inst => some (s.issue inst, [])
  | .setCanIssue n b => some (s.setCanIssue n b, [])

def step [MemDepPred P] (s : MemDepUnit P) (c : Call) : Option (MemDepUnit P) := (s.call c).map Prod.fst

end MemDepUnit

/-- Sequence numbers grow, in program order, and are not used again. -/
def Fresh (s : MemDepUnit P) (inst : DynInst) : Prop :=
  0 < inst.seqNum ∧ ∀ n e, s.entries n = some e → n < inst.seqNum

/-- The calls of the instruction queue.  A memory reference is completed by `wakeDependents` and
`completed`, a barrier by `completeBarrier`, and barriers complete in program order. -/
def Permitted (s : MemDepUnit P) : Call → Prop
  | .insert inst => Fresh s inst ∧ inst.IsMemRef
  | .insertNonSpec inst => Fresh s inst ∧ inst.IsMemRef
  | .insertBarrier inst => Fresh s inst ∧ inst.IsBarrier
  | .regsReady inst => inst ∈ s.instList
  | .nonSpecInstReady inst => inst ∈ s.instList
  | .reschedule inst => inst ∈ s.instList
  | .replay => ∀ i ∈ s.instsToReplay, i ∈ s.instList
  | .wakeDependents inst => inst ∈ s.instList ∧ inst.IsMemRef
  | .completed inst => inst ∈ s.instList ∧ inst.IsMemRef
  | .completeBarrier inst =>
    inst ∈ s.instList ∧ inst.IsBarrier ∧ ∀ b ∈ s.instList, b.IsBarrier → inst.seqNum ≤ b.seqNum
  | .squash _ => True
  | .violation _ _ => True
  | .issue _ => True
  | .setCanIssue _ _ => True

/-- A squash that removes an instruction of the kind removes them all. -/
def AllOrNone (l : List DynInst) (kind : DynInst → Prop) (squashedNum : Nat) : Prop :=
  ∀ b ∈ l, kind b → squashedNum < b.seqNum → ∀ c ∈ l, kind c → squashedNum < c.seqNum

/-- The condition on a call. -/
def Keeps (s : MemDepUnit P) : Call → Prop
  | .insert inst => inst.isLoad = true → inst.isStore = true → (∃ f ∈ s.instList, f.IsFull) →
      ∀ w ∈ s.instList, w.IsBarrier → ∃ f ∈ s.instList, f.IsFull ∧ w.seqNum ≤ f.seqNum
  | .squash squashedNum => AllOrNone s.instList DynInst.IsFull squashedNum ∧
      AllOrNone s.instList DynInst.IsBarrier squashedNum
  | _ => True

/-! ## The invariant -/

/-- The flag is set exactly while there is a barrier of the kind, and the number is that of the youngest. -/
structure Raised (l : List DynInst) (kind : DynInst → Prop) (flag : Bool) (sn : Nat) : Prop where
  down : flag = false → ∀ b ∈ l, ¬ kind b
  up : flag = true → ∃ b ∈ l, kind b ∧ b.seqNum = sn ∧ ∀ c ∈ l, kind c → c.seqNum ≤ sn

/-- A waiting access is a dependent of a barrier that is not older than those that hold it back. -/
def Waits (out : DynInst → Prop) (s : MemDepUnit P) : Prop :=
  ∀ x ex i e b, s.entries x = some ex → i ∈ ex.dependInsts → s.entries i = some e → e.squashed = false →
    out b → Blocks b e.inst → b.seqNum < i → b.seqNum ≤ x ∧ ex.inst.IsBarrier

/-- What is ready is not held back. -/
def Ready (out : DynInst → Prop) (s : MemDepUnit P) : Prop :=
  ∀ i e b, s.entries i = some e → e.squashed = false → e.memDepReady = true → out b → Blocks b e.inst →
    ¬ b.seqNum < i

/-- The list, the hash and the entries agree. -/
structure Listed (s : MemDepUnit P) : Prop where
  pos : ∀ i ∈ s.instList, 0 < i.seqNum
  sorted : s.instList.Pairwise (·.seqNum < ·.seqNum)
  hash : ∀ n, n ∈ s.memDepHash ↔ ∃ i ∈ s.instList, i.seqNum = n
  known : ∀ i ∈ s.instList, ∃ e, s.entries i.seqNum = some e ∧ e.inst = i ∧ e.squashed = false
  own : ∀ n e, s.entries n = some e → e.inst.seqNum = n
  depends : ∀ n e, s.entries n = some e → ∀ m ∈ e.dependInsts, ∃ e', s.entries m = some e'

structure Held (s : MemDepUnit P) : Prop where
  listed : Listed s
  loads : Raised s.instList DynInst.IsFull s.loadBarrier s.loadBarrierSN
  stores : Raised s.instList DynInst.IsBarrier s.storeBarrier s.storeBarrierSN
  waits : Waits (· ∈ s.instList) s
  ready : Ready (· ∈ s.instList) s

theorem held_new (depPred : P) : Held (MemDepUnit.new depPred) where
  listed := by constructor <;> simp [MemDepUnit.new]
  loads := ⟨fun _ b hb => absurd hb List.not_mem_nil, nofun⟩
  stores := ⟨fun _ b hb => absurd hb List.not_mem_nil, nofun⟩
  waits := by intro x ex i e b hx; cases hx
  ready := by intro i e b hi; cases hi

/-! ## States that differ in what is ready only -/

/-- An entry without its marks of readiness. -/
def MemDepEntry.unmarked (e : MemDepEntry) : MemDepEntry :=
  { e with regsReady := false, memDepReady := false }

/-- The same instructions and barriers in flight. -/
structure SameList (s s' : MemDepUnit P) : Prop where
  list : s'.instList = s.instList
  hash : s'.memDepHash = s.memDepHash
  loads : s'.loadBarrier = s.loadBarrier ∧ s'.loadBarrierSN = s.loadBarrierSN
  stores : s'.storeBarrier = s.storeBarrier ∧ s'.storeBarrierSN = s.storeBarrierSN

structure Similar (s s' : MemDepUnit P) : Prop extends SameList s s' where
  entries : ∀ n, (s'.entries n).map MemDepEntry.unmarked = (s.entries n).map MemDepEntry.unmarked

variable {n : Nat} {f : MemDepEntry → MemDepEntry}

namespace Similar

variable {s s' t : MemDepUnit P}

theorem refl (s : MemDepUnit P) : Similar s s := ⟨⟨rfl, rfl, ⟨rfl, rfl⟩, ⟨rfl, rfl⟩⟩, fun _ => rfl⟩

theorem trans (h : Similar s s') (h' : Similar s' t) : Similar s t where
  list := h'.list.trans h.list
  hash := h'.hash.trans h.hash
  entries n := (h'.entries n).trans (h.entries n)
  loads := ⟨h'.loads.1.trans h.loads.1, h'.loads.2.trans h.loads.2⟩
  stores := ⟨h'.stores.1.trans h.stores.1, h'.stores.2.trans h.stores.2⟩

theorem modify (hf : ∀ e, (f e).unmarked = e.unmarked) : Similar s (s.modify n f) := by
  refine ⟨⟨rfl, rfl, ⟨rfl, rfl⟩, ⟨rfl, rfl⟩⟩, fun m => ?_⟩
  by_cases hm : m = n
  · subst hm
    simp only [MemDepUnit.modify_entries_self, Option.map_map, Function.comp_def, hf]
  · rw [MemDepUnit.modify_entries_of_ne s f hm]

theorem entry (h : Similar s s') {e' : MemDepEntry} (he : s'.entries n = some e') :
    ∃ e, s.entries n = some e ∧ e'.inst = e.inst ∧ e'.dependInsts = e.dependInsts ∧ e'.squashed = e.squashed := by
  have hn := h.entries n
  rw [he] at hn
  obtain ⟨e, hes, heq⟩ := Option.map_eq_some_iff.1 hn.symm
  have hinst := congrArg MemDepEntry.inst heq
  have hdeps := congrArg MemDepEntry.dependInsts heq
  have hsq := congrArg MemDepEntry.squashed heq
  exact ⟨e, hes, hinst.symm, hdeps.symm, hsq.symm⟩

theorem symm (h : Similar s s') : Similar s' s where
  list := h.list.symm
  hash := h.hash.symm
  entries n := (h.entries n).symm
  loads := ⟨h.loads.1.symm, h.loads.2.symm⟩
  stores := ⟨h.stores.1.symm, h.stores.2.symm⟩

theorem listed (h : Similar s s') (hs : Listed s) : Listed s' where
  pos i hi := hs.pos i (h.list ▸ hi)
  sorted := h.list ▸ hs.sorted
  hash n := by rw [h.hash, h.list]; exact hs.hash n
  known i hi := by
    obtain ⟨e, he, hinst, hsq⟩ := hs.known i (h.list ▸ hi)
    obtain ⟨e', he', hinst', -, hsq'⟩ := h.symm.entry he
    exact ⟨e', he', hinst'.symm.trans hinst, hsq'.symm.trans hsq⟩
  own n e' he' := by
    obtain ⟨e, he, hinst, -⟩ := h.entry he'
    rw [hinst]
    exact hs.own n e he
  depends n e' he' m hm := by
    obtain ⟨e, he, -, hdeps, -⟩ := h.entry he'
    obtain ⟨em, hem⟩ := hs.depends n e he m (hdeps ▸ hm)
    obtain ⟨em', hem', -⟩ := h.symm.entry hem
    exact ⟨em', hem'⟩

theorem waits (h : Similar s s') (hs : Waits out s) : Waits out s' := by
  intro x ex' i e' b hx hi he hsq hb hblocks hlt
  obtain ⟨ex, hx', hinst, hdeps, -⟩ := h.entry hx
  obtain ⟨e, he', hinst', -, hsq'⟩ := h.entry he
  rw [hinst]
  exact hs x ex i e b hx' (hdeps ▸ hi) he' (hsq' ▸ hsq) hb (hinst' ▸ hblocks) hlt

/-- What is ready stays the only thing to show for a similar state. -/
theorem held (h : Similar s s') (hs : Held s) (hready : Ready (· ∈ s.instList) s') : Held s' where
  listed := h.listed hs.listed
  loads := by rw [h.list, h.loads.1, h.loads.2]; exact hs.loads
  stores := by rw [h.list, h.stores.1, h.stores.2]; exact hs.stores
  waits := by rw [h.list]; exact h.waits hs.waits
  ready := by rw [h.list]; exact hready

end Similar

variable {s : MemDepUnit P}

/-- A write that leaves `memDepReady` alone. -/
theorem Ready.modify (h : Ready out s) (hf : ∀ e, (f e).unmarked = e.unmarked)
    (hn : ∀ e, s.entries n = some e → e.squashed = false → (f e).memDepReady = true →
      e.memDepReady = true ∨ ∀ b, out b → Blocks b e.inst → ¬ b.seqNum < n) : Ready out (s.modify n f) := by
  intro i e b hi hsq hr hb hblocks hlt
  obtain ⟨e0, he0, rfl⟩ := MemDepUnit.modify_entries hi
  by_cases hin : i = n
  · subst hin
    have hinst : (f e0).unmarked.inst = e0.unmarked.inst := congrArg MemDepEntry.inst (hf e0)
    have hsq0 : (f e0).unmarked.squashed = e0.unmarked.squashed :=
      congrArg MemDepEntry.squashed (hf e0)
    change (f e0).inst = e0.inst at hinst
    change (f e0).squashed = e0.squashed at hsq0
    simp only [if_true] at hsq hr hblocks
    rw [hinst] at hblocks
    rcases hn e0 he0 (hsq0 ▸ hsq) hr with hready | hfree
    · exact h i e0 b he0 (hsq0 ▸ hsq) hready hb hblocks hlt
    · exact hfree b hb hblocks hlt
  · simp only [hin, if_false] at hsq hr hblocks
    exact h i e0 b he0 hsq hr hb hblocks hlt

/-! ## Waking the dependents -/

/-- An entry that no outstanding barrier holds back, or that is squashed. -/
def Free (out : DynInst → Prop) (s : MemDepUnit P) (n : Nat) : Prop :=
  ∃ e, s.entries n = some e ∧ (e.squashed = false → ∀ b, out b → Blocks b e.inst → ¬ b.seqNum < n)

theorem Similar.free {s' : MemDepUnit P} (h : Similar s s') (hf : Free out s n) : Free out s' n := by
  obtain ⟨e, he, hfree⟩ := hf
  obtain ⟨e', he', hinst, -, hsq⟩ := h.symm.entry he
  exact ⟨e', he', fun hf => hinst ▸ hfree (hsq.trans hf)⟩

/-- What a piece of code that hands out instructions does to a state. -/
def HandsOut (out : DynInst → Prop) (s : MemDepUnit P) (r : Option (MemDepUnit P × List DynInst)) : Prop :=
  ∃ s' handed, r = some (s', handed) ∧ Similar s s' ∧ Ready out s' ∧ HeldBack out handed

/-- A free entry may be moved to the ready list. -/
theorem moveToReady_heldBack {e : MemDepEntry} (hown : ∀ n e, s.entries n = some e → e.inst.seqNum = n)
    (he : s.entries n = some e) (hfree : ∀ b, out b → Blocks b e.inst → ¬ b.seqNum < n) : HeldBack out [e.inst] := by
  intro i hi b hb hblocks
  rw [List.mem_singleton] at hi
  subst hi
  rw [hown n e he]
  exact hfree b hb hblocks

theorem wake_handsOut (hlisted : Listed s) (hready : Ready out s) (hfree : Free out s n) :
    HandsOut out s (s.wake n) := by
  obtain ⟨e, he, hfree⟩ := hfree
  unfold MemDepUnit.wake
  rw [he, Option.bind_some]
  split
  · rename_i hw
    simp only [Bool.and_eq_true, Bool.not_eq_true'] at hw
    have hmove := MemDepUnit.moveToReady_eq he hw.2
    exact ⟨s, [e.inst], hmove, .refl s, hready, moveToReady_heldBack hlisted.own he (hfree hw.2)⟩
  · refine ⟨_, [], rfl, .modify fun _ => rfl, hready.modify (fun _ => rfl) ?_, heldBack_nil out⟩
    intro e' he' hsq _
    cases he.symm.trans he'
    exact .inr (hfree hsq)

theorem wakeLoop_handsOut {ws : List Nat} (hlisted : Listed s) (hready : Ready out s)
    (hfree : ∀ n ∈ ws, Free out s n) : HandsOut out s (MemDepUnit.wakeLoop ws s) := by
  induction ws generalizing s with
  | nil => exact ⟨s, [], rfl, .refl s, hready, heldBack_nil out⟩
  | cons n ws ih =>
    obtain ⟨s1, handed1, hwake, hsim1, hready1, hheld1⟩ :=
      wake_handsOut hlisted hready (hfree n List.mem_cons_self)
    obtain ⟨s2, handed2, hloop, hsim2, hready2, hheld2⟩ :=
      ih (hsim1.listed hlisted) hready1 fun m hm => hsim1.free (hfree m (List.mem_cons_of_mem n hm))
    refine ⟨s2, handed1 ++ handed2, ?_, hsim1.trans hsim2, hready2, hheld1.append hheld2⟩
    simp [MemDepUnit.wakeLoop, hwake, hloop]

variable {inst : DynInst}

theorem Listed.find (h : Listed s) (hi : inst ∈ s.instList) :
    ∃ e, s.findInHash inst = some e ∧ s.entries inst.seqNum = some e ∧ e.inst = inst ∧ e.squashed = false := by
  obtain ⟨e, he, hinst, hsq⟩ := h.known inst hi
  have hhash : inst.seqNum ∈ s.memDepHash := (h.hash _).2 ⟨inst, hi, rfl⟩
  exact ⟨e, by simp [MemDepUnit.findInHash, hhash, he], he, hinst, hsq⟩

theorem modify_clear (hlisted : Listed s) (hwaits : Waits out s) (hready : Ready out s) :
    let s' := s.modify n ({ · with dependInsts := [] })
    Listed s' ∧ Waits out s' ∧ Ready out s' := by
  have hentry : ∀ {m : Nat} {e' : MemDepEntry},
      (s.modify n ({ · with dependInsts := [] })).entries m = some e' →
      ∃ e, s.entries m = some e ∧ e'.inst = e.inst ∧ e'.squashed = e.squashed ∧
        e'.memDepReady = e.memDepReady ∧ e'.dependInsts ⊆ e.dependInsts := by
    intro m e' he'
    obtain ⟨e, he, rfl⟩ := MemDepUnit.modify_entries he'
    refine ⟨e, he, ?_⟩
    split <;> simp
  have hback : ∀ {m : Nat} {e : MemDepEntry}, s.entries m = some e →
      ∃ e', (s.modify n ({ · with dependInsts := [] })).entries m = some e' ∧ e'.inst = e.inst ∧
        e'.squashed = e.squashed := by
    intro m e he
    by_cases hm : m = n
    · subst hm
      exact ⟨{ e with dependInsts := [] }, by simp [he], rfl, rfl⟩
    · exact ⟨e, by rw [MemDepUnit.modify_entries_of_ne s _ hm, he], rfl, rfl⟩
  refine ⟨⟨hlisted.pos, hlisted.sorted, hlisted.hash, ?_, ?_, ?_⟩, ?_, ?_⟩
  · intro i hi
    obtain ⟨e, he, hinst, hsq⟩ := hlisted.known i hi
    obtain ⟨e', he', hinst', hsq'⟩ := hback he
    exact ⟨e', he', hinst'.trans hinst, hsq'.trans hsq⟩
  · intro m e' he'
    obtain ⟨e, he, hinst, -⟩ := hentry he'
    rw [hinst]
    exact hlisted.own m e he
  · intro m e' he' k hk
    obtain ⟨e, he, -, -, -, hsub⟩ := hentry he'
    obtain ⟨ek, hek⟩ := hlisted.depends m e he k (hsub hk)
    obtain ⟨ek', hek', -⟩ := hback hek
    exact ⟨ek', hek'⟩
  · intro x ex' i e' b hx hi he' hsq hb hblocks hlt
    obtain ⟨ex, hx0, hinst, -, -, hsub⟩ := hentry hx
    obtain ⟨e, he, hinst', hsq', -⟩ := hentry he'
    rw [hinst]
    exact hwaits x ex i e b hx0 (hsub hi) he (hsq' ▸ hsq) hb (hinst' ▸ hblocks) hlt
  · intro i e' b he' hsq hr hb hblocks hlt
    obtain ⟨e, he, hinst, hsq', hr', -⟩ := hentry he'
    exact hready i e b he (hsq' ▸ hsq) (hr' ▸ hr) hb (hinst ▸ hblocks) hlt

/-- Waking the dependents of a memory reference, or of the oldest barrier. -/
theorem wakeDependents_spec (hlisted : Listed s) (hwaits : Waits out s) (hready : Ready out s)
    (hi : inst ∈ s.instList) (hold : inst.IsBarrier → ∀ b, out b → inst.seqNum < b.seqNum) :
    ∃ s' handed, s.wakeDependents inst = some (s', handed) ∧ SameList s s' ∧ Listed s' ∧ Waits out s' ∧
      Ready out s' ∧ HeldBack out handed := by
  unfold MemDepUnit.wakeDependents
  split
  · exact ⟨s, [], rfl, (Similar.refl s).toSameList, hlisted, hwaits, hready, heldBack_nil out⟩
  · obtain ⟨e, hfind, he, hinst, -⟩ := hlisted.find hi
    have hfree : ∀ m ∈ e.dependInsts, Free out s m := by
      intro m hm
      obtain ⟨em, hem⟩ := hlisted.depends _ e he m hm
      refine ⟨em, hem, fun hsq b hb hblocks hlt => ?_⟩
      obtain ⟨hle, hbar⟩ := hwaits _ e m em b he hm hem hsq hb hblocks hlt
      have := hold (hinst ▸ hbar) b hb
      omega
    obtain ⟨s1, handed, hloop, hsim, hready1, hheld⟩ := wakeLoop_handsOut hlisted hready hfree
    obtain ⟨hlisted2, hwaits2, hready2⟩ :=
      modify_clear (n := inst.seqNum) (hsim.listed hlisted) (hsim.waits hwaits) hready1
    refine ⟨_, handed, by simp [hfind, hloop], ?_, hlisted2, hwaits2, hready2, hheld⟩
    exact ⟨hsim.list, hsim.hash, hsim.loads, hsim.stores⟩

/-! ## Leaving the list -/

namespace Raised

variable {l : List DynInst} {kind : DynInst → Prop} {flag : Bool} {sn x : Nat}

theorem filter_other (h : Raised l kind flag sn) (hx : ∀ b ∈ l, kind b → b.seqNum ≠ x) :
    Raised (l.filter (·.seqNum ≠ x)) kind flag sn where
  down hf b hb := h.down hf b (List.mem_filter.1 hb).1
  up hf := by
    obtain ⟨b, hb, hkind, hsn, hmax⟩ := h.up hf
    exact ⟨b, List.mem_filter.2 ⟨hb, by simpa using hx b hb hkind⟩, hkind, hsn, fun c hc =>
      hmax c (List.mem_filter.1 hc).1⟩

/-- The oldest of the kind leaves, and takes the flag down if it is also the youngest. -/
theorem filter_oldest (h : Raised l kind flag sn) (hx : ∀ b ∈ l, kind b → x ≤ b.seqNum) :
    Raised (l.filter (·.seqNum ≠ x)) kind (flag && sn != x) sn where
  down hf b hb hkind := by
    obtain ⟨hb, hne⟩ := List.mem_filter.1 hb
    cases hflag : flag with
    | false => exact h.down hflag b hb hkind
    | true =>
      obtain ⟨c, -, -, -, hmax⟩ := h.up hflag
      have hsn : sn = x := by simpa [hflag] using hf
      have hle := hmax b hb hkind
      have hge := hx b hb hkind
      have hbx : b.seqNum ≠ x := by simpa using hne
      omega
  up hf := by
    simp only [Bool.and_eq_true, bne_iff_ne, ne_eq] at hf
    obtain ⟨b, hb, hkind, hsn, hmax⟩ := h.up hf.1
    refine ⟨b, List.mem_filter.2 ⟨hb, ?_⟩, hkind, hsn, fun c hc => hmax c (List.mem_filter.1 hc).1⟩
    simpa [hsn] using hf.2

end Raised

theorem Listed.seqNum_inj (h : Listed s) {i j : DynInst} (hi : i ∈ s.instList) (hj : j ∈ s.instList)
    (hij : i.seqNum = j.seqNum) : i = j := by
  obtain ⟨e, he, hinst, -⟩ := h.known i hi
  obtain ⟨e', he', hinst', -⟩ := h.known j hj
  rw [hij] at he
  cases he.symm.trans he'
  exact hinst.symm.trans hinst'

theorem completed_spec (hlisted : Listed s) (hi : inst ∈ s.instList) :
    ∃ s', s.completed inst = some s' ∧ Listed s' ∧ s'.entries = s.entries ∧
      s'.instList = s.instList.filter (·.seqNum ≠ inst.seqNum) ∧
      (s'.loadBarrier = s.loadBarrier ∧ s'.loadBarrierSN = s.loadBarrierSN) ∧
      (s'.storeBarrier = s.storeBarrier ∧ s'.storeBarrierSN = s.storeBarrierSN) := by
  have hhash : inst.seqNum ∈ s.memDepHash := (hlisted.hash _).2 ⟨inst, hi, rfl⟩
  refine ⟨_, if_pos hhash, ⟨?_, ?_, ?_, ?_, hlisted.own, hlisted.depends⟩, rfl, rfl, ⟨rfl, rfl⟩,
    ⟨rfl, rfl⟩⟩
  · intro i hi
    exact hlisted.pos i (List.mem_filter.1 hi).1
  · exact hlisted.sorted.filter _
  · intro n
    simp only [Finset.mem_erase, hlisted.hash, List.mem_filter]
    constructor
    · rintro ⟨hne, i, hi, rfl⟩
      exact ⟨i, ⟨hi, by simpa using hne⟩, rfl⟩
    · rintro ⟨i, ⟨hi, hne⟩, rfl⟩
      exact ⟨by simpa using hne, i, hi, rfl⟩
  · intro i hi
    exact hlisted.known i (List.mem_filter.1 hi).1

theorem completed_held (h : Held s) (hi : inst ∈ s.instList) (hmem : inst.IsMemRef) :
    ∃ s', s.completed inst = some s' ∧ Held s' := by
  obtain ⟨s', hs', hlisted, hentries, hlist, hloads, hstores⟩ := completed_spec h.listed hi
  have hother : ∀ b ∈ s.instList, b.IsBarrier → b.seqNum ≠ inst.seqNum := by
    intro b hb hbar heq
    exact hmem.not_isBarrier (h.listed.seqNum_inj hb hi heq ▸ hbar)
  refine ⟨s', hs', hlisted, ?_, ?_, ?_, ?_⟩
  · rw [hlist, hloads.1, hloads.2]
    exact h.loads.filter_other fun b hb hfull => hother b hb hfull.1
  · rw [hlist, hstores.1, hstores.2]
    exact h.stores.filter_other hother
  · intro x ex i e b hx hdep he hsq hb
    rw [hentries] at hx he
    rw [hlist] at hb
    exact h.waits x ex i e b hx hdep he hsq (List.mem_filter.1 hb).1
  · intro i e b he hsq hr hb
    rw [hentries] at he
    rw [hlist] at hb
    exact h.ready i e b he hsq hr (List.mem_filter.1 hb).1

/-- The oldest barrier completes: what it wakes is not held back by those that remain. -/
theorem completeBarrier_held (h : Held s) (hi : inst ∈ s.instList) (hbar : inst.IsBarrier)
    (hold : ∀ b ∈ s.instList, b.IsBarrier → inst.seqNum ≤ b.seqNum) :
    ∃ s' handed, s.completeBarrier inst = some (s', handed) ∧ Held s' ∧ HeldBack (· ∈ s'.instList) handed := by
  let out : DynInst → Prop := fun b => b ∈ s.instList ∧ b.IsBarrier ∧ b.seqNum ≠ inst.seqNum
  have hwaits : Waits out s := fun x ex i e b hx hd he hsq hb => h.waits x ex i e b hx hd he hsq hb.1
  have hready : Ready out s := fun i e b he hsq hr hb => h.ready i e b he hsq hr hb.1
  obtain ⟨s1, handed, hwake, hsame, hlisted1, hwaits1, hready1, hheld⟩ :=
    wakeDependents_spec h.listed hwaits hready hi fun _ b hb => by
      have := hold b hb.1 hb.2.1
      have := hb.2.2
      omega
  obtain ⟨s2, hs2, hlisted2, hentries2, hlist2, hloads2, hstores2⟩ :=
    completed_spec hlisted1 (hsame.list ▸ hi : inst ∈ s1.instList)
  have hlist : s2.instList = s.instList.filter (·.seqNum ≠ inst.seqNum) := by rw [hlist2, hsame.list]
  have hlower : ∀ t : MemDepUnit P, (t.lowerBarrier inst).instList = t.instList ∧
      (t.lowerBarrier inst).entries = t.entries ∧ (t.lowerBarrier inst).memDepHash = t.memDepHash := by
    intro t
    unfold MemDepUnit.lowerBarrier
    split
    · exact ⟨rfl, rfl, rfl⟩
    · split <;> exact ⟨rfl, rfl, rfl⟩
  obtain ⟨hl, he, hh⟩ := hlower s2
  have hout : ∀ b ∈ (s2.lowerBarrier inst).instList, b.IsBarrier → out b := by
    intro b hb hbbar
    rw [hl, hlist] at hb
    obtain ⟨hb, hne⟩ := List.mem_filter.1 hb
    exact ⟨hb, hbbar, by simpa using hne⟩
  refine ⟨s2.lowerBarrier inst, handed, by simp [MemDepUnit.completeBarrier, hwake, hs2], ⟨?_, ?_, ?_, ?_, ?_⟩, ?_⟩
  · exact ⟨hl ▸ hlisted2.pos, hl ▸ hlisted2.sorted, by rw [hl, hh]; exact hlisted2.hash,
      by rw [hl, he]; exact hlisted2.known, he ▸ hlisted2.own, he ▸ hlisted2.depends⟩
  · rw [hl, hlist]
    have hloads := h.loads
    unfold MemDepUnit.lowerBarrier
    split
    · simp only [hloads2, hsame.loads]
      exact hloads.filter_oldest fun b hb hfull => hold b hb hfull.1
    · rename_i hnot
      have hother : ∀ b ∈ s.instList, b.IsFull → b.seqNum ≠ inst.seqNum := by
        intro b hb hfull heq
        exact hnot (h.listed.seqNum_inj hb hi heq ▸ hfull.2)
      split
      · simp only [hloads2, hsame.loads]
        exact hloads.filter_other hother
      · simp only [hloads2, hsame.loads]
        exact hloads.filter_other hother
  · rw [hl, hlist]
    have hstores := h.stores.filter_oldest hold
    unfold MemDepUnit.lowerBarrier
    split
    · simpa only [hstores2, hsame.stores] using hstores
    · split
      · simpa only [hstores2, hsame.stores] using hstores
      · rename_i hnot hnot'
        exact absurd hbar.2.2 (by simp [hnot, hnot'])
  · intro x ex i e b hx hd hi' hsq hb hblocks
    rw [he, hentries2] at hx hi'
    exact hwaits1 x ex i e b hx hd hi' hsq (hout b hb hblocks.isBarrier) hblocks
  · intro i e b hi' hsq hr hb hblocks
    rw [he, hentries2] at hi'
    exact hready1 i e b hi' hsq hr (hout b hb hblocks.isBarrier) hblocks
  · intro i hi' b hb hblocks
    exact hheld i hi' b (hout b hb hblocks.isBarrier) hblocks

/-! ## Squash -/

/-- What the loop of a squash does. -/
structure Squashed (squashedNum : Nat) (s s' : MemDepUnit P) : Prop where
  listed : Listed s'
  list : s'.instList = s.instList.filter (·.seqNum ≤ squashedNum)
  waits : ∀ out, Waits out s → Waits out s'
  ready : ∀ out, Ready out s → Ready out s'
  loadBarrier : s'.loadBarrier = true ↔ s.loadBarrier = true ∧
    ∀ i ∈ s.instList, squashedNum < i.seqNum → i.seqNum ≠ s.loadBarrierSN
  loadBarrierSN : s'.loadBarrierSN = s.loadBarrierSN
  storeBarrier : s'.storeBarrier = true ↔ s.storeBarrier = true ∧
    ∀ i ∈ s.instList, squashedNum < i.seqNum → i.seqNum ≠ s.storeBarrierSN
  storeBarrierSN : s'.storeBarrierSN = s.storeBarrierSN

theorem squashInst_spec (hlisted : Listed s) (hl : s.instList = l ++ [inst]) :
    ∃ s', s.squashInst inst = some s' ∧ Listed s' ∧ s'.instList = l ∧ (∀ out, Waits out s → Waits out s') ∧
      (∀ out, Ready out s → Ready out s') ∧ s'.loadBarrier = (s.loadBarrier && inst.seqNum != s.loadBarrierSN) ∧
      s'.loadBarrierSN = s.loadBarrierSN ∧ s'.storeBarrier = (s.storeBarrier && inst.seqNum != s.storeBarrierSN) ∧
      s'.storeBarrierSN = s.storeBarrierSN := by
  have hi : inst ∈ s.instList := by simp [hl]
  have hsub : ∀ i ∈ l, i ∈ s.instList := fun i hil => by simp [hl, hil]
  have hhash : inst.seqNum ∈ s.memDepHash := (hlisted.hash _).2 ⟨inst, hi, rfl⟩
  have hlt : ∀ i ∈ l, i.seqNum < inst.seqNum := by
    have hsorted := hlisted.sorted
    rw [hl, List.pairwise_append] at hsorted
    exact fun i hil => hsorted.2.2 i hil inst (List.mem_singleton_self inst)
  have hdrop : s.instList.dropLast = l := by simp [hl]
  let f : MemDepEntry → MemDepEntry := ({ · with squashed := true })
  have hentry : ∀ {m : Nat} {e' : MemDepEntry}, (s.modify inst.seqNum f).entries m = some e' →
      ∃ e, s.entries m = some e ∧ e'.inst = e.inst ∧ e'.dependInsts = e.dependInsts ∧
        e'.memDepReady = e.memDepReady ∧ (e'.squashed = false → e.squashed = false) := by
    intro m e' he'
    obtain ⟨e, he, rfl⟩ := MemDepUnit.modify_entries he'
    refine ⟨e, he, ?_⟩
    split <;> simp [f]
  refine ⟨_, if_pos hhash, ⟨?_, ?_, ?_, ?_, ?_, ?_⟩, hdrop, ?_, ?_, rfl, rfl, rfl, rfl⟩
  · intro i hil
    exact hlisted.pos i (hsub i (hdrop ▸ hil))
  · change s.instList.dropLast.Pairwise _
    rw [hdrop]
    exact (List.pairwise_append.1 (hl ▸ hlisted.sorted)).1
  · intro n
    change n ∈ s.memDepHash.erase inst.seqNum ↔ ∃ i ∈ s.instList.dropLast, _
    rw [Finset.mem_erase, hlisted.hash, hdrop]
    constructor
    · rintro ⟨hne, i, hil, rfl⟩
      rw [hl, List.mem_append, List.mem_singleton] at hil
      rcases hil with hil | rfl
      · exact ⟨i, hil, rfl⟩
      · exact absurd rfl hne
    · rintro ⟨i, hil, rfl⟩
      exact ⟨(hlt i hil).ne, i, hsub i hil, rfl⟩
  · intro i hil
    replace hil : i ∈ l := hdrop ▸ hil
    obtain ⟨e, he, hinst, hsq⟩ := hlisted.known i (hsub i hil)
    exact ⟨e, (MemDepUnit.modify_entries_of_ne s f (hlt i hil).ne).trans he, hinst, hsq⟩
  · intro m e' he'
    obtain ⟨e, he, hinst, -⟩ := hentry he'
    rw [hinst]
    exact hlisted.own m e he
  · intro m e' he' k hk
    obtain ⟨e, he, -, hdeps, -⟩ := hentry he'
    obtain ⟨ek, hek⟩ := hlisted.depends m e he k (hdeps ▸ hk)
    by_cases hki : k = inst.seqNum
    · subst hki
      exact ⟨f ek, by simp [f, hek]⟩
    · exact ⟨ek, (MemDepUnit.modify_entries_of_ne s f hki).trans hek⟩
  · intro out hwaits x ex' i e' b hx hdep he' hsq hb hblocks hlt'
    obtain ⟨ex, hx0, hinst, hdeps, -⟩ := hentry hx
    obtain ⟨e, he, hinst', -, -, hsq'⟩ := hentry he'
    rw [hinst]
    exact hwaits x ex i e b hx0 (hdeps ▸ hdep) he (hsq' hsq) hb (hinst' ▸ hblocks) hlt'
  · intro out hready i e' b he' hsq hr hb hblocks hlt'
    obtain ⟨e, he, hinst, -, hr', hsq'⟩ := hentry he'
    exact hready i e b he (hsq' hsq) (hr' ▸ hr) hb (hinst ▸ hblocks) hlt'

variable {squashedNum : Nat}

/-- A flag after the last instruction of the list and then the others are squashed. -/
theorem flag_squashInst {flag : Bool} {sn : Nat} (hgt : squashedNum < inst.seqNum) :
    ((flag && inst.seqNum != sn) = true ∧ ∀ i ∈ l, squashedNum < i.seqNum → i.seqNum ≠ sn) ↔
      (flag = true ∧ ∀ i ∈ l ++ [inst], squashedNum < i.seqNum → i.seqNum ≠ sn) := by
  simp only [Bool.and_eq_true, bne_iff_ne, ne_eq, List.mem_append, List.mem_singleton]
  constructor
  · rintro ⟨⟨hflag, hne⟩, hall⟩
    refine ⟨hflag, fun i hi hgt' => ?_⟩
    rcases hi with hi | rfl
    · exact hall i hi hgt'
    · exact hne
  · rintro ⟨hflag, hall⟩
    exact ⟨⟨hflag, hall inst (.inr rfl) hgt⟩, fun i hi => hall i (.inl hi)⟩

theorem squashLoop_spec {squashedNum : Nat} {l : List DynInst} {s : MemDepUnit P} (hlisted : Listed s)
    (hl : s.instList = l.reverse) :
    ∃ s', MemDepUnit.squashLoop squashedNum l s = some s' ∧ Squashed squashedNum s s' := by
  induction l generalizing s with
  | nil =>
    refine ⟨s, rfl, hlisted, by simp [hl], fun _ h => h, fun _ h => h, ?_, rfl, ?_, rfl⟩
    · simp [hl]
    · simp [hl]
  | cons inst l ih =>
    have hl' : s.instList = l.reverse ++ [inst] := by simp [hl]
    have hlt : ∀ i ∈ l.reverse, i.seqNum < inst.seqNum := by
      have hsorted := hlisted.sorted
      rw [hl', List.pairwise_append] at hsorted
      exact fun i hil => hsorted.2.2 i hil inst (List.mem_singleton_self inst)
    by_cases hgt : squashedNum < inst.seqNum
    · obtain ⟨s1, hs1, hlisted1, hlist1, hwaits1, hready1, hlb, hlsn, hsb, hssn⟩ :=
        squashInst_spec hlisted hl'
      obtain ⟨s2, hs2, h2⟩ := ih hlisted1 hlist1
      refine ⟨s2, by simp [MemDepUnit.squashLoop, hgt, hs1, hs2], h2.listed, ?_,
        fun out h => h2.waits out (hwaits1 out h), fun out h => h2.ready out (hready1 out h), ?_,
        h2.loadBarrierSN.trans hlsn, ?_, h2.storeBarrierSN.trans hssn⟩
      · rw [h2.list, hlist1, hl', List.filter_append]
        have : ¬ inst.seqNum ≤ squashedNum := by omega
        simp [this]
      · rw [h2.loadBarrier, hlb, hlist1, hlsn, hl']
        exact flag_squashInst hgt
      · rw [h2.storeBarrier, hsb, hlist1, hssn, hl']
        exact flag_squashInst hgt
    · have hle : ∀ i ∈ s.instList, i.seqNum ≤ squashedNum := by
        intro i hi
        rw [hl', List.mem_append, List.mem_singleton] at hi
        rcases hi with hi | rfl
        · have := hlt i hi
          omega
        · omega
      have hnone : ∀ i ∈ s.instList, squashedNum < i.seqNum → False := by
        intro i hi hgt'
        have := hle i hi
        omega
      refine ⟨s, by simp [MemDepUnit.squashLoop, hgt], hlisted, ?_, fun _ h => h, fun _ h => h, ?_, rfl,
        ?_, rfl⟩
      · exact (List.filter_eq_self.2 fun i hi => by simpa using hle i hi).symm
      · exact ⟨fun hf => ⟨hf, fun i hi hgt' => (hnone i hi hgt').elim⟩, And.left⟩
      · exact ⟨fun hf => ⟨hf, fun i hi hgt' => (hnone i hi hgt').elim⟩, And.left⟩

theorem squash_spec [MemDepPred P] (hlisted : Listed s) (squashedNum : Nat) :
    ∃ s', s.squash squashedNum = some s' ∧ Squashed squashedNum s s' := by
  have hlisted' : Listed { s with instsToReplay := s.instsToReplay.filter (·.seqNum ≤ squashedNum) } :=
    ⟨hlisted.pos, hlisted.sorted, hlisted.hash, hlisted.known, hlisted.own, hlisted.depends⟩
  obtain ⟨s', hs', h⟩ := @squashLoop_spec _ squashedNum s.instList.reverse _ hlisted'
    (by simp)
  have hsquash : s.squash squashedNum =
      some { s' with depPred := MemDepPred.squash s'.depPred squashedNum } := by
    simp [MemDepUnit.squash, hs']
  refine ⟨_, hsquash, ?_, h.list, h.waits, h.ready, h.loadBarrier, h.loadBarrierSN, h.storeBarrier,
    h.storeBarrierSN⟩
  exact ⟨h.listed.pos, h.listed.sorted, h.listed.hash, h.listed.known, h.listed.own, h.listed.depends⟩

variable {kind : DynInst → Prop}

/-- The flag is right after a squash exactly if the squash removed all of the kind or the youngest stayed. -/
theorem Raised.squash {flag flag' : Bool} {sn : Nat} (h : Raised l kind flag sn) (hall : AllOrNone l kind squashedNum)
    (hflag : flag' = true ↔ flag = true ∧ ∀ i ∈ l, squashedNum < i.seqNum → i.seqNum ≠ sn) :
    Raised (l.filter (·.seqNum ≤ squashedNum)) kind flag' sn where
  down hf b hb hkind := by
    obtain ⟨hb, hle⟩ := List.mem_filter.1 hb
    have hle : b.seqNum ≤ squashedNum := by simpa using hle
    cases hflag0 : flag with
    | false => exact h.down hflag0 b hb hkind
    | true =>
      obtain ⟨c, hc, hck, hcsn, -⟩ := h.up hflag0
      have hcgt : squashedNum < c.seqNum := by
        by_contra hnot
        refine absurd (hflag.2 ⟨hflag0, fun i _ hgt heq => ?_⟩) (by simp [hf])
        omega
      have := hall c hc hck hcgt b hb hkind
      omega
  up hf := by
    obtain ⟨hflag0, hne⟩ := hflag.1 hf
    obtain ⟨b, hb, hkind, hsn, hmax⟩ := h.up hflag0
    have hle : b.seqNum ≤ squashedNum := by
      by_contra hgt
      exact hne b hb (by omega) hsn
    exact ⟨b, List.mem_filter.2 ⟨hb, by simpa using hle⟩, hkind, hsn, fun c hc =>
      hmax c (List.mem_filter.1 hc).1⟩

theorem Squashed.held {s' : MemDepUnit P} (h : Held s) (hs : Squashed squashedNum s s')
    (hfull : AllOrNone s.instList DynInst.IsFull squashedNum)
    (hbar : AllOrNone s.instList DynInst.IsBarrier squashedNum) : Held s' where
  listed := hs.listed
  loads := by
    rw [hs.list, hs.loadBarrierSN]
    exact h.loads.squash hfull hs.loadBarrier
  stores := by
    rw [hs.list, hs.storeBarrierSN]
    exact h.stores.squash hbar hs.storeBarrier
  waits := by
    intro x ex i e b hx hd he hsq hb
    rw [hs.list] at hb
    exact hs.waits _ h.waits x ex i e b hx hd he hsq (List.mem_filter.1 hb).1
  ready := by
    intro i e b he hsq hr hb
    rw [hs.list] at hb
    exact hs.ready _ h.ready i e b he hsq hr (List.mem_filter.1 hb).1

/-! ## Insertion -/

theorem Held.of_entries {s' : MemDepUnit P} (h : Held s) (hsame : SameList s s')
    (hentries : s'.entries = s.entries) : Held s' := by
  have hsim : Similar s s' := ⟨hsame, fun n => by rw [hentries]⟩
  refine hsim.held h fun i e b he => ?_
  rw [hentries] at he
  exact h.ready i e b he

theorem Listed.addEntry (h : Listed s) (hf : Fresh s inst) : Listed (s.addEntry inst) := by
  have hlt : ∀ i ∈ s.instList, i.seqNum < inst.seqNum := by
    intro i hi
    obtain ⟨e, he, -⟩ := h.known i hi
    exact hf.2 _ e he
  have hne : ∀ {n : Nat} {e : MemDepEntry}, s.entries n = some e → n ≠ inst.seqNum := fun he =>
    (hf.2 _ _ he).ne
  refine ⟨?_, ?_, ?_, ?_, ?_, ?_⟩
  · intro i hi
    rcases List.mem_append.1 hi with hi | hi
    · exact h.pos i hi
    · rw [List.mem_singleton.1 hi]
      exact hf.1
  · exact List.pairwise_append.2 ⟨h.sorted, List.pairwise_singleton _ _, fun i hi j hj => by
      rw [List.mem_singleton.1 hj]
      exact hlt i hi⟩
  · intro n
    simp only [MemDepUnit.addEntry, Finset.mem_insert, h.hash, List.mem_append, List.mem_singleton]
    constructor
    · rintro (rfl | ⟨i, hi, rfl⟩)
      · exact ⟨inst, .inr rfl, rfl⟩
      · exact ⟨i, .inl hi, rfl⟩
    · rintro ⟨i, hi | rfl, rfl⟩
      · exact .inr ⟨i, hi, rfl⟩
      · exact .inl rfl
  · intro i hi
    rcases List.mem_append.1 hi with hi | hi
    · obtain ⟨e, he, hrest⟩ := h.known i hi
      exact ⟨e, by simp [MemDepUnit.addEntry, hne he, he], hrest⟩
    · rw [List.mem_singleton.1 hi]
      exact ⟨.new inst, by simp [MemDepUnit.addEntry], rfl, rfl⟩
  · intro n e he
    by_cases hn : n = inst.seqNum
    · subst hn
      simp only [MemDepUnit.addEntry, Function.update_self, Option.some.injEq] at he
      subst he
      rfl
    · exact h.own n e (by simpa [MemDepUnit.addEntry, hn] using he)
  · intro n e he m hm
    by_cases hn : n = inst.seqNum
    · subst hn
      simp only [MemDepUnit.addEntry, Function.update_self, Option.some.injEq] at he
      subst he
      exact absurd hm List.not_mem_nil
    · obtain ⟨em, hem⟩ := h.depends n e (by simpa [MemDepUnit.addEntry, hn] using he) m hm
      exact ⟨em, by simp [MemDepUnit.addEntry, hne hem, hem]⟩

/-- Nothing waits on a new entry, and a new instruction holds back none of the older ones. -/
theorem waits_addEntry (hlisted : Listed s) (hf : Fresh s inst) (h : Waits (· ∈ s.instList) s) :
    Waits (· ∈ (s.addEntry inst).instList) (s.addEntry inst) := by
  intro x ex i e b hx hdep he hsq hb hblocks hlt
  have hx' : x ≠ inst.seqNum := by
    rintro rfl
    simp only [MemDepUnit.addEntry, Function.update_self, Option.some.injEq] at hx
    subst hx
    exact absurd hdep List.not_mem_nil
  simp only [MemDepUnit.addEntry, Function.update_of_ne hx'] at hx
  obtain ⟨ei, hei⟩ := hlisted.depends x ex hx i hdep
  have hi : i < inst.seqNum := hf.2 i ei hei
  simp only [MemDepUnit.addEntry, Function.update_of_ne hi.ne] at he
  rcases List.mem_append.1 hb with hb | hb
  · exact h x ex i e b hx hdep he hsq hb hblocks hlt
  · rw [List.mem_singleton.1 hb] at hlt
    omega

theorem ready_addEntry (hf : Fresh s inst) (h : Ready (· ∈ s.instList) s) :
    Ready (· ∈ (s.addEntry inst).instList) (s.addEntry inst) := by
  intro i e b he hsq hr hb hblocks hlt
  have hi : i ≠ inst.seqNum := by
    rintro rfl
    simp only [MemDepUnit.addEntry, Function.update_self, Option.some.injEq] at he
    subst he
    cases hr
  simp only [MemDepUnit.addEntry, Function.update_of_ne hi] at he
  have hilt := hf.2 i e he
  rcases List.mem_append.1 hb with hb | hb
  · exact h i e b he hsq hr hb hblocks hlt
  · rw [List.mem_singleton.1 hb] at hlt
    omega

theorem Raised.append_other {flag : Bool} {sn : Nat} (h : Raised l kind flag sn) (hk : ¬ kind inst) :
    Raised (l ++ [inst]) kind flag sn where
  down hf b hb := by
    rcases List.mem_append.1 hb with hb | hb
    · exact h.down hf b hb
    · rwa [List.mem_singleton.1 hb]
  up hf := by
    obtain ⟨b, hb, hkind, hsn, hmax⟩ := h.up hf
    refine ⟨b, List.mem_append_left _ hb, hkind, hsn, fun c hc hck => ?_⟩
    rcases List.mem_append.1 hc with hc | hc
    · exact hmax c hc hck
    · exact absurd (List.mem_singleton.1 hc ▸ hck) hk

theorem raised_append (hk : kind inst) (hlt : ∀ i ∈ l, i.seqNum < inst.seqNum) :
    Raised (l ++ [inst]) kind true inst.seqNum where
  down hf := nomatch hf
  up _ := by
    refine ⟨inst, by simp, hk, rfl, fun c hc _ => ?_⟩
    rcases List.mem_append.1 hc with hc | hc
    · exact (hlt c hc).le
    · rw [List.mem_singleton.1 hc]

theorem addEntry_held (h : Held s) (hf : Fresh s inst) (hmem : inst.IsMemRef) : Held (s.addEntry inst) where
  listed := h.listed.addEntry hf
  loads := h.loads.append_other fun hfull => hmem.not_isBarrier hfull.1
  stores := h.stores.append_other hmem.not_isBarrier
  waits := waits_addEntry h.listed hf h.waits
  ready := ready_addEntry hf h.ready

theorem insertBarrier_held (h : Held s) (hf : Fresh s inst) (hbar : inst.IsBarrier) :
    Held (s.insertBarrier inst) := by
  have hraise : (s.raiseBarrier inst).instList = s.instList ∧ (s.raiseBarrier inst).entries = s.entries ∧
      (s.raiseBarrier inst).memDepHash = s.memDepHash := by
    unfold MemDepUnit.raiseBarrier
    split
    · exact ⟨rfl, rfl, rfl⟩
    · split <;> exact ⟨rfl, rfl, rfl⟩
  obtain ⟨hl, he, hh⟩ := hraise
  have hf' : Fresh (s.raiseBarrier inst) inst := ⟨hf.1, fun n e hn => hf.2 n e (he ▸ hn)⟩
  have hlisted : Listed (s.raiseBarrier inst) := ⟨hl ▸ h.listed.pos, hl ▸ h.listed.sorted,
    by rw [hh, hl]; exact h.listed.hash, by rw [hl, he]; exact h.listed.known, he ▸ h.listed.own,
    he ▸ h.listed.depends⟩
  have hlt : ∀ i ∈ s.instList, i.seqNum < inst.seqNum := by
    intro i hi
    obtain ⟨e, hei, -⟩ := h.listed.known i hi
    exact hf.2 _ e hei
  refine ⟨hlisted.addEntry hf', ?_, ?_, waits_addEntry hlisted hf' ?_, ready_addEntry hf' ?_⟩
  · change Raised ((s.raiseBarrier inst).instList ++ [inst]) _ (s.raiseBarrier inst).loadBarrier _
    rw [hl]
    change Raised _ _ _ (s.raiseBarrier inst).loadBarrierSN
    unfold MemDepUnit.raiseBarrier
    split
    · rename_i hmem
      exact raised_append ⟨hbar, hmem⟩ hlt
    · rename_i hmem
      split <;> exact h.loads.append_other fun hfull => hmem hfull.2
  · change Raised ((s.raiseBarrier inst).instList ++ [inst]) _ (s.raiseBarrier inst).storeBarrier _
    rw [hl]
    change Raised _ _ _ (s.raiseBarrier inst).storeBarrierSN
    unfold MemDepUnit.raiseBarrier
    split
    · exact raised_append hbar hlt
    · split
      · exact raised_append hbar hlt
      · rename_i hnot hnot'
        exact absurd hbar.2.2 (by simp [hnot, hnot'])
  · intro x ex i e b hx hd hi hsq hb
    rw [he] at hx hi
    rw [hl] at hb
    exact h.waits x ex i e b hx hd hi hsq hb
  · intro i e b hi hsq hr hb
    rw [he] at hi
    rw [hl] at hb
    exact h.ready i e b hi hsq hr hb

/-- The producer of an access that is held back is a barrier, not older than any that holds it back. -/
theorem producer_covers [MemDepPred P] {b : DynInst} (h : Held s) (hkeeps : Keeps s (.insert inst))
    (hb : b ∈ s.instList) (hblocks : Blocks b inst) :
    ∃ c ∈ s.instList, c.IsBarrier ∧ c.seqNum = (s.producingStore inst).1 ∧ b.seqNum ≤ c.seqNum := by
  unfold MemDepUnit.producingStore
  split
  · rename_i hload
    simp only [Bool.and_eq_true] at hload
    obtain ⟨c, hc, hfull, hsn, hmax⟩ := h.loads.up hload.2
    refine ⟨c, hc, hfull.1, hsn, ?_⟩
    rcases hblocks with ⟨hbf, -⟩ | ⟨hbb, hstore⟩
    · exact hsn ▸ hmax b hb hbf
    · obtain ⟨f, hf, hff, hle⟩ := hkeeps hload.1 hstore ⟨c, hc, hfull⟩ b hb hbb
      exact hle.trans (hsn ▸ hmax f hf hff)
  · rename_i hload
    have hnot : ¬ (b.IsFull ∧ inst.isLoad = true) := by
      rintro ⟨hbf, hl⟩
      cases hflag : s.loadBarrier with
      | false => exact h.loads.down hflag b hb hbf
      | true => exact hload (by simp [hl, hflag])
    obtain ⟨hbb, hstore⟩ := hblocks.resolve_left hnot
    cases hflag : s.storeBarrier with
    | false => exact absurd hbb (h.stores.down hflag b hb)
    | true =>
      obtain ⟨c, hc, hcb, hsn, hmax⟩ := h.stores.up hflag
      exact ⟨c, hc, hcb, by simp [hstore, hsn], hsn ▸ hmax b hb hbb⟩

/-- A new dependent waits if its producer covers what holds it back. -/
theorem modify_append_held {store m : Nat} (h : Held s) (hm : ∃ e, s.entries m = some e)
    (hcovers : ∀ ex e, s.entries store = some ex → s.entries m = some e → ∀ b ∈ s.instList,
      Blocks b e.inst → b.seqNum < m → b.seqNum ≤ store ∧ ex.inst.IsBarrier) :
    Held (s.modify store fun e => { e with dependInsts := e.dependInsts ++ [m] }) := by
  have hentry : ∀ {n : Nat} {e' : MemDepEntry},
      (s.modify store fun e => { e with dependInsts := e.dependInsts ++ [m] }).entries n = some e' →
      ∃ e, s.entries n = some e ∧ e'.inst = e.inst ∧ e'.squashed = e.squashed ∧
        e'.memDepReady = e.memDepReady ∧ ∀ k ∈ e'.dependInsts, k ∈ e.dependInsts ∨ n = store ∧ k = m := by
    intro n e' he'
    obtain ⟨e, he, rfl⟩ := MemDepUnit.modify_entries he'
    refine ⟨e, he, ?_⟩
    split
    · rename_i hn
      simp [hn]
    · exact ⟨rfl, rfl, rfl, fun k hk => .inl hk⟩
  have hback : ∀ {n : Nat} {e : MemDepEntry}, s.entries n = some e →
      ∃ e', (s.modify store fun e => { e with dependInsts := e.dependInsts ++ [m] }).entries n = some e' ∧
        e'.inst = e.inst ∧ e'.squashed = e.squashed := by
    intro n e he
    by_cases hn : n = store
    · subst hn
      exact ⟨{ e with dependInsts := e.dependInsts ++ [m] }, by simp [he], rfl, rfl⟩
    · exact ⟨e, by rw [MemDepUnit.modify_entries_of_ne s _ hn, he], rfl, rfl⟩
  refine ⟨⟨h.listed.pos, h.listed.sorted, h.listed.hash, ?_, ?_, ?_⟩, h.loads, h.stores, ?_, ?_⟩
  · intro i hi
    obtain ⟨e, he, hinst, hsq⟩ := h.listed.known i hi
    obtain ⟨e', he', hinst', hsq'⟩ := hback he
    exact ⟨e', he', hinst'.trans hinst, hsq'.trans hsq⟩
  · intro n e' he'
    obtain ⟨e, he, hinst, -⟩ := hentry he'
    rw [hinst]
    exact h.listed.own n e he
  · intro n e' he' k hk
    obtain ⟨e, he, -, -, -, hdeps⟩ := hentry he'
    have hknown : ∃ ek, s.entries k = some ek := by
      rcases hdeps k hk with hk | ⟨-, rfl⟩
      · exact h.listed.depends n e he k hk
      · exact hm
    obtain ⟨ek, hek⟩ := hknown
    obtain ⟨ek', hek', -⟩ := hback hek
    exact ⟨ek', hek'⟩
  · intro x ex' i e' b hx hi he' hsq hb hblocks hlt
    obtain ⟨ex, hx0, hinst, -, -, hdeps⟩ := hentry hx
    obtain ⟨e, he, hinst', hsq', -⟩ := hentry he'
    rw [hinst]
    rw [hinst'] at hblocks
    rcases hdeps i hi with hi | ⟨rfl, rfl⟩
    · exact h.waits x ex i e b hx0 hi he (hsq' ▸ hsq) hb hblocks hlt
    · exact hcovers ex e hx0 he b hb hblocks hlt
  · intro i e' b he' hsq hr hb hblocks hlt
    obtain ⟨e, he, hinst, hsq', hr', -⟩ := hentry he'
    exact h.ready i e b he (hsq' ▸ hsq) (hr' ▸ hr) hb (hinst ▸ hblocks) hlt

theorem tellPred_eq [MemDepPred P] (s : MemDepUnit P) (h : inst.IsMemRef) :
    ∃ depPred, s.tellPred inst = some { s with depPred := depPred } := by
  unfold MemDepUnit.tellPred
  split
  · exact ⟨_, rfl⟩
  · rename_i hstore
    exact ⟨s.depPred, if_pos (h.resolve_right hstore)⟩

/-- A mark that leaves `memDepReady` alone. -/
theorem Held.mark (h : Held s) (n : Nat) (hf : ∀ e, (f e).unmarked = e.unmarked)
    (hr : ∀ e, (f e).memDepReady = e.memDepReady) : Held (s.modify n f) := by
  refine (Similar.modify hf).held h (h.ready.modify hf fun e _ _ hready => .inl ?_)
  rwa [hr] at hready

theorem addDependent_held {store : Nat} (h : Held s) (hi : inst ∈ s.instList)
    (hcovers : ∀ b ∈ s.instList, Blocks b inst → b.seqNum < inst.seqNum →
      ∃ c ∈ s.instList, c.IsBarrier ∧ c.seqNum = store ∧ b.seqNum ≤ c.seqNum) : Held (s.addDependent store inst) := by
  let s1 := s.modify inst.seqNum fun e => { e with regsReady := s.canIssue inst.seqNum || e.regsReady }
  let s2 : MemDepUnit P := { s1 with canIssue := Function.update s1.canIssue inst.seqNum false }
  have h1 : Held s1 := h.mark inst.seqNum (fun _ => rfl) fun _ => rfl
  have h2 : Held s2 := h1.of_entries ⟨rfl, rfl, ⟨rfl, rfl⟩, ⟨rfl, rfl⟩⟩ rfl
  obtain ⟨e2, he2, hinst2, -⟩ := h2.listed.known inst hi
  refine modify_append_held h2 ⟨e2, he2⟩ fun ex e hx he b hb hblocks hlt => ?_
  cases he2.symm.trans he
  obtain ⟨c, hc, hcb, rfl, hle⟩ := hcovers b hb (hinst2 ▸ hblocks) hlt
  obtain ⟨ec, hec, hcinst, -⟩ := h2.listed.known c hc
  cases hec.symm.trans hx
  exact ⟨hle, hcinst ▸ hcb⟩

theorem noDependency_held (h : Held s) (hi : inst ∈ s.instList)
    (hfree : ∀ b ∈ s.instList, Blocks b inst → ¬ b.seqNum < inst.seqNum) :
    ∃ s' handed, s.noDependency inst = some (s', handed) ∧ Held s' ∧ s'.instList = s.instList ∧
      HeldBack (· ∈ s.instList) handed := by
  obtain ⟨e, he, hinst, hsq⟩ := h.listed.known inst hi
  have hmark : ∀ {t : MemDepUnit P} {f : MemDepEntry → MemDepEntry}, Held t → Similar s t →
      (∀ e, (f e).unmarked = e.unmarked) → Held (t.modify inst.seqNum f) := by
    intro t f ht hsim hf
    refine (Similar.modify hf).held ht (ht.ready.modify hf fun e' he' _ _ => .inr ?_)
    obtain ⟨e0, he0, hinst0, -⟩ := hsim.entry he'
    cases he.symm.trans he0
    intro b hb hblocks
    rw [hinst0, hinst] at hblocks
    exact hfree b (hsim.list ▸ hb) hblocks
  have h1 := hmark (f := ({ · with memDepReady := true })) h (.refl s) fun _ => rfl
  have h2 := hmark (f := ({ · with regsReady := true })) h1 (.modify fun _ => rfl) fun _ => rfl
  unfold MemDepUnit.noDependency
  simp only
  split
  · obtain ⟨e2, he2, hinst2, hsq2⟩ := h2.listed.known inst hi
    refine ⟨_, [e2.inst], MemDepUnit.moveToReady_eq he2 hsq2, h2, rfl,
      moveToReady_heldBack h2.listed.own he2 ?_⟩
    rw [hinst2]
    exact hfree
  · exact ⟨_, [], rfl, h1, rfl, heldBack_nil _⟩

theorem insert_held [MemDepPred P] (h : Held s) (hf : Fresh s inst) (hmem : inst.IsMemRef)
    (hkeeps : Keeps s (.insert inst)) :
    ∃ s' handed, s.insert inst = some (s', handed) ∧ Held s' ∧ HeldBack (· ∈ s'.instList) handed := by
  let s1 := s.addEntry inst
  let s2 : MemDepUnit P := { s1 with depPred := (s1.producingStore inst).2 }
  have h2 : Held s2 := (addEntry_held h hf hmem).of_entries ⟨rfl, rfl, ⟨rfl, rfl⟩, ⟨rfl, rfl⟩⟩ rfl
  have hi : inst ∈ s2.instList := List.mem_append_right _ (List.mem_singleton_self inst)
  have hcovers : ∀ b ∈ s2.instList, Blocks b inst → b.seqNum < inst.seqNum →
      ∃ c ∈ s2.instList, c.IsBarrier ∧ c.seqNum = (s1.producingStore inst).1 ∧ b.seqNum ≤ c.seqNum := by
    intro b hb hblocks hlt
    rcases List.mem_append.1 hb with hb | hb
    · obtain ⟨c, hc, hrest⟩ := producer_covers h hkeeps hb hblocks
      exact ⟨c, List.mem_append_left _ hc, hrest⟩
    · rw [List.mem_singleton.1 hb] at hlt
      omega
  unfold MemDepUnit.insert
  simp only
  split
  · obtain ⟨depPred, htell⟩ := tellPred_eq (s2.addDependent (s1.producingStore inst).1 inst) hmem
    have h3 := addDependent_held h2 hi hcovers
    refine ⟨_, [], by rw [Option.bind_some]; exact congrArg _ htell, ?_, heldBack_nil _⟩
    exact h3.of_entries ⟨rfl, rfl, ⟨rfl, rfl⟩, ⟨rfl, rfl⟩⟩ rfl
  · rename_i hnot
    obtain ⟨s3, handed, hs3, h3, hlist, hheld⟩ := noDependency_held h2 hi fun b hb hblocks hlt => by
      obtain ⟨c, hc, -, hsn, -⟩ := hcovers b hb hblocks hlt
      refine hnot ⟨?_, ?_⟩
      · rw [← hsn]
        exact (h2.listed.pos c hc).ne'
      · exact (h2.listed.hash _).2 ⟨c, hc, hsn⟩
    obtain ⟨depPred, htell⟩ := tellPred_eq s3 hmem
    refine ⟨{ s3 with depPred := depPred }, handed, ?_, ?_, ?_⟩
    · change (s2.noDependency inst).bind _ = _
      rw [hs3, Option.bind_some, htell, Option.map_some]
    · exact h3.of_entries ⟨rfl, rfl, ⟨rfl, rfl⟩, ⟨rfl, rfl⟩⟩ rfl
    · change HeldBack (· ∈ s3.instList) handed
      rw [hlist]
      exact hheld

/-! ## The other calls -/

theorem regsReady_held (h : Held s) (hi : inst ∈ s.instList) :
    ∃ s' handed, s.regsReady inst = some (s', handed) ∧ Held s' ∧ HeldBack (· ∈ s'.instList) handed := by
  obtain ⟨e, hfind, he, hinst, hsq⟩ := h.listed.find hi
  have h1 : Held (s.modify inst.seqNum ({ · with regsReady := true })) :=
    h.mark inst.seqNum (fun _ => rfl) fun _ => rfl
  unfold MemDepUnit.regsReady
  rw [hfind, Option.bind_some]
  simp only
  split
  · rename_i hready
    obtain ⟨e1, he1, hinst1, hsq1⟩ := h1.listed.known inst hi
    refine ⟨_, [e1.inst], MemDepUnit.moveToReady_eq he1 hsq1, h1,
      moveToReady_heldBack h1.listed.own he1 fun b hb hblocks => ?_⟩
    rw [hinst1, ← hinst] at hblocks
    exact h.ready _ e b he hsq hready hb hblocks
  · exact ⟨_, [], rfl, h1, heldBack_nil _⟩

theorem nonSpecInstReady_eq (h : Listed s) (hi : inst ∈ s.instList) : s.nonSpecInstReady inst = some (s, [inst]) := by
  obtain ⟨e, hfind, he, hinst, hsq⟩ := h.find hi
  simp [MemDepUnit.nonSpecInstReady, hfind, MemDepUnit.moveToReady_eq he hsq, hinst]

/-- Every instruction to replay is handed out. -/
theorem replayLoop_eq (h : Listed s) (hl : ∀ i ∈ l, i ∈ s.instList) (hs : s.instsToReplay = l) :
    MemDepUnit.replayLoop l s = some ({ s with instsToReplay := [] }, l) := by
  induction l generalizing s with
  | nil =>
    cases s
    cases hs
    rfl
  | cons i l ih =>
    obtain ⟨e, hfind, he, hinst, hsq⟩ := h.find (hl i List.mem_cons_self)
    have h' : Listed { s with instsToReplay := l } :=
      ⟨h.pos, h.sorted, h.hash, h.known, h.own, h.depends⟩
    have hrest := ih h' (fun j hj => hl j (List.mem_cons_of_mem i hj)) rfl
    simp [MemDepUnit.replayLoop, hfind, MemDepUnit.moveToReady_eq he hsq, hrest, hinst]

/-- **One call.** -/
theorem call_held [MemDepPred P] {c : Call} (h : Held s) (hc : Permitted s c) (hkeeps : Keeps s c) :
    ∃ s' handed, s.call c = some (s', handed) ∧ Held s' ∧
      (c ≠ .replay → (∀ inst, c ≠ .nonSpecInstReady inst) → HeldBack (· ∈ s'.instList) handed) := by
  have hsilent : ∀ {s' : MemDepUnit P}, Held s' → ∃ t handed, some (s', []) = some (t, handed) ∧ Held t ∧
      (c ≠ .replay → (∀ inst, c ≠ .nonSpecInstReady inst) → HeldBack (· ∈ t.instList) handed) :=
    fun hs' => ⟨_, [], rfl, hs', fun _ _ => heldBack_nil _⟩
  have hheld : ∀ {r : Option (MemDepUnit P × List DynInst)},
      (∃ s' handed, r = some (s', handed) ∧ Held s' ∧ HeldBack (· ∈ s'.instList) handed) →
      ∃ s' handed, r = some (s', handed) ∧ Held s' ∧
        (c ≠ .replay → (∀ inst, c ≠ .nonSpecInstReady inst) → HeldBack (· ∈ s'.instList) handed) := by
    rintro r ⟨s', handed, hr, hs', hback⟩
    exact ⟨s', handed, hr, hs', fun _ _ => hback⟩
  cases c with
  | insert inst => exact hheld (insert_held h hc.1 hc.2 hkeeps)
  | insertNonSpec inst =>
    obtain ⟨depPred, htell⟩ := tellPred_eq (s.addEntry inst) hc.2
    have h' : Held { s.addEntry inst with depPred := depPred } :=
      (addEntry_held h hc.1 hc.2).of_entries ⟨rfl, rfl, ⟨rfl, rfl⟩, ⟨rfl, rfl⟩⟩ rfl
    have hcall : s.insertNonSpec inst = some ({ s.addEntry inst with depPred := depPred }, []) := by
      rw [MemDepUnit.insertNonSpec, htell, Option.map_some]
    exact hheld ⟨_, [], hcall, h', heldBack_nil _⟩
  | insertBarrier inst => exact hsilent (insertBarrier_held h hc.1 hc.2)
  | regsReady inst => exact hheld (regsReady_held h hc)
  | nonSpecInstReady inst =>
    exact ⟨s, [inst], nonSpecInstReady_eq h.listed hc, h, fun _ hnot => absurd rfl (hnot inst)⟩
  | reschedule inst => exact hsilent (h.of_entries ⟨rfl, rfl, ⟨rfl, rfl⟩, ⟨rfl, rfl⟩⟩ rfl)
  | replay =>
    exact ⟨_, _, replayLoop_eq h.listed hc rfl, h.of_entries ⟨rfl, rfl, ⟨rfl, rfl⟩, ⟨rfl, rfl⟩⟩ rfl,
      fun hnot => absurd rfl hnot⟩
  | wakeDependents inst =>
    obtain ⟨s', handed, hwake, hsame, hlisted, hwaits, hready, hback⟩ :=
      wakeDependents_spec h.listed h.waits h.ready hc.1 fun hbar => absurd hbar hc.2.not_isBarrier
    refine hheld ⟨s', handed, hwake, ⟨hlisted, ?_, ?_, ?_, ?_⟩, ?_⟩
    · rw [hsame.list, hsame.loads.1, hsame.loads.2]
      exact h.loads
    · rw [hsame.list, hsame.stores.1, hsame.stores.2]
      exact h.stores
    · rw [hsame.list]
      exact hwaits
    · rw [hsame.list]
      exact hready
    · rw [hsame.list]
      exact hback
  | completed inst =>
    obtain ⟨s', hs', h'⟩ := completed_held h hc.1 hc.2
    exact hheld ⟨s', [], by simp [MemDepUnit.call, hs'], h', heldBack_nil _⟩
  | completeBarrier inst => exact hheld (completeBarrier_held h hc.1 hc.2.1 hc.2.2)
  | squash squashedNum =>
    obtain ⟨s', hs', hsq⟩ := squash_spec h.listed squashedNum
    exact hheld ⟨s', [], by simp [MemDepUnit.call, hs'], hsq.held h hkeeps.1 hkeeps.2, heldBack_nil _⟩
  | violation store load => exact hsilent (h.of_entries ⟨rfl, rfl, ⟨rfl, rfl⟩, ⟨rfl, rfl⟩⟩ rfl)
  | issue inst => exact hsilent (h.of_entries ⟨rfl, rfl, ⟨rfl, rfl⟩, ⟨rfl, rfl⟩⟩ rfl)
  | setCanIssue n b => exact hsilent (h.of_entries ⟨rfl, rfl, ⟨rfl, rfl⟩, ⟨rfl, rfl⟩⟩ rfl)

theorem held_of_reaches [MemDepPred P] {depPred : P}
    (h : Run.Reaches MemDepUnit.step (fun s c => Permitted s c ∧ Keeps s c) (MemDepUnit.new depPred) s) : Held s := by
  refine h.inv (held_new depPred) fun t c t' ht hc hstep => ?_
  obtain ⟨t1, handed, hcall, hheld, -⟩ := call_held ht hc.1 hc.2
  rw [MemDepUnit.step, hcall] at hstep
  cases hstep
  exact hheld

/-- **Memory barriers hold back younger accesses, as long as no squash of a barrier leaves an older one
behind.**  In a run whose calls all kept it, the next call returns, and unless it is a replay or for a
non-speculative instruction at the head of the reorder buffer, it hands out no load that is younger than a
full barrier in the list, and no store that is younger than any barrier in the list. -/
theorem barriers_hold_back [MemDepPred P] {depPred : P} {s : MemDepUnit P} {c : Call}
    (h : Run.Reaches MemDepUnit.step (fun s c => Permitted s c ∧ Keeps s c) (MemDepUnit.new depPred) s)
    (hc : Permitted s c) (hkeeps : Keeps s c) : ∃ s' handed, s.call c = some (s', handed) ∧
      (c ≠ .replay → (∀ inst, c ≠ .nonSpecInstReady inst) → ∀ i ∈ handed, ∀ b ∈ s'.instList, b.seqNum < i.seqNum →
          (b.IsFull → i.isLoad = false) ∧ (b.IsBarrier → i.isStore = false)) := by
  obtain ⟨s', handed, hcall, -, hheld⟩ := call_held (held_of_reaches h) hc hkeeps
  refine ⟨s', handed, hcall, fun hreplay hnonspec i hi b hb hlt => ⟨fun hfull => ?_, fun hbar => ?_⟩⟩
  · by_contra hload
    exact hheld hreplay hnonspec i hi b hb (.inl ⟨hfull, by simpa using hload⟩) hlt
  · by_contra hstore
    exact hheld hreplay hnonspec i hi b hb (.inr ⟨hbar, by simpa using hstore⟩) hlt

/-! ## The condition is needed -/

/-- A squash that removes the youngest of the kind but not all takes the flag down over those that remain. -/
theorem Raised.squash_down {flag flag' : Bool} {sn : Nat} (h : Raised l kind flag sn)
    (hall : ¬ AllOrNone l kind squashedNum)
    (hflag : flag' = true ↔ flag = true ∧ ∀ i ∈ l, squashedNum < i.seqNum → i.seqNum ≠ sn) :
    flag' = false ∧ ∃ b ∈ l.filter (·.seqNum ≤ squashedNum), kind b := by
  simp only [AllOrNone, not_forall] at hall
  obtain ⟨c, hc, hck, hcgt, b, hb, hbk, hle⟩ := hall
  refine ⟨?_, b, List.mem_filter.2 ⟨hb, by simpa using hle⟩, hbk⟩
  by_contra hset
  obtain ⟨hup, hne⟩ := hflag.1 (by simpa using hset)
  obtain ⟨d, hd, -, hsn, hmax⟩ := h.up hup
  have hcd := hmax c hc hck
  exact hne d hd (by omega) hsn

/-- An access without a barrier flag or a predicted store is handed out as it is inserted. -/
theorem insert_hands_out [MemDepPred P] (hmem : inst.IsMemRef) (hready : s.canIssue inst.seqNum = true)
    (hnone : (s.producingStore inst).1 = 0) : ∃ s', s.insert inst = some (s', [inst]) := by
  let s1 := s.addEntry inst
  let s2 : MemDepUnit P := { s1 with depPred := (s1.producingStore inst).2 }
  have hzero : (s1.producingStore inst).1 = 0 := hnone
  have hentry : s2.entries inst.seqNum = some (.new inst) := Function.update_self ..
  have hdep : ∃ s3, s2.noDependency inst = some (s3, [inst]) := by
    let s3 := (s2.modify inst.seqNum ({ · with memDepReady := true })).modify inst.seqNum
      ({ · with regsReady := true })
    have he3 : s3.entries inst.seqNum = some ⟨inst, [], true, true, false⟩ := by
      simp [s3, hentry, MemDepEntry.new]
    exact ⟨s3, (if_pos hready).trans (MemDepUnit.moveToReady_eq he3 rfl)⟩
  obtain ⟨s3, hs3⟩ := hdep
  obtain ⟨depPred, htell⟩ := tellPred_eq s3 hmem
  refine ⟨{ s3 with depPred := depPred }, ?_⟩
  unfold MemDepUnit.insert
  simp only
  rw [if_neg (fun hnot => hnot.1 hzero)]
  change (s2.noDependency inst).bind _ = _
  rw [hs3, Option.bind_some, htell, Option.map_some]

/-- The next load, or the next store, that is ready and without a predicted store is handed out behind the barrier. -/
def Frees [MemDepPred P] (s : MemDepUnit P) (b : DynInst) (isLoad : Bool) : Prop :=
  ∀ inst, Fresh s inst → inst.isLoad = isLoad → inst.isStore = !isLoad → s.canIssue inst.seqNum = true →
    (MemDepPred.checkInst s.depPred inst.instAddr).1 = 0 →
    Blocks b inst ∧ b.seqNum < inst.seqNum ∧ ∃ s', s.insert inst = some (s', [inst])

/-- **The condition on a squash is needed:** in a run whose calls all kept the invariant, a squash that does not keep
it leaves a barrier in the list and frees the loads, or the stores, behind it. -/
theorem squash_hands_out [MemDepPred P] {depPred : P} {s : MemDepUnit P}
    (hrun : Run.Reaches MemDepUnit.step (fun s c => Permitted s c ∧ Keeps s c) (MemDepUnit.new depPred) s)
    (hnot : ¬ Keeps s (.squash squashedNum)) :
    ∃ s' b isLoad, s.squash squashedNum = some s' ∧ b ∈ s'.instList ∧ Frees s' b isLoad := by
  have h := held_of_reaches hrun
  obtain ⟨s', hs', hsq⟩ := squash_spec (P := P) h.listed squashedNum
  have hlt : ∀ b ∈ s'.instList, ∀ inst, Fresh s' inst → b.seqNum < inst.seqNum := by
    intro b hb inst hf
    obtain ⟨e, he, -⟩ := hsq.listed.known b hb
    exact hf.2 _ e he
  by_cases hfull : AllOrNone s.instList DynInst.IsFull squashedNum
  · have hbar : ¬ AllOrNone s.instList DynInst.IsBarrier squashedNum := fun hbar => hnot ⟨hfull, hbar⟩
    obtain ⟨hdown, b, hb, hkind⟩ := h.stores.squash_down hbar hsq.storeBarrier
    rw [← hsq.list] at hb
    refine ⟨s', b, false, hs', hb, fun inst hf hload hstore hready hnone => ?_⟩
    refine ⟨.inr ⟨hkind, by simpa using hstore⟩, hlt b hb inst hf,
      insert_hands_out (.inr (by simpa using hstore)) hready ?_⟩
    simpa [MemDepUnit.producingStore, hload, hdown] using hnone
  · obtain ⟨hdown, b, hb, hkind⟩ := h.loads.squash_down hfull hsq.loadBarrier
    rw [← hsq.list] at hb
    refine ⟨s', b, true, hs', hb, fun inst hf hload hstore hready hnone => ?_⟩
    refine ⟨.inl ⟨hkind, hload⟩, hlt b hb inst hf,
      insert_hands_out (.inl hload) hready ?_⟩
    have hstore : inst.isStore = false := by simpa using hstore
    simpa [MemDepUnit.producingStore, hstore, hdown] using hnone

/-! ## Two barriers, the younger of which is squashed -/

/-- A predictor that predicts nothing. -/
instance noPrediction : MemDepPred Unit where
  checkInst _ _ := (0, ())
  insertStore _ _ _ := ()
  issued _ _ _ _ := ()
  violation _ _ _ := ()
  squash _ _ := ()

def fence (sn : Nat) : DynInst := ⟨sn, 0, false, false, true, false⟩

def load (sn : Nat) : DynInst := ⟨sn, 0, true, false, false, false⟩

theorem fence_isBarrier (sn : Nat) : (fence sn).IsBarrier := ⟨rfl, rfl, .inl rfl⟩

theorem fresh_insertBarrier {sn : Nat} (h : Fresh s inst) (hlt : sn < inst.seqNum) :
    Fresh (s.insertBarrier (fence sn)) inst := by
  refine ⟨h.1, fun n e he => ?_⟩
  by_cases hn : n = sn
  · rwa [hn]
  · refine h.2 n e ?_
    change Function.update s.entries sn _ n = some e at he
    rwa [Function.update_of_ne hn] at he

theorem fresh_new (hpos : 0 < inst.seqNum) : Fresh (MemDepUnit.new ()) inst :=
  ⟨hpos, fun _ _ he => nomatch he⟩

def oneFence : MemDepUnit Unit := (MemDepUnit.new ()).insertBarrier (fence 5)

theorem oneFence_permitted : Permitted (MemDepUnit.new ()) (.insertBarrier (fence 5)) :=
  ⟨fresh_new (by decide), fence_isBarrier 5⟩

theorem barriers_hold_back_load : ∃ s' handed,
    oneFence.call (.insert (load 7)) = some (s', handed) ∧ load 7 ∉ handed := by
  have hf : Fresh oneFence (load 7) := fresh_insertBarrier (fresh_new (by decide)) (by decide)
  obtain ⟨s', handed, hcall, hheld⟩ := @barriers_hold_back _ _ () _ (.insert (load 7))
    (Run.Reaches.refl.step ⟨oneFence_permitted, trivial⟩ rfl) ⟨hf, .inl rfl⟩ (fun _ hs => nomatch hs)
  have hlist : fence 5 ∈ s'.instList := by
    cases hcall
    exact List.mem_cons_self
  refine ⟨s', handed, hcall, fun hin => ?_⟩
  obtain ⟨hload, -⟩ := hheld (by simp) (by simp) (load 7) hin (fence 5) hlist (by decide)
  exact absurd (hload ⟨fence_isBarrier 5, rfl⟩) (by decide)

/-- Two full barriers in the list. -/
def twoFences : MemDepUnit Unit := oneFence.insertBarrier (fence 10)

theorem twoFences_permitted : Permitted oneFence (.insertBarrier (fence 10)) :=
  ⟨fresh_insertBarrier (fresh_new (by decide)) (by decide), fence_isBarrier 10⟩

theorem twoFences_reaches : Run.Reaches MemDepUnit.step Permitted (MemDepUnit.new ()) twoFences :=
  (Run.Reaches.refl.step oneFence_permitted rfl).step twoFences_permitted rfl

theorem squash_hands_out_twoFences :
    ∃ s' b isLoad, twoFences.squash 8 = some s' ∧ b ∈ s'.instList ∧ Frees s' b isLoad := by
  have h1 : Run.Reaches MemDepUnit.step (fun s c => Permitted s c ∧ Keeps s c) (MemDepUnit.new ()) oneFence :=
    .step .refl ⟨oneFence_permitted, trivial⟩ rfl
  refine squash_hands_out (h1.step ⟨twoFences_permitted, trivial⟩ rfl) fun hkeeps => ?_
  exact absurd (hkeeps.1 (fence 10) (List.mem_cons_of_mem _ List.mem_cons_self) ⟨fence_isBarrier 10, rfl⟩
    (by decide) (fence 5) List.mem_cons_self ⟨fence_isBarrier 5, rfl⟩) (by decide)

/-- **A squash frees loads from an older barrier:** of two full barriers in the list the younger is
squashed, and the next load is handed out as it is inserted. -/
theorem squash_frees_load : ∃ s s',
    Run.Reaches MemDepUnit.step Permitted (MemDepUnit.new ()) s ∧ fence 5 ∈ s.instList ∧
      Permitted s (.insert (load 11)) ∧ s.call (.insert (load 11)) = some (s', [load 11]) := by
  obtain ⟨t, ht, hlist, hentries, hload, hstore⟩ : ∃ t, twoFences.step (.squash 8) = some t ∧
      fence 5 ∈ t.instList ∧ t.entries = (twoFences.modify 10 ({ · with squashed := true })).entries ∧
      t.loadBarrier = false ∧ t.storeBarrier = false :=
    ⟨_, rfl, by decide, rfl, rfl, rfl⟩
  have hf : Fresh t (load 11) := by
    refine ⟨by decide, fun n e he => ?_⟩
    rw [hentries] at he
    obtain ⟨e0, he0, -⟩ := MemDepUnit.modify_entries he
    by_contra hge
    simp only [load, not_lt] at hge
    simp [twoFences, oneFence, MemDepUnit.insertBarrier, MemDepUnit.addEntry, MemDepUnit.raiseBarrier, fence,
      MemDepUnit.new, show n ≠ 10 by omega, show n ≠ 5 by omega] at he0
  let s := t.setCanIssue 11 true
  have hfs : Fresh s (load 11) := hf
  have hnone : (s.producingStore (load 11)).1 = 0 := by
    change (if (true && t.loadBarrier) = true then _ else if (false && t.storeBarrier) = true then _ else _ :
      Nat × Unit).1 = 0
    simp only [hload, hstore, Bool.and_false, Bool.false_eq_true, if_false]
    rfl
  obtain ⟨s', hs'⟩ := insert_hands_out (.inl rfl) (by simp [s, MemDepUnit.setCanIssue, load]) hnone
  have hreach := (twoFences_reaches.step (i := Call.squash 8) trivial ht).step
    (i := Call.setCanIssue 11 true) trivial rfl
  exact ⟨s, s', hreach, hlist, ⟨hfs, .inl rfl⟩, hs'⟩

end Alpine.Cpu.MemDep
