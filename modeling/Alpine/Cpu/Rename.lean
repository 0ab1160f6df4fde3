import Alpine.Lib.Tokens

/-!
# Register renaming of the out-of-order CPU

`cpu/o3/rename_impl.hh`, `rename_map.{hh,cc}`, `free_list.hh` and the part of the constructor in
`cpu/o3/cpu.cc` that hands out the first physical registers, for any number of threads that share one
free list, in full-vector mode.  A `PhysRegIdPtr` is the register it points to, a class and an index;
a null pointer is `none`.  `none` as the result of a function is a failed assertion or an access
outside a vector.

* `Site`, `State.contents` — the places a physical register can stand in: the free lists, the rename
  maps and the `prevPhysReg` fields of the history entries that really renamed.
* `rename_cases` — what renaming one register can do.
-/

namespace Alpine.Cpu.Rename

open Alpine

/-! ## Registers -/

inductive RegClass where
  | IntRegClass
  | FloatRegClass
  | VecRegClass
  | VecElemClass
  | CCRegClass
  | MiscRegClass
  deriving DecidableEq

instance : Fintype RegClass where
  elems := {.IntRegClass, .FloatRegClass, .VecRegClass, .VecElemClass, .CCRegClass, .MiscRegClass}
  complete c := by cases c <;> decide

inductive VecMode where
  | Full
  | Elem
  deriving DecidableEq

/-- The mode of every map, file and list of this model. -/
def vecMode : VecMode := .Full

/-- The constructors of `RegId` panic when exactly the vector elements do not have an element index. -/
structure RegId where
  regClass : RegClass
  regIdx : Nat
  elemIdx : Option Nat
  wf : elemIdx.isSome = true ↔ regClass = .VecElemClass
  deriving DecidableEq

/-- `IntReg 3` is `RegId(IntRegClass, 3)`. -/
def RegId.IntReg (i : Nat) : RegId := ⟨.IntRegClass, i, none, by decide⟩

structure PhysRegId where
  regClass : RegClass
  regIdx : Nat
  deriving DecidableEq

/-- The ISA's and the CPU's constants.  The constructor of the CPU asserts that the physical registers
suffice for the architectural ones of all threads. -/
structure Config where
  numThreads : Nat
  NumIntRegs : Nat
  NumFloatRegs : Nat
  NumVecRegs : Nat
  NumVecElemPerVecReg : Nat
  NumCCRegs : Nat
  ZeroReg : Nat
  isAlpha : Bool
  ndebug : Bool
  numPhysIntRegs : Nat
  numPhysFloatRegs : Nat
  numPhysVecRegs : Nat
  numPhysCCRegs : Nat
  enoughInt : numThreads * NumIntRegs ≤ numPhysIntRegs
  enoughFloat : numThreads * NumFloatRegs ≤ numPhysFloatRegs
  enoughVec : numThreads * NumVecRegs ≤ numPhysVecRegs
  enoughCC : numThreads * NumCCRegs ≤ numPhysCCRegs

/-- The classes whose registers the free list holds and the maps rename. -/
def renamedClasses : List RegClass := [.IntRegClass, .FloatRegClass, .VecRegClass, .CCRegClass]

/-- The size given to `init` of a class's map. -/
def Config.mapSize (cfg : Config) : RegClass → Nat
  | .IntRegClass => cfg.NumIntRegs
  | .FloatRegClass => cfg.NumFloatRegs
  | .VecRegClass => cfg.NumVecRegs
  | .VecElemClass => cfg.NumVecRegs * cfg.NumVecElemPerVecReg
  | .CCRegClass => cfg.NumCCRegs
  | .MiscRegClass => 0

/-- The physical registers `initFreeList` puts on a class's free list. -/
def Config.numPhysRegs (cfg : Config) : RegClass → Nat
  | .IntRegClass => cfg.numPhysIntRegs
  | .FloatRegClass => cfg.numPhysFloatRegs
  | .VecRegClass => cfg.numPhysVecRegs
  | .VecElemClass => 0
  | .CCRegClass => cfg.numPhysCCRegs
  | .MiscRegClass => 0

/-- The zero register of a class's map.  `init` builds it in the integer class for every map. -/
def Config.zeroReg (cfg : Config) : RegClass → RegId
  | .IntRegClass => .IntReg cfg.ZeroReg
  | .FloatRegClass => .IntReg (if cfg.isAlpha then cfg.ZeroReg else cfg.NumFloatRegs + 1)
  | _ => .IntReg (2 ^ 16 - 1)

def RegId.flatIndex (cfg : Config) (r : RegId) : Nat :=
  match r.elemIdx with
  | none => r.regIdx
  | some elemIdx => cfg.NumVecElemPerVecReg * r.regIdx + elemIdx

def PhysRegId.isZeroReg (cfg : Config) (p : PhysRegId) : Bool :=
  (p.regClass = .IntRegClass && p.regIdx = cfg.ZeroReg) ||
    (cfg.isAlpha && p.regClass = .FloatRegClass && p.regIdx = cfg.ZeroReg)

/-- `assert(b)`, which `NDEBUG` compiles out. -/
def Config.assert (cfg : Config) (b : Bool) : Option Unit := if cfg.ndebug || b then some () else none

/-! ## The state -/

structure RenameHistory where
  instSeqNum : Nat
  archReg : RegId
  newPhysReg : PhysRegId
  prevPhysReg : PhysRegId

/-- A map of one class, and the maps of one thread. -/
abbrev Arch2PhysMap := List (Option PhysRegId)
abbrev UnifiedRenameMap := RegClass → Arch2PhysMap

/-- `historyBuffer` has the newest entry in front. -/
structure State (T : Nat) where
  freeList : RegClass → List PhysRegId
  renameMap : Fin T → UnifiedRenameMap
  historyBuffer : Fin T → List RenameHistory

variable {T : Nat}

def State.setFree (s : State T) (c : RegClass) (l : List PhysRegId) : State T :=
  { s with freeList := Function.update s.freeList c l }

def State.setMap (s : State T) (t : Fin T) (c : RegClass) (m : Arch2PhysMap) : State T :=
  { s with renameMap := Function.update s.renameMap t (Function.update (s.renameMap t) c m) }

def State.setHist (s : State T) (t : Fin T) (h : List RenameHistory) : State T :=
  { s with historyBuffer := Function.update s.historyBuffer t h }

/-! ## The free list -/

/-- `front` of an empty queue is undefined, and asserted against. -/
def getReg (c : RegClass) (s : State T) : Option (PhysRegId × State T) :=
  match s.freeList c with
  | [] => none
  | p :: rest => some (p, s.setFree c rest)

/-- `UnifiedFreeList::addReg` panics on a class without a list. -/
def addReg (p : PhysRegId) (s : State T) : Option (State T) :=
  if p.regClass = .MiscRegClass then none
  else some (s.setFree p.regClass (s.freeList p.regClass ++ [p]))

/-! ## The rename maps -/

/-- `SimpleRenameMap::setEntry`.  Its assertion admits the index one past the end, where the write is
undefined. -/
def simpleSetEntry (t : Fin T) (c : RegClass) (i : Nat) (p : PhysRegId) (s : State T) : Option (State T) :=
  if i < (s.renameMap t c).length then some (s.setMap t c ((s.renameMap t c).set i (some p))) else none

def setEntry (cfg : Config) (t : Fin T) (arch : RegId) (p : PhysRegId) (s : State T) : Option (State T) :=
  match arch.regClass with
  | .VecRegClass => do
    cfg.assert (p.regClass = .VecRegClass)
    cfg.assert (vecMode = .Full)
    simpleSetEntry t .VecRegClass (arch.flatIndex cfg) p s
  | .VecElemClass => do
    cfg.assert (p.regClass = .VecElemClass)
    cfg.assert (vecMode = .Elem)
    simpleSetEntry t .VecElemClass (arch.flatIndex cfg) p s
  | .MiscRegClass => do
    cfg.assert (p = ⟨.MiscRegClass, arch.flatIndex cfg⟩)
    some s
  | c => do
    cfg.assert (p.regClass = c)
    simpleSetEntry t c (arch.flatIndex cfg) p s

/-- `SimpleRenameMap::rename`: the new and the previous physical register. -/
def simpleRename (cfg : Config) (t : Fin T) (c : RegClass) (arch : RegId) (s : State T) :
    Option ((PhysRegId × PhysRegId) × State T) :=
  match (s.renameMap t c)[arch.regIdx]? with
  | some (some prev) =>
    if arch ≠ cfg.zeroReg c then do
      let (p, s') ← getReg c s
      some ((p, prev), s'.setMap t c ((s'.renameMap t c).set arch.regIdx (some p)))
    else do
      cfg.assert (prev.isZeroReg cfg)
      some ((prev, prev), s)
  | _ => none

/-- `UnifiedRenameMap::rename`.  Misc registers keep their own physical register. -/
def rename (cfg : Config) (t : Fin T) (arch : RegId) (s : State T) : Option ((PhysRegId × PhysRegId) × State T) :=
  match arch.regClass with
  | .VecRegClass => do
    cfg.assert (vecMode = .Full)
    simpleRename cfg t .VecRegClass arch s
  | .VecElemClass => do
    cfg.assert (vecMode = .Elem)
    simpleRename cfg t .VecElemClass arch s
  | .MiscRegClass =>
    some ((⟨.MiscRegClass, arch.flatIndex cfg⟩, ⟨.MiscRegClass, arch.flatIndex cfg⟩), s)
  | c => simpleRename cfg t c arch s

/-! ## The rename stage -/

/-- An instruction's destinations, before `flattenRegId`. -/
structure DynInst where
  seqNum : Nat
  destRegs : List RegId

/-- `numIntDestRegs` and its siblings. -/
def DynInst.numDestRegs (inst : DynInst) (c : RegClass) : Nat :=
  inst.destRegs.countP (·.regClass = c)

/-- `ThreadContext::flattenRegId` in the state the thread has at a call: it picks the banked register
of the current mode, of the same class. -/
structure Flatten where
  flattenRegId : RegId → RegId
  regClass_eq : ∀ r, (flattenRegId r).regClass = r.regClass

def canRename (inst : DynInst) (s : State T) : Bool :=
  inst.numDestRegs .IntRegClass ≤ (s.freeList .IntRegClass).length &&
    inst.numDestRegs .FloatRegClass ≤ (s.freeList .FloatRegClass).length &&
    inst.numDestRegs .VecRegClass ≤ (s.freeList .VecRegClass).length &&
    inst.numDestRegs .VecElemClass ≤ (s.freeList .VecElemClass).length &&
    inst.numDestRegs .CCRegClass ≤ (s.freeList .CCRegClass).length

/-- One turn of the loop of `renameDestRegs`. -/
def renameDestReg (cfg : Config) (f : Flatten) (t : Fin T) (seqNum : Nat) (s : State T)
    (dest : RegId) : Option (State T) := do
  let r ← rename cfg t (f.flattenRegId dest) s
  some (r.2.setHist t (⟨seqNum, f.flattenRegId dest, r.1.1, r.1.2⟩ :: r.2.historyBuffer t))

def renameDestRegs (cfg : Config) (f : Flatten) (t : Fin T) (inst : DynInst) (s : State T) : Option (State T) :=
  inst.destRegs.foldlM (renameDestReg cfg f t inst.seqNum) s

/-- One turn of the loop of `doSquash`: undo the newest entry and erase it. -/
def squashEntry (cfg : Config) (t : Fin T) (e : RenameHistory) (rest : List RenameHistory)
    (s : State T) : Option (State T) := do
  let s' ← if e.newPhysReg ≠ e.prevPhysReg then do
      let s1 ← setEntry cfg t e.archReg e.prevPhysReg s
      addReg e.newPhysReg s1
    else some s
  some (s'.setHist t rest)

/-- The loop of `doSquash`, over the history from the newest entry on. -/
def squashLoop (cfg : Config) (n : Nat) (t : Fin T) : List RenameHistory → State T → Option (State T)
  | [], s => some s
  | e :: rest, s =>
    if e.instSeqNum > n then do
      let s' ← squashEntry cfg t e rest s
      squashLoop cfg n t rest s'
    else some s

def doSquash (cfg : Config) (n : Nat) (t : Fin T) (s : State T) : Option (State T) :=
  squashLoop cfg n t (s.historyBuffer t) s

/-- One turn of the loop of `removeFromHistory`: commit the oldest entry and erase it. -/
def commitEntry (t : Fin T) (e : RenameHistory) (newer : List RenameHistory) (s : State T) : Option (State T) := do
  let s' ← if e.newPhysReg ≠ e.prevPhysReg then addReg e.prevPhysReg s else some s
  some (s'.setHist t newer.reverse)

/-- The loop of `removeFromHistory`, over the history from the oldest entry on. -/
def commitLoop (n : Nat) (t : Fin T) : List RenameHistory → State T → Option (State T)
  | [], s => some s
  | e :: newer, s =>
    if e.instSeqNum ≤ n then do
      let s' ← commitEntry t e newer s
      commitLoop n t newer s'
    else some s

def removeFromHistory (n : Nat) (t : Fin T) (s : State T) : Option (State T) :=
  commitLoop n t (s.historyBuffer t).reverse s

/-! ## The constructor -/

/-- `PhysRegFile::initFreeList`, with the maps as `init` leaves them: resized to null pointers. -/
def initFreeList (cfg : Config) : State cfg.numThreads where
  freeList c := (List.range (cfg.numPhysRegs c)).map fun i => ⟨c, i⟩
  renameMap _ c := List.replicate (cfg.mapSize c) none
  historyBuffer _ := []

/-- Gives a thread's architectural register `i` of class `c` the next free register. -/
def initReg (t : Fin T) (c : RegClass) (s : State T) (i : Nat) : Option (State T) := do
  let r ← getReg c s
  simpleSetEntry t c i r.1 r.2

def initThread (cfg : Config) (s : State T) (t : Fin T) : Option (State T) :=
  renamedClasses.foldlM (fun s c => (List.range (cfg.mapSize c)).foldlM (initReg t c) s) s

def init (cfg : Config) : Option (State cfg.numThreads) :=
  (List.finRange cfg.numThreads).foldlM (initThread cfg) (initFreeList cfg)

/-! ## The places of a register -/

inductive Site (T : Nat) where
  | free (c : RegClass)
  | map (t : Fin T) (c : RegClass)
  | hist (t : Fin T)
  deriving DecidableEq, Fintype

/-- The `prevPhysReg` of an entry that really renamed. -/
def RenameHistory.held (e : RenameHistory) : Option PhysRegId :=
  if e.newPhysReg ≠ e.prevPhysReg then some e.prevPhysReg else none

def State.contents (s : State T) : Site T → List (Option PhysRegId)
  | .free c => (s.freeList c).map some
  | .map t c => s.renameMap t c
  | .hist t => (s.historyBuffer t).map RenameHistory.held

/-- The physical registers of the integer, floating-point, full-vector and condition-code classes. -/
def Config.hasPhysReg (cfg : Config) (p : PhysRegId) : Prop := p.regIdx < cfg.numPhysRegs p.regClass

/-! ## What the setters change -/

variable (s : State T)

@[simp] theorem setFree_renameMap (c : RegClass) (l : List PhysRegId) : (s.setFree c l).renameMap = s.renameMap := rfl

@[simp] theorem setFree_historyBuffer (c : RegClass) (l : List PhysRegId) :
    (s.setFree c l).historyBuffer = s.historyBuffer := rfl

@[simp] theorem setFree_freeList (c : RegClass) (l : List PhysRegId) :
    (s.setFree c l).freeList = Function.update s.freeList c l := rfl

@[simp] theorem setMap_renameMap (t : Fin T) (c : RegClass) (m : Arch2PhysMap) : (s.setMap t c m).renameMap =
      Function.update s.renameMap t (Function.update (s.renameMap t) c m) := rfl

@[simp] theorem setMap_historyBuffer (t : Fin T) (c : RegClass) (m : Arch2PhysMap) :
    (s.setMap t c m).historyBuffer = s.historyBuffer := rfl

@[simp] theorem setMap_freeList (t : Fin T) (c : RegClass) (m : Arch2PhysMap) :
    (s.setMap t c m).freeList = s.freeList := rfl

@[simp] theorem setHist_renameMap (t : Fin T) (h : List RenameHistory) :
    (s.setHist t h).renameMap = s.renameMap := rfl

@[simp] theorem setHist_historyBuffer (t : Fin T) (h : List RenameHistory) :
    (s.setHist t h).historyBuffer = Function.update s.historyBuffer t h := rfl

@[simp] theorem setHist_freeList (t : Fin T) (h : List RenameHistory) : (s.setHist t h).freeList = s.freeList := rfl

theorem contents_setFree (c : RegClass) (l : List PhysRegId) :
    (s.setFree c l).contents = Function.update s.contents (.free c) (l.map some) := by
  funext x
  cases x with
  | free d =>
    by_cases hd : d = c
    · subst hd; simp [State.contents]
    · have hne : Site.free (T := T) d ≠ .free c := fun h => hd (Site.free.inj h)
      simp [State.contents, Function.update_of_ne hd, Function.update_of_ne hne]
  | map t d => rfl
  | hist t => rfl

theorem contents_setMap (t : Fin T) (c : RegClass) (m : Arch2PhysMap) :
    (s.setMap t c m).contents = Function.update s.contents (.map t c) m := by
  funext x
  cases x with
  | free d => rfl
  | map u d =>
    by_cases hu : u = t
    · subst hu
      by_cases hd : d = c
      · subst hd; simp [State.contents]
      · have hne : Site.map u d ≠ .map u c := fun h => hd (Site.map.inj h).2
        simp [State.contents, Function.update_of_ne hd, Function.update_of_ne hne]
    · have hne : Site.map u d ≠ .map t c := fun h => hu (Site.map.inj h).1
      simp [State.contents, Function.update_of_ne hu, Function.update_of_ne hne]
  | hist u => rfl

theorem contents_setHist (t : Fin T) (h : List RenameHistory) :
    (s.setHist t h).contents = Function.update s.contents (.hist t) (h.map RenameHistory.held) := by
  funext x
  cases x with
  | free d => rfl
  | map u d => rfl
  | hist u =>
    by_cases hu : u = t
    · subst hu; simp [State.contents]
    · have hne : Site.hist u ≠ .hist t := fun h => hu (Site.hist.inj h)
      simp [State.contents, Function.update_of_ne hu, Function.update_of_ne hne]

/-- How often a physical register stands in the places of a state. -/
def State.copies (s : State T) (p : PhysRegId) : ℕ := Tokens.count s.contents (some p)

theorem copies_setFree (c : RegClass) (l : List PhysRegId) (p : PhysRegId) :
    (s.setFree c l).copies p + (s.freeList c).count p = s.copies p + l.count p := by
  have h := Tokens.count_update s.contents (.free c) (l.map some) (some p)
  rw [← contents_setFree] at h
  simpa [State.copies, State.contents, List.count_map_of_injective, Option.some_injective] using h

theorem copies_setMap (t : Fin T) (c : RegClass) (m : Arch2PhysMap) (p : PhysRegId) :
    (s.setMap t c m).copies p + (s.renameMap t c).count (some p) = s.copies p + m.count (some p) := by
  have h := Tokens.count_update s.contents (.map t c) m (some p)
  rw [← contents_setMap] at h
  exact h

theorem copies_setHist (t : Fin T) (h : List RenameHistory) (p : PhysRegId) :
    (s.setHist t h).copies p + ((s.historyBuffer t).map RenameHistory.held).count (some p) =
      s.copies p + (h.map RenameHistory.held).count (some p) := by
  have h := Tokens.count_update s.contents (.hist t) (h.map RenameHistory.held) (some p)
  rw [← contents_setHist] at h
  exact h

/-! ## One rename -/

theorem simpleRename_cases {cfg : Config} {t : Fin T} {c : RegClass} {arch : RegId} {s s' : State T}
    {p prev : PhysRegId} (h : simpleRename cfg t c arch s = some ((p, prev), s')) :
    (p = prev ∧ s' = s ∧ arch = cfg.zeroReg c) ∨
      ∃ rest, (s.renameMap t c)[arch.regIdx]? = some (some prev) ∧ s.freeList c = p :: rest ∧ arch ≠ cfg.zeroReg c ∧
        s' = (s.setFree c rest).setMap t c ((s.renameMap t c).set arch.regIdx (some p)) := by
  unfold simpleRename at h
  split at h
  · rename_i q hq
    split at h
    · rename_i hz
      unfold getReg at h
      cases hf : s.freeList c with
      | nil => simp [hf] at h
      | cons r rest =>
        simp only [hf, Option.bind_eq_bind, Option.bind_some, setFree_renameMap, Option.some.injEq,
          Prod.mk.injEq] at h
        obtain ⟨⟨rfl, rfl⟩, rfl⟩ := h
        exact .inr ⟨rest, hq, rfl, hz, rfl⟩
    · rename_i hz
      simp only [Option.bind_eq_bind, Option.bind_eq_some_iff, Option.some.injEq, Prod.mk.injEq] at h
      obtain ⟨_, _, ⟨rfl, rfl⟩, rfl⟩ := h
      exact .inl ⟨rfl, rfl, not_not.1 hz⟩
  · cases h

/-- **A rename keeps the state, as for the zero register and the misc registers, or moves the oldest
free register of the class into the map.** -/
theorem rename_cases {cfg : Config} {t : Fin T} {arch : RegId} {s s' : State T}
    {p prev : PhysRegId} (h : rename cfg t arch s = some ((p, prev), s')) : (p = prev ∧ s' = s) ∨
      ∃ rest, (s.renameMap t arch.regClass)[arch.regIdx]? = some (some prev) ∧
        s.freeList arch.regClass = p :: rest ∧ arch ≠ cfg.zeroReg arch.regClass ∧
        s' = (s.setFree arch.regClass rest).setMap t arch.regClass
          ((s.renameMap t arch.regClass).set arch.regIdx (some p)) := by
  have hsimple : arch.regClass = .MiscRegClass ∧ p = prev ∧ s' = s ∨
      simpleRename cfg t arch.regClass arch s = some ((p, prev), s') := by
    unfold rename at h
    split at h
    all_goals rename_i hc
    · simp only [Option.bind_eq_bind, Option.bind_eq_some_iff] at h
      obtain ⟨_, _, h⟩ := h
      exact .inr (hc ▸ h)
    · simp only [Option.bind_eq_bind, Option.bind_eq_some_iff] at h
      obtain ⟨_, _, h⟩ := h
      exact .inr (hc ▸ h)
    · simp only [Option.some.injEq, Prod.mk.injEq] at h
      obtain ⟨⟨rfl, rfl⟩, rfl⟩ := h
      exact .inl ⟨hc, rfl, rfl⟩
    · exact .inr h
  rcases hsimple with ⟨_, hp, hs⟩ | hsimple
  · exact .inl ⟨hp, hs⟩
  · rcases simpleRename_cases hsimple with ⟨hp, hs, _⟩ | hmove
    · exact .inl ⟨hp, hs⟩
    · exact .inr hmove

end Alpine.Cpu.Rename
