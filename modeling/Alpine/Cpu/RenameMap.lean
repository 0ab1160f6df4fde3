import Alpine.Cpu.Rename

/-!
# The rename map of one thread (`cpu/o3/rename_map.hh`, `rename_map.cc`, `cpu/reg_class.hh`)

`UnifiedRenameMap` in both modes of the vector registers, on its own.  A `PhysRegIdPtr` is the register it
points to; where it stands in the file of its class is its index.

* `rename`, `lookup`, `setEntry` as in the source, for every class of registers.
* `IsMap` — what a rename does to a map: one entry changes, the previous register undoes it, and a zero
  register stays where it is.
* `rename_isMap_iff` — a rename that returns does this if and only if both ways to compute the slot of the
  register agree and it is no float zero register.
-/

namespace Alpine.Cpu.RenameMap

open Alpine.Cpu.Rename (RegClass VecMode RegId PhysRegId Config)

variable {cfg : Config}

/-- How a call fails. -/
inductive Failure where
  | assertion
  | panic
  | outOfRange

def check (b : Bool) : Except Failure Unit := if b then .ok () else .error .assertion

/-! ## The maps -/

/-- The maps of all classes, of the sizes that `init` gives them; a map has registers of its own class. -/
structure UnifiedRenameMap (cfg : Config) where
  map : RegClass → List PhysRegId
  vecMode : VecMode
  size : ∀ c, (map c).length = cfg.mapSize c
  mapped : ∀ c, ∀ p ∈ map c, p.regClass = c

structure UnifiedFreeList where
  list : RegClass → List PhysRegId
  listed : ∀ c, ∀ p ∈ list c, p.regClass = c

/-- `RegId::isZeroReg`. -/
def isZeroReg (cfg : Config) (r : RegId) : Bool :=
  (r.regClass = .IntRegClass && r.regIdx = cfg.ZeroReg) ||
    (cfg.isAlpha && r.regClass = .FloatRegClass && r.regIdx = cfg.ZeroReg)

variable {c : RegClass}

theorem mapped_set {m : List PhysRegId} (h : ∀ p ∈ m, p.regClass = c) {q : PhysRegId} (hq : q.regClass = c)
    (i : Nat) : ∀ p ∈ m.set i q, p.regClass = c := by
  intro p hp
  rcases List.mem_or_eq_of_mem_set hp with hp | rfl
  · exact h p hp
  · exact hq

theorem setSlot_size (s : UnifiedRenameMap cfg) (c : RegClass) (i : Nat) (p : PhysRegId) (c' : RegClass) :
    (Function.update s.map c ((s.map c).set i p) c').length = cfg.mapSize c' := by
  by_cases hc : c' = c
  · subst hc
    rw [Function.update_self, List.length_set, s.size]
  · rw [Function.update_of_ne hc, s.size]

theorem setSlot_mapped (s : UnifiedRenameMap cfg) (c : RegClass) (i : Nat) (p : PhysRegId)
    (hp : p.regClass = c) (c' : RegClass) :
    ∀ q ∈ Function.update s.map c ((s.map c).set i p) c', q.regClass = c' := by
  by_cases hc : c' = c
  · subst hc
    rw [Function.update_self]
    exact mapped_set (s.mapped c') hp i
  · rw [Function.update_of_ne hc]
    exact s.mapped c'

/-- `map[i] = p` in the map of a class. -/
def setSlot (s : UnifiedRenameMap cfg) (c : RegClass) (i : Nat) (p : PhysRegId) (hp : p.regClass = c) :
    UnifiedRenameMap cfg where
  map := Function.update s.map c ((s.map c).set i p)
  vecMode := s.vecMode
  size := setSlot_size s c i p
  mapped := setSlot_mapped s c i p hp

theorem pop_listed (fl : UnifiedFreeList) {p : PhysRegId} {rest : List PhysRegId} (h : fl.list c = p :: rest)
    (c' : RegClass) : ∀ q ∈ Function.update fl.list c rest c', q.regClass = c' := by
  by_cases hc : c' = c
  · subst hc
    rw [Function.update_self]
    intro q hq
    exact fl.listed c' q (h ▸ List.mem_cons_of_mem _ hq)
  · rw [Function.update_of_ne hc]
    exact fl.listed c'

theorem front_listed (fl : UnifiedFreeList) {p : PhysRegId} {rest : List PhysRegId}
    (h : fl.list c = p :: rest) : p.regClass = c := fl.listed c p (h ▸ List.mem_cons_self)

/-- The free list without its front. -/
def pop (fl : UnifiedFreeList) {c : RegClass} {p : PhysRegId} {rest : List PhysRegId}
    (h : fl.list c = p :: rest) : UnifiedFreeList where
  list := Function.update fl.list c rest
  listed := pop_listed fl h

/-! ## One class -/

section Simple

variable (s : UnifiedRenameMap cfg) (c : RegClass) (arch_reg : RegId)

/-- `SimpleRenameMap::lookup`; the assertion lets the size of the map pass. -/
def simpleLookup : Except Failure PhysRegId := do
  check (arch_reg.flatIndex cfg ≤ (s.map c).length)
  match (s.map c)[arch_reg.flatIndex cfg]? with
  | some p => .ok p
  | none => .error .outOfRange

/-- `SimpleRenameMap::setEntry`. -/
def simpleSetEntry (phys_reg : PhysRegId) (hp : phys_reg.regClass = c) : Except Failure (UnifiedRenameMap cfg) := do
  check (arch_reg.flatIndex cfg ≤ (s.map c).length)
  if arch_reg.flatIndex cfg < (s.map c).length then .ok (setSlot s c (arch_reg.flatIndex cfg) phys_reg hp)
  else .error .outOfRange

/-- `SimpleRenameMap::rename`: the new register and the previous one. -/
def simpleRename (freeList : UnifiedFreeList) :
    Except Failure ((PhysRegId × PhysRegId) × UnifiedRenameMap cfg × UnifiedFreeList) :=
  match (s.map c)[arch_reg.regIdx]? with
  | none => .error .outOfRange
  | some prev_reg =>
    if arch_reg ≠ cfg.zeroReg c then
      match h : freeList.list c with
      | [] => .error .assertion
      | renamed_reg :: _ =>
        .ok ((renamed_reg, prev_reg), setSlot s c arch_reg.regIdx renamed_reg (front_listed freeList h),
          pop freeList h)
    else if prev_reg.isZeroReg cfg then .ok ((prev_reg, prev_reg), s, freeList)
    else .error .assertion

end Simple

/-! ## All classes -/

section Unified

variable (s : UnifiedRenameMap cfg) (arch_reg : RegId)

/-- The assertions on the mode. -/
def inMode : RegClass → Bool
  | .VecRegClass => s.vecMode = .Full
  | .VecElemClass => s.vecMode = .Elem
  | _ => true

/-- `UnifiedRenameMap::lookup`; `getMiscRegId` gives the register of the same index. -/
def lookup : Except Failure PhysRegId :=
  match arch_reg.regClass with
  | .MiscRegClass => .ok ⟨.MiscRegClass, arch_reg.flatIndex cfg⟩
  | c => do
    check (inMode s c)
    simpleLookup s c arch_reg

/-- `UnifiedRenameMap::setEntry`, with an assertion on the class of the register. -/
def setEntry (phys_reg : PhysRegId) : Except Failure (UnifiedRenameMap cfg) :=
  match arch_reg.regClass with
  | .MiscRegClass => do
    check (phys_reg = ⟨.MiscRegClass, arch_reg.flatIndex cfg⟩)
    return s
  | c =>
    if hp : phys_reg.regClass = c then do
      check (inMode s c)
      simpleSetEntry s c arch_reg phys_reg hp
    else .error .assertion

/-- `UnifiedRenameMap::rename`; misc registers keep their mapping. -/
def rename (freeList : UnifiedFreeList) :
    Except Failure ((PhysRegId × PhysRegId) × UnifiedRenameMap cfg × UnifiedFreeList) :=
  match arch_reg.regClass with
  | .MiscRegClass => do
    let phys_reg ← lookup s arch_reg
    return ((phys_reg, phys_reg), s, freeList)
  | c => do
    check (inMode s c)
    simpleRename s c arch_reg freeList

end Unified

/-! ## Architectural registers -/

/-- The registers of the renamed classes that the ISA has. -/
structure Arch (cfg : Config) (r : RegId) : Prop where
  renamed : r.regClass ≠ .MiscRegClass
  index : r.regIdx < match r.regClass with
    | .VecElemClass => cfg.NumVecRegs
    | c => cfg.mapSize c
  elem : ∀ e ∈ r.elemIdx, e < cfg.NumVecElemPerVecReg

/-- What a rename that returns does to a map. -/
structure IsMap (s : UnifiedRenameMap cfg) (r : RegId) (new prev : PhysRegId) (s' : UnifiedRenameMap cfg) :
    Prop where
  before : lookup s r = .ok prev
  after : lookup s' r = .ok new
  others : ∀ r', Arch cfg r' → r' ≠ r → lookup s' r' = lookup s r'
  undone : setEntry s' r prev = .ok s
  zero : isZeroReg cfg r = true → new = prev

/-- `rename` and `lookup` compute the same slot, and the register is no float zero register. -/
structure Regular (cfg : Config) (r : RegId) : Prop where
  slot : r.flatIndex cfg = r.regIdx
  notFloatZero : ¬ (r.regClass = .FloatRegClass ∧ isZeroReg cfg r = true)

/-! ## Slots -/

variable {s s' : UnifiedRenameMap cfg} {r r' : RegId} {p q : PhysRegId} {freeList freeList' : UnifiedFreeList}

theorem elemIdx_none (h : r.regClass ≠ .VecElemClass) : r.elemIdx = none := by
  cases he : r.elemIdx with
  | none => rfl
  | some e => exact absurd (r.wf.1 (by rw [he]; rfl)) h

theorem elemIdx_some (h : r.regClass = .VecElemClass) : ∃ e, r.elemIdx = some e :=
  Option.isSome_iff_exists.1 (r.wf.2 h)

/-- Only elements of vector registers have two different indices. -/
theorem flatIndex_eq (h : r.regClass ≠ .VecElemClass) : r.flatIndex cfg = r.regIdx := by
  unfold RegId.flatIndex
  rw [elemIdx_none h]

theorem flatIndex_elem {e : Nat} (h : r.elemIdx = some e) :
    r.flatIndex cfg = cfg.NumVecElemPerVecReg * r.regIdx + e := by
  unfold RegId.flatIndex
  rw [h]

theorem Arch.index_lt (h : Arch cfg r) (hc : r.regClass ≠ .VecElemClass) : r.regIdx < cfg.mapSize r.regClass := by
  have hidx := h.index
  split at hidx
  · rename_i hve
    exact absurd hve hc
  · exact hidx

theorem Arch.vec_lt (h : Arch cfg r) (hc : r.regClass = .VecElemClass) : r.regIdx < cfg.NumVecRegs := by
  have hidx := h.index
  rw [hc] at hidx
  exact hidx

/-- The slot of a register is in the map of its class. -/
theorem Arch.flat_lt (h : Arch cfg r) : r.flatIndex cfg < cfg.mapSize r.regClass := by
  by_cases hc : r.regClass = .VecElemClass
  · obtain ⟨e, he⟩ := elemIdx_some hc
    have hidx := h.vec_lt hc
    have helem := h.elem e he
    have hrow : cfg.NumVecElemPerVecReg * (r.regIdx + 1) ≤ cfg.NumVecElemPerVecReg * cfg.NumVecRegs :=
      Nat.mul_le_mul_left _ hidx
    rw [flatIndex_elem he, hc]
    show _ < cfg.NumVecRegs * cfg.NumVecElemPerVecReg
    rw [Nat.mul_comm cfg.NumVecRegs]
    rw [Nat.mul_succ] at hrow
    omega
  · rw [flatIndex_eq hc]
    exact h.index_lt hc

/-- So is the slot that `rename` uses. -/
theorem Arch.reg_lt (h : Arch cfg r) : r.regIdx < cfg.mapSize r.regClass := by
  by_cases hc : r.regClass = .VecElemClass
  · obtain ⟨e, he⟩ := elemIdx_some hc
    have hflat := h.flat_lt
    have helem := h.elem e he
    have hle : r.regIdx ≤ cfg.NumVecElemPerVecReg * r.regIdx :=
      Nat.le_mul_of_pos_left _ (Nat.zero_lt_of_lt helem)
    rw [flatIndex_elem he] at hflat
    omega
  · exact h.index_lt hc

/-- Two registers of one class have different slots. -/
theorem Arch.flat_inj (h : Arch cfg r) (h' : Arch cfg r') (hc : r'.regClass = r.regClass)
    (hflat : r'.flatIndex cfg = r.flatIndex cfg) : r' = r := by
  have hsame : r'.regIdx = r.regIdx ∧ r'.elemIdx = r.elemIdx := by
    by_cases hve : r.regClass = .VecElemClass
    · obtain ⟨e, he⟩ := elemIdx_some hve
      obtain ⟨e', he'⟩ := elemIdx_some (hc.trans hve)
      have helem := h.elem e he
      have helem' := h'.elem e' he'
      rw [flatIndex_elem he, flatIndex_elem he'] at hflat
      have hidx : r'.regIdx = r.regIdx := by
        have hdiv := congrArg (· / cfg.NumVecElemPerVecReg) hflat
        have hpos := Nat.zero_lt_of_lt helem
        simpa [Nat.mul_add_div hpos, Nat.div_eq_of_lt helem, Nat.div_eq_of_lt helem'] using hdiv
      rw [hidx] at hflat
      rw [he, he', Nat.add_left_cancel hflat]
      exact ⟨hidx, rfl⟩
    · have hve' : r'.regClass ≠ .VecElemClass := hc ▸ hve
      rw [flatIndex_eq hve, flatIndex_eq hve'] at hflat
      rw [elemIdx_none hve, elemIdx_none hve']
      exact ⟨hflat, rfl⟩
  obtain ⟨c, i, e, hwf⟩ := r
  obtain ⟨c', i', e', hwf'⟩ := r'
  obtain ⟨hi, he⟩ := hsame
  dsimp only at hc hi he
  subst hc hi he
  rfl

/-! ## The calls on a renamed class -/

theorem lookup_eq (hc : r.regClass ≠ .MiscRegClass) :
    lookup s r = (check (inMode s r.regClass) >>= fun _ => simpleLookup s r.regClass r) := by
  unfold lookup
  cases h : r.regClass with
  | MiscRegClass => exact absurd h hc
  | _ => rfl

theorem rename_eq (hc : r.regClass ≠ .MiscRegClass) : rename s r freeList =
      (check (inMode s r.regClass) >>= fun _ => simpleRename s r.regClass r freeList) := by
  unfold rename
  cases h : r.regClass with
  | MiscRegClass => exact absurd h hc
  | _ => rfl

theorem setEntry_eq (hc : r.regClass ≠ .MiscRegClass) (hp : p.regClass = r.regClass) :
    setEntry s r p = (check (inMode s r.regClass) >>= fun _ => simpleSetEntry s r.regClass r p hp) := by
  unfold setEntry
  split
  · rename_i h
    exact absurd h hc
  · exact dif_pos hp

theorem check_true {α : Type} {b : Bool} (hb : b = true) (f : Unit → Except Failure α) : (check b >>= f) = f () := by
  rw [hb]
  rfl

theorem check_ok {α : Type} {b : Bool} {f : Unit → Except Failure α} {a : α} (h : (check b >>= f) = .ok a) :
    b = true ∧ f () = .ok a := by
  cases b with
  | true => exact ⟨rfl, h⟩
  | false => cases h

theorem slot_some (s : UnifiedRenameMap cfg) {i : Nat} (hi : i < cfg.mapSize c) :
    ∃ p, (s.map c)[i]? = some p := ⟨_, List.getElem?_eq_getElem (by rwa [s.size])⟩

theorem lookup_ok_iff (hr : Arch cfg r) (hmode : inMode s r.regClass = true) :
    lookup s r = .ok p ↔ (s.map r.regClass)[r.flatIndex cfg]? = some p := by
  have hle : r.flatIndex cfg ≤ (s.map r.regClass).length := by
    rw [s.size]
    exact Nat.le_of_lt hr.flat_lt
  obtain ⟨q, hq⟩ := slot_some s hr.flat_lt
  rw [lookup_eq hr.renamed, check_true hmode]
  unfold simpleLookup
  rw [check_true (decide_eq_true hle), hq]
  exact ⟨fun h => by cases h; rfl, fun h => by cases h; rfl⟩

theorem setEntry_ok (hr : Arch cfg r) (hmode : inMode s r.regClass = true) (hp : p.regClass = r.regClass) :
    setEntry s r p = .ok (setSlot s r.regClass (r.flatIndex cfg) p hp) := by
  have hlt : r.flatIndex cfg < (s.map r.regClass).length := by
    rw [s.size]
    exact hr.flat_lt
  rw [setEntry_eq hr.renamed hp, check_true hmode]
  unfold simpleSetEntry
  rw [check_true (decide_eq_true (Nat.le_of_lt hlt)), if_pos hlt]

/-- **What a rename can do**: it takes the front of the free list, or it keeps a zero register. -/
theorem rename_cases (hr : r.regClass ≠ .MiscRegClass) {new prev : PhysRegId}
    (h : rename s r freeList = .ok ((new, prev), s', freeList')) :
    inMode s r.regClass = true ∧ (s.map r.regClass)[r.regIdx]? = some prev ∧
      ((r ≠ cfg.zeroReg r.regClass ∧ (freeList.list r.regClass).head? = some new ∧
          ∃ hnew, s' = setSlot s r.regClass r.regIdx new hnew) ∨
        (r = cfg.zeroReg r.regClass ∧ new = prev ∧ s' = s)) := by
  rw [rename_eq hr] at h
  obtain ⟨hmode, h⟩ := check_ok h
  refine ⟨hmode, ?_⟩
  unfold simpleRename at h
  split at h
  · cases h
  · rename_i prev_reg hprev
    split at h
    · rename_i hne
      split at h
      · cases h
      · rename_i hlist
        cases h
        exact ⟨hprev, .inl ⟨hne, by rw [hlist]; rfl, _, rfl⟩⟩
    · rename_i heq
      split at h
      · cases h
        exact ⟨hprev, .inr ⟨not_not.1 heq, rfl, rfl⟩⟩
      · cases h

/-- No call on an architectural register reads or writes outside a map. -/
theorem inRange (hr : Arch cfg r) (s : UnifiedRenameMap cfg) (freeList : UnifiedFreeList) :
    rename s r freeList ≠ .error .outOfRange ∧ lookup s r ≠ .error .outOfRange ∧
      ∀ p, setEntry s r p ≠ .error .outOfRange := by
  cases hmode : inMode s r.regClass with
  | false =>
    refine ⟨?_, ?_, fun p => ?_⟩
    · rw [rename_eq hr.renamed, hmode]
      intro h
      cases h
    · rw [lookup_eq hr.renamed, hmode]
      intro h
      cases h
    · by_cases hp : p.regClass = r.regClass
      · rw [setEntry_eq hr.renamed hp, hmode]
        intro h
        cases h
      · unfold setEntry
        split
        · rename_i h
          exact absurd h hr.renamed
        · rw [dif_neg hp]
          intro h
          cases h
  | true =>
    refine ⟨?_, ?_, fun p => ?_⟩
    · obtain ⟨q, hq⟩ := slot_some s hr.reg_lt
      rw [rename_eq hr.renamed, check_true hmode]
      unfold simpleRename
      rw [hq]
      dsimp only
      split
      · split
        · intro h
          cases h
        · intro h
          cases h
      · split
        · intro h
          cases h
        · intro h
          cases h
    · obtain ⟨q, hq⟩ := slot_some s hr.flat_lt
      rw [(lookup_ok_iff hr hmode).2 hq]
      intro h
      cases h
    · by_cases hp : p.regClass = r.regClass
      · rw [setEntry_ok hr hmode hp]
        intro h
        cases h
      · unfold setEntry
        split
        · rename_i h
          exact absurd h hr.renamed
        · rw [dif_neg hp]
          intro h
          cases h

/-! ## When a rename is right -/

/-- The next free register is the one that both slots of the register have already. -/
def Coincides (s : UnifiedRenameMap cfg) (freeList : UnifiedFreeList) (r : RegId) : Prop :=
  (freeList.list r.regClass).head? = (s.map r.regClass)[r.regIdx]? ∧
    (s.map r.regClass)[r.flatIndex cfg]? = (s.map r.regClass)[r.regIdx]?

theorem map_ext (hmap : s.map = s'.map) (hmode : s.vecMode = s'.vecMode) : s = s' := by
  obtain ⟨m, v, _, _⟩ := s
  obtain ⟨m', v', _, _⟩ := s'
  dsimp only at hmap hmode
  subst hmap hmode
  rfl

variable {hp : p.regClass = c}

theorem setSlot_same {i : Nat} (h : (s.map c)[i]? = some p) : setSlot s c i p hp = s := by
  refine map_ext ?_ rfl
  obtain ⟨hi, hget⟩ := List.getElem?_eq_some_iff.1 h
  show Function.update s.map c ((s.map c).set i p) = s.map
  rw [← hget, List.set_getElem_self, Function.update_eq_self]

theorem setSlot_undo {i : Nat} {hq : q.regClass = c} (h : (s.map c)[i]? = some p) :
    setSlot (setSlot s c i q hq) c i p hp = s := by
  refine map_ext ?_ rfl
  obtain ⟨hi, hget⟩ := List.getElem?_eq_some_iff.1 h
  show Function.update (Function.update s.map c ((s.map c).set i q)) c
    ((Function.update s.map c ((s.map c).set i q) c).set i p) = s.map
  rw [Function.update_idem, Function.update_self, List.set_set, ← hget, List.set_getElem_self,
    Function.update_eq_self]

theorem setSlot_get (s : UnifiedRenameMap cfg) {i : Nat} (hi : i < cfg.mapSize c) :
    ((setSlot s c i p hp).map c)[i]? = some p := by
  show (Function.update s.map c ((s.map c).set i p) c)[i]? = some p
  rw [Function.update_self, List.getElem?_set_self (by rwa [s.size])]

theorem setSlot_get_ne (s : UnifiedRenameMap cfg) {i j : Nat} (hij : i ≠ j) :
    ((setSlot s c i p hp).map c)[j]? = (s.map c)[j]? := by
  show (Function.update s.map c ((s.map c).set i p) c)[j]? = _
  rw [Function.update_self, List.getElem?_set_ne hij]

/-- A change of the slot of another register is not seen. -/
theorem lookup_setSlot_ne (hr' : Arch cfg r') {i : Nat} (hne : r'.regClass = c → i ≠ r'.flatIndex cfg) :
    lookup (setSlot s c i p hp) r' = lookup s r' := by
  have hmap : ((setSlot s c i p hp).map r'.regClass)[r'.flatIndex cfg]? =
      (s.map r'.regClass)[r'.flatIndex cfg]? := by
    by_cases hc : r'.regClass = c
    · rw [hc]
      exact setSlot_get_ne s (hne hc)
    · show (Function.update s.map c _ r'.regClass)[_]? = _
      rw [Function.update_of_ne hc]
  rw [lookup_eq hr'.renamed, lookup_eq hr'.renamed]
  unfold simpleLookup
  rw [hmap, (setSlot s c i p hp).size, s.size]
  rfl

theorem isMap_same (hr : Arch cfg r) (hmode : inMode s r.regClass = true)
    (h : (s.map r.regClass)[r.flatIndex cfg]? = some p) : IsMap s r p p s := by
  have hlookup := (lookup_ok_iff hr hmode).2 h
  have hp : p.regClass = r.regClass := s.mapped _ p (List.mem_of_getElem? h)
  refine ⟨hlookup, hlookup, fun _ _ _ => rfl, ?_, fun _ => rfl⟩
  rw [setEntry_ok hr hmode hp, setSlot_same h]

/-- `init` gives every map a zero register of the integer class. -/
theorem zeroReg_class (c : RegClass) : (cfg.zeroReg c).regClass = .IntRegClass := by
  cases c <;> rfl

theorem regular_of_zeroReg (h : r = cfg.zeroReg r.regClass) : Regular cfg r := by
  have hc : r.regClass = .IntRegClass := by
    rw [h]
    exact zeroReg_class _
  refine ⟨flatIndex_eq (by rw [hc]; decide), fun hf => ?_⟩
  rw [hc] at hf
  cases hf.1

/-- Apart from float registers, a zero register is the one that the map knows. -/
theorem eq_zeroReg (hc : r.regClass ≠ .FloatRegClass) (h : isZeroReg cfg r = true) : r = cfg.zeroReg r.regClass := by
  have hint : r.regClass = .IntRegClass ∧ r.regIdx = cfg.ZeroReg := by
    simpa [isZeroReg, hc] using h
  obtain ⟨hclass, hidx⟩ := hint
  have helem := elemIdx_none (r := r) (by rw [hclass]; decide)
  obtain ⟨c, i, e, hwf⟩ := r
  dsimp only at hclass hidx helem
  subst hclass hidx helem
  rfl

/-- **Renaming is right exactly for the regular registers.**  No access to an architectural register is
outside a map.  A rename that returns replaces the entry of the register and no other, gives back the one that
a lookup returned, can be undone, and keeps a zero register, if and only if the register is regular or the
next free register is the one that it is mapped to. -/
theorem rename_isMap_iff {cfg : Config} {r : RegId} (hr : Arch cfg r) (s : UnifiedRenameMap cfg)
    (freeList : UnifiedFreeList) : (rename s r freeList ≠ .error .outOfRange ∧ lookup s r ≠ .error .outOfRange ∧
      ∀ p, setEntry s r p ≠ .error .outOfRange) ∧
    ∀ new prev s' freeList', rename s r freeList = .ok ((new, prev), s', freeList') →
      (IsMap s r new prev s' ↔ Regular cfg r ∨ Coincides s freeList r) := by
  refine ⟨inRange hr s freeList, fun new prev s' freeList' h => ?_⟩
  obtain ⟨hmode, hprev, ⟨hne, hhead, hnew, rfl⟩ | ⟨heq, rfl, rfl⟩⟩ := rename_cases hr.renamed h
  · have hprevClass : prev.regClass = r.regClass := s.mapped _ prev (List.mem_of_getElem? hprev)
    constructor
    · intro hmap
      have hbefore := (lookup_ok_iff hr hmode).1 hmap.before
      by_cases hslot : r.flatIndex cfg = r.regIdx
      · by_cases hzero : r.regClass = .FloatRegClass ∧ isZeroReg cfg r = true
        · refine .inr ⟨?_, by rw [hslot]⟩
          rw [hhead, hprev, hmap.zero hzero.2]
        · exact .inl ⟨hslot, hzero⟩
      · -- the entry that is looked up was not changed
        have hafter := (lookup_ok_iff (s := setSlot s r.regClass r.regIdx new hnew) hr hmode).1 hmap.after
        rw [setSlot_get_ne s (Ne.symm hslot), hbefore] at hafter
        refine .inr ⟨?_, ?_⟩
        · rw [hhead, hprev, hafter]
        · rw [hbefore, hprev]
    · rintro (hregular | hcoincides)
      · have hslot := hregular.slot
        have hflat : (s.map r.regClass)[r.flatIndex cfg]? = some prev := by rw [hslot, hprev]
        refine ⟨(lookup_ok_iff hr hmode).2 hflat, ?_, fun r' hr' hne' => ?_, ?_, fun hzero => ?_⟩
        · refine (lookup_ok_iff (s := setSlot s r.regClass r.regIdx new hnew) hr hmode).2 ?_
          rw [hslot]
          exact setSlot_get s hr.reg_lt
        · refine lookup_setSlot_ne hr' fun hc hflat' => hne' (hr.flat_inj hr' hc ?_)
          rw [← hflat', hslot]
        · rw [setEntry_ok (s := setSlot s r.regClass r.regIdx new hnew) hr hmode hprevClass, hslot]
          exact congrArg Except.ok (setSlot_undo hprev)
        · exact absurd (eq_zeroReg (fun hf => hregular.notFloatZero ⟨hf, hzero⟩) hzero) hne
      · obtain ⟨hfree, hflat⟩ := hcoincides
        rw [hhead, hprev, Option.some.injEq] at hfree
        subst hfree
        rw [setSlot_same hprev]
        exact isMap_same hr hmode (hflat.trans hprev)
  · have hregular := regular_of_zeroReg heq
    refine iff_of_true ?_ (.inl hregular)
    exact isMap_same hr hmode (by rw [hregular.slot, hprev])

/-! ## A thread whose registers have the first physical ones -/

def firstRegs (c : RegClass) (n : Nat) : List PhysRegId := (List.range n).map fun i => ⟨c, i⟩

theorem firstRegs_length (c : RegClass) (n : Nat) : (firstRegs c n).length = n := by
  unfold firstRegs
  rw [List.length_map, List.length_range]

theorem firstRegs_class (c : RegClass) (n : Nat) : ∀ p ∈ firstRegs c n, p.regClass = c := by
  intro p hp
  obtain ⟨i, -, rfl⟩ := List.mem_map.1 hp
  rfl

def firstMap (cfg : Config) (mode : VecMode) : UnifiedRenameMap cfg where
  map := fun c => firstRegs c (cfg.mapSize c)
  vecMode := mode
  size := fun c => firstRegs_length c (cfg.mapSize c)
  mapped := fun c => firstRegs_class c (cfg.mapSize c)

theorem one_class (c : RegClass) (i : Nat) : ∀ p ∈ [PhysRegId.mk c i], p.regClass = c := by
  intro p hp
  rw [List.mem_singleton.1 hp]

/-- One free register of each class. -/
def oneFree (cfg : Config) : UnifiedFreeList where
  list := fun c => [⟨c, cfg.mapSize c⟩]
  listed := fun c => one_class c (cfg.mapSize c)

theorem two_le_four : 1 * 2 ≤ 4 := by decide

theorem one_le_two : 1 * 1 ≤ 2 := by decide

/-- Two integer registers and a vector register of two elements. -/
def oneVector : Config where
  numThreads := 1
  NumIntRegs := 2
  NumFloatRegs := 0
  NumVecRegs := 1
  NumVecElemPerVecReg := 2
  NumCCRegs := 0
  ZeroReg := 1
  isAlpha := false
  ndebug := false
  numPhysIntRegs := 4
  numPhysFloatRegs := 0
  numPhysVecRegs := 2
  numPhysCCRegs := 0
  enoughInt := two_le_four
  enoughFloat := Nat.le_refl 0
  enoughVec := one_le_two
  enoughCC := Nat.le_refl 0

/-- The integer register 0 is renamed. -/
theorem rename_isMap_intReg : ∃ s', IsMap (firstMap oneVector .Elem) (.IntReg 0) ⟨.IntRegClass, 2⟩
    ⟨.IntRegClass, 0⟩ s' := by
  have harch : Arch oneVector (.IntReg 0) := ⟨by decide, by decide, fun e he => by cases he⟩
  have hregular : Regular oneVector (.IntReg 0) := ⟨rfl, by decide⟩
  exact ⟨_, ((rename_isMap_iff harch (firstMap oneVector .Elem) (oneFree oneVector)).2 _ _ _ _ rfl).2
    (.inl hregular)⟩

theorem elem_wf : (some 1).isSome = true ↔ RegClass.VecElemClass = .VecElemClass := by decide

/-- The second element of the vector register gets the slot of the first. -/
theorem element_not_map : ¬ ∀ (cfg : Config) (r : RegId), Arch cfg r → ∀ (s : UnifiedRenameMap cfg) freeList
    new prev s' freeList', rename s r freeList = .ok ((new, prev), s', freeList') → IsMap s r new prev s' := by
  intro h
  have harch : Arch oneVector ⟨.VecElemClass, 0, some 1, elem_wf⟩ := by
    refine ⟨by decide, by decide, fun e he => ?_⟩
    cases he
    decide
  have hmap := h oneVector _ harch (firstMap oneVector .Elem) (oneFree oneVector) _ _ _ _ rfl
  have hbefore := hmap.before
  cases hbefore

end Alpine.Cpu.RenameMap
