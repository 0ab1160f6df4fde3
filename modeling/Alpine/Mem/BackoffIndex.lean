import Alpine.Mem.ExpBackoff

/-!
# The backoff index

A collision check raises `backoffIndex` when it marks an attempt, and lowers it when it lets one pass.
The loop decides anew for every attempt that overlaps whether the collision is a new one, so that what
counts is the last of them; the sum `backoffIndex + 1` is taken in eight bits; and the slots are drawn
from an `int` range and kept in sixteen bits.

* `backoffIndex_disciplined` — in every state reached, the index is within its bounds; exactly when a
  check moves it as it should; exactly when a draw gives what was drawn.
* `backoffIndex_not_raised` — a check marks an attempt and leaves the index.
-/

namespace Alpine.Mem

open Alpine.Run XBar

variable {p : Params} {s s' : XBar}

/-! ## Drawing slots -/

/-- `uint16_t rnd_slots_delay = random_mt.random(0,(1 << backoffIndex)-1);` — a shift by 31 or more
does not fit an `int`. -/
def drawSlots (random : Int → Int → Int) (backoffIndex : UInt8) : Option UInt16 :=
  if backoffIndex.toNat < 31 then some (UInt16.ofInt (random 0 (2 ^ backoffIndex.toNat - 1))) else none

/-- What `std::uniform_int_distribution` promises. -/
def Uniform (random : Int → Int → Int) : Prop :=
  ∀ min max, min ≤ max → min ≤ random min max ∧ random min max ≤ max

/-- The number of slots is the number drawn, from the whole window. -/
def Drawn (backoffIndex : UInt8) : Prop :=
  ∀ random, Uniform random → ∃ slots, drawSlots random backoffIndex = some slots ∧
    (slots.toNat : Int) = random 0 (2 ^ backoffIndex.toNat - 1) ∧
    slots.toNat ≤ 2 ^ backoffIndex.toNat - 1

theorem two_pow_sub_one (n : Nat) : ((2 ^ n - 1 : Nat) : Int) = 2 ^ n - 1 := by
  have hpos : 1 ≤ 2 ^ n := Nat.one_le_two_pow
  rw [Nat.cast_sub hpos, Nat.cast_pow]
  rfl

/-- **The window has to fit sixteen bits.** -/
theorem drawn_iff (backoffIndex : UInt8) : Drawn backoffIndex ↔ backoffIndex.toNat ≤ 16 := by
  have hpow := two_pow_sub_one backoffIndex.toNat
  have hpos : 1 ≤ 2 ^ backoffIndex.toNat := Nat.one_le_two_pow
  constructor
  · intro h
    -- the generator that draws the last slot of the window
    obtain ⟨slots, -, hslots, -⟩ := h (fun _ max => max) fun min max hle => ⟨hle, le_rfl⟩
    have hlt : slots.toNat < 2 ^ 16 := slots.toNat_lt
    by_contra hno
    have hge : 2 ^ 17 ≤ 2 ^ backoffIndex.toNat := Nat.pow_le_pow_right (by decide) (by omega)
    omega
  · intro hle random hrandom
    have hwindow : 2 ^ backoffIndex.toNat ≤ 2 ^ 16 := Nat.pow_le_pow_right (by decide) hle
    obtain ⟨hlow, hhigh⟩ := hrandom 0 (2 ^ backoffIndex.toNat - 1) (by omega)
    refine ⟨UInt16.ofInt (random 0 (2 ^ backoffIndex.toNat - 1)), if_pos (by omega), ?_⟩
    have hmod : (UInt16.ofInt (random 0 (2 ^ backoffIndex.toNat - 1))).toNat =
        (random 0 (2 ^ backoffIndex.toNat - 1)).toNat := by
      rw [UInt16.ofInt, UInt16.toNat_ofNat']
      omega
    omega

/-! ## What a check meets -/

/-- The attempts that the current one overlaps. -/
def overlapped (curPkt : ExpBackoffPkt) (l : List ExpBackoffPkt) : List ExpBackoffPkt :=
  l.filter (checkOverlap curPkt)

/-- An attempt is marked that was not. -/
def marksNew (curPkt : ExpBackoffPkt) (l : List ExpBackoffPkt) : Bool :=
  (overlapped curPkt l).any fun i => !i.overlap

/-- The attempt met another one, now or before. -/
def meets (curPkt : ExpBackoffPkt) (l : List ExpBackoffPkt) : Bool :=
  curPkt.overlap || l.any (checkOverlap curPkt)

/-- The last overlapping attempt was marked before. -/
def LastMarked (curPkt : ExpBackoffPkt) (l : List ExpBackoffPkt) : Prop :=
  ∃ i, (overlapped curPkt l).getLast? = some i ∧ i.overlap = true

theorem newOverlap_foldl (cur : ExpBackoffPkt) : ∀ (l : List ExpBackoffPkt) (b : Bool),
    l.foldl (fun new i => if checkOverlap cur i then !i.overlap else new) b =
      ((overlapped cur l).getLast?.map fun i => !i.overlap).getD b
  | [], _ => rfl
  | i :: l, b => by
    rw [List.foldl_cons, newOverlap_foldl cur l]
    unfold overlapped
    by_cases hi : checkOverlap cur i = true
    · rw [if_pos hi, List.filter_cons_of_pos hi, List.getLast?_cons]
      cases (l.filter (checkOverlap cur)).getLast? with
      | none => rfl
      | some j => rfl
    · rw [if_neg hi, List.filter_cons_of_neg hi]

variable {cur : ExpBackoffPkt}

/-- Where an attempt is newly marked, the flag says whether the last one was. -/
theorem newOverlap_iff {l : List ExpBackoffPkt} (hnew : marksNew cur l = true) :
    newOverlap cur l = true ↔ ¬ LastMarked cur l := by
  unfold newOverlap LastMarked
  rw [newOverlap_foldl]
  cases hlast : (overlapped cur l).getLast? with
  | none =>
    rw [List.getLast?_eq_none_iff] at hlast
    unfold marksNew at hnew
    rw [hlast] at hnew
    cases hnew
  | some i =>
    simp

theorem newOverlap_of_not_marksNew {l : List ExpBackoffPkt} (hnew : marksNew cur l = false) :
    newOverlap cur l = false := by
  unfold newOverlap
  rw [newOverlap_foldl]
  cases hlast : (overlapped cur l).getLast? with
  | none => rfl
  | some i =>
    have hi : i ∈ overlapped cur l := List.mem_of_getLast? hlast
    have hall := List.any_eq_false.1 hnew i hi
    simpa using hall

theorem meets_of_marksNew {l : List ExpBackoffPkt} (h : marksNew cur l = true) : meets cur l = true := by
  obtain ⟨i, hi, -⟩ := List.any_eq_true.1 h
  obtain ⟨hmem, hover⟩ := List.mem_filter.1 hi
  exact Bool.or_eq_true_iff.2 (.inr (List.any_eq_true.2 ⟨i, hmem, hover⟩))

/-! ## How a check moves the index -/

/-- How the index should move: up by one, to its ceiling, when the check marks an attempt; not at all when
it meets marked ones only; down by one, to 0, when it meets none. -/
def Moves (p : Params) (s s' : XBar) (curPkt : ExpBackoffPkt) (l : List ExpBackoffPkt) : Prop :=
  s'.backoffIndex.toNat =
    if marksNew curPkt l then
      if s.backoffIndex = p.backoffCeil then s.backoffIndex.toNat else s.backoffIndex.toNat + 1
    else if meets curPkt l then s.backoffIndex.toNat
    else s.backoffIndex.toNat - 1

/-- The new collision is counted: below the ceiling the last overlapping attempt was not marked before; at
a ceiling of 255, where the sum wraps, it was. -/
def Counted (p : Params) (s : XBar) (curPkt : ExpBackoffPkt) (l : List ExpBackoffPkt) : Prop :=
  marksNew curPkt l = true →
    (s.backoffIndex < p.backoffCeil → ¬ LastMarked curPkt l) ∧
      (s.backoffIndex = 255 → LastMarked curPkt l)

theorem schedule_backoffIndex (s : XBar) (i : ExpBackoffPkt) : (s.schedule i).backoffIndex = s.backoffIndex := rfl

theorem triggerSendRetryEB_backoffIndex (s : XBar) (i : ExpBackoffPkt) :
    (s.triggerSendRetryEB i).backoffIndex = s.backoffIndex := by
  unfold triggerSendRetryEB
  split
  · rfl
  · rfl

theorem tryTimingEB_backoffIndex (s : XBar) (c : Call) (rnd : UInt16) :
    (s.tryTimingEB p c rnd).1.backoffIndex = s.backoffIndex := by
  unfold tryTimingEB
  dsimp only
  split
  · split
    · rfl
    · rfl
  · rfl

theorem check_backoffIndex {rest : List ExpBackoffPkt} {rnd : UInt16}
    (hl : s.pktToTransmitEBList = cur :: rest) (hstep : backoffStep p s (.collisionCheck rnd) = some s') :
    s'.backoffIndex = if meets cur rest then
        if newOverlap cur rest then
          if s.backoffIndex + 1 ≤ p.backoffCeil then s.backoffIndex + 1 else p.backoffCeil
        else s.backoffIndex
      else if s.backoffIndex = 0 then 0 else s.backoffIndex - 1 := by
  obtain ⟨-, hstep⟩ := Option.ite_none_right_eq_some.1 hstep
  simp only [expBackoffCollisionCheck, hl] at hstep
  split at hstep
  · cases hstep
  · unfold meets
    split at hstep
    · rename_i hmeets
      rw [if_pos hmeets]
      cases hstep
      exact schedule_backoffIndex _ _
    · rename_i hmeets
      rw [if_neg hmeets]
      cases hstep
      exact triggerSendRetryEB_backoffIndex _ _

theorem succ_toNat {b : UInt8} (h : b ≠ 255) : (b + 1).toNat = b.toNat + 1 := by
  have hne : b.toNat ≠ 255 := fun hb => h (UInt8.toNat_inj.1 hb)
  have hlt : b.toNat < 256 := b.toNat_lt
  rw [UInt8.toNat_add]
  show (b.toNat + 1) % 256 = b.toNat + 1
  omega

theorem pred_toNat {b : UInt8} (h : b ≠ 0) : (b - 1).toNat = b.toNat - 1 := by
  have hne : b.toNat ≠ 0 := fun hb => h (UInt8.toNat_inj.1 hb)
  have hlt : b.toNat < 256 := b.toNat_lt
  rw [UInt8.toNat_sub]
  show (256 - 1 + b.toNat) % 256 = b.toNat - 1
  omega

/-- **A check moves the index as it should exactly if the collision is counted.** -/
theorem moves_iff {rest : List ExpBackoffPkt} {rnd : UInt16} (hbound : s.backoffIndex ≤ p.backoffCeil)
    (hl : s.pktToTransmitEBList = cur :: rest) (hstep : backoffStep p s (.collisionCheck rnd) = some s') :
    Moves p s s' cur rest ↔ Counted p s cur rest := by
  unfold Moves Counted
  rw [check_backoffIndex hl hstep]
  rw [UInt8.le_iff_toNat_le] at hbound
  have hceil : p.backoffCeil.toNat < 256 := p.backoffCeil.toNat_lt
  cases hnew : marksNew cur rest with
  | true =>
    rw [if_pos (meets_of_marksNew hnew), if_pos rfl]
    have hiff := newOverlap_iff hnew
    by_cases hlast : LastMarked cur rest
    · -- not counted: right at the ceiling only
      have hno : ¬ newOverlap cur rest = true := fun h => hiff.1 h hlast
      rw [if_neg hno]
      by_cases hat : s.backoffIndex = p.backoffCeil
      · rw [if_pos hat, hat]
        simp [hlast]
      · rw [if_neg hat]
        have hlt : s.backoffIndex < p.backoffCeil := by
          rw [UInt8.lt_iff_toNat_lt]
          have hne : s.backoffIndex.toNat ≠ p.backoffCeil.toNat := fun h => hat (UInt8.toNat_inj.1 h)
          omega
        constructor
        · intro h
          omega
        · intro h
          exact absurd hlast ((h rfl).1 hlt)
    · rw [if_pos (hiff.2 hlast)]
      by_cases hmax : s.backoffIndex = 255
      · -- the sum wraps
        have hceil255 : p.backoffCeil = 255 := by
          refine UInt8.toNat_inj.1 ?_
          rw [hmax] at hbound
          have : (255 : UInt8).toNat = 255 := rfl
          omega
        rw [hmax, hceil255]
        simp [hlast]
      · have hsucc := succ_toNat hmax
        by_cases hat : s.backoffIndex = p.backoffCeil
        · rw [if_pos hat, if_neg ?_, ← hat]
          · simp [hlast, hmax]
          · rw [UInt8.le_iff_toNat_le, hsucc, hat]
            omega
        · have hne : s.backoffIndex.toNat ≠ p.backoffCeil.toNat := fun h => hat (UInt8.toNat_inj.1 h)
          rw [if_neg hat, if_pos ?_, hsucc]
          · simp [hlast, hmax]
          · rw [UInt8.le_iff_toNat_le, hsucc]
            omega
  | false =>
    rw [newOverlap_of_not_marksNew hnew]
    simp only [Bool.false_eq_true, if_false, false_implies, iff_true]
    cases meets cur rest with
    | true => rfl
    | false =>
      simp only [Bool.false_eq_true, if_false]
      split
      · rename_i h0
        rw [h0]
        rfl
      · rename_i h0
        exact pred_toNat h0

/-! ## Runs -/

theorem backoffIndex_le_step (hmac : p.macProto = .exp_backoff) {i : BackoffInput}
    (hbound : s.backoffIndex ≤ p.backoffCeil) (hstep : backoffStep p s i = some s') :
    s'.backoffIndex ≤ p.backoffCeil := by
  cases i with
  | tryTiming c rnd =>
    obtain ⟨-, hstep⟩ := Option.ite_none_left_eq_some.1 hstep
    simp only [Option.some.injEq, tryTiming, hmac] at hstep
    rw [← hstep, tryTimingEB_backoffIndex]
    exact hbound
  | collisionCheck rnd =>
    have hl : ∃ cur rest, s.pktToTransmitEBList = cur :: rest := by
      obtain ⟨-, hstep⟩ := Option.ite_none_right_eq_some.1 hstep
      cases hlist : s.pktToTransmitEBList with
      | nil =>
        rw [hlist] at hstep
        cases hstep
      | cons cur rest => exact ⟨cur, rest, rfl⟩
    obtain ⟨cur, rest, hl⟩ := hl
    rw [check_backoffIndex hl hstep]
    split
    · split
      · split
        · assumption
        · exact UInt8.le_refl _
      · exact hbound
    · split
      · exact UInt8.zero_le
      · rename_i h0
        have hpred := pred_toNat h0
        rw [UInt8.le_iff_toNat_le] at hbound ⊢
        omega
  | collisionCheckReturn =>
    simp only [backoffStep] at hstep
    split at hstep
    · cases hstep
      unfold collisionCheckReturn
      split
      · exact hbound
      · exact hbound
    · cases hstep
  | advance t =>
    simp only [backoffStep] at hstep
    split at hstep
    · cases hstep
      exact hbound
    · cases hstep

/-- **The backoff index**: in every state reached it is at most the ceiling; a check moves it as it should
exactly if the collision is counted; and a draw, for a first attempt or after a check, gives a number of
slots of the window exactly if the index is at most 16. -/
theorem backoffIndex_disciplined (hmac : p.macProto = .exp_backoff)
    (hrun : Reaches (backoffStep p) (fun _ _ => True) {} s) :
    s.backoffIndex ≤ p.backoffCeil ∧ (Drawn s.backoffIndex ↔ s.backoffIndex ≤ 16) ∧
    ∀ cur rest rnd s', s.pktToTransmitEBList = cur :: rest → backoffStep p s (.collisionCheck rnd) = some s' →
      (Moves p s s' cur rest ↔ Counted p s cur rest) ∧ (Drawn s'.backoffIndex ↔ s'.backoffIndex ≤ 16) := by
  have hbound : s.backoffIndex ≤ p.backoffCeil :=
    hrun.inv (P := fun s => s.backoffIndex ≤ p.backoffCeil) UInt8.zero_le fun _ _ _ h _ hstep => backoffIndex_le_step hmac h hstep
  have hdraw : ∀ b : UInt8, Drawn b ↔ b ≤ 16 := fun b => by
    rw [drawn_iff, UInt8.le_iff_toNat_le]
    rfl
  exact ⟨hbound, hdraw _, fun cur rest rnd s' hl hstep => ⟨moves_iff hbound hl hstep, hdraw _⟩⟩

/-- Slots of twenty ticks. -/
def slotParams : Params := { backoffParams with retrySlot := 20 }

/-- A write request of `size` bytes from slave port `i`. -/
def writeCall (i size : Nat) : Call where
  srcPort := .slave i
  srcId := Int16.ofNat (i + 1)
  destPort := 0
  pkt := { cmd := .WriteReq, id := i, req := ⟨i, 0, false, false⟩, addr := 0, size := size }
  layerType := .REQ

/-- Ports 0 and 1 collide; port 0 tries again later, ports 2 and 3 try meanwhile. -/
def crowded : List BackoffInput :=
  [.tryTiming (writeCall 0 10) 0, .advance 5, .tryTiming (writeCall 1 95) 0, .advance 10,
    .collisionCheck 1, .advance 15, .tryTiming (writeCall 2 13) 0, .advance 20,
    .tryTiming (writeCall 3 10) 0, .advance 28]

def crowdedState : XBar := (crowded.foldlM (backoffStep slotParams) {}).get (by decide)

theorem crowded_reached : Reaches (backoffStep slotParams) (fun _ _ => True) {} crowdedState :=
  Reaches.refl.foldlM (fun _ _ _ => trivial) (Option.some_get _).symm

/-- The attempt of port 2 ends, which overlaps that of port 3 and, behind it, the marked one of port 1. -/
def crowdedFirst : ExpBackoffPkt := crowdedState.pktToTransmitEBList.head (by decide)

def crowdedRest : List ExpBackoffPkt := crowdedState.pktToTransmitEBList.tail

def crowdedChecked : XBar :=
  (backoffStep slotParams crowdedState (.collisionCheck 0)).get (by decide)

theorem crowded_list : crowdedState.pktToTransmitEBList = crowdedFirst :: crowdedRest :=
  (List.cons_head_tail _).symm

theorem backoffIndex_disciplined_crowded : crowdedState.backoffIndex ≤ slotParams.backoffCeil ∧
    (Drawn crowdedState.backoffIndex ↔ crowdedState.backoffIndex ≤ 16) ∧
    (Moves slotParams crowdedState crowdedChecked crowdedFirst crowdedRest ↔
      Counted slotParams crowdedState crowdedFirst crowdedRest) := by
  obtain ⟨hbound, hdraw, hcheck⟩ := backoffIndex_disciplined (p := slotParams) rfl crowded_reached
  exact ⟨hbound, hdraw, (hcheck _ _ 0 _ crowded_list (Option.some_get _).symm).1⟩

/-- **A new collision that is not counted**: the check marks the attempt of port 3, the index is 1 of 10,
and stays. -/
theorem backoffIndex_not_raised : Reaches (backoffStep slotParams) (fun _ _ => True) {} crowdedState ∧
    crowdedState.pktToTransmitEBList = crowdedFirst :: crowdedRest ∧
    backoffStep slotParams crowdedState (.collisionCheck 0) = some crowdedChecked ∧
    marksNew crowdedFirst crowdedRest = true ∧ crowdedState.backoffIndex = 1 ∧
    slotParams.backoffCeil = 10 ∧ crowdedChecked.backoffIndex = 1 ∧
    ¬ Moves slotParams crowdedState crowdedChecked crowdedFirst crowdedRest := by
  refine ⟨crowded_reached, crowded_list, (Option.some_get _).symm, by decide, by decide, by decide,
    by decide, ?_⟩
  unfold Moves
  decide

end Alpine.Mem
