import Alpine.Lib.Run
import Mathlib
/-!
# The timing of activations, precharges and refreshes

`activateBank`, `prechargeBank`, the part of `doDRAMAccess` that opens and closes rows, and the precharge of all banks
and the refresh of `processRefreshEvent`, for one rank.  The controller knows the timing of its DRAM only through the
times of each bank from which on a command is allowed; none of this looks at the commands it has issued.  The
low-power states and the delays of their wake-ups (`scheduleWakeUpEvent`) are left out.

* `Delay` — the delays between two commands, as a data sheet lists them.
* `Rank.Remembers` — times that keep the delays after a command; it is what every step preserves.
* `commands_in_time` — in every run all delays are kept between all commands, and neither an assertion nor the check
  of `tXAW` fails.
-/

namespace Alpine.Mem.DramTiming

structure Params where
  (tBURST tCL tRP tRAS tWR tRTP tRFC tRRD tRRD_L tXAW : Nat)
  activationLimit : Nat
  bankGroupsPerRank : Nat

structure Bank where
  openRow : Option Nat := none
  preAllowedAt : Nat := 0
  actAllowedAt : Nat := 0

/-- The commands, each with its `timeStamp`; `burst` is `RD` or `WR`. -/
inductive Command (B : Nat) where
  | ACT (bank : Fin B) (timeStamp : Nat)
  | burst (isRead : Bool) (bank : Fin B) (timeStamp : Nat)
  | PRE (bank : Fin B) (timeStamp : Nat)
  | PREA (timeStamp : Nat)
  | REF (timeStamp : Nat)

/-- A rank.  `prechargedAt` is the latest time that `prechargeEvent` was scheduled for, and `cmdList` has the last
command first and is never flushed. -/
structure Rank (B : Nat) where
  banks : Fin B → Bank := fun _ => {}
  numBanksActive : Nat := 0
  actTicks : List Nat
  prechargedAt : Nat := 0
  curTick : Nat := 0
  cmdList : List (Command B) := []

variable {B : Nat} (p : Params)

namespace Params

def bankgr (b : Nat) : Nat := if p.bankGroupsPerRank > 0 then b % p.bankGroupsPerRank else b

/-- From an activation of bank `b` to one of bank `i`. -/
def actDly (b i : Fin B) : Nat := if p.bankGroupsPerRank > 0 ∧ p.bankgr b = p.bankgr i then p.tRRD_L else p.tRRD

/-- From a read or a write to the precharge. -/
def preDly (isRead : Bool) : Nat := if isRead then p.tRTP else p.tCL + p.tBURST + p.tWR

/-- `back && (act_tick - back) < tXAW`, without a sign. -/
def InWindow (back act_tick : Nat) : Prop := back ≠ 0 ∧ back ≤ act_tick ∧ act_tick < back + p.tXAW

instance (back act_tick : Nat) : Decidable (p.InWindow back act_tick) := inferInstanceAs (Decidable (_ ∧ _))

end Params

namespace Bank

variable (bank : Bank)

def activate (act_tick row : Nat) : Bank := { bank with openRow := some row, preAllowedAt := act_tick + p.tRAS }

def precharge (pre_at : Nat) : Bank where
  openRow := none
  preAllowedAt := pre_at
  actAllowedAt := max bank.actAllowedAt (pre_at + p.tRP)

def delayPre (tick : Nat) : Bank := { bank with preAllowedAt := max bank.preAllowedAt tick }

def delayAct (tick : Nat) : Bank := { bank with actAllowedAt := max tick bank.actAllowedAt }

end Bank

namespace Rank

variable (s : Rank B)

def active : Finset (Fin B) := Finset.univ.filter fun b => (s.banks b).openRow ≠ none

/-- The part of `activateBank` on `tXAW`. -/
def trackWindow (act_tick : Nat) : Option (Rank B) :=
  match s.actTicks.getLast? with
  | none => some s
  | some oldest =>
    if p.InWindow oldest act_tick then none
    else
      let actTicks := act_tick :: s.actTicks.dropLast
      let back := actTicks.getLast (List.cons_ne_nil _ _)
      let tick := if p.InWindow back act_tick then back + p.tXAW else 0
      some { s with actTicks := actTicks, banks := fun i => (s.banks i).delayAct tick }

def openBank (b : Fin B) (act_tick row : Nat) : Rank B := { s with
  numBanksActive := s.numBanksActive + 1
  banks := fun i =>
    (if i = b then (s.banks i).activate p act_tick row else s.banks i).delayAct (act_tick + p.actDly b i)
  cmdList := .ACT b act_tick :: s.cmdList }

def activateBank (b : Fin B) (act_tick row : Nat) : Option (Rank B) :=
  if s.actTicks.length = p.activationLimit ∧ (s.banks b).openRow = none ∧ s.numBanksActive + 1 ≤ B then
    (s.openBank p b act_tick row).trackWindow p act_tick
  else none

def prechargeBank (b : Fin B) (pre_at : Nat) : Option (Rank B) :=
  if (s.banks b).openRow ≠ none ∧ s.numBanksActive ≠ 0 then
    some { s with
      banks := fun i => if i = b then (s.banks i).precharge p pre_at else s.banks i
      numBanksActive := s.numBanksActive - 1
      prechargedAt := max s.prechargedAt (pre_at + p.tRP)
      cmdList := .PRE b pre_at :: s.cmdList }
  else none

/-- The row of the access is opened. -/
def openPage (b : Fin B) (row : Nat) : Option (Rank B) :=
  match (s.banks b).openRow with
  | none => s.activateBank p b (max (s.banks b).actAllowedAt s.curTick) row
  | some openRow =>
    if openRow = row then some s
    else (s.prechargeBank p b (max (s.banks b).preAllowedAt s.curTick)).bind fun s =>
      s.activateBank p b (max (s.banks b).actAllowedAt s.curTick) row

/-- The read or write command. -/
def burst (isRead : Bool) (b : Fin B) (cmd_at : Nat) : Rank B := { s with
  banks := fun i => if i = b then (s.banks i).delayPre (cmd_at + p.preDly isRead) else s.banks i
  cmdList := .burst isRead b cmd_at :: s.cmdList }

/-- An access.  The column times and the data bus, which the ranks share, give `cmd_at`, and the page policy gives
`auto_precharge`. -/
def doDRAMAccess (isRead : Bool) (b : Fin B) (row cmd_at : Nat) (auto_precharge : Bool) : Option (Rank B) :=
  (s.openPage p b row).bind fun s =>
    let s := s.burst p isRead b cmd_at
    if auto_precharge then s.prechargeBank p b (max s.curTick (s.banks b).preAllowedAt) else some s

/-- `REF_PRE` of `processRefreshEvent`, with an active bank: `prechargeBank` of each, for which the counter must get to
0 with the last one. -/
def prechargeAll : Option (Rank B) :=
  let pre_at := max (Finset.univ.sup fun b => (s.banks b).preAllowedAt) s.curTick
  if s.numBanksActive = s.active.card then
    some { s with
      banks := fun b => if (s.banks b).openRow ≠ none then (s.banks b).precharge p pre_at
        else ((s.banks b).delayAct (pre_at + p.tRP)).delayPre pre_at
      numBanksActive := 0
      prechargedAt := if s.active = ∅ then s.prechargedAt else max s.prechargedAt (pre_at + p.tRP)
      cmdList := .PREA pre_at :: s.cmdList }
  else none

/-- `REF_START` of `processRefreshEvent`. -/
def refresh : Option (Rank B) :=
  if s.numBanksActive = 0 then
    some { s with
      banks := fun b => { s.banks b with actAllowedAt := s.curTick + p.tRFC }
      cmdList := .REF s.curTick :: s.cmdList }
  else none

/-! ## Runs -/

def new : Rank B where
  actTicks := .replicate p.activationLimit 0

end Rank

inductive Call (B : Nat) where
  | doDRAMAccess (isRead : Bool) (bank : Fin B) (row cmd_at : Nat) (auto_precharge : Bool)
  | prechargeAll
  | refresh

/-- A call at a tick. -/
def step (s : Rank B) (c : Nat × Call B) : Option (Rank B) :=
  let s := { s with curTick := c.1 }
  match c.2 with
  | .doDRAMAccess isRead b row cmd_at auto_precharge => s.doDRAMAccess p isRead b row cmd_at auto_precharge
  | .prechargeAll => s.prechargeAll p
  | .refresh => s.refresh p

/-- All banks are precharged while one is active, and the rank is refreshed when its last `prechargeEvent` has left it
idle. -/
def Permitted (s : Rank B) (c : Nat × Call B) : Prop :=
  s.curTick ≤ c.1 ∧ match c.2 with
    | .doDRAMAccess .. => True
    | .prechargeAll => s.numBanksActive ≠ 0
    | .refresh => s.numBanksActive = 0 ∧ s.prechargedAt ≤ c.1

/-! ## The delays -/

def Command.timeStamp : Command B → Nat
  | .ACT _ t | .burst _ _ t | .PRE _ t | .PREA t | .REF t => t

/-- From a command to the precharge of its bank. -/
inductive Recovery : Command B → Fin B → Nat → Prop
  | ras {b t} : Recovery (.ACT b t) b p.tRAS
  | burst {isRead b t} : Recovery (.burst isRead b t) b (p.preDly isRead)

/-- The command precharges the bank. -/
inductive Closes : Command B → Fin B → Prop
  | pre {b t} : Closes (.PRE b t) b
  | prea {b t} : Closes (.PREA t) b

/-- The least time from a command to a later one. -/
inductive Delay : Command B → Command B → Nat → Prop
  | rrd {b i t t'} : Delay (.ACT b t) (.ACT i t') (p.actDly b i)
  | rc {c b t n} : Recovery p c b n → Delay c (.ACT b t) (n + p.tRP)
  | rp {c b t} : Closes c b → Delay c (.ACT b t) p.tRP
  | rfc {b t t'} : Delay (.REF t) (.ACT b t') p.tRFC
  | pre {c b t n} : Recovery p c b n → Delay c (.PRE b t) n
  | prea {c b t n} : Recovery p c b n → Delay c (.PREA t) n
  | idle {c b t n} : Recovery p c b n → Delay c (.REF t) (n + p.tRP)
  | closed {c b t} : Closes c b → Delay c (.REF t) p.tRP

/-- Between two commands all delays are kept. -/
def Keeps (c d : Command B) : Prop := ∀ n, Delay p c d n → c.timeStamp + n ≤ d.timeStamp

/-- A refresh takes longer than the delays between activations that it ends. -/
structure Params.Spaced : Prop where
  rrd : p.tRRD ≤ p.tRAS + p.tRP + p.tRFC
  rrd_l : p.tRRD_L ≤ p.tRAS + p.tRP + p.tRFC
  xaw : p.tXAW ≤ p.tRAS + p.tRP + p.tRFC

/-! ## The invariant -/

inductive Kind where
  | act | pre | idle

namespace Rank

/-- The earliest time of the next activation or precharge of the bank, and the end of the latter.  A closed bank is
precharged with the others or after an activation. -/
def time (s : Rank B) (b : Fin B) : Kind → Nat
  | .act => if (s.banks b).openRow = none then (s.banks b).actAllowedAt
    else max (s.banks b).actAllowedAt ((s.banks b).preAllowedAt + p.tRP)
  | .pre => if (s.banks b).openRow = none then min (s.banks b).preAllowedAt ((s.banks b).actAllowedAt + p.tRAS)
    else (s.banks b).preAllowedAt
  | .idle => if (s.banks b).openRow = none then s.prechargedAt
    else max s.prechargedAt ((s.banks b).preAllowedAt + p.tRP)

/-- The times let the command go. -/
def Allowed (s : Rank B) : Command B → Prop
  | .ACT b t => s.time p b .act ≤ t
  | .burst _ _ _ => True
  | .PRE b t => s.time p b .pre ≤ t
  | .PREA t => ∀ b, s.time p b .pre ≤ t
  | .REF t => ∀ b, s.time p b .idle ≤ t

structure Remembers (s : Rank B) (c : Command B) : Prop where
  recovery : ∀ b n, Recovery p c b n → c.timeStamp + n ≤ s.time p b .pre ∧
    c.timeStamp + n + p.tRP ≤ s.time p b .act ∧ c.timeStamp + n + p.tRP ≤ s.time p b .idle
  closes : ∀ b, Closes c b → c.timeStamp + p.tRP ≤ s.time p b .act ∧ c.timeStamp + p.tRP ≤ s.time p b .idle
  rrd : ∀ b t, c = .ACT b t → ∀ i, t + p.actDly b i ≤ s.time p i .act
  rfc : ∀ t, c = .REF t → t ≤ s.curTick ∧ ∀ b, t + p.tRFC ≤ s.time p b .act

structure Inv (s : Rank B) : Prop where
  past : ∀ c ∈ s.cmdList, s.Remembers p c
  kept : s.cmdList.Pairwise fun d c => Keeps p c d
  active : s.numBanksActive = s.active.card
  length : s.actTicks.length = p.activationLimit
  acts : ∀ o ∈ s.actTicks, o ≠ 0 → ∃ b, .ACT b o ∈ s.cmdList
  window : ∀ o ∈ s.actTicks.getLast?, o ≠ 0 → ∀ b, o + p.tXAW ≤ s.time p b .act

variable {p} {s s' : Rank B} {c d : Command B} {b : Fin B} {t : Nat}

theorem Remembers.keeps (h : s.Remembers p c) (hd : s.Allowed p d) : Keeps p c d := by
  intro n hn
  cases hn with
  | rrd => exact (h.rrd _ _ rfl _).trans hd
  | rc hrec => exact ((Nat.add_assoc ..).ge.trans (h.recovery _ _ hrec).2.1).trans hd
  | rp hcl => exact (h.closes _ hcl).1.trans hd
  | rfc => exact ((h.rfc _ rfl).2 _).trans hd
  | pre hrec => exact (h.recovery _ _ hrec).1.trans hd
  | prea hrec => exact (h.recovery _ _ hrec).1.trans (hd _)
  | idle hrec => exact ((Nat.add_assoc ..).ge.trans (h.recovery _ _ hrec).2.2).trans (hd _)
  | closed hcl => exact (h.closes _ hcl).2.trans (hd _)

theorem Remembers.mono (h : s.Remembers p c) (hle : ∀ b k, s.time p b k ≤ s'.time p b k)
    (htick : s.curTick ≤ s'.curTick) : s'.Remembers p c where
  recovery b n hr := (h.recovery b n hr).imp (·.trans (hle b _)) (.imp (·.trans (hle b _)) (·.trans (hle b _)))
  closes b hc := (h.closes b hc).imp (·.trans (hle b _)) (·.trans (hle b _))
  rrd b t hc i := (h.rrd b t hc i).trans (hle i _)
  rfc t hc := ⟨(h.rfc t hc).1.trans htick, fun b => ((h.rfc t hc).2 b).trans (hle b _)⟩

/-- A command that the times allow is issued, and the new times remember it. -/
theorem Inv.issue (h : s.Inv p) (hc : s.Allowed p c) (hcmd : s'.cmdList = c :: s.cmdList) (hrem : s'.Remembers p c)
    (hpast : ∀ c ∈ s.cmdList, s'.Remembers p c) (hticks : s'.actTicks = s.actTicks)
    (hactive : s'.numBanksActive = s'.active.card)
    (hwindow : ∀ o ∈ s.actTicks.getLast?, o ≠ 0 → ∀ b, o + p.tXAW ≤ s'.time p b .act) : s'.Inv p where
  past := hcmd ▸ List.forall_mem_cons.2 ⟨hrem, hpast⟩
  kept := hcmd ▸ List.pairwise_cons.2 ⟨fun c' hc' => (h.past c' hc').keeps hc, h.kept⟩
  active := hactive
  length := hticks ▸ h.length
  acts o ho h0 := by
    obtain ⟨b, hb⟩ := h.acts o (hticks ▸ ho) h0
    exact ⟨b, hcmd ▸ List.mem_cons_of_mem _ hb⟩
  window o ho := hwindow o (hticks ▸ ho)

theorem Inv.issue_later (h : s.Inv p) (hc : s.Allowed p c) (hcmd : s'.cmdList = c :: s.cmdList)
    (hrem : s'.Remembers p c) (hle : ∀ b k, s.time p b k ≤ s'.time p b k)
    (hsame : s'.curTick = s.curTick ∧ s'.actTicks = s.actTicks) (hactive : s'.numBanksActive = s'.active.card) :
    s'.Inv p :=
  h.issue hc hcmd hrem (fun c hc => (h.past c hc).mono hle hsame.1.ge) hsame.2 hactive
    fun o ho h0 b => (h.window o ho h0 b).trans (hle b _)

/-! ## One command -/

theorem mem_active : b ∈ s.active ↔ (s.banks b).openRow ≠ none := by simp [active]

theorem actAllowedAt_le_time : (s.banks b).actAllowedAt ≤ s.time p b .act := by
  unfold time
  dsimp only
  split <;> omega

theorem time_mono (hrow : (s'.banks b).openRow = (s.banks b).openRow)
    (hpre : (s.banks b).preAllowedAt ≤ (s'.banks b).preAllowedAt)
    (hact : (s.banks b).actAllowedAt ≤ (s'.banks b).actAllowedAt) (hidle : s.prechargedAt ≤ s'.prechargedAt)
    {k : Kind} : s.time p b k ≤ s'.time p b k := by
  by_cases hb : (s.banks b).openRow = none
  all_goals
    cases k with
    | act | pre | idle =>
      simp only [time, hrow, hb, if_true, if_false]
      omega

theorem precharge_inv (h : s.Inv p) (hopen : (s.banks b).openRow ≠ none) (ht : (s.banks b).preAllowedAt ≤ t) :
    ∃ s', s.prechargeBank p b t = some s' ∧ s'.Inv p ∧ (s'.banks b).openRow = none := by
  have hin : b ∈ s.active := mem_active.2 hopen
  have hnum : s.numBanksActive ≠ 0 := h.active ▸ Finset.card_ne_zero_of_mem hin
  refine ⟨_, if_pos ⟨hopen, hnum⟩, h.issue_later (c := .PRE b t) ?_ rfl ?_ ?_ ⟨rfl, rfl⟩ ?_, ?_⟩
  · simpa only [Allowed, time, if_neg hopen] using ht
  · refine ⟨nofun, ?_, nofun, nofun⟩
    rintro _ ⟨⟩
    simp only [time, if_true, Bank.precharge, Command.timeStamp]
    omega
  · intro i k
    by_cases hi : i = b
    · subst hi
      cases k with
      | act | pre | idle =>
        simp only [time, if_true, Bank.precharge, if_neg hopen]
        omega
    · apply time_mono
      all_goals simp only [if_neg hi, le_refl, le_max_left]
  · rw [show active _ = s.active.erase b from ?_, Finset.card_erase_of_mem hin, h.active]
    ext i
    simp only [mem_active, Finset.mem_erase]
    by_cases hi : i = b <;> simp [hi, Bank.precharge]
  · simp only [if_true, Bank.precharge]

theorem burst_inv (h : s.Inv p) (hopen : (s.banks b).openRow ≠ none) (isRead : Bool) (t : Nat) :
    (s.burst p isRead b t).Inv p ∧ ((s.burst p isRead b t).banks b).openRow ≠ none := by
  have hrow : ∀ i, ((s.burst p isRead b t).banks i).openRow = (s.banks i).openRow := fun i => by
    unfold burst
    dsimp only
    split <;> rfl
  refine ⟨h.issue_later (c := .burst isRead b t) trivial rfl ?_ ?_ ⟨rfl, rfl⟩ ?_, by rwa [hrow]⟩
  · refine ⟨?_, nofun, nofun, nofun⟩
    rintro _ _ ⟨⟩
    simp only [time, hrow, if_neg hopen]
    simp only [burst, if_true, Bank.delayPre, Command.timeStamp]
    omega
  · intro i k
    by_cases hi : i = b
    · subst hi
      cases k with
      | act | pre | idle =>
        simp only [time, hrow, if_neg hopen]
        simp only [burst, if_true, Bank.delayPre]
        omega
    · simp only [time, burst, if_neg hi, le_refl]
  · rw [show active (s.burst p isRead b t) = s.active from Finset.filter_congr fun i _ => by rw [hrow]]
    exact h.active

theorem trackWindow_inv (h : s.Inv p) (hmem : .ACT b t ∈ s.cmdList) (hge : ∀ o ∈ s.actTicks, o ≠ 0 → o ≤ t)
    (hlast : ∀ o ∈ s.actTicks.getLast?, ¬ p.InWindow o t) (hact : ∀ i, t ≤ s.time p i .act) :
    ∃ s', s.trackWindow p t = some s' ∧ s'.Inv p ∧ ∀ i, (s'.banks i).openRow = (s.banks i).openRow := by
  unfold trackWindow
  cases hl : s.actTicks.getLast? with
  | none => exact ⟨s, rfl, h, fun _ => rfl⟩
  | some oldest =>
    dsimp only
    rw [if_neg (hlast oldest hl)]
    have hmem' : ∀ o ∈ t :: s.actTicks.dropLast, o = t ∨ o ∈ s.actTicks := fun o ho =>
      (List.mem_cons.1 ho).imp_right List.mem_of_mem_dropLast
    have hlater : ∀ tick i k, s.time p i k ≤ { s with
        actTicks := t :: s.actTicks.dropLast, banks := fun i => (s.banks i).delayAct tick : Rank B }.time p i k := by
      intro tick i k
      apply time_mono
      all_goals simp only [Bank.delayAct, le_refl, le_max_right]
    have hle : ∀ o ∈ t :: s.actTicks.dropLast, o ≠ 0 → o ≤ t := fun o ho h0 =>
      (hmem' o ho).elim (fun heq => heq.le) fun ho => hge o ho h0
    refine ⟨_, rfl, ⟨fun c hc => (h.past c hc).mono (hlater _) (Nat.le_refl _), h.kept, h.active, ?_,
      fun o ho h0 => ?_, fun o ho h0 i => ?_⟩, fun _ => rfl⟩
    · have hpos := List.length_pos_of_ne_nil (List.ne_nil_of_mem (List.mem_of_getLast? hl))
      rw [List.length_cons, List.length_dropLast, ← h.length]
      omega
    · rcases hmem' o ho with rfl | ho
      · exact ⟨b, hmem⟩
      · exact h.acts o ho h0
    · rw [List.getLast?_eq_some_getLast (List.cons_ne_nil _ _)] at ho
      cases ho
      -- the oldest activation that is left, within its window or past it
      by_cases hin : p.InWindow ((t :: s.actTicks.dropLast).getLast (List.cons_ne_nil _ _)) t
      · refine le_trans ?_ actAllowedAt_le_time
        simp only [if_pos hin]
        exact Nat.le_max_left _ _
      · have hlt := hle _ (List.getLast_mem _) h0
        have hout : _ + p.tXAW ≤ t := Nat.le_of_not_lt fun h => hin ⟨h0, hlt, h⟩
        exact (hout.trans (hact i)).trans (hlater _ i .act)

theorem openBank_dly (row : Nat) (i : Fin B) : t + p.actDly b i ≤ (s.openBank p b t row).time p i .act :=
  (Nat.le_max_left _ _).trans (actAllowedAt_le_time (s := s.openBank p b t row))

theorem openBank_inv (h : s.Inv p) (hclosed : (s.banks b).openRow = none) (ht : (s.banks b).actAllowedAt ≤ t)
    (row : Nat) : (s.openBank p b t row).Inv p := by
  refine h.issue_later (c := .ACT b t) ?_ rfl ?_ ?_ ⟨rfl, rfl⟩ ?_
  · simpa only [Allowed, time, hclosed, if_true] using ht
  · refine ⟨?_, nofun, ?_, nofun⟩
    · rintro _ _ ⟨⟩
      simp only [time, openBank, if_true, Bank.activate, Bank.delayAct, reduceCtorEq, if_false, Command.timeStamp]
      omega
    · rintro _ _ ⟨⟩
      exact openBank_dly row
  · intro i k
    by_cases hi : i = b
    · subst hi
      cases k with
      | act | pre | idle =>
        simp only [time, openBank, if_true, Bank.activate, Bank.delayAct, hclosed, reduceCtorEq, if_false]
        omega
    · apply time_mono
      all_goals simp only [openBank, if_neg hi, Bank.delayAct, le_refl, le_max_right]
  · have hnot : b ∉ s.active := fun hin => mem_active.1 hin hclosed
    rw [show active _ = insert b s.active from ?_, Finset.card_insert_of_notMem hnot, ← h.active]
    · rfl
    · ext i
      simp only [mem_active, Finset.mem_insert]
      by_cases hi : i = b <;> simp [hi, openBank, Bank.activate, Bank.delayAct]

theorem activate_inv (h : s.Inv p) (hclosed : (s.banks b).openRow = none) (ht : (s.banks b).actAllowedAt ≤ t)
    (row : Nat) : ∃ s', s.activateBank p b t row = some s' ∧ s'.Inv p ∧ (s'.banks b).openRow ≠ none := by
  have hfree : s.numBanksActive + 1 ≤ B := by
    have hlt := Finset.card_lt_univ_of_notMem fun hin : b ∈ s.active => mem_active.1 hin hclosed
    rw [Fintype.card_fin] at hlt
    exact h.active ▸ hlt
  have hallowed : s.time p b .act ≤ t := by simpa only [time, hclosed, if_true] using ht
  have hge : ∀ o ∈ s.actTicks, o ≠ 0 → o ≤ t := fun o ho h0 => by
    obtain ⟨i, hi⟩ := h.acts o ho h0
    exact (Nat.le_add_right _ _).trans (((h.past _ hi).rrd _ _ rfl b).trans hallowed)
  have hlast : ∀ o ∈ s.actTicks.getLast?, ¬ p.InWindow o t := fun o ho hin =>
    Nat.not_lt_of_ge ((h.window o ho hin.1 b).trans hallowed) hin.2.2
  obtain ⟨s', hs', hinv, hrow⟩ := trackWindow_inv (openBank_inv h hclosed ht row) List.mem_cons_self hge hlast
    fun i => (Nat.le_add_right _ _).trans (openBank_dly row i)
  refine ⟨s', (if_pos ⟨h.length, hclosed, hfree⟩).trans hs', hinv, ?_⟩
  rw [hrow]
  simp [openBank, Bank.activate, Bank.delayAct]

theorem access_inv (h : s.Inv p) (isRead : Bool) (b : Fin B) (row cmd_at : Nat) (auto_precharge : Bool) :
    ∃ s', s.doDRAMAccess p isRead b row cmd_at auto_precharge = some s' ∧ s'.Inv p := by
  have hpage : ∃ s', s.openPage p b row = some s' ∧ s'.Inv p ∧ (s'.banks b).openRow ≠ none := by
    unfold openPage
    cases hrow : (s.banks b).openRow with
    | none => exact activate_inv h hrow (Nat.le_max_left _ _) row
    | some openRow =>
      have hopen : (s.banks b).openRow ≠ none := hrow ▸ Option.some_ne_none openRow
      dsimp only
      split
      · exact ⟨s, rfl, h, hopen⟩
      · obtain ⟨s1, hs1, h1, hclosed⟩ := precharge_inv h hopen (Nat.le_max_left _ s.curTick)
        rw [hs1]
        exact activate_inv h1 hclosed (Nat.le_max_left _ _) row
  obtain ⟨s1, hs1, h1, hopen⟩ := hpage
  obtain ⟨h2, hopen2⟩ := burst_inv h1 hopen isRead cmd_at
  unfold doDRAMAccess
  rw [hs1, Option.bind_some]
  cases auto_precharge with
  | false => exact ⟨_, rfl, h2⟩
  | true =>
    obtain ⟨s', hs', h', -⟩ := precharge_inv h2 hopen2 (Nat.le_max_right _ _)
    exact ⟨s', hs', h'⟩

theorem prechargeAll_inv (h : s.Inv p) (hnum : s.numBanksActive ≠ 0) :
    ∃ s', s.prechargeAll p = some s' ∧ s'.Inv p := by
  have hne : s.active ≠ ∅ := fun h0 => hnum (by rw [h.active, h0, Finset.card_empty])
  have hpre : ∀ b, (s.banks b).preAllowedAt ≤ max (Finset.univ.sup fun b => (s.banks b).preAllowedAt) s.curTick :=
    fun b => (Finset.le_sup (f := fun b => (s.banks b).preAllowedAt) (Finset.mem_univ b)).trans (Nat.le_max_left _ _)
  unfold prechargeAll
  dsimp only
  rw [if_pos h.active, if_neg hne]
  generalize max (Finset.univ.sup fun b => (s.banks b).preAllowedAt) s.curTick = t at hpre
  refine ⟨_, rfl, h.issue_later (c := .PREA t) (fun b => ?_) rfl ?_ (fun b k => ?_) ⟨rfl, rfl⟩ ?_⟩
  · have hb := hpre b
    unfold time
    dsimp only
    split <;> omega
  · refine ⟨nofun, ?_, nofun, nofun⟩
    rintro b ⟨⟩
    by_cases hb : (s.banks b).openRow = none
    all_goals
      simp only [time, hb, ne_eq, not_true, not_false_eq_true, if_true, if_false, Bank.precharge, Bank.delayAct,
        Bank.delayPre, Command.timeStamp]
      omega
  · have hle := hpre b
    by_cases hb : (s.banks b).openRow = none
    all_goals
      cases k with
      | act | pre | idle =>
        simp only [time, hb, ne_eq, not_true, not_false_eq_true, if_true, if_false, Bank.precharge, Bank.delayAct,
          Bank.delayPre]
        omega
  · rw [eq_comm, Finset.card_eq_zero, active, Finset.filter_eq_empty_iff]
    intro b _
    by_cases hb : (s.banks b).openRow = none <;> simp [hb, Bank.precharge, Bank.delayAct, Bank.delayPre]

theorem refresh_inv (hp : p.Spaced) (h : s.Inv p) (hnum : s.numBanksActive = 0) (hidle : s.prechargedAt ≤ s.curTick) :
    ∃ s', s.refresh p = some s' ∧ s'.Inv p := by
  have hempty := h.active.symm.trans hnum
  have hclosed : ∀ b, (s.banks b).openRow = none := by
    simpa [active, Finset.filter_eq_empty_iff] using hempty
  have htime : ∀ b, s.time p b .idle = s.prechargedAt := fun b => if_pos (hclosed b)
  -- what has been activated has been precharged
  have hacts : ∀ {b t}, .ACT b t ∈ s.cmdList → t + p.tRAS + p.tRP ≤ s.curTick := fun {b t} hc =>
    ((h.past _ hc).recovery b _ .ras).2.2.trans ((htime b).le.trans hidle)
  refine ⟨_, if_pos hnum, h.issue (c := .REF s.curTick) (fun b => (htime b).le.trans hidle) rfl ?_ (fun c hc => ?_) rfl
    h.active fun o ho h0 b => ?_⟩
  · refine ⟨nofun, nofun, nofun, ?_⟩
    rintro _ ⟨⟩
    exact ⟨Nat.le_refl _, fun b => (if_pos (hclosed b)).ge⟩
  · have hold := h.past c hc
    constructor
    case recovery =>
      intro b n hr
      have hle := hold.recovery b n hr
      simp only [time, hclosed, if_true] at hle ⊢
      omega
    case closes =>
      intro b hcl
      have hle := hold.closes b hcl
      simp only [time, hclosed, if_true] at hle ⊢
      omega
    case rrd =>
      rintro b t rfl i
      have hdly : p.actDly b i ≤ p.tRAS + p.tRP + p.tRFC := by
        unfold Params.actDly
        split
        · exact hp.rrd_l
        · exact hp.rrd
      have hact := hacts hc
      simp only [time, hclosed, if_true]
      omega
    case rfc =>
      rintro t rfl
      have hle := (hold.rfc t rfl).1
      refine ⟨hle, fun b => ?_⟩
      simp only [time, hclosed, if_true]
      omega
  · obtain ⟨i, hi⟩ := h.acts o (List.mem_of_getLast? ho) h0
    have hact := hacts hi
    have hxaw := hp.xaw
    simp only [time, hclosed, if_true]
    omega

theorem inv_new : (new p : Rank B).Inv p where
  past := nofun
  kept := .nil
  active := by simp [new, active]
  length := List.length_replicate
  acts o ho h0 := absurd (List.eq_of_mem_replicate ho) h0
  window o ho h0 := absurd (List.eq_of_mem_replicate (List.mem_of_getLast? ho)) h0

theorem step_inv (hp : p.Spaced) (h : s.Inv p) {c : Nat × Call B} (hc : Permitted s c) :
    ∃ s', step p s c = some s' ∧ s'.Inv p := by
  obtain ⟨htick, hcall⟩ := hc
  have h' : ({ s with curTick := c.1 } : Rank B).Inv p :=
    { h with past := fun d hd => (h.past d hd).mono (fun _ _ => Nat.le_refl _) htick }
  obtain ⟨tick, call⟩ := c
  cases call with
  | doDRAMAccess isRead b row cmd_at auto_precharge => exact access_inv h' isRead b row cmd_at auto_precharge
  | prechargeAll => exact prechargeAll_inv h' hcall
  | refresh => exact refresh_inv hp h' hcall.1 hcall.2

end Rank

/-- **The commands keep the timing of the DRAM.**  In every run, between every two commands of a rank all delays are
kept; and the next call returns, so that no assertion fails and no window of `tXAW` has more activations than its
limit. -/
theorem commands_in_time (hp : p.Spaced) {s : Rank B} (h : Run.Reaches (step p) Permitted (Rank.new p) s)
    {c : Nat × Call B} (hc : Permitted s c) :
    s.cmdList.Pairwise (fun d c => Keeps p c d) ∧ ∃ s', step p s c = some s' := by
  have hinv : s.Inv p := by
    refine h.inv Rank.inv_new fun t c t' ht hok hstep => ?_
    obtain ⟨t1, ht1, hinv⟩ := Rank.step_inv hp ht hok
    cases hstep.symm.trans ht1
    exact hinv
  obtain ⟨s', hs', -⟩ := Rank.step_inv hp hinv hc
  exact ⟨hinv.kept, s', hs'⟩

/-- A DDR3 device, in picoseconds. -/
def ddr3 : Params := ⟨5000, 13750, 13750, 35000, 15000, 7500, 260000, 6000, 0, 30000, 4, 0⟩

/-- A read that opens a row, a write to another row of the bank, and the precharge of all banks. -/
theorem commands_in_time_ddr3 : ∃ s s' : Rank 8,
    s.cmdList = [.burst false 0 87500, .ACT 0 73750, .PRE 0 60000, .burst true 0 13850, .ACT 0 100] ∧
    s.cmdList.Pairwise (fun d c => Keeps ddr3 c d) ∧ step ddr3 s (90000, .prechargeAll) = some s' := by
  have h1 := (Run.Reaches.refl : Run.Reaches (step ddr3) Permitted (Rank.new ddr3) (Rank.new ddr3 : Rank 8)).step
    (i := (100, .doDRAMAccess true 0 5 13850 false)) ⟨Nat.zero_le _, trivial⟩ rfl
  have h2 := h1.step (i := (60000, .doDRAMAccess false 0 6 87500 false)) ⟨by decide, trivial⟩ rfl
  obtain ⟨hkept, s', hs'⟩ := commands_in_time ddr3 ⟨by decide, by decide, by decide⟩ h2
    (c := (90000, .prechargeAll)) ⟨by decide, Nat.one_ne_zero⟩
  exact ⟨_, s', rfl, hkept, hs'⟩

end Alpine.Mem.DramTiming
