import Alpine.Cpu.BPredRun
import Alpine.Cpu.LocalBP

/-!
# Undoing the return address stack

* `net`, `peak` — the net number of pushes of a list of calls, and the greatest one on the way; a `restore` takes a pop
  back.
* `Undone` — a stack against an earlier one: the same index, and the topmost entries but for those that the pushes in
  between can reach.
* `Level`, `Agree` — the index is the net number of pushes, and the entries of some levels are the same.
* `Before`, `Link` — the relations that every call keeps; `tracks`.
* `squash_undoes` — in a run that takes back no return that was corrected to taken after `predict` had left the stack
  alone, every squash undoes the stack.
-/

namespace Alpine.Cpu.Pred

namespace RASCall

def height : RASCall → Int
  | push => 1
  | pop => -1
  | restore => 1

def net (cs : List RASCall) : Int := (cs.map height).sum

/-- The greatest net number of pushes of the calls up to some point, at least zero. -/
def peak : List RASCall → Int
  | [] => 0
  | c :: cs => max 0 (c.height + peak cs)

theorem net_append (cs ds : List RASCall) : net (cs ++ ds) = net cs + net ds := by
  rw [net, List.map_append, List.sum_append]
  rfl

variable (cs : List RASCall)

theorem net_push : net (cs ++ [push]) = net cs + 1 := net_append cs [push]

theorem net_pop : net (cs ++ [pop]) = net cs - 1 := net_append cs [pop]

theorem net_restore : net (cs ++ [restore]) = net cs + 1 := net_append cs [restore]

theorem peak_nonneg : 0 ≤ peak cs := by
  cases cs with
  | nil => exact le_rfl
  | cons c cs => exact le_max_left _ _

theorem peak_append (cs ds : List RASCall) : peak (cs ++ ds) = max (peak cs) (net cs + peak ds) := by
  induction cs with
  | nil =>
    have hnonneg := peak_nonneg ds
    simp only [List.nil_append, peak, net, List.map_nil, List.sum_nil]
    omega
  | cons c cs ih =>
    have hnet : net (c :: cs) = c.height + net cs := List.sum_cons
    simp only [List.cons_append, peak, ih, hnet]
    omega

theorem net_le_peak : net cs ≤ peak cs := by
  have h := peak_append cs []
  rw [List.append_nil, show peak [] = 0 from rfl, add_zero] at h
  omega

end RASCall

open RASCall

namespace ReturnAddrStack

variable {PC : Type} {N : Nat} {s s' m m' : ReturnAddrStack PC} {y z : Int}

/-- The entry `k` places below the top. -/
def below (s : ReturnAddrStack PC) (k : Nat) : PC := s.addrStack ((s.tos + s.numEntries - k) % s.numEntries)

/-- The stack is as it was at `m`, but for the entries that the calls since can have overwritten. -/
structure Undone (m s : ReturnAddrStack PC) : Prop where
  tos : s.tos = m.tos
  entries : ∀ k : Nat, k + peak (s.calls.drop m.calls.length) < s.numEntries → s.below k = m.below k

/-! ## Levels -/

/-- The place of a level. -/
def slot (N : Nat) (y : Int) : Nat := (y % N).toNat

theorem slot_ne (hlt : y < z) (hz : z - y < N) : slot N y ≠ slot N z := by
  have hN : (N : Int) ≠ 0 := by omega
  intro h
  have hy := Int.emod_nonneg y hN
  have hz' := Int.emod_nonneg z hN
  have heq : y % N = z % N := by
    unfold slot at h
    omega
  have hdvd : (N : Int) ∣ z - y := Int.dvd_of_emod_eq_zero (Int.emod_eq_emod_iff_emod_sub_eq_zero.1 heq.symm)
  have hle := Int.le_of_dvd (by omega) hdvd
  omega

/-- The index is the net number of pushes. -/
structure Level (N : Nat) (s : ReturnAddrStack PC) : Prop where
  numEntries : s.numEntries = N
  tos : s.tos = slot N (net s.calls)

theorem slot_succ (hN : 0 < N) (y : Int) : slot N (y + 1) = if slot N y + 1 = N then 0 else slot N y + 1 := by
  have hN' : (N : Int) ≠ 0 := by omega
  have hnonneg := Int.emod_nonneg y hN'
  have hlt := Int.emod_lt_of_pos y (show (0 : Int) < N by omega)
  unfold slot
  rw [← Int.emod_add_emod]
  split
  next h =>
    rw [show y % N + 1 = N by omega, Int.emod_self]
    rfl
  next h =>
    rw [Int.emod_eq_of_lt (by omega) (by omega)]
    omega

theorem slot_pred (hN : 0 < N) (y : Int) : slot N (y - 1) = if slot N y = 0 then N - 1 else slot N y - 1 := by
  have h := slot_succ hN (y - 1)
  have hlt : slot N (y - 1) < N := by
    have hnonneg := Int.emod_nonneg (y - 1) (show (N : Int) ≠ 0 by omega)
    have hlt := Int.emod_lt_of_pos (y - 1) (show (0 : Int) < N by omega)
    unfold slot
    omega
  rw [sub_add_cancel] at h
  split at h
  · rw [if_pos h]
    omega
  · rw [if_neg (by omega)]
    omega

theorem Level.push (hN : 0 < N) (h : Level N s) (pc : PC) : Level N (s.push pc) := by
  refine ⟨h.numEntries, ?_⟩
  show s.incrTos = slot N (net (s.calls ++ [.push]))
  rw [net_push, slot_succ hN, incrTos, h.numEntries, h.tos]

theorem Level.pop (hN : 0 < N) (h : Level N s) : Level N s.pop := by
  refine ⟨h.numEntries, ?_⟩
  show s.decrTos = slot N (net (s.calls ++ [.pop]))
  rw [net_pop, slot_pred hN, decrTos, h.numEntries, h.tos]

theorem Level.restore (h : Level N s) {idx : Nat} (hidx : idx = slot N (net s.calls + 1)) (pc : PC) :
    Level N (s.restore idx pc) := by
  refine ⟨h.numEntries, ?_⟩
  show idx = slot N (net (s.calls ++ [.restore]))
  rw [net_restore, hidx]

/-! ## Moments -/

/-- The calls of the second stack go on from those of the first. -/
def Since (m s : ReturnAddrStack PC) : Prop := m.calls <+: s.calls

/-- The highest level since `m`. -/
def high (m s : ReturnAddrStack PC) : Int := net m.calls + peak (s.calls.drop m.calls.length)

/-- The entries of the levels from `lo` on, up to `hi`, are the same. -/
def Agree (N : Nat) (s m : ReturnAddrStack PC) (lo hi : Int) : Prop :=
  ∀ y, lo < y → y ≤ hi → s.addrStack (slot N y) = m.addrStack (slot N y)

theorem Since.trans {m1 m2 m3 : ReturnAddrStack PC} (h : Since m1 m2) (h' : Since m2 m3) : Since m1 m3 :=
  List.IsPrefix.trans h h'

theorem since_push (s : ReturnAddrStack PC) (pc : PC) : Since s (s.push pc) := List.prefix_append _ _

theorem since_pop (s : ReturnAddrStack PC) : Since s s.pop := List.prefix_append _ _

theorem since_restore (s : ReturnAddrStack PC) (idx : Nat) (pc : PC) : Since s (s.restore idx pc) := List.prefix_append _ _

theorem Since.net_le_high (h : Since m s) : net s.calls ≤ high m s := by
  obtain ⟨cs, hcs⟩ := h
  have hle := net_le_peak cs
  rw [high, ← hcs, net_append, List.drop_left]
  omega

theorem net_le_high_left (m s : ReturnAddrStack PC) : net m.calls ≤ high m s := by
  have hnonneg := peak_nonneg (s.calls.drop m.calls.length)
  unfold high
  omega

/-- A longer time has a greater highest level. -/
theorem Since.high_le (h : Since m m') (h' : Since m' s) : high m' s ≤ high m s ∧ high m m' ≤ high m s := by
  obtain ⟨cs, hcs⟩ := h
  obtain ⟨ds, hds⟩ := h'
  have hpeak := peak_append cs ds
  have hlen : (m.calls ++ (cs ++ ds)).drop m.calls.length = cs ++ ds := List.drop_left
  have hsnd : ((m.calls ++ cs) ++ ds).drop (m.calls ++ cs).length = ds := List.drop_left
  have hfst : (m.calls ++ cs).drop m.calls.length = cs := List.drop_left
  simp only [high]
  rw [← hds, ← hcs, hsnd, hfst, List.append_assoc, hlen, net_append]
  omega

theorem Agree.mono {lo hi lo' hi' : Int} (h : Agree N s m lo hi) (hlo : lo ≤ lo') (hhi : hi' ≤ hi) :
    Agree N s m lo' hi' := fun y hy hy' => h y (by omega) (by omega)

theorem Agree.trans {lo hi : Int} (h : Agree N s m' lo hi) (h' : Agree N m' m lo hi) : Agree N s m lo hi :=
  fun y hy hy' => (h y hy hy').trans (h' y hy hy')

/-- A push overwrites no entry of the levels that are left. -/
theorem agree_push (hlevel : Level N s) (hN : 0 < N) (pc : PC) {lo : Int} (hlo : net s.calls + 1 - N ≤ lo) :
    Agree N (s.push pc) s lo (net s.calls) := by
  intro y hy hy'
  have hidx : s.incrTos = slot N (net s.calls + 1) := by rw [slot_succ hN, incrTos, hlevel.numEntries, hlevel.tos]
  show Function.update s.addrStack s.incrTos pc (slot N y) = _
  rw [hidx]
  exact Function.update_of_ne (slot_ne (by omega) (by omega)) _ _

/-! ## What every call keeps -/

/-- The stack is at the level of the moment `m`, with the entries that have not been overwritten. -/
structure Before (N : Nat) (s m : ReturnAddrStack PC) : Prop where
  since : Since m s
  level : Level N s
  level_moment : Level N m
  net_eq : net s.calls = net m.calls
  agree : Agree N s m (high m s - N) (net m.calls)

theorem Before.refl (h : Level N s) : Before N s s :=
  ⟨List.prefix_rfl, h, h, rfl, fun _ _ _ => rfl⟩

theorem Before.undone (hN : 0 < N) (h : Before N s m) : Undone m s := by
  have hm := h.level_moment
  have htos : s.tos = m.tos := by rw [h.level.tos, hm.tos, h.net_eq]
  refine ⟨htos, fun k hk => ?_⟩
  rw [h.level.numEntries] at hk
  have hslot : (m.tos + N - k) % N = slot N (net m.calls - k) := by
    have hN' : (N : Int) ≠ 0 := by omega
    have hnonneg := Int.emod_nonneg (net m.calls) hN'
    have hpeak := peak_nonneg (s.calls.drop m.calls.length)
    have hmod : (m.tos : Int) = net m.calls % N := by
      rw [hm.tos]
      exact Int.toNat_of_nonneg hnonneg
    have hcast : (((m.tos + N - k) % N : Nat) : Int) = (net m.calls - k) % N := by
      rw [Int.natCast_mod, Nat.cast_sub (by omega), Nat.cast_add, hmod, add_sub_right_comm, Int.add_emod_right,
        Int.emod_sub_emod]
    unfold slot
    omega
  rw [below, below, htos, h.level.numEntries, hm.numEntries, hslot]
  refine h.agree _ ?_ (by omega)
  unfold high
  omega

/-- How a branch has changed the stack: its record `h`, the stack `m` of the moment before it, and the stack `m'` of its
own moment. -/
structure Link {η : Type} (N : Nat) (m : ReturnAddrStack PC) (made h : PredictorHistory η PC)
    (m' : ReturnAddrStack PC) : Prop where
  since : Since m m'
  level : Level N m'
  level_moment : Level N m
  net_eq : net m'.calls = net m.calls +
    (if h.usedRAS then -1 else if h.wasCall && h.pushedRAS then 1 else 0)
  agree : Agree N m' m (high m m' - N) (min (net m.calls) (net m'.calls))
  notCall : h.wasReturn = true ∨ h.usedRAS = true → h.wasCall = false
  /-- A return that `predict` has popped the stack for knows the index and the entry. -/
  recorded : made.usedRAS = true → h.RASIndex = slot N (net m.calls) ∧
    (high m m' - N < net m.calls → h.RASTarget = m.addrStack (slot N (net m.calls)))

variable {η : Type} {made h : PredictorHistory η PC} {pc : PC}

/-- The stack of the unit is as good as that of the moment. -/
theorem Link.extend (hl : Link N m made h m') (hb : Before N s m') : Link N m made h s := by
  have hhigh := hl.since.high_le hb.since
  have hnet := hb.net_eq
  refine ⟨hl.since.trans hb.since, hb.level, hl.level_moment, hnet.trans hl.net_eq, ?_, hl.notCall, fun hm => ?_⟩
  · have hagree := hl.agree
    rw [← hnet] at hagree
    exact (hb.agree.mono (by omega) (by omega)).trans (hagree.mono (by omega) le_rfl)
  · exact ⟨(hl.recorded hm).1, fun hlt => (hl.recorded hm).2 (by omega)⟩

/-- The stack after the undo of a branch. -/
def undoRAS (s : ReturnAddrStack PC) (h : PredictorHistory η PC) : ReturnAddrStack PC :=
  if h.usedRAS then s.restore h.RASIndex h.RASTarget
  else if h.wasCall && h.pushedRAS then s.pop
  else s

theorem Link.undo (hN : 0 < N) (hl : Link N m made h s) (hused : h.usedRAS = true → made.usedRAS = true) :
    Before N (s.undoRAS h) m := by
  have hnet := hl.net_eq
  have hleft := net_le_high_left m s
  unfold undoRAS
  by_cases hu : h.usedRAS = true
  · rw [if_pos hu] at hnet ⊢
    obtain ⟨hidx, htarget⟩ := hl.recorded (hused hu)
    have hrestore : net (s.restore h.RASIndex h.RASTarget).calls = net m.calls := by
      rw [show (s.restore h.RASIndex h.RASTarget).calls = s.calls ++ [.restore] from rfl, net_restore, hnet]
      omega
    have hhigh := hl.since.high_le (since_restore s h.RASIndex h.RASTarget)
    refine ⟨hl.since.trans (since_restore _ _ _), hl.level.restore ?_ _, hl.level_moment, hrestore, ?_⟩
    · rw [hidx, hnet]
      congr 1
      omega
    · intro y hy hy'
      show Function.update s.addrStack h.RASIndex h.RASTarget (slot N y) = _
      rcases Int.lt_or_eq_of_le hy' with hlt | rfl
      · -- an entry below the one that the return has popped
        rw [hidx, Function.update_of_ne (slot_ne hlt (by omega))]
        exact hl.agree y (by omega) (by omega)
      · rw [hidx, Function.update_self]
        exact htarget (by omega)
  · rw [if_neg hu] at hnet ⊢
    by_cases hp : (h.wasCall && h.pushedRAS) = true
    · rw [if_pos hp] at hnet ⊢
      have hhigh := hl.since.high_le (since_pop s)
      refine ⟨hl.since.trans (since_pop s), hl.level.pop hN, hl.level_moment, ?_, ?_⟩
      · rw [show s.pop.calls = s.calls ++ [.pop] from rfl, net_pop, hnet]
        omega
      · exact hl.agree.mono (by omega) (by omega)
    · rw [if_neg hp] at hnet ⊢
      exact ⟨hl.since, hl.level, hl.level_moment, by omega, hl.agree.mono le_rfl (by omega)⟩

/-- A branch whose changes of the stack have been undone. -/
theorem Before.link (hb : Before N s m) (hu : h.usedRAS = false) (hp : (h.wasCall && h.pushedRAS) = false)
    (hn : h.wasReturn = true → h.wasCall = false) (hr : made.usedRAS = true → h.RASIndex = slot N (net m.calls) ∧
      (high m s - N < net m.calls → h.RASTarget = m.addrStack (slot N (net m.calls)))) : Link N m made h s := by
  refine ⟨hb.since, hb.level, hb.level_moment, ?_, hb.agree.mono le_rfl (min_le_left _ _), fun hw => ?_, hr⟩
  · rw [hu, hp, hb.net_eq]
    simp
  · rcases hw with hw | hw
    · exact hn hw
    · rw [hu] at hw
      cases hw

theorem Before.predict (hN : 0 < N) (hb : Before N s m) (hpart : BPredUnit.RASPart s pc s' h) : Link N m h h s' := by
  have hnet := hb.net_eq
  cases hpart with
  | ret hu hidx htarget hcall =>
    have hhigh := hb.since.high_le (since_pop s)
    have hpop : net s.pop.calls = net s.calls - 1 := net_pop s.calls
    refine ⟨hb.since.trans (since_pop s), hb.level.pop hN, hb.level_moment, ?_, ?_, fun _ => hcall, fun _ => ⟨?_, ?_⟩⟩
    · rw [if_pos hu, hpop, hnet]
      rfl
    · exact hb.agree.mono (by omega) (by omega)
    · rw [hidx, hb.level.tos, hnet]
    · intro hlt
      rw [htarget, top, hb.level.tos, hnet]
      exact hb.agree _ (by omega) le_rfl
  | call hu hcall hpush hret =>
    have hhigh := hb.since.high_le (since_push s pc)
    have hpushed : net (s.push pc).calls = net s.calls + 1 := net_push s.calls
    have hsince := hb.since.trans (since_push s pc)
    have hle := hsince.net_le_high
    refine ⟨hsince, hb.level.push hN pc, hb.level_moment, ?_, ?_, ?_, ?_⟩
    · rw [hu, hcall, hpush, hpushed, hnet]
      rfl
    · have hpush : Agree N (s.push pc) s (high m (s.push pc) - N) (net s.calls) := agree_push hb.level hN pc (by omega)
      exact (hpush.mono le_rfl (by omega)).trans (hb.agree.mono (by omega) (by omega))
    · rintro (hw | hw)
      · rw [hret] at hw
        cases hw
      · rw [hu] at hw
        cases hw
    · intro hw
      rw [hu] at hw
      cases hw
  | missed hu hpush hret =>
    have hsince := hb.since.trans (since_push s pc)
    have hsince' := hsince.trans (since_pop (s.push pc))
    have hhigh := hb.since.high_le (since_push s pc)
    have hhigh' := hsince.high_le (since_pop (s.push pc))
    have hle := hsince.net_le_high
    have hpushed : net (s.push pc).calls = net s.calls + 1 := net_push s.calls
    have hpop : net (s.push pc).pop.calls = net s.calls := by
      rw [show (s.push pc).pop.calls = (s.push pc).calls ++ [.pop] from rfl, net_pop, hpushed]
      omega
    refine Before.link ⟨hsince', (hb.level.push hN pc).pop hN, hb.level_moment, hpop.trans hnet, ?_⟩ hu
      (by rw [hpush, Bool.and_false]) (fun hw => ?_) fun hw => ?_
    · have hpush : Agree N (s.push pc) s (high m (s.push pc).pop - N) (net s.calls) :=
        agree_push hb.level hN pc (by omega)
      exact (hpush.mono le_rfl hnet.ge).trans (hb.agree.mono (by omega) le_rfl)
    · rw [hret] at hw
      cases hw
    · rw [hu] at hw
      cases hw
  | other hu hcall =>
    refine Before.link hb hu (by rw [hcall, Bool.false_and]) (fun _ => hcall) fun hw => ?_
    rw [hu] at hw
    cases hw

theorem Link.correct (hN : 0 < N) (hl : Link N m made h s) (taken : Bool)
    (hok : taken = false → h.usedRAS = true → made.usedRAS = true) :
    Link N m made (BPredUnit.correctRAS s h taken).2 (BPredUnit.correctRAS s h taken).1 := by
  have hnet := hl.net_eq
  unfold BPredUnit.correctRAS
  cases taken with
  | true =>
    rw [if_pos rfl]
    by_cases hr : (h.wasReturn && !h.usedRAS) = true
    · rw [if_pos hr]
      obtain ⟨hret, hu⟩ := Bool.and_eq_true_iff.1 hr
      have hu : h.usedRAS = false := by simpa using hu
      have hcall := hl.notCall (.inl hret)
      have hhigh := hl.since.high_le (since_pop s)
      have hpop : net s.pop.calls = net s.calls - 1 := net_pop s.calls
      rw [hu, hcall] at hnet
      simp only [Bool.false_eq_true, if_false, Bool.false_and, add_zero] at hnet
      show Link N m made { h with usedRAS := true } s.pop
      refine ⟨hl.since.trans (since_pop s), hl.level.pop hN, hl.level_moment, ?_, ?_, fun _ => hcall, fun hm => ?_⟩
      · rw [hpop, hnet]
        rfl
      · exact hl.agree.mono (by omega) (by omega)
      · exact ⟨(hl.recorded hm).1, fun hlt => (hl.recorded hm).2 (by omega)⟩
    · rw [if_neg hr]
      exact hl
  | false =>
    rw [if_neg Bool.false_ne_true]
    have hundo := hl.undo hN (hok rfl)
    unfold undoRAS at hundo
    by_cases hu : h.usedRAS = true
    · rw [if_pos hu] at hundo ⊢
      have hhigh := hl.since.high_le (since_restore s h.RASIndex h.RASTarget)
      have hcall := hl.notCall (.inr hu)
      refine hundo.link rfl (by rw [hcall, Bool.false_and]) (fun _ => hcall) fun hm => ?_
      exact ⟨(hl.recorded hm).1, fun hlt => (hl.recorded hm).2 (by omega)⟩
    · rw [if_neg hu] at hundo ⊢
      by_cases hp : (h.wasCall && h.pushedRAS) = true
      · rw [if_pos hp] at hundo ⊢
        have hhigh := hl.since.high_le (since_pop s)
        refine hundo.link (by simpa using hu) (Bool.and_false _) (fun hw => hl.notCall (.inl hw)) fun hm => ?_
        exact ⟨(hl.recorded hm).1, fun hlt => (hl.recorded hm).2 (by omega)⟩
      · rw [if_neg hp]
        exact hl

end ReturnAddrStack

/-! ## Every run -/

variable {σ η PC : Type} {p : Params} {isa : TheISA PC} {bp : DirPredictor σ η} {s : Watched σ η PC}

/-- If the record says that the branch has used the stack, then `predict` has used it for the branch and has kept the
index and the entry. -/
def Flight.Recorded (f : Flight σ η PC) : Prop := f.now.usedRAS = true → f.made.usedRAS = true

open ReturnAddrStack in
theorem tracks_ras (isa : TheISA PC) (bp : DirPredictor σ η) (hN : 0 < p.RASSize) : Tracks p isa bp (fun s m => Before p.RASSize s.RAS m.RAS)
    (fun m f => Link p.RASSize m.RAS f.made f.now f.last.RAS) Flight.Recorded
    (fun f taken => taken = false → f.Recorded) where
  predict {s m u inst seqNum pc h} hat hu hh := by
    obtain ⟨h', hh', hpred⟩ := BPredUnit.predict_spec p isa bp s inst seqNum pc
    rw [← hu] at hh' hpred
    obtain rfl : h = h' := (List.cons.inj (hh.symm.trans hh')).1
    have hlink := hat.predict hN hpred.ras_eq
    exact ⟨hlink, .refl hlink.level⟩
  update _ hat := hat
  undo hl hr hat := (hl.extend hat).undo hN hr
  frame _ _ hat := hat
  correct {s m u f hs corrTarget taken random} hl hr hat hu := by
    obtain ⟨hhist, hras, -⟩ := BPredUnit.correct_spec hu
    have hext := hl.extend hat
    have hl' : Link p.RASSize m.RAS f.made { f.now with predTaken := taken } s.RAS :=
      ⟨hext.since, hext.level, hext.level_moment, hext.net_eq, hext.agree, hext.notCall, hext.recorded⟩
    have hlink := hl'.correct hN taken hr
    rw [← hras] at hlink
    refine ⟨?_, .refl hlink.level⟩
    rw [hhist]
    exact hlink

theorem squash_undoes (hN : 0 < p.RASSize) {dir : σ}
    (h : Run.Reaches (Watched.step p isa bp) (fun s c => Watched.Permitted s c ∧
      Watched.Careful Flight.Recorded (fun f taken => taken = false → f.Recorded) s c) (Watched.start p isa dir) s)
    {n : Nat} (hn : ∀ f ∈ s.flight, n < f.seqNum → f.Recorded) : (s.momentAt n).RAS.Undone (s.unit.squash bp n).RAS :=
  have htracks := tracks_ras isa bp hN
  (htracks.squash (htracks.run (.refl ⟨rfl, rfl⟩) h) hn).undone hN

/-! ### A return that is corrected -/

namespace LocalBP

/-- Sixteen targets, a stack of four, and no indirect predictor. -/
def small : Pred.Params := ⟨16, 8, 2, 4, false, false, false, 1, 1, 8, 3, sixteen_pow2, one_pow2⟩

/-- Program counters are addresses. -/
def flat : TheISA Nat := ⟨0, id, fun _ ras => ras + 4⟩

def counters : Params := ⟨2, 16, 2⟩

def call : StaticInst Nat := ⟨true, false, true, true, (· + 4)⟩

def ret : StaticInst Nat := ⟨true, true, false, false, (· + 4)⟩

def condRet : StaticInst Nat := ⟨false, true, false, false, (· + 4)⟩

abbrev calls : Watched State Unit Nat := Watched.start small flat (init counters)

/-- A call, and a return that takes its entry. -/
theorem undoes_call_return : ∃ s, Run.Reaches (Watched.step small flat (localBP counters))
    (fun s c => Watched.Permitted s c ∧ Watched.Careful Flight.Recorded (fun f taken => taken = false → f.Recorded) s c)
      calls s ∧ s.unit.RAS.tos = 0 ∧ (s.momentAt 1).RAS.tos = 1 ∧
    (s.momentAt 1).RAS.Undone (s.unit.squash (localBP counters) 1).RAS := by
  have h1 : Run.Reaches (Watched.step small flat (localBP counters)) (fun s c => Watched.Permitted s c ∧
      Watched.Careful Flight.Recorded (fun f taken => taken = false → f.Recorded) s c) calls _ :=
    .step .refl (i := PredCall.predict call 1 0x100) ⟨fun _ h => absurd h (Option.not_mem_none _), trivial⟩ rfl
  have h2 := h1.step (i := PredCall.predict ret 2 0x200) ⟨fun m h => by cases h; decide, trivial⟩ rfl
  exact ⟨_, h2, rfl, rfl, squash_undoes (by decide) h2 fun f hf _ => by
    rcases List.mem_cons.1 hf with rfl | hf
    · exact fun _ => rfl
    · cases List.mem_singleton.1 hf
      exact fun h => absurd h (by decide)⟩

/-- A call, a conditional return that is corrected to taken, and a squash to the call: the record of the return has the
index zero, not that of the call. -/
theorem corrected_return_lost : ∃ s, Run.Reaches (Watched.step small flat (localBP counters)) Watched.Permitted calls s ∧
    Watched.Permitted s (.squash 1) ∧ (s.momentAt 1).RAS.tos = 1 ∧
      (s.unit.squash (localBP counters) 1).RAS.tos = 0 := by
  have h1 : Run.Reaches (Watched.step small flat (localBP counters)) Watched.Permitted calls _ :=
    .step .refl (i := PredCall.predict call 1 0x100) (fun _ h => absurd h (Option.not_mem_none _)) rfl
  have h2 := h1.step (i := PredCall.predict condRet 2 0x200) (fun m h => by cases h; decide) rfl
  have h3 := h2.step (i := PredCall.squashCorrect 2 0x104 true 0) ⟨_, List.mem_cons_self, rfl⟩ rfl
  exact ⟨_, h3, fun _ h => absurd h List.not_mem_nil, rfl, rfl⟩

end LocalBP

end Alpine.Cpu.Pred
