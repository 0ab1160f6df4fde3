import Alpine.Cpu.BPredRun
import Alpine.Cpu.BiMode
import Alpine.Cpu.LTAGE

/-!
# Training the indirect predictor

* `hashTargets_eq`, `setIndex_eq_iff` — the set index is the address, the history register and the last targets, all
  combined by an exclusive or.
* `lastTargets` — the targets that the set index depends on.
* `PathInv` — the path history holds the branches in flight that are recorded as indirect, each behind the targets that
  its lookup has seen, and the first `headHistEntry` entries are of committed branches.
* `trained_iff` — in every run, a correction trains the entry of the lookup just if the history register that the
  predictor of directions gives is the one of the lookup.
* `LTAGE.entry_missed` — a branch that is corrected twice, to not taken and then to taken.
-/

namespace Alpine.Cpu.Pred

variable {σ η PC : Type}

namespace IndirectPredictor

variable (p : Params)

/-! ## The set index -/

theorem hashTargets_eq (hash_shift : Nat) (es : List HistoryEntry) (i hash : Nat) :
    hashTargets p hash_shift i es hash = hash ^^^ hashTargets p hash_shift i es 0 := by
  induction es generalizing i hash with
  | nil => exact (Nat.xor_zero hash).symm
  | cons e es ih =>
    rw [hashTargets, hashTargets, ih, ih _ (0 ^^^ _), Nat.zero_xor, Nat.xor_assoc]

/-- The targets that the set index depends on, the youngest first. -/
def lastTargets (pathHist : List HistoryEntry) : List Nat :=
  (pathHist.reverse.take p.indirectPathLength).map HistoryEntry.targetAddr

theorem hashTargets_congr {hash_shift : Nat} {es es' : List HistoryEntry} {i hash : Nat}
    (h : es.map HistoryEntry.targetAddr = es'.map HistoryEntry.targetAddr) :
    hashTargets p hash_shift i es hash = hashTargets p hash_shift i es' hash := by
  induction es generalizing es' i hash with
  | nil =>
    cases es' with
    | nil => rfl
    | cons e' es' => cases h
  | cons e es ih =>
    cases es' with
    | nil => cases h
    | cons e' es' =>
      obtain ⟨he, hes⟩ := List.cons.inj h
      rw [hashTargets, hashTargets, he]
      exact ih hes

theorem and_xor_left_inj (a b c m : Nat) : (a ^^^ b) &&& m = (a ^^^ c) &&& m ↔ b &&& m = c &&& m := by
  rw [Nat.and_xor_distrib_right, Nat.and_xor_distrib_right]
  exact Nat.xor_right_inj

/-- With the same targets, the set index is the same just if the history register is, as far as it is used. -/
theorem setIndex_eq_iff {hist hist' : List HistoryEntry} (h : lastTargets p hist = lastTargets p hist')
    (br_addr ghr ghr' : Nat) : getSetIndex p hist br_addr ghr = getSetIndex p hist' br_addr ghr' ↔
      (p.indirectHashGHR = true → ghr &&& (p.indirectSets - 1) = ghr' &&& (p.indirectSets - 1)) := by
  have htargets : ∀ hash, hashTargets p (Nat.log2 p.indirectSets / p.indirectPathLength) 0
      (hist.reverse.take p.indirectPathLength) hash =
      hashTargets p (Nat.log2 p.indirectSets / p.indirectPathLength) 0 (hist'.reverse.take p.indirectPathLength) hash :=
    fun hash => hashTargets_congr p h
  unfold getSetIndex
  simp only [htargets]
  cases hghr : p.indirectHashGHR with
  | false => simp
  | true =>
    simp only [if_true, true_imp_iff]
    split
    · rw [hashTargets_eq, hashTargets_eq p _ _ _ (_ ^^^ ghr'), Nat.xor_right_comm, Nat.xor_right_comm _ ghr',
        and_xor_left_inj]
    · exact and_xor_left_inj _ _ _ _

/-! ## The path history -/

/-- The entries before a sequence number. -/
def older (pathHist : List HistoryEntry) (n : Nat) : List HistoryEntry := pathHist.filter fun e => e.seqNum < n

def Sorted (pathHist : List HistoryEntry) : Prop := (pathHist.map HistoryEntry.seqNum).Pairwise (· < ·)

variable {p} {hist : List HistoryEntry} {n : Nat} {e : HistoryEntry}

theorem Sorted.takeWhile_le (h : Sorted hist) :
    hist.takeWhile (fun e => e.seqNum ≤ n) = hist.filter fun e => e.seqNum ≤ n := by
  induction hist with
  | nil => rfl
  | cons a as ih =>
    obtain ⟨hlt, has⟩ := List.pairwise_cons.1 h
    by_cases ha : a.seqNum ≤ n
    · simp only [List.takeWhile_cons, List.filter_cons, decide_eq_true ha, if_true, ih has]
    · have hnone : ∀ e ∈ as, ¬ decide (e.seqNum ≤ n) = true := fun e he hle => by
        have := hlt _ (List.mem_map_of_mem he)
        have := of_decide_eq_true hle
        omega
      simp only [List.takeWhile_cons, List.filter_cons, decide_eq_false ha, Bool.false_eq_true, if_false,
        List.filter_eq_nil_iff.2 hnone]

/-- The last entry, if none is younger. -/
theorem Sorted.split_last (h : Sorted hist) (he : e ∈ hist) (hle : ∀ a ∈ hist, a.seqNum ≤ e.seqNum) :
    hist = older hist e.seqNum ++ [e] := by
  obtain ⟨as, bs, rfl⟩ := List.append_of_mem he
  rw [Sorted, List.map_append, List.map_cons, List.pairwise_append, List.pairwise_cons] at h
  obtain ⟨-, ⟨hbs, -⟩, has⟩ := h
  have hnil : bs = [] := by
    cases bs with
    | nil => rfl
    | cons b bs =>
      have hlt := hbs b.seqNum List.mem_cons_self
      have hb := hle b (by simp)
      omega
  have hlt : ∀ a ∈ as, decide (a.seqNum < e.seqNum) = true := fun a ha =>
    decide_eq_true (has _ (List.mem_map_of_mem ha) _ List.mem_cons_self)
  rw [hnil, older, List.filter_append, List.filter_eq_self.2 hlt, List.filter_cons_of_neg (by simp), List.filter_nil,
    List.append_nil]

theorem older_append_of_le {m : Nat} (hm : m ≤ e.seqNum) (hist : List HistoryEntry) :
    older (hist ++ [e]) m = older hist m := by
  rw [older, List.filter_append, List.filter_cons_of_neg (by simpa using hm), List.filter_nil, List.append_nil]
  rfl

theorem older_self (h : ∀ a ∈ hist, a.seqNum < n) : older hist n = hist :=
  List.filter_eq_self.2 fun a ha => decide_eq_true (h a ha)

/-- An entry that is popped from the front does not matter, if enough are left. -/
theorem lastTargets_cons (hlen : p.indirectPathLength ≤ hist.length) (a : HistoryEntry) :
    lastTargets p (a :: hist) = lastTargets p hist := by
  rw [lastTargets, List.reverse_cons, List.take_append_of_le_length (by rwa [List.length_reverse])]
  rfl

section RecordTarget

variable {s : IndirectPredictor PC} {hs : List HistoryEntry}

theorem recordKey_eq (h : s.pathHist = hs ++ [e]) (ghr : Nat) :
    s.recordKey p ghr = some (getSetIndex p hs e.pcAddr ghr, getTag p e.pcAddr) := by
  rw [recordKey, h, List.getLast?_concat, List.dropLast_concat]
  rfl

theorem recordTarget_eq (h : s.pathHist = hs ++ [e]) (ghr : Nat) (target : PC) (targetAddr random : Nat) :
    ∃ t, s.recordTarget p ghr target targetAddr random = some t ∧
      t.pathHist = hs ++ [{ e with targetAddr := targetAddr }] ∧ t.headHistEntry = s.headHistEntry := by
  rw [recordTarget, recordKey_eq h, h, List.getLast?_concat, List.dropLast_concat]
  exact ⟨_, rfl, rfl, rfl⟩

end RecordTarget

end IndirectPredictor

/-! ## The invariant -/

open IndirectPredictor

variable {f : Flight σ η PC}

namespace Watched

variable {p : Params} {isa : TheISA PC} {bp : DirPredictor σ η} {s s' : Watched σ η PC}

/-- The entry is of a committed branch. -/
def Committed (s : Watched σ η PC) (e : HistoryEntry) : Prop := ∃ f ∈ s.retired, f.seqNum = e.seqNum

structure PathInv (p : Params) (s : Watched σ η PC) : Prop where
  flights : Flights s
  sorted : Sorted s.unit.iPred.pathHist
  origin : ∀ e ∈ s.unit.iPred.pathHist, (∃ f ∈ s.flight, f.seqNum = e.seqNum) ∨ s.Committed e
  entry : ∀ f ∈ s.flight, f.now.wasIndirect = true →
    ∃ e ∈ s.unit.iPred.pathHist, e.seqNum = f.seqNum ∧ e.pcAddr = f.now.pc
  targets : ∀ f ∈ s.flight, f.now.wasIndirect = true →
    lastTargets p (older s.unit.iPred.pathHist f.seqNum) = lastTargets p f.before.iPred.pathHist
  head : ∀ e ∈ s.unit.iPred.pathHist.take s.unit.iPred.headHistEntry, s.Committed e
  head_le : s.unit.iPred.headHistEntry ≤ s.unit.iPred.pathHist.length

theorem pathInv_start (dir : σ) : PathInv p (start p isa dir : Watched σ η PC) where
  flights := flights_start dir
  sorted := List.Pairwise.nil
  origin _ he := absurd he List.not_mem_nil
  entry _ hf := absurd hf List.not_mem_nil
  targets _ hf := absurd hf List.not_mem_nil
  head _ he := absurd he List.not_mem_nil
  head_le := Nat.le_refl 0

theorem PathInv.predict (h : PathInv p s) {inst : StaticInst PC} {seqNum : Nat} {pc : PC}
    (hp : Permitted s (.predict inst seqNum pc)) (hs : step p isa bp s (.predict inst seqNum pc) = some s') :
    PathInv p s' := by
  have hflights := h.flights.step hp hs
  obtain ⟨r, u, hu, hr, rfl, -⟩ := h.flights.predict hp hs
  obtain ⟨r', hr', hpred⟩ := BPredUnit.predict_spec p isa bp s.unit inst seqNum pc
  rw [← hu] at hr' hpred
  obtain rfl : r = r' := (List.cons.inj (hr.symm.trans hr')).1
  have hseq : r.seqNum = seqNum := hpred.seqNum
  have hlt : ∀ e ∈ s.unit.iPred.pathHist, e.seqNum < seqNum := by
    intro e he
    obtain ⟨f, hf, hfe⟩ | ⟨f, hf, hfe⟩ := h.origin e he
    · obtain ⟨m, hm, hle⟩ := h.flights.le_newest f hf
      exact hfe ▸ Nat.lt_of_le_of_lt hle (hp m hm)
    · obtain ⟨m, hm, hle⟩ := h.flights.retired_le f hf
      exact hfe ▸ Nat.lt_of_le_of_lt hle (hp m hm)
  have hold : ∀ f ∈ s.flight, f.seqNum < seqNum := by
    intro f hf
    obtain ⟨m, hm, hle⟩ := h.flights.le_newest f hf
    exact Nat.lt_of_le_of_lt hle (hp m hm)
  rcases hpred.iPred_eq with ⟨hind, hpath⟩ | ⟨hind, -, tgt, hpath⟩
  · have hpath : u.iPred = s.unit.iPred := hpath
    constructor
    case flights => exact hflights
    case sorted => exact hpath ▸ h.sorted
    case origin =>
      intro e he
      rcases h.origin e (hpath ▸ he) with ⟨f, hf, hfe⟩ | hc
      · exact .inl ⟨f, List.mem_cons_of_mem _ hf, hfe⟩
      · exact .inr hc
    case entry =>
      intro f hf hfi
      rcases List.mem_cons.1 hf with rfl | hf
      · exact absurd (hind.symm.trans hfi) Bool.false_ne_true
      · exact hpath ▸ h.entry f hf hfi
    case targets =>
      intro f hf hfi
      rcases List.mem_cons.1 hf with rfl | hf
      · exact absurd (hind.symm.trans hfi) Bool.false_ne_true
      · exact hpath ▸ h.targets f hf hfi
    case head => exact hpath ▸ h.head
    case head_le => exact hpath ▸ h.head_le
  · have hpath : u.iPred = { s.unit.iPred with
        pathHist := s.unit.iPred.pathHist ++ [⟨isa.instAddr pc, tgt, seqNum⟩] } := hpath
    constructor
    case flights => exact hflights
    case sorted =>
      show (u.iPred.pathHist.map HistoryEntry.seqNum).Pairwise _
      rw [hpath, List.map_append, List.pairwise_append]
      refine ⟨h.sorted, List.pairwise_singleton _ _, fun a ha b hb => ?_⟩
      obtain ⟨e, he, rfl⟩ := List.mem_map.1 ha
      rw [List.map_cons, List.map_nil, List.mem_singleton] at hb
      exact hb ▸ hlt e he
    case origin =>
      intro e he
      rw [show _ = u.iPred from rfl, hpath] at he
      rcases List.mem_append.1 he with he | he
      · rcases h.origin e he with ⟨f, hf, hfe⟩ | hc
        · exact .inl ⟨f, List.mem_cons_of_mem _ hf, hfe⟩
        · exact .inr hc
      · rw [List.mem_singleton] at he
        exact .inl ⟨_, List.mem_cons_self, by rw [he]; exact hseq⟩
    case entry =>
      intro f hf hfi
      show ∃ e ∈ u.iPred.pathHist, _
      rw [hpath]
      rcases List.mem_cons.1 hf with rfl | hf
      · exact ⟨_, List.mem_append_right _ (List.mem_singleton_self _), hseq.symm, hpred.pc_eq.symm⟩
      · obtain ⟨e, he, hfe⟩ := h.entry f hf hfi
        exact ⟨e, List.mem_append_left _ he, hfe⟩
    case targets =>
      intro f hf hfi
      show lastTargets p (older u.iPred.pathHist f.seqNum) = _
      rw [hpath]
      rcases List.mem_cons.1 hf with rfl | hf
      · rw [older_append_of_le hseq.le]
        show lastTargets p (older _ r.seqNum) = _
        rw [hseq, older_self hlt]
      · rw [older_append_of_le (hold f hf).le]
        exact h.targets f hf hfi
    case head =>
      intro e he
      rw [show _ = u.iPred from rfl, hpath, List.take_append_of_le_length h.head_le] at he
      exact h.head e he
    case head_le =>
      show u.iPred.headHistEntry ≤ u.iPred.pathHist.length
      rw [hpath, List.length_append]
      exact h.head_le.trans (Nat.le_add_right _ _)

theorem PathInv.update (h : PathInv p s) {done_sn : Nat} (hs : step p isa bp s (.update done_sn) = some s') :
    PathInv p s' := by
  have hflights := h.flights.update hs
  simp only [step, Option.some.injEq] at hs
  have hkeep : ∀ f ∈ s'.flight, f ∈ s.flight ∧ done_sn < f.seqNum := by
    rw [← hs]
    exact fun f hf => ⟨(List.rdropWhile_prefix _ _).subset hf, h.flights.lt_of_mem_rdropWhile hf⟩
  have hretired : ∀ e, s.Committed e → s'.Committed e := by
    rw [← hs]
    exact fun e he => he.imp fun f hf => ⟨List.mem_append_left _ hf.1, hf.2⟩
  have horigin : ∀ e ∈ s.unit.iPred.pathHist, (∃ f ∈ s'.flight, f.seqNum = e.seqNum) ∨ s'.Committed e := by
    intro e he
    rcases h.origin e he with ⟨f, hf, hfe⟩ | hc
    · have hsplit : (s.flight.rdropWhile fun f => decide (f.seqNum ≤ done_sn)) ++
          (s.flight.rtakeWhile fun f => decide (f.seqNum ≤ done_sn)) = s.flight := List.rdropWhile_append_rtakeWhile
      rw [← hsplit] at hf
      rw [← hs]
      rcases List.mem_append.1 hf with hf | hf
      · exact .inl ⟨f, hf, hfe⟩
      · exact .inr ⟨f, List.mem_append_right _ (List.mem_reverse.2 hf), hfe⟩
    · exact .inr (hretired e hc)
  have hiPred : s'.unit.iPred = s.unit.iPred.commit p done_sn := by rw [← hs]; rfl
  have hsame : s'.unit.iPred = s.unit.iPred → PathInv p s' := fun heq =>
    ⟨hflights, heq ▸ h.sorted, heq ▸ horigin, fun f hf => heq ▸ h.entry f (hkeep f hf).1,
      fun f hf => heq ▸ h.targets f (hkeep f hf).1, heq ▸ fun e he => hretired e (h.head e he), heq ▸ h.head_le⟩
  unfold IndirectPredictor.commit at hiPred
  cases hget : s.unit.iPred.pathHist[s.unit.iPred.headHistEntry]? with
  | none =>
    rw [hget] at hiPred
    exact hsame hiPred
  | some e =>
    rw [hget] at hiPred
    dsimp only at hiPred
    by_cases hdone : e.seqNum ≤ done_sn
    swap
    · rw [if_neg hdone] at hiPred
      exact hsame hiPred
    rw [if_pos hdone] at hiPred
    obtain ⟨hlen, -⟩ := List.getElem?_eq_some_iff.1 hget
    have hcommitted : s'.Committed e := by
      rcases horigin e (List.mem_of_getElem? hget) with ⟨f, hf, hfe⟩ | hc
      · have hlt := (hkeep f hf).2
        omega
      · exact hc
    have hhead : ∀ a ∈ s.unit.iPred.pathHist.take (s.unit.iPred.headHistEntry + 1), s'.Committed a := by
      intro a ha
      rw [List.take_add_one, hget, List.mem_append] at ha
      rcases ha with ha | ha
      · exact hretired a (h.head a ha)
      · rw [Option.toList_some, List.mem_singleton] at ha
        exact ha ▸ hcommitted
    by_cases hfull : s.unit.iPred.headHistEntry ≥ p.indirectPathLength
    · rw [if_pos hfull] at hiPred
      -- the first entry is of a committed branch, and as many follow it before any branch in flight
      cases hpath : s.unit.iPred.pathHist with
      | nil =>
        rw [hpath] at hlen
        exact absurd hlen (Nat.not_lt_zero _)
      | cons a as =>
        have hsorted := h.sorted
        rw [hpath] at hlen hhead hsorted horigin
        rw [hpath, List.tail_cons] at hiPred
        have htake : ∀ b ∈ as.take s.unit.iPred.headHistEntry, s'.Committed b := fun b hb =>
          hhead b (by rw [List.take_succ_cons]; exact List.mem_cons_of_mem a hb)
        have hcount : ∀ f ∈ s'.flight, older (a :: as) f.seqNum = a :: older as f.seqNum ∧
            s.unit.iPred.headHistEntry ≤ (older as f.seqNum).length := by
          intro f hf
          have hbefore : ∀ b, s'.Committed b → decide (b.seqNum < f.seqNum) = true := by
            rintro b ⟨g, hg, hgb⟩
            exact decide_eq_true (hgb ▸ hflights.retired_lt g hg f hf)
          refine ⟨List.filter_cons_of_pos (hbefore a (hhead a (by rw [List.take_succ_cons]; exact List.mem_cons_self))), ?_⟩
          have hsub : List.Sublist (as.take s.unit.iPred.headHistEntry) (older as f.seqNum) := by
            have hall := List.filter_eq_self.2 fun b hb => hbefore b (htake b hb)
            rw [← hall]
            exact (List.take_sublist _ as).filter _
          have hle := hsub.length_le
          rw [List.length_take, List.length_cons] at *
          omega
        constructor
        case flights => exact hflights
        case sorted =>
          rw [hiPred]
          exact (List.pairwise_cons.1 hsorted).2
        case origin =>
          rw [hiPred]
          exact fun b hb => horigin b (List.mem_cons_of_mem a hb)
        case entry =>
          intro f hf hfi
          obtain ⟨b, hb, hbf, hpc⟩ := h.entry f (hkeep f hf).1 hfi
          rw [hiPred]
          rw [hpath] at hb
          rcases List.mem_cons.1 hb with rfl | hb
          · obtain ⟨g, hg, hgb⟩ := hhead b (by rw [List.take_succ_cons]; exact List.mem_cons_self)
            have hlt := hflights.retired_lt g hg f hf
            omega
          · exact ⟨b, hb, hbf, hpc⟩
        case targets =>
          intro f hf hfi
          have htargets := h.targets f (hkeep f hf).1 hfi
          obtain ⟨hcons, hle⟩ := hcount f hf
          rw [hpath, hcons, lastTargets_cons (hfull.trans hle)] at htargets
          rw [hiPred]
          exact htargets
        case head =>
          rw [hiPred]
          exact htake
        case head_le =>
          rw [hiPred]
          rw [List.length_cons] at hlen
          exact Nat.le_of_lt_succ hlen
    · rw [if_neg hfull] at hiPred
      constructor
      case flights => exact hflights
      case sorted => exact hiPred ▸ h.sorted
      case origin => exact hiPred ▸ horigin
      case entry => exact fun f hf => hiPred ▸ h.entry f (hkeep f hf).1
      case targets => exact fun f hf => hiPred ▸ h.targets f (hkeep f hf).1
      case head => exact hiPred ▸ hhead
      case head_le => exact hiPred ▸ hlen

theorem PathInv.squash (h : PathInv p s) {n : Nat} (hp : Permitted s (.squash n))
    (hs : s' = { s with unit := s.unit.squash bp n, flight := s.upTo n }) : PathInv p s' := by
  have hflights : Flights s' := by
    rw [hs]
    exact h.flights.of_suffix (List.dropWhile_suffix _) (h.flights.map_upTo n)
  have hpath : s'.unit.iPred.pathHist = s.unit.iPred.pathHist.filter fun e => e.seqNum ≤ n := by
    rw [hs]
    exact h.sorted.takeWhile_le
  have hhead : s'.unit.iPred.headHistEntry = s.unit.iPred.headHistEntry := by rw [hs]; rfl
  have hmem : ∀ f, f ∈ s'.flight ↔ f ∈ s.flight ∧ f.seqNum ≤ n := by
    rw [hs]
    exact fun f => h.flights.mem_upTo
  have hretired : s'.retired = s.retired := by rw [hs]
  have hcommitted : ∀ e, s.Committed e ↔ s'.Committed e := by
    unfold Committed
    rw [hretired]
    exact fun e => Iff.rfl
  -- none of the counted entries is dropped
  have hkeep : List.Sublist (s.unit.iPred.pathHist.take s.unit.iPred.headHistEntry) s'.unit.iPred.pathHist := by
    have hle : ∀ e ∈ s.unit.iPred.pathHist.take s.unit.iPred.headHistEntry, decide (e.seqNum ≤ n) = true := by
      intro e he
      obtain ⟨f, hf, hfe⟩ := h.head e he
      exact decide_eq_true (hfe ▸ hp f hf)
    rw [hpath, ← List.filter_eq_self.2 hle]
    exact (List.take_sublist _ _).filter _
  constructor
  case flights => exact hflights
  case sorted =>
    rw [hpath]
    exact h.sorted.sublist (List.filter_sublist.map _)
  case origin =>
    intro e he
    rw [hpath, List.mem_filter] at he
    rcases h.origin e he.1 with ⟨f, hf, hfe⟩ | hc
    · exact .inl ⟨f, (hmem f).2 ⟨hf, hfe ▸ of_decide_eq_true he.2⟩, hfe⟩
    · exact .inr ((hcommitted e).1 hc)
  case entry =>
    intro f hf hfi
    obtain ⟨hf, hle⟩ := (hmem f).1 hf
    obtain ⟨e, he, hef, hpc⟩ := h.entry f hf hfi
    refine ⟨e, ?_, hef, hpc⟩
    rw [hpath, List.mem_filter]
    exact ⟨he, decide_eq_true (hef ▸ hle)⟩
  case targets =>
    intro f hf hfi
    obtain ⟨hf, hle⟩ := (hmem f).1 hf
    rw [← h.targets f hf hfi, hpath, older, List.filter_filter]
    refine congrArg _ (List.filter_congr fun e _ => ?_)
    rw [Bool.and_eq_left_iff_imp]
    intro hlt
    have hlt := of_decide_eq_true hlt
    exact decide_eq_true (by omega)
  case head =>
    intro e he
    have hprefix : s'.unit.iPred.pathHist <+: s.unit.iPred.pathHist := by
      rw [hs]
      exact List.takeWhile_prefix _
    obtain ⟨dropped, hdropped⟩ := hprefix
    rw [hhead] at he
    refine (hcommitted e).1 (h.head e ?_)
    rw [← hdropped, List.take_append]
    exact List.mem_append_left _ he
  case head_le =>
    have hle := hkeep.length_le
    rw [List.length_take, Nat.min_eq_left h.head_le] at hle
    rw [hhead]
    exact hle

variable {fs : List (Flight σ η PC)}

/-- The last entry of the branch that is corrected, after the squash to it. -/
theorem PathInv.last_entry (h : PathInv p s) (hf : s.flight = f :: fs) (hi : f.now.wasIndirect = true) :
    ∃ e, s.unit.iPred.pathHist = older s.unit.iPred.pathHist f.seqNum ++ [e] ∧ e.seqNum = f.seqNum ∧
      e.pcAddr = f.now.pc := by
  have hmem : f ∈ s.flight := hf ▸ List.mem_cons_self
  obtain ⟨e, he, hef, hpc⟩ := h.entry f hmem hi
  refine ⟨e, hef ▸ h.sorted.split_last he fun a ha => ?_, hef, hpc⟩
  rw [hef]
  rcases h.origin a ha with ⟨g, hg, hga⟩ | ⟨g, hg, hga⟩
  · have hsorted := h.flights.sorted
    rw [hf] at hg hsorted
    rcases List.mem_cons.1 hg with rfl | hg
    · exact hga.ge
    · rw [← hga]
      exact ((List.pairwise_cons.1 hsorted).1 _ (List.mem_map_of_mem hg)).le
  · rw [← hga]
    exact (h.flights.retired_lt g hg f hmem).le

theorem correct_iPred {u v : BPredUnit σ η PC} {r : PredictorHistory η PC} {rs : List (PredictorHistory η PC)}
    {corrTarget : PC} {taken : Bool} {random : Nat} (hv : u.correct p isa bp r rs corrTarget taken random = some v) :
    v.iPred = u.iPred ∨ r.wasIndirect = true ∧
      u.iPred.recordTarget p (bp.getGHR u.dir r.bpHistory) corrTarget (isa.instAddr corrTarget) random = some v.iPred := by
  simp only [BPredUnit.correct, BPredUnit.correctTarget] at hv
  split at hv
  · split at hv
    next hi =>
      obtain ⟨i, hrecord, rfl⟩ := Option.map_eq_some_iff.1 hv
      rw [BPredUnit.correctRAS_record] at hi
      exact .inr ⟨hi, hrecord⟩
    next =>
      cases hv
      exact .inl rfl
  · cases hv
    exact .inl rfl

/-- The branches in flight are the same, as far as the path history is concerned. -/
structure SameFlight (s s' : Watched σ η PC) : Prop where
  retired : s'.retired = s.retired
  now : ∀ g' ∈ s'.flight, ∃ g ∈ s.flight, g'.seqNum = g.seqNum ∧ g'.now.pc = g.now.pc ∧
    g'.now.wasIndirect = g.now.wasIndirect ∧ g'.before = g.before
  seqNum : ∀ g ∈ s.flight, ∃ g' ∈ s'.flight, g'.seqNum = g.seqNum

theorem SameFlight.origin (h : SameFlight s s') {e : HistoryEntry}
    (he : (∃ f ∈ s.flight, f.seqNum = e.seqNum) ∨ s.Committed e) :
    (∃ f ∈ s'.flight, f.seqNum = e.seqNum) ∨ s'.Committed e := by
  rcases he with ⟨g, hg, hge⟩ | ⟨g, hg, hge⟩
  · obtain ⟨g', hg', hseq⟩ := h.seqNum g hg
    exact .inl ⟨g', hg', hseq.trans hge⟩
  · exact .inr ⟨g, h.retired ▸ hg, hge⟩

theorem PathInv.of_iPred_eq (h : PathInv p s) (hflights : Flights s') (hsame : SameFlight s s')
    (hpath : s'.unit.iPred = s.unit.iPred) : PathInv p s' := by
  constructor
  case flights => exact hflights
  case sorted => exact hpath ▸ h.sorted
  case origin => exact fun e he => hsame.origin (h.origin e (hpath ▸ he))
  case entry =>
    intro g' hg' hi
    obtain ⟨g, hg, hseq, hpc, hwas, -⟩ := hsame.now g' hg'
    rw [hseq, hpc, hpath]
    exact h.entry g hg (hwas ▸ hi)
  case targets =>
    intro g' hg' hi
    obtain ⟨g, hg, hseq, -, hwas, hbefore⟩ := hsame.now g' hg'
    rw [hseq, hbefore, hpath]
    exact h.targets g hg (hwas ▸ hi)
  case head =>
    intro e he
    obtain ⟨g, hg, hge⟩ := h.head e (hpath ▸ he)
    exact ⟨g, hsame.retired ▸ hg, hge⟩
  case head_le => exact hpath ▸ h.head_le

theorem PathInv.retarget (h : PathInv p s) (hflights : Flights s') (hsame : SameFlight s s')
    (hf : s.flight = f :: fs) {hist : List HistoryEntry} {e : HistoryEntry} {target : Nat}
    (hlast : s.unit.iPred.pathHist = hist ++ [e]) (hef : e.seqNum = f.seqNum)
    (hpath : s'.unit.iPred.pathHist = hist ++ [{ e with targetAddr := target }])
    (hhead : s'.unit.iPred.headHistEntry = s.unit.iPred.headHistEntry) : PathInv p s' := by
  have hle : ∀ g ∈ s.flight, g.seqNum ≤ e.seqNum := by
    intro g hg
    have hsorted := h.flights.sorted
    rw [hf] at hg hsorted
    rw [hef]
    rcases List.mem_cons.1 hg with rfl | hg
    · exact Nat.le_refl _
    · exact ((List.pairwise_cons.1 hsorted).1 _ (List.mem_map_of_mem hg)).le
  have holder : ∀ g ∈ s.flight, older s'.unit.iPred.pathHist g.seqNum = older s.unit.iPred.pathHist g.seqNum := by
    intro g hg
    have htarget : g.seqNum ≤ ({ e with targetAddr := target } : HistoryEntry).seqNum := hle g hg
    rw [hpath, hlast, older_append_of_le htarget, older_append_of_le (hle g hg)]
  -- the entry of the branch is not counted as committed
  have hhead_le : s.unit.iPred.headHistEntry ≤ hist.length := by
    by_contra hlt
    have hall : s.unit.iPred.pathHist.take s.unit.iPred.headHistEntry = hist ++ [e] := by
      rw [hlast, List.take_of_length_le]
      rw [List.length_append, List.length_singleton]
      omega
    obtain ⟨g, hg, hge⟩ := h.head e (by rw [hall]; exact List.mem_append_right _ (List.mem_singleton_self e))
    have hlt := h.flights.retired_lt g hg f (hf ▸ List.mem_cons_self)
    omega
  constructor
  case flights => exact hflights
  case sorted =>
    have hsorted := h.sorted
    rw [Sorted, hlast, List.map_append] at hsorted
    rw [Sorted, hpath, List.map_append]
    exact hsorted
  case origin =>
    intro a ha
    rw [hpath] at ha
    rcases List.mem_append.1 ha with ha | ha
    · exact hsame.origin (h.origin a (by rw [hlast]; exact List.mem_append_left _ ha))
    · rw [List.mem_singleton.1 ha]
      exact hsame.origin (.inl ⟨f, hf ▸ List.mem_cons_self, hef.symm⟩)
  case entry =>
    intro g' hg' hi
    obtain ⟨g, hg, hseq, hpc, hwas, -⟩ := hsame.now g' hg'
    obtain ⟨a, ha, hag, hapc⟩ := h.entry g hg (hwas ▸ hi)
    rw [hseq, hpc, hpath]
    rw [hlast] at ha
    rcases List.mem_append.1 ha with ha | ha
    · exact ⟨a, List.mem_append_left _ ha, hag, hapc⟩
    · cases List.mem_singleton.1 ha
      exact ⟨_, List.mem_append_right _ (List.mem_singleton_self _), hag, hapc⟩
  case targets =>
    intro g' hg' hi
    obtain ⟨g, hg, hseq, -, hwas, hbefore⟩ := hsame.now g' hg'
    rw [hseq, hbefore, holder g hg]
    exact h.targets g hg (hwas ▸ hi)
  case head =>
    intro a ha
    rw [hpath, hhead, List.take_append_of_le_length hhead_le] at ha
    obtain ⟨g, hg, hga⟩ := h.head a (by rwa [hlast, List.take_append_of_le_length hhead_le])
    exact ⟨g, hsame.retired ▸ hg, hga⟩
  case head_le =>
    rw [hpath, hhead, List.length_append]
    exact hhead_le.trans (Nat.le_add_right _ _)

theorem PathInv.squash_to (h : PathInv p s) (bp : DirPredictor σ η) (hf : f ∈ s.flight)
    (hfs : s.upTo f.seqNum = f :: fs) : PathInv p { s with unit := s.unit.squash bp f.seqNum, flight := f :: fs } :=
  h.squash (n := f.seqNum) (fun g hg => (h.flights.retired_lt g hg f hf).le) (by rw [hfs])

theorem PathInv.squashCorrect (h : PathInv p s) {n : Nat} {corrTarget : PC} {taken : Bool} {random : Nat}
    (hp : Permitted s (.squashCorrect n corrTarget taken random))
    (hs : step p isa bp s (.squashCorrect n corrTarget taken random) = some s') : PathInv p s' := by
  obtain ⟨f, fs, u, hfs, hf, rfl, -, hcorrect, rfl, hflights⟩ := h.flights.squashCorrect hp hs
  have hsquash := h.squash_to bp hf hfs
  obtain ⟨hseq, hpc, -, hind⟩ := BPredUnit.correct_now hcorrect f.now
  have hsame : SameFlight { s with unit := s.unit.squash bp f.seqNum, flight := f :: fs }
      { s with unit := u, flight := { f with now := u.predHist.headD f.now, last := u } :: fs } := by
    constructor
    case retired => rfl
    case now =>
      intro g hg
      rcases List.mem_cons.1 hg with rfl | hg
      · exact ⟨f, List.mem_cons_self, hseq, hpc, hind, rfl⟩
      · exact ⟨g, List.mem_cons_of_mem f hg, rfl, rfl, rfl, rfl⟩
    case seqNum =>
      intro g hg
      rcases List.mem_cons.1 hg with rfl | hg
      · exact ⟨_, List.mem_cons_self, hseq⟩
      · exact ⟨g, List.mem_cons_of_mem _ hg, rfl⟩
  rcases correct_iPred hcorrect with hpath | ⟨hi, hrecord⟩
  · exact hsquash.of_iPred_eq hflights hsame hpath
  · obtain ⟨e, hlast, hef, -⟩ := hsquash.last_entry rfl hi
    obtain ⟨t, ht, htpath, hthead⟩ := recordTarget_eq (p := p) hlast _ _ _ _
    obtain rfl : t = u.iPred := Option.some.inj (ht.symm.trans hrecord)
    exact hsquash.retarget hflights hsame rfl hlast hef htpath hthead

theorem PathInv.step (h : PathInv p s) {c : PredCall PC} (hp : Permitted s c)
    (hs : step p isa bp s c = some s') : PathInv p s' := by
  cases c with
  | predict inst seqNum pc => exact h.predict hp hs
  | update done_sn => exact h.update hs
  | squash n => exact h.squash hp (Option.some.inj hs).symm
  | squashCorrect n corrTarget taken random => exact h.squashCorrect hp hs

/-! ## The lookup of a branch -/

end Watched

namespace Flight

variable (p : Params) (bp : DirPredictor σ η) (f : Flight σ η PC)

/-- The history register that `predict` hands to the lookup of the branch. -/
def lookupGHR : Nat :=
  let (dir, bp_history, _) := f.before.direction bp f.inst f.made.pc
  bp.getGHR dir bp_history

/-- The set index and the tag of that lookup. -/
def lookedUp : Nat × Nat := f.before.iPred.lookupKey p f.made.pc (f.lookupGHR bp)

/-- A record keeps the address and the history object of its branch. -/
structure AsMade : Prop where
  pc : f.now.pc = f.made.pc
  bpHistory : f.now.bpHistory = (f.before.direction bp f.inst f.made.pc).2.1

end Flight

namespace Watched

variable {p : Params} {isa : TheISA PC} {bp : DirPredictor σ η} {s s' : Watched σ η PC}

theorem asMade_step (h : Flights s) (hmade : ∀ f ∈ s.flight, f.AsMade bp) {c : PredCall PC} (hp : Permitted s c)
    (hs : step p isa bp s c = some s') : ∀ f ∈ s'.flight, f.AsMade bp := by
  cases c with
  | predict inst seqNum pc =>
    obtain ⟨r, u, hu, hr, rfl, -⟩ := h.predict hp hs
    obtain ⟨r', hr', hpred⟩ := BPredUnit.predict_spec p isa bp s.unit inst seqNum pc
    rw [← hu] at hr'
    obtain rfl : r = r' := (List.cons.inj (hr.symm.trans hr')).1
    intro f hf
    rcases List.mem_cons.1 hf with rfl | hf
    · have hpc : r.pc = isa.instAddr pc := hpred.pc_eq
      refine ⟨rfl, ?_⟩
      show r.bpHistory = (s.unit.direction bp inst r.pc).2.1
      rw [hpc]
      exact hpred.bpHistory
    · exact hmade f hf
  | update done_sn =>
    cases hs
    exact fun f hf => hmade f ((List.rdropWhile_prefix _ _).subset hf)
  | squash n =>
    cases hs
    exact fun f hf => hmade f (mem_of_mem_upTo hf)
  | squashCorrect n corrTarget taken random =>
    obtain ⟨f, fs, u, hfs, hf, -, -, hcorrect, rfl, -⟩ := h.squashCorrect hp hs
    obtain ⟨-, hpc, hbp, -⟩ := BPredUnit.correct_now hcorrect f.now
    intro g hg
    rcases List.mem_cons.1 hg with rfl | hg
    · constructor
      case pc => exact hpc.trans (hmade f hf).pc
      case bpHistory => exact hbp.trans (hmade f hf).bpHistory
    · exact hmade g (mem_of_mem_upTo (hfs ▸ List.mem_cons_of_mem f hg))

/-! ## Every run -/

instance (s : Watched σ η PC) : DecidablePred s.Committed := fun e =>
  inferInstanceAs (Decidable (∃ f ∈ s.retired, f.seqNum = e.seqNum))

theorem PathInv.run {dir : σ} (h : Run.Reaches (Watched.step p isa bp) Permitted (start p isa dir) s) :
    PathInv p s ∧ ∀ f ∈ s.flight, f.AsMade bp :=
  Run.Reaches.inv (P := fun t => PathInv p t ∧ ∀ f ∈ t.flight, f.AsMade bp)
    ⟨pathInv_start dir, fun _ hf => absurd hf List.not_mem_nil⟩
    (fun _ _ _ hi hok hs => ⟨hi.1.step hok hs, asMade_step hi.1.flights hi.2 hok hs⟩) h

/-- No more entries are counted as committed than there are. -/
theorem PathInv.head_le_count (h : PathInv p s) :
    s.unit.iPred.headHistEntry ≤ s.unit.iPred.pathHist.countP fun e => decide (s.Committed e) := by
  have hall : ∀ e ∈ s.unit.iPred.pathHist.take s.unit.iPred.headHistEntry, decide (s.Committed e) = true :=
    fun e he => decide_eq_true (h.head e he)
  calc s.unit.iPred.headHistEntry
      = (s.unit.iPred.pathHist.take s.unit.iPred.headHistEntry).length := by
        rw [List.length_take, Nat.min_eq_left h.head_le]
    _ = (s.unit.iPred.pathHist.take s.unit.iPred.headHistEntry).countP fun e => decide (s.Committed e) :=
        (List.countP_eq_length.2 hall).symm
    _ ≤ s.unit.iPred.pathHist.countP fun e => decide (s.Committed e) := (List.take_sublist _ _).countP_le

/-- The correction of an indirect branch: its entry is the last one, and it is trained where it was looked up just if the
history register is the same. -/
theorem PathInv.trained (h : PathInv p s) (hf : f ∈ s.flight) (hi : f.now.wasIndirect = true) (hmade : f.AsMade bp) :
    ∃ hist e, (s.unit.squash bp f.seqNum).iPred.pathHist = hist ++ [e] ∧ e.seqNum = f.seqNum ∧ e.pcAddr = f.made.pc ∧
      ∀ ghr, (s.unit.squash bp f.seqNum).iPred.recordKey p ghr = some (f.lookedUp p bp) ↔
        (p.indirectHashGHR = true → ghr &&& (p.indirectSets - 1) = f.lookupGHR bp &&& (p.indirectSets - 1)) := by
  obtain ⟨fs, hfs⟩ := h.flights.upTo_cons hf
  have hsquash := h.squash_to bp hf hfs
  obtain ⟨e, hlast, hef, hpc⟩ := hsquash.last_entry rfl hi
  have htargets := hsquash.targets f List.mem_cons_self hi
  refine ⟨_, e, hlast, hef, hpc.trans hmade.pc, fun ghr => ?_⟩
  rw [recordKey_eq hlast, Option.some.injEq, hpc.trans hmade.pc]
  unfold Flight.lookedUp lookupKey
  rw [Prod.mk.injEq, and_iff_left rfl]
  exact setIndex_eq_iff p htargets _ _ _

theorem PathInv.squashCorrect_isSome (h : PathInv p s) (hf : f ∈ s.flight) (hi : f.now.wasIndirect = true)
    (corrTarget : PC) (random : Nat) :
    (Watched.step p isa bp s (.squashCorrect f.seqNum corrTarget true random)).isSome := by
  obtain ⟨fs, hfs⟩ := h.flights.upTo_cons hf
  obtain ⟨e, hlast, -, -⟩ := (h.squash_to bp hf hfs).last_entry rfl hi
  obtain ⟨t, ht, -, -⟩ := recordTarget_eq (p := p) hlast
    (bp.getGHR (s.unit.squash bp f.seqNum).dir f.now.bpHistory) corrTarget (isa.instAddr corrTarget) random
  have hmap := h.flights.squash_predHist bp hfs
  simp only [Watched.step, Option.isSome_map, BPredUnit.squashCorrect, hmap]
  rw [if_pos (show f.now.seqNum = f.seqNum from rfl)]
  simp only [BPredUnit.correct, BPredUnit.correctTarget, if_true]
  rw [BPredUnit.correctRAS_record]
  show (if f.now.wasIndirect = true then _ else _ : Option _).isSome = true
  rw [if_pos hi, Option.isSome_map]
  exact Option.isSome_iff_exists.2 ⟨t, ht⟩

/-- The history register of the correction is the one that the lookup has seen, in the bits of the set index; in every
reached state this decides which entry is trained, and the rest holds anyway. -/
theorem trained_iff (p : Params) (isa : TheISA PC) (bp : DirPredictor σ η) (dir : σ) {s : Watched σ η PC}
    (h : Run.Reaches (Watched.step p isa bp) Permitted (start p isa dir) s) :
    s.unit.iPred.headHistEntry ≤ (s.unit.iPred.pathHist.countP fun e => decide (s.Committed e)) ∧
    ∀ f ∈ s.flight, f.now.wasIndirect = true → ∀ (corrTarget : PC) (random : Nat),
      (Watched.step p isa bp s (.squashCorrect f.seqNum corrTarget true random)).isSome ∧
      (∃ e ∈ (s.unit.squash bp f.seqNum).iPred.pathHist.getLast?, e.seqNum = f.seqNum ∧ e.pcAddr = f.made.pc) ∧
      ((s.unit.squash bp f.seqNum).iPred.recordKey p (bp.getGHR (s.unit.squash bp f.seqNum).dir f.now.bpHistory) =
          some (f.lookedUp p bp) ↔
        (p.indirectHashGHR = true →
          bp.getGHR (s.unit.squash bp f.seqNum).dir f.now.bpHistory &&& (p.indirectSets - 1) =
            f.lookupGHR bp &&& (p.indirectSets - 1))) := by
  obtain ⟨hinv, hmade⟩ := PathInv.run h
  refine ⟨hinv.head_le_count, fun f hf hi corrTarget random => ?_⟩
  obtain ⟨hist, e, hlast, hef, hpc, htrained⟩ := hinv.trained hf hi (hmade f hf)
  exact ⟨hinv.squashCorrect_isSome hf hi corrTarget random,
    ⟨e, by rw [hlast, List.getLast?_concat]; rfl, hef, hpc⟩, htrained _⟩

end Watched

namespace LTAGE

/-- The sizes of the configuration, with its rounded lengths. -/
def defaults : Params :=
  ⟨14, 11, 8, 12, 3, 2097152, 640, 7, fun i => [0, 4, 6, 10, 16, 25, 40, 64, 101, 160, 254, 403, 640].getD i 0,
    by decide⟩

def unitOf : Pred.Params := ⟨4096, 16, 2, 16, true, true, true, 256, 2, 16, 3, ⟨12, rfl⟩, ⟨8, rfl⟩⟩

/-- Program counters are addresses. -/
def addresses : TheISA Nat := ⟨0, id, fun _ ras => ras + 4⟩

/-- A conditional branch through a register. -/
def branchIndirect : StaticInst Nat := ⟨false, false, false, false, (· + 4)⟩

abbrev fresh : Watched State BranchInfo Nat := Watched.start unitOf addresses (init fun _ => 0)

/-- A branch that is in flight, predicted taken. -/
theorem trained_branch : ∃ s : Watched State BranchInfo Nat, ∃ f ∈ s.flight, f.now.wasIndirect = true ∧
    (s.unit.squash (ltage defaults) f.seqNum).iPred.recordKey unitOf
      (getGHR (s.unit.squash (ltage defaults) f.seqNum).dir f.now.bpHistory) = some (1, 0x2000) := by
  have h1 : Run.Reaches (Watched.step unitOf addresses (ltage defaults)) Watched.Permitted fresh _ :=
    .step .refl (i := PredCall.predict branchIndirect 1 0x8000) (fun _ h => absurd h (Option.not_mem_none _)) rfl
  have htrained := (Watched.trained_iff unitOf addresses (ltage defaults) (init fun _ => 0) h1).2 _ List.mem_cons_self
    rfl 0x200 0
  exact ⟨_, _, List.mem_cons_self, rfl, htrained.2.2.2 fun _ => rfl⟩

/-- It is corrected to not taken, and then to taken: the correction has changed its outcome in the buffer, so that the
second one trains another set. -/
theorem entry_missed : ∃ s : Watched State BranchInfo Nat, ∃ f ∈ s.flight,
    Run.Reaches (Watched.step unitOf addresses (ltage defaults)) Watched.Permitted fresh s ∧
    f.now.wasIndirect = true ∧ f.lookedUp unitOf (ltage defaults) = (1, 0x2000) ∧
    (s.unit.squash (ltage defaults) f.seqNum).iPred.recordKey unitOf
      (getGHR (s.unit.squash (ltage defaults) f.seqNum).dir f.now.bpHistory) = some (0, 0x2000) := by
  have h1 : Run.Reaches (Watched.step unitOf addresses (ltage defaults)) Watched.Permitted fresh _ :=
    .step .refl (i := PredCall.predict branchIndirect 1 0x8000) (fun _ h => absurd h (Option.not_mem_none _)) rfl
  have h2 := h1.step (i := PredCall.squashCorrect 1 0x8004 false 0) ⟨_, List.mem_cons_self, rfl⟩ rfl
  exact ⟨_, _, List.mem_cons_self, h2, rfl, rfl, rfl⟩

end LTAGE

end Alpine.Cpu.Pred
