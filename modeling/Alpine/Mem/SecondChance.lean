import Alpine.Lib.Run
import Mathlib

/-!
# Second-chance replacement (`mem/cache/replacement_policies/second_chance_rp.cc`, `fifo_rp.cc`)

The policy keeps no queue, but the tick at which each entry was inserted or re-inserted.  `Sys` has next to
these data the queue that they stand for; the victim of a call is inserted again at the same tick.

* `getVictim` as in the source, with a bound on the turns of its loop that is never reached.
* `Follows` — what the second-chance algorithm on the queue does.
* `InOrder` — when the data still tell the order of the queue.
* `getVictim_follows_iff` — in a run of calls at one tick, each of which was in order, the next call follows
  the algorithm if and only if it is in order.
-/

namespace Alpine.Mem.SecondChance

variable {ι : Type} [DecidableEq ι]

/-- `SecondChanceReplData`. -/
structure ReplData where
  tickInserted : Nat
  hasSecondChance : Bool

/-- The replacement data of all entries. -/
abbrev Data (ι : Type) := ι → ReplData

section Policy

variable (curTick : Nat) (data : Data ι)

/-- `FIFORP::getVictim`. -/
def fifoVictim : List ι → Option ι
  | [] => none
  | c :: cs => some ((c :: cs).foldl (fun victim candidate =>
    if (data candidate).tickInserted < (data victim).tickInserted then candidate else victim) c)

/-- `SecondChanceRP::useSecondChance`. -/
def useSecondChance (c : ι) : Data ι := Function.update data c ⟨curTick, false⟩

/-- `SecondChanceRP::reset`. -/
def reset (c : ι) : Data ι := Function.update data c ⟨curTick, true⟩

def isInvalid (c : ι) : Bool := (data c).tickInserted = 0 && !(data c).hasSecondChance

/-- The loop of `getVictim`, with a bound on its turns. -/
def searchVictim (candidates : List ι) : Nat → Data ι → Option (ι × Data ι)
  | 0, _ => none
  | k + 1, data => do
    let victim ← fifoVictim data candidates
    if (data victim).hasSecondChance then searchVictim candidates k (useSecondChance curTick data victim)
    else some (victim, data)

/-- `SecondChanceRP::getVictim`: the victim, and the data after the call. -/
def getVictim (candidates : List ι) : Option (ι × Data ι) :=
  match candidates.find? (isInvalid data) with
  | some c => some (c, data)
  | none => searchVictim curTick candidates (candidates.length + 1) data

end Policy

/-! ## The algorithm on a queue -/

/-- The data, and the valid candidates in the order in which they were inserted or re-inserted. -/
structure Sys (ι : Type) where
  data : Data ι
  queue : List ι

/-- What the algorithm does: it takes an invalid candidate if there is one; otherwise the first of the queue
that has no second chance, and if all have one, the first; and those before it, or all, lose theirs. -/
structure Follows (candidates : List ι) (s : Sys ι) (v : ι) (data' : Data ι) : Prop where
  invalid : (∃ c ∈ candidates, isInvalid s.data c = true) →
    v ∈ candidates ∧ isInvalid s.data v = true ∧ data' = s.data
  victim : (∀ c ∈ candidates, isInvalid s.data c = false) →
    ((s.queue.find? fun c => !(s.data c).hasSecondChance).or s.queue.head?) = some v
  chances : (∀ c ∈ candidates, isInvalid s.data c = false) → ∀ c,
    (data' c).hasSecondChance =
      ((s.data c).hasSecondChance && c ∉ s.queue.takeWhile fun c => (s.data c).hasSecondChance)

/-- The queue after `v` was taken and inserted again, with those before it put behind the others. -/
def requeue (queue : List ι) (v : ι) : List ι :=
  (queue.dropWhile (· ≠ v)).tail ++ queue.takeWhile (· ≠ v) ++ [v]

/-- A call, after which the victim is inserted again. -/
def step (curTick : Nat) (candidates : List ι) (s : Sys ι) (_ : Unit) : Option (Sys ι) :=
  (getVictim curTick s.data candidates).map fun r =>
    { data := reset curTick r.2 r.1, queue := requeue s.queue r.1 }

/-- Before the calls: the valid candidates were inserted at distinct positive ticks. -/
structure Inserted (curTick : Nat) (candidates : List ι) (s : Sys ι) : Prop where
  now : 0 < curTick
  nonempty : candidates ≠ []
  nodup : candidates.Nodup
  valid : ∀ c, c ∈ s.queue ↔ c ∈ candidates ∧ isInvalid s.data c = false
  positive : ∀ c ∈ s.queue, 0 < (s.data c).tickInserted ∧ (s.data c).tickInserted ≤ curTick
  distinct : s.queue.Pairwise fun c c' => (s.data c).tickInserted < (s.data c').tickInserted

/-- The data tell the order of the queue as far as the call reads it: there is an invalid candidate, or one
without a second chance from before the current tick; or the search ends among the candidates of the current
tick, and the first candidate is the one that the algorithm takes without clearing another of these. -/
def InOrder (curTick : Nat) (candidates : List ι) (s : Sys ι) : Prop :=
  (∃ c ∈ candidates, isInvalid s.data c = true) ∨
  (∃ c ∈ s.queue, (s.data c).tickInserted < curTick ∧ (s.data c).hasSecondChance = false) ∨
  match s.queue.filter fun c => (s.data c).tickInserted = curTick with
  | [] => candidates.head? = s.queue.head?
  | g :: _ => candidates.head? = some g ∧ ((s.data g).hasSecondChance = false ∨ s.queue = [g])

/-! ## The search by ticks -/

section Search

variable {T : Nat} {data : Data ι} {cands : List ι} {v : ι}

theorem fifo_unique (hv : v ∈ cands) (h : ∀ c ∈ cands, c ≠ v → (data v).tickInserted < (data c).tickInserted) :
    fifoVictim data cands = some v := by
  have hfold : ∀ (l : List ι) (b : ι), (∀ c ∈ l, c ≠ v → (data v).tickInserted < (data c).tickInserted) →
      (b = v ∨ v ∈ l ∧ (data v).tickInserted < (data b).tickInserted) →
      l.foldl (fun victim candidate =>
        if (data candidate).tickInserted < (data victim).tickInserted then candidate else victim) b = v := by
    intro l
    induction l with
    | nil =>
      rintro b - (rfl | ⟨hmem, -⟩)
      · rfl
      · exact absurd hmem List.not_mem_nil
    | cons c l ih =>
      intro b hl hb
      rw [List.foldl_cons]
      apply ih
      · exact fun x hx => hl x (List.mem_cons_of_mem _ hx)
      · by_cases hc : c = v
        · subst hc
          left
          rcases hb with rfl | ⟨-, hlt⟩
          · exact if_neg (Nat.lt_irrefl _)
          · exact if_pos hlt
        · have hlt := hl c List.mem_cons_self hc
          rcases hb with rfl | ⟨hmem, hb⟩
          · left
            exact if_neg (Nat.not_lt_of_gt hlt)
          · right
            rcases List.mem_cons.1 hmem with rfl | hmem
            · exact absurd rfl hc
            · refine ⟨hmem, ?_⟩
              split
              · exact hlt
              · exact hb
  cases cands with
  | nil => exact absurd hv List.not_mem_nil
  | cons c cs =>
    refine congrArg some (hfold (c :: cs) c h ?_)
    by_cases hc : c = v
    · exact .inl hc
    · exact .inr ⟨hv, h c List.mem_cons_self hc⟩

omit [DecidableEq ι] in
theorem fifo_tied {t : Nat} (h : ∀ c ∈ cands, (data c).tickInserted = t) : fifoVictim data cands = cands.head? := by
  have hfold : ∀ (l : List ι) (b : ι), (∀ c ∈ l, ¬ (data c).tickInserted < (data b).tickInserted) →
      l.foldl (fun victim candidate =>
        if (data candidate).tickInserted < (data victim).tickInserted then candidate else victim) b = b := by
    intro l
    induction l with
    | nil => exact fun b _ => rfl
    | cons c l ih =>
      intro b hl
      rw [List.foldl_cons, if_neg (hl c List.mem_cons_self)]
      exact ih b fun x hx => hl x (List.mem_cons_of_mem _ hx)
  cases cands with
  | nil => rfl
  | cons c cs =>
    refine congrArg some (hfold (c :: cs) c fun x hx => ?_)
    rw [h x hx, h c List.mem_cons_self]
    exact Nat.lt_irrefl _

theorem search_hit {k : Nat} (hv : fifoVictim data cands = some v) (hsc : (data v).hasSecondChance = false) :
    searchVictim T cands (k + 1) data = some (v, data) := by
  rw [searchVictim, hv]
  show (if (data v).hasSecondChance then _ else _) = _
  rw [hsc, if_neg Bool.false_ne_true]

theorem search_again {k : Nat} (hv : fifoVictim data cands = some v) (hsc : (data v).hasSecondChance = true) :
    searchVictim T cands (k + 1) data = searchVictim T cands k (useSecondChance T data v) := by
  rw [searchVictim, hv]
  show (if (data v).hasSecondChance then _ else _) = _
  rw [hsc, if_pos rfl]

theorem use_self (T : Nat) (data : Data ι) (v : ι) : useSecondChance T data v v = ⟨T, false⟩ :=
  Function.update_self ..

theorem use_of_ne {c : ι} (h : c ≠ v) : useSecondChance T data v c = data c := Function.update_of_ne h ..

/-- The data after all of a list have used their second chance. -/
def refreshed (T : Nat) (l : List ι) (data : Data ι) : Data ι := fun c => if c ∈ l then ⟨T, false⟩ else data c

theorem refreshed_mem {l : List ι} {c : ι} (hc : c ∈ l) : refreshed T l data c = ⟨T, false⟩ := if_pos hc

theorem refreshed_not_mem {l : List ι} {c : ι} (hc : c ∉ l) : refreshed T l data c = data c := if_neg hc

theorem refreshed_use {l : List ι} {c : ι} :
    refreshed T l (useSecondChance T data c) = refreshed T (c :: l) data := by
  funext x
  by_cases hx : x ∈ l
  · rw [refreshed_mem hx, refreshed_mem (List.mem_cons_of_mem _ hx)]
  · rw [refreshed_not_mem hx]
    by_cases hxc : x = c
    · subst hxc
      rw [refreshed_mem List.mem_cons_self]
      exact use_self T data x
    · rw [refreshed_not_mem (List.not_mem_cons_of_ne_of_not_mem hxc hx)]
      exact use_of_ne hxc

/-- The ticks tell the order, except among those of the current tick. -/
def Sorted (T : Nat) (data : Data ι) (q : List ι) : Prop :=
  q.Pairwise fun c c' => (data c).tickInserted < (data c').tickInserted ∨ (data c').tickInserted = T

/-- The first of the queue is from before the current tick, and the scan finds it. -/
theorem fifo_front {f : ι} {q : List ι} (hq : ∀ c, c ∈ cands ↔ c ∈ f :: q) (hsorted : Sorted T data (f :: q))
    (hf : (data f).tickInserted < T) : fifoVictim data cands = some f := by
  refine fifo_unique ((hq f).2 List.mem_cons_self) fun c hc hne => ?_
  rcases List.mem_cons.1 ((hq c).1 hc) with rfl | hc
  · exact absurd rfl hne
  · rcases List.rel_of_pairwise_cons hsorted hc with h | h
    · exact h
    · omega

/-- A turn of the loop puts the first of the queue behind the others. -/
theorem sorted_use {f : ι} {q : List ι} (hnodup : (f :: q).Nodup) (hsorted : Sorted T data (f :: q)) :
    Sorted T (useSecondChance T data f) (q ++ [f]) := by
  have hf : f ∉ q := (List.nodup_cons.1 hnodup).1
  have hsame : ∀ c ∈ q, useSecondChance T data f c = data c := by
    intro c hc
    refine use_of_ne ?_
    rintro rfl
    exact hf hc
  refine List.pairwise_append.2 ⟨?_, List.pairwise_singleton _ _, fun c _ c' hc' => ?_⟩
  · refine List.Pairwise.imp_of_mem (fun hc hc' h => ?_) hsorted.of_cons
    rwa [hsame _ hc, hsame _ hc']
  · right
    rw [List.mem_singleton.1 hc', use_self]

/-- **The loop takes the second chances in the order of the queue**, as long as the ticks tell it. -/
theorem search_front : ∀ {pre : List ι} (rest : List ι) {data : Data ι} {k : Nat},
    (∀ c, c ∈ cands ↔ c ∈ pre ++ rest) → (pre ++ rest).Nodup → Sorted T data (pre ++ rest) →
    (∀ c ∈ pre, (data c).tickInserted < T ∧ (data c).hasSecondChance = true) →
    searchVictim T cands (pre.length + k) data = searchVictim T cands k (refreshed T pre data)
  | [], rest, data, k, _, _, _, _ => by
    rw [List.length_nil, Nat.zero_add]
    congr 1
  | f :: pre, rest, data, k, hq, hnodup, hsorted, hpre => by
    obtain ⟨hf, hsc⟩ := hpre f List.mem_cons_self
    have hlen : (f :: pre).length + k = pre.length + k + 1 := by
      rw [List.length_cons]
      omega
    have hfpre : f ∉ pre ++ rest := (List.nodup_cons.1 hnodup).1
    rw [hlen, search_again (fifo_front hq hsorted hf) hsc, ← refreshed_use]
    refine search_front (rest ++ [f]) (fun c => ?_) ?_ ?_ fun c hc => ?_
    · rw [hq, List.cons_append, List.mem_cons, ← List.append_assoc, List.mem_append (s := pre ++ rest),
        List.mem_singleton]
      exact or_comm
    · rw [← List.append_assoc]
      refine List.nodup_append.2 ⟨(List.nodup_cons.1 hnodup).2, List.nodup_singleton f, ?_⟩
      intro c hc c' hc' hcc'
      rw [hcc', List.mem_singleton.1 hc'] at hc
      exact hfpre hc
    · rw [← List.append_assoc]
      exact sorted_use hnodup hsorted
    · have hne : c ≠ f := by
        rintro rfl
        exact hfpre (List.mem_append_left _ hc)
      rw [use_of_ne hne]
      exact hpre c (List.mem_cons_of_mem _ hc)

end Search

/-! ## One call -/

/-- The invariant of the calls at one tick. -/
structure Ordered (T : Nat) (cands : List ι) (s : Sys ι) : Prop where
  now : 0 < T
  nonempty : cands ≠ []
  nodup : cands.Nodup
  queue : s.queue.Nodup
  valid : ∀ c, c ∈ s.queue ↔ c ∈ cands ∧ isInvalid s.data c = false
  positive : ∀ c ∈ s.queue, 0 < (s.data c).tickInserted ∧ (s.data c).tickInserted ≤ T
  sorted : Sorted T s.data s.queue

variable {T : Nat} {cands : List ι} {s s' : Sys ι} {v : ι} {data' : Data ι}

omit [DecidableEq ι] in
theorem Inserted.ordered (h : Inserted T cands s) : Ordered T cands s where
  now := h.now
  nonempty := h.nonempty
  nodup := h.nodup
  queue := by
    refine h.distinct.imp fun hlt => ?_
    rintro rfl
    exact Nat.lt_irrefl _ hlt
  valid := h.valid
  positive := h.positive
  sorted := h.distinct.imp .inl

variable {rest : List ι}

namespace Ordered

variable (h : Ordered T cands s)
include h

omit [DecidableEq ι] in
theorem length_le : s.queue.length ≤ cands.length :=
  (List.subperm_of_subset h.queue fun c hc => ((h.valid c).1 hc).1).length_le

omit [DecidableEq ι] in
/-- The candidates from before the current tick stand in front of the others. -/
theorem old_of_before {pre : List ι} (hq : s.queue = pre ++ rest) {c c' : ι} (hc : c ∈ pre) (hc' : c' ∈ rest)
    (hold : (s.data c').tickInserted < T) : (s.data c).tickInserted < T := by
  have hrel := (List.pairwise_append.1 (hq ▸ h.sorted)).2.2 c hc c' hc'
  rcases hrel with hlt | heq
  · omega
  · omega

/-- The search ends at the first without a second chance, if that is from before the current tick. -/
theorem search_old (hvalid : ∀ c ∈ cands, isInvalid s.data c = false)
    (hold : ∃ c ∈ s.queue, (s.data c).tickInserted < T ∧ (s.data c).hasSecondChance = false) :
    ∃ pre v rest, s.queue = pre ++ v :: rest ∧ (∀ c ∈ pre, (s.data c).hasSecondChance = true) ∧
      (s.data v).hasSecondChance = false ∧ getVictim T s.data cands = some (v, refreshed T pre s.data) := by
  obtain ⟨c, hc, hcold, hcsc⟩ := hold
  obtain ⟨v, hfind⟩ : ∃ v, s.queue.find? (fun c => !(s.data c).hasSecondChance) = some v := by
    refine Option.isSome_iff_exists.1 (List.find?_isSome.2 ⟨c, hc, ?_⟩)
    rw [hcsc]
    rfl
  obtain ⟨hvsc, pre, rest, hq, hpre⟩ := List.find?_eq_some_iff_append.1 hfind
  have hvsc : (s.data v).hasSecondChance = false := by simpa using hvsc
  have hpre : ∀ x ∈ pre, (s.data x).hasSecondChance = true := fun x hx => by simpa using hpre x hx
  have hvold : (s.data v).tickInserted < T := by
    rw [hq] at hc
    rcases List.mem_append.1 hc with hc | hc
    · rw [hpre c hc] at hcsc
      cases hcsc
    · rcases List.mem_cons.1 hc with rfl | hc
      · exact hcold
      · have hq' : s.queue = (pre ++ [v]) ++ rest := by rw [hq, List.append_assoc]; rfl
        exact h.old_of_before hq' (List.mem_append_right _ (List.mem_singleton_self v)) hc hcold
  refine ⟨pre, v, rest, hq, hpre, hvsc, ?_⟩
  have hcands : ∀ c, c ∈ cands ↔ c ∈ pre ++ v :: rest := by
    intro c
    rw [← hq, h.valid]
    exact ⟨fun hc => ⟨hc, hvalid c hc⟩, fun hc => hc.1⟩
  have hnone : cands.find? (isInvalid s.data) = none := List.find?_eq_none.2 fun c hc => by
    rw [hvalid c hc]
    exact Bool.false_ne_true
  have hlen := h.length_le
  rw [hq, List.length_append, List.length_cons] at hlen
  have hfuel : cands.length + 1 = pre.length + (cands.length - pre.length + 1) := by omega
  have hpreOld : ∀ x ∈ pre, (s.data x).tickInserted < T ∧ (s.data x).hasSecondChance = true := fun x hx =>
    ⟨h.old_of_before hq hx List.mem_cons_self hvold, hpre x hx⟩
  have hnodup : (pre ++ v :: rest).Nodup := hq ▸ h.queue
  have hvpre : v ∉ pre := fun hv => (List.nodup_append.1 hnodup).2.2 v hv v List.mem_cons_self rfl
  unfold getVictim
  rw [hnone]
  show searchVictim T cands (cands.length + 1) s.data = _
  rw [hfuel, search_front _ hcands hnodup (hq ▸ h.sorted) hpreOld]
  refine search_hit (fifo_unique ((hcands v).2 ?_) fun c hc hne => ?_) ?_
  · exact List.mem_append_right _ List.mem_cons_self
  · rw [refreshed_not_mem hvpre]
    rcases List.mem_append.1 ((hcands c).1 hc) with hcpre | hcrest
    · rw [refreshed_mem hcpre]
      exact hvold
    · have hcpre : c ∉ pre := fun hc' => (List.nodup_append.1 hnodup).2.2 c hc' c hcrest rfl
      rw [refreshed_not_mem hcpre]
      rcases List.mem_cons.1 hcrest with rfl | hcrest
      · exact absurd rfl hne
      · have hrel := List.rel_of_pairwise_cons
          (List.pairwise_append.1 (hq ▸ h.sorted : Sorted T s.data (pre ++ v :: rest))).2.1 hcrest
        rcases hrel with hlt | heq
        · exact hlt
        · omega
  · rw [refreshed_not_mem hvpre]
    exact hvsc

end Ordered

omit [DecidableEq ι] in
/-- The candidates of the current tick are the end of the queue. -/
theorem split_ticks : ∀ {q : List ι} {data : Data ι}, Sorted T data q → (∀ c ∈ q, (data c).tickInserted ≤ T) →
    q = (q.filter fun c => (data c).tickInserted < T) ++ q.filter fun c => (data c).tickInserted = T
  | [], _, _, _ => rfl
  | c :: q, data, hsorted, hle => by
    have hle' : ∀ x ∈ q, (data x).tickInserted ≤ T := fun x hx => hle x (List.mem_cons_of_mem _ hx)
    have hc := hle c List.mem_cons_self
    by_cases hold : (data c).tickInserted < T
    · simp only [List.filter_cons, hold, Nat.ne_of_lt hold, decide_true, decide_false, if_true,
        Bool.false_eq_true, if_false, List.cons_append]
      exact congrArg (c :: ·) (split_ticks hsorted.of_cons hle')
    · have hall : ∀ x ∈ c :: q, (data x).tickInserted = T := by
        intro x hx
        rcases List.mem_cons.1 hx with rfl | hx
        · omega
        · have hrel := List.rel_of_pairwise_cons hsorted hx
          have hx := hle' x hx
          omega
      have hnone : (c :: q).filter (fun x => (data x).tickInserted < T) = [] := by
        refine List.filter_eq_nil_iff.2 fun x hx => ?_
        rw [hall x hx]
        simp
      have hkeep : (c :: q).filter (fun x => (data x).tickInserted = T) = c :: q :=
        List.filter_eq_self.2 fun x hx => decide_eq_true (hall x hx)
      rw [hnone, hkeep]
      rfl

namespace Ordered

variable (h : Ordered T cands s)
include h

/-- If all candidates from before the current tick have a second chance, they lose it, and the search ends at
the first candidate. -/
theorem search_tied (hvalid : ∀ c ∈ cands, isInvalid s.data c = false)
    (hold : ∀ c ∈ s.queue, (s.data c).tickInserted < T → (s.data c).hasSecondChance = true) :
    ∃ v data', cands.head? = some v ∧ getVictim T s.data cands = some (v, data') ∧
      (∀ c ∈ s.queue, (data' c).tickInserted = T) ∧ ∀ c, (data' c).hasSecondChance = ((s.data c).hasSecondChance &&
        c ∉ (s.queue.filter fun c => (s.data c).tickInserted < T) && c ≠ v) := by
  have hsplit := split_ticks h.sorted fun c hc => (h.positive c hc).2
  obtain ⟨old, hOld⟩ : ∃ old, old = s.queue.filter fun c => (s.data c).tickInserted < T := ⟨_, rfl⟩
  rw [← hOld] at hsplit ⊢
  have hmemOld : ∀ c, c ∈ old ↔ c ∈ s.queue ∧ (s.data c).tickInserted < T := by
    intro c
    rw [hOld, List.mem_filter, decide_eq_true_eq]
  have hqueue : ∀ c, c ∈ cands ↔ c ∈ s.queue := by
    intro c
    rw [h.valid]
    exact ⟨fun hc => ⟨hc, hvalid c hc⟩, fun hc => hc.1⟩
  have hcands : ∀ c, c ∈ cands ↔ c ∈ old ++ s.queue.filter fun c => (s.data c).tickInserted = T := by
    intro c
    rw [hqueue, ← hsplit]
  have hnone : cands.find? (isInvalid s.data) = none := List.find?_eq_none.2 fun c hc => by
    rw [hvalid c hc]
    exact Bool.false_ne_true
  have hticks : ∀ c ∈ s.queue, (refreshed T old s.data c).tickInserted = T := by
    intro c hc
    by_cases hco : c ∈ old
    · rw [refreshed_mem hco]
    · have hlt : ¬ (s.data c).tickInserted < T := fun hlt => hco ((hmemOld c).2 ⟨hc, hlt⟩)
      have hle := (h.positive c hc).2
      rw [refreshed_not_mem hco]
      omega
  obtain ⟨v, hv⟩ : ∃ v, cands.head? = some v := by
    cases hc : cands with
    | nil => exact absurd hc h.nonempty
    | cons c cs => exact ⟨c, rfl⟩
  have hvq : v ∈ s.queue := (hqueue v).1 (List.mem_of_mem_head? hv)
  have hfifo : fifoVictim (refreshed T old s.data) cands = some v := by
    rw [fifo_tied fun c hc => hticks c ((hqueue c).1 hc), hv]
  have hlenOld : old.length ≤ s.queue.length := by
    rw [hOld]
    exact List.length_filter_le _ _
  have hlen := h.length_le
  have hfront : ∀ k, searchVictim T cands (old.length + k) s.data =
      searchVictim T cands k (refreshed T old s.data) := by
    intro k
    refine search_front _ hcands (hsplit ▸ h.queue) (hsplit ▸ h.sorted) fun c hc => ?_
    obtain ⟨hcq, hlt⟩ := (hmemOld c).1 hc
    exact ⟨hlt, hold c hcq hlt⟩
  unfold getVictim
  rw [hnone]
  show ∃ v' data', _ ∧ searchVictim T cands (cands.length + 1) s.data = _ ∧ _
  cases hsc : (refreshed T old s.data v).hasSecondChance with
  | false =>
    have hfuel : cands.length + 1 = old.length + (cands.length - old.length + 1) := by omega
    refine ⟨v, _, hv, ?_, hticks, fun c => ?_⟩
    · rw [hfuel, hfront]
      exact search_hit hfifo hsc
    · by_cases hco : c ∈ old
      · rw [refreshed_mem hco]
        simp [hco]
      · rw [refreshed_not_mem hco]
        by_cases hcv : c = v
        · subst hcv
          rw [refreshed_not_mem hco] at hsc
          rw [hsc]
          rfl
        · simp [hco, hcv]
  | true =>
    have hvOld : v ∉ old := by
      intro hvo
      rw [refreshed_mem hvo] at hsc
      cases hsc
    have hshort : old.length < s.queue.length := by
      rw [hOld]
      refine List.length_filter_lt_length_iff_exists.2 ⟨v, hvq, ?_⟩
      intro hlt
      exact hvOld ((hmemOld v).2 ⟨hvq, of_decide_eq_true hlt⟩)
    have hfuel : cands.length + 1 = old.length + (cands.length - old.length - 1 + 1 + 1) := by omega
    have hticks' : ∀ c ∈ s.queue, (useSecondChance T (refreshed T old s.data) v c).tickInserted = T := by
      intro c hc
      by_cases hcv : c = v
      · rw [hcv, use_self]
      · rw [use_of_ne hcv]
        exact hticks c hc
    refine ⟨v, useSecondChance T (refreshed T old s.data) v, hv, ?_, hticks', fun c => ?_⟩
    · rw [hfuel, hfront, search_again hfifo hsc]
      refine search_hit ?_ (by rw [use_self])
      rw [fifo_tied fun c hc => hticks' c ((hqueue c).1 hc), hv]
    · by_cases hcv : c = v
      · rw [hcv, use_self]
        simp
      · rw [use_of_ne hcv]
        by_cases hco : c ∈ old
        · rw [refreshed_mem hco]
          simp [hco]
        · rw [refreshed_not_mem hco]
          simp [hco, hcv]

end Ordered

theorem call_cases (T : Nat) (cands : List ι) (s : Sys ι) :
    (∃ v, v ∈ cands ∧ isInvalid s.data v = true ∧ getVictim T s.data cands = some (v, s.data)) ∨
    ((∀ c ∈ cands, isInvalid s.data c = false) ∧
      ((∃ c ∈ s.queue, (s.data c).tickInserted < T ∧ (s.data c).hasSecondChance = false) ∨
        ∀ c ∈ s.queue, (s.data c).tickInserted < T → (s.data c).hasSecondChance = true)) := by
  cases hfind : cands.find? (isInvalid s.data) with
  | some v =>
    left
    refine ⟨v, List.mem_of_find?_eq_some hfind, List.find?_some hfind, ?_⟩
    unfold getVictim
    rw [hfind]
  | none =>
    right
    refine ⟨fun c hc => Bool.eq_false_iff.2 (List.find?_eq_none.1 hfind c hc), ?_⟩
    by_cases hold : ∃ c ∈ s.queue, (s.data c).tickInserted < T ∧ (s.data c).hasSecondChance = false
    · exact .inl hold
    · right
      intro c hc hlt
      by_contra hsc
      exact hold ⟨c, hc, hlt, Bool.eq_false_iff.2 hsc⟩

/-- The algorithm takes the first without a second chance, and those before it lose theirs. -/
theorem follows_old {pre : List ι} (hq : s.queue = pre ++ v :: rest)
    (hpre : ∀ c ∈ pre, (s.data c).hasSecondChance = true) (hv : (s.data v).hasSecondChance = false)
    (hvalid : ∀ c ∈ cands, isInvalid s.data c = false) : Follows cands s v (refreshed T pre s.data) := by
  have htake : s.queue.takeWhile (fun c => (s.data c).hasSecondChance) = pre := by
    rw [hq, List.takeWhile_append_of_pos hpre, List.takeWhile_cons_of_neg (by simp [hv]), List.append_nil]
  refine ⟨fun ⟨c, hc, hi⟩ => ?_, fun _ => ?_, fun _ c => ?_⟩
  · rw [hvalid c hc] at hi
    cases hi
  · have hnone : pre.find? (fun c => !(s.data c).hasSecondChance) = none :=
      List.find?_eq_none.2 fun c hc => by
      rw [hpre c hc]
      exact Bool.false_ne_true
    rw [hq, List.find?_append, hnone, Option.none_or, List.find?_cons_of_pos (by simp [hv]), Option.some_or]
  · rw [htake]
    by_cases hc : c ∈ pre
    · rw [refreshed_mem hc]
      simp [hc]
    · rw [refreshed_not_mem hc]
      simp [hc]

/-! ### The search ends at the current tick -/

/-- The candidates from before the current tick have lost their second chance, and so has the victim. -/
structure Tied (cands : List ι) (s : Sys ι) (v : ι) (data' : Data ι) (old new : List ι) : Prop where
  valid : ∀ c ∈ cands, isInvalid s.data c = false
  queue : s.queue = old ++ new
  nodup : s.queue.Nodup
  chance : ∀ c ∈ old, (s.data c).hasSecondChance = true
  victim : v ∈ s.queue
  result : ∀ c, (data' c).hasSecondChance = ((s.data c).hasSecondChance && c ∉ old && c ≠ v)

namespace Tied

variable {old new rest : List ι} {g : ι}

theorem no_invalid (h : Tied cands s v data' old new) : ¬ ∃ c ∈ cands, isInvalid s.data c = true := by
  rintro ⟨c, hc, hi⟩
  rw [h.valid c hc] at hi
  cases hi

theorem find_old (h : Tied cands s v data' old new) :
    s.queue.find? (fun c => !(s.data c).hasSecondChance) = new.find? fun c => !(s.data c).hasSecondChance := by
  have hnone : old.find? (fun c => !(s.data c).hasSecondChance) = none :=
    List.find?_eq_none.2 fun c hc => by
    rw [h.chance c hc]
    exact Bool.false_ne_true
  rw [h.queue, List.find?_append, hnone, Option.none_or]

theorem takeWhile_old (h : Tied cands s v data' old new) : s.queue.takeWhile (fun c => (s.data c).hasSecondChance) =
      old ++ new.takeWhile fun c => (s.data c).hasSecondChance := by
  rw [h.queue, List.takeWhile_append_of_pos h.chance]

theorem old_eq_nil (h : Tied cands s v data' old (g :: rest)) (hhead : s.queue.head? = some g) : old = [] := by
  have hnodup := h.nodup
  rw [h.queue] at hhead hnodup
  cases old with
  | nil => rfl
  | cons f old =>
    cases hhead
    exact absurd rfl ((List.nodup_append.1 hnodup).2.2 g List.mem_cons_self g List.mem_cons_self)

/-- All lose their second chance. -/
theorem follows_none (h : Tied cands s v data' old []) : Follows cands s v data' ↔ s.queue.head? = some v := by
  have hfind := h.find_old
  have htake := h.takeWhile_old
  have hqueue := h.queue
  rw [List.append_nil] at hqueue
  rw [List.takeWhile_nil, List.append_nil] at htake
  constructor
  · intro hf
    have hvictim := hf.victim h.valid
    rwa [hfind, List.find?_nil, Option.none_or] at hvictim
  · intro hhead
    refine ⟨fun hi => absurd hi h.no_invalid, fun _ => ?_, fun _ c => ?_⟩
    · rwa [hfind, List.find?_nil, Option.none_or]
    · rw [h.result, htake]
      by_cases hcv : c = v
      · have hv := h.victim
        rw [hqueue] at hv
        simp [hcv, hv]
      · simp [hcv]

/-- The first of the current tick has no second chance. -/
theorem follows_plain (h : Tied cands s v data' old (g :: rest)) (hg : (s.data g).hasSecondChance = false) :
    Follows cands s v data' ↔ v = g := by
  have hfind : s.queue.find? (fun c => !(s.data c).hasSecondChance) = some g := by
    rw [h.find_old, List.find?_cons_of_pos (by simp [hg])]
  have htake : s.queue.takeWhile (fun c => (s.data c).hasSecondChance) = old := by
    rw [h.takeWhile_old, List.takeWhile_cons_of_neg (by simp [hg]), List.append_nil]
  constructor
  · intro hf
    have hvictim := hf.victim h.valid
    rw [hfind, Option.some_or, Option.some.injEq] at hvictim
    exact hvictim.symm
  · rintro rfl
    refine ⟨fun hi => absurd hi h.no_invalid, fun _ => ?_, fun _ c => ?_⟩
    · rw [hfind, Option.some_or]
    · rw [h.result, htake]
      by_cases hcv : c = v
      · simp [hcv, hg]
      · simp [hcv]

/-- The first of the current tick has a second chance: it loses it only if it is the victim. -/
theorem follows_chance (h : Tied cands s v data' old (g :: rest)) (hg : (s.data g).hasSecondChance = true)
    (hgOld : g ∉ old) : Follows cands s v data' ↔ v = g ∧ s.queue = [g] := by
  constructor
  · intro hf
    have hgTake : g ∈ s.queue.takeWhile fun c => (s.data c).hasSecondChance := by
      rw [h.takeWhile_old, List.takeWhile_cons, hg, if_pos rfl]
      exact List.mem_append_right _ List.mem_cons_self
    have hvg : v = g := by
      have hlost := hf.chances h.valid g
      rw [h.result g, hg] at hlost
      by_contra hne
      simp [hgOld, Ne.symm hne, hgTake] at hlost
    subst hvg
    have hnone : s.queue.find? (fun c => !(s.data c).hasSecondChance) = none := by
      cases hfind : s.queue.find? fun c => !(s.data c).hasSecondChance with
      | none => rfl
      | some w =>
        have hvictim := hf.victim h.valid
        rw [hfind, Option.some_or, Option.some.injEq] at hvictim
        have hw := List.find?_some hfind
        rw [hvictim, hg] at hw
        cases hw
    have hvictim := hf.victim h.valid
    rw [hnone, Option.none_or] at hvictim
    have hnil := h.old_eq_nil hvictim
    have hqueue := h.queue
    rw [hnil, List.nil_append] at hqueue
    refine ⟨rfl, ?_⟩
    have hall : ∀ c ∈ s.queue, (s.data c).hasSecondChance = true := by
      intro c hc
      have hfalse := List.find?_eq_none.1 hnone c hc
      simpa using hfalse
    -- any other candidate would have to lose its second chance as well
    cases rest with
    | nil => exact hqueue
    | cons w rest =>
      have hw : w ∈ s.queue := by
        rw [hqueue]
        exact List.mem_cons_of_mem _ List.mem_cons_self
      have hwv : w ≠ v := by
        have hnodup := h.nodup
        rw [hqueue] at hnodup
        rintro rfl
        exact (List.nodup_cons.1 hnodup).1 List.mem_cons_self
      have hlost := hf.chances h.valid w
      rw [h.result w, List.takeWhile_eq_self_iff.2 hall, hall w hw, hnil] at hlost
      simp [hwv, hw] at hlost
  · rintro ⟨rfl, hone⟩
    have hnil := h.old_eq_nil (by rw [hone]; rfl)
    refine ⟨fun hi => absurd hi h.no_invalid, fun _ => ?_, fun _ c => ?_⟩
    · rw [hone]
      simp [hg]
    · rw [h.result, hone, hnil]
      by_cases hcv : c = v
      · simp [hcv, hg]
      · simp [hcv, hg]

end Tied

/-- Where the search ends among the candidates of the current tick. -/
theorem follows_tied (h : Ordered T cands s) (hvalid : ∀ c ∈ cands, isInvalid s.data c = false)
    (hold : ∀ c ∈ s.queue, (s.data c).tickInserted < T → (s.data c).hasSecondChance = true)
    (hv : cands.head? = some v) (hsc : ∀ c, (data' c).hasSecondChance = ((s.data c).hasSecondChance &&
      c ∉ (s.queue.filter fun c => (s.data c).tickInserted < T) && c ≠ v)) :
    Follows cands s v data' ↔ InOrder T cands s := by
  have hvq : v ∈ s.queue := (h.valid v).2 ⟨List.mem_of_mem_head? hv, hvalid v (List.mem_of_mem_head? hv)⟩
  have hchance : ∀ c ∈ s.queue.filter fun c => (s.data c).tickInserted < T,
      (s.data c).hasSecondChance = true := by
    intro c hc
    rw [List.mem_filter, decide_eq_true_eq] at hc
    exact hold c hc.1 hc.2
  have htied : Tied cands s v data' (s.queue.filter fun c => (s.data c).tickInserted < T)
      (s.queue.filter fun c => (s.data c).tickInserted = T) :=
    ⟨hvalid, split_ticks h.sorted fun c hc => (h.positive c hc).2, h.queue, hchance, hvq, hsc⟩
  have hnoOld : ¬ ∃ c ∈ s.queue, (s.data c).tickInserted < T ∧ (s.data c).hasSecondChance = false := by
    rintro ⟨c, hc, hlt, hf⟩
    rw [hold c hc hlt] at hf
    cases hf
  unfold InOrder
  rw [or_iff_right htied.no_invalid, or_iff_right hnoOld, hv]
  cases hnew : s.queue.filter fun c => (s.data c).tickInserted = T with
  | nil =>
    rw [hnew] at htied
    rw [htied.follows_none]
    exact eq_comm
  | cons g rest =>
    have hgOld : g ∉ s.queue.filter fun c => (s.data c).tickInserted < T := by
      have hg : g ∈ s.queue.filter fun c => (s.data c).tickInserted = T := by
        rw [hnew]
        exact List.mem_cons_self
      simp only [List.mem_filter, decide_eq_true_eq] at hg ⊢
      omega
    rw [hnew] at htied
    dsimp only
    rw [Option.some.injEq]
    cases hg : (s.data g).hasSecondChance with
    | false => rw [htied.follows_plain hg, and_iff_left (.inl rfl)]
    | true =>
      rw [htied.follows_chance hg hgOld]
      simp

/-! ## Runs -/

theorem requeue_mem {pre : List ι} (hq : s.queue = pre ++ v :: rest) (hv : v ∉ pre) :
    requeue s.queue v = rest ++ pre ++ [v] := by
  have hpre : ∀ x ∈ pre, decide (x ≠ v) = true := by
    intro x hx
    refine decide_eq_true ?_
    rintro rfl
    exact hv hx
  unfold requeue
  rw [hq, List.dropWhile_append_of_pos hpre, List.takeWhile_append_of_pos hpre,
    List.dropWhile_cons_of_neg (by simp), List.takeWhile_cons_of_neg (by simp), List.append_nil]
  rfl

theorem requeue_not_mem (hv : v ∉ s.queue) : requeue s.queue v = s.queue ++ [v] := by
  have hall : ∀ x ∈ s.queue, decide (x ≠ v) = true := by
    intro x hx
    refine decide_eq_true ?_
    rintro rfl
    exact hv hx
  unfold requeue
  rw [List.dropWhile_eq_nil_iff.2 hall, List.takeWhile_eq_self_iff.2 hall]
  rfl

theorem reset_self (T : Nat) (data : Data ι) (v : ι) : reset T data v v = ⟨T, true⟩ :=
  Function.update_self ..

theorem reset_of_ne {data : Data ι} {c : ι} (h : c ≠ v) : reset T data v c = data c :=
  Function.update_of_ne h ..

theorem Ordered.insert (h : Ordered T cands s) (hv : v ∈ cands) (hi : isInvalid s.data v = true) :
    Ordered T cands ⟨reset T s.data v, requeue s.queue v⟩ := by
  have hvq : v ∉ s.queue := by
    intro hmem
    rw [((h.valid v).1 hmem).2] at hi
    cases hi
  have hsame : ∀ c ∈ s.queue, reset T s.data v c = s.data c := by
    intro c hc
    refine reset_of_ne ?_
    rintro rfl
    exact hvq hc
  rw [requeue_not_mem hvq]
  refine ⟨h.now, h.nonempty, h.nodup, ?_, fun c => ?_, fun c hc => ?_, ?_⟩
  · refine List.nodup_append.2 ⟨h.queue, List.nodup_singleton v, ?_⟩
    rintro c hc c' hc' rfl
    rw [List.mem_singleton.1 hc'] at hc
    exact hvq hc
  · dsimp only
    rw [List.mem_append, List.mem_singleton]
    by_cases hcv : c = v
    · subst hcv
      refine iff_of_true (.inr rfl) ⟨hv, ?_⟩
      unfold isInvalid
      rw [reset_self]
      simp
    · unfold isInvalid
      rw [or_iff_left hcv, reset_of_ne hcv, h.valid]
      rfl
  · dsimp only at hc ⊢
    rcases List.mem_append.1 hc with hc | hc
    · rw [hsame c hc]
      exact h.positive c hc
    · rw [List.mem_singleton.1 hc, reset_self]
      exact ⟨h.now, Nat.le_refl T⟩
  · refine List.pairwise_append.2 ⟨?_, List.pairwise_singleton _ _, fun c _ c' hc' => .inr ?_⟩
    · refine List.Pairwise.imp_of_mem (fun hc hc' hrel => ?_) h.sorted
      dsimp only
      rwa [hsame _ hc, hsame _ hc']
    · dsimp only
      rw [List.mem_singleton.1 hc', reset_self]

/-- A candidate of the queue is taken and inserted again. -/
theorem Ordered.reinsert (h : Ordered T cands s) (hvalid : ∀ c ∈ cands, isInvalid s.data c = false)
    {pre : List ι} (hq : s.queue = pre ++ v :: rest)
    (hpos : ∀ c ∈ s.queue, 0 < (data' c).tickInserted ∧ (data' c).tickInserted ≤ T)
    (hsorted : Sorted T data' rest) (hpre : ∀ c ∈ pre, (data' c).tickInserted = T) :
    Ordered T cands ⟨reset T data' v, requeue s.queue v⟩ := by
  have hnodup : (pre ++ v :: rest).Nodup := hq ▸ h.queue
  have hvpre : v ∉ pre := fun hv => (List.nodup_append.1 hnodup).2.2 v hv v List.mem_cons_self rfl
  have hvrest : v ∉ rest := (List.nodup_cons.1 (List.nodup_append.1 hnodup).2.1).1
  have hperm : (rest ++ pre ++ [v]).Perm s.queue := by
    rw [hq]
    exact (List.perm_append_singleton v _).trans
      ((List.perm_append_comm.cons v).trans List.perm_middle.symm)
  have hpos' : ∀ c ∈ s.queue,
      0 < (reset T data' v c).tickInserted ∧ (reset T data' v c).tickInserted ≤ T := by
    intro c hc
    by_cases hcv : c = v
    · rw [hcv, reset_self]
      exact ⟨h.now, Nat.le_refl T⟩
    · rw [reset_of_ne hcv]
      exact hpos c hc
  rw [requeue_mem hq hvpre]
  refine ⟨h.now, h.nonempty, h.nodup, hperm.nodup_iff.2 h.queue, fun c => ?_, fun c hc => ?_, ?_⟩
  · dsimp only
    rw [hperm.mem_iff]
    constructor
    · intro hc
      have hp := (hpos' c hc).1
      refine ⟨((h.valid c).1 hc).1, ?_⟩
      unfold isInvalid
      rw [decide_eq_false (by omega)]
      rfl
    · intro hc
      exact (h.valid c).2 ⟨hc.1, hvalid c hc.1⟩
  · exact hpos' c (hperm.subset hc)
  · rw [List.append_assoc]
    refine List.pairwise_append.2 ⟨?_, List.pairwise_of_forall_mem_list fun c _ c' hc' => .inr ?_,
      fun c _ c' hc' => .inr ?_⟩
    · refine List.Pairwise.imp_of_mem (fun {c c'} hc hc' hrel => ?_) hsorted
      dsimp only
      rwa [reset_of_ne (ne_of_mem_of_not_mem hc hvrest), reset_of_ne (ne_of_mem_of_not_mem hc' hvrest)]
    all_goals
      dsimp only
      rcases List.mem_append.1 hc' with hc' | hc'
      · rw [reset_of_ne (ne_of_mem_of_not_mem hc' hvpre), hpre c' hc']
      · rw [List.mem_singleton.1 hc', reset_self]

/-- **A call returns, follows the algorithm exactly if it is in order, and keeps the invariant then.** -/
theorem call_spec (h : Ordered T cands s) : ∃ v data', getVictim T s.data cands = some (v, data') ∧
    (Follows cands s v data' ↔ InOrder T cands s) ∧ Ordered T cands ⟨reset T data' v, requeue s.queue v⟩ := by
  rcases call_cases T cands s with ⟨v, hv, hi, hcall⟩ | ⟨hvalid, hold | hold⟩
  · refine ⟨v, s.data, hcall, iff_of_true ?_ (.inl ⟨v, hv, hi⟩), h.insert hv hi⟩
    have hnot : ¬ ∀ c ∈ cands, isInvalid s.data c = false := by
      intro hall
      rw [hall v hv] at hi
      cases hi
    exact ⟨fun _ => ⟨hv, hi, rfl⟩, fun hall => absurd hall hnot, fun hall => absurd hall hnot⟩
  · obtain ⟨pre, v, rest, hq, hpre, hvsc, hcall⟩ := h.search_old hvalid hold
    refine ⟨v, _, hcall, iff_of_true (follows_old hq hpre hvsc hvalid) (.inr (.inl hold)), ?_⟩
    have hnodup : (pre ++ v :: rest).Nodup := hq ▸ h.queue
    refine h.reinsert hvalid hq (fun c hc => ?_) ?_ fun c hc => by rw [refreshed_mem hc]
    · by_cases hcp : c ∈ pre
      · rw [refreshed_mem hcp]
        exact ⟨h.now, Nat.le_refl T⟩
      · rw [refreshed_not_mem hcp]
        exact h.positive c hc
    · have hrest := (List.pairwise_append.1 (hq ▸ h.sorted : Sorted T s.data (pre ++ v :: rest))).2.1.of_cons
      have hout : ∀ c ∈ rest, c ∉ pre := fun c hc hcp =>
        (List.nodup_append.1 hnodup).2.2 c hcp c (List.mem_cons_of_mem _ hc) rfl
      refine List.Pairwise.imp_of_mem (fun hc hc' hrel => ?_) hrest
      rwa [refreshed_not_mem (hout _ hc), refreshed_not_mem (hout _ hc')]
  · obtain ⟨v, data', hv, hcall, hticks, hsc⟩ := h.search_tied hvalid hold
    refine ⟨v, data', hcall, follows_tied h hvalid hold hv hsc, ?_⟩
    have hvq : v ∈ s.queue := (h.valid v).2 ⟨List.mem_of_mem_head? hv, hvalid v (List.mem_of_mem_head? hv)⟩
    obtain ⟨pre, rest, hq⟩ := List.append_of_mem hvq
    have hmem : ∀ c ∈ rest, c ∈ s.queue := fun c hc => by
      rw [hq]
      exact List.mem_append_right _ (List.mem_cons_of_mem _ hc)
    refine h.reinsert hvalid hq (fun c hc => ?_) ?_ fun c hc => ?_
    · rw [hticks c hc]
      exact ⟨h.now, Nat.le_refl T⟩
    · exact List.pairwise_of_forall_mem_list fun c _ c' hc' => .inr (hticks c' (hmem c' hc'))
    · refine hticks c ?_
      rw [hq]
      exact List.mem_append_left _ hc

/-- **When second-chance replacement follows the second-chance algorithm.**  From candidates inserted at
distinct positive ticks, in every run of calls at one tick, each of which was in order, the next call returns,
and it follows the algorithm on the queue if and only if it is in order. -/
theorem getVictim_follows_iff {T : Nat} {cands : List ι} {s₀ s : Sys ι} (h₀ : Inserted T cands s₀)
    (h : Run.Reaches (step T cands) (fun s _ => InOrder T cands s) s₀ s) :
    ∃ v data', getVictim T s.data cands = some (v, data') ∧ (Follows cands s v data' ↔ InOrder T cands s) := by
  have hs : Ordered T cands s := by
    refine h.inv h₀.ordered fun t _ t' ht _ hstep => ?_
    obtain ⟨v, data', hcall, -, hnext⟩ := call_spec ht
    unfold step at hstep
    rw [hcall] at hstep
    cases hstep
    exact hnext
  obtain ⟨v, data', hcall, hfollows, -⟩ := call_spec hs
  exact ⟨v, data', hcall, hfollows⟩

local instance neZeroTwo : NeZero 2 := ⟨two_ne_zero⟩
local instance neZeroThree : NeZero 3 := ⟨three_ne_zero⟩

/-- Three candidates; the one in the middle has no second chance. -/
def threeEntries : Sys (Fin 3) := ⟨fun c => ⟨c + 1, c ≠ 1⟩, [0, 1, 2]⟩

/-- The first call at tick 4 takes candidate 1, the second candidate 0, which has used its second chance. -/
theorem getVictim_follows_three : Inserted 4 [0, 1, 2] threeEntries ∧
    ∃ s, step 4 [0, 1, 2] threeEntries () = some s ∧ s.queue = [2, 0, 1] ∧
      ∃ data', getVictim 4 s.data [0, 1, 2] = some (0, data') ∧ Follows [0, 1, 2] s 0 data' := by
  have h : Inserted 4 [0, 1, 2] threeEntries := by
    refine ⟨by decide, by decide, by decide, by decide, by decide, by decide⟩
  have hrun := (Run.Reaches.refl : Run.Reaches (step 4 [0, 1, 2]) (fun s _ => InOrder 4 [0, 1, 2] s) threeEntries _).step
    (i := ()) (.inr (.inl ⟨1, by decide, by decide, rfl⟩)) rfl
  obtain ⟨v, data', hv, hfollows⟩ := getVictim_follows_iff h hrun
  obtain rfl : 0 = v := congrArg Prod.fst (Option.some.inj hv)
  exact ⟨h, _, rfl, by decide, data', hv, hfollows.2 (.inr (.inr ⟨rfl, .inl rfl⟩))⟩

/-- Two candidates with second chances; the second of them was inserted first. -/
def swapped : Sys (Fin 2) := ⟨fun c => if c = 0 then ⟨2, true⟩ else ⟨1, true⟩, [1, 0]⟩

/-- **The first candidate is evicted, not the one inserted first:** both use their second chance at tick 3,
and the scan breaks the tie by the position. -/
theorem tie_by_position : Inserted 3 [0, 1] swapped ∧
    (getVictim 3 swapped.data [0, 1]).map Prod.fst = some 0 ∧ swapped.queue.head? = some 1 ∧
    ∀ data', ¬ Follows [0, 1] swapped 0 data' := by
  refine ⟨⟨by decide, by decide, by decide, by decide, by decide, by decide⟩, by decide, rfl, ?_⟩
  intro data' h
  have hv := h.victim (by decide)
  have hone : ((swapped.queue.find? fun c => !(swapped.data c).hasSecondChance).or
      swapped.queue.head?) = some 1 := by
    decide
  rw [hone] at hv
  cases hv

end Alpine.Mem.SecondChance
