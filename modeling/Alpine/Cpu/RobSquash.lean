import Alpine.Cpu.Rob

/-!
# Squashes in the reorder buffer (`cpu/o3/rob_impl.hh`)

A squash of a thread walks its list from the tail over several cycles, and may be started again on the way.

* `squashLoop_spec`, `doSquash_spec` — what one cycle of the walk does.
* `Squashing` — the states of a squash that is under way; `Walk` — their invariant.
* `squash_marks` — from each of them the walk ends, and it has then marked the younger instructions and
  changed no other.
-/

namespace Alpine.Cpu.Rob

variable {n : Nat}

/-! ## The loop -/

theorem prev_append {l pre post : List Nat} {p : Nat} (hl : l = pre ++ p :: post)
    (hsorted : l.Pairwise (· < ·)) : prev l p = pre.getLast? := by
  subst hl
  have hpre : ∀ a ∈ pre, a ≠ p := fun a ha =>
    Nat.ne_of_lt ((List.pairwise_append.1 hsorted).2.2 a ha p List.mem_cons_self)
  unfold prev
  rw [List.takeWhile_append_of_pos (by simpa using hpre)]
  simp

theorem head?_eq_some_iff_nil {pre post : List Nat} {p : Nat}
    (hsorted : (pre ++ p :: post).Pairwise (· < ·)) : (pre ++ p :: post).head? = some p ↔ pre = [] := by
  cases pre with
  | nil => simp
  | cons a pre =>
    have hlt : a < p := (List.pairwise_append.1 hsorted).2.2 a List.mem_cons_self p List.mem_cons_self
    simp only [List.cons_append, List.head?_cons, Option.some.injEq, reduceCtorEq, iff_false]
    omega

def mark (x : DynInst) : DynInst := x.setSquashed.setCanCommit

@[simp] theorem mark_mark (x : DynInst) : mark (mark x) = mark x := rfl

/-- The instructions of the list are marked. -/
def markIn (list : List Nat) (insts : Nat → DynInst) (i : Nat) : DynInst :=
  if i ∈ list then mark (insts i) else insts i

@[simp] theorem markIn_nil (insts : Nat → DynInst) : markIn [] insts = insts := by
  funext i
  simp [markIn]

theorem markIn_update (list : List Nat) (insts : Nat → DynInst) (p : Nat) :
    markIn list (Function.update insts p (mark (insts p))) = markIn (list ++ [p]) insts := by
  funext i
  by_cases hip : i = p
  · subst hip
    simp [markIn]
  · simp [markIn, hip]

open ROB in
/-- **The loop of `doSquash`** from instruction `p`: it marks what it passes, and ends at the head or at an
instruction that it has not passed, either because it is old enough or because the width is used up. -/
theorem squashLoop_spec {list : List Nat} {num : Nat} (hsorted : list.Pairwise (· < ·)) :
    ∀ (k : Nat) {pre post : List Nat} {p : Nat} (tailUpdate : Bool) (insts : Nat → DynInst), list = pre ++ p :: post →
    (squashLoop list num k (some p) tailUpdate insts = (markIn (pre ++ [p]) insts, .head) ∧
        ∀ i ∈ pre ++ [p], num < i) ∨ ∃ pre' q post' upd, squashLoop list num k (some p) tailUpdate insts =
          (markIn post' insts, .at (some q) upd) ∧
        pre ++ [p] = pre' ++ q :: post' ∧ (∀ i ∈ post', num < i) ∧ (q ≤ num ∨ post'.length = k) := by
  intro k
  induction k with
  | zero =>
    intro pre post p tailUpdate insts _
    exact .inr ⟨pre, p, [], tailUpdate, by simp [squashLoop], rfl, by simp, .inr rfl⟩
  | succ k ih =>
    intro pre post p tailUpdate insts hl
    unfold squashLoop
    by_cases hp : p > num
    · rw [if_pos hp]
      by_cases hhead : list.head? = some p
      · -- the head of the list
        have hnil : pre = [] := (head?_eq_some_iff_nil (hl ▸ hsorted)).1 (hl ▸ hhead)
        subst hnil
        refine .inl ⟨?_, by simpa using hp⟩
        simp only [hhead, if_true, List.nil_append]
        have := markIn_update [] insts p
        simpa [mark] using this
      · have hne : pre ≠ [] := fun hnil => hhead (hl ▸ (head?_eq_some_iff_nil (hl ▸ hsorted)).2 hnil)
        obtain ⟨front, r, rfl⟩ := List.eq_nil_or_concat pre |>.resolve_left hne
        have hprev : prev list p = some r := by
          rw [prev_append hl hsorted]
          simp
        simp only [hhead, if_false, hprev]
        have hlist : list = front ++ r :: p :: post := by simp [hl]
        have hmark : ∀ l : List Nat,
            markIn l (Function.update insts p (insts p).setSquashed.setCanCommit) = markIn (l ++ [p]) insts :=
          fun l => markIn_update l insts p
        rcases ih (tailUpdate || list.getLast? = some p)
            (Function.update insts p (insts p).setSquashed.setCanCommit) hlist with
          ⟨hrun, hall⟩ | ⟨pre', q, post', upd, hrun, hsplit, hall, hend⟩
        · left
          rw [hrun, hmark]
          refine ⟨by simp, fun i hi => ?_⟩
          rcases List.mem_append.1 hi with hi | hi
          · exact hall i (by simpa using hi)
          · simp only [List.mem_singleton] at hi
            exact hi ▸ hp
        · right
          refine ⟨pre', q, post' ++ [p], upd, ?_, ?_, ?_, ?_⟩
          · rw [hrun, hmark]
          · simp [hsplit]
          · intro i hi
            rcases List.mem_append.1 hi with hi | hi
            · exact hall i hi
            · simp only [List.mem_singleton] at hi
              exact hi ▸ hp
          · rcases hend with hq | hlen
            · exact .inl hq
            · exact .inr (by simp [hlen])
    · rw [if_neg hp]
      exact .inr ⟨pre, p, [], tailUpdate, by simp, rfl, by simp, .inl (Nat.le_of_not_lt hp)⟩

/-! ## One cycle -/

/-- Only the squash state of the thread, the marks and the tail are different. -/
structure Frame (s : ROB n) (tid : Fin n) (s' : ROB n) : Prop where
  rest : s' = { s with
    tail := s'.tail, robStatus := s'.robStatus, squashIt := s'.squashIt
    squashedSeqNum := s'.squashedSeqNum, doneSquashing := s'.doneSquashing, insts := s'.insts }
  others : ∀ u, u ≠ tid → s'.robStatus u = s.robStatus u ∧ s'.squashIt u = s.squashIt u ∧
    s'.squashedSeqNum u = s.squashedSeqNum u ∧ s'.doneSquashing u = s.doneSquashing u

theorem Frame.refl (s : ROB n) (tid : Fin n) : Frame s tid s := ⟨rfl, fun _ _ => ⟨rfl, rfl, rfl, rfl⟩⟩

variable {tid : Fin n}

theorem Frame.trans {s s' s'' : ROB n} (h : Frame s tid s') (h' : Frame s' tid s'') : Frame s tid s'' := by
  refine ⟨?_, fun u hu => ?_⟩
  · rw [h'.rest, h.rest]
  · obtain ⟨h1, h2, h3, h4⟩ := h.others u hu
    obtain ⟨h₁', h₂', h₃', h₄'⟩ := h'.others u hu
    exact ⟨h₁'.trans h1, h₂'.trans h2, h₃'.trans h3, h₄'.trans h4⟩

theorem Frame.instList {s s' : ROB n} (h : Frame s tid s') : s'.instList = s.instList := by
  rw [h.rest]

theorem Frame.threadEntries {s s' : ROB n} (h : Frame s tid s') : s'.threadEntries = s.threadEntries := by
  rw [h.rest]

theorem Frame.squashWidth {s s' : ROB n} (h : Frame s tid s') : s'.squashWidth = s.squashWidth := by
  rw [h.rest]

/-- The walk of the thread is at instruction `p` of its list. -/
structure At (s : ROB n) (tid : Fin n) (pre : List Nat) (p : Nat) (post : List Nat) :
    Prop where
  list : s.instList tid = pre ++ p :: post
  it : s.squashIt tid = some p
  walking : s.doneSquashing tid = false

/-- How one cycle leaves the walk that was at `p`, with `pre` in front of it. -/
inductive Cycle (s : ROB n) (tid : Fin n) (pre : List Nat) (p : Nat) (post : List Nat)
    (s' : ROB n) : Prop where
  | done (hdone : s'.doneSquashing tid = true)
      (hinsts : s'.insts = markIn ((pre ++ [p]).filter (s.squashedSeqNum tid < ·)) s.insts)
  | walking (pre' : List Nat) (q : Nat) (passed : List Nat)
      (hat : At s' tid pre' q (passed ++ post)) (hsplit : pre ++ [p] = pre' ++ q :: passed)
      (hpassed : ∀ i ∈ passed, s.squashedSeqNum tid < i) (hinsts : s'.insts = markIn passed s.insts)
      (hlen : passed.length = s.squashWidth)

theorem frame_endSquash (s : ROB n) (tid : Fin n) (insts : Nat → DynInst) :
    Frame s tid ({ s with insts }.endSquash tid) :=
  ⟨rfl, fun u hu => by simp [ROB.endSquash, hu]⟩

theorem frame_updateTail {s s' : ROB n} (h : Frame s tid s') : Frame s tid s'.updateTail :=
  h.trans ⟨rfl, fun _ _ => ⟨rfl, rfl, rfl, rfl⟩⟩

theorem filter_lt_eq_nil {l : List Nat} {num : Nat} (h : ∀ i ∈ l, i ≤ num) : l.filter (num < ·) = [] := by
  rw [List.filter_eq_nil_iff]
  intro i hi
  simpa using h i hi

theorem filter_lt_eq_self {l : List Nat} {num : Nat} (h : ∀ i ∈ l, num < i) : l.filter (num < ·) = l := by
  rw [List.filter_eq_self]
  intro i hi
  simpa using h i hi

theorem le_of_split {pre post : List Nat} {p num : Nat}
    (hsorted : (pre ++ p :: post).Pairwise (· < ·)) (hp : p ≤ num) : ∀ i ∈ pre ++ [p], i ≤ num := by
  intro i hi
  rcases List.mem_append.1 hi with hi | hi
  · exact ((List.pairwise_append.1 hsorted).2.2 i hi p List.mem_cons_self).le.trans hp
  · simp only [List.mem_singleton] at hi
    exact hi ▸ hp

/-- **One cycle of the walk.** -/
theorem doSquash_spec {s : ROB n} {tid : Fin n} (hsorted : (s.instList tid).Pairwise (· < ·))
    {pre post : List Nat} {p : Nat} (h : At s tid pre p post) :
    ∃ s', s.doSquash tid = some s' ∧ Frame s tid s' ∧ Cycle s tid pre p post s' := by
  have hl := h.list
  have hpre : (pre ++ p :: post).Pairwise (· < ·) := hl ▸ hsorted
  unfold ROB.doSquash
  rw [h.it]
  dsimp only
  by_cases hlow : p < s.squashedSeqNum tid
  · rw [if_pos hlow]
    refine ⟨_, rfl, frame_endSquash s tid s.insts, .done (by simp [ROB.endSquash]) ?_⟩
    rw [filter_lt_eq_nil (le_of_split hpre hlow.le)]
    simp [ROB.endSquash]
  rw [if_neg hlow]
  rcases @squashLoop_spec _ (s.squashedSeqNum tid) hsorted s.squashWidth _ _ _ false s.insts hl with
    ⟨hrun, hall⟩ | ⟨pre', q, passed, upd, hrun, hsplit, hall, hend⟩
  · -- the walk has reached the head
    simp only [hrun]
    refine ⟨_, rfl, frame_endSquash s tid _, .done (by simp [ROB.endSquash]) ?_⟩
    rw [filter_lt_eq_self hall]
    simp [ROB.endSquash]
  · simp only [hrun]
    have hlist : pre ++ p :: post = pre' ++ q :: (passed ++ post) := by
      have : pre ++ p :: post = (pre ++ [p]) ++ post := by simp
      rw [this, hsplit]
      simp
    by_cases hq : q ≤ s.squashedSeqNum tid
    · -- the rest is old enough
      have hkept : (pre ++ [p]).filter (s.squashedSeqNum tid < ·) = passed := by
        have hold := filter_lt_eq_nil (le_of_split (hlist ▸ hpre) hq)
        have : pre' ++ q :: passed = (pre' ++ [q]) ++ passed := by simp
        rw [hsplit, this, List.filter_append, hold, filter_lt_eq_self hall]
        simp
      have hframe : Frame s tid
          (({ s with
              insts := markIn passed s.insts,
              squashIt := Function.update s.squashIt tid (some q) } : ROB n).endSquash tid) :=
        ⟨rfl, fun u hu => by simp [ROB.endSquash, hu]⟩
      rw [if_pos hq]
      cases upd with
      | true =>
        exact ⟨_, rfl, frame_updateTail hframe,
          .done (by simp [ROB.endSquash, ROB.updateTail]) (by simp [hkept, ROB.endSquash, ROB.updateTail])⟩
      | false =>
        exact ⟨_, rfl, hframe, .done (by simp [ROB.endSquash]) (by simp [hkept, ROB.endSquash])⟩
    · -- the width is used up
      rw [if_neg hq]
      have hlen := hend.resolve_left hq
      have hframe : Frame s tid
          { s with insts := markIn passed s.insts, squashIt := Function.update s.squashIt tid (some q) } :=
        ⟨rfl, fun u hu => by simp [hu]⟩
      cases upd with
      | true =>
        exact ⟨_, rfl, frame_updateTail hframe,
          .walking pre' q passed ⟨hl.trans hlist, by simp [ROB.updateTail], h.walking⟩ hsplit hall rfl hlen⟩
      | false =>
        exact ⟨_, rfl, hframe,
          .walking pre' q passed ⟨hl.trans hlist, by simp, h.walking⟩ hsplit hall rfl hlen⟩

/-! ## A whole squash -/

/-- The states of a squash of the thread down to `num`, which began in `s`: after `squash`, after some calls of
`doSquash` while it is not done, and after another `squash` with a smaller number. -/
inductive Squashing (s : ROB n) (tid : Fin n) : Nat → ROB n → Prop where
  | start {num : Nat} {s' : ROB n} : s.squash tid num = some s' → Squashing s tid num s'
  | cycle {num : Nat} {s' s'' : ROB n} : Squashing s tid num s' → s'.doneSquashing tid = false →
      s'.doSquash tid = some s'' → Squashing s tid num s''
  | again {num num' : Nat} {s' s'' : ROB n} : Squashing s tid num s' → num' ≤ num →
      s'.squash tid num' = some s'' → Squashing s tid num' s''

/-- The calls of `doSquash` until the thread is done squashing, with a bound on their number. -/
def finishSquash (tid : Fin n) : Nat → ROB n → Option (ROB n)
  | 0, s => if s.doneSquashing tid then some s else none
  | k + 1, s => if s.doneSquashing tid then some s else (s.doSquash tid).bind (finishSquash tid k)

/-- The instructions of `s` after a complete squash of the thread down to `num`. -/
def squashedTo (s : ROB n) (tid : Fin n) (num : Nat) (i : Nat) : DynInst :=
  if i ∈ s.instList tid ∧ num < i then (s.insts i).setSquashed.setCanCommit else s.insts i

/-- The invariant of a squash down to `num` that began in `s`. -/
structure Walk (s : ROB n) (tid : Fin n) (num : Nat) (s' : ROB n) : Prop where
  frame : Frame s tid s'
  only : ∀ i, s'.insts i = s.insts i ∨ s'.insts i = squashedTo s tid num i
  done : s'.doneSquashing tid = true → s'.insts = squashedTo s tid num
  walking : s'.doneSquashing tid = false → s'.squashedSeqNum tid = num ∧
    ∃ pre p post, At s' tid pre p post ∧ ∀ i ∈ post, s'.insts i = squashedTo s tid num i

section Walk

variable {s s' : ROB n} {tid : Fin n} {num : Nat}

theorem squashedTo_mono {num' : Nat} (h : num' ≤ num) (i : Nat) :
    squashedTo s tid num i = s.insts i ∨ squashedTo s tid num i = squashedTo s tid num' i := by
  unfold squashedTo
  by_cases hi : i ∈ s.instList tid ∧ num < i
  · right
    rw [if_pos hi, if_pos ⟨hi.1, by omega⟩]
  · left
    rw [if_neg hi]

/-- Marking more instructions that are to be marked. -/
theorem only_markIn {insts : Nat → DynInst}
    (h : ∀ i, insts i = s.insts i ∨ insts i = squashedTo s tid num i) {list : List Nat}
    (hlist : ∀ i ∈ list, i ∈ s.instList tid ∧ num < i) (i : Nat) :
    (markIn list insts i = s.insts i ∨ markIn list insts i = squashedTo s tid num i) ∧
      (i ∈ list → markIn list insts i = squashedTo s tid num i) := by
  by_cases hi : i ∈ list
  · have hto : squashedTo s tid num i = mark (s.insts i) := if_pos (hlist i hi)
    have : markIn list insts i = squashedTo s tid num i := by
      rw [hto, markIn, if_pos hi]
      rcases h i with h | h
      · rw [h]
      · rw [h, hto, mark_mark]
    exact ⟨.inr this, fun _ => this⟩
  · rw [markIn, if_neg hi]
    exact ⟨h i, fun h => absurd h hi⟩

/-- One cycle keeps the invariant, and passes as many instructions as the width allows if it does not end. -/
theorem Walk.cycle (hsorted : (s.instList tid).Pairwise (· < ·)) (h : Walk s tid num s')
    {pre post : List Nat} {p : Nat} (hnum : s'.squashedSeqNum tid = num)
    (hat : At s' tid pre p post) (hpost : ∀ i ∈ post, s'.insts i = squashedTo s tid num i) :
    ∃ s'', s'.doSquash tid = some s'' ∧ Walk s tid num s'' ∧
      (s''.doneSquashing tid = false → ∃ pre' q post', At s'' tid pre' q post' ∧
        pre'.length + s.squashWidth = pre.length) := by
  have hsame : s.instList tid = pre ++ p :: post := by rw [← h.frame.instList, hat.list]
  obtain ⟨s'', hrun, hframe, hcycle⟩ := doSquash_spec (h.frame.instList ▸ hsorted) hat
  have hnum'' : s''.squashedSeqNum tid = s'.squashedSeqNum tid := by
    unfold ROB.doSquash at hrun
    rw [hat.it] at hrun
    dsimp only at hrun
    split at hrun
    · cases hrun; rfl
    · split at hrun
      · cases hrun; rfl
      · cases hrun
      · cases hrun
        split <;> split <;> rfl
  refine ⟨s'', hrun, ?_⟩
  cases hcycle with
  | done hdone hinsts =>
    have hmem : ∀ i ∈ (pre ++ [p]).filter (s'.squashedSeqNum tid < ·), i ∈ s.instList tid ∧ num < i := by
      intro i hi
      obtain ⟨hi, hlt⟩ := List.mem_filter.1 hi
      refine ⟨?_, by simpa [hnum] using hlt⟩
      rw [hsame]
      rcases List.mem_append.1 hi with hi | hi
      · exact List.mem_append_left _ hi
      · simp only [List.mem_singleton] at hi
        simp [hi]
    have hmarked := only_markIn h.only hmem
    refine ⟨⟨h.frame.trans hframe, fun i => hinsts ▸ (hmarked i).1, fun _ => ?_, ?_⟩, ?_⟩
    · funext i
      by_cases hi : i ∈ (pre ++ [p]).filter (s'.squashedSeqNum tid < ·)
      · rw [hinsts]
        exact (hmarked i).2 hi
      · rw [hinsts, markIn, if_neg hi]
        by_cases hyoung : i ∈ s.instList tid ∧ num < i
        · refine hpost i ?_
          have hin := hyoung.1
          rw [hsame] at hin
          simp only [List.mem_filter, List.mem_append, List.mem_singleton, hnum, decide_eq_true_eq] at hi
          simp only [List.mem_append, List.mem_cons] at hin
          tauto
        · have hto : squashedTo s tid num i = s.insts i := if_neg hyoung
          rcases h.only i with h | h
          · rw [h, hto]
          · exact h
    · intro hf
      rw [hdone] at hf
      cases hf
    · intro hf
      rw [hdone] at hf
      cases hf
  | walking pre' q passed hat' hsplit hpassed hinsts hlen =>
    have hmem : ∀ i ∈ passed, i ∈ s.instList tid ∧ num < i := by
      intro i hi
      refine ⟨?_, by simpa [hnum] using hpassed i hi⟩
      have hin : i ∈ pre ++ [p] := by simp [hsplit, hi]
      rw [hsame]
      simp only [List.mem_append, List.mem_singleton] at hin
      simp only [List.mem_append, List.mem_cons]
      tauto
    have hmarked := only_markIn h.only hmem
    refine ⟨⟨h.frame.trans hframe, fun i => hinsts ▸ (hmarked i).1, ?_, fun _ => ⟨hnum''.trans hnum, ?_⟩⟩,
      fun _ => ⟨pre', q, passed ++ post, hat', ?_⟩⟩
    · intro hdone
      rw [hat'.walking] at hdone
      cases hdone
    · refine ⟨pre', q, passed ++ post, hat', fun i hi => ?_⟩
      rw [hinsts]
      rcases List.mem_append.1 hi with hi | hi
      · exact (hmarked i).2 hi
      · by_cases hip : i ∈ passed
        · exact (hmarked i).2 hip
        · rw [markIn, if_neg hip]
          exact hpost i hi
    · have := congrArg List.length hsplit
      simp only [List.length_append, List.length_cons, List.length_nil] at this
      rw [← h.frame.squashWidth]
      omega

/-- `squash` starts the walk, or starts it again with a smaller number. -/
theorem Walk.squash (hsorted : (s.instList tid).Pairwise (· < ·))
    (hcount : s.threadEntries tid = (s.instList tid).length)
    (hidle : s.instList tid = [] → s'.doneSquashing tid = true) (hframe : Frame s tid s')
    {num' : Nat} (honly : ∀ i, s'.insts i = s.insts i ∨ s'.insts i = squashedTo s tid num' i) :
    ∃ s'', s'.squash tid num' = some s'' ∧ Walk s tid num' s'' := by
  unfold ROB.squash ROB.isEmpty
  rw [hframe.threadEntries, hcount, hframe.instList]
  by_cases hnil : s.instList tid = []
  · have hto : ∀ i, squashedTo s tid num' i = s.insts i := fun i => if_neg (by simp [hnil])
    have hsame : s'.insts = s.insts := funext fun i => by
      rcases honly i with h | h
      · exact h
      · rw [h, hto]
    refine ⟨s', by simp [hnil], hframe, honly, fun _ => ?_, fun hf => ?_⟩
    · rw [hsame]
      exact (funext hto).symm
    · rw [hidle hnil] at hf
      cases hf
  · obtain ⟨front, p, hl⟩ := List.eq_nil_or_concat (s.instList tid) |>.resolve_left hnil
    have hlen : (s.instList tid).length ≠ 0 := fun h => hnil (List.length_eq_zero_iff.1 h)
    simp only [hlen, decide_false, Bool.false_eq_true, if_false]
    have hlast : (s.instList tid).getLast? = some p := by simp [hl]
    simp only [hlast]
    -- the state in which `squash` calls `doSquash`
    generalize hmid : ({ s' with
        robStatus := Function.update s'.robStatus tid .ROBSquashing
        doneSquashing := Function.update s'.doneSquashing tid false
        squashedSeqNum := Function.update s'.squashedSeqNum tid num'
        squashIt := Function.update s'.squashIt tid (some p) } : ROB n) = mid
    have hmidFrame : Frame s' tid mid := by
      subst hmid
      exact ⟨rfl, fun u hu => by simp [hu]⟩
    have hmidAt : At mid tid front p [] := by
      refine ⟨?_, by simp [← hmid], by simp [← hmid]⟩
      rw [hmidFrame.instList, hframe.instList, hl]
      simp
    have hmidNum : mid.squashedSeqNum tid = num' := by simp [← hmid]
    have hwalk : Walk s tid num' mid := by
      refine ⟨hframe.trans hmidFrame, ?_, fun hf => ?_, fun _ => ⟨hmidNum, front, p, [], hmidAt, by simp⟩⟩
      · rw [← hmid]
        exact honly
      · rw [hmidAt.walking] at hf
        cases hf
    obtain ⟨s'', hrun, hwalk', -⟩ := hwalk.cycle hsorted hmidNum hmidAt (by simp)
    refine ⟨s'', ?_, hwalk'⟩
    rw [← hrun, ← hmid, hframe.rest]

theorem Walk.again (hsorted : (s.instList tid).Pairwise (· < ·))
    (hcount : s.threadEntries tid = (s.instList tid).length) (h : Walk s tid num s') {num' : Nat}
    (hle : num' ≤ num) : ∃ s'', s'.squash tid num' = some s'' ∧ Walk s tid num' s'' := by
  refine Walk.squash hsorted hcount (fun hnil => ?_) h.frame fun i => ?_
  · by_contra hf
    obtain ⟨-, pre, p, post, hat, -⟩ := h.walking (by simpa using hf)
    have := hat.list
    rw [h.frame.instList, hnil] at this
    simp at this
  · rcases h.only i with hi | hi
    · exact .inl hi
    · rcases squashedTo_mono hle i with hto | hto
      · exact .inl (hi.trans hto)
      · exact .inr (hi.trans hto)

theorem Walk.finish (hsorted : (s.instList tid).Pairwise (· < ·)) (hwidth : 0 < s.squashWidth) :
    ∀ (k : Nat) {s' : ROB n}, Walk s tid num s' →
      (s'.doneSquashing tid = false → ∃ pre p post, At s' tid pre p post ∧ pre.length < k) →
      ∃ r, finishSquash tid k s' = some r ∧ r.doneSquashing tid = true ∧ Walk s tid num r := by
  intro k
  induction k with
  | zero =>
    intro s' h hbound
    have hdone : s'.doneSquashing tid = true := by
      by_contra hf
      obtain ⟨pre, p, post, -, hlt⟩ := hbound (by simpa using hf)
      exact absurd hlt (by omega)
    exact ⟨s', by simp [finishSquash, hdone], hdone, h⟩
  | succ k ih =>
    intro s' h hbound
    unfold finishSquash
    cases hf : s'.doneSquashing tid with
    | true => exact ⟨s', by simp, hf, h⟩
    | false =>
      obtain ⟨pre, p, post, hat, hlt⟩ := hbound hf
      obtain ⟨hnum, pre1, p1, post1, hat1, hpost⟩ := h.walking hf
      have hp : p = p1 := by
        have := hat.it.symm.trans hat1.it
        simpa using this
      subst hp
      have hlen : pre1.length = pre.length := by
        have hboth := hat.list.symm.trans hat1.list
        have hs : (pre ++ p :: post).Pairwise (· < ·) := by
          rw [← hat.list, h.frame.instList]
          exact hsorted
        have h1 := prev_append (l := pre ++ p :: post) rfl hs
        have hidx : ∀ {a b : List Nat}, (a ++ p :: b).Pairwise (· < ·) →
            (a ++ p :: b).takeWhile (· ≠ p) = a := by
          intro a b hab
          have ha : ∀ x ∈ a, x ≠ p := fun x hx =>
            Nat.ne_of_lt ((List.pairwise_append.1 hab).2.2 x hx p List.mem_cons_self)
          rw [List.takeWhile_append_of_pos (by simpa using ha)]
          simp
        rw [← hidx hs, hboth, hidx (hboth ▸ hs)]
      obtain ⟨s'', hrun, hwalk, hstep⟩ := h.cycle hsorted hnum hat1 hpost
      simp only [Bool.false_eq_true, if_false, hrun, Option.bind_some]
      refine ih hwalk fun hf'' => ?_
      obtain ⟨pre', q, post', hat', hshort⟩ := hstep hf''
      exact ⟨pre', q, post', hat', by omega⟩

end Walk

theorem Squashing.walk {s s' : ROB n} {tid : Fin n} {num : Nat}
    (hsorted : (s.instList tid).Pairwise (· < ·)) (hcount : s.threadEntries tid = (s.instList tid).length)
    (hidle : s.instList tid = [] → s.doneSquashing tid = true) (h : Squashing s tid num s') : Walk s tid num s' := by
  induction h with
  | start hs =>
    obtain ⟨s'', hs'', hwalk⟩ := Walk.squash hsorted hcount hidle (.refl s tid) (fun _ => .inl rfl)
    cases hs.symm.trans hs''
    exact hwalk
  | cycle _ hf hs ih =>
    obtain ⟨hnum, pre, p, post, hat, hpost⟩ := ih.walking hf
    obtain ⟨s'', hs'', hwalk, -⟩ := ih.cycle hsorted hnum hat hpost
    cases hs.symm.trans hs''
    exact hwalk
  | again _ hle hs ih =>
    obtain ⟨s'', hs'', hwalk⟩ := ih.again hsorted hcount hle
    cases hs.symm.trans hs''
    exact hwalk

theorem Walk.finish_length {s s' : ROB n} {tid : Fin n} {num : Nat}
    (hsorted : (s.instList tid).Pairwise (· < ·)) (hwidth : 0 < s.squashWidth) (h : Walk s tid num s') :
    ∃ r, finishSquash tid (s.instList tid).length s' = some r ∧ r.doneSquashing tid = true ∧
      Frame s tid r ∧ r.insts = squashedTo s tid num := by
  obtain ⟨r, hr, hdone, hwalk⟩ := h.finish hsorted hwidth (s.instList tid).length fun hf => by
    obtain ⟨-, pre, p, post, hat, -⟩ := h.walking hf
    refine ⟨pre, p, post, hat, ?_⟩
    rw [← h.frame.instList, hat.list]
    simp
  exact ⟨r, hr, hdone, hwalk.frame, hwalk.done hdone⟩

/-- **A squash marks exactly the younger instructions.**  For every list in program order and every width, also if the
squash is started again with a smaller number on the way: no call dereferences the end of the list, at most as many
calls of `doSquash` as the list has instructions end it, and then the instructions that are younger than the last number
are squashed and can commit, and all others are as before. -/
theorem squash_marks {s : ROB n} {tid : Fin n} (hsorted : (s.instList tid).Pairwise (· < ·))
    (hwidth : 0 < s.squashWidth) (hcount : s.threadEntries tid = (s.instList tid).length)
    (hidle : s.instList tid = [] → s.doneSquashing tid = true) (num : Nat) : (∃ s', s.squash tid num = some s') ∧
    ∀ s', Squashing s tid num s' → (s'.doneSquashing tid = false → ∃ s'', s'.doSquash tid = some s'') ∧
      (∀ num' ≤ num, ∃ s'', s'.squash tid num' = some s'') ∧
      ∃ r once, finishSquash tid (s.instList tid).length s' = some r ∧
        (s.squash tid num).bind (finishSquash tid (s.instList tid).length) = some once ∧
        r.insts = once.insts ∧ r.insts = squashedTo s tid num ∧ Frame s tid r ∧ r.doneSquashing tid = true := by
  obtain ⟨s1, hs1, hwalk1⟩ := @Walk.squash _ _ _ _ hsorted hcount hidle (.refl s tid) num fun _ => .inl rfl
  refine ⟨⟨s1, hs1⟩, fun s' h => ?_⟩
  have hwalk := h.walk hsorted hcount hidle
  refine ⟨fun hf => ?_, fun num' hle => ?_, ?_⟩
  · obtain ⟨hnum, pre, p, post, hat, hpost⟩ := hwalk.walking hf
    obtain ⟨s'', hs'', -⟩ := hwalk.cycle hsorted hnum hat hpost
    exact ⟨s'', hs''⟩
  · obtain ⟨s'', hs'', -⟩ := hwalk.again hsorted hcount hle
    exact ⟨s'', hs''⟩
  · obtain ⟨r, hr, hdone, hframe, hinsts⟩ := hwalk.finish_length hsorted hwidth
    obtain ⟨once, honce, -, -, hinsts'⟩ := hwalk1.finish_length hsorted hwidth
    exact ⟨r, once, hr, by simp [hs1, honce], hinsts.trans hinsts'.symm, hinsts, hframe, hdone⟩

/-- A buffer with the instructions 1, 2 and 3 of one thread, which squashes one instruction in a cycle. -/
def threeInsts : ROB 1 :=
  { ROB.new ⟨4, 1, .Dynamic, 0⟩ (List.finRange 1) with
    instList := fun _ => [1, 2, 3], threadEntries := fun _ => 3, numInstsInROB := 3, head := some 1
    tail := some 3 }

theorem squash_marks_threeInsts : ∃ s' r, threeInsts.squash 0 1 = some s' ∧
    finishSquash 0 3 s' = some r ∧ r.insts = squashedTo threeInsts 0 1 := by
  obtain ⟨⟨s', hs'⟩, h⟩ :=
    @squash_marks _ threeInsts 0 (by decide) (by decide) rfl (by decide) 1
  obtain ⟨-, -, r, once, hr, -, -, hinsts, -⟩ := h s' (.start hs')
  exact ⟨s', r, hs', hr, hinsts⟩

end Alpine.Cpu.Rob
