import Alpine.Dev.VirtQueue
import Alpine.Lib.Walk

/-!
# Walking a descriptor chain

* `link`, `table` — the pointers that `updateChain` follows.
* `Spells` — the descriptors of a chain that ends; `Spells.chainSize_ends` and the lemmas after it say that the
  loops over it end.
* `updateChainLoop_sound`, `updateChainLoop_complete` — the loop ends properly just if the walk that remembers its
  head stops, inside the table.
* `WalkEnds` — what is wanted of `consumeDescriptor`; `Guarded` — the guests for which it holds
  (`walkEnds_iff_guarded`).
-/

namespace Alpine.Dev

open Walk

namespace VirtQueue

variable {n : Nat}

/-- The pointers of a table; an index past the table has none. -/
def link (T : Vector VringDesc n) (i : Nat) : Option Nat :=
  if h : i < n then if T[i].hasNext then some T[i].next.toNat else none else none

/-- The table that `updateChain` sees. -/
def table (q : VirtQueue n) (g : Guest n) : Vector VringDesc n := if q._address = 0 then q.descriptors else g.table

/-! ### The parts of a round -/

theorem next_eq (q : VirtQueue n) (d : Fin n) : q.next d = match link q.descriptors d with
      | none => .ok none
      | some j => if h : j < n then .ok (some ⟨j, h⟩) else .error .outside := by
  unfold next link getDescriptor desc
  rw [dif_pos d.isLt]
  by_cases hn : q.descriptors[d].hasNext = true
  · simp only [Fin.getElem_fin] at hn
    simp only [Fin.getElem_fin, hn, if_true]
    split <;> rfl
  · simp only [Fin.getElem_fin] at hn
    simp only [Fin.getElem_fin, hn]
    rfl

variable {T : Vector VringDesc n} {d : Fin n}

theorem link_congr {T' : Vector VringDesc n} (h : T.get d = T'.get d) : link T d = link T' d := by
  unfold link
  simp only [Vector.get_eq_getElem] at h
  rw [dif_pos d.isLt, dif_pos d.isLt, h]

theorem update_desc (q : VirtQueue n) (g : Guest n) (d : Fin n) : (q.update g d).desc d = (q.table g).get d := by
  unfold update table desc
  by_cases h : q._address = 0
  · rw [if_pos h, if_pos h]; rfl
  · rw [if_neg h, if_neg h, Vector.get_eq_getElem]; exact Vector.getElem_set_self d.isLt

@[simp] theorem update_table (q : VirtQueue n) (g : Guest n) (d : Fin n) : (q.update g d).table g = q.table g := by
  unfold update table
  by_cases h : q._address = 0
  · simp only [if_pos h]
  · simp only [if_neg h]

variable {q : VirtQueue n}

theorem update_agrees {g : Guest n} {e : Fin n} (h : q.desc e = (q.table g).get e) :
    (q.update g d).desc e = (q.table g).get e := by
  by_cases hde : d = e
  · rw [← hde, update_desc]
  · rw [← h]
    unfold update desc
    by_cases ha : q._address = 0
    · rw [if_pos ha]
    · have hne : d.val ≠ e.val := fun hv => hde (Fin.ext hv)
      rw [if_neg ha]
      exact Vector.getElem_set_ne d.isLt e.isLt hne

theorem updateChainLoop_succ (g : Guest n) (this : Fin n) (fuel : Nat) (q : VirtQueue n) (d : Fin n) :
    updateChainLoop g this (fuel + 1) q d = match link (q.table g) d with
      | none => .ok (q.update g d)
      | some j =>
        if h : j < n then
          if (⟨j, h⟩ : Fin n) = this then .error (.panic "Loop in descriptor chain!\n")
          else updateChainLoop g this fuel (q.update g d) ⟨j, h⟩
        else .error .outside := by
  have hlink : link (q.update g d).descriptors d = link (q.table g) d := link_congr (update_desc q g d)
  rw [updateChainLoop, next_eq, hlink]
  cases link (q.table g) d with
  | none => rfl
  | some j =>
    by_cases h : j < n
    · simp only [dif_pos h]
      rfl
    · simp only [dif_neg h]
      rfl

/-! ### The loop -/

/-- The walk that remembers `this` stops after `k` steps from `d`, inside the table. -/
structure StopsAt (T : Vector VringDesc n) (this : Fin n) (d k : Nat) : Prop where
  pos : 0 < k
  stop : node (link T) d k = none ∨ node (link T) d k = some this
  first : ∀ j, 0 < j → j < k → node (link T) d j ≠ none ∧ node (link T) d j ≠ some this.val
  inside : ∀ j < k, ∀ i, node (link T) d j = some i → i < n

theorem StopsAt.stops {this : Fin n} {k : Nat} (h : StopsAt T this this k) :
    Stops (link T) this k := ⟨h.pos, h.stop, h.first⟩

theorem StopsAt.one {this : Fin n} (h : link T d = none ∨ link T d = some this.val) : StopsAt T this d 1 := by
  refine ⟨Nat.one_pos, ?_, fun j hj hlt => absurd hlt (by omega), ?_⟩
  · rw [node_succ]
    cases h with
    | inl h => exact .inl (by rw [h, Option.bind_none])
    | inr h => exact .inr (by rw [h, Option.bind_some]; rfl)
  · intro j hj i hi
    rw [Nat.lt_one_iff.1 hj] at hi
    cases hi
    exact d.isLt

theorem StopsAt.succ {this e : Fin n} {k : Nat} (hde : link T d = some e.val) (hne : e ≠ this)
    (h : StopsAt T this e k) : StopsAt T this d (k + 1) := by
  have hnode : ∀ j, node (link T) d (j + 1) = node (link T) e j := fun j => by rw [node_succ, hde, Option.bind_some]
  refine ⟨Nat.succ_pos k, by rw [hnode]; exact h.stop, ?_, ?_⟩
  · intro j hj hlt
    obtain ⟨j, rfl⟩ := Nat.exists_eq_succ_of_ne_zero (Nat.ne_of_gt hj)
    rw [hnode]
    by_cases hj0 : j = 0
    · subst hj0
      exact ⟨nofun, fun heq => hne (Fin.ext (Option.some.inj heq))⟩
    · exact h.first j (Nat.pos_of_ne_zero hj0) (Nat.lt_of_succ_lt_succ hlt)
  · intro j hj i hi
    cases j with
    | zero =>
      cases hi
      exact d.isLt
    | succ j =>
      rw [hnode] at hi
      exact h.inside j (Nat.lt_of_succ_lt_succ hj) i hi

/-- A loop that ends with a chain or with its panic has walked to where the walk stops. -/
theorem updateChainLoop_sound (g : Guest n) (this : Fin n) : ∀ (fuel : Nat) (q : VirtQueue n) (d : Fin n),
    (∀ f, updateChainLoop g this fuel q d = .error f → f = .panic "Loop in descriptor chain!\n") →
      ∃ k, StopsAt (q.table g) this d k
  | 0, q, d, h => by
    cases h .running rfl
  | fuel + 1, q, d, h => by
    rw [updateChainLoop_succ] at h
    cases hl : link (q.table g) d with
    | none => exact ⟨1, StopsAt.one (.inl hl)⟩
    | some j =>
      simp only [hl] at h
      by_cases hj : j < n
      · simp only [dif_pos hj] at h
        by_cases hthis : (⟨j, hj⟩ : Fin n) = this
        · exact ⟨1, StopsAt.one (.inr (by rw [hl, ← hthis]))⟩
        · simp only [if_neg hthis] at h
          obtain ⟨k, hk⟩ := updateChainLoop_sound g this fuel (q.update g d) ⟨j, hj⟩ h
          rw [update_table] at hk
          exact ⟨k + 1, hk.succ hl hthis⟩
      · simp only [dif_neg hj] at h
        cases h .outside rfl

/-- What the loop returns, with enough rounds. -/
theorem updateChainLoop_complete (g : Guest n) (this : Fin n) : ∀ (k fuel : Nat) (q : VirtQueue n) (d : Fin n),
    StopsAt (q.table g) this d k → k ≤ fuel →
      (updateChainLoop g this fuel q d = .error (.panic "Loop in descriptor chain!\n") ∧
        node (link (q.table g)) d k = some this.val) ∨
      ∃ q', updateChainLoop g this fuel q d = .ok q' ∧ node (link (q.table g)) d k = none ∧
        (∀ e : Fin n, q.desc e = (q.table g).get e → q'.desc e = (q.table g).get e) ∧
        ∀ j < k, ∀ e : Fin n, node (link (q.table g)) d j = some e.val → q'.desc e = (q.table g).get e
  | 0, fuel, q, d, h, hle => absurd h.pos (Nat.lt_irrefl 0)
  | k + 1, 0, q, d, h, hle => absurd hle (Nat.not_succ_le_zero k)
  | k + 1, fuel + 1, q, d, h, hle => by
    rw [updateChainLoop_succ]
    have hself : ∀ e : Fin n, node (link (q.table g)) d 0 = some e.val → (q.update g d).desc e = (q.table g).get e := by
      intro e he
      rw [← Fin.ext (Option.some.inj he)]
      exact update_desc q g d
    cases hl : link (q.table g) d with
    | none =>
      have hnone : ∀ j, node (link (q.table g)) d (j + 1) = none := fun j => by rw [node_succ, hl, Option.bind_none]
      refine .inr ⟨q.update g d, rfl, hnone k, fun e he => update_agrees he, ?_⟩
      intro j hj e he
      cases j with
      | zero => exact hself e he
      | succ j =>
        rw [hnone] at he
        cases he
    | some j =>
      have hnode : ∀ i, node (link (q.table g)) d (i + 1) = node (link (q.table g)) j i := fun i => by
        rw [node_succ, hl, Option.bind_some]
      by_cases hk : k = 0
      · -- the walk stops at the next descriptor, which is `this`
        subst hk
        have hj : j = this.val := by
          cases h.stop with
          | inl hnone =>
            rw [hnode] at hnone
            cases hnone
          | inr hthis =>
            rw [hnode] at hthis
            exact Option.some.inj hthis
        subst hj
        exact .inl ⟨by simp, by rw [hnode]; rfl⟩
      · have hjn : j < n := h.inside 1 (by omega) j (by rw [hnode]; rfl)
        have hne : (⟨j, hjn⟩ : Fin n) ≠ this := by
          intro heq
          exact (h.first 1 Nat.one_pos (by omega)).2 (by rw [hnode, ← heq]; rfl)
        have htail : StopsAt ((q.update g d).table g) this (⟨j, hjn⟩ : Fin n) k := by
          rw [update_table]
          refine ⟨Nat.pos_of_ne_zero hk, by rw [← hnode]; exact h.stop, ?_, ?_⟩
          · intro i hi hlt
            rw [← hnode]
            exact h.first (i + 1) (Nat.succ_pos i) (Nat.succ_lt_succ hlt)
          · intro i hi v hv
            rw [← hnode] at hv
            exact h.inside (i + 1) (Nat.succ_lt_succ hi) v hv
        simp only [dif_pos hjn, if_neg hne]
        rcases updateChainLoop_complete g this k fuel (q.update g d) ⟨j, hjn⟩ htail (Nat.le_of_succ_le_succ hle) with
          ⟨hp, hend⟩ | ⟨q', hok, hend, hkeep, hseen⟩
        · rw [update_table] at hend
          exact .inl ⟨hp, by rw [hnode]; exact hend⟩
        · rw [update_table] at hend hkeep hseen
          refine .inr ⟨q', hok, by rw [hnode]; exact hend, fun e he => hkeep e (update_agrees he), ?_⟩
          intro i hi e he
          cases i with
          | zero => exact hkeep e (hself e he)
          | succ i =>
            rw [hnode] at he
            exact hseen i (Nat.lt_of_succ_lt_succ hi) e he

/-! ### Chains that end -/

/-- The descriptors from `d` to the end of its chain. -/
inductive Spells (q : VirtQueue n) : Fin n → List VringDesc → Prop where
  | last {d : Fin n} : q.next d = .ok none → Spells q d [q.desc d]
  | cons {d e : Fin n} {l : List VringDesc} : q.next d = .ok (some e) → Spells q e l → Spells q d (q.desc d :: l)

theorem link_of_next {e : Option (Fin n)} (h : q.next d = .ok e) : link q.descriptors d = e.map Fin.val := by
  rw [next_eq] at h
  cases hl : link q.descriptors d with
  | none =>
    rw [hl] at h
    cases h
    rfl
  | some j =>
    simp only [hl] at h
    by_cases hj : j < n
    · rw [dif_pos hj] at h
      cases h
      rfl
    · rw [dif_neg hj] at h
      cases h

variable {l : List VringDesc}

theorem Spells.node_length (h : q.Spells d l) : node (link q.descriptors) d l.length = none := by
  induction h with
  | last hn => rw [List.length_singleton, node_succ, link_of_next hn]; rfl
  | cons hn _ ih => rw [List.length_cons, node_succ, link_of_next hn]; exact ih

theorem Spells.inside (h : q.Spells d l) : ∀ {i : Nat}, Reach (link q.descriptors) d i → i < n := by
  induction h with
  | @last d hn =>
    intro i hr
    obtain heq | ⟨j, hj, -⟩ := Relation.ReflTransGen.cases_head hr
    · rw [← heq]
      exact d.isLt
    · rw [link_of_next hn] at hj
      cases hj
  | @cons d e l hn _ ih =>
    intro i hr
    obtain heq | ⟨j, hj, hji⟩ := Relation.ReflTransGen.cases_head hr
    · rw [← heq]
      exact d.isLt
    · rw [link_of_next hn] at hj
      cases hj
      exact ih hji

/-- A chain that ends is acyclic. -/
theorem Spells.acyclic (h : q.Spells d l) {i : Nat} (hr : Reach (link q.descriptors) d i) :
    ¬ Cycle (link q.descriptors) i := by
  obtain ⟨j, hj⟩ := reach_iff.1 hr
  intro hc
  exact node_of_cycle hj hc l.length h.node_length

/-- A walk that ends inside the table spells its chain. -/
theorem exists_spells {q : VirtQueue n} {T : Vector VringDesc n} : ∀ {k : Nat} {d : Fin n},
    node (link T) d k = none → (∀ j < k, ∀ i, node (link T) d j = some i → i < n) →
      (∀ j < k, ∀ e : Fin n, node (link T) d j = some e.val → q.desc e = T.get e) → ∃ l, q.Spells d l ∧ l.length ≤ k
  | 0, d, hk, _, _ => by cases hk
  | k + 1, d, hk, hin, hag => by
    have hl : link q.descriptors d = link T d := link_congr (hag 0 (Nat.succ_pos k) d rfl)
    have hnext := next_eq q d
    rw [hl] at hnext
    cases hd : link T d with
    | none =>
      rw [hd] at hnext
      exact ⟨[q.desc d], .last hnext, by simp⟩
    | some j =>
      have hnode : ∀ i, node (link T) d (i + 1) = node (link T) j i := fun i => by
        rw [node_succ, hd, Option.bind_some]
      by_cases hk0 : k = 0
      · subst hk0
        rw [hnode] at hk
        cases hk
      · have hjn : j < n := hin 1 (by omega) j (by rw [hnode]; rfl)
        simp only [hd, dif_pos hjn] at hnext
        obtain ⟨l, hs, hlen⟩ := exists_spells (q := q) (T := T) (k := k) (d := ⟨j, hjn⟩) (by rw [← hnode]; exact hk)
          (fun i hi v hv => hin (i + 1) (Nat.succ_lt_succ hi) v (by rw [hnode]; exact hv))
          (fun i hi e he => hag (i + 1) (Nat.succ_lt_succ hi) e (by rw [hnode]; exact he))
        exact ⟨q.desc d :: l, .cons hnext hs, by simpa using hlen⟩

/-- Nothing but the bound on the iterations makes a loop over a chain run. -/
def Ends {ε : Type} (x : Except Fault ε) : Prop := x ≠ .error .running

theorem Ends.ok {ε : Type} (a : ε) : Ends (.ok a) := fun h => by cases h

theorem Ends.bind {ε δ : Type} {x : Except Fault ε} {f : ε → Except Fault δ} (hx : Ends x) (hf : ∀ a, Ends (f a)) :
    Ends (x >>= f) := by
  cases x with
  | ok a => exact hf a
  | error e => exact fun h => hx (by cases h; rfl)

theorem Ends.ite {ε : Type} {c : Prop} [Decidable c] {x y : Except Fault ε} (hx : Ends x) (hy : Ends y) :
    Ends (if c then x else y) := by
  split
  · exact hx
  · exact hy

theorem sub_ends (a b : Nat) : Ends (sub a b) := by
  unfold sub
  split
  · exact Ends.ok _
  · exact fun h => by cases h

theorem read_ends (q : VirtQueue n) (g : Guest n) (d : Fin n) (offset size : Nat) : Ends (q.read g d offset size) := by
  apply Ends.bind (sub_ends _ _)
  intro left
  refine Ends.ite (fun h => by cases h) (Ends.ite (fun h => by cases h) (Ends.ok _))

theorem write_ends (q : VirtQueue n) (g : Guest n) (d : Fin n) (offset : Nat) (src : List (BitVec 8)) :
    Ends (q.write g d offset src) := by
  apply Ends.bind (sub_ends _ _)
  intro left
  refine Ends.ite (fun h => by cases h) (Ends.ite (fun h => by cases h) (Ends.ok _))

theorem readRound_ends (q : VirtQueue n) (g : Guest n) (d : Fin n) (offset size : Nat) (dst : List (BitVec 8)) :
    Ends (q.readRound g d offset size dst) := by
  apply Ends.ite
  · exact (sub_ends _ _).bind fun _ => (read_ends q g _ _ _).bind fun _ => (sub_ends _ _).bind fun _ => Ends.ok _
  · exact (sub_ends _ _).bind fun _ => Ends.ok _

theorem writeRound_ends (q : VirtQueue n) (g : Guest n) (d : Fin n) (offset : Nat) (src : List (BitVec 8)) :
    Ends (q.writeRound g d offset src) := by
  apply Ends.ite
  · exact (sub_ends _ _).bind fun _ => (write_ends q g _ _ _).bind fun _ => (sub_ends _ _).bind fun _ => Ends.ok _
  · exact (sub_ends _ _).bind fun _ => Ends.ok _

/-- There is fuel for one more descriptor. -/
theorem exists_fuel {k fuel : Nat} (hle : k + 1 ≤ fuel) : ∃ fuel', fuel = fuel' + 1 ∧ k ≤ fuel' :=
  ⟨fuel - 1, by omega, by omega⟩

theorem Spells.chainSizeLoop_ends (h : q.Spells d l) :
    ∀ {fuel : Nat}, l.length ≤ fuel → ∀ size, Ends (chainSizeLoop q fuel d size) := by
  induction h with
  | last hn =>
    intro fuel hle size
    obtain ⟨fuel, rfl, -⟩ := exists_fuel hle
    rw [chainSizeLoop, hn]
    exact Ends.ok _
  | cons hn _ ih =>
    intro fuel hle size
    obtain ⟨fuel, rfl, hle'⟩ := exists_fuel hle
    rw [chainSizeLoop, hn]
    exact ih hle' _

theorem Spells.chainReadLoop_ends (g : Guest n) (h : q.Spells d l) :
    ∀ {fuel : Nat}, l.length ≤ fuel → ∀ offset size dst, Ends (chainReadLoop q g fuel d offset size dst) := by
  induction h with
  | last hn =>
    intro fuel hle offset size dst
    obtain ⟨fuel, rfl, -⟩ := exists_fuel hle
    rw [chainReadLoop]
    refine (readRound_ends q g _ _ _ _).bind fun ⟨offset, size, dst⟩ => ?_
    simp only [hn]
    exact Ends.ok _
  | cons hn _ ih =>
    intro fuel hle offset size dst
    obtain ⟨fuel, rfl, hle'⟩ := exists_fuel hle
    rw [chainReadLoop]
    refine (readRound_ends q g _ _ _ _).bind fun ⟨offset, size, dst⟩ => ?_
    simp only [hn]
    exact Ends.ite (ih hle' _ _ _) (Ends.ok _)

theorem Spells.chainWriteLoop_ends (h : q.Spells d l) :
    ∀ {fuel : Nat}, l.length ≤ fuel → ∀ g offset src, Ends (chainWriteLoop q fuel g d offset src) := by
  induction h with
  | last hn =>
    intro fuel hle g offset src
    obtain ⟨fuel, rfl, -⟩ := exists_fuel hle
    rw [chainWriteLoop]
    refine (writeRound_ends q g _ _ _).bind fun ⟨offset, src, g⟩ => ?_
    simp only [hn]
    exact Ends.ok _
  | cons hn _ ih =>
    intro fuel hle g offset src
    obtain ⟨fuel, rfl, hle'⟩ := exists_fuel hle
    rw [chainWriteLoop]
    refine (writeRound_ends q g _ _ _).bind fun ⟨offset, src, g⟩ => ?_
    simp only [hn]
    exact Ends.ite (ih hle' _ _ _) (Ends.ok _)

section

variable {q : VirtQueue n} {d : Fin n} {l : List VringDesc} {fuel : Nat}

theorem Spells.chainSize_ends (h : q.Spells d l) (hle : l.length ≤ fuel) : Ends (q.chainSize fuel d) :=
  h.chainSizeLoop_ends hle 0

theorem Spells.chainRead_ends (h : q.Spells d l) (hle : l.length ≤ fuel) (g : Guest n) (offset size : Nat) :
    Ends (q.chainRead fuel g d offset size) := by
  refine (h.chainReadLoop_ends g hle _ _ _).bind fun ⟨offset, size, dst⟩ => ?_
  exact Ends.ite ((h.chainSize_ends hle).bind fun _ hp => by cases hp) (Ends.ok _)

theorem Spells.chainWrite_ends (h : q.Spells d l) (hle : l.length ≤ fuel) (g : Guest n) (offset : Nat)
    (src : List (BitVec 8)) : Ends (q.chainWrite fuel g d offset src) := by
  refine (h.chainWriteLoop_ends hle g _ _).bind fun ⟨offset, left, g⟩ => ?_
  exact Ends.ite ((h.chainSize_ends hle).bind fun _ hp => by cases hp) (Ends.ok _)

end

/-! ### The head of a chain -/

/-- A chain that is returned is acyclic and inside the table, and the loops over it end. -/
structure Returned (q : VirtQueue n) (d : Fin n) (fuel : Nat) : Prop where
  acyclic : ∀ i, Reach (link q.descriptors) d i → i < n ∧ ¬ Cycle (link q.descriptors) i
  chainSize : Ends (q.chainSize fuel d)
  chainRead : ∀ g offset size, Ends (q.chainRead fuel g d offset size)
  chainWrite : ∀ g offset src, Ends (q.chainWrite fuel g d offset src)

/-- `consumeDescriptor` ends after finitely many steps with nothing, with such a chain or with the panic about a loop,
and with no access outside the table. -/
def WalkEnds (q : VirtQueue n) (g : Guest n) : Prop :=
  ∃ bound, ∀ fuel ≥ bound,
    match q.consumeDescriptor fuel g with
    | .ok (_, none) => True
    | .ok (q', some d) => Returned q' d fuel
    | .error f => f = .panic "Loop in descriptor chain!\n"

/-- The queue has its address and, where a chain is available, its head leads to descriptors inside the table only, and
to no cycle that the head is not on. -/
def Guarded (q : VirtQueue n) (g : Guest n) : Prop :=
  q.avail._base ≠ 0 ∧ (q._last_avail = g.avail.header.index ∨
    ∃ head, g.avail.ring[q._last_avail.toNat % n]? = some head ∧
      ∀ i, Reach (link (q.table g)) head.toNat i →
        i < n ∧ (Cycle (link (q.table g)) i → Reach (link (q.table g)) i head.toNat))

theorem consumeDescriptor_eq (fuel : Nat) (q : VirtQueue n) (g : Guest n) (hbase : q.avail._base ≠ 0) :
    q.consumeDescriptor fuel g =
      let q' := { q with avail := { q.avail with header := g.avail.header, ring := g.avail.ring } }
      if q._last_avail = g.avail.header.index then .ok (q', none)
      else match g.avail.ring[q._last_avail.toNat % n]? with
        | none => .error .outside
        | some head =>
          if h : head.toNat < n then
            (updateChain fuel { q' with _last_avail := q._last_avail + 1 } g ⟨head.toNat, h⟩).map
              (·, some ⟨head.toNat, h⟩)
          else .error .outside := by
  unfold consumeDescriptor VirtRing.read VirtRing.readHeader
  rw [if_neg hbase]
  simp only [pure_bind]
  by_cases h : q._last_avail = g.avail.header.index
  · simp only [if_pos h]
    rfl
  · simp only [if_neg h]
    cases g.avail.ring[q._last_avail.toNat % n]? with
    | none => rfl
    | some head =>
      simp only [getDescriptor]
      by_cases hh : head.toNat < n
      · simp only [dif_pos hh]
        rfl
      · simp only [dif_neg hh]
        rfl

theorem consumeDescriptor_of_base (fuel : Nat) (q : VirtQueue n) (g : Guest n) (hbase : q.avail._base = 0) :
    q.consumeDescriptor fuel g = .error .assertion := by
  unfold consumeDescriptor VirtRing.read VirtRing.readHeader
  rw [if_pos hbase]
  rfl

theorem exists_stopsAt_iff (T : Vector VringDesc n) (this : Fin n) : (∃ k, StopsAt T this this k) ↔
      ∀ i, Reach (link T) this i → i < n ∧ (Cycle (link T) i → Reach (link T) i this) := by
  constructor
  · rintro ⟨k, hk⟩ i hr
    obtain ⟨j, hj, hji⟩ := hk.stops.reach hr
    exact ⟨hk.inside j hj i hji, hk.stops.returns hr⟩
  · intro h
    have hfin : ∀ i, Reach (link T) this i → i ∈ Finset.range n := fun i hr => Finset.mem_range.2 (h i hr).1
    obtain ⟨k, hk⟩ := (exists_stops_iff (Finset.range n) hfin).2 fun i hr => (h i hr).2
    exact ⟨k, hk.pos, hk.stop, hk.first, fun j _ i hi => (h i (reach_iff.2 ⟨j, hi⟩)).1⟩

theorem table_congr {q' : VirtQueue n} (g : Guest n) (ha : q'._address = q._address)
    (hd : q'.descriptors = q.descriptors) : q'.table g = q.table g := by
  rw [table, table, ha, hd]

theorem WalkEnds.guarded {g : Guest n} (h : WalkEnds q g) : Guarded q g := by
  obtain ⟨bound, h⟩ := h
  have h := h bound le_rfl
  by_cases hbase : q.avail._base = 0
  · rw [consumeDescriptor_of_base bound q g hbase] at h
    cases h
  refine ⟨hbase, ?_⟩
  rw [consumeDescriptor_eq bound q g hbase] at h
  by_cases hl : q._last_avail = g.avail.header.index
  · exact .inl hl
  · right
    simp only [if_neg hl] at h
    cases hr : g.avail.ring[q._last_avail.toNat % n]? with
    | none =>
      simp only [hr] at h
      cases h
    | some head =>
      simp only [hr] at h
      refine ⟨head, rfl, ?_⟩
      by_cases hh : head.toNat < n
      · simp only [dif_pos hh] at h
        refine (exists_stopsAt_iff (q.table g) ⟨head.toNat, hh⟩).1 ?_
        obtain ⟨k, hk⟩ := updateChainLoop_sound g ⟨head.toNat, hh⟩ bound _ _ fun f hf => by
          rw [updateChain, hf] at h
          exact h
        exact ⟨k, hk⟩
      · simp only [dif_neg hh] at h
        cases h

theorem Guarded.walkEnds {g : Guest n} (h : Guarded q g) : WalkEnds q g := by
  obtain ⟨hbase, h⟩ := h
  by_cases hl : q._last_avail = g.avail.header.index
  · refine ⟨0, fun fuel _ => ?_⟩
    rw [consumeDescriptor_eq fuel q g hbase]
    simp only [if_pos hl]
  obtain ⟨head, hr, hreach⟩ := h.resolve_left hl
  have hh : head.toNat < n := (hreach _ .refl).1
  obtain ⟨k, hk⟩ := (exists_stopsAt_iff (q.table g) ⟨head.toNat, hh⟩).2 hreach
  refine ⟨k, fun fuel hle => ?_⟩
  rw [consumeDescriptor_eq fuel q g hbase]
  simp only [if_neg hl, hr, dif_pos hh]
  generalize hq : ({ q with
    avail := { q.avail with header := g.avail.header, ring := g.avail.ring },
    _last_avail := q._last_avail + 1 } : VirtQueue n) = q1
  have htable : q1.table g = q.table g := by
    subst hq
    exact table_congr g rfl rfl
  rw [← htable] at hk
  rcases updateChainLoop_complete g ⟨head.toNat, hh⟩ k fuel q1 ⟨head.toNat, hh⟩ hk hle with
    ⟨hp, -⟩ | ⟨q', hok, hend, -, hseen⟩
  · rw [updateChain, hp]
    rfl
  · rw [updateChain, hok]
    obtain ⟨l, hs, hlen⟩ := exists_spells hend hk.inside hseen
    have hfuel : l.length ≤ fuel := le_trans hlen hle
    refine ⟨fun i hr' => ⟨?_, hs.acyclic hr'⟩, hs.chainSize_ends hfuel, hs.chainRead_ends hfuel,
      hs.chainWrite_ends hfuel⟩
    exact hs.inside hr'

/-- `consumeDescriptor` and `updateChain` end as they should just on the guarded guests. -/
theorem walkEnds_iff_guarded (n : Nat) (q : VirtQueue n) (g : Guest n) : WalkEnds q g ↔ Guarded q g :=
  ⟨WalkEnds.guarded, Guarded.walkEnds⟩

/-- A descriptor that is its own successor and not the head keeps the loop running. -/
theorem updateChainLoop_self (g : Guest n) (this d : Fin n) (hne : d ≠ this) : ∀ (fuel : Nat) (q : VirtQueue n),
    link (q.table g) d = some d.val → updateChainLoop g this fuel q d = .error .running
  | 0, _, _ => rfl
  | fuel + 1, q, hl => by
    have ih := updateChainLoop_self g this d hne fuel (q.update g d) (by rw [update_table]; exact hl)
    rw [updateChainLoop_succ]
    simp only [hl, dif_pos d.isLt, if_neg hne]
    exact ih

/-- A guest with two descriptors in a queue of two: the second follows the first or not, and is its own successor. -/
def straying (next : BitVec 16) : Guest 2 :=
  { table := #v[⟨0x8000, 16, 1, next⟩, ⟨0x9000, 16, 1, 1⟩], avail := ⟨⟨0, 1⟩, #v[0, 0]⟩,
    used := ⟨⟨0, 0⟩, #v[⟨0, 0⟩, ⟨0, 0⟩]⟩, bytes := fun _ => 0 }

/-- The chain `0 → 1 → 1` is followed without an end, and the chain `0 → 2` leaves the table. -/
theorem walkEnds_straying : (¬ WalkEnds ((VirtQueue.new 2).setAddress 0x1000) (straying 1) ∧
      ∀ fuel, ((VirtQueue.new 2).setAddress 0x1000).consumeDescriptor fuel (straying 1) = .error .running) ∧
    ¬ WalkEnds ((VirtQueue.new 2).setAddress 0x1000) (straying 2) ∧
      ∀ fuel, ((VirtQueue.new 2).setAddress 0x1000).consumeDescriptor (fuel + 1) (straying 2) = .error .outside := by
  have hloop : ∀ fuel,
      ((VirtQueue.new 2).setAddress 0x1000).consumeDescriptor fuel (straying 1) = .error .running := by
    intro fuel
    rw [consumeDescriptor_eq _ _ _ (by decide)]
    cases fuel with
    | zero => rfl
    | succ fuel =>
      have h := updateChainLoop_self (straying 1) 0 1 (by decide) fuel
        ({ (VirtQueue.new 2).setAddress 0x1000 with
            avail := ⟨⟨0, 1⟩, #v[0, 0], 0x1020⟩, _last_avail := 1 }.update (straying 1) 0) (by decide)
      exact congrArg (Except.map fun q => (q, some 0)) h
  have hout : ∀ fuel,
      ((VirtQueue.new 2).setAddress 0x1000).consumeDescriptor (fuel + 1) (straying 2) = .error .outside := by
    intro fuel
    rw [consumeDescriptor_eq _ _ _ (by decide)]
    rfl
  refine ⟨⟨?_, hloop⟩, ?_, hout⟩
  · rintro ⟨bound, h⟩
    have h := h bound le_rfl
    rw [hloop] at h
    cases h
  · rintro ⟨bound, h⟩
    have h := h (bound + 1) (Nat.le_succ bound)
    rw [hout] at h
    cases h

end VirtQueue

end Alpine.Dev
