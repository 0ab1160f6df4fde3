/-!
# Runs of partial step functions

A component is a step function `σ → ι → Option (σ × ρ)`: from a state and an input to the next
state and a result, or `none` when the input is refused or its effect is undefined.  Where there are
no results it is a function `σ → ι → Option σ`.

* `Reaches` — the states of the runs whose steps all meet a condition; `Reaches.inv` — its invariant
  rule.
* `trace` — the outcomes of a list of inputs, one after the other, ending with the first `none`.
* `run` — the final state and all results, `none` if one step is `none`.
* `run_filter` — the non-interference rule: if the inputs outside a class leave the part of the state
  that the class uses, the class obtains in a mixed run what it obtains alone.
* `trace_congr` — two components that agree on every state an invariant admits have equal traces.
* `trace_defined` — a bound that admits one more step at every state makes every outcome defined.
-/

namespace Alpine.Run

variable {σ ι ρ : Type}

def trace (step : σ → ι → Option (σ × ρ)) : σ → List ι → List (Option (σ × ρ))
  | _, [] => []
  | s, i :: is =>
    match step s i with
    | none => [none]
    | some (s', r) => some (s', r) :: trace step s' is

def run (step : σ → ι → Option (σ × ρ)) : σ → List ι → Option (σ × List ρ)
  | s, [] => some (s, [])
  | s, i :: is =>
    match step s i with
    | none => none
    | some (s', r) => (run step s' is).map fun q => (q.1, r :: q.2)

variable {step step' : σ → ι → Option (σ × ρ)}

theorem run_nil {s : σ} : run step s [] = some (s, []) := rfl

theorem run_cons {s t : σ} {i : ι} {is : List ι} {rs : List ρ} : run step s (i :: is) = some (t, rs) ↔
      ∃ s' r rs', step s i = some (s', r) ∧ run step s' is = some (t, rs') ∧ rs = r :: rs' := by
  simp only [run]
  cases hs : step s i with
  | none => simp
  | some q =>
    obtain ⟨s', r⟩ := q
    simp only [Option.map_eq_some_iff, Prod.mk.injEq, Option.some.injEq]
    constructor
    · rintro ⟨⟨t', rs'⟩, h, rfl, rfl⟩; exact ⟨s', r, rs', ⟨rfl, rfl⟩, h, rfl⟩
    · rintro ⟨s'', r', rs', ⟨rfl, rfl⟩, h, rfl⟩; exact ⟨(t, rs'), h, rfl, rfl⟩

theorem run_append : ∀ {is js : List ι} {s t : σ} {rs : List ρ}, run step s (is ++ js) = some (t, rs) ↔
      ∃ s' rs1 rs2, run step s is = some (s', rs1) ∧ run step s' js = some (t, rs2) ∧ rs = rs1 ++ rs2
  | [], js, s, t, rs => by
    constructor
    · intro h; exact ⟨s, [], rs, rfl, h, rfl⟩
    · rintro ⟨s', rs1, rs2, h1, h2, rfl⟩
      cases h1
      exact h2
  | i :: is, js, s, t, rs => by
    rw [List.cons_append, run_cons]
    constructor
    · rintro ⟨s', r, rs', h1, h2, rfl⟩
      obtain ⟨s'', rs1, rs2, h3, h4, rfl⟩ := run_append.1 h2
      exact ⟨s'', r :: rs1, rs2, run_cons.2 ⟨s', r, rs1, h1, h3, rfl⟩, h4, rfl⟩
    · rintro ⟨s'', rs1, rs2, h3, h4, rfl⟩
      obtain ⟨s', r, rs', h1, h2, rfl⟩ := run_cons.1 h3
      exact ⟨s', r, rs' ++ rs2, h1, run_append.2 ⟨s'', rs', rs2, h2, h4, rfl⟩, rfl⟩

/-- The results of the inputs of a class, in order. -/
def select (mine : ι → Bool) : List ι → List ρ → List ρ
  | i :: is, r :: rs => if mine i then r :: select mine is rs else select mine is rs
  | _, _ => []

theorem run_filter (mine : ι → Bool) {R : σ → σ → Prop} {Q : ι → Prop}
    (hmine : ∀ s t i s' r, mine i = true → Q i → R s t → step s i = some (s', r) →
      ∃ t', step t i = some (t', r) ∧ R s' t')
    (hother : ∀ s t i s' r, mine i = false → Q i → R s t → step s i = some (s', r) → R s' t) :
    ∀ {is : List ι} {s t s' : σ} {rs : List ρ}, R s t → (∀ i ∈ is, Q i) → run step s is = some (s', rs) →
      ∃ t', run step t (is.filter mine) = some (t', select mine is rs) ∧ R s' t'
  | [], s, t, s', rs, hR, _, h => by
    simp only [run, Option.some.injEq, Prod.mk.injEq] at h
    obtain ⟨rfl, rfl⟩ := h
    exact ⟨t, rfl, hR⟩
  | i :: is, s, t, s', rs, hR, hQ, h => by
    obtain ⟨s1, r, rs', h1, h2, rfl⟩ := run_cons.1 h
    have hQi := hQ i List.mem_cons_self
    have hQis : ∀ j ∈ is, Q j := fun j hj => hQ j (List.mem_cons_of_mem _ hj)
    cases hm : mine i with
    | true =>
      obtain ⟨t1, ht1, hR1⟩ := hmine s t i s1 r hm hQi hR h1
      obtain ⟨t', ht', hR'⟩ := run_filter mine hmine hother hR1 hQis h2
      refine ⟨t', ?_, hR'⟩
      rw [List.filter_cons_of_pos hm, select, if_pos hm]
      exact run_cons.2 ⟨t1, r, _, ht1, ht', rfl⟩
    | false =>
      obtain ⟨t', ht', hR'⟩ := run_filter mine hmine hother (hother s t i s1 r hm hQi hR h1) hQis h2
      refine ⟨t', ?_, hR'⟩
      rw [List.filter_cons_of_neg (by rw [hm]; decide), select, if_neg (by rw [hm]; decide)]
      exact ht'

theorem trace_congr {Q : ι → Prop} (h : ∀ s i, Q i → step s i = step' s i) :
    ∀ (is : List ι) (s : σ), (∀ i ∈ is, Q i) → trace step s is = trace step' s is
  | [], _, _ => rfl
  | i :: is, s, hQ => by
    simp only [trace]
    rw [← h s i (hQ i List.mem_cons_self)]
    cases step s i with
    | none => rfl
    | some q =>
      simp only
      rw [trace_congr h is q.1 fun j hj => hQ j (List.mem_cons_of_mem _ hj)]

theorem trace_defined {P : Nat → σ → Prop} {Q : ι → Prop} {N : Nat}
    (h : ∀ k s i, k < N → P k s → Q i → ∃ s' r, step s i = some (s', r) ∧ P (k + 1) s') :
    ∀ (is : List ι) (k : Nat) (s : σ), P k s → k + is.length ≤ N → (∀ i ∈ is, Q i) →
      (trace step s is).length = is.length ∧ ∀ o ∈ trace step s is, o.isSome
  | [], _, _, _, _, _ => ⟨rfl, fun _ h => absurd h List.not_mem_nil⟩
  | i :: is, k, s, hP, hlen, hQ => by
    rw [List.length_cons] at hlen
    obtain ⟨s', r, hs, hP'⟩ := h k s i (by omega) hP (hQ i List.mem_cons_self)
    obtain ⟨hl, ho⟩ := trace_defined h is (k + 1) s' hP' (by omega)
      fun j hj => hQ j (List.mem_cons_of_mem _ hj)
    simp only [trace, hs, List.length_cons, hl, List.mem_cons, true_and]
    rintro o (rfl | ho')
    · rfl
    · exact ho o ho'

/-- `Reaches next ok s t`: some run from `s` whose every step meets `ok` ends in `t`. -/
inductive Reaches (next : σ → ι → Option σ) (ok : σ → ι → Prop) (s : σ) : σ → Prop where
  | refl : Reaches next ok s s
  | step {t t' : σ} {i : ι} : Reaches next ok s t → ok t i → next t i = some t' → Reaches next ok s t'

variable {next : σ → ι → Option σ}

theorem Reaches.inv {ok : σ → ι → Prop} {P : σ → Prop} {s t : σ} (hs : P s)
    (hstep : ∀ t i t', P t → ok t i → next t i = some t' → P t') (h : Reaches next ok s t) : P t := by
  induction h with
  | refl => exact hs
  | step _ hok hnext ih => exact hstep _ _ _ ih hok hnext

theorem Reaches.mono {ok ok' : σ → ι → Prop} {s t : σ} (hok : ∀ t i, ok t i → ok' t i)
    (h : Reaches next ok s t) : Reaches next ok' s t := by
  induction h with
  | refl => exact .refl
  | step _ hi hnext ih => exact .step ih (hok _ _ hi) hnext

/-- A list of inputs that are allowed in every state. -/
theorem Reaches.foldlM {ok : σ → ι → Prop} {s : σ} :
    ∀ {is : List ι} {t u : σ}, Reaches next ok s t → (∀ i ∈ is, ∀ v, ok v i) →
      is.foldlM next t = some u → Reaches next ok s u
  | [], t, u, h, _, hrun => by
    cases hrun
    exact h
  | i :: is, t, u, h, hok, hrun => by
    rw [List.foldlM_cons] at hrun
    cases hs : next t i with
    | none =>
      rw [hs] at hrun
      cases hrun
    | some t' =>
      rw [hs] at hrun
      exact Reaches.foldlM (h.step (hok i List.mem_cons_self t) hs)
        (fun j hj => hok j (List.mem_cons_of_mem i hj)) hrun

end Alpine.Run
