import Mathlib.Data.List.Basic

/-!
# Since

A history is a list of events, the newest first.  `Since keeps starts h` says that `h` has an event that
`starts`, and that every event after it `keeps`.
-/

namespace Alpine

variable {ε : Type} {keeps starts : ε → Prop} {e : ε} {h : List ε}

def Since (keeps starts : ε → Prop) (h : List ε) : Prop :=
  ∃ newer e older, h = newer ++ e :: older ∧ starts e ∧ ∀ n ∈ newer, keeps n

theorem since_cons : Since keeps starts (e :: h) ↔ starts e ∨ keeps e ∧ Since keeps starts h := by
  constructor
  · rintro ⟨newer, e', older, heq, hstart, hkeep⟩
    cases newer with
    | nil =>
      cases heq
      exact .inl hstart
    | cons n newer =>
      cases heq
      exact .inr ⟨hkeep e List.mem_cons_self, newer, e', older, rfl, hstart,
        fun n hn => hkeep n (List.mem_cons_of_mem _ hn)⟩
  · rintro (hstart | ⟨hkeep, newer, e', older, rfl, hstart, hnewer⟩)
    · exact ⟨[], e, h, rfl, hstart, fun n hn => absurd hn List.not_mem_nil⟩
    · refine ⟨e :: newer, e', older, rfl, hstart, fun n hn => ?_⟩
      rcases List.mem_cons.1 hn with rfl | hn
      · exact hkeep
      · exact hnewer n hn

end Alpine
