import Mathlib.Data.List.Basic

/-!
# Event logs

A log is a list of events, the oldest first.  `Always P log` says of every event of the log that it met `P` when
it was written: `P` is given what stood in the log before it.

* `always_snoc` — one more event; `Always.mono` — a weaker condition.
-/

namespace Alpine.EventLog

variable {ε : Type} {P Q : List ε → ε → Prop} {log : List ε} {e : ε}

def Always (P : List ε → ε → Prop) (log : List ε) : Prop :=
  ∀ before e after, log = before ++ e :: after → P before e

theorem always_nil : Always P [] := by
  intro before e after h
  exact absurd h.symm (List.append_ne_nil_of_right_ne_nil _ (List.cons_ne_nil _ _))

theorem always_snoc : Always P (log ++ [e]) ↔ Always P log ∧ P log e := by
  constructor
  · intro h
    refine ⟨fun before e' after heq => ?_, h log e [] rfl⟩
    refine h before e' (after ++ [e]) ?_
    rw [heq, List.append_assoc, List.cons_append]
  · rintro ⟨hlog, he⟩ before e' after heq
    rcases List.append_eq_append_iff.1 heq with ⟨rest, rfl, hrest⟩ | ⟨rest, rfl, hrest⟩
    · -- the event is the new one
      rcases List.singleton_eq_append_iff.1 hrest with ⟨rfl, hlast⟩ | ⟨-, hnil⟩
      · cases hlast
        rwa [List.append_nil]
      · cases hnil
    · rcases List.cons_eq_append_iff.1 hrest with ⟨rfl, hlast⟩ | ⟨after', rfl, -⟩
      · cases hlast
        rwa [List.append_nil] at he
      · exact hlog before e' after' rfl

theorem Always.mono (h : Always P log) (hPQ : ∀ before e, e ∈ log → P before e → Q before e) : Always Q log := by
  intro before e after heq
  refine hPQ before e ?_ (h before e after heq)
  rw [heq]
  exact List.mem_append_right _ List.mem_cons_self

end Alpine.EventLog
