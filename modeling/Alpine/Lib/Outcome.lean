/-!
# Programs that may fail

`Outcome E P x` — the program `x` either returns a value that meets `P` or fails with an error that
meets `E`.  With an `E` that leaves some errors out it says that these are never raised, next to what
the program promises when it returns.

* `bind_ok_iff`, `mapError_ok_iff`, `toOption_eq_some` — what a program that returned has run;
  `bind_error_iff` — where one has failed.
* `Outcome.bind`, `Outcome.ite`, `Outcome.mono` — the rules of composition.
* `Outcome.foldlM` — the invariant rule of a loop over a list.
-/

namespace Alpine

variable {ε α β : Type}

variable {x : Except ε α}

theorem bind_ok_iff {f : α → Except ε β} {b : β} : (x >>= f) = .ok b ↔ ∃ a, x = .ok a ∧ f a = .ok b := by
  cases x with
  | error e => exact ⟨fun h => (nomatch h), fun ⟨_, h, _⟩ => (nomatch h)⟩
  | ok a => exact ⟨fun h => ⟨a, rfl, h⟩, fun ⟨_, h, hf⟩ => by cases h; exact hf⟩

theorem bind_error_iff {f : α → Except ε β} {e : ε} :
    x >>= f = .error e ↔ x = .error e ∨ ∃ a, x = .ok a ∧ f a = .error e := by
  cases x with
  | error e' => simp [bind, Except.bind]
  | ok a => simp [bind, Except.bind]

theorem toOption_eq_some {a : α} : x.toOption = some a ↔ x = .ok a := by
  cases x with
  | error e => exact ⟨fun h => (nomatch h), fun h => (nomatch h)⟩
  | ok b => exact ⟨fun h => by cases h; rfl, fun h => by cases h; rfl⟩

theorem toOption_map_eq_some {f : α → β} {b : β} : x.toOption.map f = some b ↔ ∃ a, x = .ok a ∧ f a = b := by
  rw [Option.map_eq_some_iff]
  simp only [toOption_eq_some]

theorem mapError_ok_iff {ε' : Type} {f : ε → ε'} {a : α} : x.mapError f = .ok a ↔ x = .ok a := by
  cases x with
  | error e => exact ⟨fun h => (nomatch h), fun h => (nomatch h)⟩
  | ok b => exact ⟨fun h => by cases h; rfl, fun h => by cases h; rfl⟩

def Outcome (E : ε → Prop) (P : α → Prop) : Except ε α → Prop
  | .ok a => P a
  | .error e => E e

namespace Outcome

variable {E : ε → Prop} {P Q : α → Prop} {R : β → Prop}

theorem mono (h : Outcome E P x) (hPQ : ∀ a, P a → Q a) : Outcome E Q x := by
  cases x with
  | ok a => exact hPQ a h
  | error e => exact h

theorem bind {f : α → Except ε β} (hx : Outcome E P x) (hf : ∀ a, P a → Outcome E R (f a)) :
    Outcome E R (x >>= f) := by
  cases x with
  | ok a => exact hf a hx
  | error e => exact hx

theorem map {f : α → β} (hx : Outcome E P x) (hf : ∀ a, P a → R (f a)) : Outcome E R (x.map f) := by
  cases x with
  | ok a => exact hf a hx
  | error e => exact hx

theorem ite {c : Prop} [Decidable c] {y : Except ε α} (hx : c → Outcome E P x) (hy : ¬c → Outcome E P y) :
    Outcome E P (if c then x else y) := by
  split
  · rename_i hc; exact hx hc
  · rename_i hc; exact hy hc

theorem of_ok {a : α} (h : Outcome E P x) (hx : x = .ok a) : P a := by
  rw [hx] at h
  exact h

theorem of_error {e : ε} (h : Outcome E P x) (hx : x = .error e) : E e := by
  rw [hx] at h
  exact h

theorem foldlM {f : α → β → Except ε α} {bs : List β}
    (hstep : ∀ a, ∀ b ∈ bs, P a → Outcome E P (f a b)) {a : α} (ha : P a) : Outcome E P (bs.foldlM f a) := by
  induction bs generalizing a with
  | nil => exact ha
  | cons b bs ih =>
    rw [List.foldlM_cons]
    apply bind (hstep a b List.mem_cons_self ha)
    intro a' ha'
    exact ih (fun x y hy => hstep x y (List.mem_cons_of_mem b hy)) ha'

end Outcome

end Alpine
