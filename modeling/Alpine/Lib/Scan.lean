import Mathlib.Data.List.Basic

/-!
# Search loops that test the element first

The loop `i = l.begin(); while (!test(*i) && i != l.end()) ++i;` reads the element before it compares the iterator with
the end.

* `scan` — where the loop stops, or `none` when it reads `*l.end()`.
* `scan_eq` — it stops at the first match, and if there is none it reads past the end.
* `scan_some`, `scan_none` — the two cases; `eraseIdx_findIdx` — what `erase` does at the place.
-/

namespace Alpine.Scan

variable {α : Type} (test : α → Bool)

/-- The loop from an iterator at place `i`, with the list from there on. -/
def scanFrom : List α → Nat → Option Nat
  -- the iterator is at the end, and is read
  | [], _ => none
  | x :: l, i => if test x then some i else scanFrom l (i + 1)

def scan (l : List α) : Option Nat := scanFrom test l 0

variable {test} {l : List α}

theorem scanFrom_eq : ∀ (l : List α) (i : Nat), scanFrom test l i = (l.findIdx? test).map (· + i)
  | [], _ => rfl
  | x :: l, i => by
    rw [scanFrom, List.findIdx?_cons]
    split
    · rw [Option.map_some, Nat.zero_add]
    · rw [scanFrom_eq l (i + 1), Option.map_map]
      refine congrArg (Option.map · _) (funext fun j => ?_)
      show j + (i + 1) = j + 1 + i
      omega

theorem scan_eq (l : List α) : scan test l = l.findIdx? test := by
  rw [scan, scanFrom_eq]
  exact Option.map_id'

theorem scan_none (h : ¬ ∃ x ∈ l, test x = true) : scan test l = none := by
  rw [scan_eq, List.findIdx?_eq_none_iff]
  intro x hx
  exact Bool.eq_false_iff.2 fun hx' => h ⟨x, hx, hx'⟩

theorem scan_some (h : ∃ x ∈ l, test x = true) : scan test l = some (l.findIdx test) := by
  rw [scan_eq, List.findIdx?_eq_some_iff_findIdx_eq]
  exact ⟨List.findIdx_lt_length_of_exists h, rfl⟩

/-- Erasing the place of the first match erases the first match. -/
theorem eraseIdx_findIdx : ∀ l : List α, l.eraseIdx (l.findIdx test) = l.eraseP test
  | [] => rfl
  | x :: l => by
    rw [List.findIdx_cons, List.eraseP_cons]
    cases test x with
    | true => rfl
    | false => exact congrArg (x :: ·) (eraseIdx_findIdx l)

end Alpine.Scan
