import Alpine.Lib.Loop

/-!
# C++ `int` arithmetic and array accesses

Undefined behaviour is `none`:

* `int?` — the result of an `int` operation, undefined on signed overflow;
* `load`, `store` — `a[i]` and `a[i] = x` for an `int` index, undefined out of bounds.

Narrowing conversions are bit operations: a value of type `uint64_t` converted to `int` is
`toInt32` of its low half, a value of type `int8_t` converted to `uint64_t` is sign extended.
-/

namespace Alpine

variable {α : Type} {n : Nat}

/-- The values of a 32-bit `int`. -/
def IsInt (z : Int) : Prop := -2147483648 ≤ z ∧ z < 2147483648

instance (z : Int) : Decidable (IsInt z) := inferInstanceAs (Decidable (_ ∧ _))

/-- Result of an `int` operation whose exact value is `z`. -/
def int? (z : Int) : Option Int := if IsInt z then some z else none

theorem int?_some {z : Int} (h : IsInt z) : int? z = some z := if_pos h

theorem isInt_natCast {k : Nat} (h : k < 2147483648) : IsInt (k : Int) := by
  unfold IsInt; omega

theorem int?_natCast {k : Nat} (h : k < 2147483648) : int? (k : Int) = some (k : Int) :=
  int?_some (isInt_natCast h)

-- `Option.bind_some` is a definitional rewrite: to check it the kernel may unfold an `int?` of a
-- symbolic value and count down from `2 ^ 31`.  This form is checked as an ordinary equation.
theorem bind_some_eq {β : Type} (a : α) (f : α → Option β) : (some a >>= f) = f a :=
  Eq.trans rfl (Eq.refl _)

/-- `a[i]` for an array of `n` elements and an `int` index. -/
def load (a : Vector α n) (i : Int) : Option α :=
  if h : 0 ≤ i ∧ i < n then some (a.get ⟨i.toNat, by omega⟩) else none

/-- `a[i] = x` for an array of `n` elements and an `int` index. -/
def store (a : Vector α n) (i : Int) (x : α) : Option (Vector α n) :=
  if h : 0 ≤ i ∧ i < n then some (a.set i.toNat x (by omega)) else none

theorem load_nat (a : Vector α n) {i : Nat} (h : i < n) : load a (i : Int) = some a[i] := by
  unfold load
  rw [dif_pos ⟨by omega, by omega⟩]
  simp [Vector.get]

theorem store_nat (a : Vector α n) {i : Nat} (h : i < n) (x : α) : store a (i : Int) x = some (a.set i x h) := by
  unfold store
  rw [dif_pos ⟨by omega, by omega⟩]
  simp

theorem load_none (a : Vector α n) {i : Int} (h : ¬ (0 ≤ i ∧ i < n)) : load a i = none := dif_neg h

theorem store_none (a : Vector α n) {i : Int} (h : ¬ (0 ≤ i ∧ i < n)) (x : α) : store a i x = none := dif_neg h

/-- A loop storing `f 0, f 1, ..` at the positions from `c` on. -/
theorem foldlM_store (a : Vector α n) (c : Nat) (f : Nat → α) : ∀ (len : Nat), c + len ≤ n →
    ∃ b, (List.range len).foldlM (fun a (i : Nat) => store a ((c : Int) + i) (f i)) a = some b ∧
      ∀ k (hk : k < n), b[k] = if c ≤ k ∧ k < c + len then f (k - c) else a[k]
  | 0, _ => ⟨a, rfl, fun k hk => by rw [if_neg (by omega)]⟩
  | len + 1, hlen => by
    obtain ⟨b, hb, hget⟩ := foldlM_store a c f len (by omega)
    refine ⟨b.set (c + len) (f len), ?_, fun k hk => ?_⟩
    · rw [List.range_succ, List.foldlM_append, hb]
      simp only [List.foldlM_cons, List.foldlM_nil, bind_pure]
      exact store_nat b (by omega) (f len)
    · by_cases e : c + len = k
      · subst e
        rw [Vector.getElem_set_self, if_pos (by omega), Nat.add_sub_cancel_left]
      · rw [Vector.getElem_set_ne _ _ e, hget k hk]
        by_cases h : c ≤ k ∧ k < c + len
        · rw [if_pos h, if_pos (by omega)]
        · rw [if_neg h, if_neg (by omega)]

/-- Conversion of an unsigned 64-bit value to `int`. -/
def toInt32 (x : BitVec 64) : Int := (x.setWidth 32).toInt

/-- Conversion of an `int` to `uint64_t`. -/
def ofInt32 (z : Int) : BitVec 64 := BitVec.ofInt 64 z

theorem toInt32_ofInt32 {z : Int} (h : IsInt z) : toInt32 (ofInt32 z) = z := by
  unfold IsInt at h
  unfold toInt32 ofInt32
  rw [BitVec.toInt_setWidth, BitVec.toNat_ofInt, Int.toNat_of_nonneg (by omega)]
  rw [Int.bmod_def]
  omega

end Alpine
