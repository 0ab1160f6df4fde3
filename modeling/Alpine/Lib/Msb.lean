import Mathlib.Data.List.Infix

/-!
# Words read from the most significant bit

A word of `w` bits as the list of its bits, the most significant one first, and the masks that keep a
prefix of it.

* `word_bits` — a word is the word of its bits.
* `word_and_mask` — masking a word takes a prefix of its list.
* `mask_and`, `mask_succ`, `mask_shift` — masks under conjunction, under the shift by one place, and as
  a shifted word of ones.
* `word_inj`, `mask_inj` — lists of one length, and lengths up to `w`, are told apart.
-/

namespace Alpine.Msb

variable {w : Nat}

/-- The bits of a word, the most significant one first. -/
def bits (x : BitVec w) : List Bool :=
  List.ofFn fun i : Fin w => x.getMsbD i

/-- The word that starts with these bits and goes on with zeros. -/
def word (w : Nat) (p : List Bool) : BitVec w :=
  (BitVec.ofBoolListBE (List.ofFn fun i : Fin w => p.getD i false)).cast List.length_ofFn

/-- The mask of the first `n` bits. -/
def mask (w n : Nat) : BitVec w :=
  word w (List.replicate n true)

@[simp] theorem length_bits (x : BitVec w) : (bits x).length = w := by
  simp [bits]

@[simp] theorem getMsbD_word (p : List Bool) (i : Nat) :
    (word w p).getMsbD i = (decide (i < w) && p.getD i false) := by
  unfold word
  rw [BitVec.getMsbD_cast, BitVec.getMsbD_ofBoolListBE]
  by_cases hi : i < w <;> simp [hi]

@[simp] theorem getMsbD_mask (n i : Nat) : (mask w n).getMsbD i = decide (i < w ∧ i < n) := by
  unfold mask
  rw [getMsbD_word]
  by_cases hn : i < n <;> simp [hn]

theorem word_bits (x : BitVec w) : word w (bits x) = x := by
  apply BitVec.eq_of_getMsbD_eq
  intro i hi
  simp [bits, hi]

@[simp] theorem word_nil : word w [] = 0 := by
  apply BitVec.eq_of_getMsbD_eq
  intro i hi
  rw [getMsbD_word, BitVec.getMsbD_eq_getLsbD]
  simp

@[simp] theorem mask_zero : mask w 0 = 0 := word_nil

theorem word_and_mask (p : List Bool) (n : Nat) : word w p &&& mask w n = word w (p.take n) := by
  apply BitVec.eq_of_getMsbD_eq
  intro i hi
  rw [BitVec.getMsbD_and, getMsbD_word, getMsbD_word, getMsbD_mask, List.getD_eq_getElem?_getD,
    List.getD_eq_getElem?_getD]
  by_cases hn : i < n
  · simp [hi, hn]
  · rw [List.getElem?_take_eq_none (Nat.le_of_not_lt hn)]
    simp [hn]

theorem and_mask (x : BitVec w) (n : Nat) : x &&& mask w n = word w ((bits x).take n) := by
  rw [← word_and_mask, word_bits]

theorem mask_and (m n : Nat) : mask w m &&& mask w n = mask w (min m n) := by
  unfold mask
  rw [show word w (List.replicate n true) = mask w n from rfl, word_and_mask, List.take_replicate, Nat.min_comm]

/-- One more bit towards the least significant one. -/
theorem mask_succ (n : Nat) (hw : 0 < w) : mask w n ||| mask w n >>> 1 ||| (1#w) <<< (w - 1) = mask w (n + 1) := by
  apply BitVec.eq_of_getMsbD_eq
  intro i hi
  simp only [BitVec.getMsbD_or, getMsbD_mask, BitVec.getMsbD_ushiftRight, BitVec.getMsbD_shiftLeft,
    BitVec.getMsbD_one]
  rw [Bool.eq_iff_iff]
  simp only [Bool.or_eq_true, Bool.and_eq_true, decide_eq_true_eq, Bool.not_eq_true', decide_eq_false_iff_not]
  omega

theorem mask_shift (n : Nat) (hn : n ≤ w) : BitVec.allOnes w <<< (w - n) = mask w n := by
  apply BitVec.eq_of_getMsbD_eq
  intro i hi
  rw [BitVec.getMsbD_shiftLeft, BitVec.getMsbD_allOnes, getMsbD_mask]
  rw [decide_eq_decide]
  omega

theorem mask_full : mask w w = BitVec.allOnes w := by
  rw [← mask_shift w Nat.le.refl, Nat.sub_self, BitVec.shiftLeft_zero]

theorem word_inj {p q : List Bool} (hlen : p.length = q.length) (hp : p.length ≤ w)
    (h : word w p = word w q) : p = q := by
  apply List.ext_getElem hlen
  intro i hi hi'
  have hbit := congrArg (fun x => x.getMsbD i) h
  simpa [show i < w by omega, hi, hi'] using hbit

theorem mask_inj {m n : Nat} (hm : m ≤ w) (hn : n ≤ w) (h : mask w m = mask w n) : m = n := by
  have hbit : ∀ i, (i < w ∧ i < m) ↔ (i < w ∧ i < n) := by
    intro i
    have hi := congrArg (fun x => x.getMsbD i) h
    simpa only [getMsbD_mask, decide_eq_decide] using hi
  have h1 := hbit m
  have h2 := hbit n
  omega

end Alpine.Msb
