import Alpine.Lib.BitField
import Mathlib.Data.Finset.Card
import Mathlib.Order.Interval.Finset.Nat

/-!
# The order of the numbers of a stripe

A stripe has the numbers whose field, xored with a function of the bits above it, has a given value.

* `Striped.cut_lt_cut` — taking the field out keeps the order within a stripe.
* `Striped.exists_cut` — the rests of the numbers of a stripe in an interval are an interval.
* `Striped.cut_sub_lt_card` — it is as long as there are such numbers; `Striped.card_le` — of which there are
  at most as many as the blocks of the interval have rests.
* `card_fiber_le` — if a class and a position below `b` determine a number modulo `P`, a class has at most `b`
  of the numbers that are less than `P` apart.
-/

namespace Alpine.BitField

variable {low k m : Nat} {other : Nat → Nat}

structure Striped (low k m : Nat) (other : Nat → Nat) : Prop where
  lt : m < 2 ^ k
  other_lt : ∀ a, other a < 2 ^ k
  above : ∀ a b, a / 2 ^ (low + k) = b / 2 ^ (low + k) → other a = other b

/-- The numbers of the stripe. -/
def InStripe (low k m : Nat) (other : Nat → Nat) (a : Nat) : Prop := field low k a ^^^ other a = m

variable {a b : Nat}

theorem cut_lt_of_div_lt (h : a / 2 ^ (low + k) < b / 2 ^ (low + k)) : cut low k a < cut low k b := by
  apply Nat.lt_of_div_lt_div (c := 2 ^ low)
  rw [cut_div, cut_div]
  exact h

theorem Striped.field_eq (hs : Striped low k m other) (ha : InStripe low k m other a)
    (hb : InStripe low k m other b) (h : a / 2 ^ (low + k) = b / 2 ^ (low + k)) : field low k a = field low k b := by
  unfold InStripe at ha hb
  rw [hs.above a b h, ← hb] at ha
  exact Nat.xor_left_inj.1 ha

theorem div_low_eq (hdiv : a / 2 ^ (low + k) = b / 2 ^ (low + k)) (hfield : field low k a = field low k b) :
    a / 2 ^ low = b / 2 ^ low := by
  have hsplit : ∀ c : Nat, c / 2 ^ low = 2 ^ k * (c / 2 ^ (low + k)) + field low k c := by
    intro c
    rw [field, Nat.pow_add, ← Nat.div_div_eq_div_mul, Nat.div_add_mod]
  rw [hsplit a, hsplit b, hdiv, hfield]

theorem Striped.cut_lt_cut (hs : Striped low k m other) (ha : InStripe low k m other a)
    (hb : InStripe low k m other b) (hlt : a < b) : cut low k a < cut low k b := by
  rcases Nat.lt_or_eq_of_le (Nat.div_le_div_right (c := 2 ^ (low + k)) hlt.le) with hdiv | hdiv
  · exact cut_lt_of_div_lt hdiv
  · have hlow := div_low_eq hdiv (hs.field_eq ha hb hdiv)
    have hmod : a % 2 ^ low < b % 2 ^ low := by
      rw [← Nat.div_add_mod a (2 ^ low), ← Nat.div_add_mod b (2 ^ low), hlow] at hlt
      exact Nat.lt_of_add_lt_add_left hlt
    unfold cut
    rw [hdiv]
    exact Nat.add_lt_add_left hmod _

/-- Each rest is that of a number of the stripe. -/
theorem Striped.surj (hs : Striped low k m other) (rest : Nat) : ∃ a, InStripe low k m other a ∧ cut low k a = rest := by
  have hcongr : ∀ a b, cut low k a = cut low k b → other a = other b := by
    intro a b hcut
    apply hs.above
    rw [← cut_div, ← cut_div, hcut]
  obtain ⟨a, ha, hcut⟩ := (bijOn_cut hs.lt hs.other_lt hcongr).surjOn (Set.mem_univ rest)
  exact ⟨a, ha, hcut⟩

section Interval

variable {X : Finset Nat} {x0 x1 : Nat}

/-- The numbers of the stripe in an interval. -/
def IsStripe (low k m : Nat) (other : Nat → Nat) (x0 x1 : Nat) (X : Finset Nat) : Prop :=
  ∀ x, x ∈ X ↔ (x0 ≤ x ∧ x ≤ x1) ∧ InStripe low k m other x

theorem Striped.exists_cut (hs : Striped low k m other) (hX : IsStripe low k m other x0 x1 X) {rest : Nat}
    (ha : a ∈ X) (hb : b ∈ X) (hle : cut low k a ≤ rest) (hge : rest ≤ cut low k b) :
    ∃ c ∈ X, cut low k c = rest := by
  obtain ⟨⟨hlo, _⟩, has⟩ := (hX a).1 ha
  obtain ⟨⟨_, hhi⟩, hbs⟩ := (hX b).1 hb
  obtain ⟨c, hc, rfl⟩ := hs.surj rest
  refine ⟨c, (hX c).2 ⟨⟨?_, ?_⟩, hc⟩, rfl⟩
  · by_contra hlt
    exact absurd (hs.cut_lt_cut hc has (by omega)) (Nat.not_lt.2 hle)
  · by_contra hlt
    exact absurd (hs.cut_lt_cut hbs hc (by omega)) (Nat.not_lt.2 hge)

theorem Striped.cut_sub_lt_card (hs : Striped low k m other) (hX : IsStripe low k m other x0 x1 X)
    (ha : a ∈ X) (hb : b ∈ X) : cut low k b < cut low k a + X.card := by
  have hsub : Finset.Icc (cut low k a) (cut low k b) ⊆ X.image (cut low k) := by
    intro rest hrest
    obtain ⟨hle, hge⟩ := Finset.mem_Icc.1 hrest
    exact Finset.mem_image.2 (hs.exists_cut hX ha hb hle hge)
  have hcard := (Finset.card_le_card hsub).trans Finset.card_image_le
  rw [Nat.card_Icc] at hcard
  have hpos : 0 < X.card := Finset.card_pos.2 ⟨a, ha⟩
  omega

theorem Striped.injOn (hs : Striped low k m other) (hX : IsStripe low k m other x0 x1 X) :
    Set.InjOn (cut low k) X := by
  intro a ha b hb hcut
  have has := ((hX a).1 ha).2
  have hbs := ((hX b).1 hb).2
  rcases Nat.lt_trichotomy a b with hab | hab | hba
  · exact absurd hcut (hs.cut_lt_cut has hbs hab).ne
  · exact hab
  · exact absurd hcut (hs.cut_lt_cut hbs has hba).ne'

theorem Striped.card_le (hs : Striped low k m other) (hX : IsStripe low k m other x0 x1 X) :
    X.card ≤ (x1 / 2 ^ (low + k) + 1 - x0 / 2 ^ (low + k)) * 2 ^ low := by
  have hmaps : ∀ a ∈ X, cut low k a ∈
      Finset.Ico (x0 / 2 ^ (low + k) * 2 ^ low) ((x1 / 2 ^ (low + k) + 1) * 2 ^ low) := by
    intro a ha
    obtain ⟨⟨hlo, hhi⟩, _⟩ := (hX a).1 ha
    rw [Finset.mem_Ico, ← Nat.le_div_iff_mul_le (Nat.two_pow_pos _), ← Nat.div_lt_iff_lt_mul (Nat.two_pow_pos _),
      cut_div]
    exact ⟨Nat.div_le_div_right hlo, Nat.lt_succ_of_le (Nat.div_le_div_right hhi)⟩
  have hcard := Finset.card_le_card_of_injOn (cut low k) hmaps (hs.injOn hX)
  rwa [Nat.card_Ico, ← Nat.sub_mul] at hcard

end Interval

/-! ## Classes -/

theorem eq_of_mod_eq {P : Nat} (h : a % P = b % P) (hle : a ≤ b) (hlt : b < a + P) : a = b := by
  have hzero := Nat.sub_mod_eq_zero_of_mod_eq h.symm
  rw [Nat.mod_eq_of_lt (by omega)] at hzero
  omega

/-- Numbers less than `P` apart, of one class, differ in their positions. -/
theorem card_fiber_le {τ : Type} [DecidableEq τ] {X : Finset Nat} {e pos : Nat → Nat} {f : Nat → τ} {P : Nat}
    (hinj : Set.InjOn e X) (hnear : ∀ x ∈ X, ∀ y ∈ X, e y < e x + P) (hpos : ∀ x ∈ X, pos x < b)
    (hmod : ∀ x ∈ X, ∀ y ∈ X, f x = f y → pos x = pos y → e x % P = e y % P) (t : τ) :
    (X.filter fun x => f x = t).card ≤ b := by
  rw [← Finset.card_range b]
  refine Finset.card_le_card_of_injOn pos (fun x hx => ?_) fun x hx y hy heq => ?_
  · exact Finset.mem_coe.2 (Finset.mem_range.2 (hpos x (Finset.mem_filter.1 hx).1))
  · obtain ⟨hxX, hxt⟩ := Finset.mem_filter.1 hx
    obtain ⟨hyX, hyt⟩ := Finset.mem_filter.1 hy
    have hx' := hnear x hxX y hyX
    have hy' := hnear y hyX x hxX
    have heqmod := hmod x hxX y hyX (hxt.trans hyt.symm) heq
    apply hinj hxX hyX
    rcases Nat.le_total (e x) (e y) with hle | hle
    · exact eq_of_mod_eq heqmod hle hx'
    · exact (eq_of_mod_eq heqmod.symm hle hy').symm

end Alpine.BitField
