import Alpine.Base.AddrRange
import Alpine.Lib.BitField
import Alpine.Lib.Outcome

/-!
# Merging interleaved ranges (`base/addr_range.hh`)

The constructor that makes one range of all stripes of an interleaving.

* `merge` — as in the source: the number of ranges and the value of each is checked.
* `merge_contains` — the merged range has the addresses of the ranges and no other.
* `isSubset_sound` — a range without interleaving that passes for a subset of another is one, unless the size
  of the other is 0.
-/

namespace Alpine.Base

/-- How the constructor ends without a range. -/
inductive MergeFault where
  | fatal (msg : String)
  | undefinedShift

namespace AddrRange

open BitField

variable {r r' : AddrRange}

/-- `AddrRange(Addr _start, Addr _end)`. -/
def interval (start stop : Nat) (h : start < 2 ^ 64 ∧ stop < 2 ^ 64) : AddrRange where
  start := start
  stop := stop
  fits := h
  slice := plain_slice
  xorSlice := plain_xorSlice

theorem empty_fits : 1 < 2 ^ 64 ∧ 0 < 2 ^ 64 := ⟨by decide, by decide⟩

/-- `AddrRange()`. -/
def empty : AddrRange := interval 1 0 empty_fits

/-- The loop over the ranges; the match value is a byte. -/
def mergeLoop (front : AddrRange) : Nat → List AddrRange → Except MergeFault Unit
  | _, [] => .ok ()
  | m, r :: rs =>
    if !front.mergesWith r then
      .error (.fatal "Can only merge ranges with the same start, end and interleaving bits\n")
    else if r.intlvMatch ≠ m then
      .error (.fatal "Expected interleave match %d but got %d when merging\n")
    else mergeLoop front ((m + 1) % 256) rs

/-- `AddrRange(const std::vector<AddrRange>& ranges)`. -/
def merge : List AddrRange → Except MergeFault AddrRange
  | [] => .ok empty
  | front :: rest =>
    if front.intlvBits ≥ 64 then .error .undefinedShift
    else if (front :: rest).length ≠ 2 ^ front.intlvBits then
      .error (.fatal "Got %d ranges spanning %d interleaving bits\n")
    else
      match mergeLoop front 0 (front :: rest) with
      | .error f => .error f
      | .ok () => .ok (interval front.start front.stop front.fits)

/-! ## The bits that select a stripe -/

theorem bits_eq_field (a high n : Nat) (hn : n ≤ high + 1) :
    bits a high (high + 1 - n) = field (high + 1 - n) n a := by
  have hlen : high + 1 - (high + 1 - n) = n := by omega
  unfold bits field
  rw [hlen, Nat.shiftRight_eq_div_pow]

theorem contains_iff (hi : r.interleaved = true) {a : Nat} :
    r.contains a = true ↔ (r.start ≤ a ∧ a ≤ r.stop) ∧ r.stripe a = r.intlvMatch := by
  simp [contains, hi]

theorem intlvBits_ne (hi : r.interleaved = true) : r.intlvBits ≠ 0 := by simpa [interleaved] using hi

theorem stripe_lt (hi : r.interleaved = true) (a : Nat) : r.stripe a < 2 ^ r.intlvBits := by
  obtain ⟨-, hle, -⟩ := r.slice (intlvBits_ne hi)
  unfold stripe
  split
  · rename_i hh
    simp only [hashed, Bool.and_eq_true, decide_eq_true_eq] at hh
    obtain ⟨-, hxle, -⟩ := r.xorSlice (intlvBits_ne hi) hh.2
    rw [bits_eq_field _ _ _ hle, bits_eq_field _ _ _ hxle]
    exact Nat.xor_lt_two_pow (field_lt _ _ _) (field_lt _ _ _)
  · rw [bits_eq_field _ _ _ hle]
    exact field_lt _ _ _

/-- Addresses of one granule are in the same stripe. -/
theorem stripe_granule (hi : r.interleaved = true) {a b : Nat} (h : a / r.granularity = b / r.granularity) :
    r.stripe a = r.stripe b := by
  obtain ⟨-, hle, -⟩ := r.slice (intlvBits_ne hi)
  unfold granularity at h
  rw [hi, if_pos rfl] at h
  unfold stripe
  split at h
  · rename_i hh
    have hx : r.xorHighBit ≠ 0 := by
      simp only [hashed, Bool.and_eq_true, decide_eq_true_eq] at hh
      exact hh.2
    obtain ⟨-, hxle, -⟩ := r.xorSlice (intlvBits_ne hi) hx
    rw [if_pos hh, if_pos hh, bits_eq_field a _ _ hle, bits_eq_field b _ _ hle, bits_eq_field a _ _ hxle,
      bits_eq_field b _ _ hxle, field_block (Nat.min_le_left _ _) h, field_block (Nat.min_le_right _ _) h]
  · rename_i hh
    rw [if_neg hh, if_neg hh, bits_eq_field a _ _ hle, bits_eq_field b _ _ hle, field_block (Nat.le_refl _) h]

/-! ## The merged range -/

theorem mergeLoop_ok {front : AddrRange} : ∀ {rs : List AddrRange} {m : Nat}, m < 256 →
    mergeLoop front m rs = .ok () → (∀ r ∈ rs, front.mergesWith r = true) ∧
      ∀ (i : Nat) (r : AddrRange), rs[i]? = some r → r.intlvMatch = (m + i) % 256
  | [], m, _, _ => ⟨fun r hr => absurd hr List.not_mem_nil, fun i r hr => by simp at hr⟩
  | r :: rs, m, hm, h => by
    unfold mergeLoop at h
    split at h
    · cases h
    · rename_i hmerges
      split at h
      · cases h
      · rename_i hmatch
        obtain ⟨hall, hvalues⟩ := mergeLoop_ok (Nat.mod_lt _ (by decide)) h
        constructor
        · intro r' hr'
          rcases List.mem_cons.1 hr' with rfl | hr'
          · simpa using hmerges
          · exact hall r' hr'
        · intro i r' hi
          cases i with
          | zero =>
            cases hi
            rw [not_not.1 hmatch, Nat.add_zero, Nat.mod_eq_of_lt hm]
          | succ i =>
            rw [hvalues i r' (by simpa using hi), Nat.mod_add_mod]
            congr 1
            omega

theorem merge_ok {rs : List AddrRange} (h : merge rs = .ok r) (hne : rs ≠ []) :
    r.interleaved = false ∧ ∃ front ∈ rs, r.start = front.start ∧ r.stop = front.stop ∧
      rs.length = 2 ^ front.intlvBits ∧ (∀ r' ∈ rs, front.mergesWith r' = true) ∧
      ∀ (i : Nat) (r' : AddrRange), rs[i]? = some r' → r'.intlvMatch = i % 256 := by
  cases rs with
  | nil => exact absurd rfl hne
  | cons front rest =>
    rw [merge] at h
    split at h
    · cases h
    · split at h
      · cases h
      · rename_i hlen
        split at h
        · cases h
        · rename_i hloop
          cases h
          obtain ⟨hall, hvalues⟩ := mergeLoop_ok (by decide) hloop
          refine ⟨rfl, front, List.mem_cons_self, rfl, rfl, not_not.1 hlen, hall, fun i r' hi => ?_⟩
          rw [hvalues i r' hi, Nat.zero_add]

/-- Ranges of one interleaving in the order of the map are fewer than a byte can count. -/
theorem length_le_of_sorted {rs : List AddrRange} {front : AddrRange}
    (hsorted : rs.Pairwise fun r r' => r.lt r' = true) (hall : ∀ r ∈ rs, front.mergesWith r = true)
    (hvalues : ∀ (i : Nat) (r : AddrRange), rs[i]? = some r → r.intlvMatch = i % 256) : rs.length ≤ 256 := by
  by_contra hlong
  have h0 : 0 < rs.length := by omega
  have h256 : 256 < rs.length := by omega
  have hlt := List.pairwise_iff_getElem.1 hsorted 0 256 h0 h256 (by decide)
  have hv0 := hvalues 0 rs[0] (List.getElem?_eq_getElem h0)
  have hv256 := hvalues 256 rs[256] (List.getElem?_eq_getElem h256)
  obtain ⟨hs0, -⟩ := mergesWith_iff.1 (hall rs[0] (List.getElem_mem h0))
  obtain ⟨hs256, -⟩ := mergesWith_iff.1 (hall rs[256] (List.getElem_mem h256))
  rw [lt_iff] at hlt
  omega

/-- **The merged range has the addresses of the stripes.** -/
theorem merge_contains {rs : List AddrRange} (h : merge rs = .ok r) (hne : rs ≠ [])
    (hsorted : rs.Pairwise fun r r' => r.lt r' = true) (hi : ∀ r' ∈ rs, r'.interleaved = true) (a : Nat) :
    r.contains a = true ↔ ∃ r' ∈ rs, r'.contains a = true := by
  obtain ⟨hplain, front, hfront, hstart, hstop, hlen, hall, hvalues⟩ := merge_ok h hne
  rw [contains_plain hplain, hstart, hstop]
  constructor
  · intro hbetween
    have hshort := length_le_of_sorted hsorted hall hvalues
    have hstripe : front.stripe a < rs.length := hlen ▸ stripe_lt (hi front hfront) a
    have hmem := List.getElem_mem hstripe
    obtain ⟨hs, ht, -⟩ := mergesWith_iff.1 (hall _ hmem)
    refine ⟨rs[front.stripe a], hmem, (contains_iff (hi _ hmem)).2 ⟨by rwa [hs, ht], ?_⟩⟩
    rw [stripe_of_merges (hall _ hmem), hvalues _ _ (List.getElem?_eq_getElem hstripe)]
    exact (Nat.mod_eq_of_lt (Nat.lt_of_lt_of_le hstripe hshort)).symm
  · rintro ⟨r', hr', ha⟩
    obtain ⟨hs, ht, -⟩ := mergesWith_iff.1 (hall r' hr')
    have hbetween := between_of_contains ha
    rwa [hs, ht] at hbetween

/-! ## Subsets -/

theorem size_zero_of_all (hstart : r.start = 0) (hstop : r.stop = 2 ^ 64 - 1) : r.size = 0 := by
  unfold size
  rw [hstart, hstop]
  exact Nat.zero_shiftRight _

/-- **A range that passes for a subset is one.** -/
theorem isSubset_sound (hr : r.interleaved = false)
    (hsize : r'.interleaved = true → r'.start ≤ r'.stop → r'.size ≠ 0) (h : r.isSubset r' = .ok true)
    {a : Nat} (ha : r.contains a = true) : r'.contains a = true := by
  obtain ⟨h1, h2⟩ := (contains_plain hr).1 ha
  unfold isSubset at h
  rw [hr, if_neg Bool.false_ne_true] at h
  split at h
  · rename_i hi
    simp only [Except.ok.injEq, Bool.and_eq_true, decide_eq_true_eq] at h
    obtain ⟨⟨hfirst, hlast⟩, hgran⟩ := h
    obtain ⟨⟨hs, -⟩, hsf⟩ := (contains_iff hi).1 hfirst
    obtain ⟨⟨-, ht⟩, hsl⟩ := (contains_iff hi).1 hlast
    -- the size of the range does not wrap around, as that of the other does not
    have hshort : r.stop - r.start + 1 ≤ r'.granularity := by
      have hbits : r.intlvBits = 0 := by simpa [interleaved] using hr
      have hfits := r.fits
      have hfits' := r'.fits
      unfold size at hgran
      rw [hbits, Nat.shiftRight_zero] at hgran
      by_cases hall : r.start = 0 ∧ r.stop = 2 ^ 64 - 1
      · exact absurd (size_zero_of_all (by omega) (by omega)) (hsize hi (by omega))
      · omega
    refine (contains_iff hi).2 ⟨⟨by omega, by omega⟩, ?_⟩
    rcases block_of_short h1 h2 hshort with hblock | hblock
    · rw [stripe_granule hi hblock, hsf]
    · rw [stripe_granule hi hblock, hsl]
  · rename_i hi
    simp only [Except.ok.injEq, Bool.and_eq_true, decide_eq_true_eq] at h
    exact (contains_plain (Bool.eq_false_iff.2 hi)).2 ⟨by omega, by omega⟩

end AddrRange

end Alpine.Base
