import Alpine.Aimc.Transfer

/-!
# Vectors queued one after the other (`aimclib/aimc_queue.hh`)

* `layout` — the vectors of a list, each padded with zeros to whole words, one after the other.
* `queueVectors_spec` — queueing them writes the layout from the counter on, without the words that do not
  end strictly inside the memory.
* `back_to_back_iff` — **from an empty input memory, vectors that fit are laid out back to back exactly when
  they leave the memory's last word free**, or fill it with zeros.
-/

namespace Alpine.Aimc

open Check

variable {H W n : Nat}

/-- A vector and its length. -/
abbrev Int8Vector := Σ size : Nat, Vector (BitVec 8) size

def queueVectors (mem : AnalogComputationalMemory H W n) (tid : Int) :
    List Int8Vector → Option (AnalogComputationalMemory H W n)
  | [] => some mem
  | v :: vs => do
    let mem ← queueVector mem (some v.2) tid
    queueVectors mem tid vs

/-- The vector, zero-padded to a multiple of four. -/
def padded (v : Int8Vector) : List (BitVec 8) :=
  (List.range (4 * ((v.1 + 3) / 4))).map (pad v.2)

def layout : List Int8Vector → List (BitVec 8)
  | [] => []
  | v :: vs => padded v ++ layout vs

/-- Queueing `vs` leaves their layout in the input memory, zeros beyond, and the counter at its end. -/
def BackToBack (m : AnalogComputationalMemory H W n) {k : Nat} (hk : k < n) (vs : List Int8Vector) : Prop :=
  queueVectors m k vs = some (m.set k { m[k] with
    inputMemory := Vector.ofFn fun p => (layout vs).getD p 0
    inputMemoryCounter := (layout vs).length })

/-- The last four bytes are zero. -/
def LastWordZero (bytes : List (BitVec 8)) : Prop :=
  ∀ p, bytes.length ≤ p + 4 → bytes.getD p 0 = 0

@[simp] theorem padded_length (v : Int8Vector) : (padded v).length = 4 * ((v.1 + 3) / 4) := by
  simp [padded]

theorem padded_getD (v : Int8Vector) (p : Nat) : (padded v).getD p 0 = pad v.2 p := by
  unfold padded
  by_cases h : p < 4 * ((v.1 + 3) / 4)
  · simp [List.getD_eq_getElem?_getD, h]
  · have hpad : pad v.2 p = 0 := dif_neg (by omega)
    simp [List.getD_eq_getElem?_getD, h, hpad]

theorem layout_words (vs : List Int8Vector) : (layout vs).length % 4 = 0 := by
  induction vs with
  | nil => rfl
  | cons v vs ih =>
    rw [layout, List.length_append, padded_length]
    omega

/-- The input memory after `bytes` have been queued from word `b` on: a word that ends at the end of the
memory or behind it is not stored. -/
def Laid (bytes : List (BitVec 8)) (b : Nat) (old mem : Vector (BitVec 8) H) : Prop :=
  ∀ p (hp : p < H), mem[p] =
    if (4 * b ≤ p ∧ p < 4 * b + bytes.length) ∧ 4 * (p / 4) + 4 < H then bytes.getD (p - 4 * b) 0 else old[p]

theorem Laid.nil (b : Nat) (mem : Vector (BitVec 8) H) : Laid [] b mem mem := by
  intro p hp
  rw [if_neg]
  rintro ⟨⟨hlo, hhi⟩, _⟩
  rw [List.length_nil] at hhi
  omega

/-- What is laid behind other bytes extends them. -/
theorem Laid.append {xs ys : List (BitVec 8)} {b b' : Nat} {old mem mem' : Vector (BitVec 8) H}
    (hx : Laid xs b old mem) (hy : Laid ys b' mem mem') (hb : 4 * b' = 4 * b + xs.length) :
    Laid (xs ++ ys) b old mem' := by
  intro p hp
  rw [hy p hp, hx p hp, List.length_append]
  by_cases hin : 4 * (p / 4) + 4 < H
  · by_cases hlt : p < 4 * b'
    · rw [if_neg (fun e => absurd e.1.1 (by omega))]
      by_cases hlo : 4 * b ≤ p
      · rw [if_pos ⟨⟨hlo, by omega⟩, hin⟩, if_pos ⟨⟨hlo, by omega⟩, hin⟩, List.getD_append _ _ _ _ (by omega)]
      · rw [if_neg (fun e => hlo e.1.1), if_neg (fun e => hlo e.1.1)]
    · have hold : ¬ ((4 * b ≤ p ∧ p < 4 * b + xs.length) ∧ 4 * (p / 4) + 4 < H) := by omega
      rw [if_neg hold]
      by_cases hhi : p < 4 * b' + ys.length
      · rw [if_pos ⟨⟨by omega, hhi⟩, hin⟩, if_pos ⟨⟨by omega, by omega⟩, hin⟩,
          List.getD_append_right _ _ _ _ (by omega), show p - 4 * b - xs.length = p - 4 * b' by omega]
      · rw [if_neg (fun e => hhi e.1.2), if_neg (fun e => absurd e.1.2 (by omega))]
  · rw [if_neg (fun e => hin e.2), if_neg (fun e => hin e.2), if_neg (fun e => hin e.2)]

theorem set_unqueued (m : AnalogComputationalMemory H W n) {k : Nat} (hk : k < n) {c : Nat}
    (hc : m[k].inputMemoryCounter = c) :
    m.set k { m[k] with inputMemory := m[k].inputMemory, inputMemoryCounter := c } = m := by
  rw [← hc]
  exact Vector.set_getElem_self hk

/-- One vector, the empty one included. -/
theorem queueVector_laid (m : AnalogComputationalMemory H W n) {k : Nat} (hk : k < n) {b : Nat}
    (hb : m[k].inputMemoryCounter = (4 * b : Nat)) (v : Int8Vector) (hfit : 4 * b + (padded v).length < 2147483648) :
    ∃ mem, queueVector m (some v.2) k = some (m.set k { m[k] with
        inputMemory := mem, inputMemoryCounter := (4 * b + (padded v).length : Nat) }) ∧
      Laid (padded v) b m[k].inputMemory mem := by
  obtain ⟨size, v⟩ := v
  by_cases hsize : size = 0
  · subst hsize
    have hnone : padded ⟨0, v⟩ = [] := by simp [padded]
    rw [hnone, List.length_nil, Nat.add_zero]
    refine ⟨m[k].inputMemory, ?_, Laid.nil b _⟩
    rw [set_unqueued m hk hb]
    rfl
  · rw [padded_length] at hfit ⊢
    dsimp only at hfit ⊢
    obtain ⟨mem, hmem, hq⟩ := queueVector_spec m hk hb (by omega) hfit v
    refine ⟨mem, hmem, fun p hp => ?_⟩
    rw [hq p hp, padded_getD, padded_length]
    have hword : 4 * b ≤ p → 4 * b + 4 * ((p - 4 * b) / 4) = 4 * (p / 4) := by omega
    by_cases hlo : 4 * b ≤ p
    · simp only [hlo, hword hlo, true_and]
    · rw [if_neg (fun e => hlo e.1), if_neg (fun e => hlo e.1.1)]

theorem queueVectors_spec {k : Nat} (hk : k < n) : ∀ (vs : List Int8Vector)
    (m : AnalogComputationalMemory H W n) {b : Nat}, m[k].inputMemoryCounter = (4 * b : Nat) →
    4 * b + (layout vs).length < 2147483648 → ∃ mem, queueVectors m k vs = some (m.set k { m[k] with
        inputMemory := mem, inputMemoryCounter := (4 * b + (layout vs).length : Nat) }) ∧
      Laid (layout vs) b m[k].inputMemory mem
  | [], m, b, hb, _ => by
    refine ⟨m[k].inputMemory, ?_, Laid.nil b _⟩
    rw [layout, List.length_nil, Nat.add_zero, set_unqueued m hk hb]
    rfl
  | v :: vs, m, b, hb, hfit => by
    rw [layout, List.length_append] at hfit
    obtain ⟨mem, hmem, hlaid⟩ := queueVector_laid m hk hb v (by omega)
    have hnext : 4 * b + (padded v).length = 4 * (b + (v.1 + 3) / 4) := by rw [padded_length]; omega
    obtain ⟨mem', hmem', hlaid'⟩ := queueVectors_spec hk vs (m.set k { m[k] with
        inputMemory := mem, inputMemoryCounter := (4 * b + (padded v).length : Nat) })
      (b := b + (v.1 + 3) / 4) (by rw [Vector.getElem_set_self, hnext]) (by omega)
    rw [Vector.getElem_set_self] at hlaid' hmem'
    refine ⟨mem', ?_, hlaid.append hlaid' hnext.symm⟩
    rw [queueVectors, hmem, bind_some_eq, hmem', Vector.set_set, layout, List.length_append, ← hnext, Nat.add_assoc]

/-- Only a word at the very end of the memory is lost. -/
theorem backToBack_iff_lost (m : AnalogComputationalMemory H W n) {k : Nat} (hk : k < n)
    (hH : H < 2147483648) (hmem : m[k].inputMemory = Vector.replicate H 0)
    (hcounter : m[k].inputMemoryCounter = 0) (vs : List Int8Vector) (hcap : (layout vs).length ≤ H) :
    BackToBack m hk vs ↔ ∀ p < H, ¬ 4 * (p / 4) + 4 < H → (layout vs).getD p 0 = 0 := by
  obtain ⟨mem, hrun, hlaid⟩ := queueVectors_spec hk vs m (b := 0) hcounter (by omega)
  have hcell : ∀ p (hp : p < H), mem[p] = if 4 * (p / 4) + 4 < H then (layout vs).getD p 0 else 0 := by
    intro p hp
    rw [hlaid p hp, hmem, Vector.getElem_replicate, Nat.mul_zero, Nat.zero_add, Nat.sub_zero]
    by_cases hin : p < (layout vs).length
    · simp only [hin, Nat.zero_le, true_and]
    · rw [if_neg (fun e => hin e.1.2), List.getD_eq_default _ _ (by omega), ite_self]
  rw [Nat.mul_zero, Nat.zero_add] at hrun
  unfold BackToBack
  rw [hrun]
  constructor
  · intro h p hp hlast
    have hsame := congrArg (fun m' : AnalogComputationalMemory H W n => m'[k].inputMemory) (Option.some.inj h)
    simp only [Vector.getElem_set_self] at hsame
    have hp' := hcell p hp
    rw [hsame, Vector.getElem_ofFn, if_neg hlast] at hp'
    exact hp'
  · intro h
    have hsame : mem = Vector.ofFn fun p : Fin H => (layout vs).getD p 0 := Vector.ext fun p hp => by
      rw [hcell p hp, Vector.getElem_ofFn]
      by_cases hlast : 4 * (p / 4) + 4 < H
      · rw [if_pos hlast]
      · rw [if_neg hlast, h p hp hlast]
    rw [hsame]

/-- **Vectors that fit into an empty input memory are laid out back to back exactly when they leave its last
word free or fill it with zeros.** -/
theorem back_to_back_iff (m : AnalogComputationalMemory H W n) {k : Nat} (hk : k < n)
    (hH : H < 2147483648) (hmem : m[k].inputMemory = Vector.replicate H 0)
    (hcounter : m[k].inputMemoryCounter = 0) (vs : List Int8Vector) (hcap : (layout vs).length ≤ H) :
    BackToBack m hk vs ↔ (layout vs).length < H ∨ LastWordZero (layout vs) := by
  have hwords := layout_words vs
  rw [backToBack_iff_lost m hk hH hmem hcounter vs hcap]
  constructor
  · intro h
    refine or_iff_not_imp_left.2 fun hfull p hp => ?_
    by_cases hlt : p < H
    · exact h p hlt (by omega)
    · exact List.getD_eq_default _ _ (by omega)
  · rintro (hroom | hzero) p hp hlast
    · exact List.getD_eq_default _ _ (by omega)
    · by_cases hlt : p < (layout vs).length
      · exact hzero p (by omega)
      · exact List.getD_eq_default _ _ (by omega)

/-- Three vectors, one of them empty, in a memory of three words. -/
theorem back_to_back_iff_three :
    BackToBack (Vector.replicate 1 (Tile.fresh (H := 12) (W := 1) (by decide))) (k := 0) (by decide)
      [⟨3, #v[1, 255, 3]⟩, ⟨0, #v[]⟩, ⟨4, #v[4, 5, 6, 7]⟩] :=
  (back_to_back_iff _ (by decide) (by decide) rfl rfl _ (by decide)).2 (Or.inl (by decide))

/-- A vector of the size of the memory loses its last word. -/
theorem back_to_back_full :
    ¬ BackToBack (Vector.replicate 1 (Tile.fresh (H := 4000) (W := 4000) fits_4000)) (k := 0) (by decide)
      [⟨4000, Vector.replicate 4000 1⟩] := by
  have hlayout : layout [⟨4000, Vector.replicate 4000 1⟩] = padded ⟨4000, Vector.replicate 4000 1⟩ :=
    List.append_nil _
  rw [backToBack_iff_lost _ _ (by omega) (by rw [Vector.getElem_replicate]; rfl)
    (by rw [Vector.getElem_replicate]; rfl) _ (by rw [hlayout, padded_length]; decide)]
  intro h
  have hlast := h 3999 (by omega) (by omega)
  rw [hlayout, padded_getD, pad, dif_pos (by decide), Vector.getElem_replicate] at hlast
  exact absurd hlast (by decide)

end Alpine.Aimc
