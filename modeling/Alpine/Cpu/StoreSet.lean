import Alpine.Lib.OrderedMap
import Alpine.Lib.Run
import Mathlib

/-!
# Store sets

The predictor of memory dependences (`cpu/o3/store_set.cc`).  The SSIT gives a program counter its store set, the
LFST a store set the store of it that was fetched last, and `storeList` holds the stores that have not issued, the
youngest first.

The functions return `none` where an assertion fails, where an index is not in its table, and in `squash` where the
iterator is read at the end of the list or the loop does not end.  Valid bits are separate tables, as in the source.
`memOpsPred` wraps where the increment of the `int` is undefined.

* `Inv` — the invariant: the last fetched store of a set is at least as young as every store of it in the list.
* `squashLoop_spec` — so every store that is to go is taken out by the iteration that meets it.
* `squash_complete` — in every run `squash` ends and takes out what it has to, and no call leaves its tables.
-/

namespace Alpine.Cpu.StoreSets

/-- The arguments of `init`. -/
structure Params where
  clearPeriod : Nat
  SSITSize : Nat
  LFSTSize : Nat
  SSITSize_pow2 : ∃ b < 31, SSITSize = 2 ^ b
  LFSTSize_pow2 : ∃ b < 31, LFSTSize = 2 ^ b

structure StoreSet where
  SSIT : Array Nat
  validSSIT : Array Bool
  LFST : Array Nat
  validLFST : Array Bool
  storeList : List (Nat × Nat)
  memOpsPred : BitVec 32

/-- A vector after a write. -/
def write {α : Type} (v : Array α) (i : Nat) (x : α) : Option (Array α) :=
  if i < v.size then some (v.setIfInBounds i x) else none

namespace StoreSet

variable (q : Params)

/-- `ltseqnum`. -/
def ltseqnum (lhs rhs : Nat) : Prop := lhs > rhs

instance : DecidableRel ltseqnum := fun lhs rhs => inferInstanceAs (Decidable (lhs > rhs))

instance : IsStrictTotalOrder Nat ltseqnum := inferInstanceAs (IsStrictTotalOrder Nat (· > ·))

def init : StoreSet where
  SSIT := Array.replicate q.SSITSize 0
  validSSIT := Array.replicate q.SSITSize false
  LFST := Array.replicate q.LFSTSize 0
  validLFST := Array.replicate q.LFSTSize false
  storeList := []
  memOpsPred := 0

/-- With `offsetBits = 2`. -/
def calcIndex (PC : Nat) : Nat := (PC >>> 2) &&& (q.SSITSize - 1)

def calcSSID (PC : Nat) : Nat := (PC ^^^ (PC >>> 10)) % q.LFSTSize

/-- The entry of the SSIT becomes valid. -/
def setSSID (s : StoreSet) (index ssid : Nat) : Option StoreSet :=
  (write s.validSSIT index true).bind fun validSSIT =>
    (write s.SSIT index ssid).map fun SSIT => { s with validSSIT := validSSIT, SSIT := SSIT }

def violation (s : StoreSet) (store_PC load_PC : Nat) : Option StoreSet :=
  let load_index := calcIndex q load_PC
  let store_index := calcIndex q store_PC
  if q.SSITSize ≤ load_index ∨ q.SSITSize ≤ store_index then none
  else
    s.validSSIT[load_index]?.bind fun valid_load_SSID =>
      s.validSSIT[store_index]?.bind fun valid_store_SSID =>
        match valid_load_SSID, valid_store_SSID with
        | false, false =>
          let new_set := calcSSID q load_PC
          (s.setSSID load_index new_set).bind fun s =>
            (s.setSSID store_index new_set).bind fun s => if new_set < q.LFSTSize then some s else none
        | true, false =>
          s.SSIT[load_index]?.bind fun load_SSID =>
            (s.setSSID store_index load_SSID).bind fun s => if load_SSID < q.LFSTSize then some s else none
        | false, true => s.SSIT[store_index]?.bind fun store_SSID => s.setSSID load_index store_SSID
        | true, true =>
          s.SSIT[load_index]?.bind fun load_SSID =>
            s.SSIT[store_index]?.bind fun store_SSID =>
              if q.LFSTSize ≤ load_SSID ∨ q.LFSTSize ≤ store_SSID then none
              else if store_SSID > load_SSID then
                (write s.SSIT store_index load_SSID).map fun SSIT => { s with SSIT := SSIT }
              else (write s.SSIT load_index store_SSID).map fun SSIT => { s with SSIT := SSIT }

def clear (s : StoreSet) : StoreSet :=
  { s with
    validSSIT := Array.replicate s.validSSIT.size false
    validLFST := Array.replicate s.validLFST.size false
    storeList := [] }

/-- The comparison is one of 64-bit numbers without sign. -/
def checkClear (s : StoreSet) : StoreSet :=
  let s := { s with memOpsPred := s.memOpsPred + 1 }
  if (s.memOpsPred.signExtend 64).toNat > q.clearPeriod then { s with memOpsPred := 0 }.clear else s

def insertLoad (s : StoreSet) : StoreSet := s.checkClear q

def insertStore (s : StoreSet) (store_PC store_seq_num : Nat) : Option StoreSet :=
  let index := calcIndex q store_PC
  let s := s.checkClear q
  if q.SSITSize ≤ index then none
  else
    s.validSSIT[index]?.bind fun valid =>
      if !valid then some s
      else
        s.SSIT[index]?.bind fun store_SSID =>
          if q.LFSTSize ≤ store_SSID then none
          else
            (write s.LFST store_SSID store_seq_num).bind fun LFST =>
              (write s.validLFST store_SSID true).map fun validLFST =>
                { s with
                  LFST := LFST
                  validLFST := validLFST
                  storeList := OrderedMap.assign ltseqnum store_seq_num store_SSID s.storeList }

def checkInst (s : StoreSet) (PC : Nat) : Option Nat :=
  let index := calcIndex q PC
  if q.SSITSize ≤ index then none
  else
    s.validSSIT[index]?.bind fun valid =>
      if !valid then some 0
      else
        s.SSIT[index]?.bind fun inst_SSID =>
          if q.LFSTSize ≤ inst_SSID then none
          else s.validLFST[inst_SSID]?.bind fun valid => if !valid then some 0 else s.LFST[inst_SSID]?

def issued (s : StoreSet) (issued_PC issued_seq_num : Nat) (is_store : Bool) : Option StoreSet :=
  if !is_store then some s
  else
    let index := calcIndex q issued_PC
    if q.SSITSize ≤ index then none
    else
      let s := { s with storeList := s.storeList.filter fun e => e.1 ≠ issued_seq_num }
      s.validSSIT[index]?.bind fun valid =>
        if !valid then some s
        else
          s.SSIT[index]?.bind fun store_SSID =>
            if q.LFSTSize ≤ store_SSID then none
            else
              s.validLFST[store_SSID]?.bind fun valid =>
                s.LFST[store_SSID]?.bind fun last =>
                  if valid && last = issued_seq_num then
                    (write s.validLFST store_SSID false).map fun validLFST => { s with validLFST := validLFST }
                  else some s

/-- `storeList.erase(store_list_it++)`: the iterator is then at the place of the entry after it. -/
def erase (s : StoreSet) (store_list_it : Nat) : StoreSet :=
  { s with storeList := s.storeList.eraseIdx store_list_it }

/-- The loop of `squash`, with the iterator as a position in the list. -/
def squashLoop (squashed_num : Nat) : Nat → Nat → StoreSet → Option StoreSet
  | 0, _, _ => none
  | fuel + 1, store_list_it, s =>
    if s.storeList.isEmpty then some s
    else
      s.storeList[store_list_it]?.bind fun (seq_num, idx) =>
        if seq_num ≤ squashed_num then some s
        else
          s.LFST[idx]?.bind fun last =>
            s.validLFST[idx]?.bind fun valid =>
              let younger : Bool := last > squashed_num
              if valid && younger then
                (write s.validLFST idx false).bind fun validLFST =>
                  squashLoop squashed_num fuel store_list_it ({ s with validLFST := validLFST }.erase store_list_it)
              else if !valid && younger then squashLoop squashed_num fuel store_list_it (s.erase store_list_it)
              else squashLoop squashed_num fuel store_list_it s

/-- At most one iteration for each entry, and one to stop. -/
def squash (s : StoreSet) (squashed_num : Nat) : Option StoreSet :=
  squashLoop squashed_num (s.storeList.length + 1) 0 s

end StoreSet

/-! ## Runs -/

inductive Call where
  | violation (store_PC load_PC : Nat)
  | insertLoad
  | insertStore (store_PC store_seq_num : Nat)
  | checkInst (PC : Nat)
  | issued (issued_PC issued_seq_num : Nat) (is_store : Bool)
  | clear
  | squash (squashed_num : Nat)

/-- The predictor, and the youngest store that was ever inserted. -/
structure State where
  pred : StoreSet
  youngest : Nat

namespace State

variable (q : Params)

def new : State := ⟨.init q, 0⟩

def step (s : State) : Call → Option State
  | .violation store_PC load_PC => (s.pred.violation q store_PC load_PC).map fun pred => { s with pred := pred }
  | .insertLoad => some { s with pred := s.pred.insertLoad q }
  | .insertStore store_PC store_seq_num =>
    (s.pred.insertStore q store_PC store_seq_num).map fun pred => ⟨pred, store_seq_num⟩
  | .checkInst PC => (s.pred.checkInst q PC).map fun _ => s
  | .issued issued_PC issued_seq_num is_store =>
    (s.pred.issued q issued_PC issued_seq_num is_store).map fun pred => { s with pred := pred }
  | .clear => some { s with pred := s.pred.clear }
  | .squash squashed_num => (s.pred.squash squashed_num).map fun pred => { s with pred := pred }

/-- Stores are inserted in program order. -/
def Permitted (s : State) : Call → Prop
  | .insertStore _ store_seq_num => s.youngest ≤ store_seq_num
  | _ => True

end State

/-! ## The invariant -/

variable {q : Params} {s : StoreSet} {youngest : Nat}

structure Inv (q : Params) (s : StoreSet) (youngest : Nat) : Prop where
  sizes : s.SSIT.size = q.SSITSize ∧ s.validSSIT.size = q.SSITSize ∧ s.LFST.size = q.LFSTSize ∧
    s.validLFST.size = q.LFSTSize
  ssid : ∀ i ssid : Nat, s.validSSIT[i]? = some true → s.SSIT[i]? = some ssid → ssid < q.LFSTSize
  sorted : OrderedMap.Sorted StoreSet.ltseqnum s.storeList
  fetched : ∀ e ∈ s.storeList, e.1 ≤ youngest ∧ ∃ last, s.LFST[e.2]? = some last ∧ e.1 ≤ last

/-! ### Tables -/

theorem get_of_lt {α : Type} {v : Array α} {i : Nat} (hi : i < v.size) : ∃ x, v[i]? = some x :=
  ⟨v[i], Array.getElem?_eq_getElem hi⟩

theorem write_eq {α : Type} {v : Array α} {i : Nat} (hi : i < v.size) (x : α) :
    write v i x = some (v.setIfInBounds i x) := if_pos hi

namespace StoreSet

theorem calcIndex_lt (q : Params) (PC : Nat) : calcIndex q PC < q.SSITSize := by
  obtain ⟨b, -, hb⟩ := q.SSITSize_pow2
  have hpos := Nat.two_pow_pos b
  have hle : calcIndex q PC ≤ q.SSITSize - 1 := Nat.and_le_right
  omega

theorem calcSSID_lt (q : Params) (PC : Nat) : calcSSID q PC < q.LFSTSize := by
  obtain ⟨b, -, hb⟩ := q.LFSTSize_pow2
  exact Nat.mod_lt _ (hb ▸ Nat.two_pow_pos b)

end StoreSet

namespace Inv

open StoreSet

theorem init (q : Params) : Inv q (.init q) 0 where
  sizes := by simp [StoreSet.init]
  ssid i ssid hvalid _ := by
    simp [StoreSet.init, Array.getElem?_replicate] at hvalid
  sorted := List.Pairwise.nil
  fetched e he := absurd he List.not_mem_nil

theorem index_lt (h : Inv q s youngest) (PC : Nat) :
    calcIndex q PC < s.SSIT.size ∧ calcIndex q PC < s.validSSIT.size := by
  have hlt := calcIndex_lt q PC
  exact ⟨h.sizes.1 ▸ hlt, h.sizes.2.1 ▸ hlt⟩

theorem read (h : Inv q s youngest) (PC : Nat) :
    ∃ valid ssid, s.validSSIT[calcIndex q PC]? = some valid ∧ s.SSIT[calcIndex q PC]? = some ssid ∧
      (valid = true → ssid < q.LFSTSize) := by
  obtain ⟨hi, hi'⟩ := h.index_lt PC
  obtain ⟨ssid, hssid⟩ := get_of_lt hi
  obtain ⟨valid, hvalid⟩ := get_of_lt hi'
  exact ⟨valid, ssid, hvalid, hssid, fun hv => h.ssid _ _ (hv ▸ hvalid) hssid⟩

theorem write_SSIT (h : Inv q s youngest) {i ssid : Nat} (hssid : ssid < q.LFSTSize) {validSSIT : Array Bool}
    (hsize : validSSIT.size = s.validSSIT.size) (hother : ∀ j ≠ i, validSSIT[j]? = s.validSSIT[j]?) :
    Inv q { s with validSSIT := validSSIT, SSIT := s.SSIT.setIfInBounds i ssid } youngest := by
  refine ⟨⟨?_, hsize.trans h.sizes.2.1, h.sizes.2.2⟩, fun j ssid' hvalid hget => ?_, h.sorted, h.fetched⟩
  · exact Array.size_setIfInBounds.trans h.sizes.1
  · by_cases hj : j = i
    · rw [hj] at hget
      by_cases hi : i < s.SSIT.size
      · rw [Array.getElem?_setIfInBounds_self_of_lt hi] at hget
        exact Option.some.inj hget ▸ hssid
      · rw [Array.getElem?_setIfInBounds, if_pos rfl, if_neg hi] at hget
        cases hget
    · rw [Array.getElem?_setIfInBounds_ne (Ne.symm hj)] at hget
      exact h.ssid j ssid' (hother j hj ▸ hvalid) hget

theorem setSSID (h : Inv q s youngest) (PC : Nat) {ssid : Nat} (hssid : ssid < q.LFSTSize) :
    ∃ s', s.setSSID (calcIndex q PC) ssid = some s' ∧ Inv q s' youngest := by
  obtain ⟨hi, hi'⟩ := h.index_lt PC
  unfold StoreSet.setSSID
  rw [write_eq hi', Option.bind_some, write_eq hi, Option.map_some]
  exact ⟨_, rfl, h.write_SSIT hssid Array.size_setIfInBounds fun j hj =>
    Array.getElem?_setIfInBounds_ne (Ne.symm hj)⟩

theorem violation (h : Inv q s youngest) (store_PC load_PC : Nat) :
    ∃ s', s.violation q store_PC load_PC = some s' ∧ Inv q s' youngest := by
  obtain ⟨valid_load, load_SSID, hvl, hl, hload⟩ := h.read load_PC
  obtain ⟨valid_store, store_SSID, hvs, hs, hstore⟩ := h.read store_PC
  have hin : ¬ (q.SSITSize ≤ calcIndex q load_PC ∨ q.SSITSize ≤ calcIndex q store_PC) :=
    not_or.2 ⟨Nat.not_le.2 (calcIndex_lt q load_PC), Nat.not_le.2 (calcIndex_lt q store_PC)⟩
  unfold StoreSet.violation
  dsimp only
  rw [if_neg hin, hvl, Option.bind_some, hvs, Option.bind_some]
  match valid_load, valid_store with
  | false, false =>
    have hnew := calcSSID_lt q load_PC
    obtain ⟨s1, hs1, h1⟩ := h.setSSID load_PC hnew
    obtain ⟨s2, hs2, h2⟩ := h1.setSSID store_PC hnew
    simp only [hs1, hs2, Option.bind_some, if_pos hnew]
    exact ⟨s2, rfl, h2⟩
  | true, false =>
    obtain ⟨s1, hs1, h1⟩ := h.setSSID store_PC (hload rfl)
    simp only [hl, hs1, Option.bind_some, if_pos (hload rfl)]
    exact ⟨s1, rfl, h1⟩
  | false, true =>
    simp only [hs, Option.bind_some]
    exact h.setSSID load_PC (hstore rfl)
  | true, true =>
    have hboth : ¬ (q.LFSTSize ≤ load_SSID ∨ q.LFSTSize ≤ store_SSID) :=
      not_or.2 ⟨Nat.not_le.2 (hload rfl), Nat.not_le.2 (hstore rfl)⟩
    simp only [hl, hs, Option.bind_some, if_neg hboth]
    split
    · rw [write_eq (h.index_lt store_PC).1]
      exact ⟨_, rfl, h.write_SSIT (hload rfl) rfl fun _ _ => rfl⟩
    · rw [write_eq (h.index_lt load_PC).1]
      exact ⟨_, rfl, h.write_SSIT (hstore rfl) rfl fun _ _ => rfl⟩

theorem clear (h : Inv q s youngest) : Inv q s.clear youngest := by
  refine ⟨⟨h.sizes.1, Array.size_replicate.trans h.sizes.2.1, h.sizes.2.2.1, Array.size_replicate.trans h.sizes.2.2.2⟩,
    fun i ssid hvalid _ => ?_, List.Pairwise.nil, fun e he => absurd he List.not_mem_nil⟩
  simp [StoreSet.clear, Array.getElem?_replicate] at hvalid

theorem checkClear (h : Inv q s youngest) : Inv q (s.checkClear q) youngest := by
  have hsame : ∀ n : BitVec 32, Inv q { s with memOpsPred := n } youngest :=
    fun _ => ⟨h.sizes, h.ssid, h.sorted, h.fetched⟩
  unfold StoreSet.checkClear
  dsimp only
  split
  · exact (hsame 0).clear
  · exact hsame _

theorem insertStore (h : Inv q s youngest) (store_PC : Nat) {store_seq_num : Nat} (hle : youngest ≤ store_seq_num) :
    ∃ s', s.insertStore q store_PC store_seq_num = some s' ∧ Inv q s' store_seq_num := by
  have h := h.checkClear
  have hlater : Inv q (s.checkClear q) store_seq_num := ⟨h.sizes, h.ssid, h.sorted, fun e he =>
    ⟨(h.fetched e he).1.trans hle, (h.fetched e he).2⟩⟩
  obtain ⟨valid, ssid, hvalid, hget, hssid⟩ := h.read store_PC
  unfold StoreSet.insertStore
  dsimp only
  rw [if_neg (Nat.not_le.2 (calcIndex_lt q store_PC)), hvalid, Option.bind_some]
  cases valid with
  | false => exact ⟨_, rfl, hlater⟩
  | true =>
    have hin : ssid < (s.checkClear q).LFST.size := h.sizes.2.2.1 ▸ hssid rfl
    have hin' : ssid < (s.checkClear q).validLFST.size := h.sizes.2.2.2 ▸ hssid rfl
    rw [Bool.not_true, if_neg Bool.false_ne_true, hget, Option.bind_some, if_neg (Nat.not_le.2 (hssid rfl)),
      write_eq hin, Option.bind_some, write_eq hin', Option.map_some]
    refine ⟨_, rfl, ⟨h.sizes.1, h.sizes.2.1, ?_, ?_⟩, h.ssid, OrderedMap.sorted_assign h.sorted, fun e he => ?_⟩
    · exact Array.size_setIfInBounds.trans h.sizes.2.2.1
    · exact Array.size_setIfInBounds.trans h.sizes.2.2.2
    · rcases OrderedMap.mem_assign he with rfl | he
      · exact ⟨le_refl _, store_seq_num, Array.getElem?_setIfInBounds_self_of_lt hin, le_refl _⟩
      · obtain ⟨hyoung, last, hlast, hle'⟩ := h.fetched e he
        refine ⟨hyoung.trans hle, ?_⟩
        by_cases hset : e.2 = ssid
        · -- the store is now the last one of this set
          rw [hset]
          exact ⟨store_seq_num, Array.getElem?_setIfInBounds_self_of_lt hin, hyoung.trans hle⟩
        · exact ⟨last, (Array.getElem?_setIfInBounds_ne (Ne.symm hset)).trans hlast, hle'⟩

theorem checkInst (h : Inv q s youngest) (PC : Nat) : ∃ seq_num, s.checkInst q PC = some seq_num := by
  obtain ⟨valid, ssid, hvalid, hget, hssid⟩ := h.read PC
  unfold StoreSet.checkInst
  dsimp only
  rw [if_neg (Nat.not_le.2 (calcIndex_lt q PC)), hvalid, Option.bind_some]
  cases valid with
  | false => exact ⟨0, rfl⟩
  | true =>
    obtain ⟨last, hlast⟩ := get_of_lt (h.sizes.2.2.1 ▸ hssid rfl : ssid < s.LFST.size)
    obtain ⟨validLast, hvalidLast⟩ := get_of_lt (h.sizes.2.2.2 ▸ hssid rfl : ssid < s.validLFST.size)
    rw [Bool.not_true, if_neg Bool.false_ne_true, hget, Option.bind_some, if_neg (Nat.not_le.2 (hssid rfl)),
      hvalidLast, Option.bind_some, hlast]
    cases validLast with
    | false => exact ⟨0, rfl⟩
    | true => exact ⟨last, rfl⟩

theorem shrink (h : Inv q s youngest) (validLFST : Array Bool) (hsize : validLFST.size = s.validLFST.size)
    {storeList : List (Nat × Nat)} (hsub : storeList.Sublist s.storeList) :
    Inv q { s with validLFST := validLFST, storeList := storeList } youngest :=
  ⟨⟨h.sizes.1, h.sizes.2.1, h.sizes.2.2.1, hsize.trans h.sizes.2.2.2⟩, h.ssid, h.sorted.sublist hsub,
    fun e he => h.fetched e (hsub.subset he)⟩

theorem issued (h : Inv q s youngest) (issued_PC issued_seq_num : Nat) (is_store : Bool) :
    ∃ s', s.issued q issued_PC issued_seq_num is_store = some s' ∧ Inv q s' youngest := by
  unfold StoreSet.issued
  cases is_store with
  | false => exact ⟨s, rfl, h⟩
  | true =>
    have h' := h.shrink s.validLFST rfl (List.filter_sublist (p := fun e => decide (e.1 ≠ issued_seq_num)))
    obtain ⟨valid, ssid, hvalid, hget, hssid⟩ := h.read issued_PC
    dsimp only
    rw [Bool.not_true, if_neg Bool.false_ne_true, if_neg (Nat.not_le.2 (calcIndex_lt q issued_PC)), hvalid,
      Option.bind_some]
    cases valid with
    | false => exact ⟨_, rfl, h'⟩
    | true =>
      have hin : ssid < s.validLFST.size := h.sizes.2.2.2 ▸ hssid rfl
      obtain ⟨last, hlast⟩ := get_of_lt (h.sizes.2.2.1 ▸ hssid rfl : ssid < s.LFST.size)
      obtain ⟨validLast, hvalidLast⟩ := get_of_lt hin
      rw [Bool.not_true, if_neg Bool.false_ne_true, hget, Option.bind_some, if_neg (Nat.not_le.2 (hssid rfl)),
        hvalidLast, Option.bind_some, hlast, Option.bind_some]
      split
      · rw [write_eq hin]
        exact ⟨_, rfl, h.shrink _ Array.size_setIfInBounds List.filter_sublist⟩
      · exact ⟨_, rfl, h'⟩

/-! ### The loop of `squash` -/

theorem squashLoop (squashed_num : Nat) :
    ∀ (fuel : Nat) {s : StoreSet}, Inv q s youngest → s.storeList.length < fuel →
      ∃ s', squashLoop squashed_num fuel 0 s = some s' ∧ Inv q s' youngest ∧
        s'.storeList = s.storeList.filter (fun e => e.1 ≤ squashed_num)
  | 0, _, _, hfuel => absurd hfuel (Nat.not_lt_zero _)
  | fuel + 1, s, h, hfuel => by
    unfold StoreSet.squashLoop
    cases hlist : s.storeList with
    | nil => exact ⟨s, rfl, h, hlist⟩
    | cons e rest =>
      obtain ⟨seq_num, idx⟩ := e
      have hmem : (seq_num, idx) ∈ s.storeList := hlist ▸ List.mem_cons_self
      obtain ⟨-, last, hlast, hle⟩ := h.fetched _ hmem
      have hidx : idx < s.LFST.size := (Array.getElem?_eq_some_iff.1 hlast).1
      have hidx' : idx < s.validLFST.size := by
        rw [h.sizes.2.2.2, ← h.sizes.2.2.1]
        exact hidx
      obtain ⟨valid, hvalid⟩ := get_of_lt hidx'
      have hsub : rest.Sublist s.storeList := hlist ▸ List.sublist_cons_self _ _
      rw [List.isEmpty_cons, if_neg Bool.false_ne_true, List.getElem?_cons_zero, Option.bind_some]
      dsimp only
      split
      next hstop =>
        -- the entries after the first one are older
        refine ⟨s, rfl, h, ?_⟩
        rw [hlist]
        have hsorted := hlist ▸ h.sorted
        exact (OrderedMap.filter_of_head (p := fun n => decide (n ≤ squashed_num))
          (fun k k' hk hp => decide_eq_true ((Nat.le_of_lt hk).trans (of_decide_eq_true hp))) hsorted
          (decide_eq_true hstop)).symm
      next hgo =>
        have hyounger : decide (last > squashed_num) = true := decide_eq_true (by omega)
        have hdrop : ((seq_num, idx) :: rest).filter (fun e => decide (e.1 ≤ squashed_num)) =
            rest.filter fun e => decide (e.1 ≤ squashed_num) :=
          List.filter_cons_of_neg (by simpa using hgo)
        have hlen : rest.length < fuel := by
          rw [hlist, List.length_cons] at hfuel
          omega
        rw [hlast, Option.bind_some, hvalid, Option.bind_some, hyounger, hdrop]
        cases valid with
        | true =>
          rw [write_eq hidx', Option.bind_some]
          have hrest := h.shrink (s.validLFST.setIfInBounds idx false) Array.size_setIfInBounds hsub
          have hnext := squashLoop squashed_num fuel hrest hlen
          simpa [StoreSet.erase, hlist] using hnext
        | false =>
          have hnext := squashLoop squashed_num fuel (h.shrink s.validLFST rfl hsub) hlen
          simpa [StoreSet.erase, hlist] using hnext

theorem squash (h : Inv q s youngest) (squashed_num : Nat) :
    ∃ s', s.squash squashed_num = some s' ∧ Inv q s' youngest ∧
      s'.storeList = s.storeList.filter (fun e => e.1 ≤ squashed_num) :=
  h.squashLoop squashed_num _ (Nat.lt_succ_self _)

/-- Every call that is permitted keeps the invariant, and its indices are in the tables. -/
theorem step {s : State} (h : Inv q s.pred s.youngest) {call : Call} (hok : s.Permitted call) :
    ∃ s', s.step q call = some s' ∧ Inv q s'.pred s'.youngest := by
  cases call with
  | violation store_PC load_PC =>
    obtain ⟨pred, hrun, h'⟩ := h.violation store_PC load_PC
    exact ⟨_, congrArg (Option.map _) hrun, h'⟩
  | insertLoad => exact ⟨_, rfl, h.checkClear⟩
  | insertStore store_PC store_seq_num =>
    obtain ⟨pred, hrun, h'⟩ := h.insertStore store_PC hok
    exact ⟨_, congrArg (Option.map _) hrun, h'⟩
  | checkInst PC =>
    obtain ⟨seq_num, hrun⟩ := h.checkInst PC
    exact ⟨_, congrArg (Option.map _) hrun, h⟩
  | issued issued_PC issued_seq_num is_store =>
    obtain ⟨pred, hrun, h'⟩ := h.issued issued_PC issued_seq_num is_store
    exact ⟨_, congrArg (Option.map _) hrun, h'⟩
  | clear => exact ⟨_, rfl, h.clear⟩
  | squash squashed_num =>
    obtain ⟨pred, hrun, h', -⟩ := h.squash squashed_num
    exact ⟨_, congrArg (Option.map _) hrun, h'⟩

end Inv

/-- In every run `squash` ends and takes out what it has to, and no call fails. -/
theorem squash_complete (q : Params) {s : State} (h : Run.Reaches (State.step q) State.Permitted (State.new q) s) :
    (∀ squashed_num, ∃ pred, s.pred.squash squashed_num = some pred ∧
      pred.storeList = s.pred.storeList.filter (fun e => e.1 ≤ squashed_num)) ∧
    ∀ call, s.Permitted call → ∃ s', s.step q call = some s' := by
  have hinv : Inv q s.pred s.youngest := h.inv (P := fun s => Inv q s.pred s.youngest) (Inv.init q)
    fun t call t' ht hok hnext => by
      obtain ⟨t'', hstep, hinv⟩ := ht.step hok
      rw [hstep] at hnext
      exact Option.some.inj hnext ▸ hinv
  refine ⟨fun squashed_num => ?_, fun call hok => ?_⟩
  · obtain ⟨pred, hrun, -, hlist⟩ := hinv.squash squashed_num
    exact ⟨pred, hrun, hlist⟩
  · obtain ⟨s', hstep, -⟩ := hinv.step hok
    exact ⟨s', hstep⟩

def fourSets : Params := ⟨100, 4, 4, ⟨2, by decide, rfl⟩, ⟨2, by decide, rfl⟩⟩

/-- Three stores of one set, of which the oldest stays. -/
theorem squash_complete_set : ∃ (s : State) (pred : StoreSet),
    Run.Reaches (State.step fourSets) State.Permitted (State.new fourSets) s ∧
      s.pred.storeList = [(7, 1), (5, 1), (3, 1)] ∧ s.pred.squash 4 = some pred ∧ pred.storeList = [(3, 1)] := by
  have hcall : ∀ (call : Call) {t t' : State}, Run.Reaches (State.step fourSets) State.Permitted (State.new fourSets) t →
      t.Permitted call → t.step fourSets call = some t' →
      Run.Reaches (State.step fourSets) State.Permitted (State.new fourSets) t' :=
    fun _ _ _ h hok hs => h.step hok hs
  have h1 := hcall (.violation 4 9) .refl trivial rfl
  have h2 := hcall (.insertStore 4 3) h1 (Nat.zero_le 3) rfl
  have h3 := hcall (.insertStore 4 5) h2 (by decide : 3 ≤ 5) rfl
  have h4 := hcall (.insertStore 4 7) h3 (by decide : 5 ≤ 7) rfl
  obtain ⟨pred, hsquash, hlist⟩ := (squash_complete fourSets h4).1 4
  exact ⟨_, pred, h4, rfl, hsquash, hlist⟩

end Alpine.Cpu.StoreSets
