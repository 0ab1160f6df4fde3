import Mathlib

/-!
# Claims and grants that are matched by a key

A ledger holds `claims`, each of them open or granted, but a granted one may be claimed by another that
has the same key.

* `Ledger` — the open claims stand in the ledger, and the keys add up.
* `Ledger.enter`, `Ledger.grant`, `Ledger.settle` — a claim is made, granted and settled.
* `Ledger.exists_granted` — a claim that is not open finds a grant with its key.
* `Ledger.Exact` — every grant is kept for the claim that it was made for.
-/

namespace Alpine

variable {α κ : Type}

structure Ledger (key : α → κ) (claims opened granted : List α) : Prop where
  nodup : claims.Nodup
  sub : opened ⊆ claims
  keys : (claims.map key).Perm ((opened ++ granted).map key)

namespace Ledger

variable {key : α → κ} {claims opened opened' granted granted' : List α} {a b : α}

theorem nil (key : α → κ) : Ledger key [] [] [] := ⟨.nil, List.Subset.refl _, .refl _⟩

theorem enter (h : Ledger key claims opened granted) (ha : a ∉ claims)
    (hopened : opened'.Perm (a :: opened)) : Ledger key (claims ++ [a]) opened' granted := by
  refine ⟨?_, ?_, ?_⟩
  · refine List.nodup_append.2 ⟨h.nodup, List.nodup_singleton a, fun b hb c hc hbc => ha ?_⟩
    rw [← List.mem_singleton.1 hc, ← hbc]
    exact hb
  · intro b hb
    rcases List.mem_cons.1 (hopened.subset hb) with rfl | hb
    · exact List.mem_append_right _ List.mem_cons_self
    · exact List.mem_append_left _ (h.sub hb)
  · have hperm := (hopened.append_right granted).map key
    rw [List.cons_append, List.map_cons] at hperm
    rw [List.map_append]
    exact List.perm_append_comm.trans ((h.keys.cons (key a)).trans hperm.symm)

/-- The order of the open claims does not matter. -/
theorem reorder (h : Ledger key claims opened granted) (hopened : opened'.Perm opened) :
    Ledger key claims opened' granted :=
  ⟨h.nodup, fun _ hb => h.sub (hopened.subset hb),
    h.keys.trans ((hopened.append_right granted).map key).symm⟩

theorem grant (h : Ledger key claims opened granted) (hopened : opened.Perm (a :: opened')) :
    Ledger key claims opened' (a :: granted) := by
  refine ⟨h.nodup, fun b hb => h.sub (hopened.symm.subset (List.mem_cons_of_mem a hb)), ?_⟩
  refine h.keys.trans (List.Perm.map key ?_)
  exact (hopened.append_right granted).trans List.perm_middle.symm

/-- A claim that is not open is settled with a grant that has its key. -/
theorem settle [DecidableEq α] (h : Ledger key claims opened granted) (ha : a ∈ claims) (hnot : a ∉ opened)
    (hgranted : granted.Perm (b :: granted')) (hkey : key b = key a) :
    Ledger key (claims.erase a) opened granted' := by
  refine ⟨h.nodup.erase a, fun c hc => ?_, ?_⟩
  · refine (List.mem_erase_of_ne ?_).2 (h.sub hc)
    rintro rfl
    exact hnot hc
  · have hclaims := (List.perm_cons_erase ha).map key
    have hsplit := ((hgranted.append_left opened).trans List.perm_middle).map key
    have hall := hclaims.symm.trans (h.keys.trans hsplit)
    rw [List.map_cons, List.map_cons, hkey] at hall
    exact hall.cons_inv

theorem exists_granted (h : Ledger key claims opened granted) (hdistinct : opened.Nodup)
    (ha : a ∈ claims) (hnot : a ∉ opened) : ∃ b ∈ granted, key b = key a := by
  classical
  obtain ⟨l, hperm, hsub⟩ : (a :: opened).Subperm claims := by
    refine List.subperm_of_subset (List.nodup_cons.2 ⟨hnot, hdistinct⟩) ?_
    intro c hc
    rcases List.mem_cons.1 hc with rfl | hc
    · exact ha
    · exact h.sub hc
  have hle : ((a :: opened).map key).count (key a) ≤ ((opened ++ granted).map key).count (key a) := by
    rw [← h.keys.count_eq, ← (hperm.map key).count_eq]
    exact (hsub.map key).count_le (key a)
  rw [List.map_cons, List.count_cons_self, List.map_append, List.count_append] at hle
  have hpos : 0 < (granted.map key).count (key a) := by omega
  exact List.mem_map.1 (List.count_pos_iff.1 hpos)

/-- Whoever has a claim has an open or a granted one with the same key. -/
theorem exists_key (h : Ledger key claims opened granted) (ha : a ∈ claims) :
    ∃ b ∈ opened ++ granted, key b = key a :=
  List.mem_map.1 (h.keys.subset (List.mem_map_of_mem ha))

/-- Every claim is open or has a grant of its own. -/
def Exact (claims opened granted : List α) : Prop := claims.Perm (opened ++ granted)

theorem Exact.enter (h : Exact claims opened granted) (hopened : opened'.Perm (a :: opened)) :
    Exact (claims ++ [a]) opened' granted :=
  List.perm_append_comm.trans ((h.cons a).trans (hopened.append_right granted).symm)

theorem Exact.reorder (h : Exact claims opened granted) (hopened : opened'.Perm opened) :
    Exact claims opened' granted :=
  h.trans (hopened.append_right granted).symm

theorem Exact.grant (h : Exact claims opened granted) (hopened : opened.Perm (a :: opened')) :
    Exact claims opened' (a :: granted) :=
  h.trans ((hopened.append_right granted).trans List.perm_middle.symm)

theorem Exact.settle [DecidableEq α] (h : Exact claims opened granted) (ha : a ∈ claims)
    (hgranted : granted.Perm (a :: granted')) : Exact (claims.erase a) opened granted' := by
  have hall := (List.perm_cons_erase ha).symm.trans
    (h.trans ((hgranted.append_left opened).trans List.perm_middle))
  exact hall.cons_inv

end Ledger

end Alpine
