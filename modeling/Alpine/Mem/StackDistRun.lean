import Alpine.Mem.StackDistOps

/-!
# Stack distances are those of the naive stack

* `run_spec` — the distances of a run, from any state that keeps the invariant.
* `Consistent` — every sum of the tree counts the leaves of its half.
* `Looks` — looking at a distance returns what an update returns, and changes no later one.
* `stack_distances` — the distances of every run from a new tree; **a run returns, and so does looking, if
  verification is off or no address of the stack is removed**.
* `removed_panics` — the stack of the verification keeps what is removed.
-/

namespace Alpine.Mem.StackDist

open Alpine Alpine.Dyadic

/-- The calls one after the other, with what they return. -/
def run (s : StackDistCalc) : List Call → Except Failure (StackDistCalc × List (ℕ × Bool))
  | [] => .ok (s, [])
  | c :: calls => do
    let (s1, r) ← c.run s
    let (s2, rs) ← run s1 calls
    return (s2, r :: rs)

/-- The distances of the same calls on a naive stack. -/
def naiveDistances : List ℕ → List Call → List ℕ
  | _, [] => []
  | L, c :: calls => naiveDistance L c.address :: naiveDistances (c.next L) calls

def naiveStack (L : List ℕ) (calls : List Call) : List ℕ := calls.foldl Call.next L

/-- No call takes an address of the stack away. -/
def spares : List ℕ → List Call → Bool
  | _, [] => true
  | L, c :: calls => !c.removes L && spares (c.next L) calls

variable {s : StackDistCalc} {num : ℕ → ℕ} {L : List ℕ}

/-- A run that has returned. -/
structure RunDone (s : StackDistCalc) (L : List ℕ) (calls : List Call) (q : StackDistCalc × List (ℕ × Bool)) :
    Prop where
  inv : ∃ num, Inv q.1 num (naiveStack L calls)
  distances : q.2.map Prod.fst = naiveDistances L calls
  index : q.1.index = s.index + calls.countP Call.adds
  verifyStack : q.1.verifyStack = s.verifyStack
  stack : s.verifyStack = true → s.stack = L → spares L calls = true → q.1.stack = naiveStack L calls

/-- **Runs.** -/
theorem run_spec : ∀ (calls : List Call) {s : StackDistCalc} {num : ℕ → ℕ} {L : List ℕ}, Inv s num L →
    s.index + calls.countP Call.adds < 2 ^ 31 → Outcome (fun e => e = .stackDist ∧ s.verifyStack = true ∧
        (s.stack = L → spares L calls = false)) (RunDone s L calls) (run s calls)
  | [], s, num, L, h, _ => ⟨⟨num, h⟩, rfl, rfl, rfl, fun _ hs _ => hs⟩
  | c :: calls, s, num, L, h, hindex => by
    have hcount : (c :: calls).countP Call.adds = calls.countP Call.adds + c.adds.toNat := by
      rw [List.countP_cons]
      cases c.adds <;> rfl
    rw [hcount] at hindex
    have hcall := c.run_spec h (by omega)
    rw [run]
    cases hc : c.run s with
    | error e =>
      rw [hc] at hcall
      exact ⟨hcall.1, hcall.2.1, fun hs => absurd hs hcall.2.2⟩
    | ok r =>
      rw [hc] at hcall
      obtain ⟨num1, h1⟩ := hcall.inv
      have hi := hcall.index
      have hrest := run_spec calls h1 (by omega)
      have hspares : spares L (c :: calls) = (!c.removes L && spares (c.next L) calls) := rfl
      show Outcome _ _ (run r.1 calls >>= fun q => .ok (q.1, r.2 :: q.2))
      cases hr : run r.1 calls with
      | error e =>
        rw [hr] at hrest
        obtain ⟨he, hv, hremoves⟩ := hrest
        have hv := hcall.verifyStack ▸ hv
        refine ⟨he, hv, fun hs => ?_⟩
        cases hc' : c.removes L with
        | true => rw [hspares, hc', Bool.not_true, Bool.false_and]
        | false => rw [hspares, hremoves (hcall.stack hv hs hc'), Bool.and_false]
      | ok q =>
        rw [hr] at hrest
        refine ⟨hrest.inv, ?_, ?_, hrest.verifyStack.trans hcall.verifyStack, fun hv hs hsp => ?_⟩
        · show r.2.1 :: q.2.map Prod.fst = naiveDistance L c.address :: naiveDistances (c.next L) calls
          rw [hcall.result, hrest.distances]
        · show q.1.index = _
          rw [hrest.index, hi, hcount]
          omega
        · rw [hspares, Bool.and_eq_true, Bool.not_eq_true'] at hsp
          exact hrest.stack (hcall.verifyStack.trans hv) (hcall.stack hv hs hsp.1) hsp.2

theorem new_inv (verify_stack : Bool) : Inv (.new verify_stack) (fun _ => 0) [] := by
  have hroot : ∀ j node, (StackDistCalc.new verify_stack).tree 1 j = some node → j = 0 ∧ node = .new := by
    intro j node hnode
    by_cases hj : j = 0
    · subst hj
      exact ⟨rfl, (Option.some.inj hnode).symm⟩
    · have hnone : Tree.set (fun _ _ => none) 1 0 (some .new) 1 j = none := Tree.set_ne _ _ (.inr hj)
      cases hnone.symm.trans hnode
  refine ⟨⟨⟨Nat.one_pos, Nat.zero_le _, .inl rfl, fun l hl hle => ?_⟩, List.Pairwise.nil, fun a ha => ?_,
    ⟨fun i hi => ?_, fun i _ => rfl⟩, ⟨fun l j node hl hnode => ?_, fun l j hl hneeded => ?_,
      fun j node hnode => (hroot j node hnode).1, fun l j hl => ?_⟩⟩, fun a => rfl⟩
  · obtain rfl : l = 1 := Nat.le_antisymm hle hl
    show (1 : ℕ) = (0 - 1) / 2 ^ 1 + 1
    decide
  · cases ha
  · cases hi
  · obtain rfl : l = 0 := Nat.lt_one_iff.1 hl
    obtain ⟨rfl, rfl⟩ := hroot j node hnode
    exact ⟨rfl, rfl, fun hd => Bool.noConfusion hd, fun hd => Bool.noConfusion hd, rfl, rfl, rfl⟩
  · obtain rfl : l = 0 := Nat.lt_one_iff.1 hl
    have hj : j = 0 := by
      rcases hneeded with ⟨x, hx, -⟩ | ⟨hmod, -⟩ | ⟨-, hj⟩
      · cases hx
      · exact absurd (Nat.zero_mod _) hmod
      · exact hj
    subst hj
    show ∃ node, Tree.set (fun _ _ => none) 1 0 (some .new) 1 0 = some node
    exact ⟨.new, Tree.set_self ..⟩
  · show Tree.set (fun _ _ => none) 1 0 (some .new) l j = none
    exact Tree.set_ne _ _ (.inl (ne_of_gt hl))

/-! ## The tree -/

/-- How many leaves there are from one index up to another. -/
def StackDistCalc.leavesIn (s : StackDistCalc) (first last : ℕ) : ℕ :=
  ((Finset.Ico first last).filter fun i => (s.tree 0 i).isSome).card

/-- The leaves are those of the addresses on the stack, each has the nodes above it, and the sums of every
node count the leaves of its halves. -/
structure Consistent (s : StackDistCalc) (L : List ℕ) : Prop where
  leaves : ∀ i, (s.tree 0 i).isSome = true ↔ ∃ a ∈ L, s.aiMap a = some i
  above : ∀ i l, (s.tree 0 i).isSome = true → l < s.treeDepth →
    (s.tree (l + 1) (i / 2 ^ (l + 1))).isSome = true
  sums : ∀ l j node, l < s.treeDepth → s.tree (l + 1) j = some node →
    node.sumLeft = s.leavesIn (2 * j * 2 ^ l) ((2 * j + 1) * 2 ^ l) ∧
      node.sumRight = s.leavesIn ((2 * j + 1) * 2 ^ l) ((2 * j + 2) * 2 ^ l)
  root : ∃ root, s.tree s.treeDepth 0 = some root ∧ root.sumLeft + root.sumRight = L.length

theorem Inv.mem_nums_iff (h : Inv s num L) (i : ℕ) : (s.tree 0 i).isSome = true ↔ i ∈ nums num L := by
  constructor
  · intro hi
    by_contra hnot
    rw [h.leaves.none i hnot] at hi
    cases hi
  · intro hi
    obtain ⟨leaf, hleaf, -⟩ := h.leaves.leaf i hi
    rw [hleaf]
    rfl

theorem Inv.count_eq (h : Inv s num L) (l j : ℕ) :
    count (nums num L) l j = s.leavesIn (j * 2 ^ l) ((j + 1) * 2 ^ l) := by
  unfold count StackDistCalc.leavesIn
  congr 1
  ext x
  rw [Finset.mem_filter, Finset.mem_filter, Finset.mem_Ico, h.mem_nums_iff, and_comm]
  refine and_congr_left fun _ => ?_
  rw [← Nat.le_div_iff_mul_le (by positivity), ← Nat.div_lt_iff_lt_mul (by positivity)]
  omega

theorem Inv.consistent (h : Inv s num L) : Consistent s L := by
  refine ⟨fun i => ?_, fun i l hi hl => ?_, fun l j node hl hnode => ?_, ?_⟩
  · rw [h.mem_nums_iff, mem_nums]
    refine exists_congr fun a => and_congr_right fun ha => ?_
    rw [h.aiMap a, if_pos ha, Option.some.injEq]
  · obtain ⟨node, hnode⟩ := h.tree.exist l _ hl (.inl ⟨i, (h.mem_nums_iff i).1 hi, rfl⟩)
    rw [hnode]
    rfl
  · have hok := h.tree.nodes l j node hl hnode
    exact ⟨hok.sumLeft.trans (h.count_eq l (2 * j)), hok.sumRight.trans (h.count_eq l (2 * j + 1))⟩
  · obtain ⟨d, hd⟩ : ∃ d, s.treeDepth = d + 1 := ⟨s.treeDepth - 1, by have := h.shape.pos; omega⟩
    obtain ⟨root, hroot⟩ := h.tree.exist d 0 (by omega) (.inr (.inr ⟨hd.symm, rfl⟩))
    refine ⟨root, hd ▸ hroot, ?_⟩
    have hcard : (nums num L).card = L.length := by
      unfold nums
      rw [List.toFinset_card_of_nodup (List.pairwise_map.2 (h.ranked.imp fun hlt => hlt.ne')), List.length_map]
    rw [(h.tree.nodes d 0 root (by omega) hroot).sum, ← hcard, ← hd]
    exact count_top fun x hx => (h.lt_index hx).trans_le h.shape.room

/-! ## The claim of the class -/

/-- Looking at `a` returns its distance, and so does an update then and after the look; the same calls after it and
without it return the same distances.  `more` leaves may still be added. -/
def Looks (s : StackDistCalc) (L : List ℕ) (more a : ℕ) (mark : Bool) : Prop :=
  ∃ r, s.calcStackDist a mark = .ok r ∧ r.2.1 = naiveDistance L a ∧
    (∀ addNewNode, addNewNode.toNat ≤ more → ∃ r', s.calcStackDistAndUpdate a addNewNode = .ok r' ∧ r'.2 = r.2) ∧
    (∀ addNewNode, addNewNode.toNat ≤ more →
      ∃ r', r.1.calcStackDistAndUpdate a addNewNode = .ok r' ∧ r'.2.1 = r.2.1) ∧
    ∀ later, later.countP Call.adds ≤ more → s.verifyStack = false ∨ spares L later = true →
      ∃ q q', run s later = .ok q ∧ run r.1 later = .ok q' ∧ q'.2.map Prod.fst = q.2.map Prod.fst

/-- Verification is off, or its stack is the naive one. -/
def Agrees (s : StackDistCalc) (L : List ℕ) : Prop := s.verifyStack = true → s.stack = L

theorem Call.run_agrees (h : Inv s num L) (hs : Agrees s L) (c : Call) (hindex : s.index + c.adds.toNat < 2 ^ 31) :
    ∃ r, c.run s = .ok r ∧ c.Done s L r := by
  have hspec := c.run_spec h hindex
  cases hc : c.run s with
  | error e =>
    rw [hc] at hspec
    exact absurd (hs hspec.2.1) hspec.2.2
  | ok r =>
    rw [hc] at hspec
    exact ⟨r, rfl, hspec⟩

theorem run_agrees (h : Inv s num L) (hs : Agrees s L) {calls : List Call}
    (hindex : s.index + calls.countP Call.adds < 2 ^ 31) (hcalls : s.verifyStack = false ∨ spares L calls = true) :
    ∃ q, run s calls = .ok q ∧ RunDone s L calls q ∧ Agrees q.1 (naiveStack L calls) := by
  have hspec := run_spec calls h hindex
  have hsp : s.verifyStack = true → spares L calls = true :=
    fun hv => hcalls.resolve_left fun hv' => Bool.noConfusion (hv.symm.trans hv')
  cases hr : run s calls with
  | error e =>
    rw [hr] at hspec
    obtain ⟨-, hv, hno⟩ := hspec
    exact Bool.noConfusion ((hno (hs hv)).symm.trans (hsp hv))
  | ok q =>
    rw [hr] at hspec
    refine ⟨q, rfl, hspec, fun hv => ?_⟩
    have hv := hspec.verifyStack.symm.trans hv
    exact hspec.stack hv (hs hv) (hsp hv)

theorem Inv.looks (h : Inv s num L) (hs : Agrees s L) {more : ℕ} (hmore : s.index + more < 2 ^ 31) (a : ℕ)
    (mark : Bool) : Looks s L more a mark := by
  obtain ⟨r, hr, hlook⟩ := Call.run_agrees h hs (.calcStackDist a mark) (by show s.index + 0 < _; omega)
  obtain ⟨num', (h' : Inv r.1 num' L)⟩ := hlook.inv
  have hindex' : r.1.index = s.index := hlook.index
  have hs' : Agrees r.1 L := fun hv =>
    hlook.stack (hlook.verifyStack.symm.trans hv) (hs (hlook.verifyStack.symm.trans hv)) rfl
  refine ⟨r, hr, congrArg Prod.fst hlook.result, fun addNewNode hadd => ?_, fun addNewNode hadd => ?_,
    fun later hlater hsp => ?_⟩
  · obtain ⟨r', hr', hdone⟩ := Call.run_agrees h hs (.calcStackDistAndUpdate a addNewNode)
      (by show s.index + addNewNode.toNat < _; omega)
    exact ⟨r', hr', hdone.result.trans hlook.result.symm⟩
  · obtain ⟨r', hr', hdone⟩ := Call.run_agrees h' hs' (.calcStackDistAndUpdate a addNewNode)
      (by show r.1.index + addNewNode.toNat < _; omega)
    exact ⟨r', hr', (congrArg Prod.fst hdone.result).trans (congrArg Prod.fst hlook.result).symm⟩
  · obtain ⟨q, hq, hdone, -⟩ := run_agrees h hs (by omega) hsp
    obtain ⟨q', hq', hdone', -⟩ := run_agrees h' hs' (by omega) (hlook.verifyStack.symm ▸ hsp)
    exact ⟨q, q', hq, hq', hdone'.distances.trans hdone.distances.symm⟩

/-- **Stack distances.**  In every run that adds fewer than `2 ^ 31` leaves, the distances that are returned are those
of the naive stack and the sums of the tree are right; a run fails only in the verification.  With verification off, or
if no address of the stack is removed, the run returns, looking at a distance returns what an update returns, and it
changes no later distance. -/
theorem stack_distances (verify_stack : Bool) (calls : List Call) (hadds : calls.countP Call.adds < 2 ^ 31) :
    Outcome (fun e => e = .stackDist ∧ verify_stack = true ∧ spares [] calls = false)
      (fun q => q.2.map Prod.fst = naiveDistances [] calls ∧ Consistent q.1 (naiveStack [] calls))
      (run (.new verify_stack) calls) ∧
    (verify_stack = false ∨ spares [] calls = true → ∃ q, run (.new verify_stack) calls = .ok q ∧
      ∀ a mark, Looks q.1 (naiveStack [] calls) (2 ^ 31 - 1 - calls.countP Call.adds) a mark) := by
  have hindex : 0 + calls.countP Call.adds < 2 ^ 31 := by rwa [Nat.zero_add]
  refine ⟨?_, fun hcalls => ?_⟩
  · have hspec := run_spec calls (new_inv verify_stack) hindex
    cases hrun : run (.new verify_stack) calls with
    | error e =>
      rw [hrun] at hspec
      exact ⟨hspec.1, hspec.2.1, hspec.2.2 rfl⟩
    | ok q =>
      rw [hrun] at hspec
      obtain ⟨num, hinv⟩ := hspec.inv
      exact ⟨hspec.distances, hinv.consistent⟩
  · obtain ⟨q, hrun, hdone, hagrees⟩ := run_agrees (new_inv verify_stack) (fun _ => rfl) hindex hcalls
    obtain ⟨num, hinv⟩ := hdone.inv
    have hq : q.1.index = 0 + calls.countP Call.adds := hdone.index
    exact ⟨q, hrun, fun a mark => hinv.looks hagrees (by omega) a mark⟩

/-- Two addresses are used in turn, looked at, and one is removed. -/
def turns : List Call :=
  [.calcStackDistAndUpdate 64 true, .calcStackDistAndUpdate 128 true, .calcStackDistAndUpdate 64 true,
    .calcStackDist 128 true, .calcStackDistAndUpdate 128 false, .calcStackDistAndUpdate 128 true]

theorem stack_distances_turns : ∃ q, run (.new false) turns = .ok q ∧
    naiveDistances [] turns = [Infinity, Infinity, 1, 1, 1, Infinity] ∧
    q.2.map Prod.fst = naiveDistances [] turns ∧ Consistent q.1 (naiveStack [] turns) ∧
    Looks q.1 (naiveStack [] turns) (2 ^ 31 - 5) 64 true := by
  obtain ⟨houtcome, hreturns⟩ := stack_distances false turns (by decide)
  obtain ⟨q, hrun, hlooks⟩ := hreturns (.inl rfl)
  obtain ⟨hdistances, hconsistent⟩ := houtcome.of_ok hrun
  exact ⟨q, hrun, by decide, hdistances, hconsistent, hlooks 64 true⟩

/-- With verification the stack that is compared keeps a removed address: a look at another one panics where an update
returns its distance. -/
theorem removed_panics : ∃ q, run (.new true)
      [.calcStackDistAndUpdate 64 true, .calcStackDistAndUpdate 128 true, .calcStackDistAndUpdate 128 false] = .ok q ∧
    q.1.calcStackDist 64 false = .error .stackDist ∧
    ∃ r, q.1.calcStackDistAndUpdate 64 false = .ok r ∧ r.2 = (0, false) := by
  refine ⟨_, rfl, rfl, _, rfl, rfl⟩

end Alpine.Mem.StackDist
