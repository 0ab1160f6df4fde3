import Mathlib
import Alpine.Lib.Outcome

/-!
# Stack distances (`mem/stack_dist_calc.{hh,cc}`)

A tree of partial sums over the accesses: a leaf for the last access of every address, and above it the
number of leaves in each half.  A node lives in the layer `tree[level]` under its index, and a pointer to a
parent is the parent's index in the layer above.

What is undefined or panics is a `Failure`: a null pointer, `1 << i` that does not fit an `int`, and the
three checks of the verification.  Sums and counters are far below `2 ^ 64` and do not wrap.
-/

namespace Alpine.Mem.StackDist

open Alpine

inductive Failure where
  | null
  | shift
  | sums
  | sanity
  | stackDist

structure Node where
  sumLeft : ℕ
  sumRight : ℕ
  discardLeft : Bool
  discardRight : Bool
  nodeIndex : ℕ
  parent : Option ℕ
  isLeftNode : Bool
  isMarked : Bool

def Node.new : Node :=
  { sumLeft := 0, sumRight := 0, discardLeft := false, discardRight := false, nodeIndex := 0,
    parent := none, isLeftNode := true, isMarked := false }

/-- The layers, of which those above the root are empty. -/
abbrev Tree := ℕ → ℕ → Option Node

def Tree.set (tree : Tree) (level index : ℕ) (node : Option Node) : Tree :=
  Function.update tree level (Function.update (tree level) index node)

structure StackDistCalc where
  index : ℕ
  treeDepth : ℕ
  tree : Tree
  nextIndex : ℕ → ℕ
  aiMap : ℕ → Option ℕ
  /-- The last element of the vector comes first. -/
  stack : List ℕ
  verifyStack : Bool

/-- The constructor: a leaf layer, and a root above it. -/
def StackDistCalc.new (verify_stack : Bool) : StackDistCalc :=
  { index := 0
    treeDepth := 1
    tree := Tree.set (fun _ _ => none) 1 0 (some .new)
    nextIndex := fun level => if level = 0 then 0 else 1
    aiMap := fun _ => none
    stack := []
    verifyStack := verify_stack }

def Infinity : ℕ := 2 ^ 64 - 1

def get {α : Type} : Option α → Except Failure α
  | some a => .ok a
  | none => .error .null

def panic_if (b : Bool) (e : Failure) : Except Failure Unit := if b then .error e else .ok ()

/-- `1 << i`. -/
def oneShl (i : ℕ) : Except Failure ℕ := if i < 31 then .ok (2 ^ i) else .error .shift

/-- `isPowerOf2` of a `uint64_t`. -/
def isPowerOf2 (n : ℕ) : Bool :=
  n ≠ 0 && ((BitVec.ofNat 64 n) &&& ~~~(BitVec.ofNat 64 n - 1#64)) = BitVec.ofNat 64 n

/-! ## Sums -/

/-- The node with the sum from below, and with a half that has been discarded. -/
def Node.visit (node : Node) (from_left : Bool) (sum_from_below : ℕ) (discard_node : Bool) : Node :=
  { node with
    sumLeft := if from_left then sum_from_below else node.sumLeft
    sumRight := if from_left then node.sumRight else sum_from_below
    discardLeft := node.discardLeft || (discard_node && sum_from_below = 0 && from_left)
    discardRight := node.discardRight || (discard_node && sum_from_below = 0 && !from_left) }

/-- The check of the sums in `updateSum`. -/
def Node.checkSums (node : Node) (level : ℕ) : Except Failure Unit := do
  let room ← oneShl (level - 1)
  panic_if (node.sumLeft > room) .sums
  panic_if (node.sumRight > room) .sums

/-- `updateSum`, with a bound on the depth of its recursion: the distance and the tree. -/
def updateSum (verifyStack : Bool) : ℕ → Tree → (node : ℕ) → (from_left : Bool) →
    (sum_from_below level stack_dist : ℕ) → (discard_node : Bool) → Except Failure (ℕ × Tree)
  | 0, _, _, _, _, _, _, _ => .error .null
  | fuel + 1, tree, node, from_left, sum_from_below, level, stack_dist, discard_node => do
    let level := level + 1
    let old ← get (tree level node)
    if verifyStack then old.checkSums level
    let new := old.visit from_left sum_from_below discard_node
    let stack_dist := if from_left then stack_dist + old.sumRight else stack_dist
    let deleted := new.discardLeft && new.discardRight && discard_node && new.parent.isSome &&
      sum_from_below = 0
    let tree := if deleted then tree.set level new.nodeIndex none else tree.set level node (some new)
    match new.parent with
    | some parent =>
      updateSum verifyStack fuel tree parent new.isLeftNode (new.sumLeft + new.sumRight) level stack_dist
        deleted
    | none => return (stack_dist, tree)

def getSum (tree : Tree) : ℕ → (node : ℕ) → (from_left : Bool) → (stack_dist level : ℕ) → Except Failure ℕ
  | 0, _, _, _, _ => .error .null
  | fuel + 1, node, from_left, stack_dist, level => do
    let level := level + 1
    let nd ← get (tree level node)
    let stack_dist := if from_left then stack_dist + nd.sumRight else stack_dist
    match nd.parent with
    | some parent => getSum tree fuel parent nd.isLeftNode stack_dist level
    | none => return stack_dist

namespace StackDistCalc

variable (s : StackDistCalc)

/-- The leaf `tree[0][i]` is there; its sum is set and the sums above it are updated. -/
def updateSumsLeavesToRoot (i : ℕ) (is_new_leaf : Bool) : Except Failure (ℕ × StackDistCalc) := do
  let leaf ← get (s.tree 0 i)
  let sum := if is_new_leaf then 1 else 0
  let parent ← get leaf.parent
  let (stack_dist, tree) ← updateSum s.verifyStack s.treeDepth
    (s.tree.set 0 i (some { leaf with sumLeft := sum })) parent leaf.isLeftNode sum 0 0 (!is_new_leaf)
  return (if is_new_leaf then Infinity else stack_dist, { s with tree := tree })

def getSumsLeavesToRoot (i : ℕ) : Except Failure ℕ := do
  let leaf ← get (s.tree 0 i)
  let parent ← get leaf.parent
  getSum s.tree s.treeDepth parent leaf.isLeftNode 0 0

/-! ## The tree -/

/-- A new intermediate node in the layer `i`. -/
def addINode (i : ℕ) : Except Failure StackDistCalc := do
  let parent := s.nextIndex (i + 1) - 1
  let _ ← get (s.tree (i + 1) parent)
  let newINode :=
    { Node.new with
      isLeftNode := s.nextIndex i % 2 = 0
      parent := some parent
      nodeIndex := s.nextIndex i }
  return { s with
    nextIndex := Function.update s.nextIndex i (s.nextIndex i + 1)
    tree := s.tree.set i (s.nextIndex i) (some newINode) }

/-- The loops of `updateTree`: a node in every layer, from the given one down to 1, that needs one. -/
def addINodes (needs : ℕ → Except Failure Bool) : ℕ → StackDistCalc → Except Failure StackDistCalc
  | 0, s => .ok s
  | i + 1, s => do
    let b ← needs (i + 1)
    let s' ← (if b then s.addINode (i + 1) else .ok s)
    addINodes needs i s'

/-- OP1 of `updateTree`, without the loop. -/
def addRoot : Except Failure StackDistCalc := do
  let root ← get (s.tree s.treeDepth 0)
  let newRootNode :=
    { Node.new with
      sumLeft := root.sumRight + root.sumLeft
      discardLeft := root.discardLeft && root.discardRight }
  return { s with
    treeDepth := s.treeDepth + 1
    nextIndex := Function.update s.nextIndex (s.treeDepth + 1) 1
    tree := (s.tree.set (s.treeDepth + 1) 0 (some newRootNode)).set s.treeDepth 0
      (some { root with parent := some 0 }) }

def updateTree : Except Failure StackDistCalc :=
  if isPowerOf2 s.index then do
    let s' ← s.addRoot
    addINodes (fun _ => .ok true) (s'.treeDepth - 1) s'
  else
    addINodes (fun i => do
      let period ← oneShl i
      return s.index % period = 0) (s.treeDepth - 1) s

/-! ## Verification -/

/-- The walk of `sanityCheckTree` from a node of a layer. -/
def climb (tree : Tree) : ℕ → (level node : ℕ) → Except Failure Node
  | 0, level, node => get (tree level node)
  | k + 1, level, node => do
    let nd ← get (tree level node)
    match nd.parent with
    | some parent => climb tree k (level + 1) parent
    | none => .error .sanity

def sanityCheckTree (node : Node) : Except Failure Unit := do
  let next_up ← get node.parent
  let top ← climb s.tree (s.treeDepth - 1) 1 next_up
  panic_if top.parent.isSome .sanity

/-- The loop of `verifyStackDist`: the distance, and the stack without the address. -/
def seek (r_address : ℕ) : ℕ → List ℕ → Option (ℕ × List ℕ)
  | _, [] => none
  | stack_dist, a :: stack =>
    if a = r_address then some (stack_dist, stack)
    else (seek r_address (stack_dist + 1) stack).map fun q => (q.1, a :: q.2)

def verifyStackDist (stack : List ℕ) (r_address : ℕ) (update_stack : Bool) : ℕ × List ℕ :=
  match seek r_address 0 stack with
  | some (stack_dist, erased) => (stack_dist, if update_stack then r_address :: erased else stack)
  | none => (Infinity, if update_stack then r_address :: stack else stack)

/-- The comparison with the naive stack. -/
def checkStack (r_address stack_dist : ℕ) (update_stack : Bool) : Except Failure StackDistCalc := do
  let (verify_stack_dist, stack) := verifyStackDist s.stack r_address update_stack
  panic_if (verify_stack_dist ≠ stack_dist) .stackDist
  return { s with stack := stack }

/-! ## The interface -/

/-- The first half of `calcStackDistAndUpdate`: the old leaf is removed. -/
def removeLeaf (r_address : ℕ) (addNewNode : Bool) : Except Failure (StackDistCalc × ℕ × Bool) :=
  match s.aiMap r_address with
  | some r_index => do
    let s1 := { s with
      aiMap := Function.update s.aiMap r_address (if addNewNode then some s.index else none) }
    let (stack_dist, s2) ← s1.updateSumsLeavesToRoot r_index false
    let leaf ← get (s2.tree 0 r_index)
    return ({ s2 with tree := s2.tree.set 0 r_index none }, stack_dist, leaf.isMarked)
  | none =>
    return ({ s with aiMap := if addNewNode then Function.update s.aiMap r_address (some s.index)
      else s.aiMap }, Infinity, false)

/-- The second half: a leaf for the new access. -/
def addLeaf (r_address stack_dist : ℕ) : Except Failure StackDistCalc := do
  let s1 ← (if s.index % 2 = 0 then s.updateTree else .ok s)
  let parent := s1.nextIndex 1 - 1
  let _ ← get (s1.tree 1 parent)
  let newLeafNode :=
    { Node.new with
      nodeIndex := s.index
      isLeftNode := s.index % 2 = 0
      parent := some parent }
  let s2 := { s1 with
    nextIndex := Function.update s1.nextIndex 0 (s1.nextIndex 0 + 1)
    tree := s1.tree.set 0 s.index (some newLeafNode) }
  let (_, s3) ← s2.updateSumsLeavesToRoot s.index true
  let s4 ← (if s.verifyStack then do
    s3.sanityCheckTree newLeafNode
    s3.checkStack r_address stack_dist true
    else .ok s3)
  return { s4 with index := s4.index + 1 }

def calcStackDistAndUpdate (r_address : ℕ) (addNewNode : Bool) : Except Failure (StackDistCalc × ℕ × Bool) := do
  let (s1, stack_dist, mark) ← s.removeLeaf r_address addNewNode
  let s2 ← (if addNewNode then s1.addLeaf r_address stack_dist else .ok s1)
  return (s2, stack_dist, mark)

def calcStackDist (r_address : ℕ) (mark : Bool) : Except Failure (StackDistCalc × ℕ × Bool) := do
  let (s1, stack_dist, old_mark) ← (match s.aiMap r_address with
    | some r_index => do
      let leaf ← get (s.tree 0 r_index)
      let s1 := { s with tree := s.tree.set 0 r_index (some { leaf with isMarked := mark }) }
      let stack_dist ← s1.getSumsLeavesToRoot r_index
      return (s1, stack_dist, leaf.isMarked)
    | none => return (s, Infinity, false))
  let s2 ← (if s.verifyStack then s1.checkStack r_address stack_dist false else .ok s1)
  return (s2, stack_dist, old_mark)

end StackDistCalc

end Alpine.Mem.StackDist
