import Mathlib.Logic.Function.Basic
import Mathlib.Data.Fin.Basic

/-!
# The trie (`base/trie.hh`)

`Trie<Key, Value>` for a key of `w` bits: nodes on a heap, with the root `head` at address 0.  Every loop
and recursion of the source runs on fuel, every use of a pointer checks that its node is allocated, and
every assertion and panic is an outcome of its own.

* `goesAfter`, `extendMask`, `lookupHandle`, `insert`, `lookup`, `remove`, `removeKey`, `clear` as in the
  source.
-/

namespace Alpine.Base

/-- `Trie::Node`; the value is a pointer, null in the nodes that only branch. -/
structure TrieNode (w : Nat) (V : Type) where
  key : BitVec w
  mask : BitVec w
  value : Option V
  parent : Option Nat := none
  kids : Fin 2 → Option Nat := fun _ => none

/-- What ends a call early. -/
inductive TrieFault where
  | badPointer
  | assertion (text : String)
  | panicked (text : String)
  | outOfFuel

namespace TrieNode

variable {w : Nat} {V : Type}

/-- The constructor. -/
def make (key mask : BitVec w) (val : Option V) : TrieNode w V :=
  { key := key &&& mask, mask := mask, value := val }

def «matches» (n : TrieNode w V) (test : BitVec w) : Bool :=
  test &&& n.mask == n.key

def setKid (n : TrieNode w V) (i : Fin 2) (k : Option Nat) : TrieNode w V :=
  { n with kids := Function.update n.kids i k }

end TrieNode

/-- The heap of nodes and the next address. -/
structure Trie (w : Nat) (V : Type) where
  nodes : Nat → Option (TrieNode w V)
  fresh : Nat

namespace Trie

variable {w : Nat} {V : Type}

def empty : Trie w V where
  nodes := Function.update (fun _ => none) 0 (some (.make 0 0 none))
  fresh := 1

/-! ## The heap -/

def deref (t : Trie w V) (a : Nat) : Except TrieFault (TrieNode w V) :=
  match t.nodes a with
  | none => .error .badPointer
  | some n => .ok n

def modify (t : Trie w V) (a : Nat) (f : TrieNode w V → TrieNode w V) : Except TrieFault (Trie w V) := do
  let n ← t.deref a
  return { t with nodes := Function.update t.nodes a (some (f n)) }

def new (t : Trie w V) (n : TrieNode w V) : Trie w V × Nat :=
  ({ nodes := Function.update t.nodes t.fresh (some n), fresh := t.fresh + 1 }, t.fresh)

def delete (t : Trie w V) (a : Nat) : Except TrieFault (Trie w V) := do
  let _ ← t.deref a
  return { t with nodes := Function.update t.nodes a none }

/-! ## Lookup -/

/-- `kid && kid->matches(key)`. -/
def kidMatches (t : Trie w V) (kid : Option Nat) (key : BitVec w) : Except TrieFault Bool :=
  match kid with
  | none => .ok false
  | some k => do
    let n ← t.deref k
    return n.matches key

/-- The loop of `lookupHandle` from a node. -/
def lookupFrom (t : Trie w V) (key : BitVec w) : Nat → Nat → Except TrieFault (Option Nat)
  | 0, _ => .error .outOfFuel
  | fuel + 1, node => do
    let n ← t.deref node
    if n.value.isSome then return some node
    if ← t.kidMatches (n.kids 0) key then
      match n.kids 0 with
      | some k => t.lookupFrom key fuel k
      | none => return none
    else if ← t.kidMatches (n.kids 1) key then
      match n.kids 1 with
      | some k => t.lookupFrom key fuel k
      | none => return none
    else return none

def lookupHandle (t : Trie w V) (fuel : Nat) (key : BitVec w) : Except TrieFault (Option Nat) :=
  t.lookupFrom key fuel 0

def lookup (t : Trie w V) (fuel : Nat) (key : BitVec w) : Except TrieFault (Option V) := do
  match ← t.lookupHandle fuel key with
  | none => return none
  | some node =>
    let n ← t.deref node
    return n.value

/-! ## Insertion -/

/-- The node that the walk moves to. -/
def goesAfter (t : Trie w V) (kid : Option Nat) (key newMask : BitVec w) : Except TrieFault (Option Nat) :=
  match kid with
  | none => return none
  | some k => do
    let n ← t.deref k
    return if n.matches key && n.mask &&& newMask == n.mask then some k else none

def extendMask (orig : BitVec w) : BitVec w :=
  orig ||| orig >>> 1 ||| (1#w) <<< (w - 1)

/-- The loop that walks past the nodes a new node is inserted after. -/
def walk (t : Trie w V) (key newMask : BitVec w) : Nat → Nat → Except TrieFault Nat
  | 0, _ => .error .outOfFuel
  | fuel + 1, node => do
    let n ← t.deref node
    match ← t.goesAfter (n.kids 0) key newMask with
    | some k => t.walk key newMask fuel k
    | none =>
      match ← t.goesAfter (n.kids 1) key newMask with
      | some k => t.walk key newMask fuel k
      | none => return node

/-- The loop that walks down a leg, and the mask it stops at. -/
def legMask (key kidKey newMask : BitVec w) : Nat → BitVec w → Except TrieFault (BitVec w)
  | 0, _ => .error .outOfFuel
  | fuel + 1, lastMask =>
    let curMask := extendMask lastMask
    if key &&& curMask ≠ kidKey &&& curMask ∨ lastMask = newMask then return lastMask
    else legMask key kidKey newMask fuel curMask

/-- A new node as the kid of `node` at place `i`. -/
def hang (t : Trie w V) (node : Nat) (i : Fin 2) (n : TrieNode w V) : Except TrieFault (Trie w V × Nat) := do
  let (t, newNode) := t.new n
  let t ← t.modify newNode fun n => { n with parent := some node }
  let t ← t.modify node fun n => n.setKid i (some newNode)
  return (t, newNode)

/-- A new node between `node` and its kid at place `i`. -/
def splice (t : Trie w V) (node : Nat) (i : Fin 2) (kid : Nat) (n : TrieNode w V) :
    Except TrieFault (Trie w V × Nat) := do
  let (t, newNode) := t.new n
  let t ← t.modify newNode fun n => { n with parent := some node }
  let t ← t.modify kid fun n => { n with parent := some newNode }
  let t ← t.modify newNode fun n => n.setKid 0 (some kid)
  let t ← t.modify node fun n => n.setKid i (some newNode)
  return (t, newNode)

/-- How a round of the loop over the legs ends: with a new node, or with the mask for the next leg. -/
inductive Leg (w : Nat) (V : Type) where
  | done (t : Trie w V) (handle : Nat)
  | skip (curMask : BitVec w)

/-- One round of the loop over the legs. -/
def insertLeg (t : Trie w V) (fuel node : Nat) (key newMask curMask : BitVec w) (val : V) (i : Fin 2) :
    Except TrieFault (Leg w V) := do
  let n ← t.deref node
  match n.kids i with
  | none =>
    let (t, newNode) ← t.hang node i (.make key newMask (some val))
    return .done t newNode
  | some kid =>
    let kn ← t.deref kid
    let curMask ← legMask key kn.key newMask fuel curMask
    if curMask = n.mask then return .skip curMask
    let (t, newNode) ← t.splice node i kid (.make key curMask none)
    if curMask = newMask then
      let t ← t.modify newNode fun n => { n with value := some val }
      return .done t newNode
    let (t, newNode) ← t.hang newNode 1 (.make key newMask (some val))
    return .done t newNode

/-- The loop over the legs. -/
def insertLegs (t : Trie w V) (fuel node : Nat) (key newMask : BitVec w) (val : V) :
    BitVec w → List (Fin 2) → Except TrieFault (Trie w V × Nat)
  | _, [] => .error (.panicked "Reached the end of the Trie insert function!\n")
  | curMask, i :: is => do
    match ← t.insertLeg fuel node key newMask curMask val i with
    | .done t handle => return (t, handle)
    | .skip curMask => t.insertLegs fuel node key newMask val curMask is

/-- The mask of a width; only a width below `MaxBits` shifts it. -/
def widthMask (w width : Nat) : BitVec w :=
  if width < w then BitVec.allOnes w <<< (w - width) else BitVec.allOnes w

def insert (t : Trie w V) (fuel : Nat) (key : BitVec w) (width : Nat) (val : V) :
    Except TrieFault (Trie w V × Nat) := do
  let newMask := widthMask w width
  let key := key &&& newMask
  let node ← t.walk key newMask fuel 0
  let n ← t.deref node
  let curMask := n.mask
  if curMask = newMask then
    if n.value.isSome then throw (.assertion "!node->value")
    let t ← t.modify node fun n => { n with value := some val }
    return (t, node)
  t.insertLegs fuel node key newMask val curMask [0, 1]

/-! ## Removal -/

/-- If there's a kid, fix up its parent pointer. -/
def adopt (t : Trie w V) (kid : Option Nat) (parent : Nat) : Except TrieFault (Trie w V) :=
  match kid with
  | none => return t
  | some k => t.modify k fun n => { n with parent := some parent }

/-- Figure out which kid we are, and update our parent's pointers. -/
def replaceKid (t : Trie w V) (parent node : Nat) (kid : Option Nat) : Except TrieFault (Trie w V) := do
  let pn ← t.deref parent
  if pn.kids 0 = some node then t.modify parent fun n => n.setKid 0 kid
  else if pn.kids 1 = some node then t.modify parent fun n => n.setKid 1 kid
  else throw (.panicked "Trie: Inconsistent parent/kid relationship.\n")

/-- Make sure if the parent only has one kid, it's the first. -/
def straighten (t : Trie w V) (parent : Nat) : Except TrieFault (Trie w V) := do
  let pn ← t.deref parent
  if (pn.kids 1).isSome ∧ pn.kids 0 = none then
    t.modify parent fun n => (n.setKid 0 (n.kids 1)).setKid 1 none
  else return t

def remove (t : Trie w V) : Nat → Nat → Except TrieFault (Trie w V × Option V)
  | 0, _ => .error .outOfFuel
  | fuel + 1, node => do
    let n ← t.deref node
    if (n.kids 1).isSome then
      if n.value.isNone then throw (.assertion "node->value")
      let t ← t.modify node fun n => { n with value := none }
      return (t, n.value)
    match n.parent with
    | none => throw (.panicked "Trie: Can't remove root node.\n")
    | some parent =>
      let t ← t.adopt (n.kids 0) parent
      let t ← t.replaceKid parent node (n.kids 0)
      let t ← t.straighten parent
      let pn ← t.deref parent
      let t ←
        if pn.kids 1 = none ∧ pn.value = none ∧ pn.parent.isSome then do
          let (t, _) ← t.remove fuel parent
          pure t
        else pure t
      let t ← t.delete node
      return (t, n.value)

def removeKey (t : Trie w V) (fuel : Nat) (key : BitVec w) : Except TrieFault (Trie w V × Option V) := do
  match ← t.lookupHandle fuel key with
  | none => return (t, none)
  | some handle => t.remove fuel handle

/-- The kid at place `i` is cleared, deleted and forgotten. -/
def clearKid (clearAll : Trie w V → Nat → Except TrieFault (Trie w V)) (t : Trie w V) (node : Nat)
    (i : Fin 2) : Except TrieFault (Trie w V) := do
  let n ← t.deref node
  match n.kids i with
  | none => return t
  | some k =>
    let t ← clearAll t k
    let t ← t.delete k
    t.modify node fun n => n.setKid i none

/-- `Node::clear`. -/
def clearNode : Nat → Trie w V → Nat → Except TrieFault (Trie w V)
  | 0, _, _ => .error .outOfFuel
  | fuel + 1, t, node => do
    let t ← clearKid (clearNode fuel) t node 1
    clearKid (clearNode fuel) t node 0

def clear (t : Trie w V) (fuel : Nat) : Except TrieFault (Trie w V) :=
  clearNode fuel t 0

end Trie

end Alpine.Base
