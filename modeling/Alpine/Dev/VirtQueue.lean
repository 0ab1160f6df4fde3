import Alpine.Lib.Outcome
import Mathlib

/-!
# VirtIO queues (`dev/virtio/base.cc`, `dev/virtio/base.hh`)

A queue of `n` descriptors, shared with the guest.  The guest owns the descriptor table and the ring of available
chains; the device copies both and hands chains back in the ring of used chains.

* `VirtRing`, `VirtQueue` — the device's objects; a `VirtDescriptor *` is the index of the descriptor.
* `GuestRing`, `Guest` — what guest memory holds at the addresses that `setAddress` computes, and the bytes of the
  buffers.
* `update`, `updateChain`, `next`, `read`, `write`, `chainRead`, `chainWrite`, `chainSize`, `serialize`,
  `unserialize`, `setAddress`, `consumeDescriptor`, `produceDescriptor` as in the source.  The loops over a chain
  have a bound on their iterations.
* `Fault` — a panic with its text, a failed assertion, an access outside a vector, a `size_t` subtraction that
  wraps, a loop that used up its bound.
-/

namespace Alpine.Dev

abbrev Addr := BitVec 64

def VRING_DESC_F_NEXT : BitVec 16 := 1
def VRING_DESC_F_WRITE : BitVec 16 := 2

structure VringDesc where
  addr : Addr
  len : BitVec 32
  flags : BitVec 16
  next : BitVec 16

structure VringUsedElem where
  id : BitVec 32
  len : BitVec 32
deriving DecidableEq

structure Header where
  flags : BitVec 16
  index : BitVec 16

inductive Fault where
  | panic (text : String)
  | assertion
  | outside
  | wrap
  | running

namespace VringDesc

def hasNext (d : VringDesc) : Bool := d.flags &&& VRING_DESC_F_NEXT != 0

def isOutgoing (d : VringDesc) : Bool := d.flags &&& VRING_DESC_F_WRITE != 0

def isIncoming (d : VringDesc) : Bool := !d.isOutgoing

def size (d : VringDesc) : Nat := d.len.toNat

end VringDesc

/-! ### Guest memory -/

/-- A ring in guest memory. -/
structure GuestRing (T : Type) (n : Nat) where
  header : Header
  ring : Vector T n

structure Guest (n : Nat) where
  table : Vector VringDesc n
  avail : GuestRing (BitVec 16) n
  used : GuestRing VringUsedElem n
  bytes : Addr → BitVec 8

/-- The addresses of `size` bytes from `addr` on. -/
def span (addr : Addr) : Nat → List Addr
  | 0 => []
  | size + 1 => addr :: span (addr + 1) size

/-- Bytes written one after the other. -/
def store (bytes : Addr → BitVec 8) : List Addr → List (BitVec 8) → Addr → BitVec 8
  | a :: as, v :: vs => store (Function.update bytes a v) as vs
  | _, _ => bytes

def readBlob (bytes : Addr → BitVec 8) (addr : Addr) (size : Nat) : List (BitVec 8) := (span addr size).map bytes

def writeBlob (bytes : Addr → BitVec 8) (addr : Addr) (src : List (BitVec 8)) : Addr → BitVec 8 :=
  store bytes (span addr src.length) src

/-! ### The rings of the device -/

structure VirtRing (T : Type) (n : Nat) where
  header : Header
  ring : Vector T n
  _base : Addr

namespace VirtRing

variable {T : Type} {n : Nat}

def new (zero : T) : VirtRing T n := ⟨⟨0, 0⟩, Vector.replicate n zero, 0⟩

def setAddress (r : VirtRing T n) (addr : Addr) : VirtRing T n := { r with _base := addr }

def readHeader (r : VirtRing T n) (g : GuestRing T n) : Except Fault (VirtRing T n) :=
  if r._base = 0 then throw .assertion else pure { r with header := g.header }

def writeHeader (r : VirtRing T n) (g : GuestRing T n) : Except Fault (GuestRing T n) :=
  if r._base = 0 then throw .assertion else pure { g with header := r.header }

def read (r : VirtRing T n) (g : GuestRing T n) : Except Fault (VirtRing T n) := do
  let r ← r.readHeader g
  pure { r with ring := g.ring }

def write (r : VirtRing T n) (g : GuestRing T n) : Except Fault (GuestRing T n) :=
  if r._base = 0 then throw .assertion else r.writeHeader { g with ring := r.ring }

end VirtRing

/-! ### The queue -/

structure VirtQueue (n : Nat) where
  _address : Addr
  avail : VirtRing (BitVec 16) n
  used : VirtRing VringUsedElem n
  _last_avail : BitVec 16
  descriptors : Vector VringDesc n

/-- What a checkpoint holds of a queue. -/
structure Checkpoint where
  _address : Addr
  _last_avail : BitVec 16

namespace VirtQueue

variable {n : Nat}

def ALIGN_SIZE : Addr := 4096

def new (n : Nat) : VirtQueue n :=
  { _address := 0, avail := VirtRing.new 0, used := VirtRing.new ⟨0, 0⟩, _last_avail := 0,
    descriptors := Vector.replicate n ⟨0, 0, 0, 0⟩ }

def setAddress (q : VirtQueue n) (address : Addr) : VirtQueue n :=
  let addr_avail := address + BitVec.ofNat 64 n * 16
  let addr_avail_end := addr_avail + 4 + BitVec.ofNat 64 n * 2
  let addr_used := (addr_avail_end + 2 + (ALIGN_SIZE - 1)) &&& ~~~ (ALIGN_SIZE - 1)
  { q with _address := address, avail := q.avail.setAddress addr_avail, used := q.used.setAddress addr_used }

def serialize (q : VirtQueue n) : Checkpoint := ⟨q._address, q._last_avail⟩

def unserialize (q : VirtQueue n) (cp : Checkpoint) : VirtQueue n :=
  { q with _last_avail := cp._last_avail }.setAddress cp._address

def getDescriptor (_ : VirtQueue n) (index : BitVec 16) : Except Fault (Fin n) :=
  if h : index.toNat < n then pure ⟨index.toNat, h⟩ else throw .outside

/-- The member `desc` of a descriptor. -/
def desc (q : VirtQueue n) (d : Fin n) : VringDesc := q.descriptors[d]

def update (q : VirtQueue n) (g : Guest n) (d : Fin n) : VirtQueue n :=
  if q._address = 0 then q else { q with descriptors := q.descriptors.set d g.table[d] }

def next (q : VirtQueue n) (d : Fin n) : Except Fault (Option (Fin n)) :=
  if (q.desc d).hasNext then do
    let d ← q.getDescriptor (q.desc d).next
    pure (some d)
  else pure none

/-- The loop of `updateChain`, at the descriptor `d`. -/
def updateChainLoop (g : Guest n) (this : Fin n) : Nat → VirtQueue n → Fin n → Except Fault (VirtQueue n)
  | 0, _, _ => throw .running
  | fuel + 1, q, d => do
    let q := q.update g d
    match ← q.next d with
    | none => pure q
    | some d => if d = this then throw (.panic "Loop in descriptor chain!\n") else updateChainLoop g this fuel q d

def updateChain (fuel : Nat) (q : VirtQueue n) (g : Guest n) (this : Fin n) : Except Fault (VirtQueue n) :=
  updateChainLoop g this fuel q this

def consumeDescriptor (fuel : Nat) (q : VirtQueue n) (g : Guest n) : Except Fault (VirtQueue n × Option (Fin n)) := do
  let avail ← q.avail.read g.avail
  let q := { q with avail := avail }
  if q._last_avail = q.avail.header.index then pure (q, none)
  else
    match q.avail.ring[q._last_avail.toNat % n]? with
    | none => throw .outside
    | some index =>
      let q := { q with _last_avail := q._last_avail + 1 }
      let d ← q.getDescriptor index
      let q ← q.updateChain fuel g d
      pure (q, some d)

def produceDescriptor (q : VirtQueue n) (g : Guest n) (d : Fin n) (len : BitVec 32) :
    Except Fault (VirtQueue n × Guest n) := do
  let used ← q.used.readHeader g.used
  if h : used.header.index.toNat % n < n then do
    let ring := used.ring.set (used.header.index.toNat % n) ⟨BitVec.ofNat 32 d, len⟩
    let used := { used with ring := ring, header := { used.header with index := used.header.index + 1 } }
    let guest ← used.write g.used
    pure ({ q with used := used }, { g with used := guest })
  else throw .outside

/-! ### Transfers -/

/-- A subtraction of type `size_t`. -/
def sub (a b : Nat) : Except Fault Nat := if b ≤ a then pure (a - b) else throw .wrap

def read (q : VirtQueue n) (g : Guest n) (d : Fin n) (offset size : Nat) : Except Fault (List (BitVec 8)) := do
  let left ← sub (q.desc d).size offset
  if ¬ size ≤ left then throw .assertion
  else if !(q.desc d).isIncoming then throw (.panic "Trying to read from outgoing buffer\n")
  else pure (readBlob g.bytes ((q.desc d).addr + BitVec.ofNat 64 offset) size)

def write (q : VirtQueue n) (g : Guest n) (d : Fin n) (offset : Nat) (src : List (BitVec 8)) :
    Except Fault (Guest n) := do
  let left ← sub (q.desc d).size offset
  if ¬ src.length ≤ left then throw .assertion
  else if !(q.desc d).isOutgoing then throw (.panic "Trying to write to incoming buffer\n")
  else pure { g with bytes := writeBlob g.bytes ((q.desc d).addr + BitVec.ofNat 64 offset) src }

def chainSizeLoop (q : VirtQueue n) : Nat → Fin n → Nat → Except Fault Nat
  | 0, _, _ => throw .running
  | fuel + 1, d, size => do
    let size := size + (q.desc d).size
    match ← q.next d with
    | none => pure size
    | some d => chainSizeLoop q fuel d size

def chainSize (fuel : Nat) (q : VirtQueue n) (this : Fin n) : Except Fault Nat := chainSizeLoop q fuel this 0

/-- What `chainRead` does at a descriptor. -/
def readRound (q : VirtQueue n) (g : Guest n) (d : Fin n) (offset size : Nat) (dst : List (BitVec 8)) :
    Except Fault (Nat × Nat × List (BitVec 8)) :=
  if offset < (q.desc d).size then do
    let left ← sub (q.desc d).size offset
    let chunk_size := min left size
    let out ← q.read g d offset chunk_size
    let size ← sub size chunk_size
    pure (0, size, dst ++ out)
  else do
    let offset ← sub offset (q.desc d).size
    pure (offset, size, dst)

/-- The loop of `chainRead`, with the final `offset` and `size` and the bytes that have been read. -/
def chainReadLoop (q : VirtQueue n) (g : Guest n) :
    Nat → Fin n → Nat → Nat → List (BitVec 8) → Except Fault (Nat × Nat × List (BitVec 8))
  | 0, _, _, _, _ => throw .running
  | fuel + 1, d, offset, size, dst => do
    let (offset, size, dst) ← q.readRound g d offset size dst
    match ← q.next d with
    | none => pure (offset, size, dst)
    | some d =>
      if (q.desc d).isIncoming ∧ size > 0 then chainReadLoop q g fuel d offset size dst
      else pure (offset, size, dst)

def chainRead (fuel : Nat) (q : VirtQueue n) (g : Guest n) (this : Fin n) (offset size : Nat) :
    Except Fault (List (BitVec 8)) := do
  let full_size := size
  let (offset, size, dst) ← chainReadLoop q g fuel this offset size []
  if size ≠ 0 then do
    let chain_size ← q.chainSize fuel this
    throw (.panic s!"Failed to read {full_size} bytes from chain of {chain_size} bytes @ offset {offset}\n")
  else pure dst

/-- What `chainWrite` does at a descriptor. -/
def writeRound (q : VirtQueue n) (g : Guest n) (d : Fin n) (offset : Nat) (src : List (BitVec 8)) :
    Except Fault (Nat × List (BitVec 8) × Guest n) :=
  if offset < (q.desc d).size then do
    let left ← sub (q.desc d).size offset
    let chunk_size := min left src.length
    let g ← q.write g d offset (src.take chunk_size)
    let _ ← sub src.length chunk_size
    pure (0, src.drop chunk_size, g)
  else do
    let offset ← sub offset (q.desc d).size
    pure (offset, src, g)

/-- The loop of `chainWrite`, with the bytes that are still to be written. -/
def chainWriteLoop (q : VirtQueue n) :
    Nat → Guest n → Fin n → Nat → List (BitVec 8) → Except Fault (Nat × List (BitVec 8) × Guest n)
  | 0, _, _, _, _ => throw .running
  | fuel + 1, g, d, offset, src => do
    let (offset, src, g) ← q.writeRound g d offset src
    match ← q.next d with
    | none => pure (offset, src, g)
    | some d => if src.length > 0 then chainWriteLoop q fuel g d offset src else pure (offset, src, g)

def chainWrite (fuel : Nat) (q : VirtQueue n) (g : Guest n) (this : Fin n) (offset : Nat) (src : List (BitVec 8)) :
    Except Fault (Guest n) := do
  let full_size := src.length
  let (offset, left, g) ← chainWriteLoop q fuel g this offset src
  if left.length ≠ 0 then do
    let chain_size ← q.chainSize fuel this
    throw (.panic s!"Failed to write {full_size} bytes into chain of {chain_size} bytes @ offset {offset}\n")
  else pure g

end VirtQueue

end Alpine.Dev
