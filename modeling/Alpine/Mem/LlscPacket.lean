import Mathlib
import Alpine.Mem.Packet

/-!
# Packets with data, and what they do to locked ranges (`mem/packet.hh`, `mem/request.hh`)

The fields that the cache and the memory read when they perform an access, the copies of bytes between a
packet and the memory, and the swaps, which both perform in the same way.  `Event` is what a history keeps of
an access.
-/

namespace Alpine.Mem.Llsc

/-- Bytes by their offset. -/
abbrev Bytes := Nat → UInt8

/-- `Request`.  The functor of an atomic operation gets the bytes at an address and replaces them. -/
structure Request where
  contextId : Nat
  paddr : Nat
  size : Nat
  size_pos : 0 < size
  isCondSwap : Bool := false
  atomicOp : Option (Bytes → Bytes) := none
  extraData : Nat := 0

namespace Request

variable (req : Request)

/-- The address of the last byte. -/
def high : Nat := req.paddr + req.size - 1

def setExtraData (v : Nat) : Request := { req with extraData := v }

theorem paddr_le_high : req.paddr ≤ req.high := by
  have h := req.size_pos
  unfold high
  omega

end Request

/-- `Packet`; its address and size are those of the request. -/
structure Packet where
  cmd : MemCmd
  req : Request
  data : Bytes := fun _ => 0
  cacheResponding : Bool := false
  hasSharers : Bool := false

namespace Packet

variable (pkt : Packet)

def isRead : Bool := pkt.cmd.testCmdAttrib .IsRead
def isWrite : Bool := pkt.cmd.testCmdAttrib .IsWrite
def isUpgrade : Bool := pkt.cmd.testCmdAttrib .IsUpgrade
def isInvalidate : Bool := pkt.cmd.testCmdAttrib .IsInvalidate
def isClean : Bool := pkt.cmd.testCmdAttrib .IsClean
def isRequest : Bool := pkt.cmd.testCmdAttrib .IsRequest
def needsResponse : Bool := pkt.cmd.testCmdAttrib .NeedsResponse
def isLLSC : Bool := pkt.cmd.testCmdAttrib .IsLlsc
def fromCache : Bool := pkt.cmd.testCmdAttrib .FromCache
def isAtomicOp : Bool := pkt.req.atomicOp.isSome

/-- `makeResponse`, as far as the command goes. -/
def makeResponse : Packet := { pkt with cmd := pkt.cmd.responseCommand }

/-! ### Bytes -/

/-- `memcpy(dst + a, src, n)`. -/
def memcpy (dst : Bytes) (a : Nat) (src : Bytes) (n : Nat) : Bytes := fun x =>
  if a ≤ x ∧ x < a + n then src (x - a) else dst x

theorem memcpy_changes {dst src : Bytes} {a n x : Nat} (h : memcpy dst a src n x ≠ dst x) :
    a ≤ x ∧ x < a + n := Classical.not_not.1 fun hx => h (if_neg hx)

/-- `setData`: the bytes at `a` are copied into the packet. -/
def setData (mem : Bytes) (a : Nat) : Packet :=
  { pkt with data := memcpy pkt.data 0 (fun i => mem (a + i)) pkt.req.size }

/-- `writeData`: the bytes of the packet are copied to `a`. -/
def writeData (mem : Bytes) (a : Nat) : Bytes := memcpy mem a pkt.data pkt.req.size

/-- The atomic operation on the bytes at `a`. -/
def atomic (op : Bytes → Bytes) (mem : Bytes) (a : Nat) : Bytes :=
  memcpy mem a (op fun i => mem (a + i)) pkt.req.size

/-- Byte `i` of an integer in the memory of a little-endian host. -/
def byteOf (v i : Nat) : UInt8 := UInt8.ofNat (v >>> (8 * i))

/-- `!memcmp(&v, mem + a, n)`. -/
def sameBytes (v : Nat) (mem : Bytes) (a n : Nat) : Bool :=
  (List.range n).all fun i => byteOf v i == mem (a + i)

/-- `overwrite_mem` of a swap; `none` is the panic on the size of a conditional one. -/
def overwriteMem (mem : Bytes) (a : Nat) : Option Bool :=
  if pkt.req.isCondSwap then
    if pkt.req.size = 8 then some (sameBytes pkt.req.extraData mem a 8)
    else if pkt.req.size = 4 then some (sameBytes (pkt.req.extraData % 2 ^ 32) mem a 4)
    else none
  else some true

/-! ### Events -/

/-- A load-locked: the accesses that `trackLoadLocked` is called for. -/
def isLoadLocked : Bool := pkt.cmd ≠ .SwapReq && pkt.isRead && pkt.isLLSC

/-- A store conditional. -/
def isStoreCond : Bool := pkt.cmd ≠ .SwapReq && pkt.isWrite && pkt.isLLSC

end Packet

/-- What a history keeps of an access: who made it, the addresses of its first and its last byte, what it was,
and whether it stored. -/
structure Event where
  contextId : Nat
  low : Nat
  high : Nat
  isLoadLocked : Bool
  isStoreCond : Bool
  stored : Bool

def Packet.event (pkt : Packet) (stored : Bool) : Event where
  contextId := pkt.req.contextId
  low := pkt.req.paddr
  high := pkt.req.high
  isLoadLocked := pkt.isLoadLocked
  isStoreCond := pkt.isStoreCond
  stored := stored

end Alpine.Mem.Llsc
