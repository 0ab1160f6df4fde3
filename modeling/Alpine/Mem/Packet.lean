/-!
# Packets (`mem/packet.hh`, `mem/packet.cc`)

The commands with their attribute table, and the fields of a packet that the wireless crossbar reads or
writes.  A `RequestPtr` is compared by address, so a request carries the address of its object; data, the
sender state and the remaining flags travel through the crossbar unseen.
-/

namespace Alpine.Mem

/-! ## Commands -/

inductive MemCmd where
  | InvalidCmd | ReadReq | ReadResp | ReadRespWithInvalidate | WriteReq | WriteResp
  | WritebackDirty | WritebackClean | WriteClean | CleanEvict | SoftPFReq | HardPFReq
  | SoftPFResp | HardPFResp | WriteLineReq | UpgradeReq | SCUpgradeReq | UpgradeResp
  | SCUpgradeFailReq | UpgradeFailResp | ReadExReq | ReadExResp | ReadCleanReq | ReadSharedReq
  | LoadLockedReq | StoreCondReq | StoreCondFailReq | StoreCondResp | SwapReq | SwapResp
  | MessageReq | MessageResp | MemFenceReq | MemFenceResp | CleanSharedReq | CleanSharedResp
  | CleanInvalidReq | CleanInvalidResp | InvalidDestError | BadAddressError | FunctionalReadError
  | FunctionalWriteError | PrintReq | FlushReq | InvalidateReq | InvalidateResp
  deriving DecidableEq

inductive Attribute where
  | IsRead | IsWrite | IsUpgrade | IsInvalidate | IsClean | NeedsWritable | IsRequest | IsResponse
  | NeedsResponse | IsEviction | IsSWPrefetch | IsHWPrefetch | IsLlsc | HasData | IsError | IsPrint
  | IsFlush | FromCache
  deriving DecidableEq

/-- `MemCmd::commandInfo`, the attribute column. -/
def MemCmd.attributes : MemCmd → List Attribute
  | .InvalidCmd => []
  | .ReadReq => [.IsRead, .IsRequest, .NeedsResponse]
  | .ReadResp => [.IsRead, .IsResponse, .HasData]
  | .ReadRespWithInvalidate => [.IsRead, .IsResponse, .HasData, .IsInvalidate]
  | .WriteReq => [.IsWrite, .NeedsWritable, .IsRequest, .NeedsResponse, .HasData]
  | .WriteResp => [.IsWrite, .IsResponse]
  | .WritebackDirty => [.IsWrite, .IsRequest, .IsEviction, .HasData, .FromCache]
  | .WritebackClean => [.IsWrite, .IsRequest, .IsEviction, .HasData, .FromCache]
  | .WriteClean => [.IsWrite, .IsRequest, .HasData, .FromCache]
  | .CleanEvict => [.IsRequest, .IsEviction, .FromCache]
  | .SoftPFReq => [.IsRead, .IsRequest, .IsSWPrefetch, .NeedsResponse]
  | .HardPFReq => [.IsRead, .IsRequest, .IsHWPrefetch, .NeedsResponse, .FromCache]
  | .SoftPFResp => [.IsRead, .IsResponse, .IsSWPrefetch, .HasData]
  | .HardPFResp => [.IsRead, .IsResponse, .IsHWPrefetch, .HasData]
  | .WriteLineReq => [.IsWrite, .NeedsWritable, .IsRequest, .NeedsResponse, .HasData]
  | .UpgradeReq => [.IsInvalidate, .NeedsWritable, .IsUpgrade, .IsRequest, .NeedsResponse, .FromCache]
  | .SCUpgradeReq =>
    [.IsInvalidate, .NeedsWritable, .IsUpgrade, .IsLlsc, .IsRequest, .NeedsResponse, .FromCache]
  | .UpgradeResp => [.IsUpgrade, .IsResponse]
  | .SCUpgradeFailReq =>
    [.IsRead, .NeedsWritable, .IsInvalidate, .IsLlsc, .IsRequest, .NeedsResponse, .FromCache]
  | .UpgradeFailResp => [.IsRead, .IsResponse, .HasData]
  | .ReadExReq => [.IsRead, .NeedsWritable, .IsInvalidate, .IsRequest, .NeedsResponse, .FromCache]
  | .ReadExResp => [.IsRead, .IsResponse, .HasData]
  | .ReadCleanReq => [.IsRead, .IsRequest, .NeedsResponse, .FromCache]
  | .ReadSharedReq => [.IsRead, .IsRequest, .NeedsResponse, .FromCache]
  | .LoadLockedReq => [.IsRead, .IsLlsc, .IsRequest, .NeedsResponse]
  | .StoreCondReq => [.IsWrite, .NeedsWritable, .IsLlsc, .IsRequest, .NeedsResponse, .HasData]
  | .StoreCondFailReq => [.IsWrite, .NeedsWritable, .IsLlsc, .IsRequest, .NeedsResponse, .HasData]
  | .StoreCondResp => [.IsWrite, .IsLlsc, .IsResponse]
  | .SwapReq => [.IsRead, .IsWrite, .NeedsWritable, .IsRequest, .HasData, .NeedsResponse]
  | .SwapResp => [.IsRead, .IsWrite, .IsResponse, .HasData]
  | .MessageReq => [.IsWrite, .IsRequest, .NeedsResponse, .HasData]
  | .MessageResp => [.IsWrite, .IsResponse]
  | .MemFenceReq => [.IsRequest, .NeedsResponse]
  | .MemFenceResp => [.IsResponse]
  | .CleanSharedReq => [.IsRequest, .IsClean, .NeedsResponse, .FromCache]
  | .CleanSharedResp => [.IsResponse, .IsClean]
  | .CleanInvalidReq => [.IsRequest, .IsInvalidate, .IsClean, .NeedsResponse, .FromCache]
  | .CleanInvalidResp => [.IsResponse, .IsInvalidate, .IsClean]
  | .InvalidDestError => [.IsResponse, .IsError]
  | .BadAddressError => [.IsResponse, .IsError]
  | .FunctionalReadError => [.IsRead, .IsResponse, .IsError]
  | .FunctionalWriteError => [.IsWrite, .IsResponse, .IsError]
  | .PrintReq => [.IsRequest, .IsPrint]
  | .FlushReq => [.IsRequest, .IsFlush, .NeedsWritable]
  | .InvalidateReq => [.IsInvalidate, .IsRequest, .NeedsWritable, .NeedsResponse, .FromCache]
  | .InvalidateResp => [.IsInvalidate, .IsResponse]

/-- `MemCmd::commandInfo`, the response column. -/
def MemCmd.responseCommand : MemCmd → MemCmd
  | .ReadReq => .ReadResp
  | .WriteReq => .WriteResp
  | .SoftPFReq => .SoftPFResp
  | .HardPFReq => .HardPFResp
  | .WriteLineReq => .WriteResp
  | .UpgradeReq => .UpgradeResp
  | .SCUpgradeReq => .UpgradeResp
  | .SCUpgradeFailReq => .UpgradeFailResp
  | .ReadExReq => .ReadExResp
  | .ReadCleanReq => .ReadResp
  | .ReadSharedReq => .ReadResp
  | .LoadLockedReq => .ReadResp
  | .StoreCondReq => .StoreCondResp
  | .StoreCondFailReq => .StoreCondResp
  | .SwapReq => .SwapResp
  | .MessageReq => .MessageResp
  | .MemFenceReq => .MemFenceResp
  | .CleanSharedReq => .CleanSharedResp
  | .CleanInvalidReq => .CleanInvalidResp
  | .InvalidateReq => .InvalidateResp
  | _ => .InvalidCmd

def MemCmd.testCmdAttrib (cmd : MemCmd) (attrib : Attribute) : Bool := cmd.attributes.contains attrib

/-! ### What the table says -/

theorem MemCmd.clean_spec (cmd : MemCmd) (h : cmd.testCmdAttrib .IsClean = true) :
    cmd.testCmdAttrib .NeedsWritable = false ∧ cmd.testCmdAttrib .IsWrite = false ∧
      (cmd.testCmdAttrib .IsRequest = true → cmd.testCmdAttrib .NeedsResponse = true) := by
  cases cmd <;> first | decide | cases h

theorem MemCmd.responseCommand_spec (cmd : MemCmd) :
    cmd.responseCommand ≠ .WriteClean ∧ (cmd.testCmdAttrib .IsClean = false →
      cmd.responseCommand.testCmdAttrib .IsClean = false) := by
  cases cmd <;> decide

/-! ## Packets -/

structure Request where
  ptr : Nat
  masterId : Nat
  isToPOC : Bool
  isToPOU : Bool

structure Packet where
  cmd : MemCmd
  id : Nat
  req : Request
  addr : Nat
  size : Nat
  isExpressSnoop : Bool := false
  responderHadWritable : Bool := false
  cacheResponding : Bool := false
  writeThrough : Bool := false
  satisfied : Bool := false
  isBlockCached : Bool := false
  headerDelay : UInt32 := 0
  snoopDelay : UInt32 := 0
  payloadDelay : UInt32 := 0

namespace Packet

variable (pkt : Packet)

def isRead : Bool := pkt.cmd.testCmdAttrib .IsRead
def isWrite : Bool := pkt.cmd.testCmdAttrib .IsWrite
def isRequest : Bool := pkt.cmd.testCmdAttrib .IsRequest
def needsWritable : Bool := pkt.cmd.testCmdAttrib .NeedsWritable
def needsResponse : Bool := pkt.cmd.testCmdAttrib .NeedsResponse
def isEviction : Bool := pkt.cmd.testCmdAttrib .IsEviction
def isClean : Bool := pkt.cmd.testCmdAttrib .IsClean
def hasData : Bool := pkt.cmd.testCmdAttrib .HasData
def isCleanEviction : Bool := pkt.cmd = .CleanEvict || pkt.cmd = .WritebackClean

theorem cleanEviction_needsResponse {pkt : Packet} (h : pkt.isCleanEviction = true) : pkt.needsResponse = false := by
  unfold isCleanEviction at h
  unfold needsResponse
  rcases Bool.or_eq_true_iff.1 h with h | h
  · rw [of_decide_eq_true h]
    rfl
  · rw [of_decide_eq_true h]
    rfl

end Packet

end Alpine.Mem
