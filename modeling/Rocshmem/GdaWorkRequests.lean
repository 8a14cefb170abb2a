import Mathlib

/-! The work requests of the puts, for mlx5 and bnxt. A length is a `size_t` in the calls, an
`int32_t` below them and a field of the WQE at the end; whether the data goes inline is decided
once for the local key and once more for the WQE. -/
namespace GdaWorkRequests

abbrev Address := BitVec 64
abbrev Key := BitVec 32

inductive Provider where
  | mlx5
  | bnxt
  deriving DecidableEq

structure QueuePair where
  provider : Provider
  rkey : Key
  getRaddrInfo : Address → Address × Key
  getLkey : Address → Key

def QueuePair.inlineThreshold (qp : QueuePair) : BitVec 32 :=
  match qp.provider with
  | .mlx5 => 28
  | .bnxt => 8

def mlx5OpcodeRdmaWrite : BitVec 8 := 0x08
def bnxtReWrOpcdRdmaWrite : BitVec 8 := 0x04

def QueuePair.gdaOpRdmaWrite (qp : QueuePair) : BitVec 8 :=
  match qp.provider with
  | .mlx5 => mlx5OpcodeRdmaWrite
  | .bnxt => bnxtReWrOpcdRdmaWrite

def mlx5InlineSeg : BitVec 32 := 0x80000000

inductive Mlx5Rma where
  | data (byteCount : BitVec 32) (lkey : Key) (addr : Address)
  | inlineData (byteCount : BitVec 32) (addr : Address) (copied : BitVec 32)
  deriving DecidableEq

structure Mlx5Wqe where
  opcode : BitVec 8
  ds : BitVec 8
  raddr : Address
  rkey : Key
  rma : Mlx5Rma
  deriving DecidableEq

namespace Mlx5

def canInline (opcode : BitVec 8) (byteCount inlineThreshold : BitVec 32) : Bool :=
  opcode = mlx5OpcodeRdmaWrite && byteCount ≤ inlineThreshold

def inlineDs (byteCount : BitVec 32) : BitVec 8 := if byteCount ≤ 12 then 3 else 4

def wqe (opcode : BitVec 8) (raddr : Address) (rkey : Key) (laddr : Address) (lkey : Key)
    (byteCount : BitVec 32) (sendInline : Bool) : Mlx5Wqe :=
  if sendInline then
    ⟨opcode, inlineDs byteCount, raddr, rkey,
      .inlineData ((byteCount &&& 0x3FF) ||| mlx5InlineSeg) laddr byteCount⟩
  else ⟨opcode, 3, raddr, rkey, .data (byteCount &&& ~~~mlx5InlineSeg) lkey laddr⟩

def postWqeRma (qp : QueuePair) (length : BitVec 32) (raddr : Address) (rkey : Key)
    (laddr : Address) (lkey : Key) (opcode : BitVec 8) : Mlx5Wqe :=
  wqe opcode raddr rkey laddr lkey length (canInline opcode length qp.inlineThreshold)

end Mlx5

inductive BnxtSge where
  | sge (pa : Address) (lkey : Key) (length : BitVec 32)
  | inlineData (addr : Address) (copied : BitVec 64)
  deriving DecidableEq

structure BnxtWqe where
  wqeType : BitVec 8
  flagsInline : Bool
  qkeyLen : BitVec 64
  rva : Address
  rkey : Key
  sge : BnxtSge
  deriving DecidableEq

namespace Bnxt

def writeRmaWqe (qp : QueuePair) (length : BitVec 32) (raddr : Address) (rkey : Key)
    (laddr : Address) (lkey : Key) (opcode : BitVec 8) : BnxtWqe :=
  let inlineMsg := length.sle qp.inlineThreshold && opcode = qp.gdaOpRdmaWrite
  { wqeType := opcode
    flagsInline := inlineMsg
    qkeyLen := length.signExtend 64
    rva := raddr
    rkey := rkey
    sge := if inlineMsg then .inlineData laddr (length.signExtend 64) else .sge laddr lkey length }

end Bnxt

inductive Wqe where
  | mlx5 (w : Mlx5Wqe)
  | bnxt (w : BnxtWqe)
  deriving DecidableEq

def postWqeRma (qp : QueuePair) (length : BitVec 32) (raddr : Address) (rkey : Key)
    (laddr : Address) (lkey : Key) (opcode : BitVec 8) : Wqe :=
  match qp.provider with
  | .mlx5 => .mlx5 (Mlx5.postWqeRma qp length raddr rkey laddr lkey opcode)
  | .bnxt => .bnxt (Bnxt.writeRmaWqe qp length raddr rkey laddr lkey opcode)

def srcLkey (qp : QueuePair) (length : BitVec 64) (source : Address) : Option Key :=
  if (length.setWidth 32).sle qp.inlineThreshold then none else some (qp.getLkey source)

def putNbiKeys (qp : QueuePair) (raddr : Address) (rkey : Key) (laddr : Address) (lkey : Key)
    (length : BitVec 64) : Wqe :=
  postWqeRma qp (length.setWidth 32) raddr rkey laddr lkey qp.gdaOpRdmaWrite

structure Posted where
  lkey : Option Key
  wqe : Wqe
  deriving DecidableEq

def putNbi (qp : QueuePair) (dest source : Address) (length : BitVec 64) : Posted :=
  let (raddr, dstRkey) := qp.getRaddrInfo dest
  let lkey := srcLkey qp length source
  ⟨lkey, putNbiKeys qp raddr dstRkey source (lkey.getD 0) length⟩

def putNbiSingle (qp : QueuePair) (dest source : Address) (length : BitVec 64) : Posted :=
  let lkey := srcLkey qp length source
  ⟨lkey, postWqeRma qp (length.setWidth 32) dest qp.rkey source (lkey.getD 0) qp.gdaOpRdmaWrite⟩

def tilePutChunkNbi (qp : QueuePair) (dst src : Address) (bytes : BitVec 64) : Posted :=
  let (raddr, dstRkey) := qp.getRaddrInfo dst
  let lkey := srcLkey qp bytes src
  ⟨lkey, putNbiKeys qp raddr dstRkey src (lkey.getD 0) bytes⟩

namespace Wqe

def isInline : Wqe → Bool
  | .mlx5 ⟨_, _, _, _, .inlineData _ _ _⟩ => true
  | .mlx5 ⟨_, _, _, _, .data _ _ _⟩ => false
  | .bnxt w => w.flagsInline

def Transfers (n : ℕ) : Wqe → Prop
  | .mlx5 ⟨_, _, _, _, .data byteCount _ _⟩ => byteCount.toNat = n
  | .mlx5 ⟨_, _, _, _, .inlineData byteCount _ copied⟩ =>
    (byteCount &&& 0x3FF).toNat = n ∧ copied.toNat = n ∧ n ≤ 28
  | .bnxt ⟨_, _, qkeyLen, _, _, .sge _ _ length⟩ => qkeyLen.toNat = n ∧ length.toNat = n
  | .bnxt ⟨_, _, qkeyLen, _, _, .inlineData _ copied⟩ =>
    qkeyLen.toNat = n ∧ copied.toNat = n ∧ n ≤ 16

end Wqe

def Preserves (length : BitVec 64) (p : Posted) : Prop :=
  p.wqe.Transfers length.toNat ∧ (p.lkey = none ↔ p.wqe.isInline = true)

section Lengths

variable {length : BitVec 64} {qp : QueuePair} {raddr laddr : Address} {rkey lkey : Key}

theorem toNat_setWidth_length : (length.setWidth 32).toNat = length.toNat % 2 ^ 32 :=
  BitVec.toNat_setWidth 32 length

theorem inlineThreshold_toNat (qp : QueuePair) :
    qp.inlineThreshold.toNat = if qp.provider = .mlx5 then 28 else 8 := by
  rw [QueuePair.inlineThreshold]
  cases qp.provider <;> rfl

theorem sle_inlineThreshold (qp : QueuePair) (length : BitVec 64) :
    (length.setWidth 32).sle qp.inlineThreshold = true ↔
      length.toNat % 2 ^ 32 ≤ qp.inlineThreshold.toNat ∨ 2 ^ 31 ≤ length.toNat % 2 ^ 32 := by
  have hthreshold : qp.inlineThreshold.toNat < 2 ^ 31 := by
    rw [inlineThreshold_toNat]
    split <;> decide
  rw [BitVec.sle_iff_toInt_le, BitVec.toInt_eq_toNat_cond, BitVec.toInt_eq_toNat_cond,
    toNat_setWidth_length]
  split <;> split <;> omega

theorem signExtend_length : ((length.setWidth 32).signExtend 64).toNat =
    if length.toNat % 2 ^ 32 < 2 ^ 31 then length.toNat % 2 ^ 32
    else 2 ^ 64 - 2 ^ 32 + length.toNat % 2 ^ 32 := by
  have hlt : length.toNat % 2 ^ 32 < 2 ^ 64 := by omega
  rw [BitVec.toNat_signExtend, BitVec.toNat_setWidth, BitVec.msb_eq_decide, toNat_setWidth_length,
    Nat.mod_eq_of_lt hlt]
  by_cases hneg : 2 ^ (32 - 1) ≤ length.toNat % 2 ^ 32
  · rw [if_pos (decide_eq_true hneg), if_neg (Nat.not_lt.mpr hneg)]
    omega
  · rw [if_neg (fun hc => hneg (of_decide_eq_true hc)), if_pos (Nat.not_le.mp hneg), Nat.add_zero]

theorem and_not_inlineSeg (x : BitVec 32) : (x &&& ~~~mlx5InlineSeg).toNat = x.toNat % 2 ^ 31 := by
  rw [BitVec.toNat_and]
  exact Nat.and_two_pow_sub_one_eq_mod x.toNat 31

theorem inline_count (x : BitVec 32) :
    (((x &&& 0x3FF) ||| mlx5InlineSeg) &&& 0x3FF).toNat = x.toNat % 2 ^ 10 := by
  have hseg : mlx5InlineSeg &&& 0x3FF = 0#32 := by decide
  rw [BitVec.and_or_distrib_right, hseg, BitVec.or_zero, BitVec.and_assoc, BitVec.and_self,
    BitVec.toNat_and]
  exact Nat.and_two_pow_sub_one_eq_mod x.toNat 10

theorem mlx5_wqe_eq (h : qp.provider = .mlx5) :
    putNbiKeys qp raddr rkey laddr lkey length =
      .mlx5 (Mlx5.wqe mlx5OpcodeRdmaWrite raddr rkey laddr lkey (length.setWidth 32)
        (length.toNat % 2 ^ 32 ≤ 28)) := by
  have hop : qp.gdaOpRdmaWrite = mlx5OpcodeRdmaWrite := by rw [QueuePair.gdaOpRdmaWrite, h]
  have hthreshold : qp.inlineThreshold = 28 := by rw [QueuePair.inlineThreshold, h]
  have hcan : Mlx5.canInline mlx5OpcodeRdmaWrite (length.setWidth 32) 28 =
      decide (length.toNat % 2 ^ 32 ≤ 28) := by
    rw [Mlx5.canInline, decide_eq_true rfl, Bool.true_and, decide_eq_decide, BitVec.le_def,
      toNat_setWidth_length]
    rfl
  rw [putNbiKeys, postWqeRma, h, hop]
  simp only [Mlx5.postWqeRma, hthreshold, hcan]

theorem bnxt_wqe_eq (h : qp.provider = .bnxt) (length : BitVec 64) (raddr : Address) (rkey : Key)
    (laddr : Address) (lkey : Key) :
    ∃ w, putNbiKeys qp raddr rkey laddr lkey length = .bnxt w ∧
      w.flagsInline = (length.setWidth 32).sle qp.inlineThreshold ∧
      w.qkeyLen = (length.setWidth 32).signExtend 64 ∧
      w.sge = if (length.setWidth 32).sle qp.inlineThreshold then
        .inlineData laddr ((length.setWidth 32).signExtend 64)
      else .sge laddr lkey (length.setWidth 32) := by
  refine ⟨Bnxt.writeRmaWqe qp (length.setWidth 32) raddr rkey laddr lkey qp.gdaOpRdmaWrite, ?_⟩
  rw [putNbiKeys, postWqeRma, h]
  simp only [Bnxt.writeRmaWqe, decide_true, Bool.and_true, and_self]

theorem mlx5_isInline (h : qp.provider = .mlx5) :
    (putNbiKeys qp raddr rkey laddr lkey length).isInline = true ↔
      length.toNat % 2 ^ 32 ≤ 28 := by
  rw [mlx5_wqe_eq h, Mlx5.wqe]
  by_cases hc : length.toNat % 2 ^ 32 ≤ 28
  · rw [if_pos (decide_eq_true hc)]
    exact iff_of_true rfl hc
  · rw [if_neg fun h => hc (of_decide_eq_true h)]
    exact iff_of_false nofun hc

theorem mlx5_transfers (h : qp.provider = .mlx5) :
    (putNbiKeys qp raddr rkey laddr lkey length).Transfers length.toNat ↔
      length.toNat < 2 ^ 31 := by
  rw [mlx5_wqe_eq h, Mlx5.wqe]
  by_cases hc : length.toNat % 2 ^ 32 ≤ 28
  · rw [if_pos (decide_eq_true hc)]
    change (((length.setWidth 32 &&& 0x3FF) ||| mlx5InlineSeg) &&& 0x3FF).toNat = length.toNat ∧
      (length.setWidth 32).toNat = length.toNat ∧ length.toNat ≤ 28 ↔ _
    rw [inline_count, toNat_setWidth_length]
    omega
  · rw [if_neg fun h => hc (of_decide_eq_true h)]
    change (length.setWidth 32 &&& ~~~mlx5InlineSeg).toNat = length.toNat ↔ _
    rw [and_not_inlineSeg, toNat_setWidth_length]
    omega

theorem bnxt_transfers (h : qp.provider = .bnxt) :
    (putNbiKeys qp raddr rkey laddr lkey length).Transfers length.toNat ↔
      length.toNat < 2 ^ 31 := by
  have hlt := length.isLt
  have hsle := sle_inlineThreshold qp length
  rw [inlineThreshold_toNat, h, if_neg nofun] at hsle
  obtain ⟨⟨wqeType, flagsInline, qkeyLen, rva, rkey', sge⟩, heq, -, hlen, hsge⟩ :=
    bnxt_wqe_eq h length raddr rkey laddr lkey
  obtain rfl : qkeyLen = _ := hlen
  obtain rfl : sge = _ := hsge
  rw [heq]
  by_cases hc : (length.setWidth 32).sle qp.inlineThreshold = true
  · rw [if_pos hc]
    change ((length.setWidth 32).signExtend 64).toNat = length.toNat ∧
      ((length.setWidth 32).signExtend 64).toNat = length.toNat ∧ length.toNat ≤ 16 ↔ _
    rw [hsle] at hc
    rw [signExtend_length]
    split <;> omega
  · rw [if_neg hc]
    change ((length.setWidth 32).signExtend 64).toNat = length.toNat ∧
      (length.setWidth 32).toNat = length.toNat ↔ _
    rw [hsle] at hc
    rw [signExtend_length, toNat_setWidth_length]
    split <;> omega

theorem postWqeRma_transfers :
    (putNbiKeys qp raddr rkey laddr lkey length).Transfers length.toNat ↔
      length.toNat < 2 ^ 31 := by
  cases h : qp.provider with
  | mlx5 => exact mlx5_transfers h
  | bnxt => exact bnxt_transfers h

theorem srcLkey_eq_none (source : Address) : srcLkey qp length source = none ↔
    (length.setWidth 32).sle qp.inlineThreshold = true := by
  rw [srcLkey]
  split
  next h => exact iff_of_true rfl h
  next h => exact iff_of_false nofun h

theorem srcLkey_eq_none_iff (h : length.toNat < 2 ^ 31) (source : Address) :
    srcLkey qp length source = none ↔
      (putNbiKeys qp raddr rkey laddr lkey length).isInline = true := by
  rw [srcLkey_eq_none]
  cases hp : qp.provider with
  | mlx5 =>
    rw [sle_inlineThreshold, inlineThreshold_toNat, if_pos hp, mlx5_isInline hp]
    omega
  | bnxt =>
    obtain ⟨w, heq, hinline, -⟩ := bnxt_wqe_eq hp length raddr rkey laddr lkey
    rw [heq, ← hinline]
    rfl

theorem preserves_iff (source : Address) : Preserves length ⟨srcLkey qp length source,
    putNbiKeys qp raddr rkey laddr lkey length⟩ ↔
      length.toNat < 2 ^ 31 :=
  ⟨fun h => postWqeRma_transfers.mp h.1,
    fun h => ⟨postWqeRma_transfers.mpr h, srcLkey_eq_none_iff h source⟩⟩

end Lengths

/-- For mlx5 and bnxt, the work request of `put_nbi`, of `put_nbi_single` and of a tile's put
transfers the length of the call, with the local key omitted where the data is inline, if and
only if the length is below `2 ^ 31`; with given keys, the length is kept under the same
condition. -/
theorem puts_preserve_length_iff (qp : QueuePair) (length : BitVec 64) :
    (∀ dest source, Preserves length (putNbi qp dest source length) ↔ length.toNat < 2 ^ 31) ∧
    (∀ dest source, Preserves length (putNbiSingle qp dest source length) ↔
      length.toNat < 2 ^ 31) ∧
    (∀ dst src, Preserves length (tilePutChunkNbi qp dst src length) ↔ length.toNat < 2 ^ 31) ∧
    ∀ raddr rkey laddr lkey, (putNbiKeys qp raddr rkey laddr lkey length).Transfers length.toNat ↔
      length.toNat < 2 ^ 31 :=
  ⟨fun _ source => preserves_iff source, fun _ source => preserves_iff source,
    fun _ src => preserves_iff src, fun _ _ _ _ => postWqeRma_transfers⟩

def mlx5Pair : QueuePair := ⟨.mlx5, 7, fun a => (a, 7), fun _ => 5⟩

/-- A put of `2 ^ 32 + 8` bytes posts an inline WQE of 8 bytes, and one of `2 ^ 31` bytes a WQE
that is not inline but has no local key. -/
theorem long_put_cut :
    (putNbi mlx5Pair 0 0 0x100000008).wqe.Transfers 8 ∧
      ¬ Preserves 0x100000008 (putNbi mlx5Pair 0 0 0x100000008) ∧
      (putNbi mlx5Pair 0 0 0x80000000).lkey = none ∧
      (putNbi mlx5Pair 0 0 0x80000000).wqe.isInline = false :=
  ⟨⟨rfl, rfl, by decide⟩, fun h => absurd h.1.2.1 (by decide), rfl, rfl⟩

end GdaWorkRequests
