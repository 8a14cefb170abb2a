import Rocshmem.SdmaRing

/-! The packets of `put_signal_counter_impl`: how they are laid out in dwords, and the copies that
the engine reads from them. -/
namespace SdmaPackets

open SdmaRing

structure CopyLinear where
  op : BitVec 8
  subOp : BitVec 8
  count : BitVec 30
  srcAddrLo : BitVec 32
  srcAddrHi : BitVec 32
  dstAddrLo : BitVec 32
  dstAddrHi : BitVec 32
  deriving DecidableEq

def opCopy : BitVec 8 := 1

def opAtomic : BitVec 8 := 10

def subopCopyLinear : BitVec 8 := 0

def atomicAdd64 : BitVec 7 := 47

def createCopyPacket (src dst packetSize : BitVec 64) : CopyLinear :=
  { op := opCopy
    subOp := subopCopyLinear
    count := ((packetSize - 1).setWidth 32).setWidth 30
    srcAddrLo := src.setWidth 32
    srcAddrHi := (src >>> 32).setWidth 32
    dstAddrLo := dst.setWidth 32
    dstAddrHi := (dst >>> 32).setWidth 32 }

def CopyLinear.dwords (p : CopyLinear) : List Dword :=
  [(p.subOp ++ p.op).setWidth 32, p.count.setWidth 32, 0, p.srcAddrLo, p.srcAddrHi, p.dstAddrLo,
    p.dstAddrHi]

def createAtomicIncPacket (addr : BitVec 64) : List Dword :=
  [atomicAdd64 ++ (0 : BitVec 17) ++ opAtomic, addr.setWidth 32, (addr >>> 32).setWidth 32, 1, 0,
    0, 0, 0]

def putSignalCounterImpl (putEn signalEn counterEn : Bool)
    (dst src size signal counter : BitVec 64) : List (List Dword) :=
  (if putEn then [(createCopyPacket src dst size).dwords] else []) ++
    (if signalEn then [createAtomicIncPacket signal] else []) ++
    (if counterEn then [createAtomicIncPacket counter] else [])

def put (dst src size : BitVec 64) : List (List Dword) :=
  putSignalCounterImpl true false false dst src size 0 0

structure Transfer where
  src : ℕ
  dst : ℕ
  length : ℕ
  deriving DecidableEq

def decode : List Dword → Option Transfer
  | [header, count, _, srcLo, srcHi, dstLo, dstHi] =>
    if header.setWidth 8 = opCopy ∧ (header >>> 8).setWidth 8 = subopCopyLinear then
      some ⟨(srcHi ++ srcLo).toNat, (dstHi ++ dstLo).toNat, (count.setWidth 30).toNat + 1⟩
    else none
  | _ => none

def transfers (packets : List (List Dword)) : List Transfer := packets.filterMap decode

structure Exact (ts : List Transfer) (src dst size : ℕ) : Prop where
  disjoint : ts.Pairwise fun a b =>
    (a.src + a.length ≤ b.src ∨ b.src + b.length ≤ a.src) ∧
      (a.dst + a.length ≤ b.dst ∨ b.dst + b.length ≤ a.dst)
  covers : ∀ x y, (∃ t ∈ ts, ∃ i < t.length, x = t.src + i ∧ y = t.dst + i) ↔
    ∃ i < size, x = src + i ∧ y = dst + i

theorem toNat_halves (x : BitVec 64) :
    ((x >>> 32).setWidth 32 ++ x.setWidth 32 : BitVec 64).toNat = x.toNat := by
  have hlt := x.isLt
  rw [BitVec.toNat_append, ← Nat.shiftLeft_add_eq_or_of_lt (BitVec.isLt _), Nat.shiftLeft_eq,
    BitVec.toNat_setWidth, BitVec.toNat_setWidth, BitVec.toNat_ushiftRight,
    Nat.shiftRight_eq_div_pow]
  omega

theorem toNat_count (size : BitVec 64) (h : 0 < size.toNat) :
    ((((size - 1).setWidth 32).setWidth 30).setWidth 32 : BitVec 32).toNat % 2 ^ 30 =
      (size.toNat - 1) % 2 ^ 30 := by
  have hsub : (size - 1).toNat = size.toNat - 1 := by
    rw [BitVec.toNat_sub]
    change (2 ^ 64 - 1 + size.toNat) % 2 ^ 64 = _
    omega
  rw [BitVec.toNat_setWidth, BitVec.toNat_setWidth, BitVec.toNat_setWidth, hsub]
  omega

theorem decode_createCopyPacket (src dst size : BitVec 64) (h : 0 < size.toNat) :
    decode (createCopyPacket src dst size).dwords =
      some ⟨src.toNat, dst.toNat, (size.toNat - 1) % 2 ^ 30 + 1⟩ := by
  have hcond : (((subopCopyLinear ++ opCopy).setWidth 32 : BitVec 32).setWidth 8 = opCopy ∧
      (((subopCopyLinear ++ opCopy).setWidth 32 : BitVec 32) >>> 8).setWidth 8 =
        subopCopyLinear) := by decide
  have hcount : ((((((size - 1).setWidth 32).setWidth 30).setWidth 32 : BitVec 32).setWidth 30 :
      BitVec 30)).toNat = (size.toNat - 1) % 2 ^ 30 := by
    rw [BitVec.toNat_setWidth]
    exact toNat_count size h
  rw [CopyLinear.dwords, decode, createCopyPacket]
  refine (if_pos hcond).trans ?_
  rw [toNat_halves, toNat_halves, hcount]

theorem transfers_put (dst src size : BitVec 64) (h : 0 < size.toNat) :
    transfers (put dst src size) = [⟨src.toNat, dst.toNat, (size.toNat - 1) % 2 ^ 30 + 1⟩] := by
  have hput : put dst src size = [(createCopyPacket src dst size).dwords] := rfl
  rw [hput, transfers, List.filterMap_cons, decode_createCopyPacket src dst size h]
  rfl

theorem exact_singleton_iff {src dst size length : ℕ} :
    Exact [⟨src, dst, length⟩] src dst size ↔ length = size := by
  constructor
  · intro h
    have hfwd : ∀ i, i < length ↔ i < size := by
      intro i
      have hc := h.covers (src + i) (dst + i)
      simp only [List.mem_singleton, exists_eq_left] at hc
      constructor
      · intro hi
        obtain ⟨j, hj, heq, -⟩ := hc.mp ⟨i, hi, rfl, rfl⟩
        omega
      · intro hi
        obtain ⟨j, hj, heq, -⟩ := hc.mpr ⟨i, hi, rfl, rfl⟩
        omega
    have h1 := hfwd length
    have h2 := hfwd size
    omega
  · rintro rfl
    exact ⟨List.pairwise_singleton _ _, fun x y => by simp⟩

/-- The one packet of `put` describes the copy exactly up to `2 ^ 30` bytes. -/
theorem put_exact_iff (dst src size : BitVec 64) (h : 0 < size.toNat) :
    Exact (transfers (put dst src size)) src.toNat dst.toNat size.toNat ↔
      size.toNat ≤ 2 ^ 30 := by
  rw [transfers_put dst src size h, exact_singleton_iff]
  omega

theorem put_exact_page :
    0 < (4096 : BitVec 64).toNat ∧
      Exact (transfers (put 0x20000 0x10000 4096)) 0x10000 0x20000 4096 :=
  ⟨by decide, (put_exact_iff 0x20000 0x10000 4096 (by decide)).mpr (by decide)⟩

/-- Of `2 ^ 30 + 1` bytes one is copied. -/
theorem put_copies_one_byte :
    transfers (put 0x200000000 0x100000000 0x40000001) = [⟨0x100000000, 0x200000000, 1⟩] ∧
      ¬ Exact (transfers (put 0x200000000 0x100000000 0x40000001)) 0x100000000 0x200000000
        0x40000001 := by
  have hone : transfers (put 0x200000000 0x100000000 0x40000001) =
      [⟨0x100000000, 0x200000000, 1⟩] := by decide +kernel
  refine ⟨hone, ?_⟩
  rw [hone, exact_singleton_iff]
  decide

end SdmaPackets
