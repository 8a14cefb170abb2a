import Rocshmem.GdaBnxtSendRing

/-! The counters that a bnxt post advances: the tail slot with its epoch bit, the packet number
and the index into the MSN table. A post writes an MSN entry with 16 bits of start slot and two
packet numbers of 24 bits; the doorbell has the tail in its low bits and the epoch at bit 24. -/
namespace GdaBnxtBookkeeping

open GdaBnxtSendRing (DeviceSq bnxtReIncrTail)
open Nat (mod_add_mod mod_eq_of_lt mod_lt)

structure Sq extends DeviceSq where
  id : UInt32
  psn : UInt32
  msn : UInt32
  msnTblSz : UInt32
  mtu : UInt64
  msntbl : ℕ → BitVec 64

def msnStartIdxMask : BitVec 64 := 0xFFFF000000000000#64
def msnNextPsnMask : BitVec 64 := 0xFFFFFF000000#64
def msnStartPsnMask : BitVec 64 := 0xFFFFFF#64

def bnxtReUpdateMsnTbl (stIdx npsn startPsn : UInt32) : BitVec 64 :=
  ((stIdx.toBitVec.setWidth 64 <<< 48) &&& msnStartIdxMask) |||
    ((npsn.toBitVec.setWidth 64 <<< 24) &&& msnNextPsnMask) |||
    (startPsn.toBitVec.setWidth 64 &&& msnStartPsnMask)

def pktCnt (mtu : UInt64) (msgLen : UInt32) : UInt32 :=
  if msgLen = 0 then 1
  else if msgLen.toUInt64 % mtu ≠ 0 then (msgLen.toUInt64 / mtu).toUInt32 + 1
  else (msgLen.toUInt64 / mtu).toUInt32

def bnxtReFillPsnsForMsntbl (sq : Sq) (msgLen : UInt32) : Sq :=
  let nextPsn := sq.psn + pktCnt sq.mtu msgLen
  { sq with
    psn := nextPsn
    msn := (sq.msn + 1) % sq.msnTblSz
    msntbl := Function.update sq.msntbl sq.msn.toNat
      (bnxtReUpdateMsnTbl sq.tail nextPsn sq.psn) }

def post (sq : Sq) (msgLen : UInt32) : Sq :=
  { bnxtReFillPsnsForMsntbl sq msgLen with
    toDeviceSq := bnxtReIncrTail (bnxtReFillPsnsForMsntbl sq msgLen).toDeviceSq 3 }

def bnxtRingDoorbell (sq : Sq) : BitVec 64 :=
  let epoch := (sq.flags &&& 1) <<< 24
  let keyLo := (sq.tail ||| epoch).toBitVec.setWidth 64
  let keyHi := ((sq.id &&& 0xFFFFF).toBitVec.setWidth 64) ||| (1#64 <<< 26)
  keyLo ||| (keyHi <<< 32)

def initial (depth msnTblSz id : UInt32) (mtu : UInt64) : Sq :=
  ⟨⟨depth, 0, 0⟩, id, 0, 0, msnTblSz, mtu, fun _ => 0⟩

def posted (sq : Sq) (lens : List UInt32) : Sq := lens.foldl post sq

def packets (mtu : UInt64) (len : UInt32) : ℕ :=
  if len.toNat = 0 then 1 else (len.toNat + mtu.toNat - 1) / mtu.toNat

def packetsBefore (mtu : UInt64) (lens : List UInt32) : ℕ := (lens.map (packets mtu)).sum

structure Counted (sq : Sq) (n : ℕ) : Prop where
  tail : sq.tail.toNat = 3 * n % sq.depth.toNat
  epoch : (sq.flags &&& 1).toNat = 3 * n / sq.depth.toNat % 2
  doorbell_slot : (bnxtRingDoorbell sq &&& 0xFFFFFF#64).toNat = 3 * n % sq.depth.toNat
  doorbell_epoch : (bnxtRingDoorbell sq >>> 24 &&& 1#64).toNat = 3 * n / sq.depth.toNat % 2

structure Recorded (sq : Sq) (lens : List UInt32) (len : UInt32) : Prop where
  start_slot : ((post sq len).msntbl (lens.length % sq.msnTblSz.toNat) >>> 48).toNat =
    3 * lens.length % sq.depth.toNat
  start_psn : ((post sq len).msntbl (lens.length % sq.msnTblSz.toNat) &&& 0xFFFFFF#64).toNat =
    packetsBefore sq.mtu lens % 2 ^ 24
  next_psn : ((post sq len).msntbl (lens.length % sq.msnTblSz.toNat) >>> 24 &&& 0xFFFFFF#64).toNat =
    packetsBefore sq.mtu (lens ++ [len]) % 2 ^ 24

section Fields

variable {stIdx npsn startPsn : UInt32}

theorem and_mask (x : BitVec 64) (k : ℕ) (hk : k < 64) :
    (x &&& BitVec.ofNat 64 (2 ^ k - 1)).toNat = x.toNat % 2 ^ k := by
  have hlt : 2 ^ k < 2 ^ 64 := Nat.pow_lt_pow_right (by decide) hk
  rw [BitVec.toNat_and, BitVec.toNat_ofNat, mod_eq_of_lt (by omega), Nat.and_two_pow_sub_one_eq_mod]

theorem toNat_word (x : UInt32) : (x.toBitVec.setWidth 64).toNat = x.toNat := by
  have := x.toNat_lt
  rw [BitVec.toNat_setWidth, UInt32.toNat_toBitVec, mod_eq_of_lt (by omega)]

theorem fields_apart (a b c : BitVec 64) :
    (a <<< 48 &&& msnStartIdxMask ||| b <<< 24 &&& msnNextPsnMask ||| c &&& msnStartPsnMask) &&&
      0xFFFFFF#64 = c &&& 0xFFFFFF#64 ∧
    (a <<< 48 &&& msnStartIdxMask ||| b <<< 24 &&& msnNextPsnMask ||| c &&& msnStartPsnMask) >>> 24
      &&& 0xFFFFFF#64 = b <<< 24 >>> 24 &&& 0xFFFFFF#64 ∧
    (a <<< 48 &&& msnStartIdxMask ||| b <<< 24 &&& msnNextPsnMask ||| c &&& msnStartPsnMask) >>> 48
      = a <<< 48 >>> 48 &&& 0xFFFF#64 := by
  simp only [msnStartIdxMask, msnNextPsnMask, msnStartPsnMask, BitVec.ushiftRight_or_distrib,
    BitVec.ushiftRight_and_distrib, BitVec.and_or_distrib_right, BitVec.and_assoc]
  simp

theorem start_psn_field :
    (bnxtReUpdateMsnTbl stIdx npsn startPsn &&& 0xFFFFFF#64).toNat = startPsn.toNat % 2 ^ 24 := by
  rw [bnxtReUpdateMsnTbl, (fields_apart _ _ _).1, ← toNat_word]
  exact and_mask _ 24 (by decide)

theorem next_psn_field : (bnxtReUpdateMsnTbl stIdx npsn startPsn >>> 24 &&& 0xFFFFFF#64).toNat =
      npsn.toNat % 2 ^ 24 := by
  rw [bnxtReUpdateMsnTbl, (fields_apart _ _ _).2.1, ← toNat_word]
  refine (and_mask _ 24 (by decide)).trans ?_
  rw [BitVec.toNat_ushiftRight, BitVec.toNat_shiftLeft, toNat_word, Nat.shiftLeft_eq,
    Nat.shiftRight_eq_div_pow]
  omega

theorem start_idx_field :
    (bnxtReUpdateMsnTbl stIdx npsn startPsn >>> 48).toNat = stIdx.toNat % 2 ^ 16 := by
  rw [bnxtReUpdateMsnTbl, (fields_apart _ _ _).2.2]
  refine (and_mask _ 16 (by decide)).trans ?_
  rw [BitVec.toNat_ushiftRight, BitVec.toNat_shiftLeft, toNat_word, Nat.shiftLeft_eq,
    Nat.shiftRight_eq_div_pow]
  omega

theorem doorbell_eq {sq : Sq} (h : sq.tail.toNat < 2 ^ 24) : ∃ k, (bnxtRingDoorbell sq).toNat =
    2 ^ 32 * k + (2 ^ 24 * (sq.flags &&& 1).toNat + sq.tail.toNat) := by
  have hepoch : (sq.flags &&& 1).toNat < 2 := by
    rw [UInt32.toNat_and]
    exact Nat.and_lt_two_pow _ (by decide : (1 : UInt32).toNat < 2 ^ 1)
  have hlow : (sq.tail ||| (sq.flags &&& 1) <<< 24).toNat =
      2 ^ 24 * (sq.flags &&& 1).toNat + sq.tail.toNat := by
    have hshift : ((sq.flags &&& 1) <<< 24).toNat = 2 ^ 24 * (sq.flags &&& 1).toNat := by
      rw [UInt32.toNat_shiftLeft, Nat.shiftLeft_eq]
      change (sq.flags &&& 1).toNat * 2 ^ 24 % 2 ^ 32 = _
      omega
    rw [UInt32.toNat_or, hshift, Nat.or_comm, Nat.two_pow_add_eq_or_of_lt h]
  have hhigh : ∀ x : BitVec 64, (x <<< 32).toNat = 2 ^ 32 * (x.toNat % 2 ^ 32) := fun x => by
    rw [BitVec.toNat_shiftLeft, Nat.shiftLeft_eq]
    omega
  refine ⟨(((sq.id &&& 0xFFFFF).toBitVec.setWidth 64) ||| (1#64 <<< 26)).toNat % 2 ^ 32, ?_⟩
  rw [bnxtRingDoorbell, BitVec.toNat_or, toNat_word, hhigh, Nat.or_comm,
    ← Nat.two_pow_add_eq_or_of_lt (UInt32.toNat_lt _), hlow]

end Fields

section Counters

variable {depth sz id : UInt32} {mtu : UInt64} {lens : List UInt32} {len : UInt32} {n : ℕ}

theorem posted_concat (sq : Sq) : posted sq (lens ++ [len]) = post (posted sq lens) len := by
  rw [posted, List.foldl_append]
  rfl

structure TailAt (sq : DeviceSq) (n : ℕ) : Prop where
  tail : sq.tail.toNat = 3 * n % sq.depth.toNat
  flags : sq.flags = if 3 * n / sq.depth.toNat % 2 = 0 then 0 else 1

theorem depth_incrTail (sq : DeviceSq) (cnt : UInt8) :
    (bnxtReIncrTail sq cnt).depth = sq.depth := by
  unfold bnxtReIncrTail
  dsimp only
  split <;> rfl

theorem TailAt.step {sq : DeviceSq} (h : TailAt sq n) (hpos : 0 < sq.depth.toNat)
    (htwo : sq.depth.toNat ≠ 2) (hbig : sq.depth.toNat + 3 ≤ 2 ^ 32) :
    TailAt (bnxtReIncrTail sq 3) (n + 1) := by
  have hlt := mod_lt (3 * n) hpos
  have hsum : (sq.tail + (3 : UInt8).toUInt32).toNat = 3 * n % sq.depth.toNat + 3 := by
    rw [UInt32.toNat_add, h.tail]
    exact mod_eq_of_lt (by change _ + 3 < _; omega)
  have hmod : 3 * (n + 1) % sq.depth.toNat = (3 * n % sq.depth.toNat + 3) % sq.depth.toNat := by
    rw [mul_add, mod_add_mod]
  have hdiv : 3 * (n + 1) / sq.depth.toNat =
      3 * n / sq.depth.toNat + (3 * n % sq.depth.toNat + 3) / sq.depth.toNat := by
    conv_lhs => rw [mul_add, ← Nat.div_add_mod (3 * n) sq.depth.toNat, add_assoc,
      Nat.mul_add_div hpos]
  by_cases hge : sq.depth.toNat ≤ 3 * n % sq.depth.toNat + 3
  · have hround : (3 * n % sq.depth.toNat + 3) / sq.depth.toNat % 2 = 1 := by
      by_cases hone : sq.depth.toNat = 1
      · rw [hone]
        simp [Nat.mod_one]
      · rw [Nat.div_eq_of_lt_le (k := 1) (by omega) (by omega)]
    have hif : sq.tail + (3 : UInt8).toUInt32 ≥ sq.depth := by
      rw [ge_iff_le, UInt32.le_iff_toNat_le, hsum]
      exact hge
    rw [bnxtReIncrTail, if_pos hif]
    constructor
    · dsimp only
      rw [UInt32.toNat_mod, hsum, hmod]
    · dsimp only
      rw [h.flags, hdiv, Nat.add_mod, hround]
      rcases Nat.mod_two_eq_zero_or_one (3 * n / sq.depth.toNat) with hq | hq <;> rw [hq] <;> rfl
  · have hif : ¬ sq.tail + (3 : UInt8).toUInt32 ≥ sq.depth := by
      rw [ge_iff_le, UInt32.le_iff_toNat_le, hsum]
      exact hge
    rw [bnxtReIncrTail, if_neg hif]
    constructor
    · dsimp only
      rw [hsum, hmod, mod_eq_of_lt (a := 3 * n % sq.depth.toNat + 3) (by omega)]
    · dsimp only
      rw [h.flags, hdiv, Nat.div_eq_of_lt (a := 3 * n % sq.depth.toNat + 3) (by omega), add_zero]

theorem packets_eq (hm : 0 < mtu.toNat) (len : UInt32) :
    (pktCnt mtu len).toNat = packets mtu len := by
  have hlt := len.toNat_lt
  have hsplit := Nat.div_add_mod len.toNat mtu.toNat
  have hrem := mod_lt len.toNat hm
  have hquot : (len.toUInt64 / mtu).toUInt32.toNat = len.toNat / mtu.toNat := by
    rw [UInt64.toNat_toUInt32, UInt64.toNat_div, UInt32.toNat_toUInt64]
    exact mod_eq_of_lt (lt_of_le_of_lt (Nat.div_le_self _ _) hlt)
  have hzero : len.toUInt64 % mtu = 0 ↔ len.toNat % mtu.toNat = 0 := by
    rw [← UInt64.toNat_inj, UInt64.toNat_mod, UInt32.toNat_toUInt64]
    rfl
  have hempty : len = 0 ↔ len.toNat = 0 := by
    rw [← UInt32.toNat_inj]
    rfl
  unfold pktCnt packets
  simp only [hempty, ne_eq, hzero]
  by_cases h0 : len.toNat = 0
  · rw [if_pos h0, if_pos h0]
    rfl
  · rw [if_neg h0, if_neg h0]
    by_cases hr : len.toNat % mtu.toNat = 0
    · rw [if_neg (not_not.mpr hr), hquot]
      refine (Nat.div_eq_of_lt_le ?_ ?_).symm
      · rw [mul_comm]
        omega
      · rw [add_mul, mul_comm]
        omega
    · have htwo : 2 ≤ mtu.toNat := by
        by_contra hone
        exact hr (by rw [show mtu.toNat = 1 by omega, Nat.mod_one])
      have hle : len.toNat / mtu.toNat ≤ len.toNat / 2 := Nat.div_le_div_left htwo (by decide)
      rw [if_pos hr, UInt32.toNat_add, hquot]
      refine (mod_eq_of_lt (by change _ + 1 < _; omega)).trans
        (Nat.div_eq_of_lt_le (k := len.toNat / mtu.toNat + 1) ?_ ?_).symm
      · rw [add_mul, mul_comm]
        omega
      · rw [add_mul, add_mul, mul_comm]
        omega

structure Kept (depth sz : UInt32) (mtu : UInt64) (sq : Sq) (lens : List UInt32) : Prop where
  depth_eq : sq.depth = depth
  size_eq : sq.msnTblSz = sz
  mtu_eq : sq.mtu = mtu
  msn : sq.msn.toNat = lens.length % sz.toNat
  psn : sq.psn.toNat = packetsBefore mtu lens % 2 ^ 32

theorem packetsBefore_concat :
    packetsBefore mtu (lens ++ [len]) = packetsBefore mtu lens + packets mtu len := by
  simp [packetsBefore]

theorem kept (hsz : 0 < sz.toNat) (hm : 0 < mtu.toNat) (lens : List UInt32) :
    Kept depth sz mtu (posted (initial depth sz id mtu) lens) lens := by
  induction lens using List.reverseRecOn with
  | nil => exact ⟨rfl, rfl, rfl, (Nat.zero_mod _).symm, rfl⟩
  | append_singleton lens len ih =>
    have hlt := mod_lt lens.length hsz
    have hszlt := sz.toNat_lt
    rw [posted_concat]
    refine ⟨(depth_incrTail _ 3).trans ih.depth_eq, ih.size_eq, ih.mtu_eq, ?_, ?_⟩
    · change (((posted (initial depth sz id mtu) lens).msn + 1) %
        (posted (initial depth sz id mtu) lens).msnTblSz).toNat = _
      rw [UInt32.toNat_mod, UInt32.toNat_add, ih.msn, ih.size_eq, List.length_append,
        mod_eq_of_lt (b := 2 ^ 32) (by change _ + 1 < _; omega)]
      exact mod_add_mod ..
    · change ((posted (initial depth sz id mtu) lens).psn +
        pktCnt (posted (initial depth sz id mtu) lens).mtu len).toNat = _
      rw [UInt32.toNat_add, ih.psn, ih.mtu_eq, packets_eq hm, packetsBefore_concat, mod_add_mod]

theorem tailAt (hpos : 0 < depth.toNat) (htwo : depth.toNat ≠ 2)
    (hbig : depth.toNat + 3 ≤ 2 ^ 32) (hsz : 0 < sz.toNat) (hm : 0 < mtu.toNat)
    (lens : List UInt32) :
    TailAt (posted (initial depth sz id mtu) lens).toDeviceSq lens.length := by
  induction lens using List.reverseRecOn with
  | nil => exact ⟨by simp [posted, initial], by simp [posted, initial]⟩
  | append_singleton lens len ih =>
    have hdepth : (posted (initial depth sz id mtu) lens).depth = depth :=
      (kept hsz hm lens).depth_eq
    rw [posted_concat, List.length_append]
    refine ih.step ?_ ?_ ?_ <;> rw [hdepth]
    · exact hpos
    · exact htwo
    · exact hbig

theorem tail_of_lt (hsz : 0 < sz.toNat) (hm : 0 < mtu.toNat) (lens : List UInt32)
    (hlt : 3 * lens.length < depth.toNat) :
    (posted (initial depth sz id mtu) lens).tail.toNat = 3 * lens.length := by
  induction lens using List.reverseRecOn with
  | nil => rfl
  | append_singleton lens len ih =>
    have hdepth : (posted (initial depth sz id mtu) lens).depth = depth :=
      (kept hsz hm lens).depth_eq
    have hbound := depth.toNat_lt
    rw [List.length_append, List.length_singleton] at hlt ⊢
    have hsum : ((posted (initial depth sz id mtu) lens).tail + (3 : UInt8).toUInt32).toNat =
        3 * (lens.length + 1) := by
      rw [UInt32.toNat_add, ih (by omega)]
      exact mod_eq_of_lt (by change _ + 3 < _; omega)
    rw [posted_concat]
    change (bnxtReIncrTail (posted (initial depth sz id mtu) lens).toDeviceSq 3).tail.toNat = _
    rw [bnxtReIncrTail, if_neg, hsum]
    rw [ge_iff_le, UInt32.le_iff_toNat_le, hsum, hdepth]
    omega

theorem recorded_start {sq : Sq} (hk : Kept depth sz mtu sq lens) (len : UInt32) :
    (post sq len).msntbl (lens.length % sz.toNat) =
      bnxtReUpdateMsnTbl sq.tail (sq.psn + pktCnt mtu len) sq.psn := by
  rw [← hk.msn, ← hk.mtu_eq]
  exact Function.update_self ..

theorem tail_small (hpos : 0 < depth.toNat) (hfit : depth.toNat ≤ 65536 ∨ depth.toNat = 65538)
    (n : ℕ) : 3 * n % depth.toNat < 2 ^ 16 := by
  have hlt := mod_lt (3 * n) hpos
  rcases hfit with h | h
  · omega
  · rw [h]
    omega

end Counters

end GdaBnxtBookkeeping
