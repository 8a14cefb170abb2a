import Rocshmem.MachineInts

/-! The transfers that `MPITransport` issues for the byte count of a put or get and for the blocks
of an alltoall or fcollect. Counts and offsets are computed in `int`, which wraps. -/
namespace RoTransferSizes

open MachineInts

/-- One `Rput` or `Rget`: the rank in the team, the byte offsets from the buffers of the call and
the count of elements. -/
structure Transfer where
  rank : ℤ
  srcOffset : ℤ
  dstOffset : ℤ
  count : ℤ

-- the `size_t` of the queue element is passed as an `int`
def transferMem (pe size : ℕ) : Transfer := ⟨pe, 0, 0, toInt size⟩

def putMem : ℕ → ℕ → Transfer := transferMem

def getMem : ℕ → ℕ → Transfer := transferMem

structure Call where
  peSize : ℕ
  typeSize : ℕ
  size : ℕ
  pos : 0 < peSize
  int : peSize < 2 ^ 31

namespace Call

variable (c : Call)

def target (rank i : ℕ) : ℤ := (toInt (rank + i)).tmod c.peSize

def offset (rank : ℤ) : ℤ := toInt (toInt (rank * c.typeSize) * toInt c.size)

def alltoall (rank i : ℕ) : Transfer :=
  ⟨c.target rank i, c.offset (c.target rank i), c.offset rank, toInt c.size⟩

def fcollect (rank i : ℕ) : Transfer := ⟨c.target rank i, 0, c.offset rank, toInt c.size⟩

def blockStart (rank : ℕ) : ℕ := rank * c.typeSize * c.size

structure Exact : Prop where
  alltoall : ∀ rank < c.peSize, ∀ i < c.peSize, c.alltoall rank i =
    ⟨((rank + i) % c.peSize : ℕ), c.blockStart ((rank + i) % c.peSize), c.blockStart rank, c.size⟩
  fcollect : ∀ rank < c.peSize, ∀ i < c.peSize, c.fcollect rank i =
    ⟨((rank + i) % c.peSize : ℕ), 0, c.blockStart rank, c.size⟩

def Fits : Prop :=
  c.size < 2 ^ 31 ∧ 2 * (c.peSize - 1) < 2 ^ 31 ∧ c.blockStart (c.peSize - 1) < 2 ^ 31

end Call

theorem toInt_eq_iff {n : ℕ} : toInt n = n ↔ n < 2 ^ 31 := by
  constructor
  · intro h
    have := Int.bmod_lt (x := n) (m := 2 ^ 32) (by decide)
    rw [← toInt, h] at this
    omega
  · exact toInt_natCast

variable {c : Call} {rank i : ℕ}

theorem transferMem_iff {pe n : ℕ} : transferMem pe n = ⟨pe, 0, 0, n⟩ ↔ n < 2 ^ 31 := by
  rw [transferMem, Transfer.mk.injEq]
  simp only [true_and, toInt_eq_iff]

theorem offset_eq (hsize : c.size < 2 ^ 31) (rank : ℕ) :
    c.offset rank = toInt (c.blockStart rank) := by
  rw [Call.offset, toInt_natCast hsize, toInt, toInt, toInt, Int.bmod_mul_bmod, Call.blockStart]
  push_cast
  rfl

theorem target_eq (hi : rank + i < 2 ^ 31) : c.target rank i = ((rank + i) % c.peSize : ℕ) := by
  have hsum : toInt (rank + i) = (rank + i : ℕ) := by
    rw [← toInt_natCast hi]
    push_cast
    rfl
  rw [Call.target, hsum, Int.tmod_eq_emod_of_nonneg (by omega), Int.natCast_mod]

theorem exact_of_fits (h : c.Fits) : c.Exact := by
  obtain ⟨hsize, hranks, hlast⟩ := h
  have hstart : ∀ r < c.peSize, c.offset r = c.blockStart r := fun r hr => by
    rw [offset_eq hsize, toInt_natCast]
    refine lt_of_le_of_lt ?_ hlast
    exact Nat.mul_le_mul_right _ (Nat.mul_le_mul_right _ (Nat.le_sub_one_of_lt hr))
  have hcount := toInt_natCast hsize
  constructor <;> intro rank hr i hi
  · rw [Call.alltoall, target_eq (by omega), hstart _ (Nat.mod_lt _ c.pos), hstart _ hr, hcount]
  · rw [Call.fcollect, target_eq (by omega), hstart _ hr, hcount]

theorem fits_of_exact (h : c.Exact) : c.Fits := by
  have hp := c.pos
  have hlast : c.peSize - 1 < c.peSize := Nat.sub_lt hp Nat.one_pos
  have heq := h.fcollect _ hlast _ hlast
  rw [Call.fcollect, Transfer.mk.injEq] at heq
  obtain ⟨hrank, -, hoff, hcount⟩ := heq
  have hsize := toInt_eq_iff.mp hcount
  rw [offset_eq hsize] at hoff
  refine ⟨hsize, ?_, toInt_eq_iff.mp hoff⟩
  -- past `int` the sum of two ranks is negative, and so is its remainder
  by_contra hge
  have hint := c.int
  have hsum : toInt ((c.peSize - 1 : ℕ) + (c.peSize - 1 : ℕ)) =
      -(2 ^ 32 - 2 * (c.peSize - 1 : ℕ)) := by
    rw [toInt, Int.bmod_def]
    omega
  have hmod : (c.peSize - 1 + (c.peSize - 1)) % c.peSize = c.peSize - 2 := by
    rw [show c.peSize - 1 + (c.peSize - 1) = c.peSize - 2 + c.peSize by omega,
      Nat.add_mod_right, Nat.mod_eq_of_lt (by omega)]
  rw [Call.target, hsum, Int.neg_tmod, hmod] at hrank
  have := Int.tmod_nonneg c.peSize (by omega : (0 : ℤ) ≤ 2 ^ 32 - 2 * (c.peSize - 1 : ℕ))
  omega

/-- Transfers are the requested ones exactly when counts, offsets and sums of ranks are in the
range of `int`. -/
theorem transfers_exact_iff (pe bytes : ℕ) (c : Call) :
    (putMem pe bytes = ⟨pe, 0, 0, bytes⟩ ↔ bytes < 2 ^ 31) ∧
      (getMem pe bytes = ⟨pe, 0, 0, bytes⟩ ↔ bytes < 2 ^ 31) ∧ (c.Exact ↔ c.Fits) :=
  ⟨transferMem_iff, transferMem_iff, fits_of_exact, exact_of_fits⟩

theorem small_transfers_exact :
    putMem 1 4096 = ⟨1, 0, 0, 4096⟩ ∧ (⟨4, 8, 64, by decide, by decide⟩ : Call).Exact := by
  have h := transfers_exact_iff 1 4096 ⟨4, 8, 64, by decide, by decide⟩
  exact ⟨h.1.mpr (by decide), h.2.2.mpr (by unfold Call.Fits; decide)⟩

/-- A put of 4 GiB moves nothing, and the fifth block of 64 Mi doubles of an alltoall is read
before the buffer. -/
theorem large_transfers_wrong : (putMem 1 (2 ^ 32)).count = 0 ∧
    ((⟨8, 8, 2 ^ 26, by decide, by decide⟩ : Call).alltoall 0 4).srcOffset = -2 ^ 31 := by
  decide

end RoTransferSizes
