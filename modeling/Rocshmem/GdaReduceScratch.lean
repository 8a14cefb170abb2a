import Rocshmem.CentralDirectBarrier
import Rocshmem.MachineInts

/-! Which words of `pWrk` and `reduce_pSync` the GDA allreduce touches: `reduce_wg` and
`reduce_wave` of the library and `reduce_das`, as far as they run the direct or the ring
algorithm. The admission uses sizes relative to the team in `int` arithmetic; the direct
algorithm indexes both arrays by world PE and clears up to the world size. -/
namespace GdaReduceScratch

open CentralDirectBarrier (Team)
open List MachineInts

def reduceMinWrkdataSize : ℤ := 1048576

def reduceSyncSize : ℤ := 256

inductive Form where
  | wg
  | wave
  | das
  deriving DecidableEq

/-- A call on a team inside the world. `ipcShmSize` and `ipcStride` describe the nodes and
decide whether `reduce_das` takes the proxy algorithm instead. -/
structure Call where
  form : Form
  team : Team
  numPes : ℕ
  nreduce : ℤ
  sizeofT : ℤ
  ipcShmSize : ℕ
  ipcStride : ℕ
  inside : team.member (team.nPes - 1) < numPes
  pes_int : numPes < 2 ^ 31
  nreduce_int : -2 ^ 31 ≤ nreduce ∧ nreduce < 2 ^ 31
  sizeof_mem : sizeofT = 2 ∨ sizeofT = 4 ∨ sizeofT = 8

inductive Access where
  | wrk (first count : ℤ)
  | sync (first count : ℤ)
  deriving DecidableEq

def Access.Inside (capacity : ℤ) : Access → Prop
  | wrk first count => count ≤ 0 ∨ 0 ≤ first ∧ first + count ≤ capacity
  | sync first count => count ≤ 0 ∨ 0 ≤ first ∧ first + count ≤ reduceSyncSize

instance (capacity : ℤ) : (a : Access) → Decidable (a.Inside capacity)
  | .wrk _ _ | .sync _ _ => inferInstanceAs (Decidable (_ ∨ _))

inductive Part where
  | direct (nelems : ℤ)
  | ring (nSeg chunkSize : ℤ)
  deriving DecidableEq

def Part.elems (n : ℤ) : Part → ℤ
  | .direct nelems => nelems
  | .ring nSeg chunkSize => nSeg * (chunkSize * n)

namespace Call

variable (c : Call)

def capacity : ℤ := reduceMinWrkdataSize * 8 / c.sizeofT

def putCount (nelems : ℤ) : ℤ := toSizeT nelems * c.sizeofT % 2 ^ 64 / c.sizeofT

def directAccesses (nelems : ℤ) (rank : ℕ) : List Access :=
  let pe := c.team.member rank
  let others := ((range c.team.nPes).map c.team.member).filter (· ≠ pe)
  others.flatMap (fun _ => [Access.wrk (toInt (pe * nelems)) (c.putCount nelems), .sync pe 1]) ++
    (others.flatMap (fun i : ℕ => [Access.sync i 1, .wrk (toInt (i * nelems)) nelems]) ++
      [Access.sync 0 c.numPes])

def segmentAccesses (chunkSize : ℤ) (rank : ℕ) : List Access :=
  let n := c.team.nPes
  (range (n - 1)).flatMap (fun iter =>
    [Access.wrk (((rank + 1 + 2 * n - iter) % n : ℕ) * chunkSize) chunkSize, .sync iter 1,
      .wrk (((rank + 2 * n - iter) % n : ℕ) * chunkSize) chunkSize]) ++
  (range' (n - 1) (n - 1)).map fun iter : ℕ => Access.sync iter 1

def ringAccesses (nSeg chunkSize : ℤ) (rank : ℕ) : List Access :=
  (range nSeg.toNat).flatMap (fun _ => c.segmentAccesses chunkSize rank) ++
    match c.form with
    | .das => []
    | .wg | .wave => [Access.sync 0 (toInt (2 * c.numPes - 2))]

def partAccesses : Part → ℕ → List Access
  | .direct nelems => c.directAccesses nelems
  | .ring nSeg chunkSize => c.ringAccesses nSeg chunkSize

def useProxyAllreduce : Prop :=
  c.form = .das ∧ 256 * 1024 ≤ toSizeT (toSizeT c.nreduce * c.sizeofT) ∧ c.team.stride = 1 ∧
  1 < c.ipcShmSize ∧ c.ipcStride = 1 ∧ c.team.peStart % c.ipcShmSize = 0 ∧
  c.team.nPes % c.ipcShmSize = 0 ∧ c.ipcShmSize < c.team.nPes

instance : Decidable c.useProxyAllreduce := inferInstanceAs (Decidable (_ ∧ _))

def providedWrk : ℤ :=
  match c.form with
  | .das => reduceMinWrkdataSize
  | .wg | .wave => max (toSizeT (c.nreduce.tdiv 2 + 1)) reduceMinWrkdataSize

def useDirect : Prop :=
  toSizeT (toInt (c.team.nPes * c.nreduce)) ≤ c.providedWrk ∧ c.team.nPes ≤ reduceSyncSize ∧
    (c.form = .das → c.nreduce ≤ 8192)

instance : Decidable c.useDirect := inferInstanceAs (Decidable (_ ∧ _))

def ringFits : Prop := toSizeT (toInt (2 * c.team.nPes)) ≤ reduceSyncSize

instance : Decidable c.ringFits := inferInstanceAs (Decidable (_ ≤ _))

def chunkSize : ℤ := reduceMinWrkdataSize / c.team.nPes

def segSize : ℤ := c.chunkSize * c.team.nPes

def nSeg : ℤ := c.nreduce.tdiv c.segSize

def nSegUp : ℤ := (toInt (c.nreduce - 1)).tdiv c.segSize + 1

def pCount : ℤ := c.nreduce - c.nSeg * c.segSize

def pChunk : ℤ := c.pCount.tdiv c.team.nPes

def ringParts : List Part :=
  (if 0 < c.nSeg then [Part.ring c.nSeg c.chunkSize] else []) ++
  if c.nSeg < c.nSegUp then
    (if 0 < c.pChunk then [Part.ring 1 c.pChunk] else []) ++
    if c.pChunk * c.team.nPes < c.pCount then
      [Part.direct (c.pCount - c.pChunk * c.team.nPes)]
    else []
  else []

def parts : List Part :=
  if c.useProxyAllreduce then []
  else if c.useDirect then [.direct c.nreduce]
  else if c.ringFits then c.ringParts
  else []

def accesses (rank : ℕ) : List Access := c.parts.flatMap fun part => c.partAccesses part rank

def Inside : Prop := ∀ rank < c.team.nPes, ∀ a ∈ c.accesses rank, a.Inside c.capacity

def lastPe : ℕ := c.team.member (c.team.nPes - 1)

def Fits : Prop :=
  if c.useProxyAllreduce then True
  else if c.useDirect then c.numPes ≤ reduceSyncSize ∧
    (1 < c.team.nPes → 0 ≤ c.nreduce ∧ (c.lastPe + 1) * c.nreduce ≤ c.capacity)
  else if c.ringFits then
    (c.form ≠ .das → c.team.nPes ≤ c.nreduce → toInt (2 * c.numPes - 2) ≤ reduceSyncSize) ∧
    (0 < c.nreduce → ¬ (c.team.nPes : ℤ) ∣ c.nreduce → c.numPes ≤ reduceSyncSize)
  else True

variable {c} {nelems k : ℤ} {rank : ℕ}

theorem ediv_pos_iff {a b : ℤ} (hb : 0 < b) : 0 < a / b ↔ b ≤ a := by
  have hone := Int.le_ediv_iff_mul_le (a := 1) (b := a) hb
  omega

theorem tdiv_nonpos {a b : ℤ} (ha : a ≤ 0) (hb : 0 ≤ b) : a.tdiv b ≤ 0 := by
  have hneg := Int.tdiv_nonneg (Int.neg_nonneg_of_nonpos ha) hb
  rw [Int.neg_tdiv] at hneg
  omega

theorem sub_tdiv_mul_nonpos {a b : ℤ} (ha : a ≤ 0) : a - a.tdiv b * b ≤ 0 := by
  have hneg := Int.tmod_nonneg b (Int.neg_nonneg_of_nonpos ha)
  rw [Int.neg_tmod, Int.tmod_def, Int.mul_comm] at hneg
  omega

theorem capacity_eq : c.capacity = 4194304 ∧ c.sizeofT = 2 ∨ c.capacity = 2097152 ∧ c.sizeofT = 4 ∨
    c.capacity = 1048576 ∧ c.sizeofT = 8 := by
  unfold capacity reduceMinWrkdataSize
  rcases c.sizeof_mem with h | h | h <;> rw [h] <;> decide

theorem capacity_bounds : 1048576 ≤ c.capacity ∧ c.capacity ≤ 4194304 := by
  have h := capacity_eq (c := c)
  omega

theorem putCount_of_nonneg (hlo : 0 ≤ nelems) (hhi : nelems < 2 ^ 31) :
    c.putCount nelems = nelems := by
  unfold putCount toSizeT
  rcases c.sizeof_mem with h | h | h <;> rw [h] <;> omega

theorem capacity_lt_putCount (hlo : -2 ^ 31 ≤ nelems) (hhi : nelems < 0) :
    c.capacity < c.putCount nelems := by
  have hcap := capacity_bounds (c := c)
  unfold putCount toSizeT
  rcases c.sizeof_mem with h | h | h <;> rw [h] <;> omega

theorem member_le {i j : ℕ} (h : i ≤ j) : c.team.member i ≤ c.team.member j :=
  Nat.add_le_add_left (Nat.mul_le_mul_left _ h) _

theorem member_le_last (h : rank < c.team.nPes) : c.team.member rank ≤ c.lastPe :=
  member_le (by omega)

theorem member_lt_last (h : 1 < c.team.nPes) : c.team.member 0 < c.lastPe := by
  have hpos := Nat.mul_pos c.team.stride_pos (Nat.sub_pos_of_lt h)
  unfold lastPe Team.member
  omega

theorem mem_directAccesses {a : Access} : a ∈ c.directAccesses nelems rank ↔
    (∃ j < c.team.nPes, c.team.member j ≠ c.team.member rank ∧
      (a = .wrk (toInt (c.team.member rank * nelems)) (c.putCount nelems) ∨
        a = .sync (c.team.member rank) 1 ∨ a = .sync (c.team.member j) 1 ∨
        a = .wrk (toInt (c.team.member j * nelems)) nelems)) ∨ a = .sync 0 c.numPes := by
  simp only [directAccesses, mem_append, mem_flatMap, mem_filter, mem_map,
    mem_range, mem_cons, not_mem_nil, or_false, decide_eq_true_eq]
  grind

theorem block_inside (hlo : 0 ≤ nelems)
    (hcap : (c.lastPe + 1) * nelems ≤ c.capacity) (hr : rank < c.team.nPes) :
    0 ≤ toInt (c.team.member rank * nelems) ∧
      toInt (c.team.member rank * nelems) + nelems ≤ c.capacity := by
  have hbound := capacity_bounds (c := c)
  have hle : (c.team.member rank : ℤ) ≤ c.lastPe := by exact_mod_cast member_le_last hr
  have hmul : (c.team.member rank : ℤ) * nelems ≤ c.lastPe * nelems :=
    Int.mul_le_mul_of_nonneg_right hle hlo
  have hnonneg : 0 ≤ (c.team.member rank : ℤ) * nelems := Int.mul_nonneg (by omega) hlo
  have hsucc : (c.lastPe + 1) * nelems = c.lastPe * nelems + nelems := by rw [Int.add_mul, one_mul]
  rw [toInt_of_small (by omega) (by omega)]
  omega

theorem direct_inside_iff (hlo : -2 ^ 31 ≤ nelems) (hhi : nelems < 2 ^ 31) :
    (∀ rank < c.team.nPes, ∀ a ∈ c.directAccesses nelems rank, a.Inside c.capacity) ↔
      c.numPes ≤ reduceSyncSize ∧
        (1 < c.team.nPes → 0 ≤ nelems ∧ (c.lastPe + 1) * nelems ≤ c.capacity) := by
  have hbound := capacity_bounds (c := c)
  have hlast := c.inside
  constructor
  · intro h
    have hpes : (c.numPes : ℤ) ≤ reduceSyncSize := by
      have hreset := h 0 c.team.pes_pos _ (mem_directAccesses.mpr (.inr rfl))
      simp only [Access.Inside] at hreset
      omega
    refine ⟨hpes, fun hn => ?_⟩
    -- the put of the last member to the first one
    have hput := h (c.team.nPes - 1) (by omega) _ (mem_directAccesses.mpr
      (.inl ⟨0, c.team.pes_pos, (member_lt_last hn).ne, .inl rfl⟩))
    simp only [Access.Inside] at hput
    have hnonneg : 0 ≤ nelems := by
      by_contra hneg
      have hbig := capacity_lt_putCount (c := c) hlo (by omega)
      omega
    rw [putCount_of_nonneg hnonneg hhi] at hput
    change nelems ≤ 0 ∨ 0 ≤ toInt (c.lastPe * nelems) ∧
      toInt (c.lastPe * nelems) + nelems ≤ c.capacity at hput
    refine ⟨hnonneg, ?_⟩
    rcases hput with hzero | ⟨hfirst, hend⟩
    · obtain rfl : nelems = 0 := by omega
      omega
    · have hpe : (c.lastPe : ℤ) ≤ 255 := by
        have hlt : c.lastPe < c.numPes := hlast
        unfold reduceSyncSize at hpes
        omega
      have hmul : (c.lastPe : ℤ) * nelems ≤ 255 * nelems :=
        Int.mul_le_mul_of_nonneg_right hpe hnonneg
      have hpos : 0 ≤ (c.lastPe : ℤ) * nelems := Int.mul_nonneg (by omega) hnonneg
      rw [toInt_of_small (by omega) (by omega)] at hend
      rw [Int.add_mul, one_mul]
      exact hend
  · rintro ⟨hpes, hblocks⟩ rank hr a ha
    have hpe : ∀ j < c.team.nPes, (Access.sync (c.team.member j) 1).Inside c.capacity := by
      grind [Access.Inside, lastPe, member_le_last]
    rcases mem_directAccesses.mp ha with ⟨j, hj, hne, h⟩ | rfl
    · grind [Access.Inside, Team.member, reduceSyncSize, putCount_of_nonneg, block_inside]
    · exact .inr ⟨by omega, by omega⟩

theorem mem_segmentAccesses {a : Access} (h : a ∈ c.segmentAccesses k rank) :
    (∃ b < c.team.nPes, a = .wrk ((b : ℕ) * k) k) ∨
      ∃ iter < 2 * c.team.nPes - 2, a = .sync (iter : ℕ) 1 := by
  have hpos := c.team.pes_pos
  simp only [segmentAccesses, mem_append, mem_flatMap, mem_map, mem_range,
    mem_range'_1, mem_cons, not_mem_nil, or_false] at h
  rcases h with ⟨iter, hiter, rfl | rfl | rfl⟩ | ⟨iter, hiter, rfl⟩
  · exact .inl ⟨_, Nat.mod_lt _ hpos, rfl⟩
  · exact .inr ⟨iter, by omega, rfl⟩
  · exact .inl ⟨_, Nat.mod_lt _ hpos, rfl⟩
  · exact .inr ⟨iter, by omega, rfl⟩

theorem segment_inside (hn : c.team.nPes ≤ 128) (hk : 0 < k)
    (hseg : k * c.team.nPes ≤ reduceMinWrkdataSize) {a : Access}
    (ha : a ∈ c.segmentAccesses k rank) : a.Inside c.capacity := by
  have hbound := capacity_bounds (c := c)
  unfold reduceMinWrkdataSize at hseg
  rcases mem_segmentAccesses ha with ⟨b, hb, rfl⟩ | ⟨iter, hiter, rfl⟩
  · have hmul : ((b : ℤ) + 1) * k ≤ c.team.nPes * k :=
      Int.mul_le_mul_of_nonneg_right (by omega) (by omega)
    have hfirst : 0 ≤ (b : ℤ) * k := Int.mul_nonneg (by omega) (by omega)
    rw [Int.add_mul, one_mul, Int.mul_comm (c.team.nPes : ℤ)] at hmul
    exact .inr ⟨hfirst, by omega⟩
  · unfold Access.Inside reduceSyncSize
    omega

theorem ring_inside_iff (hn : c.team.nPes ≤ 128) (hk : 0 < k)
    (hseg : k * c.team.nPes ≤ reduceMinWrkdataSize) (nSeg : ℤ) :
    (∀ rank < c.team.nPes, ∀ a ∈ c.ringAccesses nSeg k rank, a.Inside c.capacity) ↔
      (c.form ≠ .das → toInt (2 * c.numPes - 2) ≤ reduceSyncSize) := by
  constructor
  · intro h hform
    have hreset := h 0 c.team.pes_pos (.sync 0 (toInt (2 * c.numPes - 2))) (by
      rw [ringAccesses, mem_append]
      right
      cases hf : c.form with
      | das => exact absurd hf hform
      | wg | wave => exact mem_singleton.mpr rfl)
    simp only [Access.Inside, reduceSyncSize] at hreset ⊢
    omega
  grind [Access.Inside, ringAccesses, segment_inside]

theorem ringFits_iff : c.ringFits ↔ c.team.nPes ≤ 128 := by
  have hlt : c.team.nPes ≤ c.numPes := by
    have hle : c.team.nPes - 1 ≤ c.team.stride * (c.team.nPes - 1) :=
      Nat.le_mul_of_pos_left _ c.team.stride_pos
    have hinside := c.inside
    unfold Team.member at hinside
    omega
  have hint := c.pes_int
  unfold ringFits toSizeT toInt reduceSyncSize
  rw [Int.bmod_def]
  split <;> omega

section Ring

variable (hn : c.team.nPes ≤ 128)
include hn

theorem chunkSize_pos : 0 < c.chunkSize := by
  have hpos := c.team.pes_pos
  have hdiv : (1 : ℤ) ≤ reduceMinWrkdataSize / c.team.nPes := by
    rw [Int.le_ediv_iff_mul_le (by omega)]
    unfold reduceMinWrkdataSize
    omega
  exact hdiv

omit hn in
theorem segSize_le : c.segSize ≤ reduceMinWrkdataSize :=
  Int.ediv_mul_le _ (by have hpos := c.team.pes_pos; omega)

theorem le_segSize : (c.team.nPes : ℤ) ≤ c.segSize :=
  le_mul_of_one_le_left (by omega) (chunkSize_pos hn)

omit hn in
theorem dvd_segSize : (c.team.nPes : ℤ) ∣ c.segSize := Int.dvd_mul_left _ _

theorem ringParts_of_nonpos (h : c.nreduce ≤ 0) : c.ringParts = [] := by
  have hseg := le_segSize hn
  have hpos := c.team.pes_pos
  have hnSeg : ¬ 0 < c.nSeg := (tdiv_nonpos h (by omega)).not_gt
  have hp : c.pCount ≤ 0 := sub_tdiv_mul_nonpos h
  have hchunk : ¬ 0 < c.pChunk := (tdiv_nonpos hp (by omega)).not_gt
  have hrest : ¬ c.pChunk * c.team.nPes < c.pCount := by
    have hle : c.pCount - c.pChunk * c.team.nPes ≤ 0 := sub_tdiv_mul_nonpos hp
    omega
  simp only [ringParts, if_neg hnSeg, if_neg hchunk, if_neg hrest, append_nil, ite_self]

variable (h : 0 < c.nreduce)
include h

omit hn in
theorem nSeg_eq : c.nSeg = c.nreduce / c.segSize := Int.tdiv_eq_ediv_of_nonneg (by omega)

omit hn in
theorem pCount_eq : c.pCount = c.nreduce % c.segSize := by
  rw [pCount, nSeg_eq h, Int.mul_comm, Int.emod_def]

theorem pCount_bounds : 0 ≤ c.pCount ∧ c.pCount < c.segSize := by
  have hseg := le_segSize hn
  have hpos := c.team.pes_pos
  rw [pCount_eq h]
  exact ⟨Int.emod_nonneg _ (by omega), Int.emod_lt_of_pos _ (by omega)⟩

theorem pChunk_eq : c.pChunk = c.pCount / c.team.nPes :=
  Int.tdiv_eq_ediv_of_nonneg (pCount_bounds hn h).1

theorem rest_eq : c.pCount - c.pChunk * c.team.nPes = c.nreduce % c.team.nPes := by
  rw [pChunk_eq hn h, Int.mul_comm, ← Int.emod_def, pCount_eq h, Int.emod_emod_of_dvd _ dvd_segSize]

theorem nSeg_lt_nSegUp (hp : 0 < c.pCount) : c.nSeg < c.nSegUp := by
  have hseg := le_segSize hn
  have hpos := c.team.pes_pos
  have hint := c.nreduce_int
  have hle : c.nSeg ≤ (c.nreduce - 1) / c.segSize := by
    rw [Int.le_ediv_iff_mul_le (by omega)]
    unfold pCount at hp
    omega
  rw [nSegUp, toInt_of_small (by omega) (by omega), Int.tdiv_eq_ediv_of_nonneg (by omega)]
  omega

theorem ring_part_iff : 0 < c.nSeg ∨ 0 < c.pChunk ↔ c.team.nPes ≤ c.nreduce := by
  have hseg := le_segSize hn
  have hpos := c.team.pes_pos
  have hnSeg : 0 < c.nSeg ↔ c.segSize ≤ c.nreduce := by
    rw [nSeg_eq h]
    exact ediv_pos_iff (by omega)
  have hchunk : 0 < c.pChunk ↔ c.team.nPes ≤ c.pCount := by
    rw [pChunk_eq hn h]
    exact ediv_pos_iff (by omega)
  by_cases hfull : c.segSize ≤ c.nreduce
  · exact iff_of_true (.inl (hnSeg.mpr hfull)) (by omega)
  · have hp : c.pCount = c.nreduce := by
      rw [pCount_eq h, Int.emod_eq_of_lt (by omega) (by omega)]
    rw [hnSeg, hchunk, hp, or_iff_right hfull]

end Ring

section Decomposition

def ringCalls (c : Call) : List (ℤ × Part) :=
  (if 0 < c.nSeg then [(0, Part.ring c.nSeg c.chunkSize)] else []) ++
  if c.nSeg < c.nSegUp then
    (if 0 < c.pChunk then [(c.nSeg * c.segSize, Part.ring 1 c.pChunk)] else []) ++
    if c.pChunk * c.team.nPes < c.pCount then
      [(c.nSeg * c.segSize + c.pChunk * c.team.nPes,
        Part.direct (c.pCount - c.pChunk * c.team.nPes))]
    else []
  else []

theorem ringCalls_parts (c : Call) : c.ringCalls.map Prod.snd = c.ringParts := by
  unfold ringCalls ringParts
  split_ifs <;> rfl

theorem mem_ringCalls (hn : c.team.nPes ≤ 128) (h : 0 < c.nreduce) {r : ℤ × Part} :
    r ∈ c.ringCalls ↔ (0 < c.nSeg ∧ r = (0, .ring c.nSeg c.chunkSize)) ∨
      (0 < c.pChunk ∧ r = (c.nSeg * c.segSize, .ring 1 c.pChunk)) ∨ (0 < c.nreduce % c.team.nPes ∧
        r = (c.nreduce - c.nreduce % c.team.nPes, .direct (c.nreduce % c.team.nPes))) := by
  have hrest := rest_eq hn h
  have hstart : c.nSeg * c.segSize + c.pChunk * c.team.nPes =
      c.nreduce - c.nreduce % c.team.nPes := by
    unfold pCount at hrest
    omega
  have hlt : c.pChunk * c.team.nPes < c.pCount ↔ 0 < c.nreduce % c.team.nPes := by omega
  rw [ringCalls, hrest, hstart]
  by_cases hp : 0 < c.pCount
  · rw [if_pos (nSeg_lt_nSegUp hn h hp)]
    simp only [mem_append, mem_ite_nil_right, mem_singleton, hlt]
  · have hzero : c.pCount = 0 := le_antisymm (by omega) (pCount_bounds hn h).1
    have hchunk : c.pChunk = 0 := by rw [pChunk_eq hn h, hzero, Int.zero_ediv]
    rw [hzero, hchunk, Int.zero_mul, Int.sub_zero] at hrest
    simp [hzero, hchunk, ← hrest]

theorem mem_ringParts (hn : c.team.nPes ≤ 128) (h : 0 < c.nreduce) {p : Part} : p ∈ c.ringParts ↔
    (0 < c.nSeg ∧ p = .ring c.nSeg c.chunkSize) ∨ (0 < c.pChunk ∧ p = .ring 1 c.pChunk) ∨
      (0 < c.nreduce % c.team.nPes ∧ p = .direct (c.nreduce % c.team.nPes)) := by
  rw [← ringCalls_parts, mem_map]
  simp only [mem_ringCalls hn h]
  constructor
  · rintro ⟨r, ⟨hp, rfl⟩ | ⟨hp, rfl⟩ | ⟨hp, rfl⟩, rfl⟩ <;> simp [hp]
  · rintro (⟨hp, rfl⟩ | ⟨hp, rfl⟩ | ⟨hp, rfl⟩) <;> simp [hp]

end Decomposition

def PartInside (c : Call) (part : Part) : Prop :=
  ∀ rank < c.team.nPes, ∀ a ∈ c.partAccesses part rank, a.Inside c.capacity

theorem inside_iff_parts : c.Inside ↔ ∀ part ∈ c.parts, c.PartInside part := by
  simp only [Inside, accesses, mem_flatMap]
  constructor
  · exact fun h part hpart rank hr a ha => h rank hr a ⟨part, hpart, ha⟩
  · rintro h rank hr a ⟨part, hpart, ha⟩
    exact h part hpart rank hr a ha

theorem rest_inside_iff (hn : c.team.nPes ≤ 128) :
    c.PartInside (.direct (c.nreduce % c.team.nPes)) ↔ c.numPes ≤ reduceSyncSize := by
  have hpos := c.team.pes_pos
  have hbound := capacity_bounds (c := c)
  have hlo : 0 ≤ c.nreduce % c.team.nPes := Int.emod_nonneg _ (by omega)
  have hhi : c.nreduce % c.team.nPes < c.team.nPes := Int.emod_lt_of_pos _ (by omega)
  refine (direct_inside_iff (by omega) (by omega)).trans (and_iff_left_of_imp fun hpes _ => ⟨hlo, ?_⟩)
  have hlt : c.lastPe < c.numPes := c.inside
  unfold reduceSyncSize at hpes
  calc ((c.lastPe : ℤ) + 1) * (c.nreduce % c.team.nPes)
      ≤ 256 * (c.nreduce % c.team.nPes) := Int.mul_le_mul_of_nonneg_right (by omega) hlo
    _ ≤ 256 * 128 := by omega
    _ ≤ c.capacity := by omega

theorem ringParts_inside_iff (hn : c.team.nPes ≤ 128) : (∀ part ∈ c.ringParts, c.PartInside part) ↔
    (c.form ≠ .das → c.team.nPes ≤ c.nreduce → toInt (2 * c.numPes - 2) ≤ reduceSyncSize) ∧
    (0 < c.nreduce → ¬ (c.team.nPes : ℤ) ∣ c.nreduce → c.numPes ≤ reduceSyncSize) := by
  have hpos := c.team.pes_pos
  by_cases h : 0 < c.nreduce
  · have hmod : 0 ≤ c.nreduce % c.team.nPes := Int.emod_nonneg _ (by omega)
    have hdvd : 0 < c.nreduce % c.team.nPes ↔ ¬ (c.team.nPes : ℤ) ∣ c.nreduce := by
      rw [Int.dvd_iff_emod_eq_zero]
      omega
    have hfull : c.PartInside (.ring c.nSeg c.chunkSize) ↔
        (c.form ≠ .das → toInt (2 * c.numPes - 2) ≤ reduceSyncSize) :=
      ring_inside_iff hn (chunkSize_pos hn) segSize_le _
    have hrest : 0 < c.pChunk → (c.PartInside (.ring 1 c.pChunk) ↔
        (c.form ≠ .das → toInt (2 * c.numPes - 2) ≤ reduceSyncSize)) := by
      intro hchunk
      apply ring_inside_iff hn hchunk
      have hle := Int.ediv_mul_le c.pCount (b := c.team.nPes) (by omega)
      rw [← pChunk_eq hn h] at hle
      exact hle.trans ((pCount_bounds hn h).2.le.trans segSize_le)
    have hmem {part : Part} := mem_ringParts hn h (c := c) (p := part)
    constructor
    · intro hall
      refine ⟨fun hform hle => ?_, fun _ hnd => ?_⟩
      · grind [ring_part_iff]
      · exact (rest_inside_iff hn).mp (hall _ (hmem.mpr (.inr (.inr ⟨hdvd.mpr hnd, rfl⟩))))
    · rintro ⟨hring, hdirect⟩ part hpart
      rcases hmem.mp hpart with ⟨hseg, rfl⟩ | ⟨hchunk, rfl⟩ | ⟨hrem, rfl⟩
      · exact hfull.mpr fun hform => hring hform ((ring_part_iff hn h).mp (.inl hseg))
      · exact (hrest hchunk).mpr fun hform => hring hform ((ring_part_iff hn h).mp (.inr hchunk))
      · exact (rest_inside_iff hn).mpr (hdirect h (hdvd.mp hrem))
  · grind [ringParts_of_nonpos]

/-- For every form, world, team and count: the words of `pWrk` and `pSync` that the members
touch lie in the slots of the team if and only if the call fits. -/
theorem reduce_inside_iff (c : Call) : c.Inside ↔ c.Fits := by
  rw [inside_iff_parts, Fits, parts]
  split
  next => exact iff_of_true (fun _ h => by cases h) trivial
  next =>
    split
    next =>
      rw [forall_mem_singleton]
      exact direct_inside_iff c.nreduce_int.1 c.nreduce_int.2
    next =>
      split
      next hfits => exact ringParts_inside_iff (ringFits_iff.mp hfits)
      next => exact iff_of_true (fun _ h => by cases h) trivial

end Call

def highPair : Call where
  form := .wg
  team := ⟨2, 1, 2, Nat.one_pos, Nat.two_pos⟩
  numPes := 4
  nreduce := 524288
  sizeofT := 8
  ipcShmSize := 1
  ipcStride := 1
  inside := by decide
  pes_int := by decide
  nreduce_int := by decide
  sizeof_mem := by decide

def largeWorld : Call where
  form := .das
  team := ⟨0, 1, 2, Nat.one_pos, Nat.two_pos⟩
  numPes := 300
  nreduce := 1
  sizeofT := 4
  ipcShmSize := 1
  ipcStride := 1
  inside := by decide
  pes_int := by decide
  nreduce_int := by decide
  sizeof_mem := by decide

def ringWorld : Call where
  form := .wave
  team := ⟨0, 1, 2, Nat.one_pos, Nat.two_pos⟩
  numPes := 200
  nreduce := 1048576
  sizeofT := 4
  ipcShmSize := 1
  ipcStride := 1
  inside := by decide
  pes_int := by decide
  nreduce_int := by decide
  sizeof_mem := by decide

/-- The pair writes into the `pWrk` of the next team; the worlds are cleared into the flags of
the next team. -/
theorem neighbours_touched :
    (Access.wrk 1572864 524288 ∈ highPair.accesses 1 ∧ highPair.capacity = 1048576) ∧
    Access.sync 0 300 ∈ largeWorld.accesses 0 ∧ Access.sync 0 398 ∈ ringWorld.accesses 0 ∧
    ¬ highPair.Inside ∧ ¬ largeWorld.Inside ∧ ¬ ringWorld.Inside := by
  have h1 : Access.wrk 1572864 524288 ∈ highPair.accesses 1 := by decide
  have h2 : Access.sync 0 300 ∈ largeWorld.accesses 0 := by decide
  have h3 : Access.sync 0 398 ∈ ringWorld.accesses 0 := by decide
  refine ⟨⟨h1, by decide⟩, h2, h3, fun h => ?_, fun h => ?_, fun h => ?_⟩
  · exact absurd (h 1 (by decide) _ h1) (by decide)
  · exact absurd (h 0 (by decide) _ h2) (by decide)
  · exact absurd (h 0 (by decide) _ h3) (by decide)

end GdaReduceScratch
