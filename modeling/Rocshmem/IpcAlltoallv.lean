import Rocshmem.UnorderedCopies

/-! The IPC `alltoallv_das`: which elements the puts of all workgroups of all PEs copy.
The uniform fast path computes its indices in `int`, the general path in `size_t`. -/
namespace IpcAlltoallv

open List UnorderedCopies

def wfSize : ℕ := 64

def rocshmemChunkBytes : ℕ := 262144

/-- A collective call: the launch and, for every PE, its own four arrays. The counts
match between sender and receiver, the receive blocks of a PE are disjoint, and every
block lies in an object of the 64-bit address space. -/
structure Call (n : ℕ) where
  sizeofT : ℕ
  blockSize : ℕ
  wgCount : ℕ
  sdmaEnabled : Bool
  sourceNelems : Fin n → Fin n → ℕ
  sourceDispls : Fin n → Fin n → ℕ
  destNelems : Fin n → Fin n → ℕ
  destDispls : Fin n → Fin n → ℕ
  pes_pos : 0 < n
  sizeof_pow : ∃ k ≤ 4, sizeofT = 2 ^ k
  block_pos : 0 < blockSize
  wgs_pos : 0 < wgCount
  wgs_int : wgCount < 2 ^ 31
  matched : ∀ i j, sourceNelems i j = destNelems j i
  disjoint : ∀ j i i' x, destDispls j i ≤ x → x < destDispls j i + destNelems j i →
    destDispls j i' ≤ x → x < destDispls j i' + destNelems j i' → i = i'
  source_object : ∀ i j, (sourceDispls i j + sourceNelems i j) * sizeofT < 2 ^ 63
  dest_object : ∀ j i, (destDispls j i + destNelems j i) * sizeofT < 2 ^ 63

structure Put (n : ℕ) where
  pe : Fin n
  remote : Fin n
  dst : ℤ
  src : ℤ
  nelems : ℕ

abbrev Cell (n : ℕ) := Fin n × ℤ

def Put.copies {n : ℕ} (p : Put n) : List (Copy (Cell n) (Cell n)) :=
  (range p.nelems).map fun k : ℕ => ⟨(p.pe, p.src + k), (p.remote, p.dst + k)⟩

def splitWgRange (total wgId wgCount : ℕ) : ℕ × ℕ :=
  let base := total / wgCount
  let remainder := total % wgCount
  (wgId * base + (if wgId < remainder then wgId else remainder),
    base + (if wgId < remainder then 1 else 0))

def narrow (x : ℕ) : ℤ := (x : ℤ).bmod (2 ^ 32)

def toSizeT (x : ℤ) : ℕ := (x % 2 ^ 64).toNat

def stridedRanks (n start step : ℕ) : List (Fin n) :=
  (finRange n).filter fun j => start ≤ j.val ∧ (j.val - start) % step = 0

def blockIndex {n : ℕ} (rank : Fin n) (nelems elemOffset : ℤ) : ℤ :=
  (rank.val : ℤ) * nelems + elemOffset

def normalCount (nelems elemCount : ℤ) : ℤ := if elemCount < 0 then nelems else elemCount

namespace Call

variable {n : ℕ} (c : Call n)

def numWaves : ℕ := (c.blockSize + wfSize - 1) / wfSize

def waveRanks : List (Fin n) :=
  (range c.numWaves).flatMap fun wave => stridedRanks n wave c.numWaves

def threadRanks : List (Fin n) :=
  (range c.blockSize).flatMap fun tid => stridedRanks n tid (min c.blockSize wfSize)

def putNelems (nelems : ℤ) : ℕ := toSizeT nelems * c.sizeofT % 2 ^ 64 / c.sizeofT

def chunkNelems : ℕ := rocshmemChunkBytes / c.sizeofT

def chunks (elemCount : ℤ) : List (ℤ × ℤ) :=
  (range ((elemCount.toNat + c.chunkNelems - 1) / c.chunkNelems)).map fun q : ℕ =>
    let cStart : ℤ := q * c.chunkNelems
    (cStart, min (cStart + c.chunkNelems) elemCount - cStart)

def usePipeline (elemCount : ℤ) : Prop := elemCount > c.chunkNelems

instance (elemCount : ℤ) : Decidable (c.usePipeline elemCount) :=
  inferInstanceAs (Decidable (_ > _))

def alltoallLinearWgDas (me : Fin n) (nelems elemOffset elemCount : ℤ) : List (Put n) :=
  let elemCount := normalCount nelems elemCount
  if c.usePipeline elemCount then
    (c.chunks elemCount).flatMap fun chunk => c.waveRanks.map fun j =>
      ⟨me, j, blockIndex me nelems elemOffset + chunk.1, blockIndex j nelems elemOffset + chunk.1,
        c.putNelems chunk.2⟩
  else
    c.waveRanks.map fun j =>
      ⟨me, j, blockIndex me nelems elemOffset, blockIndex j nelems elemOffset,
        c.putNelems elemCount⟩

def alltoallLinearThreadPutsDas (me : Fin n) (nelems elemOffset elemCount : ℤ) : List (Put n) :=
  let elemCount := normalCount nelems elemCount
  c.threadRanks.map fun j =>
    ⟨me, j, blockIndex me nelems elemOffset, blockIndex j nelems elemOffset, c.putNelems elemCount⟩

def threadPuts (elemCount : ℤ) : Prop :=
  c.sizeofT * toSizeT elemCount % 2 ^ 64 < 512 ∨ c.sdmaEnabled = true

instance (elemCount : ℤ) : Decidable (c.threadPuts elemCount) :=
  inferInstanceAs (Decidable (_ ∨ _))

def alltoallWgDas (me : Fin n) (nelems elemOffset elemCount : ℤ) : List (Put n) :=
  let elemCount := normalCount nelems elemCount
  if c.threadPuts elemCount then c.alltoallLinearThreadPutsDas me nelems elemOffset elemCount
  else c.alltoallLinearWgDas me nelems elemOffset elemCount

def rankZero : Fin n := ⟨0, c.pes_pos⟩

def uniformCount (me : Fin n) : ℕ := c.sourceNelems me c.rankZero

def Uniform (me : Fin n) : Prop :=
  c.uniformCount me = c.destNelems me c.rankZero ∧
  ∀ rank : Fin n, c.sourceNelems me rank = c.uniformCount me ∧
    c.destNelems me rank = c.uniformCount me ∧
    c.sourceDispls me rank = rank * c.uniformCount me ∧
    c.destDispls me rank = rank * c.uniformCount me

instance (me : Fin n) : Decidable (c.Uniform me) := inferInstanceAs (Decidable (_ ∧ _))

def total (me : Fin n) : ℤ := narrow (c.uniformCount me)

def elemOffset (me : Fin n) (wgId : ℕ) : ℤ :=
  narrow (splitWgRange (c.uniformCount me) wgId c.wgCount).1

def elemCount (me : Fin n) (wgId : ℕ) : ℤ :=
  narrow (splitWgRange (c.uniformCount me) wgId c.wgCount).2

def alltoallvDas (me : Fin n) (wgId : ℕ) : List (Put n) :=
  if c.Uniform me then
    c.alltoallWgDas me (c.total me) (c.elemOffset me wgId) (c.elemCount me wgId)
  else
    c.waveRanks.filterMap fun remoteRank =>
      let range := splitWgRange (c.sourceNelems me remoteRank) wgId c.wgCount
      if range.2 = 0 then none
      else some ⟨me, remoteRank, c.destDispls me me + range.1,
        c.sourceDispls me remoteRank + range.1, range.2⟩

def intermediates (me : Fin n) (wgId : ℕ) : List ℤ :=
  if c.Uniform me then
    let count := normalCount (c.total me) (c.elemCount me wgId)
    let start (rank : Fin n) := blockIndex rank (c.total me) (c.elemOffset me wgId)
    ((finRange n).flatMap fun rank => [rank.val * c.total me, start rank]) ++
    if ¬ c.threadPuts count ∧ c.usePipeline count then
      (c.chunks count).flatMap fun chunk => (chunk.1 + (c.chunkNelems : ℤ)) ::
        (finRange n).map fun rank => start rank + chunk.1
    else []
  else []

def copies : List (Copy (Cell n) (Cell n)) :=
  (finRange n).flatMap fun me => (range c.wgCount).flatMap fun wgId =>
    (c.alltoallvDas me wgId).flatMap Put.copies

def Placed (src dst : Cell n) : Prop :=
  ∃ i j, ∃ k < c.destNelems j i, src = (i, ((c.sourceDispls i j + k : ℕ) : ℤ)) ∧
    dst = (j, ((c.destDispls j i + k : ℕ) : ℤ))

structure Contract (α : Type*) : Prop where
  defined : ∀ me, ∀ wgId < c.wgCount, ∀ x ∈ c.intermediates me wgId, -2 ^ 31 ≤ x ∧ x < 2 ^ 31
  delivers : Delivers α c.copies c.Placed

def DisplacementsAgree : Prop :=
  ∀ i j, c.sourceNelems i j ≠ 0 → c.destDispls i i = c.destDispls j i

def IndicesFit (me : Fin n) : Prop :=
  ∀ wgId < c.wgCount, let range := splitWgRange (c.uniformCount me) wgId c.wgCount
    let last := (n - 1) * c.uniformCount me + range.1
    range.2 < 2 ^ 31 ∧ last < 2 ^ 31 ∧
    (¬ c.threadPuts range.2 → c.usePipeline range.2 → ∀ chunk ∈ c.chunks range.2,
      last + chunk.1 < 2 ^ 31 ∧ chunk.1 + c.chunkNelems < 2 ^ 31)

end Call

theorem split_succ (total w W : ℕ) : (splitWgRange total (w + 1) W).1 =
      (splitWgRange total w W).1 + (splitWgRange total w W).2 := by
  simp only [splitWgRange, add_mul, one_mul]
  split <;> split <;> omega

theorem split_end {total W : ℕ} (hW : 0 < W) : (splitWgRange total W W).1 = total := by
  have hmod := Nat.mod_lt total hW
  simp only [splitWgRange, if_neg (by omega : ¬ W < total % W)]
  exact Nat.div_add_mod total W

theorem split_le (total : ℕ) {w W : ℕ} (hw : w < W) :
    (splitWgRange total w W).1 + (splitWgRange total w W).2 ≤ total := by
  have mono : ∀ v, w < v → (splitWgRange total w W).1 + (splitWgRange total w W).2 ≤
      (splitWgRange total v W).1 := by
    intro v hv
    induction v, hv using Nat.le_induction with
    | base => exact (split_succ total w W).ge
    | succ v _ ih =>
      rw [split_succ total v W]
      omega
  exact (mono W hw).trans (split_end (by omega)).le

theorem split_cover {total k W : ℕ} (hW : 0 < W) (hk : k < total) :
    ∃ w < W, (splitWgRange total w W).1 ≤ k ∧
      k < (splitWgRange total w W).1 + (splitWgRange total w W).2 := by
  have cover : ∀ v, k < (splitWgRange total v W).1 → ∃ w < v, (splitWgRange total w W).1 ≤ k ∧
      k < (splitWgRange total w W).1 + (splitWgRange total w W).2 := by
    intro v hv
    induction v with
    | zero =>
      simp only [splitWgRange] at hv
      split at hv <;> omega
    | succ v ih =>
      grind [splitWgRange]
  exact cover W (by rwa [split_end hW])

theorem split_nonempty {total w W : ℕ} (hW : 0 < W) (h : W ≤ total) :
    0 < (splitWgRange total w W).2 := by
  have := Nat.div_pos h hW
  simp only [splitWgRange]
  omega

theorem bmod_eq (x : ℤ) : x.bmod (2 ^ 32) =
    if x % 4294967296 < 2147483648 then x % 4294967296 else x % 4294967296 - 4294967296 := by
  rw [Int.bmod_def]
  norm_num

theorem narrow_eq (x : ℕ) : narrow x =
    if (x : ℤ) % 4294967296 < 2147483648 then (x : ℤ) % 4294967296
    else (x : ℤ) % 4294967296 - 4294967296 :=
  bmod_eq x

attribute [irreducible] narrow

theorem narrow_of_lt {x : ℕ} (h : x < 2 ^ 31) : narrow x = x := by
  rw [narrow_eq]
  split <;> omega

theorem narrow_of_ge {x : ℕ} (h : 2 ^ 31 ≤ x) (h' : x < 2 ^ 32) : narrow x < 0 := by
  rw [narrow_eq]
  split <;> omega

theorem narrow_bounds (x : ℕ) : -2 ^ 31 ≤ narrow x ∧ narrow x < 2 ^ 31 := by
  rw [narrow_eq]
  split <;> omega

theorem mem_strided_flat {n b step : ℕ} (h0 : 0 < step) (hb : step ≤ b) (j : Fin n) :
    j ∈ (range b).flatMap fun start => stridedRanks n start step := by
  have hlt := Nat.mod_lt j.val h0
  have hle := Nat.mod_le j.val step
  have hmod : (j.val - j.val % step) % step = 0 :=
    Nat.sub_mod_eq_zero_of_mod_eq (Nat.mod_mod j.val step).symm
  simp only [mem_flatMap, mem_range, stridedRanks, mem_filter, mem_finRange,
    true_and, decide_eq_true_eq]
  exact ⟨j.val % step, by omega, hle, hmod⟩

namespace Call

variable {n : ℕ} (c : Call n)

theorem sizeof_bounds : 0 < c.sizeofT ∧ c.sizeofT ≤ 16 := by
  obtain ⟨k, hk, h⟩ := c.sizeof_pow
  rw [h]
  exact ⟨Nat.two_pow_pos k, Nat.pow_le_pow_right (by decide) hk⟩

theorem chunk_pos : 0 < c.chunkNelems := by
  obtain ⟨h0, h1⟩ := c.sizeof_bounds
  exact Nat.div_pos (by simp only [rocshmemChunkBytes]; omega) h0

theorem mem_wave_ranks (j : Fin n) : j ∈ c.waveRanks := by
  have hpos : 0 < c.numWaves := Nat.div_pos (by have := c.block_pos; omega) (by decide)
  exact mem_strided_flat hpos (le_refl _) j

theorem mem_thread_ranks (j : Fin n) : j ∈ c.threadRanks :=
  mem_strided_flat (lt_min c.block_pos (by decide)) (min_le_left _ _) j

variable {x : ℤ}

theorem put_nelems_of_nonneg (h0 : 0 ≤ x) (h : x < 2 ^ 31) : c.putNelems x = x.toNat := by
  obtain ⟨hs0, hs⟩ := c.sizeof_bounds
  have hsize : toSizeT x = x.toNat := by
    rw [toSizeT, Int.emod_eq_of_lt h0 (by omega)]
  have hmul : x.toNat * c.sizeofT ≤ x.toNat * 16 := Nat.mul_le_mul_left _ hs
  rw [putNelems, hsize, Nat.mod_eq_of_lt (by omega), Nat.mul_div_cancel _ hs0]

theorem put_nelems_of_neg (h0 : x < 0) (h : -2 ^ 31 ≤ x) :
    2 ^ 63 + 16 ≤ c.putNelems x * c.sizeofT := by
  obtain ⟨hs0, hs⟩ := c.sizeof_bounds
  obtain ⟨m, rfl⟩ : ∃ m : ℕ, x = -m := ⟨x.natAbs, by omega⟩
  have hsize : toSizeT (-m) = 2 ^ 64 - m := by
    rw [toSizeT]
    omega
  have hms : m * c.sizeofT ≤ m * 16 := Nat.mul_le_mul_left _ hs
  have hms0 : 0 < m * c.sizeofT := Nat.mul_pos (by omega) hs0
  have hmod : (2 ^ 64 - m) * c.sizeofT % 2 ^ 64 = 2 ^ 64 - m * c.sizeofT := by
    obtain ⟨q, hq⟩ : ∃ q, c.sizeofT = q + 1 := ⟨c.sizeofT - 1, by omega⟩
    have : (2 ^ 64 - m) * c.sizeofT = 2 ^ 64 * q + (2 ^ 64 - m * c.sizeofT) := by
      rw [Nat.sub_mul, hq, mul_add]
      rw [hq] at hms
      omega
    rw [this, Nat.mul_add_mod, Nat.mod_eq_of_lt (by omega)]
  rw [putNelems, hsize, hmod]
  have hdiv := Nat.div_add_mod (2 ^ 64 - m * c.sizeofT) c.sizeofT
  have hrem := Nat.mod_lt (2 ^ 64 - m * c.sizeofT) hs0
  rw [mul_comm] at hdiv
  omega

def slices (elemCount : ℤ) : List (ℤ × ℤ) :=
  if ¬ c.threadPuts elemCount ∧ c.usePipeline elemCount then c.chunks elemCount
  else [(0, elemCount)]

theorem mem_chunks {chunk : ℤ × ℤ} (h : chunk ∈ c.chunks x) :
    0 ≤ chunk.1 ∧ 0 ≤ chunk.2 ∧ chunk.1 + chunk.2 ≤ x := by
  have hpos := c.chunk_pos
  simp only [chunks, mem_map, mem_range] at h
  obtain ⟨q, hq, rfl⟩ := h
  rw [Nat.lt_div_iff_mul_lt hpos] at hq
  have hstart : (q : ℤ) * c.chunkNelems < x := by
    have : q * c.chunkNelems < x.toNat := by omega
    zify at this
    omega
  have hq0 : 0 ≤ (q : ℤ) * c.chunkNelems := by positivity
  exact ⟨hq0, by omega, by omega⟩

theorem chunks_cover {k : ℤ} (h0 : 0 ≤ k) (hk : k < x) :
    ∃ chunk ∈ c.chunks x, chunk.1 ≤ k ∧ k < chunk.1 + chunk.2 := by
  have hpos := c.chunk_pos
  have hsplit := Int.mul_ediv_add_emod k c.chunkNelems
  have hrem := Int.emod_lt_of_pos k (show (0 : ℤ) < c.chunkNelems by omega)
  have hrem0 := Int.emod_nonneg k (show (c.chunkNelems : ℤ) ≠ 0 by omega)
  obtain ⟨q, hq⟩ : ∃ q : ℕ, k / c.chunkNelems = q :=
    ⟨_, (Int.toNat_of_nonneg (Int.ediv_nonneg h0 (by omega))).symm⟩
  rw [hq, Int.mul_comm] at hsplit
  refine ⟨_, mem_map_of_mem (a := q) (mem_range.mpr ?_), ?_⟩
  · rw [Nat.lt_div_iff_mul_lt hpos]
    have : ((q * c.chunkNelems : ℕ) : ℤ) < x.toNat := by push_cast; omega
    norm_cast at this
    omega
  · dsimp only
    omega

variable {slice : ℤ × ℤ}

theorem mem_slices (h0 : 0 ≤ x) (h : slice ∈ c.slices x) :
    0 ≤ slice.1 ∧ 0 ≤ slice.2 ∧ slice.1 + slice.2 ≤ x := by
  unfold slices at h
  split at h
  · exact c.mem_chunks h
  · rw [mem_singleton] at h
    subst h
    exact ⟨le_refl _, h0, by simp⟩

theorem slices_cover {k : ℤ} (h0 : 0 ≤ k) (hk : k < x) :
    ∃ slice ∈ c.slices x, slice.1 ≤ k ∧ k < slice.1 + slice.2 := by
  unfold slices
  split
  · exact c.chunks_cover h0 hk
  · exact ⟨(0, x), mem_singleton.mpr rfl, h0, by simpa using hk⟩

theorem normal_count_idem (nelems elemCount : ℤ) :
    normalCount nelems (normalCount nelems elemCount) = normalCount nelems elemCount := by
  unfold normalCount
  split <;> simp_all

variable {p : Put n}

theorem mem_alltoall_wg {me : Fin n} {nelems elemOffset elemCount : ℤ} :
    p ∈ c.alltoallWgDas me nelems elemOffset elemCount ↔
      ∃ slice ∈ c.slices (normalCount nelems elemCount), ∃ j : Fin n,
        p = ⟨me, j, blockIndex me nelems elemOffset + slice.1,
          blockIndex j nelems elemOffset + slice.1, c.putNelems slice.2⟩ := by
  have hidem := normal_count_idem nelems elemCount
  unfold alltoallWgDas
  dsimp only
  generalize normalCount nelems elemCount = x at hidem ⊢
  by_cases ht : c.threadPuts x
  · rw [if_pos ht, slices, if_neg (fun h => h.1 ht)]
    simp only [alltoallLinearThreadPutsDas, hidem, mem_singleton, exists_eq_left, mem_map,
      c.mem_thread_ranks, true_and, add_zero, eq_comm]
  rw [if_neg ht]
  by_cases hp : c.usePipeline x
  · rw [slices, if_pos ⟨ht, hp⟩]
    simp only [alltoallLinearWgDas, hidem, if_pos hp, mem_flatMap, mem_map,
      c.mem_wave_ranks, true_and, eq_comm]
  · rw [slices, if_neg (fun h => hp h.2)]
    simp only [alltoallLinearWgDas, hidem, if_neg hp, mem_singleton, exists_eq_left,
      mem_map, c.mem_wave_ranks, true_and, add_zero, eq_comm]

variable {s d : Cell n}

theorem mem_put_copies :
    ⟨s, d⟩ ∈ p.copies ↔ ∃ k < p.nelems, s = (p.pe, p.src + k) ∧ d = (p.remote, p.dst + k) := by
  simp only [Put.copies, mem_map, mem_range, Copy.mk.injEq, eq_comm]

theorem mem_copies : ⟨s, d⟩ ∈ c.copies ↔
    ∃ me, ∃ wgId < c.wgCount, ∃ p ∈ c.alltoallvDas me wgId, ⟨s, d⟩ ∈ p.copies := by
  simp only [copies, mem_flatMap, mem_finRange, mem_range, true_and]

def Sent (me : Fin n) (s d : Cell n) : Prop :=
  ∃ j, ∃ k < c.sourceNelems me j, s = (me, ((c.sourceDispls me j + k : ℕ) : ℤ)) ∧
    d = (j, ((c.destDispls me me + k : ℕ) : ℤ))

theorem general_path_sent {me : Fin n} (hu : ¬ c.Uniform me) (s d : Cell n) :
    (∃ wgId < c.wgCount, ∃ p ∈ c.alltoallvDas me wgId, ⟨s, d⟩ ∈ p.copies) ↔ c.Sent me s d := by
  simp only [alltoallvDas, if_neg hu, mem_filterMap, c.mem_wave_ranks, true_and, mem_put_copies]
  constructor
  · rintro ⟨wgId, hw, p, ⟨j, hp⟩, k, hk, rfl, rfl⟩
    split at hp
    · cases hp
    · cases hp
      have hle := split_le (c.sourceNelems me j) hw
      dsimp only at hk ⊢
      refine ⟨j, (splitWgRange (c.sourceNelems me j) wgId c.wgCount).1 + k, by omega, ?_, ?_⟩ <;>
        push_cast <;> rw [add_assoc]
  · rintro ⟨j, k, hk, rfl, rfl⟩
    obtain ⟨wgId, hw, hlo, hhi⟩ := split_cover c.wgs_pos hk
    obtain ⟨m, rfl⟩ := Nat.exists_eq_add_of_le hlo
    refine ⟨wgId, hw, _, ⟨j, if_neg (by omega)⟩, m, ?_, ?_, ?_⟩ <;> dsimp only
    · omega
    · push_cast
      rw [add_assoc]
    · push_cast
      rw [add_assoc]

theorem rank_total_exact {me : Fin n} (hfit : c.IndicesFit me) (j : Fin n) :
    (j.val : ℤ) * c.total me = (j.val * c.uniformCount me : ℕ) := by
  obtain ⟨-, hlast, -⟩ := hfit 0 c.wgs_pos
  have hj := j.isLt
  by_cases hn : n = 1
  · have h0 : j.val = 0 := by omega
    simp [h0]
  · have hle : 1 * c.uniformCount me ≤ (n - 1) * c.uniformCount me :=
      Nat.mul_le_mul_right _ (by omega)
    rw [total, narrow_of_lt (by omega), Nat.cast_mul]

variable {wgId : ℕ}

abbrev wgNormal (me : Fin n) (wgId : ℕ) : ℤ := normalCount (c.total me) (c.elemCount me wgId)

abbrev wgBlock (me j : Fin n) (wgId : ℕ) : ℤ := blockIndex j (c.total me) (c.elemOffset me wgId)

theorem block_index_exact {me : Fin n} (hfit : c.IndicesFit me) (hw : wgId < c.wgCount) (j : Fin n)
    : c.wgBlock me j wgId =
      (j.val * c.uniformCount me + (splitWgRange (c.uniformCount me) wgId c.wgCount).1 : ℕ) := by
  obtain ⟨-, hlast, -⟩ := hfit wgId hw
  rw [wgBlock, blockIndex, c.rank_total_exact hfit, elemOffset, narrow_of_lt (by omega),
    Nat.cast_add]

theorem normal_of_lt {me : Fin n}
    (hlt : (splitWgRange (c.uniformCount me) wgId c.wgCount).2 < 2 ^ 31) :
    c.wgNormal me wgId = (splitWgRange (c.uniformCount me) wgId c.wgCount).2 := by
  rw [wgNormal, elemCount, narrow_of_lt hlt]
  exact if_neg (by omega)

theorem count_exact {me : Fin n} (hfit : c.IndicesFit me) (hw : wgId < c.wgCount) :
    c.wgNormal me wgId = (splitWgRange (c.uniformCount me) wgId c.wgCount).2 :=
  c.normal_of_lt (hfit wgId hw).1

theorem slice_exact {x : ℕ} (hx : x < 2 ^ 31) (hs : slice ∈ c.slices x) :
    ∃ a b : ℕ, slice = (↑a, ↑b) ∧ c.putNelems slice.2 = b ∧ a + b ≤ x := by
  obtain ⟨h1, h2, h3⟩ := c.mem_slices (by omega) hs
  refine ⟨slice.1.toNat, slice.2.toNat, ?_, c.put_nelems_of_nonneg h2 (by omega), by omega⟩
  rw [Int.toNat_of_nonneg h1, Int.toNat_of_nonneg h2]

theorem mem_uniform_copies {me : Fin n} (hu : c.Uniform me) :
    (∃ wgId < c.wgCount, ∃ p ∈ c.alltoallvDas me wgId, ⟨s, d⟩ ∈ p.copies) ↔
      ∃ wgId < c.wgCount, ∃ slice ∈ c.slices (c.wgNormal me wgId),
        ∃ j, ∃ k < c.putNelems slice.2,
          s = (me, c.wgBlock me j wgId + slice.1 + k) ∧
          d = (j, c.wgBlock me me wgId + slice.1 + k) := by
  simp only [alltoallvDas, if_pos hu, c.mem_alltoall_wg, mem_put_copies]
  constructor
  · rintro ⟨wgId, hw, p, ⟨slice, hs, j, rfl⟩, k, hk, h⟩
    exact ⟨wgId, hw, slice, hs, j, k, hk, h⟩
  · rintro ⟨wgId, hw, slice, hs, j, k, hk, h⟩
    exact ⟨wgId, hw, _, ⟨slice, hs, j, rfl⟩, k, hk, h⟩

theorem uniform_path_sent {me : Fin n} (hu : c.Uniform me) (hfit : c.IndicesFit me) (s d : Cell n) :
    (∃ wgId < c.wgCount, ∃ p ∈ c.alltoallvDas me wgId, ⟨s, d⟩ ∈ p.copies) ↔ c.Sent me s d := by
  have hall := hu.2
  have hdd := (hall me).2.2.2
  rw [c.mem_uniform_copies hu]
  constructor
  · rintro ⟨wgId, hw, slice, hs, j, k, hk, rfl, rfl⟩
    have hle := split_le (c.uniformCount me) hw
    rw [c.count_exact hfit hw] at hs
    obtain ⟨a, b, rfl, hput, hab⟩ := c.slice_exact (hfit wgId hw).1 hs
    dsimp only at hk hput ⊢
    rw [hput] at hk
    obtain ⟨hsn, -, hsd, -⟩ := hall j
    refine ⟨j, (splitWgRange (c.uniformCount me) wgId c.wgCount).1 + a + k, by omega, ?_, ?_⟩
    · rw [c.block_index_exact hfit hw, hsd]
      push_cast
      simp only [add_assoc]
    · rw [c.block_index_exact hfit hw, hdd]
      push_cast
      simp only [add_assoc]
  · rintro ⟨j, k, hk, rfl, rfl⟩
    obtain ⟨hsn, -, hsd, -⟩ := hall j
    rw [hsn] at hk
    obtain ⟨wgId, hw, hlo, hhi⟩ := split_cover c.wgs_pos hk
    obtain ⟨m, rfl⟩ := Nat.exists_eq_add_of_le hlo
    obtain ⟨slice, hs, hslo, hshi⟩ := c.slices_cover (k := m)
      (x := (splitWgRange (c.uniformCount me) wgId c.wgCount).2) (by omega) (by omega)
    obtain ⟨a, b, rfl, hput, hab⟩ := c.slice_exact (hfit wgId hw).1 hs
    dsimp only at hslo hshi hput
    obtain ⟨r, rfl⟩ := Nat.exists_eq_add_of_le (show a ≤ m by omega)
    refine ⟨wgId, hw, (↑a, ↑b), ?_, j, r, ?_, ?_, ?_⟩
    · rw [c.count_exact hfit hw]
      exact hs
    · dsimp only
      rw [hput]
      omega
    · dsimp only
      rw [c.block_index_exact hfit hw, hsd]
      push_cast
      simp only [add_assoc]
    · dsimp only
      rw [c.block_index_exact hfit hw, hdd]
      push_cast
      simp only [add_assoc]

theorem put_pe {me : Fin n} (h : p ∈ c.alltoallvDas me wgId) : p.pe = me := by
  unfold alltoallvDas at h
  split at h
  · obtain ⟨slice, -, j, rfl⟩ := c.mem_alltoall_wg.mp h
    rfl
  · obtain ⟨j, -, hj⟩ := mem_filterMap.mp h
    dsimp only at hj
    split at hj
    · cases hj
    · cases hj
      rfl

theorem placed_source {me : Fin n} (h : c.Placed (me, x) d) :
    0 ≤ x ∧ x * c.sizeofT < 2 ^ 63 := by
  obtain ⟨i, j, k, hk, hs, -⟩ := h
  cases hs
  have hobj := c.source_object me j
  rw [← c.matched] at hk
  have hle : (c.sourceDispls me j + k) * c.sizeofT ≤
      (c.sourceDispls me j + c.sourceNelems me j) * c.sizeofT := Nat.mul_le_mul_right _ (by omega)
  refine ⟨by omega, ?_⟩
  norm_cast
  omega

section Overflow

variable {c} {me : Fin n} (hu : c.Uniform me)
  (hdef : ∀ wgId < c.wgCount, ∀ x ∈ c.intermediates me wgId, -2 ^ 31 ≤ x ∧ x < 2 ^ 31)
  (hmem : ∀ s d, ⟨s, d⟩ ∈ c.copies ↔ c.Placed s d)

variable {wgId : ℕ} {slice : ℤ × ℤ}

include hu hmem in
theorem uniform_read_inside (hw : wgId < c.wgCount)
    (hs : slice ∈ c.slices (c.wgNormal me wgId)) (j : Fin n) {k : ℕ}
    (hk : k < c.putNelems slice.2) :
    0 ≤ c.wgBlock me j wgId + slice.1 + k ∧
    (c.wgBlock me j wgId + slice.1 + k) * c.sizeofT < 2 ^ 63 := by
  apply c.placed_source
  apply (hmem _ _).mp
  exact c.mem_copies.mpr
    ⟨me, (c.mem_uniform_copies hu).mpr ⟨wgId, hw, slice, hs, j, k, hk, rfl, rfl⟩⟩

include hu hmem in
theorem count_nonneg (hw : wgId < c.wgCount) :
    0 ≤ c.wgNormal me wgId := by
  by_contra hneg
  have hlow : -2 ^ 31 ≤ c.wgNormal me wgId := by
    have h1 := narrow_bounds (c.uniformCount me)
    have h2 := narrow_bounds (splitWgRange (c.uniformCount me) wgId c.wgCount).2
    unfold wgNormal normalCount
    split
    · exact h1.1
    · exact h2.1
  have hs : (0, c.wgNormal me wgId) ∈
      c.slices (c.wgNormal me wgId) := by
    rw [slices, if_neg (fun h => by have := h.2; unfold usePipeline at this; omega)]
    exact mem_singleton.mpr rfl
  have hread := fun k hk => uniform_read_inside hu hmem hw hs me (k := k) hk
  generalize c.wgNormal me wgId = x at hneg hlow hs hread
  have hbig := c.put_nelems_of_neg (by omega) hlow
  obtain ⟨hs0, hs16⟩ := c.sizeof_bounds
  obtain ⟨m, hm⟩ : ∃ m, c.putNelems x = m + 1 := by
    apply Nat.exists_eq_add_one.mpr
    rcases Nat.eq_zero_or_pos (c.putNelems x) with h | h
    · rw [h] at hbig
      omega
    · exact h
  dsimp only at hread
  rw [hm] at hbig hread
  -- the first element read lies in the object, the last one far outside of it
  have hfirst := (hread 0 (by omega)).1
  have hlast := (hread m (by omega)).2
  have hge : (m : ℤ) * c.sizeofT ≤
      (c.wgBlock me me wgId + 0 + m) * c.sizeofT :=
    Int.mul_le_mul_of_nonneg_right (by omega) (by omega)
  rw [add_mul, one_mul] at hbig
  zify at hbig
  omega

include hu hdef in
theorem block_defined (hw : wgId < c.wgCount) (j : Fin n) :
    c.wgBlock me j wgId < 2 ^ 31 := by
  have hd := hdef wgId hw
  rw [intermediates, if_pos hu] at hd
  exact (hd _ (mem_append_left _ (mem_flatMap.mpr
    ⟨j, mem_finRange j, mem_cons_of_mem _ mem_cons_self⟩))).2

include hu hdef in
theorem chunk_defined (hw : wgId < c.wgCount)
    (hpipe : ¬ c.threadPuts (c.wgNormal me wgId) ∧ c.usePipeline (c.wgNormal me wgId))
    {chunk : ℤ × ℤ} (hc : chunk ∈ c.chunks (c.wgNormal me wgId))
    (j : Fin n) :
    c.wgBlock me j wgId + chunk.1 < 2 ^ 31 ∧
      chunk.1 + c.chunkNelems < 2 ^ 31 := by
  have hd := hdef wgId hw
  rw [intermediates, if_pos hu] at hd
  dsimp only at hd
  rw [if_pos hpipe] at hd
  constructor
  · exact (hd _ (mem_append_right _ (mem_flatMap.mpr ⟨chunk, hc,
      mem_cons_of_mem _ (mem_map_of_mem (mem_finRange j))⟩))).2
  · exact (hd _ (mem_append_right _ (mem_flatMap.mpr ⟨chunk, hc, mem_cons_self⟩))).2

include hu hdef in
theorem start_defined (hw : wgId < c.wgCount)
    (hs : slice ∈ c.slices (c.wgNormal me wgId)) (j : Fin n) :
    c.wgBlock me j wgId + slice.1 < 2 ^ 31 := by
  unfold slices at hs
  split at hs
  · rename_i hpipe
    exact (chunk_defined hu hdef hw hpipe hs j).1
  · rw [mem_singleton] at hs
    subst hs
    rw [add_zero]
    exact block_defined hu hdef hw j

include hu hdef hmem in
theorem uniform_read_below (hw : wgId < c.wgCount)
    (hs : slice ∈ c.slices (c.wgNormal me wgId)) (j : Fin n) {k : ℕ}
    (hk : k < c.putNelems slice.2) :
    c.wgBlock me j wgId + slice.1 + k < 2 ^ 32 - 1 := by
  have hcount := count_nonneg hu hmem hw
  have hstart := start_defined hu hdef hw hs j
  have hlt : c.wgNormal me wgId < 2 ^ 31 := by
    unfold wgNormal normalCount
    split
    · exact (narrow_bounds _).2
    · exact (narrow_bounds _).2
  obtain ⟨h1, h2, h3⟩ := c.mem_slices hcount hs
  generalize c.wgNormal me wgId = x at hcount hlt h3
  generalize c.wgBlock me j wgId = start at hstart ⊢
  have hsize : slice.2 < 2 ^ 31 := by omega
  rw [c.put_nelems_of_nonneg h2 hsize] at hk
  omega

include hu hdef hmem in
theorem blocks_below : n * c.uniformCount me < 2 ^ 32 := by
  rcases Nat.eq_zero_or_pos (c.uniformCount me) with h0 | hpos
  · rw [h0, mul_zero]
    exact Nat.two_pow_pos 32
  -- the last element of the last block is read by some put
  obtain ⟨m, rfl⟩ : ∃ m, n = m + 1 := Nat.exists_eq_add_one.mpr c.pes_pos
  obtain ⟨hsn, -, hsd, -⟩ := hu.2 (Fin.last m)
  have hplaced : c.Placed
      (me, ((c.sourceDispls me (Fin.last m) + (c.uniformCount me - 1) : ℕ) : ℤ))
      (Fin.last m, ((c.destDispls (Fin.last m) me + (c.uniformCount me - 1) : ℕ) : ℤ)) :=
    ⟨me, Fin.last m, c.uniformCount me - 1, by rw [← c.matched, hsn]; omega, rfl, rfl⟩
  obtain ⟨me', wgId, hw, p, hp, hcopy⟩ := c.mem_copies.mp ((hmem _ _).mpr hplaced)
  obtain rfl : me' = me := by
    obtain ⟨k, -, hs, -⟩ := mem_put_copies.mp hcopy
    rw [← c.put_pe hp, (Prod.mk.inj hs).1]
  obtain ⟨wgId, hw, slice, hs, i, k, hk, heq, -⟩ := (c.mem_uniform_copies hu).mp
    ⟨wgId, hw, p, hp, hcopy⟩
  have hread := uniform_read_below hu hdef hmem hw hs i hk
  rw [← (Prod.mk.inj heq).2, hsd, Fin.val_last] at hread
  rw [Nat.succ_mul]
  omega

include hu hdef hmem in
theorem count_fits (hw : wgId < c.wgCount) :
    (splitWgRange (c.uniformCount me) wgId c.wgCount).2 < 2 ^ 31 := by
  have hblocks := blocks_below hu hdef hmem
  have hle := split_le (c.uniformCount me) hw
  have hone : 1 * c.uniformCount me ≤ n * c.uniformCount me := Nat.mul_le_mul_right _ c.pes_pos
  by_contra hge
  have hneg : c.elemCount me wgId < 0 := narrow_of_ge (by omega) (by omega)
  have hneg' : c.total me < 0 := narrow_of_ge (by omega) (by omega)
  have hcount := count_nonneg hu hmem hw
  rw [wgNormal, normalCount, if_pos hneg] at hcount
  exact absurd hcount (not_le.mpr hneg')

include hu hdef hmem in
theorem offset_fits (hw : wgId < c.wgCount) :
    (splitWgRange (c.uniformCount me) wgId c.wgCount).1 < 2 ^ 31 := by
  have hblocks := blocks_below hu hdef hmem
  have hle := split_le (c.uniformCount me) hw
  have hW := c.wgs_int
  by_contra hge
  -- a count of at least `2 ^ 31` leaves one PE, and then a negative start is read
  have hn : n = 1 := by
    have hn := c.pes_pos
    by_contra hne
    have htwo : 2 * c.uniformCount me ≤ n * c.uniformCount me := Nat.mul_le_mul_right _ (by omega)
    omega
  subst hn
  have hneg : c.elemOffset me wgId < 0 := narrow_of_ge (by omega) (by omega)
  have hcnt := count_fits hu hdef hmem hw
  have hcpos := split_nonempty (w := wgId) c.wgs_pos (by omega : c.wgCount ≤ c.uniformCount me)
  have hexact := c.normal_of_lt hcnt
  obtain ⟨slice, hs, hslo, hshi⟩ := c.slices_cover (k := 0)
    (x := (splitWgRange (c.uniformCount me) wgId c.wgCount).2) (le_refl _) (by omega)
  obtain ⟨a, b, rfl, hput, -⟩ := c.slice_exact hcnt hs
  rw [← hexact] at hs
  have hread := (uniform_read_inside hu hmem hw hs me (k := 0) (by dsimp only at *; omega)).1
  have h0 : me.val = 0 := by omega
  rw [wgBlock, blockIndex, h0] at hread
  generalize c.elemOffset me wgId = start at hneg hread
  simp only [Nat.cast_zero, zero_mul, zero_add, add_zero] at hslo hread
  omega

include hu hdef hmem in
theorem indices_fit : c.IndicesFit me := by
  intro wgId hw
  have hcnt := count_fits hu hdef hmem hw
  have hoff := offset_fits hu hdef hmem hw
  -- with one PE the factor of the truncated total is zero
  have htotal : ((n - 1 : ℕ) : ℤ) * c.total me = ((n - 1) * c.uniformCount me : ℕ) := by
    by_cases hn : n = 1
    · subst hn
      simp
    · have hblocks := blocks_below hu hdef hmem
      have hn0 := c.pes_pos
      have htwo : 2 * c.uniformCount me ≤ n * c.uniformCount me := Nat.mul_le_mul_right _ (by omega)
      rw [total, narrow_of_lt (by omega)]
      push_cast
      rfl
  have hexact := c.normal_of_lt hcnt
  let j : Fin n := ⟨n - 1, Nat.sub_one_lt c.pes_pos.ne'⟩
  have hlast : c.wgBlock me j wgId =
      ((n - 1) * c.uniformCount me + (splitWgRange (c.uniformCount me) wgId c.wgCount).1 : ℕ) := by
    rw [wgBlock, blockIndex, htotal, elemOffset, narrow_of_lt hoff]
    push_cast
    rfl
  refine ⟨hcnt, ?_, fun ht hp chunk hc => ?_⟩
  · have := block_defined hu hdef hw j
    rw [hlast] at this
    exact_mod_cast this
  · rw [← hexact] at ht hp hc
    have := chunk_defined hu hdef hw ⟨ht, hp⟩ hc j
    rwa [hlast] at this

end Overflow

theorem copies_sent (hfit : ∀ me, c.Uniform me → c.IndicesFit me) (s d : Cell n) :
    ⟨s, d⟩ ∈ c.copies ↔ ∃ me, c.Sent me s d := by
  rw [c.mem_copies]
  apply exists_congr
  intro me
  by_cases hu : c.Uniform me
  · exact c.uniform_path_sent hu (hfit me hu) s d
  · exact c.general_path_sent hu s d

theorem intermediates_fit {me : Fin n} (hu : c.Uniform me) (hfit : c.IndicesFit me)
    (hw : wgId < c.wgCount) : ∀ x ∈ c.intermediates me wgId, -2 ^ 31 ≤ x ∧ x < 2 ^ 31 := by
  obtain ⟨hcnt, hlast, hchunk⟩ := hfit wgId hw
  have hrank : ∀ j : Fin n, j.val * c.uniformCount me ≤ (n - 1) * c.uniformCount me :=
    fun j => Nat.mul_le_mul_right _ (by have := j.isLt; omega)
  intro x hx
  rw [intermediates, if_pos hu] at hx
  simp only [c.count_exact hfit hw, c.rank_total_exact hfit, c.block_index_exact hfit hw] at hx
  rcases mem_append.mp hx with h | h
  · obtain ⟨j, -, hj⟩ := mem_flatMap.mp h
    have := hrank j
    rcases mem_pair.mp hj with rfl | rfl <;> omega
  · split at h
    · rename_i hpipe
      obtain ⟨chunk, hc, hx⟩ := mem_flatMap.mp h
      obtain ⟨hc1, hc2⟩ := hchunk hpipe.1 hpipe.2 chunk hc
      have hc0 := (c.mem_chunks hc).1
      rcases mem_cons.mp hx with rfl | hx
      · omega
      · obtain ⟨j, -, rfl⟩ := mem_map.mp hx
        have := hrank j
        omega
    · cases h

theorem placed_unique {s' : Cell n} (h : c.Placed s d) (h' : c.Placed s' d) : s = s' := by
  obtain ⟨i, j, k, hk, rfl, rfl⟩ := h
  obtain ⟨i', j', k', hk', rfl, hd⟩ := h'
  obtain ⟨rfl, hx⟩ := Prod.mk.inj hd
  have hx' : c.destDispls j i + k = c.destDispls j i' + k' := by exact_mod_cast hx
  obtain rfl := c.disjoint j i i' (c.destDispls j i + k) (by omega) (by omega) (by omega) (by omega)
  obtain rfl : k = k' := by omega
  rfl

end Call

/-- The contract of the collective holds exactly when every sender's own displacement is
the one its receivers expect and the uniform path stays inside `int`. -/
theorem alltoallv_contract_iff (α : Type) [Nontrivial α] (n : ℕ) (c : Call n) :
    c.Contract α ↔ c.DisplacementsAgree ∧ ∀ me, c.Uniform me → c.IndicesFit me := by
  have hfun : ∀ s s' d, c.Placed s d → c.Placed s' d → s = s' := fun _ _ _ => c.placed_unique
  constructor
  · rintro ⟨hdef, hdel⟩
    have hmem := (delivers_iff hfun).mp hdel
    have hfit : ∀ me, c.Uniform me → c.IndicesFit me :=
      fun me hu => Call.indices_fit hu (hdef me) hmem
    refine ⟨fun i j hne => ?_, hfit⟩
    have hsent : c.Sent i (i, ((c.sourceDispls i j + 0 : ℕ) : ℤ))
        (j, ((c.destDispls i i + 0 : ℕ) : ℤ)) := ⟨j, 0, by omega, rfl, rfl⟩
    obtain ⟨i', j', k, hk, hs, hd⟩ := (hmem _ _).mp ((c.copies_sent hfit _ _).mpr ⟨i, hsent⟩)
    obtain ⟨rfl, hsx⟩ := Prod.mk.inj hs
    obtain ⟨rfl, hdx⟩ := Prod.mk.inj hd
    omega
  · rintro ⟨hagree, hfit⟩
    refine ⟨fun me wgId hw => ?_, (delivers_iff hfun).mpr fun s d => ?_⟩
    · by_cases hu : c.Uniform me
      · exact c.intermediates_fit hu (hfit me hu) hw
      · simp [Call.intermediates, hu]
    · rw [c.copies_sent hfit]
      constructor
      · rintro ⟨i, j, k, hk, hs, hd⟩
        refine ⟨i, j, k, by rwa [← c.matched], hs, ?_⟩
        rw [hd, hagree i j (by omega)]
      · rintro ⟨i, j, k, hk, hs, hd⟩
        rw [← c.matched] at hk
        refine ⟨i, j, k, hk, hs, ?_⟩
        rw [hd, hagree i j (by omega)]

theorem wave_pos : 0 < 64 := by decide

def equalLayouts : Call 2 where
  sizeofT := 4
  blockSize := 64
  wgCount := 1
  sdmaEnabled := false
  sourceNelems _ _ := 1
  sourceDispls _ j := j
  destNelems _ _ := 1
  destDispls _ i := i
  pes_pos := Nat.two_pos
  sizeof_pow := ⟨2, by decide, rfl⟩
  block_pos := wave_pos
  wgs_pos := Nat.one_pos
  wgs_int := by decide
  matched _ _ := rfl
  disjoint j i i' x h1 h2 h3 h4 := by omega
  source_object i j := by have := j.isLt; omega
  dest_object j i := by have := i.isLt; omega

theorem equal_layouts_contract : equalLayouts.Contract ℤ := by
  apply (alltoallv_contract_iff ℤ 2 equalLayouts).mpr
  refine ⟨fun i j _ => rfl, fun me _ wgId hw => ?_⟩
  obtain rfl : wgId = 0 := Nat.lt_one_iff.mp hw
  have hone : equalLayouts.uniformCount me = 1 := rfl
  simp only [hone]
  exact ⟨by decide, by decide, fun h => absurd (by decide) h⟩

def ownLayouts : Call 2 where
  sizeofT := 4
  blockSize := 64
  wgCount := 1
  sdmaEnabled := false
  sourceNelems _ _ := 1
  sourceDispls _ j := j
  destNelems _ _ := 1
  destDispls j i := if i.val = 0 then j.val + 1 else 0
  pes_pos := Nat.two_pos
  sizeof_pow := ⟨2, by decide, rfl⟩
  block_pos := wave_pos
  wgs_pos := Nat.one_pos
  wgs_int := by decide
  matched _ _ := rfl
  disjoint j i i' x h1 h2 h3 h4 := by
    have := i.isLt
    have := i'.isLt
    by_cases h0 : i.val = 0 <;> by_cases h0' : i'.val = 0 <;>
      simp only [h0, h0', if_true, if_false] at h1 h2 h3 h4 <;> omega
  source_object i j := by have := j.isLt; omega
  dest_object j i := by have := j.isLt; split <;> omega

/-- PE 0 writes its block on PE 1 by its own displacement, so the place where PE 1
expects it keeps its old content. -/
theorem own_layouts_misplace : ¬ ownLayouts.Contract ℤ := by
  intro h
  have hplaced : ownLayouts.Placed (0, 1) (1, 2) := ⟨0, 1, 0, by decide, by decide, by decide⟩
  have hval := (h.delivers (fun _ => 7) (fun _ => 0) ownLayouts.copies (List.Perm.refl _)).1
    (0, 1) (1, 2) hplaced
  exact absurd hval (by decide +kernel)

end IpcAlltoallv
