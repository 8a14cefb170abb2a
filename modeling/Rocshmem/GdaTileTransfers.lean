import Rocshmem.TileCopies

/-! Tile put and get through the NIC: the workers of a call share the tile, each posts its part as
RDMA operations. Loops over `size_t` are followed for a number of turns, `fuel`. -/
namespace GdaTileTransfers

open BitVec Multiset TileCopies

structure Op where
  dst : Word
  src : Word
  bytes : Word
  deriving DecidableEq

def Op.copies (o : Op) : Multiset Copy := span o.dst o.src o.bytes.toNat

def copies (ops : List Op) : Multiset Copy := (ops : Multiset Op).bind Op.copies

def gdaTileUseMultiWqe (numChunks workerCount : ℕ) : Bool :=
  1 < workerCount && workerCount ≤ numChunks

def tileContigSlicesNbi (dst src bytes : Word) (workerId workerCount : ℕ) : List Op :=
  let kMinSlice : Word := 64
  if workerCount = 1 ∨ bytes < kMinSlice * (workerCount : Word) then
    if workerId = 0 ∧ bytes ≠ 0 then [⟨dst, src, bytes⟩] else []
  else
    let n : Word := workerCount
    let chunk := bytes / n
    let start := (workerId : Word) * chunk
    let len := if workerId = workerCount - 1 then bytes - start else chunk
    if len ≠ 0 then [⟨dst + start, src + start, len⟩] else []

def tileRowsNbi (dstBase srcBase dstRowStrideBytes srcRowStrideBytes numRows rowBytes : Word)
    (workerId workerCount fuel : ℕ) : List Op :=
  (sizeTurns workerCount numRows.toNat fuel workerId).map fun i : ℕ =>
    ⟨dstBase + (i : Word) * dstRowStrideBytes, srcBase + (i : Word) * srcRowStrideBytes, rowBytes⟩

def tileColsNbi (dstBase srcBase dstColStrideBytes srcColStrideBytes numCols colBytes : Word)
    (workerId workerCount fuel : ℕ) : List Op :=
  (sizeTurns workerCount numCols.toNat fuel workerId).map fun j : ℕ =>
    ⟨dstBase + (j : Word) * dstColStrideBytes, srcBase + (j : Word) * srcColStrideBytes, colBytes⟩

def tileStrided2dNbi (dstBase srcBase dstS0 dstS1 srcS0 srcS1 extent0 extent1 elementSize : Word)
    (workerId workerCount fuel : ℕ) : List Op :=
  let n := extent0 * extent1
  (sizeTurns workerCount n.toNat fuel workerId).map fun idx : ℕ =>
    let i := (idx : Word) / extent1
    let j := (idx : Word) % extent1
    ⟨dstBase + (i * dstS0 + j * dstS1) * elementSize,
      srcBase + (i * srcS0 + j * srcS1) * elementSize, elementSize⟩

def tileGdaWorkers (applyStartToDst : Bool) (t : Tile) (fuel workerCount workerId : ℕ) :
    List Op :=
  let view := tileMakeView t applyStartToDst
  let es := t.elementSize
  if t.ndim = 2 then
    match tileClassify view with
    | .contiguous =>
      tileContigSlicesNbi view.dstBase view.srcBase (view.ext0 * view.ext1 * es) workerId
        workerCount
    | .rowContig =>
      let rowBytes := view.ext1 * es
      if gdaTileUseMultiWqe view.ext0.toNat workerCount then
        tileRowsNbi view.dstBase view.srcBase (view.dstS0 * es) (view.srcS0 * es) view.ext0
          rowBytes workerId workerCount fuel
      else if workerId = 0 then
        (sizeTurns 1 view.ext0.toNat fuel 0).map fun i : ℕ =>
          ⟨view.dstBase + (i : Word) * view.dstS0 * es,
            view.srcBase + (i : Word) * view.srcS0 * es, rowBytes⟩
      else []
    | .colContig =>
      let colBytes := view.ext0 * es
      if gdaTileUseMultiWqe view.ext1.toNat workerCount then
        tileColsNbi view.dstBase view.srcBase (view.dstS1 * es) (view.srcS1 * es) view.ext1
          colBytes workerId workerCount fuel
      else if workerId = 0 then
        (sizeTurns 1 view.ext1.toNat fuel 0).map fun j : ℕ =>
          ⟨view.dstBase + (j : Word) * view.dstS1 * es,
            view.srcBase + (j : Word) * view.srcS1 * es, colBytes⟩
      else []
    | .strided =>
      let n := view.ext0 * view.ext1
      if gdaTileUseMultiWqe n.toNat workerCount then
        tileStrided2dNbi view.dstBase view.srcBase view.dstS0 view.dstS1 view.srcS0 view.srcS1
          view.ext0 view.ext1 es workerId workerCount fuel
      else if workerId = 0 then
        tileStrided2dNbi view.dstBase view.srcBase view.dstS0 view.dstS1 view.srcS0 view.srcS1
          view.ext0 view.ext1 es 0 1 fuel
      else []
  else if t.ndim = 1 then
    if view.srcS0 = 1 ∧ view.dstS0 = 1 then
      tileContigSlicesNbi view.dstBase view.srcBase (view.ext0 * es) workerId workerCount
    else if gdaTileUseMultiWqe view.ext0.toNat workerCount then
      tileRowsNbi view.dstBase view.srcBase (view.dstS0 * es) (view.srcS0 * es) view.ext0 es
        workerId workerCount fuel
    else if workerId = 0 then
      tileRowsNbi view.dstBase view.srcBase (view.dstS0 * es) (view.srcS0 * es) view.ext0 es
        0 1 fuel
    else []
  else []

def tilePutGdaWorkers : Tile → ℕ → ℕ → ℕ → List Op := tileGdaWorkers true

def tileGetGdaWorkers : Tile → ℕ → ℕ → ℕ → List Op := tileGdaWorkers false

section Splits

variable {n N fuel : ℕ}

theorem copies_map (op : ℕ → Op) (turns : List ℕ) :
    copies (turns.map op) = (turns : Multiset ℕ).bind fun i => (op i).copies := by
  rw [copies, ← map_coe, bind_map]

theorem bind_leader_ops (hn : 0 < n) (ops : List Op) :
    ((range n).bind fun w => copies (if w = 0 then ops else [])) = copies ops := by
  simp only [apply_ite copies]
  exact bind_leader hn (copies ops)

def split (op : ℕ → Op) (N fuel n w : ℕ) : List Op :=
  if gdaTileUseMultiWqe N n then (sizeTurns n N fuel w).map op
  else if w = 0 then (sizeTurns 1 N fuel 0).map op else []

theorem bind_split {op : ℕ → Op} {b : Word} (hn : 0 < n) (hint : n < 2 ^ 31)
    (hb : ∀ i, (op i).bytes = b) (hsize : N * b.toNat < 2 ^ 31) (hfuel : 2 ^ 31 ≤ fuel) :
    ((range n).bind fun w => copies (split op N fuel n w)) =
      (range N).bind fun i => (op i).copies := by
  rcases Nat.eq_zero_or_pos b.toNat with hzero | hpos
  · have hop : (fun i => (op i).copies) = fun _ => 0 := by
      funext i
      rw [Op.copies, hb, hzero]
      rfl
    have hsplit (w : ℕ) : copies (split op N fuel n w) = 0 := by
      rw [split]
      split_ifs
      · rw [copies_map, hop, bind_zero]
      · rw [copies_map, hop, bind_zero]
      · rfl
    rw [hop, bind_zero, ← bind_zero (range n)]
    exact bind_congr fun w _ => hsplit w
  · have hN : N < 2 ^ 31 := lt_of_le_of_lt (Nat.le_mul_of_pos_right N hpos) hsize
    unfold split
    split
    · rw [← bind_sizeTurns_all hn (by omega : N ≤ fuel) (by omega)]
      exact bind_congr fun w _ => copies_map op _
    · rw [bind_leader_ops hn, copies_map,
        ← bind_sizeTurns_all one_pos (by omega : N ≤ fuel) (by omega) fun i => (op i).copies,
        show range 1 = {0} from rfl, singleton_bind]

end Splits

section Slices

variable {d s bytes : Word} {n : ℕ}

theorem copies_slice {dst src len : Word} :
    copies (if len ≠ 0 then [⟨dst, src, len⟩] else []) = span dst src len.toNat := by
  split
  next => simp [copies, Op.copies]
  next h => rw [not_not.mp h]; rfl

theorem bind_slices (hn : 0 < n) (hint : n < 2 ^ 31) (hbytes : bytes.toNat < 2 ^ 31) :
    ((range n).bind fun w => copies (tileContigSlicesNbi d s bytes w n)) =
      span d s bytes.toNat := by
  simp only [tileContigSlicesNbi]
  split
  · have hlead (w : ℕ) : (if w = 0 ∧ bytes ≠ 0 then [Op.mk d s bytes] else []) =
        if w = 0 then (if bytes ≠ 0 then [Op.mk d s bytes] else []) else [] := by
      split_ifs <;> simp_all
    simp only [hlead]
    rw [bind_leader_ops hn, copies_slice]
  · obtain ⟨m, rfl⟩ : ∃ m, n = m + 1 := ⟨n - 1, by omega⟩
    simp only [copies_slice]
    have hcast : ((m + 1 : ℕ) : Word).toNat = m + 1 := by
      rw [natCast_eq_ofNat, toNat_ofNat, Nat.mod_eq_of_lt (by omega)]
    set chunk := bytes / ((m + 1 : ℕ) : Word) with hchunk
    have hdiv : chunk.toNat = bytes.toNat / (m + 1) := by rw [hchunk, toNat_udiv, hcast]
    have hle : m * chunk.toNat ≤ bytes.toNat := by
      have hall := Nat.mul_div_le bytes.toNat (m + 1)
      rw [← hdiv, Nat.add_mul] at hall
      omega
    have hstart : ((m : Word) * chunk).toNat = m * chunk.toNat := by
      rw [toNat_mul, natCast_eq_ofNat, toNat_ofNat,
        Nat.mod_eq_of_lt (by omega : m < 2 ^ 64), Nat.mod_eq_of_lt (by omega)]
    have hlen : (bytes - (m : Word) * chunk).toNat = bytes.toNat - m * chunk.toNat := by
      rw [← hstart]
      exact toNat_sub_of_le (BitVec.le_def.mpr (hstart ▸ hle))
    rw [range_succ, cons_bind, if_pos (by omega), hlen, add_comm,
      ← Nat.add_sub_cancel' hle, span_add, Nat.add_sub_cancel_left, span_mul, Nat.cast_mul,
      natCast_toNat]
    congr 1
    refine bind_congr fun w hw => ?_
    have hw := mem_range.mp hw
    rw [if_neg (by omega)]

end Slices

section Workers

variable {t : Tile} {put : Bool} {fuel n w : ℕ} {v : TileView}

theorem toNat_mul_le (a b : Word) : (a * b).toNat ≤ a.toNat * b.toNat := by
  rw [toNat_mul]
  exact Nat.mod_le _ _

theorem bind_pieces {op : ℕ → Op} {piece : ℕ → Multiset Copy} {N : ℕ} {a b : Word} (hn : 0 < n)
    (hint : n < 2 ^ 31) (hb : ∀ i, (op i).bytes = a * b)
    (hsize : N * (a.toNat * b.toNat) < 2 ^ 31) (hfuel : 2 ^ 31 ≤ fuel)
    (hpiece : ∀ i, piece i = span (op i).dst (op i).src (a.toNat * b.toNat)) :
    ((range n).bind fun w => copies (split op N fuel n w)) = (range N).bind piece := by
  have hle : N * (a * b).toNat ≤ N * (a.toNat * b.toNat) := Nat.mul_le_mul_left N (toNat_mul_le a b)
  rw [bind_split hn hint hb (lt_of_le_of_lt hle hsize) hfuel]
  refine bind_congr fun i hi => ?_
  have hone : 1 * (a.toNat * b.toNat) ≤ N * (a.toNat * b.toNat) :=
    Nat.mul_le_mul_right _ (Nat.zero_lt_of_lt (mem_range.mp hi))
  rw [Op.copies, hb, hpiece, toNat_mul_of_lt (by omega)]

theorem toNat_natCast {x : ℕ} (hx : x < 2 ^ 64) : (x : Word).toNat = x := by
  rw [natCast_eq_ofNat, toNat_ofNat, Nat.mod_eq_of_lt hx]

theorem natCast_div {x : ℕ} (hx : x < 2 ^ 64) (e : Word) :
    ((x / e.toNat : ℕ) : Word) = (x : Word) / e := by
  have hle := Nat.div_le_self x e.toNat
  apply eq_of_toNat_eq
  rw [toNat_udiv, toNat_natCast hx, toNat_natCast (by omega)]

theorem natCast_mod {x : ℕ} (hx : x < 2 ^ 64) (e : Word) :
    ((x % e.toNat : ℕ) : Word) = (x : Word) % e := by
  have hle := Nat.mod_le x e.toNat
  apply eq_of_toNat_eq
  rw [toNat_umod, toNat_natCast hx, toNat_natCast (by omega)]

theorem bind_indices (hsize : v.ext0.toNat * v.ext1.toNat * v.elementSize.toNat < 2 ^ 31) :
    ((range (v.ext0 * v.ext1).toNat).bind fun idx : ℕ => span
      (v.dstBase + ((idx : Word) / v.ext1 * v.dstS0 + (idx : Word) % v.ext1 * v.dstS1) *
        v.elementSize)
      (v.srcBase + ((idx : Word) / v.ext1 * v.srcS0 + (idx : Word) % v.ext1 * v.srcS1) *
        v.elementSize) v.elementSize.toNat) = (range (v.ext0.toNat * v.ext1.toNat)).bind fun idx =>
      v.element (idx / v.ext1.toNat) (idx % v.ext1.toNat) := by
  rcases Nat.eq_zero_or_pos v.elementSize.toNat with hzero | hpos
  · simp only [TileView.element, hzero]
    exact (bind_zero _).trans (bind_zero _).symm
  · have hcount : v.ext0.toNat * v.ext1.toNat < 2 ^ 31 :=
      lt_of_le_of_lt (Nat.le_mul_of_pos_right _ hpos) hsize
    rw [toNat_mul_of_lt (by omega)]
    refine bind_congr fun idx hidx => ?_
    have hlt : idx < 2 ^ 64 := by
      have hidx := mem_range.mp hidx
      omega
    rw [TileView.element, natCast_div hlt, natCast_mod hlt]

theorem plane_workers (hdim : t.ndim = 2) (hv : tileMakeView t put = v)
    (hsize : v.size < 2 ^ 31) (hn : 0 < n) (hint : n < 2 ^ 31) (hfuel : 2 ^ 31 ≤ fuel) :
    ((range n).bind fun w => copies (tileGdaWorkers put t fuel n w)) = v.copies := by
  have hvdim : v.ndim = 2 := by rw [← hv, ndim_tileMakeView, hdim]
  have hes : t.elementSize = v.elementSize := by rw [← hv, elementSize_tileMakeView]
  rw [TileView.size, if_pos hvdim] at hsize
  rw [copies_of_plane hvdim]
  simp only [tileGdaWorkers, hv, hdim, hes, if_true]
  cases tileClassify v with
  | contiguous =>
    have hplane : (v.ext0 * v.ext1 * v.elementSize).toNat =
        v.ext0.toNat * (v.ext1.toNat * v.elementSize.toNat) := by
      rw [toNat_mul, toNat_mul, Nat.mod_mul_mod, Nat.mod_eq_of_lt (by omega), mul_assoc]
    rw [← hplane]
    refine bind_slices hn hint ?_
    rw [hplane, ← mul_assoc]
    exact hsize
  | rowContig =>
    simp only [tileRowsNbi, ← mul_assoc]
    exact bind_pieces hn hint (fun _ => rfl) (by rw [← mul_assoc]; exact hsize) hfuel
      fun _ => rfl
  | colContig =>
    simp only [tileColsNbi, ← mul_assoc]
    refine bind_pieces hn hint (fun _ => rfl) ?_ hfuel fun _ => rfl
    rw [← mul_assoc, mul_comm v.ext1.toNat]
    exact hsize
  | strided =>
    simp only [tileStrided2dNbi]
    have hle : (v.ext0 * v.ext1).toNat * v.elementSize.toNat ≤
        v.ext0.toNat * v.ext1.toNat * v.elementSize.toNat :=
      Nat.mul_le_mul_right _ (toNat_mul_le _ _)
    exact Eq.trans (bind_split (b := v.elementSize) hn hint (fun _ => rfl)
      (lt_of_le_of_lt hle hsize) hfuel) (bind_indices hsize)

theorem line_workers (hdim : t.ndim = 1) (hv : tileMakeView t put = v)
    (hsize : v.size < 2 ^ 31) (hn : 0 < n) (hint : n < 2 ^ 31) (hfuel : 2 ^ 31 ≤ fuel) :
    ((range n).bind fun w => copies (tileGdaWorkers put t fuel n w)) = v.copies := by
  have hvdim : v.ndim ≠ 2 := by rw [← hv, ndim_tileMakeView, hdim]; decide
  have hes : t.elementSize = v.elementSize := by rw [← hv, elementSize_tileMakeView]
  rw [TileView.size, if_neg hvdim] at hsize
  simp only [tileGdaWorkers, hv, hdim, hes, OfNat.one_ne_ofNat, if_true, if_false]
  split
  next hunit =>
    have hline : (v.ext0 * v.elementSize).toNat = v.ext0.toNat * v.elementSize.toNat :=
      toNat_mul_of_lt (by omega)
    rw [copies_of_line hvdim hunit.1 hunit.2, ← hline]
    exact bind_slices hn hint (hline ▸ hsize)
  next =>
    simp only [tileRowsNbi, ← mul_assoc]
    refine Eq.trans (bind_split (b := v.elementSize) hn hint (fun _ => rfl) hsize hfuel) ?_
    rw [TileView.copies, if_neg hvdim]
    refine bind_congr fun i _ => ?_
    rw [TileView.element, Op.copies]
    congr 1 <;> ring

/-- All workers together move each element of the tile once, and no other byte. -/
theorem tile_gda_workers_exact (put : Bool) (t : Tile) (hordered : t.Ordered)
    (hdim : t.ndim = 1 ∨ t.ndim = 2) (hsize : t.size < 2 ^ 31) (n : ℕ) (hn : 0 < n)
    (hint : n < 2 ^ 31) : ∃ turns, ∀ fuel ≥ turns,
    ((range n).bind fun w => copies (if put then tilePutGdaWorkers t fuel n w
      else tileGetGdaWorkers t fuel n w)) = t.reference put := by
  refine ⟨2 ^ 31, fun fuel hfuel => ?_⟩
  have hview : (tileMakeView t put).size < 2 ^ 31 := by rwa [size_tileMakeView hordered hdim]
  have hput (w : ℕ) : (if put then tilePutGdaWorkers t fuel n w
      else tileGetGdaWorkers t fuel n w) = tileGdaWorkers put t fuel n w := by
    cases put <;> rfl
  simp only [hput]
  rw [← copies_tileMakeView hordered hdim]
  rcases hdim with hdim | hdim
  · exact line_workers hdim rfl hview hn hint hfuel
  · exact plane_workers hdim rfl hview hn hint hfuel

def paddedTile : Tile where
  dstData := 4096
  srcData := 65536
  dstStrides k := if k = 0 then 8 else 1
  srcStrides k := if k = 0 then 3 else 1
  startCoord k := if k = 0 then 2 else 4
  boundary _ := 7
  ndim := 2
  elementSize := 4

theorem padded_tile_exact : ∃ turns, ∀ fuel ≥ turns,
    ((range 4).bind fun w => copies (tilePutGdaWorkers paddedTile fuel 4 w)) =
      paddedTile.reference true :=
  tile_gda_workers_exact true paddedTile (by decide) (.inr rfl) (by decide) 4 (by decide)
    (by decide)

end Workers

end GdaTileTransfers
