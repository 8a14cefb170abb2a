import Rocshmem.ThreadPutPartition

/-! Tiles of one or two dimensions, and the byte copies that move one. The copies are counted: a
copy of the same byte twice is not the same as once. -/
namespace TileCopies

open ThreadPutPartition (turnsFrom exists_of_mem_turnsFrom mem_turnsFrom nodup_turnsFrom)
open Multiset

section Turns

variable {α : Type*} {n N r w fuel : ℕ}

theorem turnsFrom_eq (hw : w < n) (hfuel : N ≤ fuel) :
    (turnsFrom n N fuel w : Multiset ℕ) = (range N).filter fun i => i % n = w := by
  have hn : 0 < n := Nat.zero_lt_of_lt hw
  have hnodup : Nodup (turnsFrom n N fuel w : Multiset ℕ) := coe_nodup.mpr (nodup_turnsFrom hn w)
  refine (Nodup.ext hnodup ((nodup_range N).filter _)).mpr fun i => ?_
  rw [mem_filter, mem_range]
  constructor
  · intro hi
    obtain ⟨hlt, k, rfl⟩ := exists_of_mem_turnsFrom hi
    rw [Nat.add_mul_mod_self_right, Nat.mod_eq_of_lt hw]
    exact ⟨hlt, rfl⟩
  · rintro ⟨hlt, hi⟩
    have hdiv := Nat.mod_add_div' i n
    exact mem_turnsFrom (n := i / n) hn (by omega) hlt (by rw [← hi]; exact hdiv.symm)

theorem bind_turnsFrom (hr : r ≤ n) (hfuel : N ≤ fuel) :
    ((range r).bind fun w => (turnsFrom n N fuel w : Multiset ℕ)) =
      (range N).filter fun i => i % n < r := by
  induction r with
  | zero => simp
  | succ r ih =>
    have hsplit := filter_add_filter (fun i => i % n = r) (fun i => i % n < r) (range N)
    have hnone : (range N).filter (fun i => i % n = r ∧ i % n < r) = 0 :=
      filter_eq_nil.mpr fun i _ h => by omega
    rw [range_succ, cons_bind, turnsFrom_eq hr hfuel, ih (Nat.le_of_succ_le hr), hsplit, hnone,
      add_zero]
    exact filter_congr fun i _ => by omega

def sizeTurns (n N : ℕ) : ℕ → ℕ → List ℕ
  | 0, _ => []
  | fuel + 1, i => if i < N then i :: sizeTurns n N fuel ((i + n) % 2 ^ 64) else []

theorem sizeTurns_eq (hwrap : N + n ≤ 2 ^ 64) (i : ℕ) :
    sizeTurns n N fuel i = turnsFrom n N fuel i := by
  induction fuel generalizing i with
  | zero => rfl
  | succ fuel ih =>
    rw [sizeTurns, turnsFrom]
    split
    next hlt => rw [Nat.mod_eq_of_lt (by omega), ih]
    next => rfl

theorem bind_sizeTurns (hr : r ≤ n) (hfuel : N ≤ fuel) (hwrap : N + n ≤ 2 ^ 64)
    (f : ℕ → Multiset α) : ((range r).bind fun w => (sizeTurns n N fuel w : Multiset ℕ).bind f) =
      ((range N).filter fun i => i % n < r).bind f := by
  rw [← bind_turnsFrom hr hfuel, bind_assoc]
  exact bind_congr fun w _ => by rw [sizeTurns_eq hwrap]

theorem bind_sizeTurns_all (hn : 0 < n) (hfuel : N ≤ fuel) (hwrap : N + n ≤ 2 ^ 64)
    (f : ℕ → Multiset α) :
    ((range n).bind fun w => (sizeTurns n N fuel w : Multiset ℕ).bind f) = (range N).bind f := by
  rw [bind_sizeTurns le_rfl hfuel hwrap, filter_eq_self.mpr fun i _ => Nat.mod_lt i hn]

theorem bind_leader (hn : 0 < n) (c : Multiset α) :
    ((range n).bind fun w => if w = 0 then c else 0) = c := by
  obtain ⟨m, rfl⟩ : ∃ m, n = 1 + m := ⟨n - 1, by omega⟩
  have hrest : ((range m).bind fun w => if 1 + w = 0 then c else 0) = 0 :=
    (bind_congr fun w _ => if_neg (by omega)).trans (bind_zero _)
  rw [range_add, add_bind, bind_map, hrest, add_zero, show range 1 = {0} from rfl, singleton_bind,
    if_pos rfl]

theorem card_bind_of_const {s : Multiset ℕ} {f : ℕ → Multiset α} {k : ℕ}
    (h : ∀ i, (f i).card = k) : (s.bind f).card = s.card * k := by
  rw [card_bind, Function.comp_def]
  simp only [h, map_const', sum_replicate]
  rfl

theorem range_mul (m n : ℕ) (f : ℕ → Multiset α) :
    (range (m * n)).bind f = (range m).bind fun i => (range n).bind fun j => f (i * n + j) := by
  induction m with
  | zero => simp
  | succ m ih =>
    rw [Nat.succ_mul, range_add, add_bind, ih, range_succ, cons_bind, bind_map, add_comm]

end Turns

abbrev Word := BitVec 64

abbrev Copy := Word × Word

theorem natCast_toNat (x : Word) : (x.toNat : Word) = x := by
  rw [BitVec.natCast_eq_ofNat, BitVec.ofNat_toNat, BitVec.setWidth_eq]

section Spans

variable (d s : Word)

def span (len : ℕ) : Multiset Copy := (range len).map fun b : ℕ => (d + (b : Word), s + (b : Word))

theorem card_span (len : ℕ) : (span d s len).card = len := by rw [span, card_map, card_range]

theorem span_add (a b : ℕ) :
    span d s (a + b) = span d s a + span (d + (a : Word)) (s + (a : Word)) b := by
  rw [span, range_add, map_add, map_map]
  congr 1
  refine map_congr rfl fun i _ => ?_
  simp only [Function.comp_apply, Nat.cast_add, add_assoc]

theorem span_mul (m len : ℕ) : span d s (m * len) =
    (range m).bind fun i => span (d + (i : Word) * len) (s + (i : Word) * len) len := by
  induction m with
  | zero => simp [span]
  | succ m ih =>
    rw [Nat.succ_mul, span_add, ih, range_succ, cons_bind, add_comm, Nat.cast_mul]

end Spans

structure Tile where
  dstData : Word
  srcData : Word
  dstStrides : ℕ → Word
  srcStrides : ℕ → Word
  startCoord : ℕ → Word
  boundary : ℕ → Word
  ndim : ℕ
  elementSize : Word

inductive TileLayout where
  | contiguous
  | rowContig
  | colContig
  | strided
  deriving DecidableEq

structure TileView where
  srcBase : Word
  dstBase : Word
  ext0 : Word
  ext1 : Word
  srcS0 : Word
  srcS1 : Word
  dstS0 : Word
  dstS1 : Word
  elementSize : Word
  ndim : ℕ

def tileClassify2d (srcStride0 srcStride1 dstStride0 dstStride1 extent1 : Word) : TileLayout :=
  let rowContig := srcStride1 = 1 ∧ dstStride1 = 1
  let colContig := srcStride0 = 1 ∧ dstStride0 = 1
  if rowContig ∧ srcStride0 = extent1 ∧ dstStride0 = extent1 then .contiguous
  else if rowContig then .rowContig
  else if colContig then .colContig
  else .strided

def tileClassify (view : TileView) : TileLayout :=
  if view.ndim = 2 then
    tileClassify2d view.srcS0 view.srcS1 view.dstS0 view.dstS1 view.ext1
  else if view.ndim = 1 ∧ view.srcS0 = 1 ∧ view.dstS0 = 1 then .contiguous
  else .strided

def tileMakeView (t : Tile) (applyStartToDst : Bool) : TileView :=
  if t.ndim = 2 then
    let srcOff := (t.startCoord 0 * t.srcStrides 0 + t.startCoord 1 * t.srcStrides 1) *
      t.elementSize
    let dstOff := (t.startCoord 0 * t.dstStrides 0 + t.startCoord 1 * t.dstStrides 1) *
      t.elementSize
    ⟨if applyStartToDst then t.srcData else t.srcData + srcOff,
      if applyStartToDst then t.dstData + dstOff else t.dstData,
      t.boundary 0 - t.startCoord 0, t.boundary 1 - t.startCoord 1, t.srcStrides 0,
      t.srcStrides 1, t.dstStrides 0, t.dstStrides 1, t.elementSize, 2⟩
  else if t.ndim = 1 then
    ⟨if applyStartToDst then t.srcData else t.srcData + t.startCoord 0 * t.srcStrides 0 *
        t.elementSize,
      if applyStartToDst then t.dstData + t.startCoord 0 * t.dstStrides 0 * t.elementSize
        else t.dstData,
      t.boundary 0 - t.startCoord 0, 0, t.srcStrides 0, 0, t.dstStrides 0, 0, t.elementSize, 1⟩
  else ⟨t.srcData, t.dstData, 0, 0, 0, 0, 0, 0, t.elementSize, t.ndim⟩

namespace Tile

variable (t : Tile)

def Ordered : Prop := ∀ k < t.ndim, t.startCoord k ≤ t.boundary k

instance : Decidable t.Ordered := inferInstanceAs (Decidable (∀ k < t.ndim, _ ≤ _))

def extent (k : ℕ) : ℕ := (t.boundary k).toNat - (t.startCoord k).toNat

def size : ℕ :=
  (if t.ndim = 2 then t.extent 0 * t.extent 1 else t.extent 0) * t.elementSize.toNat

def address (data : Word) (strides : ℕ → Word) (i j : Word) : Word :=
  data + (i * strides 0 + if t.ndim = 2 then j * strides 1 else 0) * t.elementSize

def elementCopies (put : Bool) (i j : ℕ) : Multiset Copy :=
  let shift (remote : Bool) (k : ℕ) (x : ℕ) : Word :=
    if remote then t.startCoord k + (x : Word) else (x : Word)
  span (t.address t.dstData t.dstStrides (shift put 0 i) (shift put 1 j))
    (t.address t.srcData t.srcStrides (shift (!put) 0 i) (shift (!put) 1 j)) t.elementSize.toNat

def reference (put : Bool) : Multiset Copy :=
  if t.ndim = 2 then
    (range (t.extent 0)).bind fun i => (range (t.extent 1)).bind fun j => t.elementCopies put i j
  else (range (t.extent 0)).bind fun i => t.elementCopies put i 0

end Tile

namespace TileView

variable (v : TileView)

def size : ℕ :=
  (if v.ndim = 2 then v.ext0.toNat * v.ext1.toNat else v.ext0.toNat) * v.elementSize.toNat

def element (i j : ℕ) : Multiset Copy :=
  span (v.dstBase + ((i : Word) * v.dstS0 + (j : Word) * v.dstS1) * v.elementSize)
    (v.srcBase + ((i : Word) * v.srcS0 + (j : Word) * v.srcS1) * v.elementSize)
    v.elementSize.toNat

def copies : Multiset Copy :=
  if v.ndim = 2 then
    (range v.ext0.toNat).bind fun i => (range v.ext1.toNat).bind fun j => v.element i j
  else (range v.ext0.toNat).bind fun i => v.element i 0

end TileView

section Views

variable {t : Tile} {put : Bool}

@[simp] theorem ndim_tileMakeView : (tileMakeView t put).ndim = t.ndim := by
  grind [tileMakeView]

@[simp] theorem elementSize_tileMakeView : (tileMakeView t put).elementSize = t.elementSize := by
  rw [tileMakeView]
  split_ifs <;> rfl

theorem ext_eq (h : t.Ordered) {k : ℕ} (hk : k < t.ndim) :
    (t.boundary k - t.startCoord k).toNat = t.extent k := BitVec.toNat_sub_of_le (h k hk)

theorem size_tileMakeView (h : t.Ordered) (hdim : t.ndim = 1 ∨ t.ndim = 2) :
    (tileMakeView t put).size = t.size := by
  grind [Tile.size, tileMakeView, TileView.size, ext_eq]

theorem copies_tileMakeView (h : t.Ordered) (hdim : t.ndim = 1 ∨ t.ndim = 2) :
    (tileMakeView t put).copies = t.reference put := by
  rcases hdim with hdim | hdim
  · have h0 := ext_eq h (k := 0) (by omega)
    simp only [tileMakeView, TileView.copies, Tile.reference, hdim, OfNat.one_ne_ofNat, if_false,
      if_true, h0]
    refine bind_congr fun i _ => ?_
    cases put <;>
      simp only [TileView.element, Tile.elementCopies, Tile.address, hdim, Bool.not_true,
        Bool.not_false, Bool.false_eq_true, OfNat.one_ne_ofNat, if_false, if_true] <;>
      congr 1 <;> ring
  · have h0 := ext_eq h (k := 0) (by omega)
    have h1 := ext_eq h (k := 1) (by omega)
    simp only [tileMakeView, TileView.copies, Tile.reference, hdim, if_true, h0, h1]
    refine bind_congr fun i _ => bind_congr fun j _ => ?_
    cases put <;>
      simp only [TileView.element, Tile.elementCopies, Tile.address, hdim, Bool.not_true,
        Bool.not_false, Bool.false_eq_true, if_false, if_true] <;>
      congr 1 <;> ring

end Views

section Layouts

variable {v : TileView}

def TileView.row (v : TileView) (i : ℕ) : Multiset Copy :=
  span (v.dstBase + (i : Word) * v.dstS0 * v.elementSize)
    (v.srcBase + (i : Word) * v.srcS0 * v.elementSize) (v.ext1.toNat * v.elementSize.toNat)

def TileView.col (v : TileView) (j : ℕ) : Multiset Copy :=
  span (v.dstBase + (j : Word) * v.dstS1 * v.elementSize)
    (v.srcBase + (j : Word) * v.srcS1 * v.elementSize) (v.ext0.toNat * v.elementSize.toNat)

open TileView (row copies element)

theorem bind_row (hsrc : v.srcS1 = 1) (hdst : v.dstS1 = 1) (i : ℕ) :
    ((range v.ext1.toNat).bind fun j => v.element i j) = v.row i := by
  rw [row, span_mul]
  refine bind_congr fun j _ => ?_
  rw [element, hsrc, hdst, natCast_toNat]
  congr 1 <;> ring

theorem bind_col (hsrc : v.srcS0 = 1) (hdst : v.dstS0 = 1) (j : ℕ) :
    ((range v.ext0.toNat).bind fun i => v.element i j) = v.col j := by
  rw [TileView.col, span_mul]
  refine bind_congr fun i _ => ?_
  rw [element, hsrc, hdst, natCast_toNat]
  congr 1 <;> ring

theorem bind_rows (hsrc : v.srcS0 = v.ext1) (hdst : v.dstS0 = v.ext1) :
    (range v.ext0.toNat).bind v.row =
      span v.dstBase v.srcBase (v.ext0.toNat * (v.ext1.toNat * v.elementSize.toNat)) := by
  rw [span_mul]
  refine bind_congr fun i _ => ?_
  rw [row, hsrc, hdst, Nat.cast_mul, natCast_toNat, natCast_toNat]
  congr 1 <;> ring

theorem bind_elements (v : TileView) :
    ((range v.ext0.toNat).bind fun i => (range v.ext1.toNat).bind fun j => v.element i j) =
      (range (v.ext0.toNat * v.ext1.toNat)).bind fun idx =>
        v.element (idx / v.ext1.toNat) (idx % v.ext1.toNat) := by
  rw [range_mul]
  refine bind_congr fun i _ => bind_congr fun j hj => ?_
  have hj := mem_range.mp hj
  have hpos : 0 < v.ext1.toNat := Nat.zero_lt_of_lt hj
  rw [Nat.add_comm, Nat.add_mul_div_right _ _ hpos, Nat.div_eq_of_lt hj, Nat.zero_add,
    Nat.add_mul_mod_self_right, Nat.mod_eq_of_lt hj]

theorem copies_of_plane (hdim : v.ndim = 2) : v.copies = match tileClassify v with
    | .contiguous => span v.dstBase v.srcBase (v.ext0.toNat * (v.ext1.toNat * v.elementSize.toNat))
    | .rowContig => (range v.ext0.toNat).bind v.row
    | .colContig => (range v.ext1.toNat).bind v.col
    | .strided => (range (v.ext0.toNat * v.ext1.toNat)).bind fun idx =>
        v.element (idx / v.ext1.toNat) (idx % v.ext1.toNat) := by
  have hrows (hsrc : v.srcS1 = 1) (hdst : v.dstS1 = 1) :
      v.copies = (range v.ext0.toNat).bind v.row := by
    rw [copies, if_pos hdim]
    exact bind_congr fun i _ => bind_row hsrc hdst i
  rw [tileClassify, if_pos hdim, tileClassify2d]
  split_ifs with hcontig hrow hcol
  · rw [hrows hcontig.1.1 hcontig.1.2]
    exact bind_rows hcontig.2.1 hcontig.2.2
  · exact hrows hrow.1 hrow.2
  · rw [copies, if_pos hdim, bind_bind]
    exact bind_congr fun j _ => bind_col hcol.1 hcol.2 j
  · rw [copies, if_pos hdim]
    exact bind_elements v

theorem copies_of_line (hdim : v.ndim ≠ 2) (hsrc : v.srcS0 = 1) (hdst : v.dstS0 = 1) :
    v.copies = span v.dstBase v.srcBase (v.ext0.toNat * v.elementSize.toNat) := by
  rw [copies, if_neg hdim, span_mul]
  refine bind_congr fun i _ => ?_
  rw [element, hsrc, hdst, natCast_toNat]
  congr 1 <;> ring

end Layouts

end TileCopies
