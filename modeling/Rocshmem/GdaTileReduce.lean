import Rocshmem.MixedRadix
import Rocshmem.TileCopies

/-! `tile_reduce_typed` of the GDA conduit. The elements of a tile of any rank are numbered, and
the numbers cut into segments that fit the members' parts of the root's `pWrk`. For every segment
the members put their elements to the root and a flag behind them, the root reduces, and all
synchronize. -/
namespace GdaTileReduce

open List MatchedPrograms
open TileCopies (Word sizeTurns natCast_toNat)

structure Box where
  startCoord : ℕ → Word
  boundary : ℕ → Word
  ndim : ℕ

namespace Box

variable (b : Box)

def extent (dim : ℕ) : Word := b.boundary dim - b.startCoord dim

def numElementsFrom : List ℕ → Word → Word
  | [], total => total
  | dim :: dims, total =>
    if b.boundary dim < b.startCoord dim then 0
    else if b.extent dim ≠ 0 ∧ BitVec.allOnes 64 / b.extent dim < total then 0
    else numElementsFrom dims (total * b.extent dim)

def gdaTileNumElements : Word := b.numElementsFrom (range b.ndim) 1

variable (strides : ℕ → Word)

def offsetFrom : ℕ → Word → Word
  | 0, _ => 0
  | dim + 1, flatIdx =>
    (b.startCoord dim + flatIdx % b.extent dim) * strides dim +
      offsetFrom dim (flatIdx / b.extent dim)

def gdaTileDstOffset (flatIdx : Word) : Word := b.offsetFrom strides b.ndim flatIdx

def gdaTileSrcOffset (flatIdx : Word) : Word := b.offsetFrom strides b.ndim flatIdx

def contiguousFrom : ℕ → Word → Bool
  | 0, _ => true
  | dim + 1, expectedStride =>
    if strides dim ≠ expectedStride then false
    else contiguousFrom dim (expectedStride * b.extent dim)

def gdaTileIsContiguous : Bool := b.contiguousFrom strides b.ndim 1

def NonInverted : Prop := ∀ dim < b.ndim, b.startCoord dim ≤ b.boundary dim

instance : Decidable b.NonInverted := inferInstanceAs (Decidable (∀ dim < b.ndim, _ ≤ _))

def count : ℕ := ∏ dim ∈ Finset.range b.ndim, (b.extent dim).toNat

def coord (idx dim : ℕ) : ℕ := MixedRadix.digit (fun k => (b.extent k).toNat) b.ndim idx dim

def position (x : ℕ → ℕ) : Word :=
  ∑ dim ∈ Finset.range b.ndim, (b.startCoord dim + (x dim : Word)) * strides dim

end Box

section Boxes

variable {b : Box} {strides : ℕ → Word}

theorem overflow_iff (total extent : Word) :
    extent ≠ 0 ∧ BitVec.allOnes 64 / extent < total ↔ 2 ^ 64 ≤ total.toNat * extent.toNat := by
  by_cases hzero : extent = 0
  · simp [hzero]
  · have hpos : 0 < extent.toNat := pos_of_ne_zero fun h => hzero (BitVec.eq_of_toNat_eq h)
    rw [and_iff_right hzero, BitVec.lt_def, BitVec.toNat_udiv, BitVec.toNat_allOnes,
      Nat.div_lt_iff_lt_mul hpos]
    omega

theorem numElementsFrom_eq (dims : List ℕ) (total : Word) : (b.numElementsFrom dims total).toNat =
      if (∀ dim ∈ dims, b.startCoord dim ≤ b.boundary dim) ∧
        total.toNat * (dims.map fun dim => (b.extent dim).toNat).prod < 2 ^ 64
      then total.toNat * (dims.map fun dim => (b.extent dim).toNat).prod else 0 := by
  induction dims generalizing total with
  | nil => simp [Box.numElementsFrom, total.isLt]
  | cons dim dims ih =>
    rw [Box.numElementsFrom]
    simp only [forall_mem_cons, map_cons, prod_cons, ← mul_assoc]
    by_cases hinv : b.boundary dim < b.startCoord dim
    · have hnot : ¬b.startCoord dim ≤ b.boundary dim := BitVec.not_le.mpr hinv
      simp [hinv, hnot]
    have hle : b.startCoord dim ≤ b.boundary dim := BitVec.not_lt.mp hinv
    rw [if_neg hinv]
    simp only [overflow_iff]
    by_cases hover : 2 ^ 64 ≤ total.toNat * (b.extent dim).toNat
    · -- a product that is too large already becomes small again only through an empty dimension
      rw [if_pos hover]
      change 0 = _
      split
      next hsmall =>
        rcases Nat.eq_zero_or_pos (dims.map fun dim => (b.extent dim).toNat).prod with hz | hz
        · rw [hz, mul_zero]
        · have hle := Nat.le_mul_of_pos_right (total.toNat * (b.extent dim).toNat) hz
          omega
      next => rfl
    · rw [if_neg hover, ih, BitVec.toNat_mul_of_lt (by omega)]
      simp only [hle, true_and]

theorem gdaTileNumElements_eq (b : Box) : b.gdaTileNumElements.toNat =
    if b.NonInverted ∧ b.count < 2 ^ 64 then b.count else 0 := by
  have hprod : b.count = ((range b.ndim).map fun dim => (b.extent dim).toNat).prod := rfl
  have hone : (1 : Word).toNat = 1 := rfl
  rw [Box.gdaTileNumElements, numElementsFrom_eq, hone, one_mul, ← hprod]
  exact if_congr (by simp only [mem_range, Box.NonInverted]) rfl rfl

theorem mod_add_mul_div (x e : Word) : x % e + e * (x / e) = x := by
  apply BitVec.eq_of_toNat_eq
  have hsplit := Nat.mod_add_div x.toNat e.toNat
  have hlt := x.isLt
  have hmul : (e * (x / e)).toNat = e.toNat * (x.toNat / e.toNat) := by
    rw [BitVec.toNat_mul, BitVec.toNat_udiv, Nat.mod_eq_of_lt (by omega)]
  rw [BitVec.toNat_add, hmul, BitVec.toNat_umod, hsplit, Nat.mod_eq_of_lt hlt]

theorem offsetFrom_of_contiguous {dim : ℕ} {stride x : Word}
    (h : b.contiguousFrom strides dim stride = true)
    (hx : x.toNat < ∏ k ∈ Finset.range dim, (b.extent k).toNat) :
    b.offsetFrom strides dim x = b.offsetFrom strides dim 0 + stride * x := by
  induction dim generalizing stride x with
  | zero =>
    obtain rfl : x = 0 := BitVec.eq_of_toNat_eq (by simpa using hx)
    rw [mul_zero, add_zero]
  | succ dim ih =>
    rw [Box.contiguousFrom] at h
    split at h
    next => cases h
    next hstride =>
      have hdiv : (x / b.extent dim).toNat < ∏ k ∈ Finset.range dim, (b.extent k).toNat := by
        rw [BitVec.toNat_udiv]
        exact MixedRadix.div_lt (e := fun k => (b.extent k).toNat) hx
      have hsplit := mod_add_mul_div x (b.extent dim)
      have hzero : (0 : Word) / b.extent dim = 0 ∧ (0 : Word) % b.extent dim = 0 :=
        ⟨BitVec.zero_udiv, BitVec.zero_umod⟩
      rw [Box.offsetFrom, Box.offsetFrom, ih h hdiv, hzero.1, hzero.2, not_not.mp hstride]
      nth_rewrite 3 [← hsplit]
      ring

theorem offsetFrom_eq (dim : ℕ) (x : Word) : b.offsetFrom strides dim x =
    ∑ k ∈ Finset.range dim, (b.startCoord k +
      (MixedRadix.digit (fun k => (b.extent k).toNat) dim x.toNat k : Word)) * strides k := by
  induction dim generalizing x with
  | zero => rfl
  | succ dim ih =>
    rw [Box.offsetFrom, ih, Finset.sum_range_succ, MixedRadix.digit_last, add_comm]
    congr 1
    · refine Finset.sum_congr rfl fun k hk => ?_
      rw [MixedRadix.digit_succ (Finset.mem_range.mp hk), BitVec.toNat_udiv]
    · rw [← BitVec.toNat_umod, natCast_toNat]

end Boxes

structure Call extends Box where
  numPes : ℕ
  root : ℕ
  sizeofT : ℕ
  dstData : Word
  dstStrides : ℕ → Word
  srcData : ℕ → Word
  srcStrides : ℕ → ℕ → Word
  source : ℕ → Word → ℤ
  root_lt : root < numPes
  numPes_le : numPes ≤ 256
  sizeofT_mem : sizeofT = 1 ∨ sizeofT = 2 ∨ sizeofT = 4 ∨ sizeofT = 8

def reduceMinWrkdataSize : ℕ := 1048576

namespace Call

variable (c : Call)

def tileElements : ℕ := c.gdaTileNumElements.toNat

def segmentCapacity : ℕ := reduceMinWrkdataSize * 8 / c.sizeofT / c.numPes

def Accepted : Prop := c.tileElements ≠ 0 ∧ c.segmentCapacity ≠ 0 ∧ c.ndim ≠ 0

def segmentStarts (fuel : ℕ) : List ℕ := sizeTurns c.segmentCapacity c.tileElements fuel 0

def segments : List ℕ := c.segmentStarts c.tileElements

def segmentStart (k : ℕ) : ℕ := c.segments.getD k 0

def segmentElems (k : ℕ) : ℕ := min c.segmentCapacity (c.tileElements - c.segmentStart k)

def numSegments : ℕ := (c.tileElements + c.segmentCapacity - 1) / c.segmentCapacity

def LoopEnds : Prop := c.numSegments * c.segmentCapacity < 2 ^ 64

def covered (starts : List ℕ) : List ℕ :=
  starts.flatMap fun s => (range (min c.segmentCapacity (c.tileElements - s))).map (s + ·)

def srcContiguous (p : ℕ) : Bool := c.gdaTileIsContiguous (c.srcStrides p)

def srcAddress (p idx : ℕ) : Word :=
  c.srcData p + c.gdaTileSrcOffset (c.srcStrides p) (idx : Word) * (c.sizeofT : Word)

def dstAddress (idx : ℕ) : Word :=
  c.dstData + c.gdaTileDstOffset c.dstStrides (idx : Word) * (c.sizeofT : Word)

def loaded (p k e : ℕ) : ℤ :=
  if c.srcContiguous p then
    c.source p (c.srcAddress p (c.segmentStart k) + (e : Word) * (c.sizeofT : Word))
  else c.source p (c.srcAddress p (c.segmentStart k + e))

def reduced (op : ℤ → ℤ → ℤ) (idx : ℕ) : ℕ → ℤ
  | 0 => c.source 0 (c.srcAddress 0 idx)
  | i + 1 => op (reduced op idx i) (c.source (i + 1) (c.srcAddress (i + 1) idx))

end Call

/-- The steps in segment `k`: `data` and `flag` are the arrivals at the root. The calls of the
team synchronization after the last segment are those of segment `segments.length`. -/
inductive Event where
  | pack (p k e : ℕ)
  | data (p k e : ℕ)
  | flag (p k : ℕ)
  | await (i k : ℕ)
  | combine (k e i : ℕ)
  | write (k e : ℕ)
  | reset (i : ℕ)
  | arrive (p k : ℕ)
  | leave (p k : ℕ)
  deriving DecidableEq

inductive Cell where
  | pWrk (p i : ℕ)
  | pSync (i : ℕ)
  | reducedValue
  | dst (address : Word)
  deriving DecidableEq

open Event

section Protocol

variable (c : Call) (op : ℤ → ℤ → ℤ)

def Occurs : Event → Prop
  | pack p k e => p < c.numPes ∧ k < c.segments.length ∧ e < c.segmentElems k ∧
      (p = c.root ∨ c.srcContiguous p = false)
  | data p k e => (p < c.numPes ∧ p ≠ c.root) ∧ k < c.segments.length ∧ e < c.segmentElems k
  | flag p k => p < c.numPes ∧ k < c.segments.length
  | await i k => i < c.numPes ∧ k < c.segments.length
  | combine k e i => k < c.segments.length ∧ e < c.segmentElems k ∧ i < c.numPes
  | write k e => k < c.segments.length ∧ e < c.segmentElems k
  | reset i => i < c.numPes
  | arrive p k | leave p k => p < c.numPes ∧ k ≤ c.segments.length

def pe : Event → ℕ
  | pack p _ _ | data p _ _ | flag p _ | arrive p _ | leave p _ => p
  | await _ _ | combine _ _ _ | write _ _ | reset _ => c.root

def point : Event → ℕ ×ₗ ℕ ×ₗ ℕ
  | pack _ k e => toLex (k, toLex (0, e))
  | data _ k e => toLex (k, toLex (1, e))
  | flag _ k => toLex (k, toLex (2, 0))
  | await i k => toLex (k, toLex (3, i))
  | combine k e i => toLex (k, toLex (4, e * (c.numPes + 1) + i))
  | write k e => toLex (k, toLex (4, e * (c.numPes + 1) + c.numPes))
  | reset i => toLex (c.segments.length, toLex (0, i))
  | arrive _ k => toLex (k, toLex (5, 0))
  | leave _ k => toLex (k, toLex (6, 0))

def mode : Event → Mode Unit
  | data _ _ _ => .posted ()
  | flag p _ => if p = c.root then .blocking else .ordered ()
  | _ => .blocking

def action : Event → Effect Cell ℤ
  | pack p k e => .store (.pWrk p (p * c.segmentCapacity + e)) fun _ => c.loaded p k e
  | data p k e => .store (.pWrk c.root (p * c.segmentCapacity + e)) fun m =>
      if c.srcContiguous p then c.loaded p k e else m (.pWrk p (p * c.segmentCapacity + e))
  | flag p k => .store (.pSync p) fun _ => k + 1
  | combine _ e i => .store .reducedValue fun m =>
      if i = 0 then m (.pWrk c.root e)
      else op (m .reducedValue) (m (.pWrk c.root (i * c.segmentCapacity + e)))
  | write k e => .store (.dst (c.dstAddress (c.segmentStart k + e))) fun m => m .reducedValue
  | reset i => .store (.pSync i) fun _ => 0
  | await _ _ | arrive _ _ | leave _ _ => .skip

def program : Program Event ℕ (ℕ ×ₗ ℕ ×ₗ ℕ) Unit Cell ℤ where
  event := Occurs c
  pe := pe c
  point := point c
  mode := mode c
  guard
    | await i k, m => m (.pSync i) = k + 1
    | _, _ => True
  action := action c op

def Synchronized (a e : Event) : Prop :=
  ∃ p < c.numPes, ∃ q < c.numPes, ∃ k ≤ c.segments.length, a = arrive q k ∧ e = leave p k

def sys : System Event Cell ℤ where
  event := Occurs c
  pre a e := (program c op).system.pre a e ∨ Synchronized c a e
  guard := (program c op).guard
  action := action c op

def certificate : Certificate Event ℤ where
  waitsFor
    | await i k, a => (i < c.numPes ∧ k < c.segments.length) ∧ a = flag i k
    | _, _ => False
  val
    | pack p k e | data p k e => c.source p (c.srcAddress p (c.segmentStart k + e))
    | flag _ k => k + 1
    | combine k e i => c.reduced op (c.segmentStart k + e) i
    | write k e => c.reduced op (c.segmentStart k + e) (c.numPes - 1)
    | _ => 0

abbrev Prior (a e : Event) : Prop := Before (sys c op) (certificate c op) a e

end Protocol

variable {c : Call} {op : ℤ → ℤ → ℤ} {a e : Event} {k : ℕ}

section Order

def seg (c : Call) (e : Event) : ℕ := (ofLex (point c e)).1

theorem point_lt_of_seg (h : seg c a < seg c e) : point c a < point c e := Prod.Lex.left _ _ h

theorem depends_forward (h : Depends (sys c op) (certificate c op) a e) :
    point c a < point c e := by
  rcases h with (hp | hs) | hw
  · exact hp.2.2.1
  · obtain ⟨p, -, q, -, k, -, rfl, rfl⟩ := hs
    exact point_lt_of_snd (by decide)
  · cases e with
    | await i k =>
      obtain ⟨-, rfl⟩ := hw
      exact point_lt_of_snd (by decide)
    | _ => exact hw.elim

theorem acyclic (c : Call) (op : ℤ → ℤ → ℤ) : WellFounded (Depends (sys c op) (certificate c op)) :=
  acyclic_of_rank (point c) depends_forward

theorem prior_own (ha : Occurs c a) (hpe : pe c a = pe c e) (hpt : point c a < point c e)
    (hmode : (mode c a).Precedes (mode c e)) : Prior c op a e :=
  before_of_pre (.inl ⟨ha, hpe, hpt, hmode⟩)

theorem prior_blocking (ha : Occurs c a) (hpe : pe c a = pe c e) (hpt : point c a < point c e)
    (hmode : mode c a = .blocking) : Prior c op a e :=
  prior_own ha hpe hpt (hmode ▸ blocking_precedes _)

theorem pe_lt (h : Occurs c e) : pe c e < c.numPes := by
  cases e with
  | data => exact h.1.1
  | await | combine | write | reset => exact c.root_lt
  | _ => exact h.1

theorem seg_le (h : Occurs c e) : seg c e ≤ c.segments.length := by
  cases e with
  | data | pack => exact le_of_lt h.2.1
  | combine | write => exact le_of_lt h.1
  | flag | await => exact le_of_lt h.2
  | reset => exact le_refl _
  | arrive | leave => exact h.2

theorem prior_sync (ha : Occurs c a) (he : Occurs c e) (hmode : mode c a = .blocking)
    (hleave : point c a < toLex (seg c a, toLex (5, 0))) (hlt : seg c a < seg c e) :
    Prior c op a e := by
  have hle := seg_le ha
  have hout : Prior c op a (arrive (pe c a) (seg c a)) := prior_blocking ha rfl hleave hmode
  have hsync : Prior c op (arrive (pe c a) (seg c a)) (leave (pe c e) (seg c a)) :=
    before_of_pre (.inr ⟨_, pe_lt he, _, pe_lt ha, _, hle, rfl, rfl⟩)
  have hin : Prior c op (leave (pe c e) (seg c a)) e :=
    prior_blocking ⟨pe_lt he, hle⟩ rfl (point_lt_of_seg hlt) rfl
  exact (hout.trans hsync).trans hin

theorem flag_await {i : ℕ} (h : Occurs c (flag i k)) : Prior c op (flag i k) (await i k) :=
  before_of_waits ⟨h, rfl⟩

theorem data_flag {p x : ℕ} (h : Occurs c (data p k x)) : Prior c op (data p k x) (flag p k) := by
  refine prior_own h rfl (point_lt_of_snd (by decide)) ?_
  rw [mode, mode, if_neg h.1.2]
  exact rfl

theorem prior_next {d : Cell} (ha : Occurs c a) (he : Occurs c e) (hs : (sys c op).StoresTo d a)
    (hlt : seg c a < seg c e) : Prior c op a e := by
  have hflag {i k : ℕ} (hf : Occurs c (flag i k)) (hk : k < seg c e) : Prior c op (flag i k) e :=
    (flag_await hf).trans
      (prior_sync (a := await i k) hf he rfl (point_lt_of_snd (by decide)) hk)
  cases a with
  | pack | combine | write => exact prior_sync ha he rfl (point_lt_of_snd (by decide)) hlt
  | data p k x => exact (data_flag ha).trans (hflag ⟨ha.1.1, ha.2.1⟩ hlt)
  | flag i k => exact hflag ha hlt
  | reset => exact absurd (seg_le he) (Nat.not_le_of_lt hlt)
  | await | arrive | leave =>
    obtain ⟨f, hf⟩ := hs
    cases hf

end Order

section Writers

variable {d : Cell} {i p q x y : ℕ}

theorem stores_pWrk (h : (sys c op).StoresTo (.pWrk q i) e) :
    (∃ k x, e = pack q k x ∧ q * c.segmentCapacity + x = i) ∨
    ∃ p k x, e = data p k x ∧ q = c.root ∧ p * c.segmentCapacity + x = i := by
  obtain ⟨f, hf⟩ := h
  cases e with
  | pack p k x =>
    cases hf
    exact .inl ⟨k, x, rfl, rfl⟩
  | data p k x =>
    cases hf
    exact .inr ⟨p, k, x, rfl, rfl, rfl⟩
  | _ => cases hf

theorem stores_pSync (h : (sys c op).StoresTo (.pSync i) e) :
    (∃ k, e = flag i k) ∨ e = reset i := by
  obtain ⟨f, hf⟩ := h
  cases e with
  | flag p k =>
    cases hf
    exact .inl ⟨k, rfl⟩
  | reset p =>
    cases hf
    exact .inr rfl
  | _ => cases hf

theorem stores_reducedValue (h : (sys c op).StoresTo .reducedValue e) :
    ∃ k x i, e = combine k x i := by
  obtain ⟨f, hf⟩ := h
  cases e with
  | combine k x i => exact ⟨k, x, i, rfl⟩
  | _ => cases hf

theorem stores_dst {address : Word} (h : (sys c op).StoresTo (.dst address) e) :
    ∃ k x, e = write k x ∧ c.dstAddress (c.segmentStart k + x) = address := by
  obtain ⟨f, hf⟩ := h
  cases e with
  | write k x =>
    cases hf
    exact ⟨k, x, rfl, rfl⟩
  | _ => cases hf

theorem not_addsTo : ¬(sys c op).AddsTo d e := by
  rintro ⟨v, hv⟩
  cases e <;> cases hv

theorem mul_add_inj {n : ℕ} (hx : x < n) (hy : y < n) (h : p * n + x = q * n + y) :
    p = q ∧ x = y := by
  have hn : 0 < n := Nat.zero_lt_of_lt hx
  have hdiv := congrArg (· / n) h
  simp only [mul_comm _ n, Nat.mul_add_div hn, Nat.div_eq_of_lt hx, Nat.div_eq_of_lt hy,
    add_zero] at hdiv
  subst hdiv
  exact ⟨rfl, add_left_cancel h⟩

theorem lt_capacity (h : x < c.segmentElems k) : x < c.segmentCapacity :=
  lt_of_lt_of_le h (min_le_left _ _)

variable {w w' : Event}

theorem pWrk_writer (hw : Occurs c w) (hw' : Occurs c w') (hs : (sys c op).StoresTo (.pWrk q i) w)
    (hs' : (sys c op).StoresTo (.pWrk q i) w') (hseg : seg c w = seg c w') : w = w' := by
  rcases stores_pWrk hs with ⟨k, x, rfl, hx⟩ | ⟨p, k, x, rfl, hq, hx⟩ <;>
    rcases stores_pWrk hs' with ⟨k', y, rfl, hy⟩ | ⟨p', k', y, rfl, hq', hy⟩ <;>
    obtain rfl : k = k' := hseg
  · rw [(mul_add_inj (lt_capacity hw.2.2.1) (lt_capacity hw'.2.2.1) (hx.trans hy.symm)).2]
  · have hp := (mul_add_inj (lt_capacity hw.2.2.1) (lt_capacity hw'.2.2) (hx.trans hy.symm)).1
    exact absurd (hp.symm.trans hq') hw'.1.2
  · have hp := (mul_add_inj (lt_capacity hw.2.2) (lt_capacity hw'.2.2.1) (hx.trans hy.symm)).1
    exact absurd (hp.trans hq) hw.1.2
  · obtain ⟨rfl, rfl⟩ := mul_add_inj (lt_capacity hw.2.2) (lt_capacity hw'.2.2) (hx.trans hy.symm)
    rfl

section

variable (hw : Occurs c w) (hw' : Occurs c w') (hs : (sys c op).StoresTo d w)
  (hs' : (sys c op).StoresTo d w')
include hw hw' hs hs'

theorem same_segment (hseg : seg c w = seg c w') :
    w = w' ∨ (pe c w = pe c w' ∧ mode c w = .blocking ∧ mode c w' = .blocking) ∧
      (point c w = point c w' → w = w') := by
  cases d with
  | pWrk q i => exact .inl (pWrk_writer hw hw' hs hs' hseg)
  | pSync i =>
    left
    rcases stores_pSync hs with ⟨k, rfl⟩ | rfl <;> rcases stores_pSync hs' with ⟨k', rfl⟩ | rfl
    · obtain rfl : k = k' := hseg
      rfl
    · exact absurd hseg (ne_of_lt hw.2)
    · exact absurd hseg.symm (ne_of_lt hw'.2)
    · rfl
  | reducedValue =>
    obtain ⟨k, x, i, rfl⟩ := stores_reducedValue hs
    obtain ⟨k', y, j, rfl⟩ := stores_reducedValue hs'
    obtain rfl : k = k' := hseg
    refine .inr ⟨⟨rfl, rfl, rfl⟩, fun hpt => ?_⟩
    have hthird : x * (c.numPes + 1) + i = y * (c.numPes + 1) + j := by
      simpa [point] using hpt
    have hi := hw.2.2
    have hj := hw'.2.2
    obtain ⟨rfl, rfl⟩ := mul_add_inj (by omega) (by omega) hthird
    rfl
  | dst address =>
    obtain ⟨k, x, rfl, -⟩ := stores_dst hs
    obtain ⟨k', y, rfl, -⟩ := stores_dst hs'
    obtain rfl : k = k' := hseg
    refine .inr ⟨⟨rfl, rfl, rfl⟩, fun hpt => ?_⟩
    have hthird : x * (c.numPes + 1) + c.numPes = y * (c.numPes + 1) + c.numPes := by
      simpa [point] using hpt
    rw [(mul_add_inj (Nat.lt_succ_self _) (Nat.lt_succ_self _) hthird).1]

theorem writers_ordered : w = w' ∨ Prior c op w w' ∨ Prior c op w' w := by
  rcases lt_trichotomy (seg c w) (seg c w') with h | h | h
  · exact .inr (.inl (prior_next hw hw' hs h))
  · rcases same_segment hw hw' hs hs' h with heq | ⟨⟨hpe, hm, hm'⟩, hpt⟩
    · exact .inl heq
    · rcases lt_trichotomy (point c w) (point c w') with hlt | heq | hlt
      · exact .inr (.inl (prior_blocking hw hpe hlt hm))
      · exact .inl (hpt heq)
      · exact .inr (.inr (prior_blocking hw' hpe.symm hlt hm'))
  · exact .inr (.inr (prior_next hw' hw hs' h))

end

end Writers

section Values

variable {p x i : ℕ} {X : Set Event} {m init : Cell → ℤ}

theorem tileElements_spec (h : c.tileElements ≠ 0) :
    c.NonInverted ∧ c.count < 2 ^ 64 ∧ c.tileElements = c.count := by
  grind [Call.tileElements, gdaTileNumElements_eq]

theorem srcOffset_add (hcontig : c.srcContiguous p = true) {s : ℕ} (h : s + x < c.tileElements) :
    c.gdaTileSrcOffset (c.srcStrides p) ((s + x : ℕ) : Word) =
      c.gdaTileSrcOffset (c.srcStrides p) (s : Word) + (x : Word) := by
  obtain ⟨-, hlt, hcount⟩ := tileElements_spec (c := c) (by omega)
  have hflat {y : ℕ} (hy : y < c.tileElements) : c.gdaTileSrcOffset (c.srcStrides p) (y : Word) =
      c.gdaTileSrcOffset (c.srcStrides p) 0 + (y : Word) := by
    have hnat : (y : Word).toNat = y := by
      rw [BitVec.natCast_eq_ofNat, BitVec.toNat_ofNat, Nat.mod_eq_of_lt (by omega)]
    have hoff := offsetFrom_of_contiguous (x := (y : Word)) hcontig (by
      rw [hnat]
      exact Nat.lt_of_lt_of_eq hy hcount)
    rw [one_mul] at hoff
    exact hoff
  rw [hflat h, hflat (by omega : s < c.tileElements), Nat.cast_add, add_assoc]

theorem srcAddress_add (hcontig : c.srcContiguous p = true) {s : ℕ} (h : s + x < c.tileElements) :
    c.srcAddress p (s + x) = c.srcAddress p s + (x : Word) * (c.sizeofT : Word) := by
  rw [Call.srcAddress, Call.srcAddress, srcOffset_add hcontig h]
  ring

theorem segment_lt (hx : x < c.segmentElems k) : c.segmentStart k + x < c.tileElements := by
  have hlt : x < c.tileElements - c.segmentStart k := lt_of_lt_of_le hx (min_le_right _ _)
  omega

theorem loaded_eq (hx : x < c.segmentElems k) :
    c.loaded p k x = c.source p (c.srcAddress p (c.segmentStart k + x)) := by
  rw [Call.loaded]
  split
  next hcontig =>
    rw [srcAddress_add hcontig (segment_lt hx)]
  next => rfl

section

variable (hc : Consistent (sys c op) (certificate c op) init X m)
include hc

theorem await_matched (hinit : init (.pSync i) = 0) (hm : m (.pSync i) = k + 1) : flag i k ∈ X := by
  rcases hc.last_store (c := .pSync i) fun _ => not_addsTo with ⟨hzero, -⟩ | ⟨w, hw, hs, hval, -⟩
  · omega
  · rcases stores_pSync hs with ⟨k', rfl⟩ | rfl
    · have hk : (k' : ℤ) + 1 = k + 1 := hval.symm.trans hm
      obtain rfl : k' = k := by omega
      exact hw
    · have hzero : m (.pSync i) = 0 := hval
      omega

theorem pWrk_read {d : Cell} {q : ℕ} {w : Event} (he : Occurs c e) (hX : e ∉ X)
    (hs : (sys c op).StoresTo d e) (hw : w ∈ X) (hws : (sys c op).StoresTo (.pWrk q i) w)
    (hseg : seg c w = seg c e) : m (.pWrk q i) = (certificate c op).val w := by
  have hwo := hc.events w hw
  refine hc.read_before (acyclic c op) hX hw hws fun w' hw' hwr => ?_
  have hs' := hwr.resolve_right not_addsTo
  rcases lt_trichotomy (seg c w') (seg c w) with h | h | h
  · exact .inl (prior_next hw' hwo hs' h)
  · rw [pWrk_writer hw' hwo hs' hws h]
    exact .inl (Before.refl _)
  · exact .inr (prior_next he hw' hs (hseg ▸ h))

theorem data_valued (he : Occurs c (data p k x)) (hX : data p k x ∉ X)
    (hready : (sys c op).Ready X (data p k x)) :
    (if c.srcContiguous p then c.loaded p k x else m (.pWrk p (p * c.segmentCapacity + x))) =
      c.source p (c.srcAddress p (c.segmentStart k + x)) := by
  split
  next => exact loaded_eq he.2.2
  next hcontig =>
    have hpack : Occurs c (pack p k x) :=
      ⟨he.1.1, he.2.1, he.2.2, .inr (Bool.eq_false_iff.mpr hcontig)⟩
    have hpre : (sys c op).pre (pack p k x) (data p k x) :=
      .inl ⟨hpack, rfl, point_lt_of_snd (by decide), trivial⟩
    exact pWrk_read hc he hX ⟨_, rfl⟩ (hready _ hpre) ⟨_, rfl⟩ rfl

end

theorem root_pre (hready : (sys c op).Ready X e) (ha : Occurs c a)
    (hpe : pe c a = pe c e) (hmode : mode c a = .blocking) (hpt : point c a < point c e) :
    a ∈ X := by
  have hprec : (mode c a).Precedes (mode c e) := hmode ▸ blocking_precedes _
  exact hready a (.inl ⟨ha, hpe, hpt, hprec⟩)

theorem slot_valued (hc : Consistent (sys c op) (certificate c op) init X m)
    (he : Occurs c (combine k x i)) (hX : combine k x i ∉ X)
    (hready : (sys c op).Ready X (combine k x i)) : m (.pWrk c.root (i * c.segmentCapacity + x)) =
      c.source i (c.srcAddress i (c.segmentStart k + x)) := by
  by_cases hroot : i = c.root
  · subst hroot
    have hpack : Occurs c (pack c.root k x) := ⟨c.root_lt, he.1, he.2.1, .inl rfl⟩
    have hmem := root_pre hready hpack rfl rfl (point_lt_of_snd (by decide))
    exact pWrk_read hc he hX ⟨_, rfl⟩ hmem ⟨_, rfl⟩ rfl
  · have hawait : Occurs c (await i k) := ⟨he.2.2, he.1⟩
    have hmem := root_pre hready hawait rfl rfl (point_lt_of_snd (by decide))
    have hdata : Occurs c (data i k x) := ⟨⟨he.2.2, hroot⟩, he.1, he.2.1⟩
    have hflag : Prior c op (data i k x) (await i k) := (data_flag hdata).trans (flag_await hawait)
    exact pWrk_read hc he hX ⟨_, rfl⟩ (hflag X hc.closed hmem) ⟨_, rfl⟩ rfl

theorem compute_point_lt {k' t t' : ℕ} :
    toLex (k, toLex (4, t)) < toLex (k', toLex (4, t')) ↔ k < k' ∨ k = k' ∧ t < t' := by
  simp [Prod.Lex.toLex_lt_toLex]

section

variable (hc : Consistent (sys c op) (certificate c op) init X m)
include hc

theorem register_read (he : Occurs c e) (hX : e ∉ X) (hready : (sys c op).Ready X e)
    (hpe : pe c e = c.root) (hmode : mode c e = .blocking) (hlast : Occurs c (combine k x i))
    (hpt : point c e = toLex (k, toLex (4, x * (c.numPes + 1) + i + 1)))
    (hsame : ∀ y j, j < c.numPes → y * (c.numPes + 1) + j = x * (c.numPes + 1) + i + 1 →
      combine k y j = e)
    : m .reducedValue = c.reduced op (c.segmentStart k + x) i := by
  have hlt : point c (combine k x i) < point c e := by
    rw [hpt]
    exact point_lt_of_third (Nat.lt_succ_self _)
  have hmem := root_pre hready hlast hpe.symm rfl hlt
  refine hc.read_before (w := combine k x i) (acyclic c op) hX hmem ⟨_, rfl⟩ fun w hw hwr => ?_
  obtain ⟨k', y, j, rfl⟩ := stores_reducedValue (hwr.resolve_right not_addsTo)
  rcases lt_trichotomy (point c (combine k' y j)) (point c e) with h | h | h
  · -- before the reading step there is nothing after the last combination
    left
    rw [hpt, point, compute_point_lt] at h
    by_cases hbefore : point c (combine k' y j) < point c (combine k x i)
    · exact prior_blocking hw rfl hbefore rfl
    · rw [point, point, compute_point_lt] at hbefore
      obtain rfl : k' = k := by omega
      have hthird : y * (c.numPes + 1) + j = x * (c.numPes + 1) + i := by omega
      have hj := hw.2.2
      have hi := hlast.2.2
      obtain ⟨rfl, rfl⟩ := mul_add_inj (by omega) (by omega) hthird
      exact Before.refl _
  · right
    rw [hpt, point] at h
    obtain ⟨rfl, hthird⟩ : k' = k ∧ y * (c.numPes + 1) + j = x * (c.numPes + 1) + i + 1 := by
      simpa using h
    rw [hsame y j hw.2.2 hthird]
    exact Before.refl _
  · exact .inr (prior_blocking he hpe h hmode)

theorem combine_valued (he : Occurs c (combine k x i)) (hX : combine k x i ∉ X)
    (hready : (sys c op).Ready X (combine k x i)) : (if i = 0 then m (.pWrk c.root x)
      else op (m .reducedValue) (m (.pWrk c.root (i * c.segmentCapacity + x)))) =
      c.reduced op (c.segmentStart k + x) i := by
  have hslot := slot_valued hc he hX hready
  cases i with
  | zero =>
    rw [zero_mul, zero_add] at hslot
    rw [if_pos rfl, hslot, Call.reduced]
  | succ i =>
    have hi := he.2.2
    have hreg : m .reducedValue = c.reduced op (c.segmentStart k + x) i := by
      refine register_read hc he hX hready rfl rfl ⟨he.1, he.2.1, by omega⟩ rfl fun y j hj h => ?_
      obtain ⟨rfl, rfl⟩ := mul_add_inj (by omega) (by omega)
        (h.trans (add_assoc (x * (c.numPes + 1)) i 1))
      rfl
    rw [if_neg (Nat.succ_ne_zero i), hslot, hreg, Call.reduced]

theorem write_valued (he : Occurs c (write k x)) (hX : write k x ∉ X)
    (hready : (sys c op).Ready X (write k x)) :
    m .reducedValue = c.reduced op (c.segmentStart k + x) (c.numPes - 1) := by
  have hroot := c.root_lt
  have hthird : x * (c.numPes + 1) + (c.numPes - 1) + 1 = x * (c.numPes + 1) + c.numPes := by omega
  refine register_read hc he hX hready rfl rfl ⟨he.1, he.2, by omega⟩ ?_ fun y j hj h => ?_
  · rw [hthird]
    rfl
  · have hlast := (mul_add_inj (by omega) (by omega) (h.trans hthird)).2
    omega

end

theorem sound (hinit : ∀ i, init (.pSync i) = 0) :
    Sound (sys c op) (certificate c op) anyStep init where
  acyclic := acyclic c op
  ordered := fun _ _ _ hw hw' hs hwr => writers_ordered hw hw' hs (hwr.resolve_right not_addsTo)
  matched := by
    intro X m e hc he _ _ hg _ a ha
    cases e with
    | await i k =>
      obtain ⟨-, rfl⟩ := ha
      exact await_matched hc (hinit i) hg
    | _ => exact ha.elim
  valued := by
    intro X m e d f hc he hX hready _ hact
    cases e with
    | pack p k x =>
      cases hact
      exact loaded_eq he.2.2.1
    | data p k x =>
      cases hact
      exact data_valued hc he hX hready
    | combine k x i =>
      cases hact
      exact combine_valued hc he hX hready
    | write k x =>
      cases hact
      exact write_valued hc he hX hready
    | flag | reset =>
      cases hact
      rfl
    | await | arrive | leave => cases hact

theorem await_guard (hc : Consistent (sys c op) (certificate c op) init X m)
    (he : Occurs c (await i k)) (hX : await i k ∉ X) (hflag : flag i k ∈ X) :
    m (.pSync i) = k + 1 := by
  refine hc.read_before (w := flag i k) (acyclic c op) hX hflag ⟨_, rfl⟩ fun w hw hwr => ?_
  have hs := hwr.resolve_right not_addsTo
  have hnext (h : k < seg c w) : Prior c op (await i k) w :=
    prior_sync he hw rfl (point_lt_of_snd (by decide)) h
  rcases stores_pSync hs with ⟨k', rfl⟩ | rfl
  · rcases lt_trichotomy k' k with h | rfl | h
    · exact .inl (prior_next (e := flag i k) hw he hs h)
    · exact .inl (Before.refl _)
    · exact .inr (hnext h)
  · exact .inr (hnext he.2)

theorem live : Live (sys c op) (certificate c op) anyStep init where
  pre_event := by
    rintro a e (h | ⟨p, -, q, hq, k, hk, rfl, -⟩)
    · exact h.1
    · exact ⟨hq, hk⟩
  waits_event := by
    intro e a h
    cases e with
    | await i k =>
      obtain ⟨hi, rfl⟩ := h
      exact hi
    | _ => exact h.elim
  guarded := by
    intro X m e hc he hX _ hw
    cases e with
    | await i k => exact ⟨await_guard hc he hX (hw _ ⟨he, rfl⟩), trivial⟩
    | _ => exact ⟨trivial, trivial⟩

end Values

section Segments

variable {f j t : ℕ}

section

variable (hcap : c.segmentCapacity ≠ 0) (hN : c.tileElements ≠ 0)
include hcap hN

theorem numSegments_spec :
    0 < c.numSegments ∧ c.tileElements ≤ c.numSegments * c.segmentCapacity ∧
      (j < c.numSegments ↔ j * c.segmentCapacity < c.tileElements) := by
  have hdiv : j < c.numSegments ↔ (j + 1) * c.segmentCapacity ≤
      c.tileElements + c.segmentCapacity - 1 := by
    rw [Call.numSegments, Nat.lt_iff_add_one_le, Nat.le_div_iff_mul_le (by omega)]
  have hmod := Nat.div_add_mod (c.tileElements + c.segmentCapacity - 1) c.segmentCapacity
  have hlt := Nat.mod_lt (c.tileElements + c.segmentCapacity - 1) (pos_of_ne_zero hcap)
  rw [mul_comm, ← Call.numSegments] at hmod
  refine ⟨Nat.div_pos (by omega) (by omega), by omega, ?_⟩
  rw [hdiv, Nat.succ_mul]
  omega

theorem loop_from (h : j + t + 1 = c.numSegments) :
    sizeTurns c.segmentCapacity c.tileElements (t + 1 + f) (j * c.segmentCapacity) =
      ((range (t + 1)).map fun i => (j + i) * c.segmentCapacity) ++
        sizeTurns c.segmentCapacity c.tileElements f
          (c.numSegments * c.segmentCapacity % 2 ^ 64) := by
  induction t generalizing j with
  | zero =>
    have hj := (numSegments_spec (j := j) hcap hN).2.2.mp (by omega)
    rw [zero_add, add_comm 1 f, sizeTurns, if_pos hj, ← Nat.succ_mul,
      show j.succ = c.numSegments by omega]
    rfl
  | succ t ih =>
    have hj := (numSegments_spec (j := j) hcap hN).2.2.mp (by omega)
    have hnext := (numSegments_spec (j := j + 1) hcap hN).2.2.mp (by omega)
    have hword : c.tileElements < 2 ^ 64 := c.gdaTileNumElements.isLt
    have hstep : (j * c.segmentCapacity + c.segmentCapacity) % 2 ^ 64 =
        (j + 1) * c.segmentCapacity := by
      rw [← Nat.succ_mul]
      exact Nat.mod_eq_of_lt (hnext.trans hword)
    have hrange : ((range (t + 1 + 1)).map fun i => (j + i) * c.segmentCapacity) =
        j * c.segmentCapacity ::
          (range (t + 1)).map fun i => (j + 1 + i) * c.segmentCapacity := by
      rw [range_succ_eq_map, map_cons, map_map, add_zero]
      refine congrArg _ (map_congr_left fun i _ => ?_)
      rw [Function.comp_apply, add_assoc, add_comm 1 i]
    rw [show t + 1 + 1 + f = (t + 1 + f) + 1 by omega, sizeTurns, if_pos hj, hstep, ih (by omega),
      hrange, cons_append]

theorem segmentStarts_eq :
    c.segmentStarts (c.numSegments + f) =
      ((range c.numSegments).map (· * c.segmentCapacity)) ++
        sizeTurns c.segmentCapacity c.tileElements f
          (c.numSegments * c.segmentCapacity % 2 ^ 64) := by
  obtain ⟨t, ht⟩ : ∃ t, c.numSegments = t + 1 :=
    ⟨c.numSegments - 1, by have := (numSegments_spec (j := 0) hcap hN).1; omega⟩
  have hloop := loop_from (f := f) (j := 0) (t := t) hcap hN (by omega)
  simp only [zero_mul, zero_add, ← ht] at hloop
  exact hloop

theorem covered_eq (ht : t ≤ c.numSegments) :
    c.covered ((range t).map (· * c.segmentCapacity)) =
      range (min (t * c.segmentCapacity) c.tileElements) := by
  induction t with
  | zero => simp [Call.covered]
  | succ t ih =>
    have hlt := (numSegments_spec (j := t) hcap hN).2.2.mp (by omega)
    have hsplit : min ((t + 1) * c.segmentCapacity) c.tileElements = t * c.segmentCapacity +
        min c.segmentCapacity (c.tileElements - t * c.segmentCapacity) := by
      rw [Nat.succ_mul]
      omega
    rw [range_succ, map_append, Call.covered, flatMap_append, ← Call.covered,
      ih (by omega), Nat.min_eq_left (by omega), hsplit, range_add]
    simp only [map_cons, map_nil, flatMap_cons, flatMap_nil, append_nil]

theorem segments_eq (hends : c.LoopEnds) (hf : c.numSegments ≤ f) :
    c.segmentStarts f = (range c.numSegments).map (· * c.segmentCapacity) := by
  obtain ⟨g, rfl⟩ : ∃ g, f = c.numSegments + g := ⟨f - c.numSegments, by omega⟩
  have hle := (numSegments_spec (j := 0) hcap hN).2.1
  have hstop : sizeTurns c.segmentCapacity c.tileElements g
      (c.numSegments * c.segmentCapacity % 2 ^ 64) = [] := by
    cases g with
    | zero => rfl
    | succ g => rw [sizeTurns, Nat.mod_eq_of_lt hends, if_neg (by omega)]
  rw [segmentStarts_eq hcap hN, hstop, append_nil]

end

theorem capacity_le (c : Call) : c.segmentCapacity ≤ 2 ^ 23 := by
  have hbytes : reduceMinWrkdataSize * 8 / c.sizeofT ≤ 2 ^ 23 := Nat.div_le_self _ _
  exact (Nat.div_le_self _ _).trans hbytes

theorem covered_iff (hcap : c.segmentCapacity ≠ 0) (hN : c.tileElements ≠ 0) :
    (∃ turns, ∀ fuel ≥ turns, c.covered (c.segmentStarts fuel) = range c.tileElements) ↔
      c.LoopEnds := by
  obtain ⟨hpos, hle, -⟩ := numSegments_spec (c := c) (j := 0) hcap hN
  have hall := covered_eq hcap hN (le_refl c.numSegments)
  rw [Nat.min_eq_right hle] at hall
  constructor
  · rintro ⟨turns, hturns⟩
    by_contra hwrap
    rw [Call.LoopEnds] at hwrap
    have hagain : c.numSegments * c.segmentCapacity % 2 ^ 64 < c.tileElements := by
      have hsmall := capacity_le c
      have hword : c.tileElements < 2 ^ 64 := c.gdaTileNumElements.isLt
      have hlast := (numSegments_spec (c := c) (j := c.numSegments - 1) hcap hN).2.2.mp (by omega)
      rw [Nat.sub_mul, one_mul] at hlast
      omega
    have hlong := hturns (c.numSegments + (turns + 1)) (by omega)
    rw [segmentStarts_eq hcap hN, sizeTurns, if_pos hagain, Call.covered, flatMap_append,
      ← Call.covered, hall, flatMap_cons] at hlong
    have hlen := congrArg length hlong
    simp only [length_append, length_range, length_map] at hlen
    omega
  · exact fun hends => ⟨c.numSegments, fun fuel hfuel => by rw [segments_eq hcap hN hends hfuel, hall]⟩

end Segments

section Calls

variable {X : Set Event} {m init : Cell → ℤ} {k x : ℕ}

theorem finite_events (c : Call) : {e | Occurs c e}.Finite := by
  have hfin := finite_toSet ((range c.numPes).flatMap fun p =>
    (range (c.segments.length + 1)).flatMap fun k =>
      [flag p k, await p k, reset p, arrive p k, leave p k] ++
        (range c.segmentCapacity).flatMap fun x =>
          [pack p k x, data p k x, combine k x p, write k x])
  refine hfin.subset fun e he => ?_
  simp only [Set.mem_ofPred_eq, mem_flatMap, mem_range, mem_append]
  cases e with
  | pack p k x => exact ⟨p, he.1, k, by have := he.2.1; omega,
    .inr ⟨x, lt_capacity he.2.2.1, by simp⟩⟩
  | data p k x => exact ⟨p, he.1.1, k, by have := he.2.1; omega,
    .inr ⟨x, lt_capacity he.2.2, by simp⟩⟩
  | flag p k | await p k | arrive p k | leave p k =>
    exact ⟨p, he.1, k, by have := he.2; omega, .inl (by simp)⟩
  | combine k x i => exact ⟨i, he.2.2, k, by have := he.1; omega,
    .inr ⟨x, lt_capacity he.2.1, by simp⟩⟩
  | write k x =>
    exact ⟨c.root, c.root_lt, k, by have := he.1; omega, .inr ⟨x, lt_capacity he.2, by simp⟩⟩
  | reset i => exact ⟨i, he, 0, by omega, .inl (by simp)⟩

theorem root_done {p : ℕ} (hc : Consistent (sys c op) (certificate c op) init X m)
    (hp : p < c.numPes) (hleave : leave p c.segments.length ∈ X) (ha : Occurs c a)
    (hpe : pe c a = c.root) (hmode : mode c a = .blocking)
    (hpt : point c a < toLex (c.segments.length, toLex (5, 0))) : a ∈ X := by
  have hroot : Prior c op a (arrive c.root c.segments.length) := prior_blocking ha hpe hpt hmode
  have hsync : Prior c op (arrive c.root c.segments.length) (leave p c.segments.length) :=
    before_of_pre (.inr ⟨p, hp, c.root, c.root_lt, _, le_refl _, rfl, rfl⟩)
  exact (hroot.trans hsync) X hc.closed hleave

/-- What every state of a run owes. A member has returned when it has left the last
synchronization. Where several elements have one destination, the last of them stays. -/
structure Outcome (c : Call) (op : ℤ → ℤ → ℤ) (init : Cell → ℤ) (X : Set Event) (m : Cell → ℤ) :
    Prop where
  reduced : ∀ p < c.numPes, leave p c.segments.length ∈ X → ∀ idx < c.tileElements,
    (∀ idx' < c.tileElements, idx < idx' → c.dstAddress idx' ≠ c.dstAddress idx) →
      m (.dst (c.dstAddress idx)) = c.reduced op idx (c.numPes - 1)
  unchanged : ∀ address, (∀ idx < c.tileElements, c.dstAddress idx ≠ address) →
    m (.dst address) = init (.dst address)
  cleared : ∀ p < c.numPes, leave p c.segments.length ∈ X → ∀ i < c.numPes, m (.pSync i) = 0
  progress : ∀ e, Occurs c e → e ∉ X → ∃ e', Occurs c e' ∧ e' ∉ X ∧ (sys c op).Ready X e' ∧
    (sys c op).guard e' m

section Indices

variable (hacc : c.Accepted) (hends : c.LoopEnds)
include hacc hends

theorem start_eq : c.segments.length = c.numSegments ∧
    ∀ k < c.numSegments, c.segmentStart k = k * c.segmentCapacity := by
  obtain ⟨hN, hcap, -⟩ := hacc
  have hfuel : c.numSegments ≤ c.tileElements := by
    have hlast := (numSegments_spec (c := c) (j := c.numSegments - 1) hcap hN).2.2
    have hle := Nat.le_mul_of_pos_right (c.numSegments - 1) (pos_of_ne_zero hcap)
    omega
  have heq : c.segments = (range c.numSegments).map (· * c.segmentCapacity) :=
    segments_eq hcap hN hends hfuel
  refine ⟨by rw [heq, length_map, length_range], fun k hk => ?_⟩
  simp [Call.segmentStart, heq, hk]

theorem index_spec {idx : ℕ} (hidx : idx < c.tileElements) :
    ∃ k x, Occurs c (write k x) ∧ c.segmentStart k + x = idx := by
  obtain ⟨hlen, hstart⟩ := start_eq hacc hends
  obtain ⟨hN, hcap, -⟩ := hacc
  have hdiv := Nat.mod_add_div' idx c.segmentCapacity
  have hmod := Nat.mod_lt idx (pos_of_ne_zero hcap)
  have hk : idx / c.segmentCapacity < c.numSegments := (numSegments_spec hcap hN).2.2.mpr (by omega)
  refine ⟨idx / c.segmentCapacity, idx % c.segmentCapacity, ⟨hlen ▸ hk, ?_⟩, ?_⟩
  · rw [Call.segmentElems, hstart _ hk, Nat.lt_min]
    omega
  · rw [hstart _ hk]
    omega

theorem write_prior {k' y : ℕ} (hw : Occurs c (write k x)) (hw' : Occurs c (write k' y))
    (hle : c.segmentStart k' + y ≤ c.segmentStart k + x) : Prior c op (write k' y) (write k x) := by
  obtain ⟨hlen, hstart⟩ := start_eq hacc hends
  have hx := lt_capacity hw.2
  rw [hstart k' (hlen ▸ hw'.1), hstart k (hlen ▸ hw.1)] at hle
  rcases lt_trichotomy k' k with h | rfl | h
  · exact prior_blocking hw' rfl (point_lt_of_fst h) rfl
  · rcases lt_or_eq_of_le (Nat.le_of_add_le_add_left hle) with hlt | rfl
    · refine prior_blocking hw' rfl (point_lt_of_third ?_) rfl
      exact Nat.add_lt_add_right (Nat.mul_lt_mul_of_pos_right hlt (Nat.succ_pos c.numPes)) _
    · exact Before.refl _
  · have hmul := Nat.mul_le_mul_right c.segmentCapacity (Nat.succ_le_of_lt h)
    rw [Nat.succ_mul] at hmul
    omega

theorem outcome (hinit : ∀ i, init (.pSync i) = 0)
    (h : (sys c op).Run anyStep init X m) : Outcome c op init X m := by
  have hc := run_consistent (sound hinit) h
  constructor
  · intro p hp hleave idx hidx hlast
    obtain ⟨k, x, hw, rfl⟩ := index_spec hacc hends hidx
    have hmem := root_done hc hp hleave hw rfl rfl (point_lt_of_fst hw.1)
    refine hc.read (w := write k x) (acyclic c op) hmem ⟨_, rfl⟩ fun w hwX hwr => ?_
    obtain ⟨k', y, rfl, haddr⟩ := stores_dst (hwr.resolve_right not_addsTo)
    have hw' := hc.events _ hwX
    refine write_prior hacc hends hw hw' (Nat.le_of_not_lt fun hlt => ?_)
    exact hlast _ (segment_lt hw'.2) hlt haddr
  · intro address hout
    refine hc.read_init fun w hw hwr => ?_
    obtain ⟨k, x, rfl, haddr⟩ := stores_dst (hwr.resolve_right not_addsTo)
    exact hout _ (segment_lt (hc.events _ hw).2) haddr
  · intro p hp hleave i hi
    have hmem := root_done (a := reset i) hc hp hleave hi rfl rfl (point_lt_of_snd (by decide))
    refine hc.read (w := reset i) (acyclic c op) hmem ⟨_, rfl⟩ fun w hw hwr => ?_
    have hs := hwr.resolve_right not_addsTo
    rcases stores_pSync hs with ⟨k, rfl⟩ | rfl
    · exact prior_next (hc.events _ hw) (show Occurs c (reset i) from hi) hs (hc.events _ hw).2
    · exact Before.refl _
  · intro e he hX
    obtain ⟨e', he', hX', hready, ⟨hg, -⟩, -⟩ := live.progress (acyclic c op) hc he hX
    exact ⟨e', he', hX', hready, hg⟩

end Indices

structure Correct (c : Call) (op : ℤ → ℤ → ℤ) : Prop where
  enumerated : ∀ y : ℕ → ℕ, (∀ dim < c.ndim, y dim < (c.extent dim).toNat) →
    ∃! idx, idx < c.tileElements ∧ ∀ dim < c.ndim, c.coord idx dim = y dim
  inside : ∀ idx < c.tileElements, ∀ dim < c.ndim, c.coord idx dim < (c.extent dim).toNat
  offsets : ∀ idx < c.tileElements,
    c.gdaTileDstOffset c.dstStrides (idx : Word) = c.position c.dstStrides (c.coord idx) ∧
    ∀ p, c.gdaTileSrcOffset (c.srcStrides p) (idx : Word) =
      c.position (c.srcStrides p) (c.coord idx)
  contiguous : ∀ p s x, c.srcContiguous p = true → s + x < c.tileElements →
    c.srcAddress p (s + x) = c.srcAddress p s + (x : Word) * (c.sizeofT : Word)
  covers : ∃ turns, ∀ fuel ≥ turns, c.covered (c.segmentStarts fuel) = range c.tileElements
  finite : {e | Occurs c e}.Finite
  runs : ∀ init X m, (∀ i, init (.pSync i) = 0) → (sys c op).Run anyStep init X m →
    Outcome c op init X m

/-- The guard accepts the tiles whose elements can be counted, and a call on such a tile is right
if and only if its loop over the segments ends. -/
theorem tile_reduce_correct_iff (c : Call) (op : ℤ → ℤ → ℤ) :
    (c.tileElements ≠ 0 ↔ c.NonInverted ∧ 0 < c.count ∧ c.count < 2 ^ 64) ∧
      (c.Accepted → (Correct c op ↔ c.LoopEnds)) := by
  refine ⟨⟨fun h => ?_, fun ⟨hinv, hpos, hlt⟩ => ?_⟩, fun hacc => ?_⟩
  · obtain ⟨hinv, hlt, heq⟩ := tileElements_spec h
    exact ⟨hinv, by omega, hlt⟩
  · rw [Call.tileElements, gdaTileNumElements_eq, if_pos ⟨hinv, hlt⟩]
    omega
  · have hcovers := covered_iff hacc.2.1 hacc.1
    obtain ⟨-, hlt, heq⟩ := tileElements_spec hacc.1
    refine ⟨fun h => hcovers.mp h.covers, fun hends => ?_⟩
    constructor
    · intro y hy
      rw [heq]
      exact MixedRadix.existsUnique_digits hy
    · intro idx hidx dim hdim
      exact MixedRadix.digit_lt (Nat.lt_of_lt_of_eq hidx heq) hdim
    · intro idx hidx
      have hnat : (idx : Word).toNat = idx := by
        rw [BitVec.natCast_eq_ofNat, BitVec.toNat_ofNat, Nat.mod_eq_of_lt (by omega)]
      have hoff (strides : ℕ → Word) :
          c.offsetFrom strides c.ndim (idx : Word) = c.position strides (c.coord idx) := by
        rw [offsetFrom_eq, hnat]
        rfl
      exact ⟨hoff _, fun p => hoff _⟩
    · exact fun p s x hcontig h => srcAddress_add hcontig h
    · exact hcovers.mpr hends
    · exact finite_events c
    · exact fun init X m hinit h => outcome hacc hends hinit h

def smallCall : Call where
  startCoord dim := if dim = 0 then 1 else 2
  boundary dim := if dim = 0 then 3 else 5
  ndim := 2
  numPes := 2
  root := 1
  sizeofT := 4
  dstData := 4096
  dstStrides dim := if dim = 0 then 5 else 1
  srcData _ := 8192
  srcStrides _ dim := if dim = 0 then 3 else 1
  source p address := p + address.toNat
  root_lt := Nat.one_lt_two
  numPes_le := by decide
  sizeofT_mem := .inr (.inr (.inl rfl))

theorem small_call_correct : Correct smallCall (· + ·) :=
  ((tile_reduce_correct_iff smallCall (· + ·)).2 ⟨by decide, by decide, by decide⟩).mpr
    (by unfold Call.LoopEnds; decide)

def hugeCall : Call where
  startCoord _ := 0
  boundary _ := BitVec.allOnes 64
  ndim := 1
  numPes := 256
  root := 0
  sizeofT := 8
  dstData := 4096
  dstStrides _ := 0
  srcData _ := 8192
  srcStrides _ _ := 0
  source _ _ := 1
  root_lt := by decide
  numPes_le := by decide
  sizeofT_mem := .inr (.inr (.inr rfl))

/-- Behind the segment at `2 ^ 64 - 4096` the loop starts again. -/
theorem huge_call_starts_again : hugeCall.Accepted ∧ ¬Correct hugeCall (· + ·) := by
  have hacc : hugeCall.Accepted := ⟨by decide, by decide, by decide⟩
  have hwrap : ¬hugeCall.LoopEnds := by
    unfold Call.LoopEnds
    decide
  exact ⟨hacc, fun h => hwrap ((covered_iff hacc.2.1 hacc.1).mp h.covers)⟩

end Calls

end GdaTileReduce
