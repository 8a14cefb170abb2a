import Rocshmem.TileCopies

/-! Tile copies over memory by the threads of a call. A thread has no result where its `int`
arithmetic overflows. -/
namespace TileMemcpy

open ThreadPutPartition (turnsFrom exists_of_mem_turnsFrom)
open TileCopies Multiset

inductive TileScope where
  | lane
  | wave
  | wg
  deriving DecidableEq

structure Launch where
  scope : TileScope
  wfSize : ℕ
  blockSize : ℕ
  /-- The flat id of the first of them. -/
  first : ℕ
  wfSize_eq : wfSize = 32 ∨ wfSize = 64
  blockSize_lt : blockSize < 2 ^ 31
  first_lt : first < blockSize
  aligned : scope = .wave → wfSize ∣ first
  whole : scope = .wg → first = 0

namespace Launch

variable (g : Launch)

def participants : ℕ :=
  match g.scope with
  | .lane => 1
  | .wave => min g.wfSize (g.blockSize - g.first)
  | .wg => g.blockSize

def workerCount : ℕ :=
  match g.scope with
  | .lane => 1
  | .wave => g.wfSize
  | .wg => g.blockSize

def tileScopeWorkers (id : ℕ) : ℕ × ℕ :=
  match g.scope with
  | .lane => (0, 1)
  | .wave => (id % g.wfSize, g.wfSize)
  | .wg => (id, g.blockSize)

def Covers (N : ℕ) : Prop := g.participants = g.workerCount ∨ N ≤ g.participants

instance (N : ℕ) : Decidable (g.Covers N) := inferInstanceAs (Decidable (_ ∨ _))

end Launch

def toInt32 (x : Word) : ℤ := (x.setWidth 32).toInt

def intTurns (n : ℕ) (N : ℤ) : ℕ → ℕ → Option (List ℕ)
  | 0, _ => some []
  | fuel + 1, i =>
    if (i : ℤ) < N then
      if i + n < 2 ^ 31 then (intTurns n N fuel (i + n)).map (i :: ·) else none
    else some []

def widths : List ℕ := [16, 8, 4, 2, 1]

def memcpyLane : List ℕ → Word → Word → ℕ → Multiset Copy
  | [], _, _, _ => 0
  | i :: is, dst, src, size =>
    if 0 < i ∧ i ≤ size then
      span dst src i + memcpyLane (i :: is) (dst + (i : Word)) (src + (i : Word)) (size - i)
    else memcpyLane is dst src size
termination_by is _ _ size => (is.length, size)

def memcpyWave (waveSize fuel waveTid : ℕ) : List ℕ → Word → Word → Word → Option (Multiset Copy)
  | [], _, _, _ => some 0
  | j :: js, dstDef, srcDef, size =>
    let cpySize := toInt32 (size / (j : Word))
    let moved := cpySize * j
    (intTurns waveSize cpySize fuel waveTid).bind fun turns =>
      -- `i * j` of a turn is below `cpy_size * j`, so it is this product that overflows
      if -2 ^ 31 ≤ moved ∧ moved < 2 ^ 31 then
        (memcpyWave waveSize fuel waveTid js (dstDef + BitVec.ofInt 64 moved)
          (srcDef + BitVec.ofInt 64 moved) (size - BitVec.ofInt 64 moved)).map fun rest =>
            ((turns : Multiset ℕ).bind fun i : ℕ =>
              span (dstDef + (i : Word) * (j : Word)) (srcDef + (i : Word) * (j : Word)) j) + rest
      else none

section Calls

variable (g : Launch) (fuel : ℕ)

def tileMemcpyContig (dst src bytes : Word) (id workerId : ℕ) : Option (Multiset Copy) :=
  match g.scope with
  | .wave => memcpyWave g.participants fuel (id % g.wfSize) widths dst src bytes
  | .wg => some (if workerId = 0 then memcpyLane widths dst src bytes.toNat else 0)
  | .lane => some (memcpyLane widths dst src bytes.toNat)

def tileMemcpyRma (put : Bool) (t : Tile) (id : ℕ) : Option (Multiset Copy) :=
  let view := tileMakeView t put
  let es := view.elementSize
  let (workerId, workerCount) := g.tileScopeWorkers id
  if view.ndim = 2 then
    match tileClassify view with
    | .contiguous =>
      tileMemcpyContig g fuel view.dstBase view.srcBase (view.ext0 * view.ext1 * es) id workerId
    | .rowContig =>
      let rowSize := view.ext1 * es
      some ((sizeTurns workerCount view.ext0.toNat fuel workerId : Multiset ℕ).bind fun i : ℕ =>
        memcpyLane widths (view.dstBase + (i : Word) * view.dstS0 * es)
          (view.srcBase + (i : Word) * view.srcS0 * es) rowSize.toNat)
    | .colContig =>
      let colSize := view.ext0 * es
      some ((sizeTurns workerCount view.ext1.toNat fuel workerId : Multiset ℕ).bind fun j : ℕ =>
        memcpyLane widths (view.dstBase + (j : Word) * view.dstS1 * es)
          (view.srcBase + (j : Word) * view.srcS1 * es) colSize.toNat)
    | .strided =>
      let totalElements := toInt32 (view.ext0 * view.ext1)
      (intTurns workerCount totalElements fuel workerId).map fun turns : List ℕ =>
        (turns : Multiset ℕ).bind fun idx : ℕ =>
          let i : Word := (idx / view.ext1.toNat : ℕ)
          let j : Word := (idx % view.ext1.toNat : ℕ)
          memcpyLane widths (view.dstBase + (i * view.dstS0 + j * view.dstS1) * es)
            (view.srcBase + (i * view.srcS0 + j * view.srcS1) * es) es.toNat
  else if view.ndim = 1 then
    if tileClassify view = .contiguous then
      tileMemcpyContig g fuel view.dstBase view.srcBase (view.ext0 * es) id workerId
    else
      some ((sizeTurns workerCount view.ext0.toNat fuel workerId : Multiset ℕ).bind fun i : ℕ =>
        memcpyLane widths (view.dstBase + (i : Word) * view.dstS0 * es)
          (view.srcBase + (i : Word) * view.srcS0 * es) es.toNat)
  else some 0

end Calls

namespace Launch

variable (g : Launch)

theorem participants_pos : 0 < g.participants := by
  have hfirst := g.first_lt
  have hwf := g.wfSize_eq
  rw [participants]
  split <;> omega

theorem participants_le : g.participants ≤ g.workerCount := by
  rw [participants, workerCount]
  split <;> omega

theorem workerCount_lt : g.workerCount < 2 ^ 31 := by
  have hwf := g.wfSize_eq
  have hblock := g.blockSize_lt
  rw [workerCount]
  split <;> omega

theorem workers {p : ℕ} (hp : p < g.participants) :
    g.tileScopeWorkers (g.first + p) = (p, g.workerCount) := by
  rw [participants] at hp
  rw [tileScopeWorkers, workerCount]
  split at hp
  · rw [Nat.lt_one_iff.mp hp]
  next hwave =>
    obtain ⟨k, hk⟩ := g.aligned hwave
    have hmod : (g.first + p) % g.wfSize = p := by
      rw [hk, Nat.mul_add_mod, Nat.mod_eq_of_lt (by omega)]
    rw [hmod]
  next hwg => rw [g.whole hwg, zero_add]

theorem covers_iff (N : ℕ) : (∀ i < N, i % g.workerCount < g.participants) ↔ g.Covers N := by
  have hpos := g.participants_pos
  have hle := g.participants_le
  constructor
  · intro h
    by_contra hnot
    rw [Covers, not_or] at hnot
    have hturn := h g.participants (by omega)
    rw [Nat.mod_eq_of_lt (by omega)] at hturn
    omega
  · rintro (h | h) i hi
    · rw [h]
      exact Nat.mod_lt i (by omega)
    · exact lt_of_le_of_lt (Nat.mod_le _ _) (by omega)

end Launch

section Loops

variable {n fuel i : ℕ} {N : ℤ}

theorem intTurns_eq : intTurns n N fuel i =
    if ∀ x ∈ turnsFrom n N.toNat fuel i, x + n < 2 ^ 31 then some (turnsFrom n N.toNat fuel i)
    else none := by
  induction fuel generalizing i with
  | zero => simp [intTurns, turnsFrom]
  | succ fuel ih =>
    grind [turnsFrom, intTurns]

theorem memcpyLane_eq {is : List ℕ} (hlast : is.getLast? = some 1) (dst src : Word) (size : ℕ) :
    memcpyLane is dst src size = span dst src size := by
  fun_induction memcpyLane is dst src size with
  | case1 => simp at hlast
  | case2 i is dst src size h ih =>
    rw [ih hlast, ← span_add, Nat.add_sub_cancel' h.2]
  | case3 i is dst src size h ih =>
    cases is with
    | nil =>
      obtain rfl : i = 1 := by simpa using hlast
      obtain rfl : size = 0 := by omega
      rw [memcpyLane]
      rfl
    | cons k is => exact ih (by simpa using hlast)

theorem memcpyLane_widths (dst src : Word) (size : ℕ) :
    memcpyLane widths dst src size = span dst src size := memcpyLane_eq rfl dst src size

end Loops

def Moves (r : ℕ) (thread : ℕ → Option (Multiset Copy)) (c : Multiset Copy) : Prop :=
  ∃ m : ℕ → Multiset Copy, (∀ p < r, thread p = some (m p)) ∧ (range r).bind m = c

theorem moves_some {r : ℕ} {m : ℕ → Multiset Copy} {c : Multiset Copy} :
    Moves r (fun p => some (m p)) c ↔ (range r).bind m = c := by
  constructor
  · rintro ⟨m', hm, rfl⟩
    exact bind_congr fun p hp => Option.some.inj (hm p (mem_range.mp hp))
  · exact fun h => ⟨m, fun _ _ => rfl, h⟩

theorem moves_congr {r : ℕ} {f f' : ℕ → Option (Multiset Copy)} {c : Multiset Copy}
    (h : ∀ p < r, f p = f' p) : Moves r f c ↔ Moves r f' c := by
  grind [Moves]

section Waves

variable {r fuel j : ℕ} {js : List ℕ} {d s size : Word} {c : Multiset Copy}

theorem toInt32_of_lt {x : Word} (hx : x.toNat < 2 ^ 31) : toInt32 x = x.toNat := by
  grind [toInt32]

theorem toInt32_lt (x : Word) : toInt32 x < 2 ^ 31 := by
  have h := BitVec.toInt_lt (x := x.setWidth 32)
  exact h

theorem memcpyWave_cons {p : ℕ} {m : Multiset Copy}
    (h : memcpyWave r fuel p (j :: js) d s size = some m) :
    ∃ rest, toInt32 (size / (j : Word)) * j < 2 ^ 31 ∧
      memcpyWave r fuel p js (d + BitVec.ofInt 64 (toInt32 (size / (j : Word)) * j))
        (s + BitVec.ofInt 64 (toInt32 (size / (j : Word)) * j))
        (size - BitVec.ofInt 64 (toInt32 (size / (j : Word)) * j)) = some rest ∧
      m = ((turnsFrom r (toInt32 (size / (j : Word))).toNat fuel p : Multiset ℕ).bind fun i : ℕ =>
        span (d + (i : Word) * (j : Word)) (s + (i : Word) * (j : Word)) j) + rest := by
  rw [memcpyWave] at h
  obtain ⟨turns, hturns, h⟩ := Option.bind_eq_some_iff.mp h
  rw [intTurns_eq] at hturns
  split at hturns
  next =>
    split at h
    next hfits =>
      obtain ⟨rest, hrest, rfl⟩ := Option.map_eq_some_iff.mp h
      cases hturns
      exact ⟨rest, hfits.2, hrest, rfl⟩
    next => cases h
  next => cases hturns

theorem toNat_mul_lt {x : ℤ} (h : x * j < 2 ^ 31) : x.toNat * j < 2 ^ 31 := by
  grind

theorem card_le_of_moves (hr : 0 < r) (hfuel : 2 ^ 31 ≤ fuel)
    (h : Moves r (fun p => memcpyWave r fuel p js d s size) c) : c.card ≤ js.length * 2 ^ 31 := by
  induction js generalizing d s size c with
  | nil =>
    obtain ⟨m, hm, rfl⟩ := h
    have hzero : (range r).bind m = (range r).bind fun _ => 0 :=
      bind_congr fun p hp => (Option.some.inj (hm p (mem_range.mp hp))).symm
    rw [hzero, bind_zero]
    exact Nat.zero_le _
  | cons j js ih =>
    obtain ⟨m, hm, rfl⟩ := h
    choose! rest hfits hrest heq using fun p hp => memcpyWave_cons (hm p hp)
    have hsplit := bind_congr fun p hp => heq p (mem_range.mp hp)
    rw [hsplit, bind_add, ← bind_assoc, bind_turnsFrom le_rfl
      (by have := toInt32_lt (size / (j : Word)); omega), card_add,
      card_bind_of_const fun i => card_span _ _ j]
    have hrec := ih ⟨rest, hrest, rfl⟩
    have hstage := toNat_mul_lt (hfits 0 hr)
    have hle := Nat.mul_le_mul_right j (card_range (toInt32 (size / (j : Word))).toNat ▸
      card_le_card (filter_le (fun i => i % r < r) (range (toInt32 (size / (j : Word))).toNat)))
    rw [List.length_cons, add_mul]
    omega

theorem moves_cons (hr : 0 < r) (hfuel : 2 ^ 31 ≤ fuel) (hj : j < 2 ^ 64)
    (hsize : size.toNat < 2 ^ 31) (hturn : size.toNat / j + r ≤ 2 ^ 31)
    (hrest : ∀ d' s', Moves r (fun p => memcpyWave r fuel p js d' s' (size % (j : Word)))
      (span d' s' (size % (j : Word)).toNat)) :
    Moves r (fun p => memcpyWave r fuel p (j :: js) d s size) (span d s size.toNat) := by
  have hcast : (j : Word).toNat = j := by
    rw [BitVec.natCast_eq_ofNat, BitVec.toNat_ofNat, Nat.mod_eq_of_lt hj]
  have hrem : (size % (j : Word)).toNat = size.toNat % j := by rw [BitVec.toNat_umod, hcast]
  have hdiv : (size / (j : Word)).toNat = size.toNat / j := by rw [BitVec.toNat_udiv, hcast]
  have hcpy : toInt32 (size / (j : Word)) = (size.toNat / j : ℕ) := by
    rw [toInt32_of_lt (by omega), hdiv]
  have hmoved := Nat.div_mul_le_self size.toNat j
  have hword : BitVec.ofInt 64 ((size.toNat / j : ℕ) * j : ℤ) =
      ((size.toNat / j * j : ℕ) : Word) := by
    rw [← Nat.cast_mul]
    exact BitVec.ofInt_natCast 64 _
  have hleft : size - ((size.toNat / j * j : ℕ) : Word) = size % (j : Word) := by
    have hpart : ((size.toNat / j * j : ℕ) : Word).toNat = size.toNat / j * j := by
      rw [BitVec.natCast_eq_ofNat, BitVec.toNat_ofNat, Nat.mod_eq_of_lt (by omega)]
    apply BitVec.eq_of_toNat_eq
    rw [BitVec.toNat_sub_of_le (BitVec.le_def.mpr (hpart.trans_le hmoved)), hpart, hrem]
    have hmod := Nat.div_add_mod' size.toNat j
    omega
  obtain ⟨m, hm, hbind⟩ := hrest (d + ((size.toNat / j * j : ℕ) : Word))
    (s + ((size.toNat / j * j : ℕ) : Word))
  refine ⟨fun p => ((turnsFrom r (size.toNat / j) fuel p : Multiset ℕ).bind fun i : ℕ =>
    span (d + (i : Word) * (j : Word)) (s + (i : Word) * (j : Word)) j) + m p, fun p hp => ?_, ?_⟩
  · have hno : ∀ x ∈ turnsFrom r (size.toNat / j) fuel p, x + r < 2 ^ 31 := fun x hx => by
      have hlt := (exists_of_mem_turnsFrom hx).1
      omega
    have hfits : -2 ^ 31 ≤ ((size.toNat / j : ℕ) * j : ℤ) ∧
        ((size.toNat / j : ℕ) * j : ℤ) < 2 ^ 31 := by
      rw [← Nat.cast_mul]
      omega
    simp only [memcpyWave, hcpy, intTurns_eq, Int.toNat_natCast, if_pos hno, Option.bind_some,
      if_pos hfits, hword, hleft, hm p hp, Option.map_some]
  · rw [bind_add, hbind, ← Multiset.bind_assoc, bind_turnsFrom le_rfl (by omega),
      filter_eq_self.mpr fun i _ => Nat.mod_lt i hr, ← span_mul, ← span_add, hrem,
      Nat.div_add_mod']

theorem moves_small (hr : 0 < r) (hle : r ≤ 2 ^ 30) (hfuel : 2 ^ 31 ≤ fuel)
    (hjs : ∀ j ∈ js, j < 2 ^ 64) (hsize : size.toNat < 2 ^ 30)
    (hlast : size.toNat = 0 ∨ js.getLast? = some 1) :
    Moves r (fun p => memcpyWave r fuel p js d s size) (span d s size.toNat) := by
  induction js generalizing d s size with
  | nil =>
    have hzero : size.toNat = 0 := by simpa using hlast
    rw [hzero]
    exact ⟨fun _ => 0, fun _ _ => rfl, bind_zero _⟩
  | cons j js ih =>
    have hj := hjs j List.mem_cons_self
    have hdiv := Nat.div_le_self size.toNat j
    refine moves_cons hr hfuel hj (by omega) (by omega) fun d' s' => ?_
    have hrem : (size % (j : Word)).toNat = size.toNat % j := by
      rw [BitVec.toNat_umod, BitVec.natCast_eq_ofNat, BitVec.toNat_ofNat, Nat.mod_eq_of_lt hj]
    have hmod := Nat.mod_le size.toNat j
    refine ih (fun k hk => hjs k (List.mem_cons_of_mem j hk)) (by omega) ?_
    rw [hrem]
    rcases hlast with hzero | hlast
    · exact .inl (by omega)
    · grind

theorem moves_wave_iff (hr : 0 < r) (hle : r ≤ 2 ^ 30) (hfuel : 2 ^ 31 ≤ fuel) :
    Moves r (fun p => memcpyWave r fuel p widths d s size) (span d s size.toNat) ↔
      size.toNat < 2 ^ 31 := by
  constructor
  · intro h
    by_contra hlarge
    have hcard := card_le_of_moves hr hfuel h
    rw [card_span, show widths.length = 5 from rfl] at hcard
    obtain ⟨m, hm, -⟩ := h
    obtain ⟨-, hfits, -⟩ := memcpyWave_cons (hm 0 hr)
    have hdiv : (size / ((16 : ℕ) : Word)).toNat = size.toNat / 16 := BitVec.toNat_udiv
    rw [toInt32_of_lt (by omega), hdiv] at hfits
    omega
  · intro h
    have hrem : (size % ((16 : ℕ) : Word)).toNat = size.toNat % 16 := BitVec.toNat_umod
    exact moves_cons hr hfuel (by decide) h (by omega) fun d' s' =>
      moves_small hr hle hfuel (by decide) (by omega) (.inr rfl)

end Waves

def Settles (r : ℕ) (thread : ℕ → ℕ → Option (Multiset Copy)) (c : Multiset Copy) : Prop :=
  ∃ turns, ∀ fuel ≥ turns, Moves r (thread fuel) c

theorem settles_iff {r : ℕ} {thread : ℕ → ℕ → Option (Multiset Copy)} {c : Multiset Copy}
    {P : Prop} (k : ℕ) (h : ∀ fuel ≥ k, Moves r (thread fuel) c ↔ P) : Settles r thread c ↔ P := by
  constructor
  · rintro ⟨turns, hturns⟩
    exact (h (max turns k) (le_max_right _ _)).mp (hturns _ (le_max_left _ _))
  · exact fun hP => ⟨k, fun fuel hfuel => (h fuel hfuel).mpr hP⟩

section Splits

variable {g : Launch} {f : ℕ → Multiset Copy} {N k fuel : ℕ}

theorem filter_bind_eq_iff {P : ℕ → Prop} [DecidablePred P] (hcard : ∀ i, (f i).card = k) :
    ((range N).filter P).bind f = (range N).bind f ↔ k = 0 ∨ ∀ i < N, P i := by
  constructor
  · intro h
    rcases Nat.eq_zero_or_pos k with hk | hk
    · exact .inl hk
    · have hcards := congrArg card h
      rw [card_bind_of_const hcard, card_bind_of_const hcard] at hcards
      have hall := eq_of_le_of_card_le (filter_le P (range N))
        (Nat.eq_of_mul_eq_mul_right hk hcards).ge
      exact .inr fun i hi => filter_eq_self.mp hall i (mem_range.mpr hi)
  · rintro (rfl | h)
    · have hzero : f = fun _ => 0 := funext fun i => card_eq_zero.mp (hcard i)
      rw [hzero, bind_zero, bind_zero]
    · rw [filter_eq_self.mpr fun i hi => h i (mem_range.mp hi)]

theorem turns_iff (hcard : ∀ i, (f i).card = k) (hsize : N * k < 2 ^ 63) (hfuel : 2 ^ 63 ≤ fuel) :
    Moves g.participants (fun p => some
      ((sizeTurns g.workerCount N fuel p : Multiset ℕ).bind f)) ((range N).bind f) ↔
    N * k = 0 ∨ g.Covers N := by
  rw [moves_some]
  rcases Nat.eq_zero_or_pos k with rfl | hk
  · have hzero : f = fun _ => 0 := funext fun i => card_eq_zero.mp (hcard i)
    simp [hzero]
  · have hN : N < 2 ^ 63 := lt_of_le_of_lt (Nat.le_mul_of_pos_right N hk) hsize
    have hlt := g.workerCount_lt
    rw [bind_sizeTurns g.participants_le (by omega) (by omega), filter_bind_eq_iff hcard,
      g.covers_iff]
    constructor
    · rintro (h | h)
      · omega
      · exact .inr h
    · rintro (h | h)
      · obtain rfl : N = 0 := (Nat.mul_eq_zero.mp h).resolve_right (by omega)
        exact .inr (.inr (Nat.zero_le _))
      · exact .inr h

theorem contig_iff {d s bytes : Word} (hfuel : 2 ^ 31 ≤ fuel) :
    Moves g.participants (fun p => tileMemcpyContig g fuel d s bytes (g.first + p) p)
      (span d s bytes.toNat) ↔ (g.scope = .wave → bytes.toNat < 2 ^ 31) := by
  have hpos := g.participants_pos
  cases hscope : g.scope with
  | lane =>
    have hone : g.participants = 1 := by rw [Launch.participants, hscope]
    simp only [tileMemcpyContig, hscope, moves_some, memcpyLane_widths, hone]
    simp
  | wave =>
    have hwave (p : ℕ) (hp : p < g.participants) :
        tileMemcpyContig g fuel d s bytes (g.first + p) p =
          memcpyWave g.participants fuel p widths d s bytes := by
      have hid := g.workers hp
      simp only [Launch.tileScopeWorkers, hscope, Prod.mk.injEq] at hid
      simp only [tileMemcpyContig, hscope, hid.1]
    have hle : g.participants ≤ 2 ^ 30 := by
      have hwf := g.wfSize_eq
      simp only [Launch.participants, hscope]
      omega
    rw [moves_congr hwave, moves_wave_iff hpos hle hfuel]
    simp
  | wg =>
    simp only [tileMemcpyContig, hscope, moves_some, memcpyLane_widths]
    simp [bind_leader hpos]

def Launch.InRange (g : Launch) (N : ℕ) : Prop :=
  ∀ x < N, x % g.workerCount < g.participants → x + g.workerCount < 2 ^ 31

theorem inRange_iff (hfuel : N ≤ fuel) : g.InRange N ↔ ∀ p < g.participants,
    ∀ x ∈ turnsFrom g.workerCount N fuel p, x + g.workerCount < 2 ^ 31 := by
  have hle := g.participants_le
  have hmem (p : ℕ) (hp : p < g.participants) (x : ℕ) :
      x ∈ turnsFrom g.workerCount N fuel p ↔ x < N ∧ x % g.workerCount = p := by
    rw [← mem_coe, turnsFrom_eq (lt_of_lt_of_le hp hle) hfuel, mem_filter, mem_range]
  constructor
  · intro h p hp x hx
    obtain ⟨hlt, hmod⟩ := (hmem p hp x).mp hx
    exact h x hlt (hmod ▸ hp)
  · intro h x hlt hx
    exact h _ hx x ((hmem _ hx x).mpr ⟨hlt, rfl⟩)

theorem int_turns_iff {total : ℤ} (hcard : ∀ i, (f i).card = k) (htotal : total < 2 ^ 31)
    (hN : N < 2 ^ 31 → total = N) (hfuel : 2 ^ 31 ≤ fuel) :
    Moves g.participants (fun p => (intTurns g.workerCount total fuel p).map fun turns : List ℕ =>
      (turns : Multiset ℕ).bind f) ((range N).bind f) ↔
    g.InRange total.toNat ∧ (N * k = 0 ∨ N < 2 ^ 31 ∧ g.Covers N) := by
  have hrange : g.InRange total.toNat ↔ ∀ p < g.participants,
      ∀ x ∈ turnsFrom g.workerCount total.toNat fuel p, x + g.workerCount < 2 ^ 31 :=
    inRange_iff (by omega)
  by_cases hin : g.InRange total.toNat
  · have hthread (p : ℕ) (hp : p < g.participants) :
        ((intTurns g.workerCount total fuel p).map fun turns : List ℕ =>
          (turns : Multiset ℕ).bind f) =
          some ((turnsFrom g.workerCount total.toNat fuel p : Multiset ℕ).bind f) := by
      rw [intTurns_eq, if_pos (hrange.mp hin p hp), Option.map_some]
    rw [moves_congr hthread, moves_some, ← Multiset.bind_assoc,
      bind_turnsFrom g.participants_le (by omega), and_iff_right hin, ← g.covers_iff]
    constructor
    · intro h
      rcases Nat.eq_zero_or_pos k with rfl | hk
      · exact .inl (mul_zero N)
      · have hcards := congrArg card h
        rw [card_bind_of_const hcard, card_bind_of_const hcard] at hcards
        have hle := card_le_card
          (filter_le (fun i => i % g.workerCount < g.participants) (range total.toNat))
        rw [Nat.eq_of_mul_eq_mul_right hk hcards, card_range, card_range] at hle
        have hlt : N < 2 ^ 31 := by omega
        rw [hN hlt, Int.toNat_natCast, filter_bind_eq_iff hcard] at h
        exact .inr ⟨hlt, h.resolve_left (by omega)⟩
    · rintro (h | ⟨hlt, hcov⟩)
      · rcases Nat.mul_eq_zero.mp h with rfl | rfl
        · rw [hN (by decide)]
          rfl
        · have hzero : f = fun _ => 0 := funext fun i => card_eq_zero.mp (hcard i)
          rw [hzero, bind_zero, bind_zero]
      · rw [hN hlt, Int.toNat_natCast]
        exact (filter_bind_eq_iff hcard).mpr (.inr hcov)
  · grind [Moves, intTurns_eq]

theorem pieces_iff {a b : Word} {d s : ℕ → Word} (hsize : N * (a.toNat * b.toNat) < 2 ^ 63)
    (hfuel : 2 ^ 63 ≤ fuel) :
    Moves g.participants (fun p => some ((sizeTurns g.workerCount N fuel p : Multiset ℕ).bind
      fun i => span (d i) (s i) (a * b).toNat))
      ((range N).bind fun i => span (d i) (s i) (a.toNat * b.toNat)) ↔
    N * (a.toNat * b.toNat) = 0 ∨ g.Covers N := by
  rcases Nat.eq_zero_or_pos N with rfl | hN
  · rw [zero_mul]
    exact (turns_iff (f := fun i => span (d i) (s i) (a * b).toNat) (k := (a * b).toNat)
      (fun _ => card_span _ _ _) (by omega) hfuel).trans (by simp)
  · have hone : 1 * (a.toNat * b.toNat) ≤ N * (a.toNat * b.toNat) := Nat.mul_le_mul_right _ hN
    rw [BitVec.toNat_mul_of_lt (by omega)]
    exact turns_iff (fun _ => card_span _ _ _) hsize hfuel

end Splits

def Right (g : Launch) (v : TileView) : Prop :=
  if v.ndim = 2 then
    match tileClassify v with
    | .contiguous => g.scope = .wave → v.size < 2 ^ 31
    | .rowContig => v.size = 0 ∨ g.Covers v.ext0.toNat
    | .colContig => v.size = 0 ∨ g.Covers v.ext1.toNat
    | .strided => g.InRange (toInt32 (v.ext0 * v.ext1)).toNat ∧
        (v.size = 0 ∨ v.ext0.toNat * v.ext1.toNat < 2 ^ 31 ∧ g.Covers (v.ext0.toNat * v.ext1.toNat))
  else if tileClassify v = .contiguous then g.scope = .wave → v.size < 2 ^ 31
  else v.size = 0 ∨ g.Covers v.ext0.toNat

section Calls

variable {g : Launch} {t : Tile} {put : Bool} {fuel : ℕ} {v : TileView}

theorem plane_iff (hv : tileMakeView t put = v) (hdim : v.ndim = 2) (hsize : v.size < 2 ^ 63)
    (hfuel : 2 ^ 63 ≤ fuel) :
    Moves g.participants (fun p => tileMemcpyRma g fuel put t (g.first + p)) v.copies ↔
      Right g v := by
  have hvsize : v.size = v.ext0.toNat * v.ext1.toNat * v.elementSize.toNat := by
    rw [TileView.size, if_pos hdim]
  rw [copies_of_plane hdim, Right, if_pos hdim]
  cases hclass : tileClassify v with
  | contiguous =>
    have hbytes : (v.ext0 * v.ext1 * v.elementSize).toNat = v.size := by
      rw [hvsize, BitVec.toNat_mul, BitVec.toNat_mul, Nat.mod_mul_mod, Nat.mod_eq_of_lt (by omega)]
    have hthread (p : ℕ) (hp : p < g.participants) : tileMemcpyRma g fuel put t (g.first + p) =
        tileMemcpyContig g fuel v.dstBase v.srcBase (v.ext0 * v.ext1 * v.elementSize)
          (g.first + p) p := by
      simp only [tileMemcpyRma, hv, g.workers hp, hdim, if_true, hclass]
    rw [moves_congr hthread, ← mul_assoc, ← hvsize, ← hbytes]
    exact contig_iff (by omega)
  | rowContig =>
    have hthread (p : ℕ) (hp : p < g.participants) : tileMemcpyRma g fuel put t (g.first + p) =
        some ((sizeTurns g.workerCount v.ext0.toNat fuel p : Multiset ℕ).bind fun i : ℕ =>
          span (v.dstBase + (i : Word) * v.dstS0 * v.elementSize)
            (v.srcBase + (i : Word) * v.srcS0 * v.elementSize) (v.ext1 * v.elementSize).toNat) := by
      simp only [tileMemcpyRma, hv, g.workers hp, hdim, if_true, hclass, memcpyLane_widths]
    have hrows : v.size = v.ext0.toNat * (v.ext1.toNat * v.elementSize.toNat) := by
      rw [hvsize, mul_assoc]
    rw [moves_congr hthread, hrows]
    exact pieces_iff (hrows ▸ hsize) hfuel
  | colContig =>
    have hthread (p : ℕ) (hp : p < g.participants) : tileMemcpyRma g fuel put t (g.first + p) =
        some ((sizeTurns g.workerCount v.ext1.toNat fuel p : Multiset ℕ).bind fun j : ℕ =>
          span (v.dstBase + (j : Word) * v.dstS1 * v.elementSize)
            (v.srcBase + (j : Word) * v.srcS1 * v.elementSize) (v.ext0 * v.elementSize).toNat) := by
      simp only [tileMemcpyRma, hv, g.workers hp, hdim, if_true, hclass, memcpyLane_widths]
    have hcols : v.size = v.ext1.toNat * (v.ext0.toNat * v.elementSize.toNat) := by
      rw [hvsize, ← mul_assoc, mul_comm v.ext1.toNat]
    rw [moves_congr hthread, hcols]
    exact pieces_iff (hcols ▸ hsize) hfuel
  | strided =>
    have hthread (p : ℕ) (hp : p < g.participants) : tileMemcpyRma g fuel put t (g.first + p) =
        (intTurns g.workerCount (toInt32 (v.ext0 * v.ext1)) fuel p).map fun turns : List ℕ =>
          (turns : Multiset ℕ).bind fun idx : ℕ =>
            v.element (idx / v.ext1.toNat) (idx % v.ext1.toNat) := by
      simp only [tileMemcpyRma, hv, g.workers hp, hdim, if_true, hclass, memcpyLane_widths,
        TileView.element]
    rw [moves_congr hthread, hvsize]
    refine int_turns_iff (fun _ => card_span _ _ _) (toInt32_lt _) (fun hlt => ?_) (by omega)
    have hmul : (v.ext0 * v.ext1).toNat = v.ext0.toNat * v.ext1.toNat :=
      BitVec.toNat_mul_of_lt (by omega)
    rw [toInt32_of_lt (by omega), hmul]

theorem line_iff (hv : tileMakeView t put = v) (hdim : v.ndim = 1) (hsize : v.size < 2 ^ 63)
    (hfuel : 2 ^ 63 ≤ fuel) :
    Moves g.participants (fun p => tileMemcpyRma g fuel put t (g.first + p)) v.copies ↔
      Right g v := by
  have hplane : v.ndim ≠ 2 := by omega
  have hvsize : v.size = v.ext0.toNat * v.elementSize.toNat := by
    rw [TileView.size, if_neg hplane]
  rw [Right, if_neg hplane]
  split
  next hclass =>
    have hunit : v.srcS0 = 1 ∧ v.dstS0 = 1 := by
      grind [tileClassify]
    have hbytes : (v.ext0 * v.elementSize).toNat = v.size := by
      rw [hvsize, BitVec.toNat_mul_of_lt (by omega)]
    have hthread (p : ℕ) (hp : p < g.participants) : tileMemcpyRma g fuel put t (g.first + p) =
        tileMemcpyContig g fuel v.dstBase v.srcBase (v.ext0 * v.elementSize) (g.first + p) p := by
      simp only [tileMemcpyRma, hv, g.workers hp, hdim, OfNat.one_ne_ofNat, if_false, if_true,
        hclass]
    rw [moves_congr hthread, copies_of_line hplane hunit.1 hunit.2, ← hvsize, ← hbytes]
    exact contig_iff (by omega)
  next hclass =>
    have hthread (p : ℕ) (hp : p < g.participants) : tileMemcpyRma g fuel put t (g.first + p) =
        some ((sizeTurns g.workerCount v.ext0.toNat fuel p : Multiset ℕ).bind fun i : ℕ =>
          v.element i 0) := by
      simp only [tileMemcpyRma, hv, g.workers hp, hdim, OfNat.one_ne_ofNat, if_false, if_true,
        hclass, memcpyLane_widths, TileView.element]
      simp
    rw [moves_congr hthread, TileView.copies, if_neg hplane, hvsize]
    exact turns_iff (fun _ => card_span _ _ _) (hvsize ▸ hsize) hfuel

def Exact (g : Launch) (put : Bool) (t : Tile) : Prop :=
  Settles g.participants (fun fuel p => tileMemcpyRma g fuel put t (g.first + p)) (t.reference put)

theorem tile_memcpy_exact_iff (g : Launch) (put : Bool) (t : Tile) (hordered : t.Ordered)
    (hdim : t.ndim = 1 ∨ t.ndim = 2) (hsize : t.size < 2 ^ 63) :
    Exact g put t ↔ Right g (tileMakeView t put) := by
  have hview : (tileMakeView t put).size < 2 ^ 63 := by rwa [size_tileMakeView hordered hdim]
  have hndim : (tileMakeView t put).ndim = t.ndim := ndim_tileMakeView
  rw [Exact, ← copies_tileMakeView hordered hdim]
  refine settles_iff (2 ^ 63) fun fuel hfuel => ?_
  rcases hdim with hdim | hdim
  · exact line_iff rfl (hndim.trans hdim) hview hfuel
  · exact plane_iff rfl (hndim.trans hdim) hview hfuel

def twoRows : Tile where
  dstData := 4096
  srcData := 65536
  dstStrides k := if k = 0 then 2 else 1
  srcStrides k := if k = 0 then 2 else 1
  startCoord _ := 0
  boundary k := if k = 0 then 2 else 1
  ndim := 2
  elementSize := 1

def firstWave (blockSize : ℕ) (hpos : 0 < blockSize) (hlt : blockSize < 2 ^ 31) : Launch where
  scope := .wave
  wfSize := 64
  blockSize := blockSize
  first := 0
  wfSize_eq := .inr rfl
  blockSize_lt := hlt
  first_lt := hpos
  aligned _ := ⟨0, rfl⟩
  whole _ := rfl

theorem two_rows_by_full_wave : Exact (firstWave 64 (by decide) (by decide)) true twoRows :=
  (tile_memcpy_exact_iff _ true twoRows (by decide) (.inr rfl) (by decide)).mpr (.inr (.inl rfl))

/-- The only thread of the block copies the first row; the second falls to a lane that the
wavefront does not have. -/
theorem second_row_not_copied : ¬Exact (firstWave 1 (by decide) (by decide)) true twoRows := by
  have hordered : twoRows.Ordered := by decide
  rw [Exact, ← copies_tileMakeView hordered (.inr rfl)]
  rintro ⟨turns, hturns⟩
  have hright := (plane_iff rfl rfl (by decide) (le_max_right turns _)).mp
    (hturns _ (le_max_left turns (2 ^ 63)))
  have hnone : ¬(2 = 0 ∨ (1 = 64 ∨ 2 ≤ 1)) := by decide
  exact hnone hright

end Calls

section Cooperative

/-- `memcpy_wg` for a block and `memcpy_wave` for a wave of it; a single lane has no part here. -/
def memcpyShared (g : Launch) (fuel : ℕ) (dst src size : Word) (id : ℕ) : Option (Multiset Copy) :=
  match g.scope with
  | .wg => memcpyWave g.blockSize fuel id widths dst src size
  | .wave | .lane => memcpyWave g.participants fuel (id % g.wfSize) widths dst src size

theorem memcpyShared_iff {g : Launch} {fuel : ℕ} {dst src size : Word} (hscope : g.scope ≠ .lane)
    (hblock : g.blockSize ≤ 2 ^ 30) (hfuel : 2 ^ 31 ≤ fuel) :
    Moves g.participants (fun p => memcpyShared g fuel dst src size (g.first + p))
      (span dst src size.toNat) ↔ size.toNat < 2 ^ 31 := by
  have hle : g.participants ≤ 2 ^ 30 := by
    have hwf := g.wfSize_eq
    cases hs : g.scope <;> simp only [Launch.participants, hs] <;> omega
  have hthread (p : ℕ) (hp : p < g.participants) :
      memcpyShared g fuel dst src size (g.first + p) =
        memcpyWave g.participants fuel p widths dst src size := by
    have hid := g.workers hp
    cases hs : g.scope with
    | lane => exact absurd hs hscope
    | wave =>
      simp only [Launch.tileScopeWorkers, hs, Prod.mk.injEq] at hid
      simp only [memcpyShared, hs, hid.1]
    | wg =>
      simp only [Launch.tileScopeWorkers, hs, Prod.mk.injEq] at hid
      simp only [memcpyShared, hs, hid.1, Launch.participants]
  rw [moves_congr hthread, moves_wave_iff g.participants_pos hle hfuel]

/-- The bound on the block is far above the 1024 threads that a launch may ask for. -/
theorem memcpy_exact_iff (g : Launch) (hscope : g.scope ≠ .lane) (hblock : g.blockSize ≤ 2 ^ 30)
    (dst src size : Word) :
    Settles g.participants (fun fuel p => memcpyShared g fuel dst src size (g.first + p))
      (span dst src size.toNat) ↔ size.toNat < 2 ^ 31 :=
  settles_iff (2 ^ 31) fun _ hfuel => memcpyShared_iff hscope hblock hfuel

def fullBlock : Launch where
  scope := .wg
  wfSize := 64
  blockSize := 1024
  first := 0
  wfSize_eq := .inr rfl
  blockSize_lt := by decide
  first_lt := by decide
  aligned _ := ⟨0, rfl⟩
  whole _ := rfl

theorem block_copies_forty : 40 < 2 ^ 31 ∧ Settles fullBlock.participants
    (fun fuel p => memcpyShared fullBlock fuel 64 4096 40 (fullBlock.first + p))
      (span 64 4096 40) :=
  ⟨by decide, (memcpy_exact_iff fullBlock (by decide) (by decide) 64 4096 40).mpr (by decide)⟩

/-- The number of bytes that the first loop has moved is not an `int`. -/
theorem two_gigabytes_not_copied : ¬ Settles fullBlock.participants
    (fun fuel p => memcpyShared fullBlock fuel 64 4096 (2 ^ 31) (fullBlock.first + p))
      (span 64 4096 (2 ^ 31)) := by
  rintro ⟨turns, hturns⟩
  have hmoves := hturns _ (le_max_left turns (2 ^ 31))
  have hsmall : (2 ^ 31 : Word).toNat < 2 ^ 31 :=
    (memcpyShared_iff (by decide) (by decide) (le_max_right turns _)).mp hmoves
  exact absurd hsmall (by decide)

end Cooperative

end TileMemcpy
