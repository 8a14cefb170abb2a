import Mathlib

/-! The array of queue pairs of the GDA backend. It consists of rows of `num_pes` entries; the
default context has the first rows, each user context the rows after those of the one before.
The NIC of an entry, the array of a context, the exchange of the destinations and the choice of
the device code each compute the position of an entry on their own. -/
namespace GdaQueuePairLayout

open List

inductive NicPolicy where
  | roundRobin
  | perContext
  deriving DecidableEq

structure Layout where
  numPes : ℕ
  numNics : ℕ
  qpsPerPeDefaultCtx : ℕ
  qpsPerPeUsrCtx : ℕ
  maxNumContexts : ℕ
  nicPolicy : NicPolicy
  pes_pos : 0 < numPes
  nics_pos : 0 < numNics
  default_pos : 0 < qpsPerPeDefaultCtx

namespace Layout

variable (L : Layout)

def numQpsPerPe : ℕ := L.qpsPerPeDefaultCtx + L.qpsPerPeUsrCtx * L.maxNumContexts

def numQps : ℕ := L.numQpsPerPe * L.numPes

def nicIdxForQp (qpIdx : ℕ) : ℕ :=
  match L.nicPolicy with
  | .perContext =>
    let defaultBlock := L.qpsPerPeDefaultCtx * L.numPes
    if defaultBlock ≤ qpIdx ∧ 0 < L.qpsPerPeUsrCtx then
      (1 + (qpIdx - defaultBlock) / (L.qpsPerPeUsrCtx * L.numPes)) % L.numNics
    else 0 % L.numNics
  | .roundRobin => qpIdx / L.numPes % L.numNics

def nicOfRow (row : ℕ) : ℕ :=
  match L.nicPolicy with
  | .perContext =>
    if L.qpsPerPeDefaultCtx ≤ row ∧ 0 < L.qpsPerPeUsrCtx then
      (1 + (row - L.qpsPerPeDefaultCtx) / L.qpsPerPeUsrCtx) % L.numNics
    else 0 % L.numNics
  | .roundRobin => row % L.numNics

theorem nicIdxForQp_eq (i : ℕ) : L.nicIdxForQp i = L.nicOfRow (i / L.numPes) := by
  unfold nicIdxForQp nicOfRow
  cases L.nicPolicy with
  | roundRobin => rfl
  | perContext =>
    have hle : L.qpsPerPeDefaultCtx * L.numPes ≤ i ↔ L.qpsPerPeDefaultCtx ≤ i / L.numPes :=
      (Nat.le_div_iff_mul_le L.pes_pos).symm
    have hdiv : (i - L.qpsPerPeDefaultCtx * L.numPes) / (L.qpsPerPeUsrCtx * L.numPes) =
        (i / L.numPes - L.qpsPerPeDefaultCtx) / L.qpsPerPeUsrCtx := by
      rw [mul_comm L.qpsPerPeUsrCtx, ← Nat.div_div_eq_div_mul,
        mul_comm L.qpsPerPeDefaultCtx, Nat.sub_mul_div]
    simp only [hle, hdiv]

end Layout

section Ports

variable {α : Type*}

def swapNext (size : ℕ) (qps : ℕ → α) (cur : ℕ) : ℕ → α :=
  if cur + 1 < size then qps ∘ Equiv.swap cur (cur + 1) else qps

def Layout.swapPositions (L : Layout) : List ℕ :=
  (range' 1 (L.numQpsPerPe / 2) 2).flatMap fun i =>
    (range' 0 ((L.numPes + 1) / 2) 2).map fun p => i * L.numPes + p

def Layout.alternateQpPorts (L : Layout) (alternate : Bool) (qps : ℕ → α) : ℕ → α :=
  if L.maxNumContexts = 1 then qps
  else if alternate then L.swapPositions.foldl (swapNext L.numQps) qps
  else qps

variable {L : Layout} {size x cur : ℕ} {qps : ℕ → α} {l : List ℕ}

theorem foldl_swapNext_of_ne (h : ∀ cur ∈ l, x ≠ cur ∧ x ≠ cur + 1) :
    l.foldl (swapNext size) qps x = qps x := by
  induction l generalizing qps with
  | nil => rfl
  | cons cur l ih =>
    obtain ⟨hne, hne'⟩ := h cur mem_cons_self
    rw [foldl_cons, ih fun cur' h' => h cur' (mem_cons_of_mem _ h')]
    unfold swapNext
    split
    · exact congrArg qps (Equiv.swap_apply_of_ne_of_ne hne hne')
    · rfl

theorem foldl_swapNext_rel {r : ℕ → ℕ → Prop} {qps : ℕ → ℕ} (hq : ∀ x, r (qps x) x)
    (hr : ∀ cur ∈ l, cur + 1 < size → ∀ y x, r y (Equiv.swap cur (cur + 1) x) → r y x) (x : ℕ) :
    r (l.foldl (swapNext size) qps x) x := by
  induction l generalizing qps with
  | nil => exact hq x
  | cons cur l ih =>
    rw [foldl_cons]
    refine ih (fun x => ?_) fun cur' h' => hr cur' (mem_cons_of_mem _ h')
    unfold swapNext
    split
    next hlt => exact hr cur mem_cons_self hlt _ _ (hq _)
    next => exact hq x

theorem foldl_swapNext_bijective {qps : ℕ → ℕ} (hq : Function.Bijective qps) :
    Function.Bijective (l.foldl (swapNext size) qps) := by
  induction l generalizing qps with
  | nil => exact hq
  | cons cur l ih =>
    rw [foldl_cons]
    apply ih
    unfold swapNext
    split
    · exact hq.comp (Equiv.bijective _)
    · exact hq

theorem mem_swapPositions : cur ∈ L.swapPositions ↔
    ∃ i p, i % 2 = 1 ∧ i < L.numQpsPerPe ∧ p % 2 = 0 ∧ p < L.numPes ∧ cur = i * L.numPes + p := by
  simp only [Layout.swapPositions, mem_flatMap, mem_map, mem_range']
  constructor
  · rintro ⟨_, ⟨a, ha, rfl⟩, _, ⟨b, hb, rfl⟩, rfl⟩
    exact ⟨_, _, by omega, by omega, by omega, by omega, rfl⟩
  · rintro ⟨i, p, hi, hlt, hp, hpe, rfl⟩
    exact ⟨i, ⟨i / 2, by omega, by omega⟩, p, ⟨p / 2, by omega, by omega⟩, rfl⟩

theorem row_of_swap (h : cur ∈ L.swapPositions) (hlt : cur + 1 < L.numQps)
    (hrows : Even L.numPes ∨ L.numQpsPerPe ≤ 2) : (cur + 1) / L.numPes = cur / L.numPes := by
  obtain ⟨i, p, hi, hrow, hp, hpe, rfl⟩ := mem_swapPositions.mp h
  have hnext : p + 1 < L.numPes := by
    by_contra hge
    obtain hlast : p + 1 = L.numPes := by omega
    rcases hrows with ⟨m, hm⟩ | hrows
    · omega
    · have hend : (i + 1) * L.numPes < L.numQpsPerPe * L.numPes := by
        rw [Nat.add_mul, Nat.one_mul]
        unfold Layout.numQps at hlt
        omega
      have := Nat.lt_of_mul_lt_mul_right hend
      omega
  have hdiv : ∀ q < L.numPes, (i * L.numPes + q) / L.numPes = i := fun q hq => by
    rw [add_comm, Nat.add_mul_div_right _ _ L.pes_pos, Nat.div_eq_of_lt hq, zero_add]
  rw [add_assoc, hdiv _ hnext, hdiv _ hpe]

theorem row_kept (hrows : Even L.numPes ∨ L.numQpsPerPe ≤ 2) (x : ℕ) :
    L.swapPositions.foldl (swapNext L.numQps) id x / L.numPes = x / L.numPes := by
  refine foldl_swapNext_rel (r := fun y x => y / L.numPes = x / L.numPes) (fun _ => rfl)
    (fun cur hcur hlt y x h => h.trans ?_) x
  have hrow := row_of_swap hcur hlt hrows
  by_cases hne : x = cur
  · rw [hne, Equiv.swap_apply_left, hrow]
  · by_cases hne' : x = cur + 1
    · rw [hne', Equiv.swap_apply_right, hrow]
    · rw [Equiv.swap_apply_of_ne_of_ne hne hne']

theorem last_swapped (hodd : L.numPes % 2 = 1) (hrows : 3 ≤ L.numQpsPerPe) :
    L.swapPositions.foldl (swapNext L.numQps) id (2 * L.numPes - 1) = 2 * L.numPes := by
  have hpos := L.pes_pos
  obtain ⟨k, hk⟩ : ∃ k, L.numQpsPerPe / 2 = k + 1 := ⟨L.numQpsPerPe / 2 - 1, by omega⟩
  obtain ⟨m, hm⟩ : ∃ m, L.numPes = 2 * m + 1 := ⟨L.numPes / 2, by omega⟩
  have hhalf : (L.numPes + 1) / 2 = m + 1 := by omega
  have hsize : 2 * L.numPes < L.numQps := Nat.mul_lt_mul_of_pos_right hrows hpos
  rw [Layout.swapPositions, hk, range'_succ, flatMap_cons, foldl_append, hhalf,
    range'_concat, map_append, foldl_append, foldl_swapNext_of_ne]
  · have hlast : 1 * L.numPes + (0 + 2 * m) = 2 * L.numPes - 1 := by omega
    have hnext : 2 * L.numPes - 1 + 1 = 2 * L.numPes := by omega
    simp only [map_cons, map_nil, foldl_cons, foldl_nil, hlast, swapNext,
      hnext, if_pos hsize, Function.comp_apply, Equiv.swap_apply_left]
    refine foldl_swapNext_of_ne fun cur hcur => ?_
    obtain ⟨p, hp, rfl⟩ := mem_map.mp hcur
    obtain ⟨b, hb, rfl⟩ := mem_range'.mp hp
    omega
  · intro cur hcur
    simp only [mem_flatMap, mem_map, mem_range'] at hcur
    obtain ⟨_, ⟨a, -, rfl⟩, p, -, rfl⟩ := hcur
    have hle : 3 * L.numPes ≤ (1 + 2 + 2 * a) * L.numPes := Nat.mul_le_mul_right _ (by omega)
    omega

structure KeepsNics (L : Layout) (qps : ℕ → ℕ) : Prop where
  permutes : Function.Bijective qps
  row : ∀ i < L.numQps, qps i / L.numPes = i / L.numPes
  nic : ∀ i < L.numQps, L.nicIdxForQp (qps i) = L.nicIdxForQp i

def threePes : Layout where
  numPes := 3
  numNics := 2
  qpsPerPeDefaultCtx := 1
  qpsPerPeUsrCtx := 1
  maxNumContexts := 2
  nicPolicy := .roundRobin
  pes_pos := by decide
  nics_pos := by decide
  default_pos := by decide

end Ports

section Contexts

variable (L : Layout)

def Layout.ctxQpsPerPe (ctx : ℕ) : ℕ :=
  if ctx = 0 then L.qpsPerPeDefaultCtx else L.qpsPerPeUsrCtx

def Layout.ctxOffset (ctx : ℕ) : ℕ :=
  (if 0 < ctx then L.qpsPerPeDefaultCtx + L.qpsPerPeUsrCtx * (ctx - 1) else 0) * L.numPes

def Layout.InContext (ctx i : ℕ) : Prop :=
  L.ctxOffset ctx ≤ i ∧ i < L.ctxOffset ctx + L.ctxQpsPerPe ctx * L.numPes

def Layout.qpDestPe (i : ℕ) : ℕ := i % L.numPes

def Layout.deviceQp (ctx counter pe : ℕ) : ℕ :=
  L.ctxOffset ctx + (counter % L.ctxQpsPerPe ctx * L.numPes + pe)

def alltoallRow {β : Type*} (row : ℕ) (destInfo : ℕ → ℕ → β) (pe i : ℕ) : β :=
  if i / L.numPes = row then destInfo (i % L.numPes) (row * L.numPes + pe) else destInfo pe i

def exchangeQpDestInfo {β : Type*} (destInfo : ℕ → ℕ → β) : ℕ → ℕ → β :=
  (range L.numQpsPerPe).foldl (fun d row => alltoallRow L row d) destInfo

variable {L} {β : Type*} {ctx i row a b : ℕ}

theorem inContext_iff : L.InContext ctx i ↔
    (if 0 < ctx then L.qpsPerPeDefaultCtx + L.qpsPerPeUsrCtx * (ctx - 1) else 0) ≤ i / L.numPes ∧
    i / L.numPes < (if 0 < ctx then L.qpsPerPeDefaultCtx + L.qpsPerPeUsrCtx * (ctx - 1) else 0) +
      L.ctxQpsPerPe ctx := by
  rw [Layout.InContext, Layout.ctxOffset, ← Nat.add_mul, Nat.le_div_iff_mul_le L.pes_pos,
    Nat.div_lt_iff_lt_mul L.pes_pos]

theorem inContext_zero : L.InContext 0 i ↔ i / L.numPes < L.qpsPerPeDefaultCtx := by
  simp [inContext_iff, Layout.ctxQpsPerPe]

theorem inContext_succ : L.InContext (ctx + 1) i ↔ 0 < L.qpsPerPeUsrCtx ∧
    L.qpsPerPeDefaultCtx ≤ i / L.numPes ∧
    (i / L.numPes - L.qpsPerPeDefaultCtx) / L.qpsPerPeUsrCtx = ctx := by
  rcases Nat.eq_zero_or_pos L.qpsPerPeUsrCtx with hzero | hpos
  · simp [inContext_iff, Layout.ctxQpsPerPe, hzero]
  · have hdiv := Nat.div_eq_iff (x := i / L.numPes - L.qpsPerPeDefaultCtx) (y := ctx) hpos
    have hmul : L.qpsPerPeUsrCtx * ctx = ctx * L.qpsPerPeUsrCtx := mul_comm _ _
    rw [inContext_iff, hdiv]
    simp only [Nat.succ_pos, if_true, Nat.add_sub_cancel, Layout.ctxQpsPerPe, Nat.succ_ne_zero,
      if_false, hmul]
    omega

theorem lt_numQps : i < L.numQps ↔ i / L.numPes < L.numQpsPerPe :=
  (Nat.div_lt_iff_lt_mul L.pes_pos).symm

theorem existsUnique_context (hi : i < L.numQps) :
    ∃! ctx, ctx ≤ L.maxNumContexts ∧ L.InContext ctx i := by
  rw [lt_numQps, Layout.numQpsPerPe] at hi
  by_cases hrow : i / L.numPes < L.qpsPerPeDefaultCtx
  · refine ⟨0, ⟨Nat.zero_le _, inContext_zero.mpr hrow⟩, ?_⟩
    rintro (_ | ctx) ⟨-, h⟩
    · rfl
    · have := (inContext_succ.mp h).2.1
      omega
  · have hpos : 0 < L.qpsPerPeUsrCtx := by
      by_contra hzero
      rw [Nat.eq_zero_of_not_pos hzero] at hi
      omega
    have hlt : (i / L.numPes - L.qpsPerPeDefaultCtx) / L.qpsPerPeUsrCtx < L.maxNumContexts :=
      (Nat.div_lt_iff_lt_mul hpos).mpr (by rw [mul_comm]; omega)
    refine ⟨_, ⟨hlt, inContext_succ.mpr ⟨hpos, by omega, rfl⟩⟩, ?_⟩
    rintro (_ | ctx) ⟨-, h⟩
    · exact absurd (inContext_zero.mp h) hrow
    · exact congrArg (· + 1) (inContext_succ.mp h).2.2.symm

theorem lt_numQps_of_inContext (hctx : ctx ≤ L.maxNumContexts) (h : L.InContext ctx i) :
    i < L.numQps := by
  rw [lt_numQps, Layout.numQpsPerPe]
  cases ctx with
  | zero => exact lt_of_lt_of_le (inContext_zero.mp h) (Nat.le_add_right _ _)
  | succ ctx =>
    obtain ⟨hpos, hle, hdiv⟩ := inContext_succ.mp h
    have hlt := (Nat.div_lt_iff_lt_mul hpos).mp (hdiv.trans_lt (Nat.lt_of_succ_le hctx))
    rw [mul_comm] at hlt
    omega

theorem nic_of_context (hp : L.nicPolicy = .perContext) (h : L.InContext ctx i) :
    L.nicIdxForQp i = ctx % L.numNics := by
  rw [L.nicIdxForQp_eq]
  simp only [Layout.nicOfRow, hp]
  cases ctx with
  | zero =>
    have := inContext_zero.mp h
    rw [if_neg (by omega)]
  | succ ctx =>
    obtain ⟨hpos, hle, hdiv⟩ := inContext_succ.mp h
    rw [if_pos ⟨hle, hpos⟩, hdiv, add_comm]

theorem row_div (hb : b < L.numPes) : (row * L.numPes + b) / L.numPes = row := by
  rw [add_comm, Nat.add_mul_div_right _ _ L.pes_pos, Nat.div_eq_of_lt hb, zero_add]

theorem row_mod (hb : b < L.numPes) : (row * L.numPes + b) % L.numPes = b := by
  rw [Nat.add_comm, Nat.add_mul_mod_self_right, Nat.mod_eq_of_lt hb]

theorem deviceQp_inContext (hb : b < L.numPes) (hrows : 0 < L.ctxQpsPerPe ctx) (counter : ℕ) :
    L.InContext ctx (L.deviceQp ctx counter b) ∧ L.qpDestPe (L.deviceQp ctx counter b) = b := by
  have hlt := Nat.mod_lt counter hrows
  have hle : (counter % L.ctxQpsPerPe ctx + 1) * L.numPes ≤ L.ctxQpsPerPe ctx * L.numPes :=
    Nat.mul_le_mul_right _ hlt
  rw [Nat.add_mul, Nat.one_mul] at hle
  refine ⟨⟨Nat.le_add_right _ _, ?_⟩, ?_⟩
  · unfold Layout.deviceQp
    omega
  · rw [Layout.qpDestPe, Layout.deviceQp, Layout.ctxOffset, ← Nat.add_assoc, ← Nat.add_mul,
      row_mod hb]

theorem exchange_rows (destInfo : ℕ → ℕ → β) (n : ℕ) (ha : a < L.numPes) (hb : b < L.numPes) :
    (range n).foldl (fun d row => alltoallRow L row d) destInfo a (row * L.numPes + b) =
      if row < n then destInfo b (row * L.numPes + a) else destInfo a (row * L.numPes + b) := by
  induction n generalizing a b with
  | zero => rfl
  | succ n ih =>
    rw [range_succ, foldl_append, foldl_cons, foldl_nil, alltoallRow, row_div hb, row_mod hb]
    by_cases hrow : row = n
    · subst hrow
      rw [if_pos rfl, ih hb ha, if_neg (lt_irrefl _), if_pos (Nat.lt_succ_self _)]
    · have hiff : row < n + 1 ↔ row < n := by omega
      simp only [if_neg hrow, ih ha hb, hiff]

theorem exchange_pairs (destInfo : ℕ → ℕ → β) (hrow : row < L.numQpsPerPe) (ha : a < L.numPes)
    (hb : b < L.numPes) : exchangeQpDestInfo L destInfo a (row * L.numPes + b) =
      destInfo b (row * L.numPes + a) := by
  rw [exchangeQpDestInfo, exchange_rows destInfo _ ha hb, if_pos hrow]

end Contexts

end GdaQueuePairLayout
