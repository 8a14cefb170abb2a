import Rocshmem.GdaProxyAllreduce

/-! `hybrid_reduce_scatter_wg` of GDA, on a team of equal contiguous IPC islands. Chunk after
chunk, every PE reduces one block per node from the sources of its local peers into `pWrk`,
and the PEs of one slot then pass the blocks around a ring of the nodes. A step of the ring is
a put with a flag behind it to the right neighbour, and ends with `barrier_wg`; the first step
has no barrier before it. -/
namespace GdaHybridReduceScatter

open ChunkedMessages GuardedMachines List StagedPrograms
open GdaProxyAllreduce (Pe Islands Cell fusedIpcReduce islandValue runCode_fused load_mem_fused
  mem_members)

structure Call extends Islands where
  nreduce : ℕ
  elemOffset : ℕ
  elemCount : ℕ
  sizeofT : ℕ
  long : 1024 < nreduce

def scratchBytes : ℕ := 1048576 * 8

def maxChunkBytes : ℕ := 64 * 1024

namespace Call

variable (c : Call)

def chunkSize : ℕ :=
  min (max 1 (scratchBytes / c.sizeofT / c.nodeCount)) (max 1 (maxChunkBytes / c.sizeofT))

def chunks : ℕ := c.elemCount ⌈/⌉ c.chunkSize

def offset (t : ℕ) : ℕ := c.elemOffset + t * c.chunkSize

def count (t : ℕ) : ℕ := min c.chunkSize (c.elemCount - t * c.chunkSize)

def leftNode (node : ℕ) : ℕ := (node + c.nodeCount - 1) % c.nodeCount

def sendIdx (node step : ℕ) : ℕ := (node + c.nodeCount - (step + 1)) % c.nodeCount

def recvIdx (node step : ℕ) : ℕ := (node + c.nodeCount - (step + 2)) % c.nodeCount

def sourceElem (p : Pe) (node e : ℕ) : ℕ := (node * c.localSize + p.2) * c.nreduce + e

def width : ℕ := 3 * (c.nodeCount - 1) + 1

end Call

inductive Phase where
  | reduce
  | receive (step : ℕ)
  | accumulate (step : ℕ)
  | publish (step : ℕ)

def phase (w : ℕ) : Phase :=
  if w = 0 then .reduce
  else match (w - 1) % 3 with
    | 0 => .receive ((w - 1) / 3)
    | 1 => .accumulate ((w - 1) / 3)
    | _ => .publish ((w - 1) / 3)

variable {V : Type*} (op : V → V → V) (c : Call)

def wrkCode (t : ℕ) (f : Phase) (p : Pe) (node i : ℕ) : List (Instr Cell V) :=
  match f with
  | .reduce => fusedIpcReduce op c.toIslands p (c.sourceElem p node (c.offset t + i))
  | .accumulate step =>
    if node = c.recvIdx p.1 step then [.load (fun _ x => x) (.dst p (c.offset t + i)), .store op]
    else []
  | .receive _ | .publish _ => []

def dstCode (f : Phase) (p : Pe) (i : ℕ) : List (Instr Cell V) :=
  match f with
  | .receive step =>
    let sent := Cell.wrk (c.leftNode p.1, p.2) (c.sendIdx (c.leftNode p.1) step) i
    .await sent :: Instr.copy sent
  | .publish step => if step = c.nodeCount - 2 then Instr.copy (.wrk p p.1 i) else []
  | .reduce | .accumulate _ => []

local instance lawfulPe : LawfulBEq Pe := inferInstance

def program : Program Pe Cell V where
  members := c.members
  owner := Cell.owner
  cells p := (range c.elemCount).map (fun j => .dst p (c.elemOffset + j)) ++
    (range c.nodeCount).flatMap fun node =>
      (range (min c.chunkSize c.elemCount)).map (.wrk p node)
  stages := c.chunks * c.width
  code
    | _, .src _ _ => []
    | k, .wrk p node i =>
      if p ∈ c.members ∧ node < c.nodeCount ∧ i < c.count (k / c.width) then
        wrkCode op c (k / c.width) (phase (k % c.width)) p node i
      else []
    | k, .dst p e =>
      if p ∈ c.members ∧ c.offset (k / c.width) ≤ e ∧
          e < c.offset (k / c.width) + c.count (k / c.width) then
        dstCode c (phase (k % c.width)) p (e - c.offset (k / c.width))
      else []
  barrier k := match phase (k % c.width) with
    | .publish _ => true
    | _ => false

variable {op c} {k t u step e i node : ℕ} {p : Pe}

section Ring

theorem back_eq {n m : ℕ} (hu : u < n) (hm : m ≤ n) :
    (u + n - m) % n = if m ≤ u then u - m else u + n - m := by
  split
  next hle =>
    have hsub : u + n - m = u - m + n := by omega
    rw [hsub, Nat.add_mod_right, Nat.mod_eq_of_lt (by omega)]
  next hlt => exact Nat.mod_eq_of_lt (by omega)

theorem nodes_pos (c : Call) : 0 < c.nodeCount := Nat.zero_lt_of_lt c.several_nodes

theorem leftNode_lt (c : Call) (u : ℕ) : c.leftNode u < c.nodeCount := Nat.mod_lt _ (nodes_pos c)

theorem sendIdx_lt (c : Call) (u step : ℕ) : c.sendIdx u step < c.nodeCount :=
  Nat.mod_lt _ (nodes_pos c)

theorem recvIdx_eq (c : Call) (u step : ℕ) : c.recvIdx u step = c.sendIdx u (step + 1) := rfl

theorem sendIdx_ne {step' : ℕ} (hu : u < c.nodeCount) (h : step < step')
    (h' : step' + 1 ≤ c.nodeCount) : c.sendIdx u step' ≠ c.sendIdx u step := by
  rw [Call.sendIdx, Call.sendIdx, back_eq hu h', back_eq hu (by omega)]
  split <;> split <;> omega

theorem sendIdx_last (hu : u < c.nodeCount) : c.sendIdx u (c.nodeCount - 1) = u := by
  have hnodes := nodes_pos c
  rw [Call.sendIdx, back_eq hu (by omega)]
  split <;> omega

end Ring

variable {w : ℕ}

section Stages

theorem phase_receive (step : ℕ) : phase (3 * step + 1) = .receive step := by
  grind [phase]

theorem phase_accumulate (step : ℕ) : phase (3 * step + 2) = .accumulate step := by
  grind [phase]

theorem phase_publish (step : ℕ) : phase (3 * step + 3) = .publish step := by
  grind [phase]

theorem width_pos (c : Call) : 0 < c.width := Nat.succ_pos _

def Call.at (c : Call) (t w : ℕ) : ℕ := c.width * t + w

theorem at_div_mod (c : Call) (k : ℕ) : c.at (k / c.width) (k % c.width) = k :=
  Nat.div_add_mod k c.width

theorem at_div (hw : w < c.width) : c.at t w / c.width = t := by
  rw [Call.at, Nat.mul_add_div (width_pos c), Nat.div_eq_of_lt hw, add_zero]

theorem at_mod (hw : w < c.width) : c.at t w % c.width = w := by
  rw [Call.at, Nat.mul_add_mod, Nat.mod_eq_of_lt hw]

theorem chunkSize_pos (c : Call) : 0 < c.chunkSize := by
  unfold Call.chunkSize
  omega

theorem chunk_lt (h : 0 < c.count t) : t < c.chunks := by
  by_contra hle
  have hcover : c.elemCount ≤ c.chunkSize * t :=
    (ceilDiv_le_iff_le_smul (chunkSize_pos c)).mp (Nat.not_lt.mp hle)
  rw [mul_comm] at hcover
  unfold Call.count at h
  omega

theorem at_lt_stages (hw : w < c.width) (h : 0 < c.count t) :
    c.at t w < c.chunks * c.width := by
  have hle : (t + 1) * c.width ≤ c.chunks * c.width := Nat.mul_le_mul_right _ (chunk_lt h)
  rw [Call.at, mul_comm c.width]
  rw [add_mul] at hle
  omega

theorem code_wrk (hw : w < c.width) (hp : p ∈ c.members) (hnode : node < c.nodeCount)
    (hi : i < c.count t) :
    (program op c).code (c.at t w) (.wrk p node i) = wrkCode op c t (phase w) p node i := by
  simp [program, at_div hw, at_mod hw, hp, hnode, hi]

theorem code_dst (hw : w < c.width) (hp : p ∈ c.members) (hi : i < c.count t) :
    (program op c).code (c.at t w) (.dst p (c.offset t + i)) = dstCode c (phase w) p i := by
  simp [program, at_div hw, at_mod hw, hp, hi]

inductive Active (c : Call) (t : ℕ) : Cell → Prop where
  | wrk {p : Pe} {node i : ℕ} : p ∈ c.members → node < c.nodeCount → i < c.count t →
      Active c t (.wrk p node i)
  | dst {p : Pe} {i : ℕ} : p ∈ c.members → i < c.count t → Active c t (.dst p (c.offset t + i))

theorem active_of_code {x : Cell} (h : (program op c).code k x ≠ []) :
    Active c (k / c.width) x := by
  cases x with
  | src p e => exact absurd rfl h
  | wrk p node i =>
    grind [Active, program]
  | dst p e =>
    by_cases hcond : p ∈ c.members ∧ c.offset (k / c.width) ≤ e ∧
        e < c.offset (k / c.width) + c.count (k / c.width)
    · obtain ⟨hp, hle, hlt⟩ := hcond
      obtain ⟨i, rfl⟩ := Nat.exists_eq_add_of_le hle
      exact .dst hp (by omega)
    · exact absurd (by simp only [program, if_neg hcond]) h

theorem active_computed {x : Cell} (h : Active c t x) :
    (program op c).Computed x ∧ x.owner ∈ c.members ∧ 0 < c.count t := by
  cases h with
  | @wrk p node i hp hnode hi =>
    refine ⟨?_, hp, Nat.zero_lt_of_lt hi⟩
    have hsize : i < min c.chunkSize c.elemCount := by
      unfold Call.count at hi
      omega
    simp only [Program.Computed, program, Cell.owner, mem_append, mem_flatMap, mem_map, mem_range]
    exact .inr ⟨node, hnode, i, hsize, rfl⟩
  | @dst p i hp hi =>
    refine ⟨?_, hp, Nat.zero_lt_of_lt hi⟩
    have hcount : i < c.elemCount - t * c.chunkSize := lt_of_lt_of_le hi (min_le_right _ _)
    simp only [Program.Computed, program, Cell.owner, mem_append, mem_map, mem_range]
    exact .inl ⟨t * c.chunkSize + i, by omega, by rw [Call.offset, add_assoc]⟩

theorem not_computed_src {q : Pe} : ¬ (program op c).Computed (.src q e) := by
  simp [Program.Computed, program]

theorem step_le (hw : 3 * step + w < c.width) (hpos : 0 < w) : step + 2 ≤ c.nodeCount := by
  unfold Call.width at hw
  omega

theorem step_lt_width (hstep : step + 2 ≤ c.nodeCount) : 3 * step + 3 < c.width := by
  unfold Call.width
  omega

theorem sent_kept (hp : p ∈ c.members) (hi : i < c.count t) (hw : 3 * step + 1 < c.width) {j : ℕ}
    (hj : c.at t (3 * step + 1) ≤ j)
    (hopen : ∀ k, c.at t (3 * step + 1) ≤ k → k < j → (program op c).barrier k = false) :
    (program op c).code j (.wrk p (c.sendIdx p.1 step) i) = [] := by
  have hstep : step + 2 ≤ c.nodeCount := step_le hw one_pos
  have hwidth := step_lt_width hstep
  have hle : j ≤ c.at t (3 * step + 3) := by
    grind [program, Call.at, phase_publish, at_mod]
  obtain ⟨w, hjw, hw1, hw3⟩ : ∃ w, j = c.at t w ∧ 3 * step + 1 ≤ w ∧ w ≤ 3 * step + 3 :=
    ⟨j - c.width * t, by unfold Call.at at *; omega, by unfold Call.at at *; omega,
      by unfold Call.at at *; omega⟩
  rw [hjw, code_wrk (by omega) hp (sendIdx_lt c _ _) hi]
  obtain rfl | rfl | rfl : w = 3 * step + 1 ∨ w = 3 * step + 2 ∨ w = 3 * step + 3 := by omega
  · rw [phase_receive, wrkCode]
  · grind [wrkCode, Islands.members, recvIdx_eq, sendIdx_ne, phase_accumulate]
  · rw [phase_publish, wrkCode]

theorem wrk_loads {f : Phase} {g : V → V → V} {d : Cell}
    (h : .load g d ∈ wrkCode op c t f p node i) : (∃ q e, d = .src q e) ∨
      ∃ step, f = .accumulate step ∧ d = .dst p (c.offset t + i) := by
  cases f with
  | reduce =>
    obtain ⟨q, rfl⟩ := load_mem_fused h
    exact .inl ⟨_, _, rfl⟩
  | accumulate step =>
    grind [wrkCode]
  | receive | publish => cases h

theorem dst_loads {f : Phase} {l l' : List (Instr Cell V)} {g : V → V → V} {d : Cell}
    (h : dstCode c f p i = l ++ .load g d :: l') : (∃ step, f = .receive step ∧
      d = .wrk (c.leftNode p.1, p.2) (c.sendIdx (c.leftNode p.1) step) i ∧ .await d ∈ l) ∨
    ∃ step, f = .publish step ∧ d = .wrk p p.1 i := by
  have hmem : .load g d ∈ dstCode c f p i := by simp [h]
  cases f with
  | reduce | accumulate => cases hmem
  | receive step =>
    refine .inl ⟨step, rfl, ?_⟩
    -- the wait is the first instruction
    cases l with
    | nil => cases h
    | cons a l =>
      grind [dstCode, Instr.load_mem_copy]
  | publish step =>
    refine .inr ⟨step, rfl, ?_⟩
    rw [dstCode] at hmem
    split at hmem
    · exact Instr.load_mem_copy hmem
    · cases hmem

theorem raceFree (op : V → V → V) (c : Call) : (program op c).RaceFree where
  owned := by
    intro p x hx
    simp only [program, mem_append, mem_map, mem_flatMap] at hx
    rcases hx with ⟨_, -, rfl⟩ | ⟨_, -, _, -, rfl⟩ <;> rfl
  coded := by
    intro k x hne
    obtain ⟨hcomp, hmem, hcount⟩ := active_computed (active_of_code hne)
    refine ⟨hcomp, hmem, ?_⟩
    rw [← at_div_mod c k]
    exact at_lt_stages (Nat.mod_lt k (width_pos c)) hcount
  loads := by
    intro k x l f d l' hcode _ hd
    have hw : k % c.width < c.width := Nat.mod_lt k (width_pos c)
    have hnil : (program op c).code k x ≠ [] := by simp [hcode]
    have hactive := active_of_code hnil
    rw [← at_div_mod c k] at hcode ⊢
    cases hactive with
    | @wrk p node i hp hnode hi =>
      rw [code_wrk hw hp hnode hi] at hcode
      have hload : .load f d ∈ wrkCode op c (k / c.width) (phase (k % c.width)) p node i := by
        simp [hcode]
      rcases wrk_loads hload with ⟨q, e, rfl⟩ | ⟨step, hphase, rfl⟩
      · exact absurd hd not_computed_src
      · exact .inl ⟨rfl, by rw [code_dst hw hp hi, hphase, dstCode]⟩
    | @dst p i hp hi =>
      rw [code_dst hw hp hi] at hcode
      rcases dst_loads hcode with ⟨step, hphase, rfl, hawait⟩ | ⟨step, hphase, rfl⟩
      · have hleft : (c.leftNode p.1, p.2) ∈ c.members :=
          mem_members.mpr ⟨leftNode_lt c _, (mem_members.mp hp).2⟩
        have hstage : k % c.width = 3 * step + 1 := by
          grind [phase]
        rw [hstage] at hw ⊢
        exact .inr ⟨hleft, .inr hawait, fun j hj hopen => sent_kept hleft hi hw hj hopen⟩
      · have hnode : p.1 < c.nodeCount := (mem_members.mp hp).1
        exact .inl ⟨rfl, by rw [code_wrk hw hp hnode hi, hphase, wrkCode]⟩

end Stages

section Values

variable (op c) in
def ringValue (E : Cell → V) (slot e : ℕ) : ℕ → ℕ → V
  | 0, u => islandValue op c.toIslands E (u, slot) (c.sourceElem (u, slot) (c.sendIdx u 0) e)
  | step + 1, u => op (ringValue E slot e step (c.leftNode u))
      (islandValue op c.toIslands E (u, slot) (c.sourceElem (u, slot) (c.sendIdx u (step + 1)) e))

variable {reg mem E : Cell → V} {slot : ℕ}

theorem value_src {q : Pe} : ((program op c).value reg mem E k (.src q e)).2 = E (.src q e) :=
  Program.value_input (raceFree op c) not_computed_src k

theorem value_wrk (hw : w < c.width) (hp : p ∈ c.members) (hnode : node < c.nodeCount)
    (hi : i < c.count t) : (program op c).value reg mem E (c.at t w + 1) (.wrk p node i) =
      Program.runCode (fun d => ((program op c).value reg mem E (c.at t w) d).2) (.wrk p node i)
        (wrkCode op c t (phase w) p node i)
        ((program op c).value reg mem E (c.at t w) (.wrk p node i)) := by
  rw [Program.value, code_wrk hw hp hnode hi]

theorem value_dst (hw : w < c.width) (hp : p ∈ c.members) (hi : i < c.count t) :
    (program op c).value reg mem E (c.at t w + 1) (.dst p (c.offset t + i)) =
      Program.runCode (fun d => ((program op c).value reg mem E (c.at t w) d).2)
        (.dst p (c.offset t + i)) (dstCode c (phase w) p i)
        ((program op c).value reg mem E (c.at t w) (.dst p (c.offset t + i))) := by
  rw [Program.value, code_dst hw hp hi]

/-- Before a step of the ring: the block to be sent holds what has come around so far, the
blocks of the later steps only the share of the island. -/
structure RingAt (op : V → V → V) (c : Call) (reg mem E : Cell → V) (t slot i step : ℕ) : Prop where
  sent : ∀ u < c.nodeCount, ((program op c).value reg mem E (c.at t (3 * step + 1))
    (.wrk (u, slot) (c.sendIdx u step) i)).2 = ringValue op c E slot (c.offset t + i) step u
  fresh : ∀ u < c.nodeCount, ∀ later > step, later < c.nodeCount →
    ((program op c).value reg mem E (c.at t (3 * step + 1))
      (.wrk (u, slot) (c.sendIdx u later) i)).2 =
    islandValue op c.toIslands E (u, slot)
      (c.sourceElem (u, slot) (c.sendIdx u later) (c.offset t + i))

theorem ring_start (hslot : slot < c.localSize) (hi : i < c.count t) :
    RingAt op c reg mem E t slot i 0 := by
  have hreduced : ∀ u < c.nodeCount, ∀ node < c.nodeCount,
      ((program op c).value reg mem E (c.at t 1) (.wrk (u, slot) node i)).2 =
      islandValue op c.toIslands E (u, slot) (c.sourceElem (u, slot) node (c.offset t + i)) := by
    intro u hu node hnode
    have hp : (u, slot) ∈ c.members := mem_members.mpr ⟨hu, hslot⟩
    rw [show c.at t 1 = c.at t 0 + 1 from rfl, value_wrk (width_pos c) hp hnode hi]
    change (Program.runCode _ _ (fusedIpcReduce op c.toIslands (u, slot) _) _).2 = _
    rw [runCode_fused (by simp)]
    simp only [islandValue, value_src]
  constructor
  · exact fun u hu => hreduced u hu _ (sendIdx_lt c u 0)
  · exact fun u hu later _ _ => hreduced u hu _ (sendIdx_lt c u later)

section Step

variable (hslot : slot < c.localSize) (hi : i < c.count t) (hstep : step + 2 ≤ c.nodeCount)
include hslot hi hstep

theorem value_received (h : RingAt op c reg mem E t slot i step) (hu : u < c.nodeCount) :
    ((program op c).value reg mem E (c.at t (3 * step + 2)) (.dst (u, slot) (c.offset t + i))).2 =
      ringValue op c E slot (c.offset t + i) step (c.leftNode u) := by
  have hw := step_lt_width hstep
  have hp : (u, slot) ∈ c.members := mem_members.mpr ⟨hu, hslot⟩
  rw [show c.at t (3 * step + 2) = c.at t (3 * step + 1) + 1 from rfl,
    value_dst (by omega) hp hi, phase_receive, ← h.sent _ (leftNode_lt c u)]
  exact Program.runCode_copy (by simp)

theorem value_untouched (hu : u < c.nodeCount) (hnode : node < c.nodeCount) :
    ((program op c).value reg mem E (c.at t (3 * step + 2)) (.wrk (u, slot) node i)).2 =
      ((program op c).value reg mem E (c.at t (3 * step + 1)) (.wrk (u, slot) node i)).2 := by
  have hw := step_lt_width hstep
  have hp : (u, slot) ∈ c.members := mem_members.mpr ⟨hu, hslot⟩
  rw [show c.at t (3 * step + 2) = c.at t (3 * step + 1) + 1 from rfl,
    value_wrk (by omega) hp hnode hi, phase_receive]
  rfl

theorem value_accumulated (h : RingAt op c reg mem E t slot i step) (hu : u < c.nodeCount) :
    ((program op c).value reg mem E (c.at t (3 * step + 3))
      (.wrk (u, slot) (c.sendIdx u (step + 1)) i)).2 =
      ringValue op c E slot (c.offset t + i) (step + 1) u := by
  have hw := step_lt_width hstep
  have hp : (u, slot) ∈ c.members := mem_members.mpr ⟨hu, hslot⟩
  rw [show c.at t (3 * step + 3) = c.at t (3 * step + 2) + 1 from rfl,
    value_wrk (by omega) hp (sendIdx_lt c _ _) hi, phase_accumulate, wrkCode, recvIdx_eq,
    if_pos rfl, ringValue, ← value_received hslot hi hstep h hu,
    ← h.fresh u hu _ (Nat.lt_succ_self step) (by omega),
    ← value_untouched hslot hi hstep hu (sendIdx_lt c _ _)]
  simp [Program.runCode, Instr.apply]

theorem value_other (hu : u < c.nodeCount) (hnode : node < c.nodeCount)
    (hne : node ≠ c.sendIdx u (step + 1)) :
    ((program op c).value reg mem E (c.at t (3 * step + 3)) (.wrk (u, slot) node i)).2 =
      ((program op c).value reg mem E (c.at t (3 * step + 1)) (.wrk (u, slot) node i)).2 := by
  have hw := step_lt_width hstep
  have hp : (u, slot) ∈ c.members := mem_members.mpr ⟨hu, hslot⟩
  rw [← value_untouched hslot hi hstep hu hnode,
    show c.at t (3 * step + 3) = c.at t (3 * step + 2) + 1 from rfl,
    value_wrk (by omega) hp hnode hi, phase_accumulate, wrkCode, recvIdx_eq, if_neg hne,
    Program.runCode_nil]

theorem value_published (hu : u < c.nodeCount) (hnode : node < c.nodeCount) :
    ((program op c).value reg mem E (c.at t (3 * (step + 1) + 1)) (.wrk (u, slot) node i)).2 =
      ((program op c).value reg mem E (c.at t (3 * step + 3)) (.wrk (u, slot) node i)).2 := by
  have hw := step_lt_width hstep
  have hp : (u, slot) ∈ c.members := mem_members.mpr ⟨hu, hslot⟩
  rw [show c.at t (3 * (step + 1) + 1) = c.at t (3 * step + 3) + 1 from rfl,
    value_wrk hw hp hnode hi, phase_publish, wrkCode, Program.runCode_nil]

theorem ring_step (h : RingAt op c reg mem E t slot i step) :
    RingAt op c reg mem E t slot i (step + 1) := by
  grind [RingAt, sendIdx_lt, sendIdx_ne, value_accumulated, value_other, value_published]

end Step

theorem ring_run (hslot : slot < c.localSize) (hi : i < c.count t) (hstep : step < c.nodeCount) :
    RingAt op c reg mem E t slot i step := by
  induction step with
  | zero => exact ring_start hslot hi
  | succ step ih => exact ring_step hslot hi hstep (ih (Nat.lt_of_succ_lt hstep))

theorem value_chunk (hslot : slot < c.localSize) (hi : i < c.count t) (hu : u < c.nodeCount) :
    ((program op c).value reg mem E (c.at t c.width) (.dst (u, slot) (c.offset t + i))).2 =
      ringValue op c E slot (c.offset t + i) (c.nodeCount - 1) u := by
  obtain ⟨n, hn⟩ := Nat.exists_eq_add_of_le' c.several_nodes
  have hp : (u, slot) ∈ c.members := mem_members.mpr ⟨hu, hslot⟩
  have hlast : n + 2 ≤ c.nodeCount := by omega
  have hw := step_lt_width hlast
  have hend : c.at t c.width = c.at t (3 * n + 3) + 1 := by
    unfold Call.at Call.width
    omega
  have hnodes : c.nodeCount - 1 = n + 1 := by omega
  have hring : RingAt op c reg mem E t slot i n := ring_run hslot hi (by omega)
  have hown := value_accumulated hslot hi hlast hring hu
  rw [← hnodes, sendIdx_last hu] at hown
  rw [hend, value_dst hw hp hi, phase_publish, dstCode, if_pos (by omega),
    Program.runCode_copy (by simp)]
  exact hown

theorem dst_idle (hi : i < c.count t) {j : ℕ} (hj : c.at t c.width ≤ j) :
    (program op c).code j (.dst p (c.offset t + i)) = [] := by
  by_contra hne
  have hlater : t < j / c.width := by
    rw [Nat.lt_iff_add_one_le, Nat.le_div_iff_mul_le (width_pos c), add_mul, mul_comm t]
    unfold Call.at at hj
    omega
  have hle : (t + 1) * c.chunkSize ≤ j / c.width * c.chunkSize := Nat.mul_le_mul_right _ hlater
  have hsize : i < c.chunkSize := lt_of_lt_of_le hi (min_le_left _ _)
  generalize hx : Cell.dst p (c.offset t + i) = x at hne
  cases active_of_code hne with
  | wrk => cases hx
  | dst hp hi' =>
    have helem := (Cell.dst.inj hx).2
    simp only [Call.offset] at helem
    rw [add_mul] at hle
    omega

theorem value_end (hp : p ∈ c.members) (hle : c.elemOffset ≤ e)
    (hlt : e < c.elemOffset + c.elemCount) :
    ((program op c).value reg mem E (c.chunks * c.width) (.dst p e)).2 =
      ringValue op c E p.2 e (c.nodeCount - 1) p.1 := by
  obtain ⟨hnode, hslot⟩ := mem_members.mp hp
  obtain ⟨j, rfl⟩ := Nat.exists_eq_add_of_le hle
  have hdiv := Nat.div_add_mod j c.chunkSize
  have hmod := Nat.mod_lt j (chunkSize_pos c)
  have helem : c.elemOffset + j = c.offset (j / c.chunkSize) + j % c.chunkSize := by
    rw [Call.offset, mul_comm]
    omega
  have hi : j % c.chunkSize < c.count (j / c.chunkSize) := by
    rw [Call.count, mul_comm]
    omega
  have hend : c.at (j / c.chunkSize) c.width ≤ c.chunks * c.width := by
    rw [Call.at, ← Nat.mul_succ, mul_comm]
    exact Nat.mul_le_mul_right _ (chunk_lt (Nat.zero_lt_of_lt hi))
  rw [helem, Program.value_idle hend fun k hk _ => dst_idle hi hk]
  exact value_chunk hslot hi hnode

end Values

variable (op c) in
def ResultKept (s : State Pe Cell V) : Prop :=
  ∀ p ∈ c.members, s.stage p = c.chunks * c.width + 1 →
    ∀ e, c.elemOffset ≤ e → e < c.elemOffset + c.elemCount →
      s.mem (.dst p e) = ringValue op c s.entry p.2 e (c.nodeCount - 1) p.1

theorem reduce_scatter_kept {reg mem : Cell → V} {s : State Pe Cell V}
    (h : ((program op c).machine reg mem).Run (program op c).EntersFirst s) :
    ResultKept op c s := by
  intro p hp hret e hle hlt
  have hcomputed : (program op c).Computed (.dst p e) := by
    obtain ⟨j, rfl⟩ := Nat.exists_eq_add_of_le hle
    simp only [Program.Computed, program, Cell.owner, mem_append, mem_map, mem_range]
    exact .inl ⟨j, by omega, rfl⟩
  rw [Program.returned_value (raceFree op c) h hcomputed hret]
  exact value_end hp hle hlt

def twoIslands : Call where
  localSize := 2
  nodeCount := 2
  several_slots := by decide
  several_nodes := by decide
  nreduce := 1025
  elemOffset := 0
  elemCount := 1
  sizeofT := 4
  long := by decide

def reduceAll (p : Pe) : List (Event Pe Cell ℤ) :=
  Event.enter p :: replicate 3 (Event.exec (Cell.wrk p 0 0)) ++
    replicate 3 (Event.exec (Cell.wrk p 1 0)) ++ [Event.pass p]

def ringAll (p : Pe) : List (Event Pe Cell ℤ) :=
  replicate 3 (Event.exec (Cell.dst p 0)) ++ [Event.pass p] ++
    replicate 2 (Event.exec (Cell.wrk p p.1 0)) ++ [Event.pass p] ++
    replicate 2 (Event.exec (Cell.dst p 0))

def prepareSecond : Event Pe Cell ℤ := .prepare (.src (0, 1) 0) 5

end GdaHybridReduceScatter
