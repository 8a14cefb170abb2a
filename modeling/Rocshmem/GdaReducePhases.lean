import Rocshmem.GdaReduceScratch
import Rocshmem.PhasedFlags

/-! The flags of one `reduce_wave`, or of one `reduce_wg` without DAS, on the GDA backend: the
ring on whole segments, the ring on the remainder and the direct part follow each other on the
same words of `pSync`. Each part clears the words at its end, but no barrier lies between two
parts. -/
namespace GdaReducePhases

open CentralDirectBarrier (Team)
open GdaReduceScratch GuardedMachines List MachineInts PhasedFlags

/-- The values of the two loops of a segment. -/
def waitVal (n seg iter : ℕ) : ℤ := if iter < n - 1 then seg + 100 else seg + 10

/-- `internal_ring_allreduce_wave` up to its reset. -/
def ringCode (n nSeg rank : ℕ) : List Stmt :=
  (range nSeg).flatMap fun seg => (range (2 * n - 2)).flatMap fun iter =>
    [.raise ((rank + 1) % n) iter (waitVal n seg iter), .wait iter (waitVal n seg iter)]

def others (n rank : ℕ) : List ℕ := (range n).filter (· ≠ rank)

/-- `internal_direct_allreduce_wave` up to its reset. -/
def directCode (t : Team) (rank : ℕ) : List Stmt :=
  (others t.nPes rank).map (fun i => .raise i (t.member rank) 1) ++
    (others t.nPes rank).map fun i => .wait (t.member i) 1

def partCode (t : Team) (rank : ℕ) : Part → List Stmt
  | .direct _ => directCode t rank
  | .ring nSeg _ => ringCode t.nPes nSeg.toNat rank

def partClears (numPes : ℕ) : Part → ℕ
  | .direct _ => numPes
  | .ring _ _ => (toInt (2 * numPes - 2)).toNat

def program (c : Call) : Program where
  phases := c.parts.length
  code rank q := if rank < c.team.nPes then c.parts[q]?.elim [] (partCode c.team rank) else []
  clears q := c.parts[q]?.elim 0 (partClears c.numPes)

variable {t : Team} {n nSeg rank rank' target word k k' : ℕ} {value : ℤ} {part : Part}

theorem waitVal_ne_zero (n seg iter : ℕ) : waitVal n seg iter ≠ 0 := by grind [waitVal]

theorem mem_others {i : ℕ} : i ∈ others n rank ↔ i < n ∧ i ≠ rank := by simp [others]

theorem mem_ringCode_raise : Stmt.raise target word value ∈ ringCode n nSeg rank ↔
    target = (rank + 1) % n ∧ ∃ seg < nSeg, word < 2 * n - 2 ∧ value = waitVal n seg word := by
  simp only [ringCode, mem_flatMap, mem_range, mem_cons, Stmt.raise.injEq,
    reduceCtorEq, not_mem_nil, or_false]
  grind

theorem mem_ringCode_wait : Stmt.wait word value ∈ ringCode n nSeg rank ↔
    ∃ seg < nSeg, word < 2 * n - 2 ∧ value = waitVal n seg word := by
  simp only [ringCode, mem_flatMap, mem_range, mem_cons, Stmt.wait.injEq,
    reduceCtorEq, not_mem_nil, or_false, false_or]
  grind

theorem mem_directCode_raise : Stmt.raise target word value ∈ directCode t rank ↔
    target ∈ others t.nPes rank ∧ word = t.member rank ∧ value = 1 := by
  simp only [directCode, mem_append, mem_map, Stmt.raise.injEq, reduceCtorEq]
  grind

theorem mem_directCode_wait : Stmt.wait word value ∈ directCode t rank ↔
    ∃ i ∈ others t.nPes rank, word = t.member i ∧ value = 1 := by
  simp only [directCode, mem_append, mem_map, Stmt.wait.injEq, reduceCtorEq]
  grind

theorem member_injective (t : Team) : Function.Injective t.member := by
  intro i j h
  exact Nat.eq_of_mul_eq_mul_left t.stride_pos (Nat.add_left_cancel h)

theorem member_lt (c : Call) (h : rank < c.team.nPes) : c.team.member rank < c.numPes :=
  Nat.lt_of_le_of_lt (c.member_le_last h) c.inside

theorem nPes_le (c : Call) : c.team.nPes ≤ c.numPes := by
  have h := c.inside
  have := Nat.le_mul_of_pos_left (c.team.nPes - 1) c.team.stride_pos
  simp only [Team.member] at h
  omega

theorem waitVal_inj {seg seg' iter : ℕ} (h : waitVal n seg iter = waitVal n seg' iter) :
    seg = seg' := by
  grind [waitVal]

theorem nodup_ringCode : (ringCode n nSeg rank).Nodup := by
  refine nodup_flatMap.mpr
    ⟨fun seg _ => nodup_flatMap.mpr ⟨fun iter _ => by simp, ?_⟩, ?_⟩
  · refine nodup_range.imp fun {a b} hne i hi hj => hne ?_
    grind
  · refine nodup_range.imp fun {a b} hne i hi hj => hne ?_
    cases i <;> grind [waitVal_inj]

theorem nodup_directCode : (directCode t rank).Nodup := by
  have hothers : (others t.nPes rank).Nodup := nodup_range.filter _
  refine List.Nodup.append (hothers.map fun i j h => ?_) (hothers.map fun i j h => ?_) ?_
  · simpa using h
  · exact member_injective t (by simpa using h)
  · intro i hi hj
    grind

theorem nodup_partCode : (partCode t rank part).Nodup := by
  cases part with
  | direct => exact nodup_directCode
  | ring => exact nodup_ringCode

theorem succ_mod_inj (h : rank < n) (h' : rank' < n) (heq : (rank + 1) % n = (rank' + 1) % n) :
    rank = rank' := by
  have hmod {r : ℕ} (hr : r < n) : (r + 1) % n = if r + 1 = n then 0 else r + 1 := by
    split
    next he => rw [he, Nat.mod_self]
    next he => exact Nat.mod_eq_of_lt (by omega)
  rw [hmod h, hmod h'] at heq
  grind

theorem sender_unique (hr : rank < t.nPes) (hr' : rank' < t.nPes)
    (h : .raise target word value ∈ partCode t rank part)
    (h' : .raise target word value ∈ partCode t rank' part) : rank = rank' := by
  cases part with
  | direct =>
    have hw := (mem_directCode_raise.mp h).2.1
    exact member_injective t (hw.symm.trans (mem_directCode_raise.mp h').2.1)
  | ring =>
    have ht := (mem_ringCode_raise.mp h).1
    exact succ_mod_inj hr hr' (ht.symm.trans (mem_ringCode_raise.mp h').1)

theorem flag_awaited (c : Call) (hp : c.numPes ≤ 2 ^ 30) (hr : rank < c.team.nPes)
    (h : .raise target word value ∈ partCode c.team rank part) :
    value ≠ 0 ∧ word < partClears c.numPes part ∧ target < c.team.nPes ∧
      .wait word value ∈ partCode c.team target part := by
  have hle := nPes_le c
  have hclears : toInt (2 * c.numPes - 2) = 2 * c.numPes - 2 := toInt_of_small (by omega) (by omega)
  cases part with
  | direct =>
    obtain ⟨ht, rfl, rfl⟩ := mem_directCode_raise.mp h
    rw [mem_others] at ht
    exact ⟨by decide, member_lt c hr, ht.1,
      mem_directCode_wait.mpr ⟨rank, mem_others.mpr ⟨hr, ht.2.symm⟩, rfl, rfl⟩⟩
  | ring =>
    obtain ⟨rfl, seg, hseg, hword, rfl⟩ := mem_ringCode_raise.mp h
    exact ⟨waitVal_ne_zero _ _ _, by simp only [partClears]; omega,
      Nat.mod_lt _ (by omega), mem_ringCode_wait.mpr ⟨seg, hseg, hword, rfl⟩⟩

theorem wait_ne_zero (h : .wait word value ∈ partCode t rank part) : value ≠ 0 := by
  cases part with
  | direct =>
    obtain ⟨i, -, -, rfl⟩ := mem_directCode_wait.mp h
    decide
  | ring =>
    obtain ⟨seg, -, -, rfl⟩ := mem_ringCode_wait.mp h
    exact waitVal_ne_zero _ _ _

theorem mem_code {c : Call} {q : ℕ} {i : Stmt} (h : i ∈ (program c).code rank q) :
    rank < c.team.nPes ∧ ∃ part, c.parts[q]? = some part ∧ i ∈ partCode c.team rank part := by
  simp only [program] at h
  split at h
  next hr =>
    cases hq : c.parts[q]? with
    | none => simp [hq] at h
    | some part => exact ⟨hr, part, rfl, by simpa [hq] using h⟩
  next => simp at h

theorem code_of_part {c : Call} {q : ℕ} (hr : rank < c.team.nPes) (hq : c.parts[q]? = some part) :
    (program c).code rank q = partCode c.team rank part := by
  simp [program, hr, hq]

theorem program_matched (c : Call) (hp : c.numPes ≤ 2 ^ 30) : (program c).Matched where
  awaited h := by
    obtain ⟨hr, part, hq, hmem⟩ := mem_code h
    obtain ⟨hv, hw, ht, hwait⟩ := flag_awaited c hp hr hmem
    exact ⟨hv, by simpa [program, hq] using hw, code_of_part ht hq ▸ hwait⟩
  single {p p' q k k' t w v} h h' := by
    obtain ⟨hr, part, hq, hmem⟩ := mem_code (mem_of_getElem? h)
    obtain ⟨hr', part', hq', hmem'⟩ := mem_code (mem_of_getElem? h')
    obtain rfl : part = part' := Option.some.inj (hq.symm.trans hq')
    obtain rfl := sender_unique hr hr' hmem hmem'
    rw [code_of_part hr hq] at h h'
    have hk := (List.getElem?_eq_some_iff.mp h).1
    exact ⟨rfl, (getElem?_inj hk nodup_partCode).mp (h.trans h'.symm)⟩

/-- The call has one part, or the target of a flag has come to the part of the flag. -/
def PartReady (c : Call) (s : State) (rank : ℕ) : Prop :=
  c.parts.length ≤ 1 ∨ (program c).TargetReady s rank

instance (c : Call) (s : State) (rank : ℕ) : Decidable (PartReady c s rank) :=
  inferInstanceAs (Decidable (_ ∨ _))

theorem target_ready {c : Call} {s s' : State} (h : PartReady c s rank)
    (hstep : (program c).step s rank = some s') : (program c).TargetReady s rank := by
  rcases h with hone | h
  · intro i _
    have hphase : s.phase rank < c.parts.length := by grind [Program.step, program]
    cases i with
    | raise => exact Nat.le_trans (by omega) (Nat.zero_le _)
    | wait => trivial
  · exact h

/-- If every flag is raised on a member that has come to the part, a wait ends only on a flag of
its own part and a reset clears only flags of the part that it ends. -/
theorem waits_and_resets_own_part (c : Call) (hp : c.numPes ≤ 2 ^ 30) {s : State}
    (h : (program c).machine.Run (PartReady c) s) (rank : ℕ) :
    (∀ word value, (program c).stmt s rank = some (.wait word value) →
      (s.word rank word).1 = value → (s.word rank word).2 = s.phase rank) ∧
    ((program c).stmt s rank = none →
      ∀ word, (s.word rank word).1 ≠ 0 → (s.word rank word).2 = s.phase rank) := by
  have hs : (program c).Inv s :=
    Program.run_inv (program_matched c hp) (fun _ _ _ => target_ready) h
  refine ⟨fun word value hstmt hvalue => hs.fresh rank word ?_, fun _ word => hs.fresh rank word⟩
  obtain ⟨-, part, -, hmem⟩ := mem_code (mem_of_getElem? hstmt)
  exact hvalue ▸ wait_ne_zero hmem

theorem four_mem : (4 : ℤ) = 2 ∨ (4 : ℤ) = 4 ∨ (4 : ℤ) = 8 := by decide

/-- Two members, one whole segment and a remainder of two elements. -/
def twoRings : Call where
  form := .wave
  team := ⟨0, 1, 2, Nat.one_pos, Nat.two_pos⟩
  numPes := 2
  nreduce := 1048578
  sizeofT := 4
  ipcShmSize := 1
  ipcStride := 1
  inside := by decide
  pes_int := by decide
  nreduce_int := by decide
  sizeof_mem := four_mem

theorem two_rings_in_step : ∃ s, (program twoRings).machine.Run (PartReady twoRings) s ∧
    (program twoRings).stmt s 0 = some (.wait 0 100) ∧ s.phase 0 = 1 ∧ s.word 0 0 = (100, 1) ∧
    (s.word 0 0).2 = s.phase 0 := by
  obtain ⟨s, hrun, hs⟩ := (program twoRings).machine.run_of_replay (PartReady twoRings)
    [0, 1, 0, 1, 0, 1, 0, 1, 0, 1, 0, 1]
    (fun s => (program twoRings).stmt s 0 = some (.wait 0 100) ∧ s.phase 0 = 1 ∧
      s.word 0 0 = (100, 1)) (by decide)
  exact ⟨s, hrun, hs.1, hs.2.1, hs.2.2,
    (waits_and_resets_own_part twoRings (by decide) hrun 0).1 0 100 hs.1 (by rw [hs.2.2])⟩

/-- Member 0 is through with the first ring and raises its flag of the second one while member 1
has not yet cleared its words. The reset clears the flag, and both members wait for ever. -/
theorem reset_clears_next_flag :
    (∃ s, (program twoRings).machine.Run Machine.anyStep s ∧ (program twoRings).stmt s 1 = none ∧
      s.phase 1 = 0 ∧ s.word 1 0 = (100, 1)) ∧
    ∃ s, (program twoRings).machine.Run Machine.anyStep s ∧ s.phase 0 = 1 ∧ s.phase 1 = 1 ∧
      (program twoRings).stmt s 1 = some (.wait 0 100) ∧ (s.word 1 0).1 = 0 ∧
      (program twoRings).step s 0 = none ∧ (program twoRings).step s 1 = none := by
  obtain ⟨s, hrun, hs⟩ := (program twoRings).machine.run_of_replay Machine.anyStep
    [0, 1, 0, 1, 0, 1, 0, 0, 0, 1]
    (fun s => (program twoRings).stmt s 1 = none ∧ s.phase 1 = 0 ∧ s.word 1 0 = (100, 1))
    (by decide)
  obtain ⟨s', hrun', hs'⟩ := (program twoRings).machine.run_of_replay Machine.anyStep
    [0, 1, 0, 1, 0, 1, 0, 0, 0, 1, 1, 1, 0, 0]
    (fun s => s.phase 0 = 1 ∧ s.phase 1 = 1 ∧
      (program twoRings).stmt s 1 = some (.wait 0 100) ∧ (s.word 1 0).1 = 0 ∧
      (program twoRings).step s 0 = none ∧ (program twoRings).step s 1 = none) (by decide)
  exact ⟨⟨s, hrun, hs.1, hs.2.1, hs.2.2⟩, s', hrun', hs'.1, hs'.2.1, hs'.2.2.1,
    hs'.2.2.2.1, hs'.2.2.2.2.1, hs'.2.2.2.2.2⟩

end GdaReducePhases
