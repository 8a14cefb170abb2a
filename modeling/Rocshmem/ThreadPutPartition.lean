import Rocshmem.AlltoallRounds

/-! How the threads of a workgroup share the peers in the alltoall with one put per thread.
The loops start at the flat thread id in the block and advance by at most one wavefront. -/
namespace ThreadPutPartition

open AlltoallRounds List MatchedPrograms

def turnsFrom (step peSize : ℕ) : ℕ → ℕ → List ℕ
  | 0, _ => []
  | fuel + 1, j => if j < peSize then j :: turnsFrom step peSize fuel (j + step) else []

def turns (blockSize peSize tid : ℕ) : List ℕ :=
  turnsFrom (stepSize blockSize) peSize peSize tid

inductive Op where
  | put (j : ℕ)
  | fence (j : ℕ)
  | add (j : ℕ)
  | wait (j : ℕ)
  | quiet (j : ℕ)
  | reset (j : ℕ)
  deriving DecidableEq

def threadOps (k : Conduit) (blockSize peSize tid : ℕ) : List Op :=
  let peers := turns blockSize peSize tid
  match k with
  | .gda => peers.flatMap (fun j => [Op.put j, .add j]) ++
      peers.flatMap fun j => [Op.wait j, .quiet j, .reset j]
  | .ipc => peers.flatMap (fun j => [Op.put j]) ++ (peers.flatMap (fun j => [Op.fence j, .add j]) ++
      peers.flatMap fun j => [Op.wait j, .reset j])

def blockOps (k : Conduit) (blockSize peSize : ℕ) : List Op :=
  (range blockSize).flatMap (threadOps k blockSize peSize)

variable {k : Conduit} {blockSize peSize tid j step fuel : ℕ}

theorem exists_of_mem_turnsFrom {i : ℕ} (h : j ∈ turnsFrom step peSize fuel i) :
    j < peSize ∧ ∃ n, j = i + n * step := by
  induction fuel generalizing i with
  | zero => cases h
  | succ fuel ih =>
    rw [turnsFrom] at h
    split at h
    next hlt =>
      rcases mem_cons.mp h with rfl | htail
      · exact ⟨hlt, 0, by omega⟩
      · obtain ⟨hj, n, rfl⟩ := ih htail
        exact ⟨hj, n + 1, by rw [Nat.add_mul]; omega⟩
    next => cases h

theorem mem_turnsFrom {i : ℕ} (hstep : 0 < step) (hfuel : peSize ≤ i + fuel) (hj : j < peSize)
    {n : ℕ} (hn : j = i + n * step) : j ∈ turnsFrom step peSize fuel i := by
  induction fuel generalizing i n with
  | zero => omega
  | succ fuel ih =>
    have hi : i < peSize := by
      omega
    rw [turnsFrom, if_pos hi, mem_cons]
    cases n with
    | zero => exact .inl (by omega)
    | succ n =>
      rw [Nat.add_mul] at hn
      exact .inr (ih (by omega) (n := n) (by omega))

theorem nodup_turnsFrom (hstep : 0 < step) (i : ℕ) : (turnsFrom step peSize fuel i).Nodup := by
  induction fuel generalizing i with
  | zero => exact nodup_nil
  | succ fuel ih =>
    grind [turnsFrom, exists_of_mem_turnsFrom]

theorem step_pos (hb : 0 < blockSize) : 0 < stepSize blockSize := by
  unfold stepSize wfSize
  split <;> omega

theorem mem_turns (hb : 0 < blockSize) :
    tid < blockSize ∧ j ∈ turns blockSize peSize tid ↔ Handles blockSize tid j ∧ j < peSize := by
  have hstep := step_pos hb
  constructor
  · rintro ⟨htid, hmem⟩
    obtain ⟨hj, hex⟩ := exists_of_mem_turnsFrom hmem
    exact ⟨⟨htid, hex⟩, hj⟩
  · rintro ⟨⟨htid, n, hn⟩, hj⟩
    exact ⟨htid, mem_turnsFrom hstep (by omega) hj hn⟩

theorem single_handler_iff (hb : 0 < blockSize) :
    (∀ j < peSize, ∃! tid, Handles blockSize tid j) ↔ blockSize ≤ wfSize ∨ peSize ≤ wfSize := by
  constructor
  · intro h
    by_contra hlarge
    push Not at hlarge
    have hstep : stepSize blockSize = wfSize := if_neg (by omega)
    obtain ⟨tid, -, huniq⟩ := h wfSize hlarge.2
    have hzero := huniq 0 ⟨by omega, 1, by omega⟩
    have hlast := huniq wfSize ⟨hlarge.1, 0, by omega⟩
    have hpos : 0 < wfSize := by decide
    omega
  · intro h j hj
    by_cases hsmall : blockSize ≤ wfSize
    · -- the step is the block size, so the thread is the remainder of the peer
      have hstep : stepSize blockSize = blockSize := by
        unfold stepSize
        split <;> omega
      refine ⟨j % blockSize, ⟨Nat.mod_lt _ hb, j / blockSize, ?_⟩, ?_⟩
      · rw [hstep, Nat.mul_comm]
        exact (Nat.mod_add_div j blockSize).symm
      · rintro tid ⟨htid, n, rfl⟩
        rw [hstep, Nat.add_mul_mod_self_right, Nat.mod_eq_of_lt htid]
    · have hstep : stepSize blockSize = wfSize := if_neg (by omega)
      refine ⟨j, ⟨by omega, 0, by omega⟩, ?_⟩
      rintro tid ⟨-, n, hn⟩
      rw [hstep] at hn
      cases n with
      | zero => omega
      | succ n =>
        rw [Nat.add_mul] at hn
        omega

theorem count_flatMap_of_single {α : Type*} [DecidableEq α] {l : List α} {f : α → List Op}
    {a : α} {x : Op} (h : ∀ b ∈ l, (f b).count x = if b = a then 1 else 0) :
    (l.flatMap f).count x = l.count a := by
  induction l with
  | nil => rfl
  | cons b l ih =>
    grind

theorem count_flatMap_of_absent {l : List ℕ} {f : ℕ → List Op} {x : Op}
    (h : ∀ b, (f b).count x = 0) : (l.flatMap f).count x = 0 := by
  rw [count_flatMap, sum_eq_zero]
  intro n hn
  obtain ⟨b, -, rfl⟩ := mem_map.mp hn
  exact h b

theorem count_put_threadOps :
    (threadOps k blockSize peSize tid).count (.put j) = (turns blockSize peSize tid).count j := by
  cases k with
  | gda =>
    grind [threadOps, count_flatMap_of_single, count_flatMap_of_absent]
  | ipc =>
    rw [threadOps, count_append, count_append, count_flatMap_of_single (a := j),
      count_flatMap_of_absent, count_flatMap_of_absent, Nat.add_zero] <;>
      intros <;> simp [count_cons]

theorem count_add_threadOps :
    (threadOps k blockSize peSize tid).count (.add j) = (turns blockSize peSize tid).count j := by
  cases k with
  | gda =>
    grind [threadOps, count_flatMap_of_single, count_flatMap_of_absent]
  | ipc =>
    rw [threadOps, count_append, count_append, count_flatMap_of_absent,
      count_flatMap_of_single (a := j), count_flatMap_of_absent, Nat.zero_add, Nat.add_zero] <;>
      intros <;> simp [count_cons]

theorem count_blockOps {x : Op} (hb : 0 < blockSize) (hj : j < peSize)
    (hx : ∀ tid, (threadOps k blockSize peSize tid).count x = (turns blockSize peSize tid).count j)
    (h : ∃! tid, Handles blockSize tid j) : (blockOps k blockSize peSize).count x = 1 := by
  have hstep := step_pos hb
  obtain ⟨t₀, ht₀, huniq⟩ := h
  have hcount : (blockOps k blockSize peSize).count x = (range blockSize).count t₀ := by
    grind [blockOps, turns, nodup_turnsFrom, mem_turns, count_flatMap_of_single]
  rw [hcount]
  exact count_eq_one_of_mem nodup_range (mem_range.mpr ht₀.1)

/-- Each peer has one thread, one put and one increment in a round. A flag holds 1 from the
increment until its thread has taken it, in every run of any number of rounds, and the rounds
can be completed: every wait can be met. -/
structure Partitioned (k : Conduit) (blockSize peSize : ℕ) : Prop where
  handled : ∀ j < peSize, ∃! tid, tid < blockSize ∧ j ∈ turns blockSize peSize tid
  puts : ∀ j < peSize, (blockOps k blockSize peSize).count (.put j) = 1
  adds : ∀ j < peSize, (blockOps k blockSize peSize).count (.add j) = 1
  met : ∃ t : Team, t.peSize = peSize ∧ t.blockSize = blockSize ∧
    (∀ X m, (sys k t).Run anyStep (fun _ => 0) X m → ∀ p < peSize, ∀ q < peSize, ∀ r,
      Pending X p q r → m (q, t.word r p) = 1) ∧
    ∀ n, ∃ m, (sys k t).Run anyStep (fun _ => 0) {e | Occurs k t e ∧ e.round < n} m

theorem handled_iff (hb : 0 < blockSize) :
    (∀ j < peSize, ∃! tid, tid < blockSize ∧ j ∈ turns blockSize peSize tid) ↔
      ∀ j < peSize, ∃! tid, Handles blockSize tid j := by
  refine forall₂_congr fun j hj => existsUnique_congr fun tid => ?_
  rw [mem_turns hb, and_iff_left hj]

/-- For every team that fits the flags and every block: the peers are shared out exactly once
if and only if the block or the team is not larger than a wavefront. -/
theorem partitioned_iff (k : Conduit) (hb : 0 < blockSize) (hp : 0 < peSize)
    (hfit : 2 * peSize ≤ alltoallSyncSize) :
    Partitioned k blockSize peSize ↔ blockSize ≤ wfSize ∨ peSize ≤ wfSize := by
  rw [← single_handler_iff hb]
  constructor
  · intro h
    exact (handled_iff hb).mp h.handled
  · intro h
    have hle : peSize ≤ 128 := by
      unfold alltoallSyncSize at hfit
      omega
    refine ⟨(handled_iff hb).mpr h, fun j hj => count_blockOps hb hj (fun _ => count_put_threadOps)
      (h j hj), fun j hj => count_blockOps hb hj (fun _ => count_add_threadOps) (h j hj), ?_⟩
    refine ⟨⟨peSize, blockSize, hp, hb, hle, h⟩, rfl, rfl, ?_, rounds_reached k _⟩
    intro X m hrun p hp' q hq r
    exact flag_set (run_consistent (sound k _) hrun) hp' hq

theorem eight_pes_partitioned : Partitioned .ipc 256 8 :=
  (partitioned_iff .ipc (by decide) (by decide) (by decide)).mpr (.inr (by decide))

/-- A block of two wavefronts and 65 PEs: two threads put and add to peer 64. -/
theorem peer_64_handled_twice :
    64 ∈ turns 128 65 0 ∧ 64 ∈ turns 128 65 64 ∧ (blockOps .gda 128 65).count (.put 64) = 2 ∧
    (blockOps .gda 128 65).count (.add 64) = 2 ∧ (blockOps .ipc 128 65).count (.add 64) = 2 ∧
    ¬ Partitioned .gda 128 65 := by
  have hadds : (blockOps .gda 128 65).count (.add 64) = 2 := by decide +kernel
  refine ⟨by decide, by decide, by decide +kernel, hadds, by decide +kernel, fun h => ?_⟩
  have hone := h.adds 64 (by decide)
  omega

end ThreadPutPartition
