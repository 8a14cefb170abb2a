import Rocshmem.BootstrapGather

/-! What the all-to-all of the bootstrap network leaves in the buffers. The blocks are received
into a second buffer and copied back after the last exchange, so no block is replaced before it
was sent. -/
namespace BootstrapAlltoall

open GuardedMachines FifoPrograms MachineInts BootstrapCalls BootstrapSockets BootstrapGather

def recvBlock (id size j : ℕ) : Span := ⟨id, .recvBuf, (j * size : ℕ), size⟩

def recvBufSize (size n : ℕ) : ℤ := toInt (size * n : ℕ)

section Blocks

variable {m : Memory} {v : Payload} {id size i j : ℕ}

theorem recvBlock_disjoint (hv : v.size = size) (h : i ≠ j) :
    readSpan (writeSpan m (recvBlock id size i) v) (recvBlock id size j) =
      readSpan m (recvBlock id size j) :=
  readSpan_writeSpan_of_disjoint hv (.inr (.inr (offset_disjoint h)))

theorem recvBlock_writeSpan_slice (hv : v.size = size) :
    readSpan (writeSpan m (slice id size i) v) (recvBlock id size j) =
      readSpan m (recvBlock id size j) :=
  readSpan_writeSpan_of_disjoint hv (.inr (.inl nofun))

theorem slice_writeSpan_recvBlock (hv : v.size = size) :
    readSpan (writeSpan m (recvBlock id size i) v) (slice id size j) =
      readSpan m (slice id size j) :=
  readSpan_writeSpan_of_disjoint hv (.inr (.inl nofun))

end Blocks

def exchanges (id rank size : ℕ) (ranks : List ℕ) (steps : ℕ) : List Op :=
  let n := ranks.length
  let pos := ranks.idxOf rank
  (List.range steps).flatMap fun i =>
    [.send (.peer rank (ranks.getD ((pos + (i + 1)) % n) 0) (i + 1)) ⟨id, i + 1, rank, size⟩
        (slice id size ((pos + (i + 1)) % n)),
      .recv (.peer (ranks.getD ((pos + n - (i + 1)) % n) 0) rank (i + 1))
        ⟨id, i + 1, ranks.getD ((pos + n - (i + 1)) % n) 0, size⟩
        (recvBlock id size ((pos + n - (i + 1)) % n))]

def copies (id size : ℕ) (steps : List ℕ) : List Op :=
  steps.map fun step => .move (slice id size step) (recvBlock id size step)

theorem groupAlltoall_eq {id rank size : ℕ} {ranks : List ℕ} (hfit : ranks.length * size < 2 ^ 31) :
    groupAlltoall id rank size ranks = exchanges id rank size ranks (ranks.length - 1) ++
      copies id size ((List.range ranks.length).filter (· ≠ ranks.idxOf rank)) := by
  have hcopies : (((List.range ranks.length).filter (· ≠ ranks.idxOf rank)).map fun step =>
      (.move ⟨id, .data, toInt (step * size : ℕ), size⟩
        ⟨id, .recvBuf, toInt (step * size : ℕ), size⟩ : Op)) =
      copies id size ((List.range ranks.length).filter (· ≠ ranks.idxOf rank)) := by
    refine List.map_congr_left fun step hstep => ?_
    have hlt := List.mem_range.mp (List.mem_filter.mp hstep).1
    have hle : step * size ≤ ranks.length * size := Nat.mul_le_mul_right size hlt.le
    have hint : toInt (step * size : ℕ) = (step * size : ℕ) :=
      toInt_natCast (Nat.lt_of_le_of_lt hle hfit)
    rw [hint]
    rfl
  rw [groupAlltoall, hcopies]
  rfl

section Exchange

variable {id rank size : ℕ} {ranks : List ℕ} {val : Link → Label → Payload} {m : Memory}
  {block : ℕ → Payload}

theorem exchanges_succ (steps : ℕ) : exchanges id rank size ranks (steps + 1) =
    exchanges id rank size ranks steps ++
      [.send (.peer rank (ranks.getD ((ranks.idxOf rank + (steps + 1)) % ranks.length) 0)
          (steps + 1)) ⟨id, steps + 1, rank, size⟩
          (slice id size ((ranks.idxOf rank + (steps + 1)) % ranks.length)),
        .recv (.peer (ranks.getD ((ranks.idxOf rank + ranks.length - (steps + 1)) % ranks.length) 0)
            rank (steps + 1)) ⟨id, steps + 1,
            ranks.getD ((ranks.idxOf rank + ranks.length - (steps + 1)) % ranks.length) 0, size⟩
          (recvBlock id size ((ranks.idxOf rank + ranks.length - (steps + 1)) % ranks.length))] := by
  rw [exchanges, List.range_succ, List.flatMap_append, List.flatMap_singleton]
  rfl

theorem exchanges_values (hpos : ranks.idxOf rank < ranks.length)
    (hblock : ∀ j, ∃ m', block j = readSpan m' (slice id size (ranks.idxOf rank)))
    (hval : ∀ j t, val (.peer (ranks.getD j 0) rank t) ⟨id, t, ranks.getD j 0, size⟩ = block j)
    {steps : ℕ} (hsteps : steps < ranks.length) :
    (∀ d < steps, readSpan (replay store val (exchanges id rank size ranks steps) m)
        (recvBlock id size ((ranks.idxOf rank + ranks.length - (d + 1)) % ranks.length)) =
          block ((ranks.idxOf rank + ranks.length - (d + 1)) % ranks.length)) ∧
      ∀ j, readSpan (replay store val (exchanges id rank size ranks steps) m) (slice id size j) =
        readSpan m (slice id size j) := by
  induction steps with
  | zero => exact ⟨fun d hd => absurd hd (Nat.not_lt_zero d), fun j => rfl⟩
  | succ steps ih =>
    obtain ⟨hread, hdata⟩ := ih (by omega)
    rw [exchanges_succ, replay_append]
    generalize replay store val (exchanges id rank size ranks steps) m = m₁ at hread hdata ⊢
    obtain ⟨m', hm'⟩ := hblock ((ranks.idxOf rank + ranks.length - (steps + 1)) % ranks.length)
    have hgot := (hval ((ranks.idxOf rank + ranks.length - (steps + 1)) % ranks.length)
      (steps + 1)).trans hm'
    have hsize : (readSpan m' (slice id size (ranks.idxOf rank))).size = size := rfl
    refine ⟨fun d hd => ?_, fun j => ?_⟩
    · change readSpan (writeSpan m₁ (recvBlock id size _) (val _ _)) _ = _
      rw [hgot]
      rcases Nat.lt_or_ge d steps with hlt | hge
      · have hne : (ranks.idxOf rank + ranks.length - (steps + 1)) % ranks.length ≠
            (ranks.idxOf rank + ranks.length - (d + 1)) % ranks.length := by
          rw [mod_of_lt_two_mul (by omega), mod_of_lt_two_mul (by omega)]
          split <;> split <;> omega
        exact (recvBlock_disjoint hsize hne).trans (hread d hlt)
      · obtain rfl : d = steps := by omega
        rw [hm']
        exact readSpan_writeSpan_self rfl
    · change readSpan (writeSpan m₁ (recvBlock id size _) (val _ _)) _ = _
      rw [hgot]
      exact (slice_writeSpan_recvBlock hsize).trans (hdata j)

theorem copies_values (steps : List ℕ) (j : ℕ) :
    readSpan (replay store val (copies id size steps) m) (slice id size j) =
      if j ∈ steps then readSpan m (recvBlock id size j) else readSpan m (slice id size j) := by
  induction steps generalizing m with
  | nil => rfl
  | cons step steps ih =>
    have hreplay : replay store val (copies id size (step :: steps)) m =
        replay store val (copies id size steps)
          (writeSpan m (slice id size step) (readSpan m (recvBlock id size step))) := rfl
    have hsize : (readSpan m (recvBlock id size step)).size = size := rfl
    rw [hreplay, ih, recvBlock_writeSpan_slice hsize]
    by_cases hmem : j ∈ steps
    · rw [if_pos hmem, if_pos (List.mem_cons_of_mem _ hmem)]
    · grind [slice, readSpan, readSpan_writeSpan_self, slice_disjoint]

end Exchange

section Values

variable {S : Schedule} {mem : ℕ → Memory} {k r size : ℕ} {ranks : List ℕ} {m : Memory}

theorem value_alltoall (hc : S.call k = .groupAlltoall size ranks) (p t step a n : ℕ) :
    value S mem (.peer p r t) ⟨k, step, a, n⟩ =
      readSpan (mem p) (slice k size (ranks.idxOf r)) := by
  rw [value]
  simp only [hc]
  rfl

theorem alltoall_complete (hc : S.call k = .groupAlltoall size ranks)
    (hfit : ranks.length * size < 2 ^ 31) (hr : r ∈ ranks) (hm : m k = mem r k) {j : ℕ}
    (hj : j < ranks.length) :
    readSpan (replay store (value S mem) (groupAlltoall k r size ranks) m) (slice k size j) =
      readSpan (mem (ranks.getD j 0)) (slice k size (ranks.idxOf r)) := by
  have hpos := List.idxOf_lt_length_of_mem hr
  let block : ℕ → Payload := fun j =>
    readSpan (mem (ranks.getD j 0)) (slice k size (ranks.idxOf r))
  have hblock : ∀ j, ∃ m', block j = readSpan m' (slice k size (ranks.idxOf r)) := fun j => ⟨_, rfl⟩
  have hval : ∀ j t, value S mem (.peer (ranks.getD j 0) r t) ⟨k, t, ranks.getD j 0, size⟩ =
      block j := fun j t => value_alltoall hc _ _ _ _ _
  obtain ⟨hread, hdata⟩ := exchanges_values (m := m) hpos hblock hval
    (show ranks.length - 1 < ranks.length by omega)
  rw [groupAlltoall_eq hfit, replay_append, copies_values]
  by_cases hne : j = ranks.idxOf r
  · grind [slice, readSpan]
  · grind [exists_steps]

end Values

section Results

variable {S : Schedule} {mem : ℕ → Memory} {s : State} {k size : ℕ} {ranks : List ℕ}

theorem recv_in_bounds {id rank : ℕ} (hfit : ranks.length * size < 2 ^ 31) (hr : rank ∈ ranks)
    {c : Link} {l : Label} {x : Span} (h : .recv c l x ∈ groupAlltoall id rank size ranks) :
    0 ≤ x.offset ∧ x.offset + x.size ≤ recvBufSize size ranks.length := by
  have hlen : 0 < ranks.length := List.length_pos_of_mem hr
  have hint : recvBufSize size ranks.length = (ranks.length * size : ℕ) := by
    rw [recvBufSize, Nat.mul_comm]
    exact toInt_natCast hfit
  rcases List.mem_append.mp h with h | h
  · obtain ⟨i, -, h⟩ := List.mem_flatMap.mp h
    rcases List.mem_pair.mp h with h | h
    · cases h
    · cases h
      have hmod := Nat.mod_lt (ranks.idxOf rank + ranks.length - (i + 1)) hlen
      have hle := Nat.mul_le_mul_right size (Nat.succ_le_of_lt hmod)
      rw [Nat.succ_mul] at hle
      rw [hint]
      exact ⟨Int.natCast_nonneg _, Int.ofNat_le.mpr hle⟩
  · obtain ⟨step, -, hstep⟩ := List.mem_map.mp h
    cases hstep

/-- In any run over the sockets, after an all-to-all block `j` of participant `i` is what block
`i` of participant `j` was, byte for byte, and block `i` of participant `i` is as it was; what is
received lies in the buffer allocated for it. The `int` product of the number of ranks and the
block size does not overflow. -/
theorem alltoall_transposes (hf : ∀ k, Fits (S.call k)) (h : (machine S mem).Run anyStep s)
    (hc : S.call k = .groupAlltoall size ranks) (hfit : ranks.length * size < 2 ^ 31) :
    (∀ i < ranks.length, Returned S s (ranks.getD i 0) k → ∀ b < size,
      (∀ j < ranks.length, (s.rank (ranks.getD i 0)).mem k .data ((j * size : ℕ) + b) =
        mem (ranks.getD j 0) k .data ((i * size : ℕ) + b)) ∧
      (s.rank (ranks.getD i 0)).mem k .data ((i * size : ℕ) + b) =
        mem (ranks.getD i 0) k .data ((i * size : ℕ) + b)) ∧
    ∀ r ∈ ranks, ∀ c l x, .recv c l x ∈ (S.call k).ops k r →
      0 ≤ x.offset ∧ x.offset + x.size ≤ recvBufSize size ranks.length := by
  have hnd : ranks.Nodup := by
    have hv := S.valid k
    rwa [hc] at hv
  have hblock : ∀ i < ranks.length, Returned S s (ranks.getD i 0) k → ∀ b < size,
      ∀ j < ranks.length, (s.rank (ranks.getD i 0)).mem k .data ((j * size : ℕ) + b) =
        mem (ranks.getD j 0) k .data ((i * size : ℕ) + b) := by
    intro i hi hret b hb j hj
    obtain ⟨m, hm, hmem⟩ := mem_of_returned hf h hret
    have hr := getD_mem hi
    have hidx := (getD_eq_iff hnd hi hr).mp rfl
    have hread : readSpan (s.rank (ranks.getD i 0)).mem (slice k size j) =
        readSpan (mem (ranks.getD j 0)) (slice k size i) := by
      rw [hc] at hmem
      have hcomplete := alltoall_complete hc hfit hr hm hj
      rw [← hidx] at hcomplete
      exact (readSpan_congr hmem).trans hcomplete
    have hbyte := congrArg (fun v : Payload => v.byte b) hread
    change (readSpan (s.rank (ranks.getD i 0)).mem (slice k size j)).byte b =
      (readSpan (mem (ranks.getD j 0)) (slice k size i)).byte b at hbyte
    rw [readSpan_byte hb, readSpan_byte hb] at hbyte
    exact hbyte
  refine ⟨fun i hi hret b hb => ⟨hblock i hi hret b hb, hblock i hi hret b hb i hi⟩,
    fun r hr c l x hx => ?_⟩
  rw [hc] at hx
  exact recv_in_bounds hfit hr hx

end Results

section Instances

def exchangeTrace : List Event :=
  [0, 1, 2].flatMap (fun r => List.replicate 4 (.run r)) ++
    [(0, 2), (1, 0), (2, 1)].flatMap (fun e => [.run e.1, .accept e.1 e.2, .run e.1, .run e.1,
      .run e.1]) ++
    [0, 1, 2].flatMap (fun r => List.replicate 4 (.run r)) ++
    [(0, 4), (1, 5), (2, 3)].flatMap fun e => [.run e.1, .accept e.1 e.2, .run e.1, .run e.1,
      .run e.1, .run e.1, .run e.1]

def narrowBlocks : Schedule := oneCall (.groupAlltoall 1 [0, 1, 2]) (by decide : [0, 1, 2].Nodup)

theorem alltoall_transposes_narrow : ∃ s,
    (machine narrowBlocks fun r _ _ a => .ofNat (10 * r + a.toNat)).Run anyStep s ∧
      Returned narrowBlocks s 0 0 ∧ ∀ j < 3, (s.rank 0).mem 0 .data ((j * 1 : ℕ) + (0 : ℕ)) =
        .ofNat (10 * [0, 1, 2].getD j 0 + 0) := by
  obtain ⟨s, hrun, hP⟩ := run_of_replay
    (machine narrowBlocks fun r _ _ a => .ofNat (10 * r + a.toNat)) anyStep exchangeTrace
    (fun s => (s.rank 0).todo.isEmpty) (by decide +kernel)
  have hret := returned_of_todo_nil hrun (k := 0) (r := 0) (by decide) (List.isEmpty_iff.mp hP)
  have hfits : ∀ k, Fits (narrowBlocks.call k) := fun _ => trivial
  have hcall : narrowBlocks.call 0 = .groupAlltoall 1 [0, 1, 2] := rfl
  have hblocks := (alltoall_transposes hfits hrun hcall (by decide)).1
  exact ⟨s, hrun, hret, (hblocks 0 (by decide) hret 0 (by decide)).1⟩

def wideBlocks : Schedule :=
  oneCall (.groupAlltoall 1431655766 [0, 1, 2]) (by decide : [0, 1, 2].Nodup)

/-- Two bytes are allocated for three blocks, and even with the memory that is missing the last
block is copied to a wrapped offset: rank 0 keeps its own block instead of that of rank 2. -/
theorem wide_block_missing : ∃ s,
    (machine wideBlocks fun r _ _ _ => .ofNat (r + 1)).Run anyStep s ∧
      Returned wideBlocks s 0 0 ∧ recvBufSize 1431655766 3 = 2 ∧
        (s.rank 0).mem 0 .data ((2 * 1431655766 : ℕ) + (0 : ℕ)) = 1 ∧
        (1 : UInt8) ≠ .ofNat (2 + 1) := by
  obtain ⟨s, hrun, hP⟩ := run_of_replay (machine wideBlocks fun r _ _ _ => .ofNat (r + 1))
    anyStep exchangeTrace (fun s => (s.rank 0).todo.isEmpty ∧
      (s.rank 0).mem 0 .data ((2 * 1431655766 : ℕ) + (0 : ℕ)) = 1) (by decide +kernel)
  have hret := returned_of_todo_nil hrun (k := 0) (r := 0) (by decide)
    (List.isEmpty_iff.mp hP.1)
  exact ⟨s, hrun, hret, by decide, hP.2, by decide⟩

end Instances

end BootstrapAlltoall
