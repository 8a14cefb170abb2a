import Rocshmem.BootstrapSockets

/-! What the all-gathers of the bootstrap network leave in the buffers. The slice that a rank
forwards in a step is the one it received in the step before, so each slice goes once around the
ring of the ranks. -/
namespace BootstrapGather

open BootstrapCalls BootstrapSockets FifoPrograms GuardedMachines List MachineInts

section Spans

variable {m m' : Memory} {x y : Span} {v : Payload}

theorem readSpan_byte {i : ℕ} (h : i < x.size) :
    (readSpan m x).byte i = m x.call x.buffer (x.offset + i) := if_pos h

theorem readSpan_writeSpan_self (h : y.size = x.size) :
    readSpan (writeSpan m x (readSpan m' y)) x = readSpan m' y := by
  grind [writeSpan, readSpan, readSpan_byte]

theorem readSpan_writeSpan_of_disjoint (hv : v.size = x.size)
    (h : y.call ≠ x.call ∨ y.buffer ≠ x.buffer ∨ x.offset + x.size ≤ y.offset ∨
      y.offset + y.size ≤ x.offset) : readSpan (writeSpan m x v) y = readSpan m y := by
  grind [writeSpan, readSpan]

theorem writeSpan_of_ne {k : ℕ} (h : k ≠ x.call) : writeSpan m x v k = m k := by
  funext b a
  exact if_neg fun hc => h hc.1

end Spans

def slice (id size j : ℕ) : Span := ⟨id, .data, (j * size : ℕ), size⟩

theorem offset_disjoint {size i j : ℕ} (h : i ≠ j) :
    ((i * size : ℕ) : ℤ) + size ≤ (j * size : ℕ) ∨
      ((j * size : ℕ) : ℤ) + size ≤ (i * size : ℕ) := by
  rcases Nat.lt_or_gt_of_ne h with hlt | hlt
  · have hle : (i + 1) * size ≤ j * size := Nat.mul_le_mul_right size hlt
    rw [Nat.succ_mul] at hle
    exact .inl (by omega)
  · have hle : (j + 1) * size ≤ i * size := Nat.mul_le_mul_right size hlt
    rw [Nat.succ_mul] at hle
    exact .inr (by omega)

theorem slice_disjoint {m : Memory} {v : Payload} {id size i j : ℕ} (hv : v.size = size)
    (h : i ≠ j) : readSpan (writeSpan m (slice id size i) v) (slice id size j) =
      readSpan m (slice id size j) :=
  readSpan_writeSpan_of_disjoint hv (.inr (.inr (offset_disjoint h)))

section Ring

variable {id rank size n pos left : ℕ} {sl rl : ℕ → Link} {val : Link → Label → Payload}
  {m : Memory} {share : ℕ → Payload}

theorem ringSteps_succ (offset : ℕ → ℤ) (i : ℕ) :
    ringSteps id rank size n pos left sl rl offset (i + 1) =
      ringSteps id rank size n pos left sl rl offset i ++
        [.send (sl i) ⟨id, i, rank, size⟩ ⟨id, .data, offset ((pos + n - i) % n), size⟩,
          .recv (rl i) ⟨id, i, left, size⟩ ⟨id, .data, offset ((pos + n - i - 1) % n), size⟩] := by
  rw [ringSteps, range_succ, flatMap_append, flatMap_singleton]
  rfl

variable (hpos : pos < n) (hshare : ∀ j, ∃ m', share j = readSpan m' (slice id size j))
  (hown : readSpan m (slice id size pos) = share pos)
  (hs : ∀ i < n, val (sl i) ⟨id, i, rank, size⟩ = share ((pos + n - i) % n))
  (hr : ∀ i < n, val (rl i) ⟨id, i, left, size⟩ = share ((pos + n - i - 1) % n))
include hpos hshare hown hs hr

theorem ringSteps_values {i : ℕ} (hi : i < n) : Consistent store val
        (ringSteps id rank size n pos left sl rl (fun j => (j * size : ℕ)) i) m ∧
      ∀ d ≤ i, readSpan (replay store val
        (ringSteps id rank size n pos left sl rl (fun j => (j * size : ℕ)) i) m)
          (slice id size ((pos + n - d) % n)) = share ((pos + n - d) % n) := by
  induction i with
  | zero =>
    refine ⟨trivial, fun d hd => ?_⟩
    obtain rfl : d = 0 := Nat.le_zero.mp hd
    rw [Nat.sub_zero, Nat.add_mod_right, Nat.mod_eq_of_lt hpos]
    exact hown
  | succ i ih =>
    obtain ⟨hcons, hread⟩ := ih (by omega)
    rw [ringSteps_succ, consistent_append, replay_append]
    refine ⟨⟨hcons, ?_, trivial⟩, fun d hd => ?_⟩
    · exact (hread i (Nat.le_refl i)).trans (hs i (by omega)).symm
    · obtain ⟨m', hm'⟩ := hshare ((pos + n - i - 1) % n)
      have hval := (hr i (by omega)).trans hm'
      change readSpan (writeSpan _ (slice id size ((pos + n - i - 1) % n))
        (val (rl i) ⟨id, i, left, size⟩)) _ = _
      rw [hval]
      rcases Nat.lt_or_ge i d with hlt | hle
      · obtain rfl : d = i + 1 := by omega
        rw [Nat.sub_add_eq, hm']
        exact readSpan_writeSpan_self rfl
      · have hne : (pos + n - i - 1) % n ≠ (pos + n - d) % n := by
          rw [mod_of_lt_two_mul (by omega), mod_of_lt_two_mul (by omega)]
          split <;> split <;> omega
        have hsize : (readSpan m' (slice id size ((pos + n - i - 1) % n))).size = size := rfl
        exact (slice_disjoint hsize hne).trans (hread d hle)

theorem ringSteps_complete {j : ℕ} (hj : j < n) : readSpan (replay store val
      (ringSteps id rank size n pos left sl rl (fun j => (j * size : ℕ)) (n - 1)) m)
        (slice id size j) = share j := by
  have hd : (pos + n - j) % n ≤ n - 1 := by
    have hlt := Nat.mod_lt (pos + n - j) (show 0 < n by omega)
    omega
  have hback : (pos + n - (pos + n - j) % n) % n = j := by
    rw [mod_of_lt_two_mul (a := pos + n - j) (by omega)]
    split
    all_goals
      rw [mod_of_lt_two_mul (by omega)]
      split <;> omega
  have hread := (ringSteps_values hpos hshare hown hs hr (show n - 1 < n by omega)).2 _ hd
  rwa [hback] at hread

end Ring

def Fits : Call → Prop
  | .groupAllGatherStrided size _ _ count => (count - 1) * size < 2 ^ 31
  | .groupBarrier _ | .groupAllGather _ _ | .groupAlltoall _ _ | .allGather _ _ => True

section Offsets

variable (id : ℕ) {rank size n pos left : ℕ} {sl rl : ℕ → Link} {offset offset' : ℕ → ℤ}

theorem ringSteps_congr (hn : 0 < n) (h : ∀ j < n, offset j = offset' j) (steps : ℕ) :
    ringSteps id rank size n pos left sl rl offset steps =
      ringSteps id rank size n pos left sl rl offset' steps := by
  refine flatMap_congr fun i _ => ?_
  rw [h _ (Nat.mod_lt _ hn), h _ (Nat.mod_lt _ hn)]

theorem gather_ops {c : Call} (hv : c.Valid) (hg : c.IsGather) (hf : Fits c)
    (hr : rank ∈ c.ranks) : ∃ sl rl : ℕ → Link, (∀ i, (sl i).source = rank) ∧ (∀ i, (rl i).source =
        c.ranks.getD ((c.ranks.idxOf rank + c.ranks.length - 1) % c.ranks.length) 0) ∧
      c.ops id rank = ringSteps id rank c.size c.ranks.length (c.ranks.idxOf rank)
        (c.ranks.getD ((c.ranks.idxOf rank + c.ranks.length - 1) % c.ranks.length) 0) sl rl
        (fun j => (j * c.size : ℕ)) (c.ranks.length - 1) := by
  have hlen : 0 < c.ranks.length := length_pos_of_mem hr
  cases c with
  | groupBarrier | groupAlltoall => exact hg.elim
  | groupAllGather size ranks => exact ⟨_, _, fun _ => rfl, fun _ => rfl, rfl⟩
  | groupAllGatherStrided size start stride count =>
    have hcount : (Call.groupAllGatherStrided size start stride count).ranks.length = count := by
      rw [Call.ranks, length_map, length_range]
    rw [Call.ops, groupAllGatherStrided_eq hv hr]
    generalize (Call.groupAllGatherStrided size start stride count).ranks = ranks at *
    have hoffset : ∀ j < ranks.length, toInt (j * size : ℕ) = (j * size : ℕ) := fun j hj => by
      have hle : j * size ≤ (count - 1) * size := Nat.mul_le_mul_right size (by omega)
      exact toInt_natCast (Nat.lt_of_le_of_lt hle hf)
    rw [gatherSteps, ringSteps_congr id hlen hoffset]
    exact ⟨_, _, fun _ => rfl, fun _ => rfl, rfl⟩
  | allGather size nRanks =>
    have hlt := mem_range.mp hr
    have hidx : (range nRanks).idxOf rank = rank := by
      have hget : (range nRanks).getD rank 0 = rank := by
        rw [getD_eq_getElem _ _ (by rwa [length_range]), getElem_range]
      exact ((getD_eq_iff nodup_range (by rwa [length_range]) hr).mp hget).symm
    have hleft : (range nRanks).getD ((rank + nRanks - 1) % nRanks) 0 =
        (rank + nRanks - 1) % nRanks := by
      have hmod : (rank + nRanks - 1) % nRanks < (range nRanks).length := by
        rw [length_range]
        exact Nat.mod_lt _ (by omega)
      rw [getD_eq_getElem _ _ hmod, getElem_range]
    refine ⟨fun _ => .ring rank ((rank + 1) % nRanks),
      fun _ => .ring ((rank + nRanks - 1) % nRanks) rank, fun _ => rfl, fun _ => ?_, ?_⟩
    all_goals
      rw [Call.ranks, hidx, length_range, hleft]
      rfl

end Offsets

section Values

variable (S : Schedule) (mem : ℕ → Memory)

def share (k j : ℕ) : Payload :=
  readSpan (mem ((S.call k).ranks.getD j 0)) (slice k (S.call k).size j)

def value (c : Link) (l : Label) : Payload :=
  let ranks := (S.call l.call).ranks
  match S.call l.call with
  | .groupBarrier _ => readSpan (mem c.source) ⟨l.call, .dummy, 0, 4⟩
  | .groupAlltoall size ranks => readSpan (mem c.source) (slice l.call size (ranks.idxOf c.target))
  | .groupAllGather _ _ | .groupAllGatherStrided _ _ _ _ | .allGather _ _ =>
    share S mem l.call ((ranks.idxOf c.source + ranks.length - l.step) % ranks.length)

variable {S mem} {k r : ℕ} {m : Memory}

theorem value_gather {c : Link} {l : Label} (hg : (S.call l.call).IsGather) :
    value S mem c l = share S mem l.call (((S.call l.call).ranks.idxOf c.source +
      (S.call l.call).ranks.length - l.step) % (S.call l.call).ranks.length) := by
  grind [Call.IsGather, value]

theorem readSpan_congr {x : Span} {m' : Memory} (h : m x.call = m' x.call) :
    readSpan m x = readSpan m' x := by
  rw [readSpan, readSpan, h]

theorem gather_facts (hg : (S.call k).IsGather) (hr : r ∈ (S.call k).ranks)
    (hm : m k = mem r k) {sl rl : ℕ → Link} (hsl : ∀ i, (sl i).source = r)
    (hrl : ∀ i, (rl i).source = (S.call k).ranks.getD (((S.call k).ranks.idxOf r +
      (S.call k).ranks.length - 1) % (S.call k).ranks.length) 0) (size : ℕ) :
    readSpan m (slice k (S.call k).size ((S.call k).ranks.idxOf r)) =
        share S mem k ((S.call k).ranks.idxOf r) ∧
      (∀ i < (S.call k).ranks.length, value S mem (sl i) ⟨k, i, r, size⟩ =
        share S mem k (((S.call k).ranks.idxOf r + (S.call k).ranks.length - i) %
          (S.call k).ranks.length)) ∧
      ∀ left, ∀ i < (S.call k).ranks.length, value S mem (rl i) ⟨k, i, left, size⟩ =
        share S mem k (((S.call k).ranks.idxOf r + (S.call k).ranks.length - i - 1) %
          (S.call k).ranks.length) := by
  have hnd := (S.valid k).nodup
  have hpos := idxOf_lt_length_of_mem hr
  have hlen : 0 < (S.call k).ranks.length := by omega
  refine ⟨?_, fun i hi => ?_, fun left i hi => ?_⟩
  · rw [share, (getD_eq_iff hnd hpos hr).mpr rfl]
    exact readSpan_congr hm
  · rw [value_gather hg, hsl]
  · have hmod := Nat.mod_lt ((S.call k).ranks.idxOf r + (S.call k).ranks.length - 1) hlen
    have hidx := (getD_eq_iff hnd hmod (getD_mem hmod)).mp rfl
    rw [value_gather hg, hrl]
    change share S mem k (((S.call k).ranks.idxOf _ + (S.call k).ranks.length - i) %
      (S.call k).ranks.length) = _
    rw [← hidx]
    rw [sub_mod_sub hpos hi]

theorem gather_values (hg : (S.call k).IsGather) (hf : Fits (S.call k))
    (hr : r ∈ (S.call k).ranks) (hm : m k = mem r k) :
    Consistent store (value S mem) ((S.call k).ops k r) m ∧ ∀ j < (S.call k).ranks.length,
      readSpan (replay store (value S mem) ((S.call k).ops k r) m) (slice k (S.call k).size j) =
        share S mem k j := by
  have hpos := idxOf_lt_length_of_mem hr
  obtain ⟨sl, rl, hsl, hrl, hops⟩ := gather_ops k (S.valid k) hg hf hr
  obtain ⟨hown, hs, hrv⟩ := gather_facts hg hr hm hsl hrl (S.call k).size
  have hshare : ∀ j, ∃ m', share S mem k j = readSpan m' (slice k (S.call k).size j) :=
    fun j => ⟨_, rfl⟩
  rw [hops]
  constructor
  · exact (ringSteps_values hpos hshare hown hs (hrv _) (by omega)).1
  · exact fun j hj => ringSteps_complete hpos hshare hown hs (hrv _) hj

end Values

section Programs

variable {S : Schedule} {mem : ℕ → Memory} {k r : ℕ} {m : Memory}

theorem barrier_consistent {ranks : List ℕ} (hc : S.call k = .groupBarrier ranks)
    (hm : m k = mem r k) : Consistent store (value S mem) (groupBarrier k r ranks) m := by
  rw [groupBarrier, consistent_append]
  constructor
  · refine consistent_of_keeps (I := fun m => m k = mem r k) (fun hs m hm => ?_)
      (fun x hx => ?_) hm
    · obtain ⟨q, -, hq⟩ := mem_map.mp hs
      cases hq
      simp only [value, hc]
      exact readSpan_congr hm
    · rcases mem_written hx with ⟨c, l, h⟩ | ⟨y, h⟩ <;>
        · obtain ⟨q, -, hq⟩ := mem_map.mp h
          cases hq
  · refine consistent_of_keeps (I := fun _ => True) (fun hs => ?_) (fun _ _ _ _ _ => trivial)
      trivial
    obtain ⟨q, -, hq⟩ := mem_map.mp hs
    cases hq

theorem alltoall_consistent {size : ℕ} {ranks : List ℕ} (hc : S.call k = .groupAlltoall size ranks)
    (hr : r ∈ ranks) (hm : m k = mem r k) :
    Consistent store (value S mem) (groupAlltoall k r size ranks) m := by
  have hnd : ranks.Nodup := by
    have hv := S.valid k
    rwa [hc] at hv
  have hlen : 0 < ranks.length := length_pos_of_mem hr
  rw [groupAlltoall, consistent_append]
  constructor
  · -- the exchange sends from the data and receives into the other buffer
    refine consistent_of_keeps (I := fun m => m k .data = mem r k .data) (fun hs m hm => ?_)
      (fun x hx m v hm => ?_) (by rw [hm])
    · obtain ⟨i, -, hi⟩ := mem_flatMap.mp hs
      rcases mem_pair.mp hi with hi | hi
      · cases hi
        have hmod := Nat.mod_lt (ranks.idxOf r + (i + 1)) hlen
        have hidx := (getD_eq_iff hnd hmod (getD_mem hmod)).mp rfl
        simp only [value, hc, Link.target, ← hidx]
        change readSpan m (slice k size _) = readSpan (mem r) (slice k size _)
        rw [readSpan, readSpan]
        exact Payload.ext rfl (funext fun i => by
          change (if _ then m k .data _ else _) = if _ then mem r k .data _ else _
          rw [hm])
      · cases hi
    · have hbuffer : x.buffer = .recvBuf := by
        rcases mem_written hx with ⟨c, l, h⟩ | ⟨y, h⟩
        · grind
        · obtain ⟨i, -, hi⟩ := mem_flatMap.mp h
          rcases mem_pair.mp hi with hi | hi <;> cases hi
      refine (funext fun a => ?_ : writeSpan m x v k .data = m k .data).trans hm
      exact if_neg fun hin => by
        rw [hbuffer] at hin
        cases hin.2.1
  · refine consistent_of_keeps (I := fun _ => True) (fun hs => ?_) (fun _ _ _ _ _ => trivial)
      trivial
    obtain ⟨q, -, hq⟩ := mem_map.mp hs
    cases hq

theorem call_consistent (hf : Fits (S.call k)) (hr : r ∈ (S.call k).ranks) (hm : m k = mem r k) :
    Consistent store (value S mem) ((S.call k).ops k r) m := by
  cases hc : S.call k with
  | groupBarrier ranks => exact barrier_consistent hc hm
  | groupAlltoall size ranks =>
    rw [hc] at hr
    exact alltoall_consistent hc hr hm
  | groupAllGather size ranks | groupAllGatherStrided size start stride count
  | allGather size nRanks =>
    rw [← hc]
    exact (gather_values (hc ▸ trivial) hf hr hm).1

theorem replay_other {as : List Op} {j : ℕ} (h : ∀ a ∈ as, ∃ k, k ≠ j ∧ Sized k a) :
    replay store (value S mem) as m j = m j := by
  refine replay_keeps (I := fun m' : Memory => m' j = m j) as (fun x hx m' v hm' => ?_) rfl
  have hne : j ≠ x.call := by
    rcases mem_written hx with ⟨c, l, hmem⟩ | ⟨y, hmem⟩
    · obtain ⟨k, hk, hsized⟩ := h _ hmem
      exact fun hj => hk (hsized.2.1.symm.trans hj.symm)
    · obtain ⟨k, hk, hsized⟩ := h _ hmem
      exact fun hj => hk (hsized.symm.trans hj.symm)
  exact (writeSpan_of_ne hne).trans hm'

theorem program_consistent (hf : ∀ k, Fits (S.call k)) (r : ℕ) :
    Consistent store (value S mem) (S.program r) (mem r) := by
  refine consistent_flatMap (F := fun k (m : Memory) => m k = mem r k)
    (fun k hk m hm => call_consistent (hf k) (S.member hk) hm) (fun i j m hij hm => ?_)
    (S.once r) fun _ _ => rfl
  exact (replay_other fun a ha => ⟨i, hij, Call.ops_sized _ a ha⟩).trans hm

end Programs

section Forwarding

variable {id rank size n pos left : ℕ} {sl rl : ℕ → Link} {offset : ℕ → ℤ}

theorem ringSteps_forwards (hpos : pos < n) {own : Span → Prop}
    (hown : own ⟨id, .data, offset pos, size⟩) (i : ℕ) :
    Forwards own [] (ringSteps id rank size n pos left sl rl offset i) := by
  induction i with
  | zero => trivial
  | succ i ih =>
    rw [ringSteps_succ]
    cases i with
    | zero =>
      have hfirst : (pos + n - 0) % n = pos := by
        rw [Nat.sub_zero, Nat.add_mod_right, Nat.mod_eq_of_lt hpos]
      exact ⟨.inl (hfirst.symm ▸ hown), trivial⟩
    | succ i =>
      have hlast : Forwards own [⟨id, .data, offset ((pos + n - i - 1) % n), size⟩]
          [(.send (sl (i + 1)) ⟨id, i + 1, rank, size⟩
              ⟨id, .data, offset ((pos + n - (i + 1)) % n), size⟩ : Op),
            .recv (rl (i + 1)) ⟨id, i + 1, left, size⟩
              ⟨id, .data, offset ((pos + n - (i + 1) - 1) % n), size⟩] := by
        refine ⟨.inr ?_, trivial⟩
        rw [Nat.sub_add_eq]
        exact mem_cons_self
      refine ih.append hlast fun x hx => .inr ⟨rl i, ⟨id, i, left, size⟩, ?_⟩
      obtain rfl := mem_singleton.mp hx
      rw [ringSteps_succ]
      exact mem_append_right _ (mem_cons_of_mem _ mem_cons_self)

variable {S : Schedule} {r k : ℕ}

def ownSlice (S : Schedule) (r k : ℕ) : Span :=
  slice k (S.call k).size ((S.call k).ranks.idxOf r)

def Own (S : Schedule) (r : ℕ) (x : Span) : Prop :=
  (S.call x.call).IsGather → x = ownSlice S r x.call

theorem call_forwards (hf : Fits (S.call k)) (hr : r ∈ (S.call k).ranks) :
    Forwards (Own S r) [] ((S.call k).ops k r) := by
  by_cases hg : (S.call k).IsGather
  · obtain ⟨sl, rl, -, -, hops⟩ := gather_ops k (S.valid k) hg hf hr
    rw [hops]
    exact ringSteps_forwards (idxOf_lt_length_of_mem hr) (fun _ => rfl) _
  · refine forwards_of_own fun {c l x} hx hgather => absurd ?_ hg
    rw [← (Call.ops_sized _ _ hx).2.1]
    exact hgather

theorem program_forwards (hf : ∀ k, Fits (S.call k)) (r : ℕ) :
    Forwards (Own S r) [] (S.program r) :=
  Forwards.flatMap fun k hk => call_forwards (hf k) (S.member hk)

end Forwarding

section Results

variable {S : Schedule} {mem : ℕ → Memory} {s : State} {r k : ℕ}

def Returned (S : Schedule) (s : State) (r k : ℕ) : Prop :=
  ∃ before after, S.order r = before ++ k :: after ∧
    (before ++ [k]).flatMap (fun k => (S.call k).ops k r) <+: (s.rank r).done

theorem program_eq {before after : List ℕ} (h : S.order r = before ++ k :: after) :
    S.program r = (before ++ [k]).flatMap (fun k => (S.call k).ops k r) ++
      after.flatMap fun k => (S.call k).ops k r := by
  rw [Schedule.program, h, append_cons, flatMap_append]

section

variable (hf : ∀ k, Fits (S.call k)) (h : (machine S mem).Run anyStep s)
  (hret : Returned S s r k)
include hf h hret

theorem mem_of_returned : ∃ m : Memory, m k = mem r k ∧
      (s.rank r).mem k = replay store (value S mem) ((S.call k).ops k r) m k := by
  obtain ⟨before, after, horder, later, hdone⟩ := hret
  have hrun := (run_fifo h).2
  have hsplit : (s.rank r).done ++ (s.rank r).todo = S.program r :=
    (Delivered.of_run S.matched hrun).split r
  have hmem : (s.rank r).mem = replay store (value S mem) (s.rank r).done (mem r) :=
    (Valued.of_run S.matched (program_consistent hf) hrun).mem r
  have hnot : k ∉ before ++ after := by
    have hnd := S.once r
    rw [horder] at hnd
    exact (nodup_cons.mp (nodup_middle.mp hnd)).1
  -- what follows the call is part of the later calls
  have hlater : later ++ (s.rank r).todo = after.flatMap fun k => (S.call k).ops k r := by
    rw [program_eq horder, ← hdone, append_assoc] at hsplit
    exact append_cancel_left hsplit
  have hother : ∀ ks : List ℕ, ks ⊆ before ++ after →
      ∀ a ∈ ks.flatMap fun k => (S.call k).ops k r, ∃ i, i ≠ k ∧ Sized i a := by
    intro ks hsub a ha
    obtain ⟨i, hi, ha⟩ := mem_flatMap.mp ha
    exact ⟨i, fun hik => hnot (hik ▸ hsub hi), Call.ops_sized _ a ha⟩
  refine ⟨replay store (value S mem) (before.flatMap fun k => (S.call k).ops k r) (mem r), ?_, ?_⟩
  · exact replay_other (hother before (subset_append_left _ _))
  · rw [hmem, ← hdone, replay_append, flatMap_append, replay_append, flatMap_singleton]
    refine replay_other fun a ha => ?_
    exact hother after (subset_append_right _ _) a (hlater ▸ mem_append_left _ ha)

theorem gather_byte (hg : (S.call k).IsGather) {j i : ℕ}
    (hj : j < (S.call k).ranks.length) (hi : i < (S.call k).size) :
    (s.rank r).mem k .data ((j * (S.call k).size : ℕ) + i) =
      mem ((S.call k).ranks.getD j 0) k .data ((j * (S.call k).size : ℕ) + i) := by
  obtain ⟨m, hm, hmem⟩ := mem_of_returned hf h hret
  obtain ⟨before, after, horder, -⟩ := hret
  have hr : r ∈ (S.call k).ranks := S.member (horder ▸ mem_append_right _ mem_cons_self)
  have hread : readSpan (s.rank r).mem (slice k (S.call k).size j) = share S mem k j :=
    (readSpan_congr hmem).trans ((gather_values hg (hf k) hr hm).2 j hj)
  have hbyte := congrArg (fun v : Payload => v.byte i) hread
  change (readSpan (s.rank r).mem (slice k (S.call k).size j)).byte i =
    (readSpan _ (slice k (S.call k).size j)).byte i at hbyte
  rw [readSpan_byte hi, readSpan_byte hi] at hbyte
  exact hbyte

end

end Results

section Instances

theorem returned_of_todo_nil {S : Schedule} {mem : ℕ → Memory} {s : State} {r k : ℕ}
    (h : (machine S mem).Run anyStep s) (hk : k ∈ S.order r)
    (htodo : (s.rank r).todo = []) : Returned S s r k := by
  have hsplit : (s.rank r).done ++ (s.rank r).todo = S.program r :=
    (Delivered.of_run S.matched (run_fifo h).2).split r
  rw [htodo, append_nil] at hsplit
  obtain ⟨before, after, horder⟩ := append_of_mem hk
  refine ⟨before, after, horder, after.flatMap fun k => (S.call k).ops k r, ?_⟩
  rw [hsplit, program_eq horder]

def oneCall (c : Call) (hv : c.Valid) : Schedule where
  call _ := c
  order r := if r ∈ c.ranks then [0] else []
  valid _ := hv
  member {r k} h := by
    by_contra hr
    rw [if_neg hr] at h
    exact absurd h not_mem_nil
  once r := by
    split
    · exact nodup_singleton 0
    · exact nodup_nil
  agree p q := Schedule.agree_together [0] (fun _ => rfl) p q

def threeRankTrace : List Event :=
  [0, 1, 2].flatMap (fun r => replicate 4 (.run r)) ++
    [(0, 2), (1, 0), (2, 1)].flatMap (fun e => [.run e.1, .accept e.1 e.2, .run e.1, .run e.1,
      .run e.1]) ++
    [0, 1, 2].flatMap (fun r => replicate 4 (.run r)) ++
    [(0, 5), (1, 3), (2, 4)].flatMap fun e => [.run e.1, .accept e.1 e.2, .run e.1, .run e.1,
      .run e.1]

def narrow : Schedule := oneCall (.groupAllGatherStrided 1 0 1 3) Nat.one_pos

def wide : Schedule := oneCall (.groupAllGatherStrided (2 ^ 30) 0 1 3) Nat.one_pos

end Instances

end BootstrapGather
