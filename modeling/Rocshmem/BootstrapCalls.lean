import Rocshmem.FifoPrograms
import Rocshmem.MachineInts

/-! The collective calls of the bootstrap network. Each call of a rank is a list of sends and
receives; a rank sends to a peer on the socket for that peer and tag, or to its right neighbour
on the ring socket. The buffers of different calls are different memory. -/
namespace BootstrapCalls

open FifoPrograms GuardedMachines List MachineInts

inductive Link where
  | peer (source target tag : ℕ)
  | ring (source target : ℕ)
  deriving DecidableEq

namespace Link

def source : Link → ℕ
  | .peer p _ _ | .ring p _ => p

def target : Link → ℕ
  | .peer _ q _ | .ring _ q => q

end Link

structure Label where
  call : ℕ
  step : ℕ
  source : ℕ
  size : ℕ
  deriving DecidableEq

inductive Buffer where
  | data
  | recvBuf
  | dummy
  deriving DecidableEq

structure Span where
  call : ℕ
  buffer : Buffer
  offset : ℤ
  size : ℕ
  deriving DecidableEq

@[ext]
structure Payload where
  size : ℕ
  byte : ℕ → UInt8

abbrev Memory := ℕ → Buffer → ℤ → UInt8

def readSpan (m : Memory) (x : Span) : Payload :=
  ⟨x.size, fun i => if i < x.size then m x.call x.buffer (x.offset + i) else 0⟩

def writeSpan (m : Memory) (x : Span) (v : Payload) : Memory := fun k b a =>
  if k = x.call ∧ b = x.buffer ∧ x.offset ≤ a ∧ a < x.offset + v.size then
    v.byte (a - x.offset).toNat
  else m k b a

def store : Store Span Payload Memory := ⟨readSpan, writeSpan⟩

abbrev Op := Act Link Label Span

section Calls

variable (id rank size : ℕ)

def groupBarrier (ranks : List ℕ) : List Op :=
  (ranks.filter (· ≠ rank)).map
      (fun r => .send (.peer rank r 0) ⟨id, 0, rank, 4⟩ ⟨id, .dummy, 0, 4⟩) ++
    (ranks.filter (· ≠ rank)).map
      fun r => .recv (.peer r rank 0) ⟨id, 0, r, 4⟩ ⟨id, .dummy, 0, 4⟩

def ringSteps (n pos left : ℕ) (sendLink recvLink : ℕ → Link) (offset : ℕ → ℤ) (steps : ℕ) :
    List Op :=
  (range steps).flatMap fun i =>
    [.send (sendLink i) ⟨id, i, rank, size⟩ ⟨id, .data, offset ((pos + n - i) % n), size⟩,
      .recv (recvLink i) ⟨id, i, left, size⟩
        ⟨id, .data, offset ((pos + n - i - 1) % n), size⟩]

def groupAllGather (ranks : List ℕ) : List Op :=
  let n := ranks.length
  let pos := ranks.idxOf rank
  let left := ranks.getD ((pos + n - 1) % n) 0
  ringSteps id rank size n pos left (fun i => .peer rank (ranks.getD ((pos + 1 + n) % n) 0) i)
    (fun i => .peer left rank i) (fun slice => (slice * size : ℕ)) (n - 1)

def groupAllGatherStrided (start stride count : ℕ) : List Op :=
  let pos := (rank - start) / stride
  let left := start + (pos + count - 1) % count * stride
  ringSteps id rank size count pos left
    (fun i => .peer rank (start + (pos + 1) % count * stride) i)
    (fun i => .peer left rank i) (fun slice => toInt (slice * size : ℕ)) (count - 1)

def groupAlltoall (ranks : List ℕ) : List Op :=
  let n := ranks.length
  let pos := ranks.idxOf rank
  ((range (n - 1)).flatMap fun i =>
    let sendto := (pos + (i + 1)) % n
    let recvfrom := (pos + n - (i + 1)) % n
    [.send (.peer rank (ranks.getD sendto 0) (i + 1)) ⟨id, i + 1, rank, size⟩
        ⟨id, .data, (sendto * size : ℕ), size⟩,
      .recv (.peer (ranks.getD recvfrom 0) rank (i + 1))
        ⟨id, i + 1, ranks.getD recvfrom 0, size⟩ ⟨id, .recvBuf, (recvfrom * size : ℕ), size⟩]) ++
    ((range n).filter (· ≠ pos)).map fun step =>
      .move ⟨id, .data, toInt (step * size : ℕ), size⟩ ⟨id, .recvBuf, toInt (step * size : ℕ), size⟩

def allGather (nRanks : ℕ) : List Op :=
  let left := (rank + nRanks - 1) % nRanks
  ringSteps id rank size nRanks rank left (fun _ => .ring rank ((rank + 1) % nRanks))
    (fun _ => .ring left rank) (fun slice => (slice * size : ℕ)) (nRanks - 1)

end Calls

inductive Call where
  | groupBarrier (ranks : List ℕ)
  | groupAllGather (size : ℕ) (ranks : List ℕ)
  | groupAllGatherStrided (size start stride count : ℕ)
  | groupAlltoall (size : ℕ) (ranks : List ℕ)
  | allGather (size nRanks : ℕ)

namespace Call

def ranks : Call → List ℕ
  | .groupBarrier ranks | .groupAllGather _ ranks | .groupAlltoall _ ranks => ranks
  | .groupAllGatherStrided _ start stride count =>
    (range count).map fun i => start + i * stride
  | .allGather _ nRanks => range nRanks

def size : Call → ℕ
  | .groupBarrier _ => 4
  | .groupAllGather size _ | .groupAllGatherStrided size _ _ _ | .groupAlltoall size _
  | .allGather size _ => size

def Valid : Call → Prop
  | .groupBarrier ranks | .groupAllGather _ ranks | .groupAlltoall _ ranks => ranks.Nodup
  | .groupAllGatherStrided _ _ stride _ => 0 < stride
  | .allGather _ _ => True

def IsGather : Call → Prop
  | .groupAllGather _ _ | .groupAllGatherStrided _ _ _ _ | .allGather _ _ => True
  | .groupBarrier _ | .groupAlltoall _ _ => False

def ops (id rank : ℕ) : Call → List Op
  | .groupBarrier ranks => BootstrapCalls.groupBarrier id rank ranks
  | .groupAllGather size ranks => BootstrapCalls.groupAllGather id rank size ranks
  | .groupAllGatherStrided size start stride count =>
    BootstrapCalls.groupAllGatherStrided id rank size start stride count
  | .groupAlltoall size ranks => BootstrapCalls.groupAlltoall id rank size ranks
  | .allGather size nRanks => BootstrapCalls.allGather id rank size nRanks

end Call

/-- The calls, and for each rank the calls it makes, one after the other. A rank makes calls of
which it is a member, each once, and any two ranks make their common calls in the same order. -/
structure Schedule where
  call : ℕ → Call
  order : ℕ → List ℕ
  valid : ∀ k, (call k).Valid
  member : ∀ {r k}, k ∈ order r → r ∈ (call k).ranks
  once : ∀ r, (order r).Nodup
  agree : ∀ p q, (order p).filter (fun k => q ∈ (call k).ranks) =
    (order q).filter fun k => p ∈ (call k).ranks

def Schedule.program (S : Schedule) (rank : ℕ) : List Op :=
  (S.order rank).flatMap fun k => (S.call k).ops k rank

section Positions

variable {n a b d i : ℕ} {ranks : List ℕ} {q : ℕ}

theorem mod_of_lt_two_mul (h : a < 2 * n) : a % n = if a < n then a else a - n := by
  split
  next hlt => exact Nat.mod_eq_of_lt hlt
  next hge => rw [Nat.mod_eq_sub_mod (by omega), Nat.mod_eq_of_lt (by omega)]

theorem add_mod_eq_iff (ha : a < n) (hb : b < n) (hd : d ≤ n) :
    (a + d) % n = b ↔ (b + n - d) % n = a := by
  rw [mod_of_lt_two_mul (by omega), mod_of_lt_two_mul (by omega)]
  split <;> split <;> omega

theorem sub_mod_sub (ha : a < n) (hi : i < n) :
    ((a + n - 1) % n + n - i) % n = (a + n - i - 1) % n := by
  rw [mod_of_lt_two_mul (a := a + n - 1) (by omega),
    mod_of_lt_two_mul (a := a + n - i - 1) (by omega)]
  split
  all_goals
    rw [mod_of_lt_two_mul (by omega)]
    split <;> split <;> omega

theorem exists_steps (ha : a < n) (hb : b < n) (hne : b ≠ a) :
    ∃ d < n - 1, (a + n - (d + 1)) % n = b := by
  rcases Nat.lt_or_gt_of_ne hne with hlt | hgt
  · refine ⟨a - b - 1, by omega, ?_⟩
    rw [mod_of_lt_two_mul (by omega)]
    split <;> omega
  · refine ⟨a + n - b - 1, by omega, ?_⟩
    rw [mod_of_lt_two_mul (by omega)]
    split <;> omega

theorem getD_eq_iff (hnd : ranks.Nodup) (ha : a < ranks.length) (hq : q ∈ ranks) :
    ranks.getD a 0 = q ↔ a = ranks.idxOf q := by
  grind

/-- To be `d` places behind is to have the other `d` places ahead. -/
theorem neighbour_iff {p : ℕ} (hnd : ranks.Nodup) (hp : p ∈ ranks) (hq : q ∈ ranks)
    (hd : d ≤ ranks.length) : ranks.getD ((ranks.idxOf p + d) % ranks.length) 0 = q ↔
      ranks.getD ((ranks.idxOf q + ranks.length - d) % ranks.length) 0 = p := by
  have hpos := length_pos_of_mem hp
  rw [getD_eq_iff hnd (Nat.mod_lt _ hpos) hq, getD_eq_iff hnd (Nat.mod_lt _ hpos) hp]
  exact add_mod_eq_iff (idxOf_lt_length_of_mem hp) (idxOf_lt_length_of_mem hq) hd

theorem getD_mem (ha : a < ranks.length) : ranks.getD a 0 ∈ ranks := by
  rw [getD_eq_getElem _ _ ha]
  exact getElem_mem ha

theorem Call.Valid.nodup {c : Call} (h : c.Valid) : c.ranks.Nodup := by
  cases c with
  | groupBarrier ranks | groupAllGather size ranks | groupAlltoall size ranks => exact h
  | groupAllGatherStrided size start stride count =>
    refine nodup_range.map fun i j hij => ?_
    exact Nat.eq_of_mul_eq_mul_right h (Nat.add_left_cancel hij)
  | allGather size nRanks => exact nodup_range

end Positions

def gatherSteps (id rank size : ℕ) (ranks : List ℕ) (offset : ℕ → ℤ) : List Op :=
  let n := ranks.length
  let pos := ranks.idxOf rank
  let left := ranks.getD ((pos + n - 1) % n) 0
  ringSteps id rank size n pos left (fun i => .peer rank (ranks.getD ((pos + 1 + n) % n) 0) i)
    (fun i => .peer left rank i) offset (n - 1)

theorem groupAllGather_eq (id rank size : ℕ) (ranks : List ℕ) : groupAllGather id rank size ranks =
      gatherSteps id rank size ranks fun slice => (slice * size : ℕ) := rfl

section Strided

variable {id rank size start stride count : ℕ}

theorem groupAllGatherStrided_eq (hstride : 0 < stride)
    (hmem : rank ∈ (Call.groupAllGatherStrided size start stride count).ranks) :
    groupAllGatherStrided id rank size start stride count =
      gatherSteps id rank size (Call.groupAllGatherStrided size start stride count).ranks
        fun slice => toInt (slice * size : ℕ) := by
  have hlen : (Call.groupAllGatherStrided size start stride count).ranks.length = count := by
    rw [Call.ranks, length_map, length_range]
  have hget : ∀ i < count,
      (Call.groupAllGatherStrided size start stride count).ranks.getD i 0 = start + i * stride := by
    intro i hi
    rw [getD_eq_getElem _ _ (hlen.symm ▸ hi)]
    simp only [Call.ranks, getElem_map, getElem_range]
  obtain ⟨pos, hpos, rfl⟩ := mem_map.mp hmem
  have hpos := mem_range.mp hpos
  have hidx : (Call.groupAllGatherStrided size start stride count).ranks.idxOf
      (start + pos * stride) = pos := by
    have hnd : (Call.groupAllGatherStrided size start stride count).ranks.Nodup :=
      Call.Valid.nodup (c := .groupAllGatherStrided size start stride count) hstride
    exact ((getD_eq_iff hnd (hlen.symm ▸ hpos) hmem).mp (hget pos hpos)).symm
  have hdiv : (start + pos * stride - start) / stride = pos := by
    rw [Nat.add_sub_cancel_left, Nat.mul_div_cancel _ hstride]
  have hcount : 0 < count := by omega
  simp only [groupAllGatherStrided, gatherSteps, hdiv, hidx, hlen, Nat.add_mod_right]
  rw [hget _ (Nat.mod_lt _ hcount), hget _ (Nat.mod_lt _ hcount)]

end Strided

variable {left steps : ℕ} {sl rl : ℕ → Link} {offset : ℕ → ℤ}

section Local

variable {rank id size : ℕ} {ranks : List ℕ}

def Local (rank : ℕ) (ranks : List ℕ) : Op → Prop
  | .send c _ _ => c.source = rank ∧ c.target ∈ ranks
  | .recv c l _ => c.target = rank ∧ c.source ∈ ranks ∧ l.source = c.source
  | .move _ _ => True

theorem ringSteps_local {n pos : ℕ}
    (hs : ∀ i, (sl i).source = rank ∧ (sl i).target ∈ ranks)
    (hr : ∀ i, (rl i).target = rank ∧ (rl i).source = left) (hleft : left ∈ ranks) :
    ∀ a ∈ ringSteps id rank size n pos left sl rl offset steps, Local rank ranks a := by
  grind [ringSteps, Local]

theorem gatherSteps_local (hmem : rank ∈ ranks) :
    ∀ a ∈ gatherSteps id rank size ranks offset, Local rank ranks a := by
  have hpos : 0 < ranks.length := length_pos_of_mem hmem
  exact ringSteps_local (fun i => ⟨rfl, getD_mem (Nat.mod_lt _ hpos)⟩) (fun i => ⟨rfl, rfl⟩)
    (getD_mem (Nat.mod_lt _ hpos))

theorem allGather_local {nRanks : ℕ} (hmem : rank ∈ range nRanks) :
    ∀ a ∈ allGather id rank size nRanks, Local rank (range nRanks) a := by
  have hpos : 0 < nRanks := Nat.zero_lt_of_lt (mem_range.mp hmem)
  have hmod : ∀ a, a % nRanks ∈ range nRanks := fun a =>
    mem_range.mpr (Nat.mod_lt a hpos)
  rw [allGather]
  exact ringSteps_local (fun i => ⟨rfl, hmod _⟩) (fun i => ⟨rfl, rfl⟩) (hmod _)

theorem groupBarrier_local : ∀ a ∈ groupBarrier id rank ranks, Local rank ranks a := by
  intro a ha
  rcases mem_append.mp ha with ha | ha
  · obtain ⟨r, hr, rfl⟩ := mem_map.mp ha
    exact ⟨rfl, (mem_filter.mp hr).1⟩
  · obtain ⟨r, hr, rfl⟩ := mem_map.mp ha
    exact ⟨rfl, (mem_filter.mp hr).1, rfl⟩

theorem groupAlltoall_local (hmem : rank ∈ ranks) :
    ∀ a ∈ groupAlltoall id rank size ranks, Local rank ranks a := by
  have hpos : 0 < ranks.length := length_pos_of_mem hmem
  intro a ha
  rcases mem_append.mp ha with ha | ha
  · obtain ⟨i, -, ha⟩ := mem_flatMap.mp ha
    rcases mem_pair.mp ha with rfl | rfl
    · exact ⟨rfl, getD_mem (Nat.mod_lt _ hpos)⟩
    · exact ⟨rfl, getD_mem (Nat.mod_lt _ hpos), rfl⟩
  · obtain ⟨s, -, rfl⟩ := mem_map.mp ha
    trivial

theorem Call.ops_local {c : Call} (hv : c.Valid) (hmem : rank ∈ c.ranks) :
    ∀ a ∈ c.ops id rank, Local rank c.ranks a := by
  cases c with
  | groupBarrier ranks => exact groupBarrier_local
  | groupAllGather size ranks =>
    rw [Call.ops, groupAllGather_eq]
    exact gatherSteps_local hmem
  | groupAllGatherStrided size start stride count =>
    rw [Call.ops, groupAllGatherStrided_eq hv hmem]
    exact gatherSteps_local hmem
  | groupAlltoall size ranks => exact groupAlltoall_local hmem
  | allGather size nRanks => exact allGather_local hmem

end Local
section Matching

variable {id size p q : ℕ} {ranks : List ℕ} {c : Link}

theorem filter_map_congr {ι : Type*} {is : List ι} {f g : ι → Link} {l l' : ι → Label}
    (hfg : ∀ i ∈ is, f i = c ↔ g i = c) (hl : ∀ i ∈ is, g i = c → l i = l' i) :
    (is.filter fun i => f i = c).map l = (is.filter fun i => g i = c).map l' := by
  rw [filter_congr fun i hi => decide_eq_decide.mpr (hfg i hi)]
  refine map_congr_left fun i hi => ?_
  obtain ⟨hi, hg⟩ := mem_filter.mp hi
  exact hl i hi (of_decide_eq_true hg)

theorem ringSteps_matched {n a b left' : ℕ} {sl' rl' : ℕ → Link}
    (hlink : ∀ i, sl i = c ↔ rl' i = c) (hleft : ∀ i, rl' i = c → left' = p) :
    sendsOn c (ringSteps id p size n a left sl rl offset steps) =
      recvsOn c (ringSteps id q size n b left' sl' rl' offset steps) := by
  rw [ringSteps, ringSteps, sendsOn_exchanges, recvsOn_exchanges]
  refine filter_map_congr (fun i _ => hlink i) fun i _ hi => ?_
  rw [hleft i hi]

theorem gatherSteps_matched (hnd : ranks.Nodup) (hp : p ∈ ranks) (hq : q ∈ ranks)
    (hsource : c.source = p) (htarget : c.target = q) :
    sendsOn c (gatherSteps id p size ranks offset) =
      recvsOn c (gatherSteps id q size ranks offset) := by
  have hiff := neighbour_iff (d := 1) hnd hp hq (length_pos_of_mem hp)
  refine ringSteps_matched (fun i => ?_) fun i hi => ?_
  · cases c with
    | peer p' q' t =>
      obtain rfl : p' = p := hsource
      obtain rfl : q' = q := htarget
      simp only [Link.peer.injEq, true_and, Nat.add_mod_right, hiff]
    | ring p' q' => exact ⟨nofun, nofun⟩
  · rw [← hsource, ← hi]
    rfl

theorem allGather_matched {nRanks : ℕ} (hp : p < nRanks) (hq : q < nRanks)
    (hsource : c.source = p) (htarget : c.target = q) :
    sendsOn c (allGather id p size nRanks) = recvsOn c (allGather id q size nRanks) := by
  have hiff := add_mod_eq_iff (d := 1) hp hq (by omega)
  rw [allGather, allGather]
  refine ringSteps_matched (fun i => ?_) fun i hi => ?_
  · grind [Link.source, Link.target]
  · rw [← hsource, ← hi]
    rfl

theorem sendsOn_eq_nil {as : List Op} (h : ∀ l x, Act.send c l x ∉ as) : sendsOn c as = [] := by
  refine eq_nil_iff_forall_not_mem.mpr fun l hl => ?_
  obtain ⟨x, hx⟩ := exists_send_of_sendsOn hl
  exact h l x hx

theorem recvsOn_eq_nil {as : List Op} (h : ∀ l x, Act.recv c l x ∉ as) : recvsOn c as = [] := by
  refine eq_nil_iff_forall_not_mem.mpr fun l hl => ?_
  obtain ⟨x, hx⟩ := exists_recv_of_recvsOn hl
  exact h l x hx

theorem groupAlltoall_matched (hnd : ranks.Nodup) (hp : p ∈ ranks) (hq : q ∈ ranks)
    (hsource : c.source = p) (htarget : c.target = q) :
    sendsOn c (groupAlltoall id p size ranks) = recvsOn c (groupAlltoall id q size ranks) := by
  rw [groupAlltoall, groupAlltoall, sendsOn_append, recvsOn_append, sendsOn_exchanges,
    recvsOn_exchanges, sendsOn_eq_nil (by simp), recvsOn_eq_nil (by simp), append_nil,
    append_nil]
  refine filter_map_congr (fun i hi => ?_) fun i _ hi => ?_
  · have hi := mem_range.mp hi
    have hiff := neighbour_iff (d := i + 1) hnd hp hq (by omega)
    cases c with
    | peer p' q' t =>
      obtain rfl : p' = p := hsource
      obtain rfl : q' = q := htarget
      simp only [Link.peer.injEq, true_and, hiff]
    | ring p' q' => exact ⟨nofun, nofun⟩
  · rw [← hsource, ← hi]
    rfl

theorem filter_eq_singleton {P : ℕ → Bool} (hnd : ranks.Nodup) (hq : q ∈ ranks)
    (h : ∀ r ∈ ranks, P r = true ↔ r = q) : ranks.filter P = [q] := by
  have hcongr : ranks.filter P = ranks.filter (· = q) :=
    filter_congr fun r hr => Bool.eq_iff_iff.mpr ((h r hr).trans decide_eq_true_iff.symm)
  rw [hcongr, filter_eq, count_eq_one_of_mem hnd hq]
  rfl

theorem groupBarrier_matched (hnd : ranks.Nodup) (hp : p ∈ ranks) (hq : q ∈ ranks)
    (hsource : c.source = p) (htarget : c.target = q) :
    sendsOn c (groupBarrier id p ranks) = recvsOn c (groupBarrier id q ranks) := by
  by_cases hc : c = .peer p q 0 ∧ p ≠ q
  · obtain ⟨rfl, hne⟩ := hc
    rw [groupBarrier, groupBarrier, sendsOn_append, recvsOn_append, sendsOn_map, recvsOn_map,
      sendsOn_eq_nil (by simp), recvsOn_eq_nil (by simp), append_nil, nil_append,
      filter_filter, filter_filter,
      filter_eq_singleton hnd hq fun r _ => ?_, filter_eq_singleton hnd hp fun r _ => ?_]
    all_goals grind
  grind [Link.source, Link.target, groupBarrier, sendsOn_eq_nil, recvsOn_eq_nil]

theorem Call.ops_matched {k : Call} (hv : k.Valid) (hp : p ∈ k.ranks) (hq : q ∈ k.ranks)
    (hsource : c.source = p) (htarget : c.target = q) :
    sendsOn c (k.ops id p) = recvsOn c (k.ops id q) := by
  cases k with
  | groupBarrier ranks => exact groupBarrier_matched hv hp hq hsource htarget
  | groupAllGather size ranks =>
    rw [Call.ops, Call.ops, groupAllGather_eq, groupAllGather_eq]
    exact gatherSteps_matched hv hp hq hsource htarget
  | groupAllGatherStrided size start stride count =>
    rw [Call.ops, Call.ops, groupAllGatherStrided_eq hv hp, groupAllGatherStrided_eq hv hq]
    exact gatherSteps_matched hv.nodup hp hq hsource htarget
  | groupAlltoall size ranks => exact groupAlltoall_matched hv hp hq hsource htarget
  | allGather size nRanks =>
    exact allGather_matched (mem_range.mp hp) (mem_range.mp hq) hsource htarget

end Matching

namespace Schedule

variable (S : Schedule)

theorem mem_program {r : ℕ} {a : Op} (h : a ∈ S.program r) :
    ∃ k ∈ S.order r, a ∈ (S.call k).ops k r ∧ Local r (S.call k).ranks a := by
  obtain ⟨k, hk, ha⟩ := mem_flatMap.mp h
  exact ⟨k, hk, ha, Call.ops_local (S.valid k) (S.member hk) a ha⟩

theorem flatMap_filter {f : ℕ → List Label} {P : ℕ → Prop} [DecidablePred P] {ks : List ℕ}
    (h : ∀ k ∈ ks, ¬ P k → f k = []) : ks.flatMap f = (ks.filter fun k => P k).flatMap f := by
  induction ks with
  | nil => rfl
  | cons k ks ih =>
    grind

theorem program_labels (c : Link) :
    sendsOn c (S.program c.source) = recvsOn c (S.program c.target) := by
  have hsend : ∀ k ∈ S.order c.source, c.target ∉ (S.call k).ranks →
      sendsOn c ((S.call k).ops k c.source) = [] := fun k hk hnot =>
    sendsOn_eq_nil fun l x hx => hnot (Call.ops_local (S.valid k) (S.member hk) _ hx).2
  have hrecv : ∀ k ∈ S.order c.target, c.source ∉ (S.call k).ranks →
      recvsOn c ((S.call k).ops k c.target) = [] := fun k hk hnot =>
    recvsOn_eq_nil fun l x hx => hnot (Call.ops_local (S.valid k) (S.member hk) _ hx).2.1
  rw [program, program, sendsOn_flatMap, recvsOn_flatMap, flatMap_filter hsend,
    flatMap_filter hrecv, S.agree]
  refine flatMap_congr fun k hk => ?_
  obtain ⟨hk, hmem⟩ := mem_filter.mp hk
  exact Call.ops_matched (S.valid k) (of_decide_eq_true hmem) (S.member hk) rfl rfl

theorem matched : Matched Link.source Link.target S.program where
  sends h := by
    obtain ⟨k, -, -, hlocal⟩ := S.mem_program h
    exact hlocal.1
  recvs h := by
    obtain ⟨k, -, -, hlocal⟩ := S.mem_program h
    exact hlocal.1
  labels := S.program_labels

section

variable {ranks : List ℕ} {call : ℕ → Call} (ks : List ℕ) (h : ∀ k, (call k).ranks = ranks)
  (p q : ℕ)
include ks h p q

theorem filter_together :
    (if p ∈ ranks then ks else []).filter (fun k => q ∈ (call k).ranks) =
      if p ∈ ranks ∧ q ∈ ranks then ks else [] := by
  simp only [h]
  by_cases hp : p ∈ ranks
  · rw [if_pos hp]
    by_cases hq : q ∈ ranks
    · rw [if_pos ⟨hp, hq⟩, filter_eq_self]
      exact fun k _ => decide_eq_true hq
    · rw [if_neg fun hc => hq hc.2, filter_eq_nil_iff]
      exact fun k _ hc => hq (of_decide_eq_true hc)
  · rw [if_neg hp, if_neg fun hc => hp hc.1]
    rfl

theorem agree_together :
    (if p ∈ ranks then ks else []).filter (fun k => q ∈ (call k).ranks) =
      (if q ∈ ranks then ks else []).filter fun k => p ∈ (call k).ranks := by
  rw [filter_together ks h, filter_together ks h]
  simp only [and_comm]

end

end Schedule

section Labels

variable {id rank size : ℕ} {ranks : List ℕ}

def Sized (id : ℕ) : Op → Prop
  | .send _ l x | .recv _ l x => l.call = id ∧ x.call = id ∧ x.size = l.size
  | .move x _ => x.call = id

theorem ringSteps_sized {n pos : ℕ} :
    ∀ a ∈ ringSteps id rank size n pos left sl rl offset steps, Sized id a := by
  intro a ha
  obtain ⟨i, -, ha⟩ := mem_flatMap.mp ha
  rcases mem_pair.mp ha with rfl | rfl <;> exact ⟨rfl, rfl, rfl⟩

theorem Call.ops_sized (c : Call) : ∀ a ∈ c.ops id rank, Sized id a := by
  cases c with
  | groupBarrier ranks =>
    intro a ha
    rcases mem_append.mp ha with ha | ha
    all_goals
      obtain ⟨r, -, rfl⟩ := mem_map.mp ha
      exact ⟨rfl, rfl, rfl⟩
  | groupAllGather size ranks =>
    rw [Call.ops, BootstrapCalls.groupAllGather]
    exact ringSteps_sized
  | groupAllGatherStrided size start stride count =>
    rw [Call.ops, BootstrapCalls.groupAllGatherStrided]
    exact ringSteps_sized
  | groupAlltoall size ranks =>
    intro a ha
    rcases mem_append.mp ha with ha | ha
    · obtain ⟨i, -, ha⟩ := mem_flatMap.mp ha
      rcases mem_pair.mp ha with rfl | rfl <;> exact ⟨rfl, rfl, rfl⟩
    · obtain ⟨s, -, rfl⟩ := mem_map.mp ha
      rfl
  | allGather size nRanks =>
    rw [Call.ops, BootstrapCalls.allGather]
    exact ringSteps_sized

theorem Schedule.sized (S : Schedule) {r : ℕ} {a : Op} (h : a ∈ S.program r) :
    ∃ k ∈ S.order r, Sized k a := by
  obtain ⟨k, hk, ha, -⟩ := S.mem_program h
  exact ⟨k, hk, Call.ops_sized _ a ha⟩

variable {W : Type*} [LT W] {level : Label → W}

theorem pairwise_exchanges {f g : ℕ → Link} {l l' : ℕ → Label} {x y : ℕ → Span}
    (h : ∀ {i j}, i < j → level (l' i) < level (l j)) (steps : ℕ) :
    ((range steps).flatMap fun i =>
      [(.send (f i) (l i) (x i) : Op), .recv (g i) (l' i) (y i)]).Pairwise (Below level) := by
  refine pairwise_flatMap.mpr ⟨fun i _ => ?_, ?_⟩
  · exact pairwise_pair.mpr trivial
  · refine pairwise_lt_range.imp fun {i j} hij a ha b hb => ?_
    rcases mem_pair.mp ha with rfl | rfl
    · trivial
    · rcases mem_pair.mp hb with rfl | rfl
      · exact h hij
      · trivial

theorem Call.ops_pairwise (c : Call)
    (h : ∀ {i j a b m m'}, i < j → level ⟨id, i, a, m⟩ < level ⟨id, j, b, m'⟩) :
    (c.ops id rank).Pairwise (Below level) := by
  cases c with
  | groupBarrier ranks =>
    refine pairwise_append.mpr ⟨?_, ?_, fun a ha b _ => ?_⟩
    · exact pairwise_map.mpr (pairwise_of_forall fun _ _ => trivial)
    · exact pairwise_map.mpr (pairwise_of_forall fun _ _ => trivial)
    · obtain ⟨r, -, rfl⟩ := mem_map.mp ha
      trivial
  | groupAllGather | groupAllGatherStrided | allGather =>
    exact pairwise_exchanges (fun hij => h hij) _
  | groupAlltoall size ranks =>
    refine pairwise_append.mpr
      ⟨pairwise_exchanges (fun hij => h (Nat.succ_lt_succ hij)) _, ?_, fun a _ b hb => ?_⟩
    · exact pairwise_map.mpr (pairwise_of_forall fun _ _ => trivial)
    · obtain ⟨r, -, rfl⟩ := mem_map.mp hb
      cases a <;> trivial

theorem Schedule.pairwise (S : Schedule) {number : ℕ → ℕ} (r : ℕ)
    (h : (S.order r).Pairwise fun k k' => number k < number k') :
    (S.program r).Pairwise (Below fun l => toLex (number l.call, l.step)) := by
  refine pairwise_flatMap.mpr ⟨fun k _ => Call.ops_pairwise _ fun hij => ?_, ?_⟩
  · exact Prod.Lex.toLex_lt_toLex.mpr (.inr ⟨rfl, hij⟩)
  · refine h.imp fun {k k'} hlt a ha b hb => ?_
    have hsa := Call.ops_sized _ a ha
    have hsb := Call.ops_sized _ b hb
    cases a with
    | recv c l x =>
      cases b with
      | send c' l' y =>
        exact Prod.Lex.toLex_lt_toLex.mpr (.inl (by rw [hsa.1, hsb.1]; exact hlt))
      | recv | move => trivial
    | send | move => trivial

end Labels

end BootstrapCalls
