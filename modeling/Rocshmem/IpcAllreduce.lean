import Rocshmem.CentralAtomicBarrier
import Rocshmem.IpcReduceScatter
import Rocshmem.LinkedSystems

/-! The allreduce of the IPC `reduce_das` by `reduce_scatter_wg_das` and an allgather. A member
reduces its block, puts the result into the buffers of its peers and meets them in
`internal_sync_wg` on `alltoall_pSync`. In place the results go into blocks of the source. -/
namespace IpcAllreduce

open MatchedPrograms LinkedSystems MachineInts IpcReduceScatter
open CentralDirectBarrier (Team)
open IpcReduceScatter.Event

def useDirect (peSize nreduce : ℕ) : Bool :=
  toSizeT (toInt (peSize * nreduce)) ≤ 1048576 && peSize ≤ 256 && nreduce ≤ 8192

def useReduceScatterAllgather (peSize nreduce : ℕ) : Bool :=
  !useDirect peSize nreduce && nreduce % peSize == 0 && 1024 ≤ nreduce / peSize

structure Allreduce where
  team : Team
  nreduce : ℕ
  sizeofT : ℕ
  vecWidth : ℕ
  op : ℤ → ℤ → ℤ
  inPlace : Bool
  nreduce_lt : nreduce < 2 ^ 31
  taken : useReduceScatterAllgather team.nPes nreduce = true

namespace Allreduce

def blockCount (a : Allreduce) : ℕ := a.nreduce / a.team.nPes

theorem team_mul_block (a : Allreduce) : a.team.nPes * a.blockCount = a.nreduce := by
  have htaken := a.taken
  simp only [useReduceScatterAllgather, Bool.and_eq_true, beq_iff_eq] at htaken
  exact Nat.mul_div_cancel' (Nat.dvd_of_mod_eq_zero htaken.1.2)

theorem block_pos (a : Allreduce) : 0 < a.blockCount := by
  have htaken := a.taken
  simp only [useReduceScatterAllgather, Bool.and_eq_true, decide_eq_true_eq] at htaken
  exact Nat.lt_of_lt_of_le (by decide) htaken.2

def setup (a : Allreduce) : Setup where
  peSize := a.team.nPes
  sizeofT := a.sizeofT
  vecWidth := a.vecWidth
  calls := [⟨a.blockCount, 0, -1, a.op⟩]
  allgather := true
  inPlace := a.inPlace
  pes_pos := a.team.pes_pos
  allgather_whole := by
    refine fun _ => ⟨rfl, fun b hb => ?_⟩
    obtain rfl := List.mem_singleton.mp hb
    exact ⟨rfl, Int.negSucc_lt_zero 0, a.team_mul_block ▸ a.nreduce_lt⟩

def result (a : Allreduce) (init : Cell → ℤ) (y : ℕ) : ℤ :=
  (a.setup.others (y / a.blockCount)).foldl (fun acc r => a.op acc (init (.source 0 r y)))
    (init (.source 0 (y / a.blockCount) y))

def LoopInInt (a : Allreduce) : Prop :=
  a.team.nPes = 1 → a.nreduce + a.setup.chunkSize ≤ 2 ^ 31

variable {a : Allreduce} {init : Cell → ℤ} {q x : ℕ}

theorem chunkSize_le (c : Setup) : c.chunkSize ≤ 2 ^ 23 := by
  have hle : c.scratchElems / c.scratchSlots ≤ 1048576 * 8 :=
    (Nat.div_le_self _ _).trans (Nat.div_le_self _ _)
  exact Nat.max_le.mpr ⟨by decide, hle⟩

theorem loop_block (hloop : a.LoopInInt) : a.blockCount + a.setup.chunkSize ≤ 2 ^ 31 := by
  have hmul := a.team_mul_block
  have hpos := a.team.pes_pos
  have hlt := a.nreduce_lt
  have hchunk := chunkSize_le a.setup
  rcases Nat.eq_or_lt_of_le hpos with hone | hmore
  · have hle := hloop hone.symm
    rw [← hone, Nat.succ_eq_add_one, Nat.zero_add, Nat.one_mul] at hmul
    omega
  · have hle : 2 * a.blockCount ≤ a.team.nPes * a.blockCount := Nat.mul_le_mul_right _ hmore
    omega

theorem inInt (hloop : a.LoopInInt) : ∀ b ∈ a.setup.calls, a.setup.InInt b := by
  intro b hb
  obtain rfl := List.mem_singleton.mp hb
  have hmul := a.team_mul_block
  have hpos := a.team.pes_pos
  have hlt := a.nreduce_lt
  have hsplit : (a.team.nPes - 1) * a.blockCount + a.blockCount = a.team.nPes * a.blockCount := by
    rw [← Nat.succ_mul, Nat.succ_eq_add_one, Nat.sub_add_cancel hpos]
  have hblock := loop_block hloop
  constructor
  · show 0 + a.blockCount + a.setup.chunkSize ≤ 2 ^ 31
    omega
  · show (a.team.nPes - 1) * a.blockCount + 0 + a.blockCount ≤ 2 ^ 31
    omega

theorem computed_eq_result (hloop : a.LoopInInt) (init : Cell → ℤ) (hq : q < a.team.nPes)
    (hx : x < a.blockCount) :
    a.setup.computed init 0 q x = a.result init (q * a.blockCount + x) := by
  have hin : a.setup.InRange 0 x := Setup.inRange_gather (fun b hb => (inInt hloop b hb).1) rfl hx
  have howner : (q * a.blockCount + x) / a.blockCount = q := block_div hx
  have hindex : a.setup.index 0 q x = ((q * a.blockCount + x : ℕ) : ℤ) := by
    show (q : ℤ) * (a.blockCount : ℤ) + ((0 + x : ℕ) : ℤ) = _
    push_cast
    omega
  rw [Setup.computed_eq (inInt hloop) hq hin, Setup.reduced, hindex, result, howner]
  rfl

end Allreduce

structure SyncWg {F D : Type*} [DecidableEq D] (T : System F D ℤ) (L : Certificate F ℤ)
    (enter leave : ℕ → F) (n : ℕ) : Prop where
  part : Part T L fun _ => 0
  acyclic : WellFounded (Depends T L)
  finite : {e | T.event e}.Finite
  leaves : ∀ i < n, T.event (leave i)
  separated : ∀ i < n, ∀ j < n, Before T L (enter j) (leave i)

section Barriers

variable (t : Team)

def directSync : System CentralDirectBarrier.Event CentralDirectBarrier.Cell ℤ :=
  only (CentralDirectBarrier.sys .ipc t) fun e => CentralDirectBarrier.round e < 1

theorem direct_sync : SyncWg (directSync t) (CentralDirectBarrier.certificate t) (.enter · 0)
    (.leave · 0) t.nPes where
  part := (Part.of_sound CentralDirectBarrier.sound CentralDirectBarrier.live).only fun h =>
    (CentralDirectBarrier.round_le h).trans_lt
  acyclic := CentralDirectBarrier.acyclic (k := .ipc)
  finite := CentralDirectBarrier.finite_first_round
  leaves _ hi := ⟨hi, Nat.one_pos⟩
  separated _ hi _ hj := CentralDirectBarrier.enter_before_leave (k := .ipc) hi hj

def atomicSync : System CentralAtomicBarrier.Event CentralDirectBarrier.Cell ℤ :=
  only (CentralAtomicBarrier.sys .ipc t) fun e => CentralAtomicBarrier.round e < 1

theorem atomic_part : Part (CentralAtomicBarrier.sys .ipc t)
    (CentralAtomicBarrier.certificate .ipc t) fun _ => 0 where
  closed h := (run_consistent CentralAtomicBarrier.sound (CentralAtomicBarrier.ipc_run h)).closed
  pre_event h _ := h.1
  waits_event h _ := CentralAtomicBarrier.live.waits_event _ _ h
  guarded h he hX hr hw := (CentralAtomicBarrier.live.guarded _ _ _
    (run_consistent CentralAtomicBarrier.sound (CentralAtomicBarrier.ipc_run h)) he hX hr hw).1

theorem atomic_sync : SyncWg (atomicSync t) (CentralAtomicBarrier.certificate .ipc t) (.enter · 0)
    (.leave · 0) t.nPes where
  part := (atomic_part t).only fun h => (CentralAtomicBarrier.round_le h).trans_lt
  acyclic := CentralAtomicBarrier.acyclic (k := .ipc)
  finite := CentralAtomicBarrier.finite_rounds (fun _ h => h.1) fun _ h => h.2
  leaves _ hi := ⟨hi, Nat.one_pos⟩
  separated _ hi _ hj := CentralAtomicBarrier.enter_before_leave (k := .ipc) hi hj

end Barriers

namespace Allreduce

section Linked

variable {F D : Type*}

def sys (a : Allreduce) (T : System F D ℤ) (enter leave : ℕ → F) :
    System (Event ⊕ F) (Cell ⊕ D) ℤ :=
  link a.setup.sys T (fun e b => ∃ p < a.team.nPes, e = arrive p ∧ b = enter p)
    fun b e => ∃ p < a.team.nPes, b = leave p ∧ e = depart p

def start (init : Cell → ℤ) : Cell ⊕ D → ℤ := Sum.elim init fun _ => 0

structure Correct (a : Allreduce) (T : System F D ℤ) (enter leave : ℕ → F) (init : Cell → ℤ)
    (X : Set (Event ⊕ F)) (m : Cell ⊕ D → ℤ) : Prop where
  /-- A member that returns has the reduction of all elements. -/
  result : ∀ p, .inl (depart p) ∈ X → ∀ y < a.nreduce,
    m (.inl (a.setup.buffer p y)) = a.result init y
  /-- A member has sent a block before the peer whose block it is puts the result there. -/
  sent : ∀ p q x, .inl (gather q p x) ∈ X → ∀ y < a.blockCount, .inl (payload p q 0 y) ∈ X
  /-- No member waits for ever. -/
  progress : (∀ e, (a.sys T enter leave).event e → e ∈ X) ∨ ∃ e, (a.sys T enter leave).event e ∧
    e ∉ X ∧ (a.sys T enter leave).Ready X e ∧ (a.sys T enter leave).guard e m

variable [DecidableEq D] {a : Allreduce} {T : System F D ℤ} {L : Certificate F ℤ}
  {enter leave : ℕ → F} (hT : SyncWg T L enter leave a.team.nPes) (hloop : a.LoopInInt)
  {init : Cell → ℤ} (hinit : ∀ p w, init (.word p w) = 0) {X : Set (Event ⊕ F)} {m : Cell ⊕ D → ℤ}

include hT hloop hinit

theorem part : Part (a.sys T enter leave) (both (a.setup.certificate init) L) (start init) := by
  have hsound := Setup.sound (fun b hb => (inInt hloop b hb).1) hinit anyStep
  refine Part.link (Part.of_sound hsound (Setup.live a.setup init)) hT.part ?_ ?_
  · intro e b h
    obtain ⟨p, hp, rfl, -⟩ := h
    exact ⟨rfl, hp⟩
  · intro b e h
    obtain ⟨p, hp, rfl, -⟩ := h
    exact hT.leaves p hp

omit hloop hinit in
theorem acyclic (init : Cell → ℤ) :
    WellFounded (Depends (a.sys T enter leave) (both (a.setup.certificate init) L)) := by
  -- the barrier stands between the points of `arrive` and of `depart`
  refine acyclic_link (Setup.acyclic a.setup init) hT.acyclic
    (P := fun e => a.setup.program.point (depart 0) ≤ a.setup.program.point e) ?_ ?_ ?_
  · intro e e' h hlate
    exact hlate.trans ((a.setup.program.depends_forward fun _ _ => Setup.waits_forward) h).le
  · intro e b h
    obtain ⟨p, -, rfl, -⟩ := h
    exact not_le.mpr (point_lt_of_third (by decide))
  · intro b e h
    obtain ⟨p, -, -, rfl⟩ := h
    exact le_refl _

omit hloop hinit in
theorem arrive_depart (hp : p < a.team.nPes) (hq : q < a.team.nPes) :
    Before (a.sys T enter leave) (both (a.setup.certificate init) L) (.inl (arrive q))
      (.inl (depart p)) :=
  before_through ⟨q, hq, rfl, rfl⟩ (hT.separated p hp q hq) ⟨p, hp, rfl, rfl⟩

theorem correct (hrun : (a.sys T enter leave).Run anyStep (start init) X m) :
    a.Correct T enter leave init X m := by
  have hcalls : ∀ b ∈ a.setup.calls, a.setup.LoopInInt b := fun b hb => (inInt hloop b hb).1
  have hpart := part hT hloop hinit
  have hclosed := hpart.closed hrun
  have hc : Consistent a.setup.sys (a.setup.certificate init) init {e | .inl e ∈ X} (m ∘ .inl) :=
    run_consistent (Setup.sound hcalls hinit anyStep) (embeds_left.run hrun)
  constructor
  · intro p hdepart y hy
    have hp : p < a.team.nPes := (hc.events _ hdepart).2
    have hq : y / a.blockCount < a.team.nPes := by
      apply Nat.div_lt_of_lt_mul
      rwa [Nat.mul_comm, a.team_mul_block]
    have hx : y % a.blockCount < a.blockCount := Nat.mod_lt y a.block_pos
    have hy' := Nat.div_add_mod' y a.blockCount
    have hindex :
        (y : ℤ) = (y / a.blockCount : ℕ) * (a.blockCount : ℤ) + (y % a.blockCount : ℕ) := by
      exact_mod_cast hy'.symm
    have hresult := computed_eq_result hloop init hq hx
    rw [hy'] at hresult
    rw [← hresult, hindex]
    by_cases hqp : y / a.blockCount = p
    · -- the block of the member itself
      have hin := Setup.inRange_gather (c := a.setup) hcalls rfl hx
      have hreduce : reduce p 0 (y % a.blockCount) ∈ {e | .inl e ∈ X} :=
        Setup.reduce_depart hp hin _ hc.closed hdepart
      rw [hqp]
      exact Setup.block_read hcalls hc rfl hp hx hreduce
    · have harrive := arrive_depart hT hp hq X hclosed hdepart
      have hgather : gather (y / a.blockCount) p (y % a.blockCount) ∈ {e | .inl e ∈ X} :=
        (hc.closed _ harrive).1 _ ⟨⟨rfl, ⟨hq, hp, fun h => hqp h.symm⟩, hx⟩, rfl,
          point_lt_of_third (by decide), trivial⟩
      exact Setup.gathered_read hcalls hc hgather
  · intro p q x hgather y hy
    have hpeer := (hc.events _ hgather).2.1
    have hin := Setup.inRange_gather (c := a.setup) hcalls rfl hy
    exact Setup.payload_gather hpeer hin _ hc.closed hgather
  · by_cases hall : ∀ e, (a.sys T enter leave).event e → e ∈ X
    · exact .inl hall
    · push Not at hall
      obtain ⟨e, he, hX⟩ := hall
      exact .inr (hpart.progress (acyclic hT init) hrun he hX)

theorem run_complete : ∃ m, (a.sys T enter leave).Run anyStep (start init)
    {e | (a.sys T enter leave).event e} m := by
  apply (part hT hloop hinit).run_complete (acyclic hT init)
  have hcalls : ∀ b ∈ a.setup.calls, a.setup.LoopInInt b := fun b hb => (inInt hloop b hb).1
  apply (((Setup.finite_events hcalls).image Sum.inl).union (hT.finite.image Sum.inr)).subset
  intro e he
  cases e with
  | inl e => exact .inl ⟨e, he, rfl⟩
  | inr e => exact .inr ⟨e, he, rfl⟩

end Linked

end Allreduce

def twoInPlace : Allreduce where
  team := ⟨0, 1, 2, Nat.one_pos, Nat.two_pos⟩
  nreduce := 16384
  sizeofT := 8
  vecWidth := 2
  op := (· + ·)
  inPlace := true
  nreduce_lt := by decide
  taken := by decide

def numbered : Cell → ℤ
  | .source 0 p y => 10 * p + y
  | _ => 0

def oneMember : Allreduce where
  team := ⟨0, 1, 1, Nat.one_pos, Nat.one_pos⟩
  nreduce := 2 ^ 31 - 1
  sizeofT := 4
  vecWidth := 4
  op := (· + ·)
  inPlace := true
  nreduce_lt := by decide
  taken := by decide

theorem one_member_chunk (g : ℕ) : oneMember.setup.InChunk 0 g := by
  refine ⟨by decide, fun j _ => ?_⟩
  have hsize : oneMember.setup.chunkSize = 2097152 := by decide
  have hend : oneMember.setup.rangeEnd 0 = 2 ^ 31 - 1 := by decide
  rw [hend, Setup.chunkOffset, hsize]
  show toInt ((0 + j * 2097152 : ℕ) : ℤ) < 2 ^ 31 - 1
  rw [toInt, Int.bmod_def]
  split <;> omega

theorem one_member_again (j : ℕ) : oneMember.setup.InRange 0 (j * 2 ^ 32) := by
  refine ⟨one_member_chunk _, ?_⟩
  have hsize : oneMember.setup.chunkSize = 2097152 := by decide
  have hend : oneMember.setup.rangeEnd 0 = 2 ^ 31 - 1 := by decide
  have hoffset : oneMember.setup.chunkOffset 0 (j * 2048) = 0 := by
    rw [Setup.chunkOffset, hsize]
    show toInt ((0 + j * 2048 * 2097152 : ℕ) : ℤ) = 0
    rw [toInt, Int.bmod_def]
    split <;> omega
  rw [hsize, show j * 2 ^ 32 / 2097152 = j * 2048 by omega, Setup.chunkCount, hoffset, hend, hsize,
    show j * 2 ^ 32 % 2097152 = 0 by omega]
  decide

end IpcAllreduce
