import Rocshmem.AlltoallvAgreement
import Rocshmem.MachineInts
import Rocshmem.SessionWords
import Rocshmem.ThreadPutPartition

/-! The IPC collectives on one `alltoall_pSync` array, call after call. Small alltoalls use a flag
of every peer in the bank of `alltoall_sequence_number`. The linear alltoall, the general
`alltoallv_das`, `fcollect_linear_das` and the allgather of `reduce_das` put their blocks and run
`internal_sync_wg` on the words of the first bank. -/
namespace IpcAlltoallSync

open MatchedPrograms SessionWords
open AlltoallRounds (Handles stepSize wfSize)
open AlltoallvAgreement (uniform)
open GdaAlltoallSync (Layout)
open IpcAlltoallv (narrow toSizeT normalCount splitWgRange)
open ThreadPutPartition (turns)

inductive Call where
  | alltoall (sizeofT : ℕ) (nelems elemCount : ℤ)
  | alltoallv (sizeofT wgId wgCount : ℕ) (layout : ℕ → Layout)
  | fcollect
  | allgather

structure Setup where
  peSize : ℕ
  blockSize : ℕ
  sdmaEnabled : Bool
  calls : List Call
  data : ℕ → ℕ → ℕ → ℤ
  pes_pos : 0 < peSize
  block_pos : 0 < blockSize

/-- The statements of member `p` in call `k`; `q` is a peer. In a call with flags the thread `t`
makes `put` and `add` for the peer, `wait` for the flag of the peer, and `reset`. In the other
calls `block` is the put of a block and the rest is the barrier: `arrive`, and `released` and
`clear` after it; at the first member `collect` and `drop` for each arrival, or `gather` and
`wipe` for the counter, then `fence` and `release`. -/
inductive Event where
  | enter (p k : ℕ)
  | put (t p q k : ℕ)
  | add (t p q k : ℕ)
  | wait (t p q k : ℕ)
  | reset (t p q k : ℕ)
  | block (p q k : ℕ)
  | arrive (p k : ℕ)
  | collect (p k : ℕ)
  | drop (p k : ℕ)
  | gather (k : ℕ)
  | wipe (k : ℕ)
  | fence (k : ℕ)
  | release (p k : ℕ)
  | released (p k : ℕ)
  | clear (p k : ℕ)
  | leave (p k : ℕ)
  deriving DecidableEq

open Event

inductive Cell where
  | word (q w : ℕ)
  | dst (k q p : ℕ)
  deriving DecidableEq

def lane : Event → Option ℕ
  | put t _ _ _ | add t _ _ _ | wait t _ _ _ | reset t _ _ _ => some t
  | _ => none

def Sequenced (a e : Event) : Prop := lane a = none ∨ lane e = none ∨ lane a = lane e

namespace Setup

variable (c : Setup)

def call (k : ℕ) : Call := c.calls.getD k .fcollect

def small (sizeofT : ℕ) (elemCount : ℤ) : Bool :=
  sizeofT * toSizeT elemCount % 2 ^ 64 < 512 || c.sdmaEnabled

def threadPuts (k p : ℕ) : Bool :=
  match c.call k with
  | .alltoall sizeofT nelems elemCount => c.small sizeofT (normalCount nelems elemCount)
  | .alltoallv sizeofT wgId wgCount layout =>
    let count := (layout p).sourceNelems 0
    uniform c.peSize (layout p) &&
      c.small sizeofT (normalCount (narrow count) (narrow (splitWgRange count wgId wgCount).2))
  | .fcollect | .allgather => false

def sends (k p q : ℕ) : Bool :=
  match c.call k with
  | .alltoallv _ wgId wgCount layout =>
    uniform c.peSize (layout p) ||
      (splitWgRange ((layout p).sourceNelems q) wgId wgCount).2 != 0
  | .allgather => p != q
  | .alltoall _ _ _ | .fcollect => true

def sequenceNumber (p : ℕ) : ℕ → ℕ
  | 0 => 0
  | k + 1 => sequenceNumber p k + if c.threadPuts k p then 1 else 0

def bank (p k : ℕ) : ℕ := c.sequenceNumber p k % 2

def flagWord (p k r : ℕ) : ℕ := c.bank p k * c.peSize + r

def direct : Bool := c.peSize < 64

def Member (p : ℕ) : Prop := 0 < p ∧ p < c.peSize

def Flags (p k : ℕ) : Prop := p < c.peSize ∧ k < c.calls.length ∧ c.threadPuts k p = true

def Syncs (p k : ℕ) : Prop := p < c.peSize ∧ k < c.calls.length ∧ c.threadPuts k p = false

def Turn (t q : ℕ) : Prop := t < c.blockSize ∧ q ∈ turns c.blockSize c.peSize t

def Occurs : Event → Prop
  | enter p k | leave p k => p < c.peSize ∧ k < c.calls.length
  | put t p q k | add t p q k | wait t p q k | reset t p q k => c.Flags p k ∧ c.Turn t q
  | block p q k => c.Syncs p k ∧ q < c.peSize ∧ c.sends k p q = true
  | arrive p k | released p k | clear p k => 0 < p ∧ c.Syncs p k
  | collect p k | drop p k => c.direct = true ∧ c.Member p ∧ c.Syncs 0 k
  | gather k | wipe k => c.direct = false ∧ c.Syncs 0 k
  | fence k => c.Syncs 0 k
  | release p k => c.Member p ∧ c.Syncs 0 k

def pe : Event → ℕ
  | enter p _ | leave p _ | put _ p _ _ | add _ p _ _ | wait _ p _ _ | reset _ p _ _ | block p _ _
  | arrive p _ | released p _ | clear p _ => p
  | collect _ _ | drop _ _ | gather _ | wipe _ | fence _ | release _ _ => 0

def point : Event → ℕ ×ₗ ℕ ×ₗ ℕ
  | enter _ k => toLex (k, toLex (0, 0))
  | put _ _ q k => toLex (k, toLex (1, q))
  | add _ _ q k => toLex (k, toLex (2, q))
  | wait _ _ q k => toLex (k, toLex (3, 2 * q))
  | reset _ _ q k => toLex (k, toLex (3, 2 * q + 1))
  | block _ _ k => toLex (k, toLex (1, 0))
  | arrive _ k => toLex (k, toLex (2, 0))
  | collect p k => toLex (k, toLex (4, 2 * p))
  | drop p k => toLex (k, toLex (4, 2 * p + 1))
  | gather k => toLex (k, toLex (4, 0))
  | wipe k => toLex (k, toLex (4, 1))
  | fence k => toLex (k, toLex (5, 0))
  | release _ k => toLex (k, toLex (6, 0))
  | released _ k => toLex (k, toLex (7, 0))
  | clear _ k => toLex (k, toLex (8, 0))
  | leave _ k => toLex (k, toLex (9, 0))

def mode : Event → Mode ℕ
  | put _ _ q _ | block _ q _ => .posted q
  | add _ _ q _ => .ordered q
  | arrive _ _ => .posted 0
  | fence _ => .drain
  | release p _ => .posted p
  | _ => .blocking

def guard : Event → (Cell → ℤ) → Prop
  | wait _ p q k, m => m (.word p (c.flagWord p k q)) = 1
  | collect p _, m => m (.word 0 p) = 1
  | gather _, m => m (.word 0 0) = c.peSize - 1
  | released p _, m => m (.word p 0) = 1
  | _, _ => True

def action : Event → Effect Cell ℤ
  | put _ p q k | block p q k => .store (.dst k q p) fun _ => c.data k p q
  | add _ p q k => .add (.word q (c.flagWord p k p)) 1
  | reset _ p q k => .store (.word p (c.flagWord p k q)) fun _ => 0
  | arrive p _ => if c.direct then .store (.word 0 p) fun _ => 1 else .add (.word 0 0) 1
  | drop p _ => .store (.word 0 p) fun _ => 0
  | wipe _ => .store (.word 0 0) fun _ => 0
  | release p _ => .store (.word p 0) fun _ => 1
  | clear p _ => .store (.word p 0) fun _ => 0
  | enter _ _ | leave _ _ | wait _ _ _ _ | collect _ _ | gather _ | fence _ | released _ _ => .skip

def program : Program Event ℕ (ℕ ×ₗ ℕ ×ₗ ℕ) ℕ Cell ℤ where
  event := c.Occurs
  pe := pe
  point := point
  mode := mode
  guard := c.guard
  action := c.action

def sys : System Event Cell ℤ :=
  { c.program.system with pre := fun a e => c.program.system.pre a e ∧ Sequenced a e }

def Meant : Event → Event → Prop
  | wait t p q k, a => ∃ t', c.Occurs (wait t p q k) ∧ c.Occurs (add t' q p k) ∧ a = add t' q p k
  | collect p k, a => c.Occurs (collect p k) ∧ c.Occurs (arrive p k) ∧ a = arrive p k
  | gather k, a => ∃ p, c.Occurs (gather k) ∧ c.Occurs (arrive p k) ∧ a = arrive p k
  | released p k, a => c.Occurs (released p k) ∧ c.Occurs (release p k) ∧ a = release p k
  | _, _ => False

def Owed : Event → Event → Prop
  | arrive p k, a => c.Occurs (arrive p k) ∧
      ((∃ q, c.Occurs (block p q k) ∧ a = block p q k) ∨
        ∃ k', k = k' + 1 ∧ c.Flags 0 k' ∧ c.bank 0 k' = 0 ∧ a = leave 0 k')
  | add t p q k, a => c.Occurs (add t p q k) ∧ p = 0 ∧ c.bank 0 k = 0 ∧
      ∃ k', k = k' + 1 ∧ c.Syncs q k' ∧ a = leave q k'
  | _, _ => False

def Settled (X : Set Event) (_ : Cell → ℤ) (e : Event) : Prop := ∀ a, c.Owed e a → a ∈ X

def value : Event → ℤ
  | put _ p q k | block p q k => c.data k p q
  | arrive _ _ | release _ _ => 1
  | _ => 0

def certificate : Certificate Event ℤ := ⟨fun e a => c.Meant e a ∨ c.Owed e a, c.value⟩

def Zeroed (init : Cell → ℤ) : Prop := ∀ q w, init (.word q w) = 0

structure Orderly : Prop where
  agreed : ∀ k < c.calls.length, ∀ p < c.peSize, c.threadPuts k p = c.threadPuts k 0
  single : ∀ k < c.calls.length, c.threadPuts k 0 = true → c.blockSize ≤ wfSize ∨ c.peSize ≤ wfSize

abbrev Prior (a e : Event) : Prop := Before c.sys c.certificate a e

variable {c} {i p q r k k' t t' w o : ℕ} {a e : Event}

section Order

theorem waits_forward (h : c.certificate.waitsFor e a) : point a < point e := by
  rcases h with hm | ho
  · cases e with
    | wait t p q k =>
      obtain ⟨t', -, -, rfl⟩ := hm
      exact point_lt_of_snd (by decide)
    | collect p k | released p k =>
      obtain ⟨-, -, rfl⟩ := hm
      exact point_lt_of_snd (by decide)
    | gather k =>
      obtain ⟨p, -, -, rfl⟩ := hm
      exact point_lt_of_snd (by decide)
    | _ => exact hm.elim
  · cases e with
    | arrive p k =>
      grind [Owed, point, point_lt_of_fst, point_lt_of_snd]
    | add t p q k =>
      obtain ⟨-, -, -, k', rfl, -, rfl⟩ := ho
      exact point_lt_of_fst (Nat.lt_succ_self k')
    | _ => exact ho.elim

theorem acyclic (c : Setup) : WellFounded (Depends c.sys c.certificate) := by
  apply acyclic_of_rank point
  intro a e h
  rcases h with hp | hw
  · exact hp.1.2.2.1
  · exact waits_forward hw

theorem prior_of_blocking (ha : c.Occurs a) (hpe : pe a = pe e) (hpt : point a < point e)
    (hm : mode a = .blocking) (hs : Sequenced a e) : c.Prior a e :=
  before_of_pre ⟨Program.pre_of_blocking ha hpe hpt hm, hs⟩

theorem before_leave (ha : c.Occurs a) (hpe : pe a = p) (hpt : point a < toLex (k, toLex (9, 0)))
    (hm : mode a = .blocking) : c.Prior a (leave p k) :=
  prior_of_blocking ha hpe hpt hm (.inr (.inl rfl))

theorem enter_before (hp : p < c.peSize) (hk : k < c.calls.length) (hpe : pe e = p)
    (hpt : toLex (k, toLex (0, 0)) < point e) : c.Prior (enter p k) e :=
  prior_of_blocking ⟨hp, hk⟩ hpe.symm hpt rfl (.inl rfl)

theorem leave_enter (hp : p < c.peSize) (hk : k < c.calls.length) (hlt : k < k') :
    c.Prior (leave p k) (enter p k') :=
  prior_of_blocking ⟨hp, hk⟩ rfl (point_lt_of_fst hlt) rfl (.inl rfl)

theorem add_wait (he : c.Occurs (wait t p q k)) (ha : c.Occurs (add t' q p k)) :
    c.Prior (add t' q p k) (wait t p q k) :=
  before_of_waits (.inl ⟨t', he, ha, rfl⟩)

theorem put_add (h : c.Occurs (put t p q k)) : c.Prior (put t p q k) (add t p q k) :=
  before_of_pre ⟨⟨h, rfl, point_lt_of_snd (by decide), rfl⟩, .inr (.inr rfl)⟩

theorem wait_leave (h : c.Occurs (wait t p q k)) : c.Prior (wait t p q k) (leave p k) :=
  before_leave h rfl (point_lt_of_snd (by decide)) rfl

end Order

def handler (c : Setup) (q : ℕ) : ℕ := q % stepSize c.blockSize

theorem handles_handler (c : Setup) (q : ℕ) : Handles c.blockSize (c.handler q) q := by
  have hstep := ThreadPutPartition.step_pos c.block_pos
  have hle : stepSize c.blockSize ≤ c.blockSize := by
    unfold stepSize
    split <;> omega
  refine ⟨(Nat.mod_lt _ hstep).trans_le hle, q / stepSize c.blockSize, ?_⟩
  rw [handler, mul_comm]
  exact (Nat.mod_add_div q _).symm

theorem turn_handler (hq : q < c.peSize) : c.Turn (c.handler q) q :=
  (ThreadPutPartition.mem_turns c.block_pos).mpr ⟨handles_handler c q, hq⟩

theorem Turn.lt (h : c.Turn t q) : q < c.peSize :=
  ((ThreadPutPartition.mem_turns c.block_pos).mp h).2

namespace Orderly

variable (h : c.Orderly)
include h

theorem turn_eq (hk : c.Flags p k) (ht : c.Turn t q) : t = c.handler q := by
  obtain ⟨hp, hlen, hform⟩ := hk
  have hsingle := h.single k hlen (h.agreed k hlen p hp ▸ hform)
  have hone := (ThreadPutPartition.single_handler_iff c.block_pos).mpr hsingle q ht.lt
  exact hone.unique ((ThreadPutPartition.mem_turns c.block_pos).mp ht).1 (handles_handler c q)

theorem flags (hk : c.Flags p k) (hq : q < c.peSize) : c.Flags q k := by
  obtain ⟨hp, hlen, hform⟩ := hk
  exact ⟨hq, hlen, (h.agreed k hlen q hq).trans ((h.agreed k hlen p hp).symm.trans hform)⟩

theorem syncs (hk : c.Syncs p k) (hq : q < c.peSize) : c.Syncs q k := by
  obtain ⟨hp, hlen, hform⟩ := hk
  exact ⟨hq, hlen, (h.agreed k hlen q hq).trans ((h.agreed k hlen p hp).symm.trans hform)⟩

theorem sequenceNumber_eq (hp : p < c.peSize) (hk : k ≤ c.calls.length) :
    c.sequenceNumber p k = c.sequenceNumber 0 k := by
  induction k with
  | zero => rfl
  | succ k ih =>
    rw [sequenceNumber, sequenceNumber, ih (Nat.le_of_succ_le hk), h.agreed k hk p hp]

theorem flagWord_eq (hp : p < c.peSize) (hk : k < c.calls.length) :
    c.flagWord p k r = c.flagWord 0 k r := by
  rw [flagWord, flagWord, bank, bank, h.sequenceNumber_eq hp hk.le]

end Orderly

theorem flags_or_syncs (hp : p < c.peSize) (hk : k < c.calls.length) :
    c.Flags p k ∨ c.Syncs p k := by
  cases hform : c.threadPuts k p with
  | true => exact .inl ⟨hp, hk, hform⟩
  | false => exact .inr ⟨hp, hk, hform⟩

theorem not_flags_of_syncs (h : c.Syncs p k) : ¬ c.Flags p k := by
  intro hf
  exact Bool.false_ne_true (h.2.2.symm.trans hf.2.2)

theorem bank_succ (h : c.Flags p k) : c.bank p (k + 1) ≠ c.bank p k := by
  rw [bank, bank, sequenceNumber, if_pos h.2.2]
  omega

section Barrier

variable (h : c.Orderly) (hk : c.Syncs 0 k)
include h hk

theorem arrive_occurs (hp : c.Member p) : c.Occurs (arrive p k) := ⟨hp.1, h.syncs hk hp.2⟩

theorem arrive_collect (hd : c.direct = true) (hp : c.Member p) :
    c.Prior (arrive p k) (collect p k) :=
  before_of_waits (.inl ⟨⟨hd, hp, hk⟩, arrive_occurs h hk hp, rfl⟩)

theorem arrive_gather (hd : c.direct = false) (hp : c.Member p) : c.Prior (arrive p k) (gather k) :=
  before_of_waits (.inl ⟨p, ⟨hd, hk⟩, arrive_occurs h hk hp, rfl⟩)

theorem arrive_first (hp : c.Member p) (hpe : pe e = 0) (hpt : toLex (k, toLex (5, 0)) ≤ point e)
    (hl : lane e = none) : c.Prior (arrive p k) e := by
  cases hd : c.direct with
  | true =>
    exact (arrive_collect h hk hd hp).trans (prior_of_blocking ⟨hd, hp, hk⟩ hpe.symm
      (lt_of_lt_of_le (point_lt_of_snd (by decide)) hpt) rfl (.inr (.inl hl)))
  | false =>
    exact (arrive_gather h hk hd hp).trans (prior_of_blocking ⟨hd, hk⟩ hpe.symm
      (lt_of_lt_of_le (point_lt_of_snd (by decide)) hpt) rfl (.inr (.inl hl)))

theorem arrive_release (hp : c.Member p) : c.Prior (arrive p k) (release q k) :=
  arrive_first h hk hp rfl (point_lt_of_snd (by decide)).le rfl

theorem release_released (hp : c.Member p) : c.Prior (release p k) (released p k) :=
  before_of_waits (.inl ⟨⟨hp.1, h.syncs hk hp.2⟩, ⟨hp, hk⟩, rfl⟩)

theorem release_leave (hp : c.Member p) : c.Prior (release p k) (leave p k) :=
  (release_released h hk hp).trans
    (before_leave ⟨hp.1, h.syncs hk hp.2⟩ rfl (point_lt_of_snd (by decide)) rfl)

end Barrier

section Calls

variable (h : c.Orderly)
include h

theorem enter_leave (hp : p < c.peSize) (hq : q < c.peSize) (hk : k < c.calls.length) :
    c.Prior (enter p k) (leave q k) := by
  have hpos := c.pes_pos
  rcases flags_or_syncs hp hk with hf | hs
  · have hadd : c.Occurs (add (c.handler q) p q k) := ⟨hf, turn_handler hq⟩
    have hwait : c.Occurs (wait (c.handler p) q p k) := ⟨h.flags hf hq, turn_handler hp⟩
    have henter : c.Prior (enter p k) (add (c.handler q) p q k) :=
      enter_before hp hk rfl (point_lt_of_snd (by decide))
    exact henter.trans ((add_wait hwait hadd).trans (wait_leave hwait))
  · have hfirst : c.Syncs 0 k := h.syncs hs hpos
    by_cases hp0 : p = 0
    · by_cases hq0 : q = 0
      · rw [hp0, hq0]
        exact enter_before hpos hk rfl (point_lt_of_snd (by decide))
      · have hrelease : c.Prior (enter 0 k) (release q k) :=
          enter_before hpos hk rfl (point_lt_of_snd (by decide))
        rw [hp0]
        exact hrelease.trans (release_leave h hfirst ⟨pos_of_ne_zero hq0, hq⟩)
    · have hmem : c.Member p := ⟨pos_of_ne_zero hp0, hp⟩
      have harrive : c.Prior (enter p k) (arrive p k) :=
        enter_before hp hk rfl (point_lt_of_snd (by decide))
      by_cases hq0 : q = 0
      · rw [hq0]
        exact harrive.trans (arrive_first h hfirst hmem rfl (point_lt_of_snd (by decide)).le rfl)
      · exact harrive.trans ((arrive_release h hfirst hmem).trans
          (release_leave h hfirst ⟨pos_of_ne_zero hq0, hq⟩))

theorem leave_later (hp : p < c.peSize) (hq : q < c.peSize) (hk : k + 1 < k')
    (hk' : k' < c.calls.length) : c.Prior (leave p k) (enter q k') := by
  have hnext : c.Prior (leave p k) (enter p (k + 1)) :=
    leave_enter hp (by omega) (Nat.lt_succ_self k)
  exact hnext.trans ((enter_leave h hp hq (by omega)).trans (leave_enter hq (by omega) hk))

end Calls

/-! The words. Each is used for one purpose in a call, and its owner has cleared it when it
leaves the call. -/

theorem flagWord_lt (h : c.flagWord p k r < c.peSize) : c.bank p k = 0 ∧ c.flagWord p k r = r := by
  have hbank : c.bank p k = 0 := by
    grind [flagWord, bank]
  refine ⟨hbank, ?_⟩
  rw [flagWord, hbank, zero_mul, zero_add]

inductive Uses (c : Setup) (o w k : ℕ) : Prop
  | flag (p : ℕ) (hf : c.Flags o k) (hp : p < c.peSize) (hw : w = c.flagWord o k p)
  | released (ho : c.Member o) (hs : c.Syncs 0 k) (hw : w = 0)
  | arrived (hd : c.direct = true) (hw : c.Member w) (hs : c.Syncs 0 k) (ho : o = 0)
  | counted (hd : c.direct = false) (hs : c.Syncs 0 k) (ho : o = 0) (hw : w = 0)

def signal (c : Setup) (o w k : ℕ) : Event → Prop
  | add _ p q k' => q = o ∧ w = c.flagWord p k p ∧ k' = k
  | release p k' => p = o ∧ w = 0 ∧ k' = k
  | arrive p k' => o = 0 ∧ w = (if c.direct then p else 0) ∧ k' = k
  | _ => False

def closer (c : Setup) (o w k : ℕ) : Event :=
  if c.threadPuts k o then
    reset (c.handler (w - c.bank o k * c.peSize)) o (w - c.bank o k * c.peSize) k
  else if 0 < o then clear o k
  else if c.direct then drop w k
  else wipe k

theorem closer_flag (hf : c.Flags o k) :
    closer c o (c.flagWord o k p) k = reset (c.handler p) o p k := by
  rw [closer, if_pos hf.2.2, flagWord, Nat.add_sub_cancel_left]

theorem Syncs.not_threadPuts (hs : c.Syncs o k) : ¬ c.threadPuts k o = true :=
  fun h => Bool.false_ne_true (hs.2.2.symm.trans h)

theorem closer_released (hs : c.Syncs o k) (ho : 0 < o) : closer c o w k = clear o k := by
  rw [closer, if_neg hs.not_threadPuts, if_pos ho]

theorem closer_arrived (hs : c.Syncs 0 k) (hd : c.direct = true) : closer c 0 w k = drop w k := by
  rw [closer, if_neg hs.not_threadPuts, if_neg (lt_irrefl 0), if_pos hd]

theorem closer_counted (hs : c.Syncs 0 k) (hd : c.direct = false) : closer c 0 w k = wipe k := by
  rw [closer, if_neg hs.not_threadPuts, if_neg (lt_irrefl 0), hd]
  rfl

section Sessions

variable (h : c.Orderly)
include h

theorem closer_spec (hu : Uses c o w k) :
    (o < c.peSize ∧ k < c.calls.length) ∧ c.Occurs (closer c o w k) ∧ pe (closer c o w k) = o ∧
      mode (closer c o w k) = .blocking ∧ toLex (k, toLex (0, 0)) < point (closer c o w k) ∧
      point (closer c o w k) < toLex (k, toLex (9, 0)) ∧
      c.sys.StoresTo (.word o w) (closer c o w k) ∧ c.certificate.val (closer c o w k) = 0 := by
  have hpos := c.pes_pos
  cases hu with
  | flag p hf hp hw =>
    rw [hw, closer_flag hf]
    exact ⟨⟨hf.1, hf.2.1⟩, ⟨hf, turn_handler hp⟩, rfl, rfl, point_lt_of_snd (by decide),
      point_lt_of_snd (by decide), ⟨_, rfl⟩, rfl⟩
  | released ho hs hw =>
    have hs' : c.Syncs o k := h.syncs hs ho.2
    rw [hw, closer_released hs' ho.1]
    exact ⟨⟨ho.2, hs.2.1⟩, ⟨ho.1, hs'⟩, rfl, rfl, point_lt_of_snd (by decide),
      point_lt_of_snd (by decide), ⟨_, rfl⟩, rfl⟩
  | arrived hd hw hs ho =>
    rw [ho, closer_arrived hs hd]
    exact ⟨⟨hpos, hs.2.1⟩, ⟨hd, hw, hs⟩, rfl, rfl, point_lt_of_snd (by decide),
      point_lt_of_snd (by decide), ⟨_, rfl⟩, rfl⟩
  | counted hd hs ho hw =>
    rw [ho, hw, closer_counted hs hd]
    exact ⟨⟨hpos, hs.2.1⟩, ⟨hd, hs⟩, rfl, rfl, point_lt_of_snd (by decide),
      point_lt_of_snd (by decide), ⟨_, rfl⟩, rfl⟩

theorem closer_leave (hu : Uses c o w k) : c.Prior (closer c o w k) (leave o k) := by
  obtain ⟨-, hev, hown, hm, -, hlt, -⟩ := closer_spec h hu
  exact before_leave hev hown hlt hm

theorem closer_enter (hu : Uses c o w k) (hlt : k < k') :
    c.Prior (closer c o w k) (enter o k') := by
  obtain ⟨⟨ho, hk⟩, -⟩ := closer_spec h hu
  exact (closer_leave h hu).trans (leave_enter ho hk hlt)

theorem closer_closer (hu : Uses c o w k) (hu' : Uses c o w k') (hlt : k < k') :
    c.Prior (closer c o w k) (closer c o w k') := by
  obtain ⟨⟨ho, hk⟩, -, hown, -, hpt, -⟩ := closer_spec h hu'
  exact (closer_enter h hu hlt).trans (enter_before ho hk hown hpt)

theorem signal_closer (he : c.Occurs e) (hs : signal c o w k e) : c.Prior e (closer c o w k) := by
  cases e with
  | add t p q k' =>
    obtain ⟨rfl, rfl, rfl⟩ := hs
    obtain ⟨hf, ht⟩ := he
    have hq := ht.lt
    have hf' := h.flags hf hq
    rw [h.flagWord_eq hf.1 hf.2.1, ← h.flagWord_eq hq hf.2.1, closer_flag hf']
    have hwait : c.Occurs (wait (c.handler p) q p k') := ⟨hf', turn_handler hf.1⟩
    exact (add_wait hwait ⟨hf, ht⟩).trans
      (prior_of_blocking hwait rfl (point_lt_of_third (by omega)) rfl (.inr (.inr rfl)))
  | release p k' =>
    obtain ⟨rfl, rfl, rfl⟩ := hs
    obtain ⟨hp, hfirst⟩ := he
    have hs := h.syncs hfirst hp.2
    rw [closer_released hs hp.1]
    exact (release_released h hfirst hp).trans
      (prior_of_blocking ⟨hp.1, hs⟩ rfl (point_lt_of_snd (by decide)) rfl (.inl rfl))
  | arrive p k' =>
    obtain ⟨rfl, rfl, rfl⟩ := hs
    have hfirst := h.syncs he.2 c.pes_pos
    have hp : c.Member p := ⟨he.1, he.2.1⟩
    cases hd : c.direct with
    | true =>
      rw [closer_arrived hfirst hd, if_pos rfl]
      exact (arrive_collect h hfirst hd hp).trans
        (prior_of_blocking ⟨hd, hp, hfirst⟩ rfl (point_lt_of_third (by omega)) rfl (.inl rfl))
    | false =>
      rw [closer_counted hfirst hd]
      exact (arrive_gather h hfirst hd hp).trans
        (prior_of_blocking ⟨hd, hfirst⟩ rfl (point_lt_of_third (by decide)) rfl (.inl rfl))
  | _ => exact hs.elim

omit h in
theorem enter_signal (he : c.Occurs e) (hs : signal c o w k e) :
    (pe e < c.peSize ∧ k < c.calls.length) ∧ c.Prior (enter (pe e) k) e := by
  have hpos := c.pes_pos
  cases e with
  | add t p q k' =>
    obtain ⟨-, -, rfl⟩ := hs
    obtain ⟨⟨hp, hk, -⟩, -⟩ := he
    exact ⟨⟨hp, hk⟩, enter_before hp hk rfl (point_lt_of_snd (by decide))⟩
  | release p k' =>
    obtain ⟨-, -, rfl⟩ := hs
    obtain ⟨-, -, hk, -⟩ := he
    exact ⟨⟨hpos, hk⟩, enter_before hpos hk rfl (point_lt_of_snd (by decide))⟩
  | arrive p k' =>
    obtain ⟨-, -, rfl⟩ := hs
    obtain ⟨-, hp, hk, -⟩ := he
    exact ⟨⟨hp, hk⟩, enter_before hp hk rfl (point_lt_of_snd (by decide))⟩
  | _ => exact hs.elim

theorem first_closer (hu : Uses c 0 w k) (hs : c.Syncs 0 k) (hp : c.Member p) (hlt : k < k') :
    c.Prior (closer c 0 w k) (enter p k') := by
  have hrelease : c.Prior (closer c 0 w k) (release p k) := by
    cases hu with
    | flag _ hf _ _ => exact absurd hf (not_flags_of_syncs hs)
    | released ho _ _ => exact absurd ho.1 (lt_irrefl 0)
    | arrived hd hw _ _ =>
      rw [closer_arrived hs hd]
      exact prior_of_blocking ⟨hd, hw, hs⟩ rfl (point_lt_of_snd (by decide)) rfl (.inl rfl)
    | counted hd _ _ _ =>
      rw [closer_counted hs hd]
      exact prior_of_blocking ⟨hd, hs⟩ rfl (point_lt_of_snd (by decide)) rfl (.inl rfl)
  exact hrelease.trans ((release_leave h hs hp).trans (leave_enter hp.2 hs.2.1 hlt))

theorem closer_add (hu : Uses c q w k) (he : c.Occurs (add t p q (k + 1)))
    (hw : w = c.flagWord p (k + 1) p) : c.Prior (closer c q w k) (add t p q (k + 1)) := by
  obtain ⟨hf, ht⟩ := he
  obtain ⟨hp, hk, -⟩ := id hf
  have henter : c.Prior (enter p (k + 1)) (add t p q (k + 1)) :=
    enter_before hp hk rfl (point_lt_of_snd (by decide))
  cases hu with
  | flag p' hf' hp' hw' =>
    rw [hw', h.flagWord_eq hf'.1 hf'.2.1, h.flagWord_eq hp hk] at hw
    obtain ⟨hbank, -⟩ := MachineInts.block_unique hp' hp hw
    exact absurd hbank.symm (bank_succ (h.flags hf' c.pes_pos))
  | released ho hs hzero =>
    rw [hzero, h.flagWord_eq hp hk] at hw
    obtain ⟨hbank, heq⟩ := flagWord_lt (hw ▸ c.pes_pos)
    obtain rfl : p = 0 := heq.symm.trans hw.symm
    exact (closer_leave h (.released ho hs hzero)).trans
      (before_of_waits (.inr ⟨⟨hf, ht⟩, rfl, hbank, k, rfl, h.syncs hs ho.2, rfl⟩))
  | arrived hd hmem hs hq =>
    rw [hq] at henter ⊢
    obtain ⟨-, heq⟩ := flagWord_lt (hw ▸ hmem.2)
    obtain rfl : w = p := hw.trans heq
    exact (first_closer h (.arrived hd hmem hs rfl) hs hmem (Nat.lt_succ_self k)).trans henter
  | counted hd hs hq hzero =>
    rw [hq] at henter ⊢
    rw [hzero] at hw
    obtain ⟨-, heq⟩ := flagWord_lt (hw ▸ c.pes_pos)
    obtain rfl : p = 0 := heq.symm.trans hw.symm
    exact (closer_enter h (.counted hd hs rfl hzero) (Nat.lt_succ_self k)).trans henter

theorem closer_arrive (hu : Uses c 0 w k) (he : c.Occurs (arrive p (k + 1)))
    (hw : w = if c.direct then p else 0) : c.Prior (closer c 0 w k) (arrive p (k + 1)) := by
  obtain ⟨hpos, hs⟩ := he
  have hp : c.Member p := ⟨hpos, hs.1⟩
  have hk : k < c.calls.length := Nat.lt_of_succ_lt hs.2.1
  rcases flags_or_syncs c.pes_pos hk with hf | hfirst
  · cases hu with
    | flag p' _ hp' hw' =>
      have hlt : c.flagWord 0 k p' < c.peSize := by
        rw [← hw', hw]
        split
        · exact hs.1
        · exact c.pes_pos
      exact (closer_leave h (.flag p' hf hp' hw')).trans (before_of_waits
        (.inr ⟨⟨hpos, hs⟩, .inr ⟨k, rfl, hf, (flagWord_lt hlt).1, rfl⟩⟩))
    | released _ hs' _ | arrived _ _ hs' _ | counted _ hs' _ _ =>
      exact absurd hf (not_flags_of_syncs hs')
  · exact (first_closer h hu hfirst hp (Nat.lt_succ_self k)).trans
      (enter_before hs.1 hs.2.1 rfl (point_lt_of_snd (by decide)))

theorem closer_signal (hu : Uses c o w k) (hlt : k < k') (he : c.Occurs e)
    (hs : signal c o w k' e) : c.Prior (closer c o w k) e := by
  obtain ⟨⟨hpe, hk'⟩, henter⟩ := enter_signal he hs
  obtain ⟨⟨ho, -⟩, -⟩ := closer_spec h hu
  rcases lt_or_eq_of_le (Nat.succ_le_of_lt hlt) with hfar | rfl
  · -- a call in between has brought everybody together
    exact (closer_leave h hu).trans ((leave_later h ho hpe hfar hk').trans henter)
  · cases e with
    | add t p q k'' =>
      obtain ⟨rfl, hw, rfl⟩ := hs
      exact closer_add h hu he hw
    | release p k'' =>
      obtain ⟨rfl, -, rfl⟩ := hs
      have harrive : c.Prior (enter p (k + 1)) (arrive p (k + 1)) :=
        enter_before ho hk' rfl (point_lt_of_snd (by decide))
      exact (closer_enter h hu (Nat.lt_succ_self k)).trans
        (harrive.trans (arrive_release h he.2 he.1))
    | arrive p k'' =>
      obtain ⟨rfl, hw, rfl⟩ := hs
      exact closer_arrive h hu he hw
    | _ => exact hs.elim

omit h in
theorem action_arrive_direct (hd : c.direct = true) :
    c.sys.action (arrive p k) = .store (.word 0 p) fun _ => 1 := if_pos hd

omit h in
theorem action_arrive_atomic (hd : c.direct = false) :
    c.sys.action (arrive p k) = .add (.word 0 0) 1 :=
  if_neg (Bool.not_eq_true _ ▸ hd)

theorem writer (he : c.Occurs e) (hw : c.sys.Writes (.word o w) e) :
    ∃ k, Uses c o w k ∧ (signal c o w k e ∨ e = closer c o w k) := by
  have htarget := hw.target
  cases e with
  | add t p q k =>
    cases htarget
    obtain ⟨hf, ht⟩ := he
    refine ⟨k, .flag p (h.flags hf ht.lt) hf.1 ?_, .inl ⟨rfl, rfl, rfl⟩⟩
    rw [h.flagWord_eq hf.1 hf.2.1, h.flagWord_eq ht.lt hf.2.1]
  | reset t p q k =>
    cases htarget
    obtain ⟨hf, ht⟩ := he
    refine ⟨k, .flag q hf ht.lt rfl, .inr ?_⟩
    rw [closer_flag hf, h.turn_eq hf ht]
  | arrive p k =>
    obtain ⟨hpos, hs⟩ := he
    have hfirst := h.syncs hs c.pes_pos
    cases hd : c.direct with
    | true =>
      rw [action_arrive_direct hd] at htarget
      cases htarget
      exact ⟨k, .arrived hd ⟨hpos, hs.1⟩ hfirst rfl, .inl ⟨rfl, (if_pos hd).symm, rfl⟩⟩
    | false =>
      rw [action_arrive_atomic hd] at htarget
      cases htarget
      exact ⟨k, .counted hd hfirst rfl rfl, .inl ⟨rfl, by rw [hd]; rfl, rfl⟩⟩
  | drop p k =>
    cases htarget
    obtain ⟨hd, hp, hs⟩ := he
    exact ⟨k, .arrived hd hp hs rfl, .inr (closer_arrived hs hd).symm⟩
  | wipe k =>
    cases htarget
    obtain ⟨hd, hs⟩ := he
    exact ⟨k, .counted hd hs rfl rfl, .inr (closer_counted hs hd).symm⟩
  | release p k =>
    cases htarget
    obtain ⟨hp, hs⟩ := he
    exact ⟨k, .released hp hs rfl, .inl ⟨rfl, rfl, rfl⟩⟩
  | clear p k =>
    cases htarget
    obtain ⟨hpos, hs⟩ := he
    exact ⟨k, .released ⟨hpos, hs.1⟩ (h.syncs hs c.pes_pos) rfl,
      .inr (closer_released hs hpos).symm⟩
  | _ => cases htarget

theorem closes (hu : Uses c o w k) :
    c.sys.StoresTo (.word o w) (closer c o w k) ∧ c.certificate.val (closer c o w k) = 0 :=
  (closer_spec h hu).2.2.2.2.2.2

theorem sessions (o w : ℕ) :
    Sessions c.sys c.certificate (.word o w) (Uses c o w) (signal c o w) (closer c o w) where
  acyclic := acyclic c
  writer := writer h
  closes := closes h
  signal_closer _ := signal_closer h
  closer_signal hu _ := closer_signal h hu
  closer_closer := closer_closer h

theorem signal_flag (hf : c.Flags o k) (hp : p < c.peSize) (ha : c.Occurs a)
    (hs : signal c o (c.flagWord o k p) k a) : a = add (c.handler o) p o k := by
  cases a with
  | add t p' q k' =>
    grind [flagWord, Flags, signal, Occurs, Orderly.turn_eq, MachineInts.block_unique]
  | release p' k' =>
    obtain ⟨-, -, rfl⟩ := hs
    exact absurd (h.flags hf c.pes_pos) (not_flags_of_syncs ha.2)
  | arrive p' k' =>
    obtain ⟨-, -, rfl⟩ := hs
    exact absurd (h.flags hf ha.2.1) (not_flags_of_syncs ha.2)
  | _ => exact hs.elim

theorem signal_released (ho : c.Member o) (hs : c.Syncs 0 k) (ha : c.Occurs a)
    (hsig : signal c o 0 k a) : a = release o k := by
  cases a with
  | add t p q k' =>
    obtain ⟨-, -, rfl⟩ := hsig
    exact absurd ha.1 (not_flags_of_syncs (h.syncs hs ha.1.1))
  | release p k' =>
    obtain ⟨rfl, -, rfl⟩ := hsig
    rfl
  | arrive p k' => exact absurd hsig.1 (ne_of_gt ho.1)
  | _ => exact hsig.elim

theorem signal_first (hs : c.Syncs 0 k) (ha : c.Occurs a) (hsig : signal c 0 w k a) :
    ∃ p, a = arrive p k ∧ c.Member p ∧ w = if c.direct then p else 0 := by
  cases a with
  | add t p q k' =>
    obtain ⟨-, -, rfl⟩ := hsig
    exact absurd ha.1 (not_flags_of_syncs (h.syncs hs ha.1.1))
  | release p k' =>
    obtain ⟨rfl, -⟩ := hsig
    exact absurd ha.1.1 (lt_irrefl 0)
  | arrive p k' =>
    obtain ⟨-, hw, rfl⟩ := hsig
    exact ⟨p, rfl, ⟨ha.1, ha.2.1⟩, hw⟩
  | _ => exact hsig.elim

theorem signals_same (he : c.Occurs e) (ha : c.Occurs a) (hs : signal c o w k e)
    (hs' : signal c o w k a) (hstore : c.sys.StoresTo (.word o w) e) : e = a := by
  cases e with
  | add t p q k' =>
    obtain ⟨f, hf⟩ := hstore
    cases hf
  | release p k' =>
    obtain ⟨rfl, rfl, rfl⟩ := hs
    exact (signal_released h he.1 he.2 ha hs').symm
  | arrive p k' =>
    obtain ⟨rfl, rfl, rfl⟩ := hs
    obtain ⟨p', rfl, -, hw⟩ := signal_first h (h.syncs he.2 c.pes_pos) ha hs'
    cases hd : c.direct with
    | true =>
      rw [if_pos hd, if_pos hd] at hw
      rw [hw]
    | false =>
      obtain ⟨f, hf⟩ := hstore
      rw [action_arrive_atomic hd] at hf
      cases hf
  | _ => exact hs.elim

end Sessions

theorem writer_dst (he : c.Occurs e) (hw : c.sys.Writes (.dst k q p) e) :
    (∃ t, (c.Flags p k ∧ c.Turn t q) ∧ e = put t p q k) ∨ (c.Syncs p k ∧ e = block p q k) := by
  have htarget := hw.target
  cases e with
  | put t p' q' k' =>
    cases htarget
    exact .inl ⟨t, he, rfl⟩
  | block p' q' k' =>
    cases htarget
    exact .inr ⟨he.1, rfl⟩
  | arrive p' k' =>
    cases hd : c.direct with
    | true =>
      rw [action_arrive_direct hd] at htarget
      cases htarget
    | false =>
      rw [action_arrive_atomic hd] at htarget
      cases htarget
  | _ => cases htarget

theorem dst_once (h : c.Orderly) (he : c.Occurs e) (ha : c.Occurs a)
    (hw : c.sys.Writes (.dst k q p) e) (hw' : c.sys.Writes (.dst k q p) a) : e = a := by
  rcases writer_dst he hw with ⟨t, ⟨hf, ht⟩, rfl⟩ | ⟨hs, rfl⟩
  · rcases writer_dst ha hw' with ⟨t', ⟨-, ht'⟩, rfl⟩ | ⟨hs, rfl⟩
    · rw [h.turn_eq hf ht, h.turn_eq hf ht']
    · exact absurd hf (not_flags_of_syncs hs)
  · rcases writer_dst ha hw' with ⟨t', ⟨hf, -⟩, rfl⟩ | ⟨-, rfl⟩
    · exact absurd hf (not_flags_of_syncs hs)
    · rfl

section Waits

variable {init : Cell → ℤ} {X : Set Event} {m : Cell → ℤ} (h : c.Orderly)
  (hc : Consistent c.sys c.certificate init X m)
include h hc

theorem past (ho : o < c.peSize) (hk : k < c.calls.length) (hr : c.sys.Ready X e) (hpe : pe e = o)
    (hpt : toLex (k, toLex (0, 0)) < point e) : ∀ k' < k, Uses c o w k' → closer c o w k' ∈ X := by
  intro k' hlt hu
  have henter : enter o k ∈ X :=
    hr _ ⟨Program.pre_of_blocking (Q := c.program) ⟨ho, hk⟩ hpe.symm hpt rfl, .inl rfl⟩
  exact closer_enter h hu hlt X hc.closed henter

variable (hinit : Zeroed init)
include hinit

theorem wait_iff (he : c.Occurs (wait t p q k)) (hX : wait t p q k ∉ X)
    (hr : c.sys.Ready X (wait t p q k)) :
    m (.word p (c.flagWord p k q)) = 1 ↔ add (c.handler p) q p k ∈ X := by
  obtain ⟨hf, ht⟩ := he
  obtain ⟨hp, hk, -⟩ := id hf
  have hwait : c.Prior (wait t p q k) (closer c p (c.flagWord p k q) k) := by
    rw [closer_flag hf, ← h.turn_eq hf ht]
    exact prior_of_blocking ⟨hf, ht⟩ rfl (point_lt_of_third (by omega)) rfl (.inr (.inr rfl))
  have hcount := (sessions h p (c.flagWord p k q)).counted_all hc
    (.flag q hf ht.lt rfl) hwait hX (past h hc hp hk hr rfl (point_lt_of_snd (by decide)))
    (hinit _ _) (List.nodup_singleton (add (c.handler p) q p k))
    (fun a ha => by
      rw [List.mem_singleton]
      constructor
      · exact signal_flag h hf ht.lt ha
      · intro heq
        rw [heq]
        refine ⟨rfl, ?_, rfl⟩
        rw [h.flagWord_eq hp hk, h.flagWord_eq ht.lt hk])
    (fun a ha hs => by
      rw [signal_flag h hf ht.lt ha hs, h.flagWord_eq hp hk, ← h.flagWord_eq ht.lt hk]
      rfl)
  rw [List.length_singleton, Nat.cast_one] at hcount
  exact hcount.trans List.forall_mem_singleton

theorem collect_iff (he : c.Occurs (collect p k)) (hX : collect p k ∉ X)
    (hr : c.sys.Ready X (collect p k)) : m (.word 0 p) = 1 ↔ arrive p k ∈ X := by
  obtain ⟨hd, hp, hs⟩ := he
  have hwait : c.Prior (collect p k) (closer c 0 p k) := by
    rw [closer_arrived hs hd]
    exact prior_of_blocking ⟨hd, hp, hs⟩ rfl (point_lt_of_third (by omega)) rfl (.inl rfl)
  have hsig : signal c 0 p k (arrive p k) := ⟨rfl, (if_pos hd).symm, rfl⟩
  refine (sessions h 0 p).flagged hc (.arrived hd hp hs rfl) hwait hX
    (past h hc c.pes_pos hs.2.1 hr rfl (point_lt_of_snd (by decide))) (hinit _ _) ?_ hsig
    ⟨_, action_arrive_direct hd⟩ one_ne_zero
  intro a ha hsig'
  obtain ⟨p', rfl, -, hw⟩ := signal_first h hs ha hsig'
  rw [if_pos hd] at hw
  rw [hw]

theorem released_iff (he : c.Occurs (released p k)) (hX : released p k ∉ X)
    (hr : c.sys.Ready X (released p k)) : m (.word p 0) = 1 ↔ release p k ∈ X := by
  obtain ⟨hpos, hs⟩ := he
  have hp : c.Member p := ⟨hpos, hs.1⟩
  have hfirst := h.syncs hs c.pes_pos
  have hwait : c.Prior (released p k) (closer c p 0 k) := by
    rw [closer_released hs hpos]
    exact prior_of_blocking ⟨hpos, hs⟩ rfl (point_lt_of_snd (by decide)) rfl (.inl rfl)
  exact (sessions h p 0).flagged hc (.released hp hfirst rfl) hwait hX
    (past h hc hs.1 hs.2.1 hr rfl (point_lt_of_snd (by decide))) (hinit _ _)
    (fun a => signal_released h hp hfirst) ⟨rfl, rfl, rfl⟩ ⟨_, rfl⟩ one_ne_zero

theorem gather_iff (he : c.Occurs (gather k)) (hX : gather k ∉ X) (hr : c.sys.Ready X (gather k)) :
    m (.word 0 0) = c.peSize - 1 ↔ ∀ p, c.Member p → arrive p k ∈ X := by
  obtain ⟨hd, hs⟩ := he
  have hwait : c.Prior (gather k) (closer c 0 0 k) := by
    rw [closer_counted hs hd]
    exact prior_of_blocking ⟨hd, hs⟩ rfl (point_lt_of_third (by decide)) rfl (.inl rfl)
  refine (sessions h 0 0).counted_members hc (.counted hd hs rfl rfl) hwait hX
    (past h hc c.pes_pos hs.2.1 hr rfl (point_lt_of_snd (by decide))) (hinit _ _) c.pes_pos
    (fun i j hij => (Event.arrive.inj hij).1) ?_ ?_
  · intro a ha
    constructor
    · intro hsig
      obtain ⟨p, rfl, hp, -⟩ := signal_first h hs ha hsig
      exact ⟨p, hp, rfl⟩
    · intro ⟨p, hp, heq⟩
      rw [heq]
      exact ⟨rfl, by rw [hd]; rfl, rfl⟩
  · intro a ha hsig
    obtain ⟨p, rfl, -, -⟩ := signal_first h hs ha hsig
    exact action_arrive_atomic hd

theorem guard_iff (he : c.Occurs e) (hX : e ∉ X) (hr : c.sys.Ready X e) :
    c.guard e m ↔ ∀ a, c.Meant e a → a ∈ X := by
  cases e with
  | wait t p q k =>
    obtain ⟨hf, ht⟩ := id he
    refine (wait_iff h hc hinit he hX hr).trans ?_
    constructor
    · intro hadd a ⟨t', _, ha, heq⟩
      rw [heq, h.turn_eq ha.1 ha.2]
      exact hadd
    · intro hall
      exact hall _ ⟨c.handler p, he, ⟨h.flags hf ht.lt, turn_handler hf.1⟩, rfl⟩
  | collect p k =>
    refine (collect_iff h hc hinit he hX hr).trans ?_
    constructor
    · intro harrive a ⟨_, _, ha⟩
      exact ha ▸ harrive
    · intro hall
      exact hall _ ⟨he, arrive_occurs h he.2.2 he.2.1, rfl⟩
  | gather k =>
    refine (gather_iff h hc hinit he hX hr).trans ?_
    constructor
    · intro harrive a ⟨p, _, hocc, ha⟩
      exact ha ▸ harrive p ⟨hocc.1, hocc.2.1⟩
    · intro hall p hp
      exact hall _ ⟨p, he, arrive_occurs h he.2 hp, rfl⟩
  | released p k =>
    refine (released_iff h hc hinit he hX hr).trans ?_
    constructor
    · intro hrelease a ⟨_, _, ha⟩
      exact ha ▸ hrelease
    · intro hall
      exact hall _ ⟨he, ⟨⟨he.1, he.2.1⟩, h.syncs he.2 c.pes_pos⟩, rfl⟩
  | _ => exact ⟨fun _ a ha => ha.elim, fun _ => trivial⟩

end Waits

theorem meant_occurs (h : c.Meant e a) : c.Occurs a := by
  cases e with
  | wait t p q k | gather k =>
    obtain ⟨_, -, ha, rfl⟩ := h
    exact ha
  | collect p k | released p k =>
    obtain ⟨-, ha, rfl⟩ := h
    exact ha
  | _ => exact h.elim

theorem owed_occurs (h : c.Owed e a) : c.Occurs a := by
  cases e with
  | arrive p k =>
    obtain ⟨-, ⟨q, ha, rfl⟩ | ⟨k', rfl, hf, -, rfl⟩⟩ := h
    · exact ha
    · exact ⟨hf.1, hf.2.1⟩
  | add t p q k =>
    obtain ⟨-, -, -, k', rfl, hs, rfl⟩ := h
    exact ⟨hs.1, hs.2.1⟩
  | _ => exact h.elim

section Runs

variable {init : Cell → ℤ} (h : c.Orderly) (hinit : Zeroed init)
include h hinit

theorem sound : Sound c.sys c.certificate c.Settled init where
  acyclic := acyclic c
  ordered d e a he ha hs hw := by
    cases d with
    | word o w =>
      exact (sessions h o w).ordered
        (fun _ he ha hs hs' hstore => .inl (signals_same h he ha hs hs' hstore)) he ha hs hw
    | dst k q p => exact .inl (dst_once h he ha (.inl hs) hw)
  matched X m e hc he hX hr hg hok a ha := by
    rcases ha with hm | ho
    · exact (guard_iff h hc hinit he hX hr).mp hg a hm
    · exact hok a ho
  valued X m e d f hc he hX hr hw hact := by
    cases e with
    | arrive p k =>
      cases hd : c.direct with
      | true =>
        rw [action_arrive_direct hd] at hact
        cases hact
        rfl
      | false =>
        rw [action_arrive_atomic hd] at hact
        cases hact
    | enter _ _ | leave _ _ | add _ _ _ _ | wait _ _ _ _ | collect _ _ | gather _ | fence _
    | released _ _ => cases hact
    | _ =>
      cases hact
      rfl

theorem live : Live c.sys c.certificate c.Settled init where
  pre_event _ _ hp := hp.1.1
  waits_event _ _ hw := hw.elim meant_occurs owed_occurs
  guarded X m e hc he hX hr hw := by
    constructor
    · exact (guard_iff h hc hinit he hX hr).mpr fun a ha => hw a (.inl ha)
    · exact fun a ha => hw a (.inr ha)

end Runs

section Return

variable (h : c.Orderly)
include h

theorem put_leave (ht : c.Occurs (put t p q k)) : c.Prior (put t p q k) (leave q k) := by
  obtain ⟨hf, hturn⟩ := ht
  have hwait : c.Occurs (wait (c.handler p) q p k) := ⟨h.flags hf hturn.lt, turn_handler hf.1⟩
  exact (put_add ⟨hf, hturn⟩).trans ((add_wait hwait ⟨hf, hturn⟩).trans (wait_leave hwait))

theorem block_leave (hb : c.Occurs (block p q k)) : c.Prior (block p q k) (leave q k) := by
  obtain ⟨hs, hq, hsends⟩ := hb
  have hfirst := h.syncs hs c.pes_pos
  by_cases hp0 : p = 0
  · rw [hp0] at hs hsends ⊢
    have hfence : c.Prior (block 0 q k) (fence k) :=
      before_of_pre ⟨⟨⟨hs, hq, hsends⟩, rfl, point_lt_of_snd (by decide), trivial⟩, .inl rfl⟩
    by_cases hq0 : q = 0
    · rw [hq0] at hfence ⊢
      exact hfence.trans
        (before_of_pre ⟨⟨hfirst, rfl, point_lt_of_snd (by decide), trivial⟩, .inl rfl⟩)
    · have hrelease : c.Prior (fence k) (release q k) :=
        before_of_pre ⟨⟨hfirst, rfl, point_lt_of_snd (by decide), trivial⟩, .inl rfl⟩
      exact hfence.trans
        (hrelease.trans (release_leave h hfirst ⟨pos_of_ne_zero hq0, hq⟩))
  · have hp : c.Member p := ⟨pos_of_ne_zero hp0, hs.1⟩
    have howed : c.Prior (block p q k) (arrive p k) :=
      before_of_waits (.inr ⟨⟨hp.1, hs⟩, .inl ⟨q, ⟨hs, hq, hsends⟩, rfl⟩⟩)
    by_cases hq0 : q = 0
    · rw [hq0] at howed ⊢
      exact howed.trans (arrive_first h hfirst hp rfl (point_lt_of_snd (by decide)).le rfl)
    · exact howed.trans ((arrive_release h hfirst hp).trans
        (release_leave h hfirst ⟨pos_of_ne_zero hq0, hq⟩))

end Return

def Carries (c : Setup) (k p q : ℕ) : Prop :=
  (p < c.peSize ∧ q < c.peSize) ∧ (c.threadPuts k p = true ∨ c.sends k p q = true)

/-- What holds in a run. A member that has returned has all blocks of the call. Every wait is
ended by the flags of its own call, and by these alone. A run that is not over can go on. -/
structure Kept (c : Setup) (X : Set Event) (m : Cell → ℤ) : Prop where
  returned : ∀ q k, leave q k ∈ X → ∀ p, c.Carries k p q → m (.dst k q p) = c.data k p q
  matched : ∀ e, c.Occurs e → e ∉ X → c.sys.Ready X e → (c.guard e m ↔ ∀ a, c.Meant e a → a ∈ X)
  progress : ∀ e, c.Occurs e → e ∉ X →
    ∃ e', c.Occurs e' ∧ e' ∉ X ∧ c.sys.Ready X e' ∧ c.guard e' m ∧ c.Settled X m e'

theorem settled_kept (c : Setup) (h : c.Orderly) {init : Cell → ℤ} (hinit : Zeroed init)
    {X : Set Event} {m : Cell → ℤ} (hrun : c.sys.Run c.Settled init X m) : c.Kept X m := by
  have hc := run_consistent (sound h hinit) hrun
  have hput : ∀ {e k p q}, e ∈ X → c.sys.StoresTo (.dst k q p) e → c.value e = c.data k p q →
      m (.dst k q p) = c.data k p q := by
    intro e k p q he hs hval
    rw [← hval]
    apply hc.read_once (acyclic c) he hs
    intro a ha hw
    exact dst_once h ha (hc.events e he) hw (.inl hs)
  constructor
  · intro q k hleave p hcarries
    obtain ⟨⟨hp, hq⟩, hform⟩ := hcarries
    have hk : k < c.calls.length := (hc.events _ hleave).2
    rcases flags_or_syncs hp hk with hf | hs
    · have hocc : c.Occurs (put (c.handler q) p q k) := ⟨hf, turn_handler hq⟩
      exact hput (put_leave h hocc X hc.closed hleave) ⟨_, rfl⟩ rfl
    · have hocc : c.Occurs (block p q k) := ⟨hs, hq, hform.resolve_left hs.not_threadPuts⟩
      exact hput (block_leave h hocc X hc.closed hleave) ⟨_, rfl⟩ rfl
  · intro e he hX hr
    exact guard_iff h hc hinit he hX hr
  · intro e he hX
    obtain ⟨e', he', hX', hr, ⟨hg, hok⟩, -⟩ := (live h hinit).progress (acyclic c) hc he hX
    exact ⟨e', he', hX', hr, hg, hok⟩

section Listed

def statements (c : Setup) : List Event :=
  (List.range c.calls.length).flatMap fun k => (List.range c.peSize).flatMap fun p =>
    [enter p k, arrive p k, collect p k, drop p k, gather k, wipe k, fence k, release p k,
      released p k, clear p k, leave p k] ++
    (List.range c.peSize).flatMap fun q => [put (c.handler q) p q k, add (c.handler q) p q k,
      wait (c.handler q) p q k, reset (c.handler q) p q k, block p q k]

theorem mem_statements (h : c.Orderly) (he : c.Occurs e) : e ∈ c.statements := by
  simp only [statements, List.mem_flatMap, List.mem_append, List.mem_range]
  have hpos := c.pes_pos
  cases e with
  | enter p k | leave p k => exact ⟨k, he.2, p, he.1, .inl (by simp)⟩
  | put t p q k | add t p q k | wait t p q k | reset t p q k =>
    obtain ⟨hf, ht⟩ := he
    rw [h.turn_eq hf ht]
    exact ⟨k, hf.2.1, p, hf.1, .inr ⟨q, ht.lt, by simp⟩⟩
  | block p q k =>
    obtain ⟨hs, hq, -⟩ := he
    exact ⟨k, hs.2.1, p, hs.1, .inr ⟨q, hq, by simp⟩⟩
  | arrive p k | released p k | clear p k =>
    exact ⟨k, he.2.2.1, p, he.2.1, .inl (by simp)⟩
  | collect p k | drop p k => exact ⟨k, he.2.2.2.1, p, he.2.1.2, .inl (by simp)⟩
  | gather k | wipe k => exact ⟨k, he.2.2.1, 0, hpos, .inl (by simp)⟩
  | fence k => exact ⟨k, he.2.1, 0, hpos, .inl (by simp)⟩
  | release p k => exact ⟨k, he.2.2.1, p, he.1.2, .inl (by simp)⟩

theorem run_complete (h : c.Orderly) {init : Cell → ℤ} (hinit : Zeroed init) :
    ∃ m, c.sys.Run c.Settled init {e | c.Occurs e} m := by
  have hlive : Live c.sys c.certificate c.Settled init := live h hinit
  have hfin : {e | c.Occurs e}.Finite :=
    (List.finite_toSet c.statements).subset fun _ => mem_statements h
  exact hlive.run_all (sound h hinit) hfin

instance (p k : ℕ) : Decidable (c.Flags p k) := inferInstanceAs (Decidable (_ ∧ _ ∧ _))

instance (p k : ℕ) : Decidable (c.Syncs p k) := inferInstanceAs (Decidable (_ ∧ _ ∧ _))

instance (t q : ℕ) : Decidable (c.Turn t q) := inferInstanceAs (Decidable (_ ∧ _))

instance (p : ℕ) : Decidable (c.Member p) := inferInstanceAs (Decidable (_ ∧ _))

instance : DecidablePred c.Occurs := by
  intro e
  cases e <;> dsimp only [Occurs] <;> infer_instance

instance : DecidablePred c.program.event := inferInstanceAs (DecidablePred c.Occurs)

instance : DecidablePred c.sys.event := inferInstanceAs (DecidablePred c.Occurs)

instance (e : Event) (m : Cell → ℤ) : Decidable (c.guard e m) := by
  cases e <;> dsimp only [guard] <;> infer_instance

instance (e : Event) (m : Cell → ℤ) : Decidable (c.sys.guard e m) :=
  inferInstanceAs (Decidable (c.guard e m))

instance (a e : Event) : Decidable (Sequenced a e) := inferInstanceAs (Decidable (_ ∨ _ ∨ _))

def preds (c : Setup) (e : Event) : List Event :=
  (c.program.preds c.statements e).filter fun a => Sequenced a e

theorem mem_preds_iff (h : c.Orderly) (a e : Event) : a ∈ c.preds e ↔ c.sys.pre a e := by
  have hall : ∀ a, c.program.event a → a ∈ c.statements := fun _ => mem_statements h
  rw [preds, List.mem_filter, Program.mem_preds hall, decide_eq_true_iff]
  rfl

end Listed

end Setup

def flagsThenBarrier : Setup where
  peSize := 2
  blockSize := 64
  sdmaEnabled := false
  calls := [.alltoall 4 1 (-1), .fcollect]
  data k p q := 100 * k + 10 * p + q
  pes_pos := Nat.two_pos
  block_pos := IpcAlltoallv.wave_pos

theorem flagsThenBarrier_orderly : flagsThenBarrier.Orderly where
  agreed := by decide
  single _ _ _ := .inr (by decide)

theorem flags_then_barrier_kept :
    ∃ X m, flagsThenBarrier.sys.Run flagsThenBarrier.Settled (fun _ => 0) X m ∧
      flagsThenBarrier.Kept X m ∧ leave 0 1 ∈ X ∧ m (.dst 1 0 1) = 110 := by
  have hinit : Setup.Zeroed fun _ => 0 := fun _ _ => rfl
  obtain ⟨m, hrun⟩ := Setup.run_complete flagsThenBarrier_orderly hinit
  have hkept := Setup.settled_kept flagsThenBarrier flagsThenBarrier_orderly hinit hrun
  have hleave : leave 0 1 ∈ {e | flagsThenBarrier.Occurs e} := ⟨by decide, by decide⟩
  have hcarries : flagsThenBarrier.Carries 1 1 0 := ⟨⟨by decide, by decide⟩, .inr rfl⟩
  exact ⟨_, m, hrun, hkept, hleave, hkept.returned 0 1 hleave 1 hcarries⟩

def overwriting : List Event :=
  [enter 0 0, enter 1 0, put 0 0 0 0, put 1 0 1 0, put 0 1 0 0, put 1 1 1 0, add 0 0 0 0,
    add 1 0 1 0, add 0 1 0 0, add 1 1 1 0, wait 0 1 0 0, reset 0 1 0 0, wait 1 1 1 0, reset 1 1 1 0,
    leave 1 0, enter 1 1, block 1 0 1, block 1 1 1, arrive 1 1, wait 0 0 0 0, reset 0 0 0 0,
    wait 1 0 1 0, reset 1 0 1 0, leave 0 0, enter 0 1, block 0 0 1, block 0 1 1]

theorem overwriting_replay : flagsThenBarrier.sys.replay flagsThenBarrier.preds overwriting []
    (fun _ => 0) = some overwriting.reverse := by
  decide +kernel

theorem overwriting_stuck : ∀ e ∈ flagsThenBarrier.statements, flagsThenBarrier.Occurs e →
    e ∉ overwriting.reverse → (∀ a ∈ flagsThenBarrier.preds e, a ∈ overwriting.reverse) →
    ¬ flagsThenBarrier.guard e (flagsThenBarrier.sys.memoryAfter overwriting fun _ => 0) := by
  decide +kernel

/-- The arrival is lost and both members wait for ever in the fcollect. -/
theorem arrival_overwrites_flag :
    ∃ X m, flagsThenBarrier.sys.Run anyStep (fun _ => 0) X m ∧ arrive 1 1 ∈ X ∧
      enter 0 1 ∈ X ∧ collect 1 1 ∉ X ∧ m (.word 0 1) = 0 ∧
      ∀ e, flagsThenBarrier.Occurs e → e ∉ X → flagsThenBarrier.sys.Ready X e →
        ¬ flagsThenBarrier.guard e m := by
  have hpreds := Setup.mem_preds_iff flagsThenBarrier_orderly
  have hrun : flagsThenBarrier.sys.Run anyStep (fun _ => 0) {a | a ∈ overwriting.reverse}
      (flagsThenBarrier.sys.memoryAfter overwriting fun _ => 0) :=
    System.run_after_trace (fun a e => (hpreds a e).mpr) (fun _ _ _ _ => trivial) overwriting_replay
  refine ⟨_, _, hrun, ?_, ?_, ?_, by decide +kernel, ?_⟩
  · show _ ∈ overwriting.reverse
    decide
  · show _ ∈ overwriting.reverse
    decide
  · show _ ∉ overwriting.reverse
    decide
  · intro e he hX hr
    apply overwriting_stuck e (Setup.mem_statements flagsThenBarrier_orderly he) he hX
    intro a ha
    exact hr a ((hpreds a e).mp ha)

end IpcAlltoallSync
