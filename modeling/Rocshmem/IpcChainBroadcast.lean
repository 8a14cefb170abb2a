import Rocshmem.MachineInts
import Rocshmem.SessionWords

/-! The IPC `internal_broadcastmem_wg_das`, call after call on one `bcast_pSync` array. A small
message is put to all members by the root, then `internal_sync_wg` runs on the words from 0. A
large one is cut into chunks that go along a chain: word 0 of a member tells how many chunks it
has, `internal_sync_wg` runs on the words from 1, and every member then clears its word 0.
Stores of one member to another arrive in order. -/
namespace IpcChainBroadcast

open MatchedPrograms MachineInts SessionWords

structure Call where
  rootRank : ℕ
  nelems : ℕ

structure Setup where
  peSize : ℕ
  calls : List Call
  message : ℕ → ℕ → ℤ
  pes_pos : 0 < peSize
  roots : ∀ a ∈ calls, a.rootRank < peSize
  sizes : ∀ a ∈ calls, a.nelems < 2 ^ 31

/-- The statements of the member of rank `i` in call `k`; `j` is the receiver of a put and `g` a
chunk. A message that is not cut is one chunk. `fetch` is the `getmem_wg` of the root, `forward`
the put of a chunk and `ready` that of the progress word; `await` waits for it and `reset` clears
it. The others are those of the barrier: `arrive`, and `released` and `clear` after it;
at the first member `collect` and `drop` for each arrival, or `gather` and `wipe` for the counter,
then `release`. -/
inductive Event where
  | enter (i k : ℕ)
  | fetch (k g : ℕ)
  | await (i k g : ℕ)
  | forward (i j k g : ℕ)
  | ready (i j k g : ℕ)
  | arrive (i k : ℕ)
  | collect (i k : ℕ)
  | drop (i k : ℕ)
  | gather (k : ℕ)
  | wipe (k : ℕ)
  | release (i k : ℕ)
  | released (i k : ℕ)
  | clear (i k : ℕ)
  | reset (i k : ℕ)
  | leave (i k : ℕ)
  deriving DecidableEq

open Event

inductive Cell where
  | word (i w : ℕ)
  | dst (k i g : ℕ)
  deriving DecidableEq

def directMaxBytes : ℕ := 8 * 1024

def chunkNelems : ℕ := 262144

namespace Setup

variable (c : Setup)

def call (k : ℕ) : Call := c.calls.getD k ⟨0, 0⟩

def root (k : ℕ) : ℕ := (c.call k).rootRank

def chain (k : ℕ) : Bool := !(c.peSize ≤ 2 || (c.call k).nelems ≤ directMaxBytes)

def numChunks (k : ℕ) : ℤ :=
  (toInt ((c.call k).nelems + chunkNelems - 1)).tdiv chunkNelems

def InLoop (k g : ℕ) : Prop := if c.chain k then (g : ℤ) < c.numChunks k else g = 0

def virtualRank (k i : ℕ) : ℕ := if i < c.root k then i + c.peSize - c.root k else i - c.root k

def next (k i : ℕ) : Option ℕ :=
  if c.virtualRank k i + 1 < c.peSize then
    some (if c.peSize ≤ c.virtualRank k i + 1 + c.root k
      then c.virtualRank k i + 1 + c.root k - c.peSize else c.virtualRank k i + 1 + c.root k)
  else none

def syncBase (k : ℕ) : ℕ := if c.chain k then 1 else 0

def direct : Bool := c.peSize < 64

def Member (i : ℕ) : Prop := 0 < i ∧ i < c.peSize

def Sends (i j k : ℕ) : Prop :=
  if c.chain k then i < c.peSize ∧ c.next k i = some j else i = c.root k ∧ j < c.peSize

def Occurs : Event → Prop
  | enter i k | leave i k => i < c.peSize ∧ k < c.calls.length
  | fetch k g => k < c.calls.length ∧ c.chain k = true ∧ c.InLoop k g
  | await i k g =>
    i < c.peSize ∧ k < c.calls.length ∧ c.chain k = true ∧ c.InLoop k g ∧ 0 < c.virtualRank k i
  | forward i j k g => k < c.calls.length ∧ c.InLoop k g ∧ c.Sends i j k
  | ready i j k g => k < c.calls.length ∧ c.chain k = true ∧ c.InLoop k g ∧ c.Sends i j k
  | arrive i k | release i k | released i k | clear i k => c.Member i ∧ k < c.calls.length
  | collect i k | drop i k => c.direct = true ∧ c.Member i ∧ k < c.calls.length
  | gather k | wipe k => c.direct = false ∧ k < c.calls.length
  | reset i k => i < c.peSize ∧ k < c.calls.length ∧ c.chain k = true

def pe : Event → ℕ
  | enter i _ | await i _ _ | forward i _ _ _ | ready i _ _ _ | arrive i _ | released i _
  | clear i _ | reset i _ | leave i _ => i
  | fetch k _ => c.root k
  | collect _ _ | drop _ _ | gather _ | wipe _ | release _ _ => 0

def point : Event → ℕ ×ₗ ℕ ×ₗ ℕ
  | enter _ k => toLex (k, toLex (0, 0))
  | fetch k _ => toLex (k, toLex (1, 0))
  | await i k g => toLex (k, toLex (2, 3 * (g + c.virtualRank k i)))
  | forward i _ k g => toLex (k, toLex (2, 3 * (g + c.virtualRank k i) + 1))
  | ready i _ k g => toLex (k, toLex (2, 3 * (g + c.virtualRank k i) + 2))
  | arrive _ k => toLex (k, toLex (3, 0))
  | collect i k => toLex (k, toLex (4, 2 * i))
  | drop i k => toLex (k, toLex (4, 2 * i + 1))
  | gather k => toLex (k, toLex (4, 0))
  | wipe k => toLex (k, toLex (4, 1))
  | release i k => toLex (k, toLex (5, i))
  | released _ k => toLex (k, toLex (6, 0))
  | clear _ k => toLex (k, toLex (7, 0))
  | reset _ k => toLex (k, toLex (8, 0))
  | leave _ k => toLex (k, toLex (9, 0))

def mode : Event → Mode ℕ
  | forward i j _ _ => if i = j then .blocking else .ordered j
  | ready _ j _ _ => .ordered j
  | arrive _ _ => .ordered 0
  | release i _ => .ordered i
  | _ => .blocking

def guard : Event → (Cell → ℤ) → Prop
  | await i _ g, m => (g : ℤ) + 1 ≤ m (.word i 0)
  | collect i k, m => m (.word 0 (c.syncBase k + i)) = 1
  | gather k, m => m (.word 0 (c.syncBase k)) = c.peSize - 1
  | released i k, m => m (.word i (c.syncBase k)) = 1
  | _, _ => True

def action : Event → Effect Cell ℤ
  | fetch k g => .store (.dst k (c.root k) g) fun _ => c.message k g
  | forward i j k g => .store (.dst k j g) fun m =>
      if i = c.root k then c.message k g else m (.dst k i g)
  | ready _ j _ g => .store (.word j 0) fun _ => (g : ℤ) + 1
  | arrive i k =>
    if c.direct then .store (.word 0 (c.syncBase k + i)) fun _ => 1
    else .add (.word 0 (c.syncBase k)) 1
  | drop i k => .store (.word 0 (c.syncBase k + i)) fun _ => 0
  | wipe k => .store (.word 0 (c.syncBase k)) fun _ => 0
  | release i k => .store (.word i (c.syncBase k)) fun _ => 1
  | clear i k => .store (.word i (c.syncBase k)) fun _ => 0
  | reset i _ => .store (.word i 0) fun _ => 0
  | enter _ _ | await _ _ _ | collect _ _ | gather _ | released _ _ | leave _ _ => .skip

def program : Program Event ℕ (ℕ ×ₗ ℕ ×ₗ ℕ) ℕ Cell ℤ where
  event := c.Occurs
  pe := c.pe
  point := c.point
  mode := mode
  guard := c.guard
  action := c.action

def sys : System Event Cell ℤ := c.program.system

def Meant : Event → Event → Prop
  | await i k g, a => ∃ j, c.Occurs (ready j i k g) ∧ a = ready j i k g
  | collect i k, a => c.Occurs (collect i k) ∧ a = arrive i k
  | gather k, a => ∃ i, c.Occurs (gather k) ∧ c.Member i ∧ a = arrive i k
  | released i k, a => c.Occurs (released i k) ∧ a = release i k
  | _, _ => False

def Owed : Event → Event → Prop
  | ready i j k g, a => c.Occurs (ready i j k g) ∧ ∃ k' < k, a = leave j k'
  | arrive i k, a => c.Occurs (arrive i k) ∧ c.chain k = false ∧
      ((c.direct = false ∧ ∃ k', k = k' + 1 ∧ c.chain k' = true ∧ a = leave 0 k') ∨
        (i = c.root k ∧ ∃ j < c.peSize, a = forward i j k 0))
  | _, _ => False

def Settled (X : Set Event) (_ : Cell → ℤ) (e : Event) : Prop := ∀ a, c.Owed e a → a ∈ X

def value : Event → ℤ
  | fetch k g | forward _ _ k g => c.message k g
  | ready _ _ _ g => (g : ℤ) + 1
  | arrive _ _ | release _ _ => 1
  | _ => 0

def certificate : Certificate Event ℤ := ⟨fun e a => c.Meant e a ∨ c.Owed e a, c.value⟩

def Zeroed (init : Cell → ℤ) : Prop := ∀ i w, init (.word i w) = 0

def InInt : Prop := 2 < c.peSize → ∀ a ∈ c.calls, a.nelems + chunkNelems ≤ 2 ^ 31

def InMessage (k g : ℕ) : Prop :=
  if c.chain k then g * chunkNelems < (c.call k).nelems else g = 0

abbrev Prior (a e : Event) : Prop := Before c.sys c.certificate a e

variable {c} {i j k k' g g' o w : ℕ} {a e : Event}

section Ranks

theorem root_lt (hk : k < c.calls.length) : c.root k < c.peSize := by
  apply c.roots
  grind [call]

theorem chain_size (h : c.chain k = true) : 2 < c.peSize := by
  simp only [chain, Bool.not_eq_true', Bool.or_eq_false_iff, decide_eq_false_iff_not] at h
  omega

section

variable (hr : c.root k < c.peSize)
include hr

theorem virtualRank_spec :
    (i < c.root k ∧ c.virtualRank k i + c.root k = i + c.peSize) ∨
    (c.root k ≤ i ∧ c.virtualRank k i + c.root k = i) := by
  unfold virtualRank
  split <;> omega

theorem next_spec (h : c.next k i = some j) :
    j < c.peSize ∧ c.virtualRank k j = c.virtualRank k i + 1 := by
  grind [next, virtualRank]

theorem exists_next (hi : i < c.peSize) (hv : 0 < c.virtualRank k i) :
    ∃ j < c.peSize, c.next k j = some i := by
  have hvi := virtualRank_spec (i := i) hr
  obtain ⟨j, hj, hprev⟩ : ∃ j < c.peSize, i = j + 1 ∨ (i = 0 ∧ j + 1 = c.peSize) := by
    by_cases h : i = 0
    · exact ⟨c.peSize - 1, by omega, by omega⟩
    · exact ⟨i - 1, by omega, by omega⟩
  have hvj := virtualRank_spec (i := j) hr
  refine ⟨j, hj, ?_⟩
  rw [next, if_pos (by omega)]
  congr 1
  split <;> omega

theorem virtualRank_inj (hi : i < c.peSize) (hj : j < c.peSize)
    (h : c.virtualRank k i = c.virtualRank k j) : i = j := by
  have hvi := virtualRank_spec (i := i) hr
  have hvj := virtualRank_spec (i := j) hr
  omega

theorem virtualRank_eq_zero : c.virtualRank k i = 0 ↔ i = c.root k := by
  have hvi := virtualRank_spec (i := i) hr
  omega

end

section

variable (hk : k < c.calls.length)
include hk

theorem exists_sender (hch : c.chain k = true) (hi : i < c.peSize) (hv : 0 < c.virtualRank k i) :
    ∃ j, c.Sends j i k := by
  obtain ⟨j, hj, hnext⟩ := exists_next (root_lt hk) hi hv
  refine ⟨j, ?_⟩
  rw [Sends, if_pos hch]
  exact ⟨hj, hnext⟩

theorem sends_lt (h : c.Sends i j k) : i < c.peSize ∧ j < c.peSize := by
  have hr := root_lt hk
  grind [Sends, next]

theorem sends_rank (hch : c.chain k = true) (h : c.Sends i j k) :
    c.virtualRank k j = c.virtualRank k i + 1 := by
  rw [Sends, if_pos hch] at h
  exact (next_spec (root_lt hk) h.2).2

theorem sends_unique (h : c.Sends i o k) (h' : c.Sends j o k) : i = j := by
  grind [Sends, next, root_lt, next_spec, virtualRank_inj]

end

end Ranks

section Order

theorem waits_forward (h : c.certificate.waitsFor e a) : c.program.point a < c.program.point e := by
  rcases h with hm | ho
  · cases e with
    | await i k g =>
      obtain ⟨j, ⟨hk, hch, -, hs⟩, rfl⟩ := hm
      have hrank := sends_rank hk hch hs
      exact point_lt_of_third (by omega)
    | collect i k | released i k =>
      obtain ⟨-, rfl⟩ := hm
      exact point_lt_of_snd (by decide)
    | gather k =>
      obtain ⟨i, -, -, rfl⟩ := hm
      exact point_lt_of_snd (by decide)
    | _ => exact hm.elim
  · cases e with
    | ready i j k g =>
      obtain ⟨-, k', hk', rfl⟩ := ho
      exact point_lt_of_fst hk'
    | arrive i k =>
      obtain ⟨-, -, ⟨-, k', rfl, -, rfl⟩ | ⟨rfl, j, -, rfl⟩⟩ := ho
      · exact point_lt_of_fst (Nat.lt_succ_self k')
      · exact point_lt_of_snd (by decide)
    | _ => exact ho.elim

theorem acyclic (c : Setup) : WellFounded (Depends c.sys c.certificate) :=
  c.program.acyclic fun _ _ => waits_forward

theorem prior_of_blocking (ha : c.Occurs a) (hpe : c.pe a = c.pe e) (hpt : c.point a < c.point e)
    (hm : mode a = .blocking) : c.Prior a e :=
  before_of_pre (Program.pre_of_blocking ha hpe hpt hm)

theorem ready_await (h : c.Occurs (ready j i k g)) : c.Prior (ready j i k g) (await i k g) :=
  before_of_waits (.inl ⟨j, h, rfl⟩)

theorem forward_ready (hch : c.chain k = true) (h : c.Occurs (forward i j k g)) :
    c.Prior (forward i j k g) (ready i j k g) := by
  have hrank := sends_rank h.1 hch h.2.2
  have hne : i ≠ j := by
    rintro rfl
    omega
  refine before_of_pre ⟨h, rfl, point_lt_of_third (by omega), ?_⟩
  change (mode (forward i j k g)).Precedes (.ordered j)
  rw [mode, if_neg hne]
  rfl

theorem ready_ready (h : c.Occurs (ready i j k g)) (hg : g < g') :
    c.Prior (ready i j k g) (ready i j k g') :=
  before_of_pre ⟨h, rfl, point_lt_of_third (by omega), rfl⟩

section Barrier

variable (hk : k < c.calls.length)
include hk

theorem arrive_collect (hd : c.direct = true) (hi : c.Member i) :
    c.Prior (arrive i k) (collect i k) :=
  before_of_waits (.inl ⟨⟨hd, hi, hk⟩, rfl⟩)

theorem arrive_gather (hd : c.direct = false) (hi : c.Member i) : c.Prior (arrive i k) (gather k) :=
  before_of_waits (.inl ⟨i, ⟨hd, hk⟩, hi, rfl⟩)

theorem release_released (hi : c.Member i) : c.Prior (release i k) (released i k) :=
  before_of_waits (.inl ⟨⟨hi, hk⟩, rfl⟩)

theorem arrive_release (hi : c.Member i) : c.Prior (arrive i k) (release j k) := by
  by_cases hd : c.direct = true
  · exact (arrive_collect hk hd hi).trans
      (prior_of_blocking ⟨hd, hi, hk⟩ rfl (point_lt_of_snd (by decide)) rfl)
  · rw [Bool.not_eq_true] at hd
    exact (arrive_gather hk hd hi).trans
      (prior_of_blocking ⟨hd, hk⟩ rfl (point_lt_of_snd (by decide)) rfl)

theorem release_later (hi : c.Member i) (hpe : c.pe e = i)
    (hpt : toLex (k, toLex (6, 0)) < c.point e) : c.Prior (release i k) e :=
  (release_released hk hi).trans (prior_of_blocking ⟨hi, hk⟩ hpe.symm hpt rfl)

theorem before_release (ha : c.Occurs a) (hi : c.Member (c.pe a)) (hm : mode a = .blocking)
    (hpt : c.point a < toLex (k, toLex (3, 0))) : c.Prior a (release j k) :=
  (prior_of_blocking (e := arrive (c.pe a) k) ha rfl hpt hm).trans (arrive_release hk hi)

end Barrier

end Order

/-! The words. Each is used for one purpose in a call, and its owner has cleared it when it
leaves the call. -/

inductive Uses (c : Setup) (o w k : ℕ) : Prop
  | progress (hch : c.chain k = true) (ho : o < c.peSize) (hw : w = 0)
  | released (ho : c.Member o) (hw : w = c.syncBase k)
  | arrived (i : ℕ) (hd : c.direct = true) (hi : c.Member i) (ho : o = 0)
      (hw : w = c.syncBase k + i)
  | counted (hd : c.direct = false) (ho : o = 0) (hw : w = c.syncBase k)

def used (c : Setup) (o w k : ℕ) : Prop := k < c.calls.length ∧ Uses c o w k

def signal (c : Setup) (o w k : ℕ) : Event → Prop
  | ready _ j k' _ => j = o ∧ w = 0 ∧ k' = k
  | release i k' => i = o ∧ w = c.syncBase k ∧ k' = k
  | arrive i k' => o = 0 ∧ w = (if c.direct then c.syncBase k + i else c.syncBase k) ∧ k' = k
  | _ => False

def closer (c : Setup) (o w k : ℕ) : Event :=
  if c.chain k ∧ w = 0 then reset o k
  else if 0 < o then clear o k
  else if c.direct then drop (w - c.syncBase k) k
  else wipe k

theorem syncBase_chain (h : c.chain k = true) : c.syncBase k = 1 := if_pos h

theorem closer_progress (h : c.chain k = true) : closer c o 0 k = reset o k := if_pos ⟨h, rfl⟩

theorem not_progress (h : c.syncBase k ≤ w) : ¬ (c.chain k ∧ w = 0) := by
  intro ⟨hch, hw⟩
  rw [syncBase_chain hch] at h
  omega

theorem closer_released (ho : 0 < o) : closer c o (c.syncBase k) k = clear o k := by
  rw [closer, if_neg (not_progress (Nat.le_refl _)), if_pos ho]

theorem closer_arrived (hd : c.direct = true) : closer c 0 (c.syncBase k + i) k = drop i k := by
  grind [syncBase, closer]

theorem closer_counted (hd : c.direct = false) : closer c 0 (c.syncBase k) k = wipe k := by
  rw [closer, if_neg (not_progress (Nat.le_refl _)), if_neg (Nat.lt_irrefl 0), hd]
  rfl

theorem closer_spec (h : used c o w k) :
    c.Occurs (closer c o w k) ∧ c.pe (closer c o w k) = o ∧ mode (closer c o w k) = .blocking ∧
      toLex (k, toLex (3, 0)) < c.point (closer c o w k) ∧
      c.point (closer c o w k) < toLex (k, toLex (9, 0)) ∧
      c.sys.StoresTo (.word o w) (closer c o w k) ∧ c.certificate.val (closer c o w k) = 0 := by
  obtain ⟨hk, hu⟩ := h
  cases hu with
  | progress hch ho hw =>
    rw [hw, closer_progress hch]
    exact ⟨⟨ho, hk, hch⟩, rfl, rfl, point_lt_of_snd (by decide), point_lt_of_snd (by decide),
      ⟨_, rfl⟩, rfl⟩
  | released ho hw =>
    rw [hw, closer_released ho.1]
    exact ⟨⟨ho, hk⟩, rfl, rfl, point_lt_of_snd (by decide), point_lt_of_snd (by decide),
      ⟨_, rfl⟩, rfl⟩
  | arrived i hd hi ho hw =>
    rw [ho, hw, closer_arrived hd]
    exact ⟨⟨hd, hi, hk⟩, rfl, rfl, point_lt_of_snd (by decide), point_lt_of_snd (by decide),
      ⟨_, rfl⟩, rfl⟩
  | counted hd ho hw =>
    rw [ho, hw, closer_counted hd]
    exact ⟨⟨hd, hk⟩, rfl, rfl, point_lt_of_snd (by decide), point_lt_of_snd (by decide),
      ⟨_, rfl⟩, rfl⟩

theorem closer_leave (h : used c o w k) (hpt : toLex (k, toLex (9, 0)) ≤ c.point e)
    (hpe : c.pe e = o) : c.Prior (closer c o w k) e := by
  grind [prior_of_blocking, closer_spec]

theorem await_occurs (h : c.Occurs (ready j i k g)) : c.Occurs (await i k g) := by
  obtain ⟨hk, hch, hg, hs⟩ := h
  have hrank := sends_rank hk hch hs
  exact ⟨(sends_lt hk hs).2, hk, hch, hg, by omega⟩

theorem signal_closer (he : c.Occurs e) (hs : signal c o w k e) : c.Prior e (closer c o w k) := by
  cases e with
  | ready i j k' g =>
    obtain ⟨rfl, rfl, rfl⟩ := hs
    rw [closer_progress he.2.1]
    exact (ready_await he).trans
      (prior_of_blocking (await_occurs he) rfl (point_lt_of_snd (by decide)) rfl)
  | release i k' =>
    obtain ⟨rfl, rfl, rfl⟩ := hs
    rw [closer_released he.1.1]
    exact release_later he.2 he.1 rfl (point_lt_of_snd (by decide))
  | arrive i k' =>
    obtain ⟨rfl, rfl, rfl⟩ := hs
    obtain ⟨hi, hk⟩ := he
    split
    · next hd =>
      rw [closer_arrived hd]
      exact (arrive_collect hk hd hi).trans
        (prior_of_blocking ⟨hd, hi, hk⟩ rfl (point_lt_of_third (by omega)) rfl)
    · next hd =>
      rw [Bool.not_eq_true] at hd
      rw [closer_counted hd]
      exact (arrive_gather hk hd hi).trans
        (prior_of_blocking ⟨hd, hk⟩ rfl (point_lt_of_third (by decide)) rfl)
  | _ => exact hs.elim

theorem leave_arrive (hd : c.direct = false) (hch : c.chain k = true) (hch' : c.chain k' = false)
    (hlt : k < k') (hi : c.Member i) (hk' : k' < c.calls.length) :
    c.Prior (leave 0 k) (arrive i k') := by
  obtain ⟨p, rfl⟩ : ∃ p, k' = p + 1 := ⟨k' - 1, by omega⟩
  have hk : c.Occurs (leave 0 k) := ⟨c.pes_pos, by omega⟩
  by_cases hp : c.chain p = true
  · have howed : c.Prior (leave 0 p) (arrive i (p + 1)) :=
      before_of_waits (.inr ⟨⟨hi, hk'⟩, hch', .inl ⟨hd, p, rfl, hp, rfl⟩⟩)
    rcases Nat.lt_or_eq_of_le (Nat.le_of_lt_succ hlt) with h | rfl
    · have hnext : c.Prior (leave 0 k) (leave 0 p) :=
        prior_of_blocking hk rfl (point_lt_of_fst h) rfl
      exact hnext.trans howed
    · exact howed
  · have hne : k ≠ p := fun h => hp (h ▸ hch)
    have hrel : c.Prior (leave 0 k) (release i p) :=
      prior_of_blocking hk rfl (point_lt_of_fst (by omega)) rfl
    exact hrel.trans (release_later (by omega) hi rfl (point_lt_of_fst (Nat.lt_succ_self p)))

theorem closer_arrive (h : used c 0 w k) (hlt : k < k') (he : c.Occurs (arrive i k'))
    (hw : w = if c.direct then c.syncBase k' + i else c.syncBase k') :
    c.Prior (closer c 0 w k) (arrive i k') := by
  obtain ⟨hi, hk'⟩ := he
  obtain ⟨hk, hu⟩ := h
  have hreleased : c.Prior (release i k) (arrive i k') :=
    release_later hk hi rfl (point_lt_of_fst hlt)
  cases hu with
  | progress hch ho hzero =>
    -- only a counter can be at word 0
    have hi0 := hi.1
    split at hw
    · omega
    · next hd =>
      rw [Bool.not_eq_true] at hd
      have hch' : c.chain k' = false := by
        grind [syncBase_chain]
      have hleave : c.Prior (closer c 0 w k) (leave 0 k) :=
        closer_leave ⟨hk, .progress hch ho hzero⟩ (le_refl _) rfl
      exact hleave.trans (leave_arrive hd hch hch' hlt hi hk')
  | released ho _ => exact absurd ho.1 (Nat.lt_irrefl 0)
  | arrived i' hd hi' _ hw' =>
    rw [hw', closer_arrived hd]
    have hdrop : c.Prior (drop i' k) (release i k) :=
      prior_of_blocking ⟨hd, hi', hk⟩ rfl (point_lt_of_snd (by decide)) rfl
    exact hdrop.trans hreleased
  | counted hd _ hw' =>
    rw [hw', closer_counted hd]
    have hwipe : c.Prior (wipe k) (release i k) :=
      prior_of_blocking ⟨hd, hk⟩ rfl (point_lt_of_snd (by decide)) rfl
    exact hwipe.trans hreleased

theorem closer_signal (h : used c o w k) (hlt : k < k') (he : c.Occurs e)
    (hs : signal c o w k' e) : c.Prior (closer c o w k) e := by
  cases e with
  | ready i j k'' g =>
    obtain ⟨rfl, -, rfl⟩ := hs
    have hleave : c.Prior (closer c j w k) (leave j k) := closer_leave h (le_refl _) rfl
    exact hleave.trans (before_of_waits (.inr ⟨he, k, hlt, rfl⟩))
  | release i k'' =>
    obtain ⟨rfl, -, rfl⟩ := hs
    obtain ⟨hev, hown, hm, -, hpt, -⟩ := closer_spec h
    exact before_release he.2 hev (hown.symm ▸ he.1) hm (hpt.trans (point_lt_of_fst hlt))
  | arrive i k'' =>
    obtain ⟨rfl, hw, rfl⟩ := hs
    exact closer_arrive h hlt he hw
  | _ => exact hs.elim

theorem closer_closer (h : used c o w k) (h' : used c o w k') (hlt : k < k') :
    c.Prior (closer c o w k) (closer c o w k') := by
  obtain ⟨-, hown, -, hpt, -⟩ := closer_spec h'
  exact closer_leave h ((point_lt_of_fst hlt).trans hpt).le hown

theorem action_arrive_direct (hd : c.direct = true) :
    c.sys.action (arrive i k) = .store (.word 0 (c.syncBase k + i)) fun _ => 1 := if_pos hd

theorem action_arrive_atomic (hd : c.direct = false) :
    c.sys.action (arrive i k) = .add (.word 0 (c.syncBase k)) 1 :=
  if_neg (Bool.not_eq_true _ ▸ hd)

theorem writer (he : c.Occurs e) (hw : c.sys.Writes (.word o w) e) :
    ∃ k, used c o w k ∧ (signal c o w k e ∨ e = closer c o w k) := by
  have htarget := hw.target
  cases e with
  | ready i j k g =>
    cases htarget
    exact ⟨k, ⟨he.1, .progress he.2.1 (sends_lt he.1 he.2.2.2).2 rfl⟩, .inl ⟨rfl, rfl, rfl⟩⟩
  | arrive i k =>
    obtain ⟨hi, hk⟩ := he
    cases hd : c.direct with
    | true =>
      rw [action_arrive_direct hd] at htarget
      cases htarget
      exact ⟨k, ⟨hk, .arrived i hd hi rfl rfl⟩, .inl ⟨rfl, (if_pos hd).symm, rfl⟩⟩
    | false =>
      rw [action_arrive_atomic hd] at htarget
      cases htarget
      exact ⟨k, ⟨hk, .counted hd rfl rfl⟩, .inl ⟨rfl, by rw [hd]; rfl, rfl⟩⟩
  | drop i k =>
    cases htarget
    exact ⟨k, ⟨he.2.2, .arrived i he.1 he.2.1 rfl rfl⟩, .inr (closer_arrived he.1).symm⟩
  | wipe k =>
    cases htarget
    exact ⟨k, ⟨he.2, .counted he.1 rfl rfl⟩, .inr (closer_counted he.1).symm⟩
  | release i k =>
    cases htarget
    exact ⟨k, ⟨he.2, .released he.1 rfl⟩, .inl ⟨rfl, rfl, rfl⟩⟩
  | clear i k =>
    cases htarget
    exact ⟨k, ⟨he.2, .released he.1 rfl⟩, .inr (closer_released he.1.1).symm⟩
  | reset i k =>
    cases htarget
    exact ⟨k, ⟨he.2.1, .progress he.2.2 he.1 rfl⟩, .inr (closer_progress he.2.2).symm⟩
  | _ => cases htarget

theorem sessions (c : Setup) (o w : ℕ) :
    Sessions c.sys c.certificate (.word o w) (used c o w) (signal c o w) (closer c o w) where
  acyclic := acyclic c
  writer := writer
  closes h := (closer_spec h).2.2.2.2.2
  signal_closer _ := signal_closer
  closer_signal h _ := closer_signal h
  closer_closer := closer_closer

theorem signal_progress (hch : c.chain k = true) (hs : signal c o 0 k a) :
    ∃ j g, a = ready j o k g := by
  have hbase := syncBase_chain hch
  cases a with
  | ready i j k' g =>
    obtain ⟨rfl, -, rfl⟩ := hs
    exact ⟨i, g, rfl⟩
  | release i k' =>
    have hw := hs.2.1
    omega
  | arrive i k' =>
    have hw := hs.2.1
    split at hw <;> omega
  | _ => exact hs.elim

theorem signal_released (ho : c.Member o) (ha : c.Occurs a)
    (hs : signal c o (c.syncBase k) k a) : a = release o k := by
  cases a with
  | ready i j k' g =>
    obtain ⟨-, hw, rfl⟩ := hs
    have hbase := syncBase_chain ha.2.1
    omega
  | release i k' =>
    obtain ⟨rfl, -, rfl⟩ := hs
    rfl
  | arrive i k' => exact absurd hs.1 (Nat.ne_of_gt ho.1)
  | _ => exact hs.elim

theorem signal_first (hbase : c.syncBase k ≤ w) (ha : c.Occurs a) (hs : signal c 0 w k a) :
    ∃ i, a = arrive i k ∧ c.Member i ∧ w = if c.direct then c.syncBase k + i else c.syncBase k := by
  cases a with
  | ready i j k' g =>
    obtain ⟨-, rfl, rfl⟩ := hs
    have hone := syncBase_chain ha.2.1
    omega
  | release i k' =>
    obtain ⟨rfl, -⟩ := hs
    exact absurd ha.1.1 (Nat.lt_irrefl 0)
  | arrive i k' =>
    obtain ⟨-, hw, rfl⟩ := hs
    exact ⟨i, rfl, ha.1, hw⟩
  | _ => exact hs.elim

theorem signals_ordered (he : c.Occurs e) (ha : c.Occurs a) (hs : signal c o w k e)
    (hs' : signal c o w k a) (hstore : c.sys.StoresTo (.word o w) e) :
    e = a ∨ c.Prior e a ∨ c.Prior a e := by
  cases e with
  | ready i j k' g =>
    obtain ⟨rfl, rfl, rfl⟩ := hs
    obtain ⟨i', g', rfl⟩ := signal_progress he.2.1 hs'
    obtain rfl := sends_unique he.1 he.2.2.2 ha.2.2.2
    grind [ready_ready]
  | release i k' =>
    obtain ⟨rfl, rfl, rfl⟩ := hs
    exact .inl (signal_released he.1 ha hs').symm
  | arrive i k' =>
    obtain ⟨rfl, rfl, rfl⟩ := hs
    cases hd : c.direct with
    | true =>
      rw [if_pos hd] at hs'
      obtain ⟨i', rfl, -, hw⟩ := signal_first (Nat.le_add_right _ _) ha hs'
      rw [if_pos hd] at hw
      obtain rfl : i = i' := by omega
      exact .inl rfl
    | false =>
      obtain ⟨f, hf⟩ := hstore
      rw [action_arrive_atomic hd] at hf
      cases hf
  | _ => exact hs.elim

theorem writer_dst (he : c.Occurs e) (hw : c.sys.Writes (.dst k i g) e) :
    (c.chain k = true ∧ i = c.root k ∧ e = fetch k g) ∨
    ∃ j, c.Sends j i k ∧ e = forward j i k g := by
  have htarget := hw.target
  cases e with
  | fetch k' g' =>
    cases htarget
    exact .inl ⟨he.2.1, rfl, rfl⟩
  | forward i' j' k' g' =>
    cases htarget
    exact .inr ⟨i', he.2.2, rfl⟩
  | arrive i' k' =>
    grind [System.Writes, System.StoresTo, System.AddsTo, action_arrive_direct,
      action_arrive_atomic]
  | _ => cases htarget

theorem not_sends_root (hk : k < c.calls.length) (hch : c.chain k = true) :
    ¬ c.Sends j (c.root k) k := by
  grind [Sends, next]

theorem dst_once (hk : k < c.calls.length) (he : c.Occurs e) (ha : c.Occurs a)
    (hw : c.sys.Writes (.dst k i g) e) (hw' : c.sys.Writes (.dst k i g) a) : e = a := by
  rcases writer_dst he hw with ⟨hch, rfl, rfl⟩ | ⟨j, hs, rfl⟩
  · grind [writer_dst, not_sends_root]
  · rcases writer_dst ha hw' with ⟨hch, rfl, rfl⟩ | ⟨j', hs', rfl⟩
    · exact absurd hs (not_sends_root hk hch)
    · rw [sends_unique hk hs hs']

section Waits

variable {init : Cell → ℤ} {X : Set Event} {m : Cell → ℤ}

theorem past (hr : c.sys.Ready X e) (hpe : c.pe e = o) (hpt : toLex (k, toLex (0, 0)) ≤ c.point e) :
    ∀ k' < k, used c o w k' → closer c o w k' ∈ X := by
  intro k' hlt hu
  obtain ⟨hev, hown, hm, -, hend, -⟩ := closer_spec hu
  apply hr
  exact Program.pre_of_blocking hev (hown.trans hpe.symm)
    ((hend.trans (point_lt_of_fst hlt)).trans_le hpt) hm

variable (hc : Consistent c.sys c.certificate init X m) (hinit : Zeroed init) (he : c.Occurs e)
  (hX : e ∉ X) (hr : c.sys.Ready X e)
include hc hinit

theorem await_iff (he : c.Occurs (await i k g)) (hX : await i k g ∉ X)
    (hr : c.sys.Ready X (await i k g)) :
    (g : ℤ) + 1 ≤ m (.word i 0) ↔ ∀ j, c.Occurs (ready j i k g) → ready j i k g ∈ X := by
  obtain ⟨hi, hk, hch, hg, hv⟩ := he
  have hu : used c i 0 k := ⟨hk, .progress hch hi rfl⟩
  have hwait : c.Prior (await i k g) (closer c i 0 k) := by
    rw [closer_progress hch]
    exact prior_of_blocking ⟨hi, hk, hch, hg, hv⟩ rfl (point_lt_of_snd (by decide)) rfl
  have hpast := past (w := 0) hr rfl (point_lt_of_snd Nat.two_pos).le
  have hnoadd : ∀ a, c.sys.event a → signal c i 0 k a → ¬ c.sys.AddsTo (.word i 0) a := by
    intro a _ hs ⟨v, hv⟩
    obtain ⟨j, g', rfl⟩ := signal_progress hch hs
    cases hv
  have hlast : ∀ {a}, a ∈ X → signal c i 0 k a →
      ∃ j g', a = ready j i k g' ∧ ∃ g'', ready j i k g'' ∈ X ∧ g' ≤ g'' ∧
        m (.word i 0) = (g'' : ℤ) + 1 := by
    intro a ha hs
    obtain ⟨j, g', rfl⟩ := signal_progress hch hs
    obtain ⟨b, hb, hsb, hval, hbefore⟩ :=
      (sessions c i 0).last_signal hc hu hwait hX hpast hnoadd ha hs ⟨_, rfl⟩
    obtain ⟨j', g'', rfl⟩ := signal_progress hch hsb
    have hev := hc.events _ ha
    have hev' := hc.events _ hb
    obtain rfl := sends_unique hk hev.2.2.2 hev'.2.2.2
    refine ⟨j, g', rfl, g'', hb, ?_, hval⟩
    by_contra hlt
    have heq := before_antisymm (acyclic c) hbefore (ready_ready hev' (Nat.lt_of_not_le hlt))
    obtain ⟨-, -, -, rfl⟩ := Event.ready.inj heq
    exact hlt (Nat.le_refl _)
  constructor
  · intro hle j hj
    obtain ⟨a, ha, hs⟩ := (sessions c i 0).signalled hc hu hwait hX hpast (hinit i 0) (by omega)
    obtain ⟨j', g', rfl, g'', hb, -, hval⟩ := hlast ha hs
    obtain rfl := sends_unique hk hj.2.2.2 (hc.events _ hb).2.2.2
    rcases Nat.lt_or_eq_of_le (show g ≤ g'' by omega) with hlt | rfl
    · exact ready_ready hj hlt X hc.closed hb
    · exact hb
  · intro hall
    obtain ⟨j, hsends⟩ := exists_sender hk hch hi hv
    obtain ⟨j', g', heq, g'', -, hle, hval⟩ := hlast (hall j ⟨hk, hch, hg, hsends⟩) ⟨rfl, rfl, rfl⟩
    obtain ⟨-, -, -, rfl⟩ := Event.ready.inj heq
    omega

theorem collect_iff (he : c.Occurs (collect i k)) (hX : collect i k ∉ X)
    (hr : c.sys.Ready X (collect i k)) : m (.word 0 (c.syncBase k + i)) = 1 ↔ arrive i k ∈ X := by
  obtain ⟨hd, hi, hk⟩ := he
  have hwait : c.Prior (collect i k) (closer c 0 (c.syncBase k + i) k) := by
    rw [closer_arrived hd]
    exact prior_of_blocking ⟨hd, hi, hk⟩ rfl (point_lt_of_third (by omega)) rfl
  have hu : used c 0 (c.syncBase k + i) k := ⟨hk, .arrived i hd hi rfl rfl⟩
  have hsig : signal c 0 (c.syncBase k + i) k (arrive i k) := ⟨rfl, (if_pos hd).symm, rfl⟩
  refine (sessions c 0 (c.syncBase k + i)).flagged hc hu hwait hX
    (past hr rfl (point_lt_of_snd (by decide)).le) (hinit _ _) ?_ hsig ⟨_, action_arrive_direct hd⟩
    one_ne_zero
  intro a ha hs
  obtain ⟨i', rfl, -, hw⟩ := signal_first (Nat.le_add_right _ _) ha hs
  rw [if_pos hd] at hw
  obtain rfl : i = i' := by omega
  rfl

theorem released_iff (he : c.Occurs (released i k)) (hX : released i k ∉ X)
    (hr : c.sys.Ready X (released i k)) : m (.word i (c.syncBase k)) = 1 ↔ release i k ∈ X := by
  obtain ⟨hi, hk⟩ := he
  have hwait : c.Prior (released i k) (closer c i (c.syncBase k) k) := by
    rw [closer_released hi.1]
    exact prior_of_blocking ⟨hi, hk⟩ rfl (point_lt_of_snd (by decide)) rfl
  exact (sessions c i (c.syncBase k)).flagged hc ⟨hk, .released hi rfl⟩ hwait hX
    (past hr rfl (point_lt_of_snd (by decide)).le) (hinit _ _) (fun a => signal_released hi)
    ⟨rfl, rfl, rfl⟩ ⟨_, rfl⟩ one_ne_zero

theorem gather_iff (he : c.Occurs (gather k)) (hX : gather k ∉ X) (hr : c.sys.Ready X (gather k)) :
    m (.word 0 (c.syncBase k)) = c.peSize - 1 ↔ ∀ i, c.Member i → arrive i k ∈ X := by
  obtain ⟨hd, hk⟩ := he
  have hwait : c.Prior (gather k) (closer c 0 (c.syncBase k) k) := by
    rw [closer_counted hd]
    exact prior_of_blocking ⟨hd, hk⟩ rfl (point_lt_of_third (by decide)) rfl
  refine (sessions c 0 (c.syncBase k)).counted_members hc ⟨hk, .counted hd rfl rfl⟩
    hwait hX (past hr rfl (point_lt_of_snd (by decide)).le) (hinit _ _) c.pes_pos
    (fun i j hij => (Event.arrive.inj hij).1) ?_ ?_
  · intro a ha
    constructor
    · intro hs
      obtain ⟨i, rfl, hi, -⟩ := signal_first (Nat.le_refl _) ha hs
      exact ⟨i, hi, rfl⟩
    · intro ⟨i, hi, heq⟩
      rw [heq]
      exact ⟨rfl, by rw [hd]; rfl, rfl⟩
  · intro a ha hs
    obtain ⟨i, rfl, -, -⟩ := signal_first (Nat.le_refl _) ha hs
    exact action_arrive_atomic hd

include he hX hr in
theorem guard_iff : c.guard e m ↔ ∀ a, c.Meant e a → a ∈ X := by
  cases e with
  | await i k g =>
    grind [guard, Meant, await_iff]
  | collect i k =>
    refine (collect_iff hc hinit he hX hr).trans ?_
    grind [Meant]
  | gather k =>
    grind [guard, Meant, gather_iff]
  | released i k =>
    refine (released_iff hc hinit he hX hr).trans ?_
    grind [Meant]
  | _ => exact ⟨fun _ a ha => ha.elim, fun _ => trivial⟩

end Waits

section Chunks

variable {init : Cell → ℤ} {X : Set Event} {m : Cell → ℤ}
  (hc : Consistent c.sys c.certificate init X m)

include hc

theorem chunk_eq (hk : k < c.calls.length) (he : e ∈ X) (hs : c.sys.StoresTo (.dst k i g) e)
    (hval : c.value e = c.message k g) : m (.dst k i g) = c.message k g := by
  rw [← hval]
  apply hc.read_once (acyclic c) he hs
  intro a ha hw
  exact dst_once hk ha (hc.events e he) hw (.inl hs)

theorem chunk_of_forward (h : forward j i k g ∈ X) : m (.dst k i g) = c.message k g :=
  chunk_eq hc (hc.events _ h).1 h ⟨_, rfl⟩ rfl

theorem chunk_of_await (he : c.Occurs (await i k g)) (h : await i k g ∈ X) :
    m (.dst k i g) = c.message k g := by
  obtain ⟨hi, hk, hch, hg, hv⟩ := he
  obtain ⟨j, hs⟩ := exists_sender hk hch hi hv
  have hready : c.Occurs (ready j i k g) := ⟨hk, hch, hg, hs⟩
  have hbefore := (forward_ready hch ⟨hk, hg, hs⟩).trans (ready_await hready)
  exact chunk_of_forward hc (hbefore X hc.closed h)

theorem chunk_of_ready (he : c.Occurs (forward i j k g)) (hi : i ≠ c.root k)
    (hr : c.sys.Ready X (forward i j k g)) : m (.dst k i g) = c.message k g := by
  obtain ⟨hk, hg, hs⟩ := he
  have hlt := (sends_lt hk hs).1
  have hch : c.chain k = true := by
    by_contra h
    rw [Sends, if_neg h] at hs
    exact hi hs.1
  have hv : c.virtualRank k i ≠ 0 := fun h => hi ((virtualRank_eq_zero (root_lt hk)).mp h)
  have hawait : c.Occurs (await i k g) := ⟨hlt, hk, hch, hg, Nat.pos_of_ne_zero hv⟩
  apply chunk_of_await hc hawait
  exact hr _ (Program.pre_of_blocking hawait rfl (point_lt_of_third (by omega)) rfl)

end Chunks

theorem owed_occurs (h : c.Owed e a) : c.Occurs a := by
  cases e with
  | ready i j k g =>
    obtain ⟨⟨hk, -, -, hs⟩, k', hlt, rfl⟩ := h
    exact ⟨(sends_lt hk hs).2, by omega⟩
  | arrive i k =>
    grind [Occurs, Owed, InLoop, Sends, direct]
  | _ => exact h.elim

theorem meant_occurs (h : c.Meant e a) : c.Occurs a := by
  cases e with
  | await i k g =>
    obtain ⟨j, hj, rfl⟩ := h
    exact hj
  | collect i k =>
    obtain ⟨he, rfl⟩ := h
    exact he.2
  | gather k =>
    obtain ⟨i, he, hi, rfl⟩ := h
    exact ⟨hi, he.2⟩
  | released i k =>
    obtain ⟨he, rfl⟩ := h
    exact he
  | _ => exact h.elim

section Runs

variable {init : Cell → ℤ} (hinit : Zeroed init)
include hinit

theorem sound : Sound c.sys c.certificate c.Settled init where
  acyclic := acyclic c
  ordered d e a he ha hs hw := by
    cases d with
    | word o w =>
      exact (sessions c o w).ordered (fun _ => signals_ordered) he ha hs hw
    | dst k i g =>
      have hk : k < c.calls.length := by
        rcases writer_dst he (.inl hs) with ⟨-, -, rfl⟩ | ⟨j, -, rfl⟩
        · exact he.1
        · exact he.1
      exact .inl (dst_once hk he ha (.inl hs) hw)
  matched X m e hc he hX hr hg hok a ha := by
    rcases ha with hm | ho
    · exact (guard_iff hc hinit he hX hr).mp hg a hm
    · exact hok a ho
  valued X m e d f hc he hX hr hw hact := by
    cases e with
    | forward i j k g =>
      cases hact
      show (if i = c.root k then c.message k g else m (.dst k i g)) = c.message k g
      split
      · rfl
      · next hi => exact chunk_of_ready hc he hi hr
    | arrive i k =>
      cases hd : c.direct with
      | true =>
        rw [action_arrive_direct hd] at hact
        cases hact
        rfl
      | false =>
        rw [action_arrive_atomic hd] at hact
        cases hact
    | enter _ _ | await _ _ _ | collect _ _ | gather _ | released _ _ | leave _ _ => cases hact
    | _ =>
      cases hact
      rfl

theorem live : Live c.sys c.certificate c.Settled init where
  pre_event _ _ h := h.1
  waits_event _ _ h := h.elim meant_occurs owed_occurs
  guarded X m e hc he hX hr hw := by
    constructor
    · exact (guard_iff hc hinit he hX hr).mpr fun a ha => hw a (.inl ha)
    · exact fun a ha => hw a (.inr ha)

end Runs

theorem inLoop_iff (hint : c.InInt) (hk : k < c.calls.length) : c.InLoop k g ↔ c.InMessage k g := by
  grind [InMessage, InInt, InLoop, chunkNelems, call, numChunks, chain_size, toInt_of_small]

section Return

variable (hk : k < c.calls.length) (hi : i < c.peSize)
include hk hi

theorem chain_leave (hch : c.chain k = true) (hg : c.InLoop k g) (hroot : i ≠ c.root k) :
    ∃ j, c.Prior (forward j i k g) (leave i k) := by
  have hv : c.virtualRank k i ≠ 0 := fun h => hroot ((virtualRank_eq_zero (root_lt hk)).mp h)
  have hawait : c.Occurs (await i k g) := ⟨hi, hk, hch, hg, Nat.pos_of_ne_zero hv⟩
  obtain ⟨j, hs⟩ := exists_sender hk hch hi (Nat.pos_of_ne_zero hv)
  have hleave : c.Prior (await i k g) (leave i k) :=
    prior_of_blocking hawait rfl (point_lt_of_snd (by decide)) rfl
  have hready : c.Occurs (ready j i k g) := ⟨hk, hch, hg, hs⟩
  exact ⟨j, (forward_ready hch ⟨hk, hg, hs⟩).trans ((ready_await hready).trans hleave)⟩

theorem arrive_leave (hj : c.Member j) : c.Prior (arrive j k) (leave i k) := by
  by_cases hfirst : i = 0
  · rw [hfirst]
    cases hd : c.direct with
    | true =>
      exact (arrive_collect hk hd hj).trans
        (prior_of_blocking ⟨hd, hj, hk⟩ rfl (point_lt_of_snd (by decide)) rfl)
    | false =>
      exact (arrive_gather hk hd hj).trans
        (prior_of_blocking ⟨hd, hk⟩ rfl (point_lt_of_snd (by decide)) rfl)
  · have hi' : c.Member i := ⟨Nat.pos_of_ne_zero hfirst, hi⟩
    exact (arrive_release hk hj).trans (release_later hk hi' rfl (point_lt_of_snd (by decide)))

theorem small_leave (hch : c.chain k = false) : c.Prior (forward (c.root k) i k 0) (leave i k) := by
  have hocc : c.Occurs (forward (c.root k) i k 0) := by
    grind [Occurs, InLoop, Sends]
  by_cases hself : c.root k = i
  · exact prior_of_blocking hocc hself (point_lt_of_snd (by decide)) (if_pos hself)
  · by_cases hfirst : c.root k = 0
    · have hmember : c.Member i := ⟨by omega, hi⟩
      have hrelease : c.Prior (forward (c.root k) i k 0) (release i k) := by
        refine before_of_pre ⟨hocc, hfirst, point_lt_of_snd (by decide), ?_⟩
        change (mode (forward (c.root k) i k 0)).Precedes (.ordered i)
        rw [mode, if_neg hself]
        rfl
      exact hrelease.trans (release_later hk hmember rfl (point_lt_of_snd (by decide)))
    · have hmember : c.Member (c.root k) := ⟨Nat.pos_of_ne_zero hfirst, root_lt hk⟩
      have howed : c.Prior (forward (c.root k) i k 0) (arrive (c.root k) k) :=
        before_of_waits (.inr ⟨⟨hmember, hk⟩, hch, .inr ⟨rfl, i, hi, rfl⟩⟩)
      exact howed.trans (arrive_leave hk hi hmember)

end Return

/-- What holds in a run. A member that has returned has the message, and one that forwards a
chunk has got it. Every wait is ended by the flags of its own call, and by these alone. A run
that is not over can go on. -/
structure Delivered (c : Setup) (X : Set Event) (m : Cell → ℤ) : Prop where
  returned : ∀ i k g, leave i k ∈ X → c.InMessage k g → m (.dst k i g) = c.message k g
  forwarded : ∀ i j k g, c.Occurs (forward i j k g) → c.sys.Ready X (forward i j k g) →
    i ≠ c.root k → m (.dst k i g) = c.message k g
  matched : ∀ e, c.Occurs e → e ∉ X → c.sys.Ready X e → (c.guard e m ↔ ∀ a, c.Meant e a → a ∈ X)
  progress : ∀ e, c.Occurs e → e ∉ X →
    ∃ e', c.Occurs e' ∧ e' ∉ X ∧ c.sys.Ready X e' ∧ c.guard e' m ∧ c.Settled X m e'

theorem settled_delivered (c : Setup) (hint : c.InInt) {init : Cell → ℤ} (hinit : Zeroed init)
    {X : Set Event} {m : Cell → ℤ} (hrun : c.sys.Run c.Settled init X m) : c.Delivered X m := by
  have hc := run_consistent (sound hinit) hrun
  constructor
  · intro i k g hleave hg
    obtain ⟨hi, hk⟩ := hc.events _ hleave
    cases hch : c.chain k with
    | true =>
      have hin : c.InLoop k g := (inLoop_iff hint hk).mpr hg
      by_cases hroot : i = c.root k
      · have hfetch : c.Prior (fetch k g) (leave i k) :=
          prior_of_blocking ⟨hk, hch, hin⟩ hroot.symm (point_lt_of_snd (by decide)) rfl
        rw [hroot]
        exact chunk_eq hc hk (hfetch X hc.closed hleave) ⟨_, rfl⟩ rfl
      · obtain ⟨j, hforward⟩ := chain_leave hk hi hch hin hroot
        exact chunk_of_forward hc (hforward X hc.closed hleave)
    | false =>
      rw [InMessage, hch] at hg
      obtain rfl : g = 0 := hg
      exact chunk_of_forward hc (small_leave hk hi hch X hc.closed hleave)
  · intro i j k g he hr hroot
    exact chunk_of_ready hc he hroot hr
  · intro e he hX hr
    exact guard_iff hc hinit he hX hr
  · intro e he hX
    obtain ⟨e', he', hX', hr, ⟨hg, hok⟩, -⟩ := (live hinit).progress (acyclic c) hc he hX
    exact ⟨e', he', hX', hr, hg, hok⟩

section Listed

variable (c) in
def statements : List Event :=
  (List.range c.calls.length).flatMap fun k => (List.range c.peSize).flatMap fun i =>
    [enter i k, arrive i k, collect i k, drop i k, gather k, wipe k, release i k, released i k,
      clear i k, reset i k, leave i k] ++
    (List.range ((c.numChunks k).toNat + 1)).flatMap fun g => [fetch k g, await i k g] ++
      (List.range c.peSize).flatMap fun j => [forward i j k g, ready i j k g]

theorem inLoop_lt (h : c.InLoop k g) : g < (c.numChunks k).toNat + 1 := by
  unfold InLoop at h
  split at h <;> omega

theorem mem_statements (he : c.Occurs e) : e ∈ c.statements := by
  simp only [statements, List.mem_flatMap, List.mem_append, List.mem_range]
  have hpos := c.pes_pos
  cases e with
  | enter i k | leave i k => exact ⟨k, he.2, i, he.1, .inl (by simp)⟩
  | reset i k => exact ⟨k, he.2.1, i, he.1, .inl (by simp)⟩
  | arrive i k | release i k | released i k | clear i k =>
    exact ⟨k, he.2, i, he.1.2, .inl (by simp)⟩
  | collect i k | drop i k => exact ⟨k, he.2.2, i, he.2.1.2, .inl (by simp)⟩
  | gather k | wipe k => exact ⟨k, he.2, 0, hpos, .inl (by simp)⟩
  | fetch k g => exact ⟨k, he.1, 0, hpos, .inr ⟨g, inLoop_lt he.2.2, .inl (by simp)⟩⟩
  | await i k g =>
    exact ⟨k, he.2.1, i, he.1, .inr ⟨g, inLoop_lt he.2.2.2.1, .inl (by simp)⟩⟩
  | forward i j k g =>
    obtain ⟨hi, hj⟩ := sends_lt he.1 he.2.2
    exact ⟨k, he.1, i, hi, .inr ⟨g, inLoop_lt he.2.1, .inr ⟨j, hj, by simp⟩⟩⟩
  | ready i j k g =>
    obtain ⟨hi, hj⟩ := sends_lt he.1 he.2.2.2
    exact ⟨k, he.1, i, hi, .inr ⟨g, inLoop_lt he.2.2.1, .inr ⟨j, hj, by simp⟩⟩⟩

theorem finite_events (c : Setup) : {e | c.Occurs e}.Finite :=
  (List.finite_toSet c.statements).subset fun _ => mem_statements

theorem run_complete {init : Cell → ℤ} (hinit : Zeroed init) :
    ∃ m, c.sys.Run c.Settled init {e | c.Occurs e} m := by
  have hlive : Live c.sys c.certificate c.Settled init := live hinit
  exact hlive.run_all (sound hinit) (finite_events c)

instance (k g : ℕ) : Decidable (c.InLoop k g) :=
  inferInstanceAs (Decidable (ite _ _ _))

instance (k g : ℕ) : Decidable (c.InMessage k g) :=
  inferInstanceAs (Decidable (ite _ _ _))

instance : Decidable c.InInt :=
  inferInstanceAs (Decidable (_ → ∀ _ ∈ _, _))

instance (i j k : ℕ) : Decidable (c.Sends i j k) :=
  inferInstanceAs (Decidable (ite _ _ _))

instance (i : ℕ) : Decidable (c.Member i) := inferInstanceAs (Decidable (_ ∧ _))

instance : DecidablePred c.Occurs := by
  intro e
  cases e <;> dsimp only [Occurs] <;> infer_instance

instance : DecidablePred c.program.event := inferInstanceAs (DecidablePred c.Occurs)

instance : DecidablePred c.sys.event := inferInstanceAs (DecidablePred c.Occurs)

instance (e : Event) (m : Cell → ℤ) : Decidable (c.guard e m) := by
  cases e <;> dsimp only [guard] <;> infer_instance

instance (e : Event) (m : Cell → ℤ) : Decidable (c.sys.guard e m) :=
  inferInstanceAs (Decidable (c.guard e m))

end Listed

end Setup

theorem three_pes : 0 < 3 := by decide

def twoChains : Setup where
  peSize := 3
  calls := [⟨0, 8193⟩, ⟨1, 8193⟩]
  message k _ := 10 + k
  pes_pos := three_pes
  roots := by decide
  sizes := by decide

theorem two_chains_delivered : ∃ X m, twoChains.sys.Run twoChains.Settled (fun _ => 0) X m ∧
    twoChains.Delivered X m ∧ leave 0 1 ∈ X ∧ m (.dst 1 0 0) = 11 := by
  have hinit : Setup.Zeroed fun _ => 0 := fun _ _ => rfl
  obtain ⟨m, hrun⟩ := Setup.run_complete (c := twoChains) hinit
  have hdelivered := Setup.settled_delivered twoChains (by decide) hinit hrun
  have hleave : leave 0 1 ∈ {e | twoChains.Occurs e} := ⟨by decide, by decide⟩
  exact ⟨_, m, hrun, hdelivered, hleave, hdelivered.returned 0 1 0 hleave (by decide)⟩

def overtaking : List Event :=
  [enter 0 0, enter 1 0, enter 2 0, fetch 0 0, forward 0 1 0 0, ready 0 1 0 0, await 1 0 0,
    forward 1 2 0 0, ready 1 2 0 0, await 2 0 0, arrive 1 0, arrive 2 0, collect 1 0, drop 1 0,
    collect 2 0, drop 2 0, release 1 0, release 2 0, released 1 0, clear 1 0, reset 1 0, leave 1 0,
    enter 1 1, fetch 1 0, forward 1 2 1 0, ready 1 2 1 0, arrive 1 1,
    released 2 0, clear 2 0, reset 2 0, leave 2 0, enter 2 1, reset 0 0, leave 0 0, enter 0 1]

theorem overtaking_replay : twoChains.sys.replay (twoChains.program.preds twoChains.statements)
    overtaking [] (fun _ => 0) = some overtaking.reverse := by
  decide +kernel

theorem overtaking_stuck : ∀ e ∈ twoChains.statements, twoChains.Occurs e → e ∉ overtaking.reverse →
    (∀ a ∈ twoChains.program.preds twoChains.statements e, a ∈ overtaking.reverse) →
    ¬ twoChains.guard e (twoChains.sys.memoryAfter overtaking fun _ => 0) := by
  decide +kernel

/-- The ready count of the second call is cleared with the word of the first, and the third
member waits for ever. -/
theorem ready_count_lost : ∃ X m, twoChains.sys.Run anyStep (fun _ => 0) X m ∧
    ready 1 2 1 0 ∈ X ∧ enter 2 1 ∈ X ∧ await 2 1 0 ∉ X ∧ m (.word 2 0) = 0 ∧
    ∀ e, twoChains.Occurs e → e ∉ X → twoChains.sys.Ready X e → ¬ twoChains.guard e m := by
  have hpreds := Program.mem_preds (Q := twoChains.program) fun _ => Setup.mem_statements
  have hrun : twoChains.sys.Run anyStep (fun _ => 0) {a | a ∈ overtaking.reverse}
      (twoChains.sys.memoryAfter overtaking fun _ => 0) :=
    System.run_after_trace (fun a e => (hpreds a e).mpr) (fun _ _ _ _ => trivial) overtaking_replay
  refine ⟨_, _, hrun, ?_, ?_, ?_, by decide +kernel, ?_⟩
  · show _ ∈ overtaking.reverse
    decide
  · show _ ∈ overtaking.reverse
    decide
  · show _ ∉ overtaking.reverse
    decide
  · intro e he hX hr
    apply overtaking_stuck e (Setup.mem_statements he) he hX
    intro a ha
    exact hr a ((hpreds a e).mp ha)

end IpcChainBroadcast
