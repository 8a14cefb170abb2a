import Rocshmem.MatchedPrograms

/-! The alltoall with one put per thread, round after round on one zeroed `alltoall_pSync`:
`alltoallmem_linear_thread_puts_wg` of GDA, `alltoall_linear_thread_puts_das` and
`alltoallmem_wg_linear_thread_puts` of IPC. Every PE puts a block to every peer and adds 1 to
a flag there, in the bank given by the parity of the round; the thread that handles a peer
waits for the peer's flag to be 1 and stores 0 to it. -/
namespace AlltoallRounds

open MatchedPrograms

inductive Conduit where
  | gda
  | ipc
  deriving DecidableEq, Repr

def alltoallSyncSize : ℕ := 257

def wfSize : ℕ := 64

def stepSize (blockSize : ℕ) : ℕ := if blockSize < wfSize then blockSize else wfSize

def Handles (blockSize tid j : ℕ) : Prop :=
  tid < blockSize ∧ ∃ k, j = tid + k * stepSize blockSize

structure Team where
  peSize : ℕ
  blockSize : ℕ
  pes_pos : 0 < peSize
  block_pos : 0 < blockSize
  pes_le : peSize ≤ 128
  single : ∀ j < peSize, ∃! tid, Handles blockSize tid j

/-- The steps of round `r`. `payload p q` is the arrival of the block of `p` at `q` and
`add p q` that of the signal; `seen q p`, `quiet q p` and `reset q p` are steps of the thread
of `q` that handles `p`. -/
inductive Event where
  | enter (p r : ℕ)
  | payload (p q r : ℕ)
  | add (p q r : ℕ)
  | seen (q p r : ℕ)
  | quiet (q p r : ℕ)
  | reset (q p r : ℕ)
  | leave (p r : ℕ)
  deriving DecidableEq

open Event

variable (k : Conduit) (t : Team)

def Team.word (r p : ℕ) : ℕ := r % 2 * t.peSize + p

def Occurs : Event → Prop
  | enter p _ | leave p _ => p < t.peSize
  | payload p q _ | add p q _ | seen q p _ | reset q p _ => p < t.peSize ∧ q < t.peSize
  | quiet q p _ => k = .gda ∧ p < t.peSize ∧ q < t.peSize

/-- One step has taken effect before the other does. A block and a signal arrive at any time
after they were posted, the signal after the block. -/
inductive Pre : Event → Event → Prop where
  | again {p r} : p < t.peSize → Pre (leave p r) (enter p (r + 1))
  | put {p q r} : p < t.peSize → q < t.peSize → Pre (enter p r) (payload p q r)
  | add {p q r} : p < t.peSize → q < t.peSize → Pre (payload p q r) (add p q r)
  | look {p q r} : p < t.peSize → q < t.peSize → Pre (enter q r) (seen q p r)
  -- the next turn of the loop of one thread
  | turn {p q r} : p + stepSize t.blockSize < t.peSize → q < t.peSize →
      Pre (reset q p r) (seen q (p + stepSize t.blockSize) r)
  | quietSeen {p q r} : k = .gda → p < t.peSize → q < t.peSize → Pre (seen q p r) (quiet q p r)
  -- `quiet_single` completes the thread's own put and add to the peer
  | quietAdd {p q r} : k = .gda → p < t.peSize → q < t.peSize → Pre (add q p r) (quiet q p r)
  | resetGda {p q r} : k = .gda → p < t.peSize → q < t.peSize → Pre (quiet q p r) (reset q p r)
  | resetIpc {p q r} : k = .ipc → p < t.peSize → q < t.peSize → Pre (seen q p r) (reset q p r)
  | leave {p q r} : p < t.peSize → q < t.peSize → Pre (reset q p r) (leave q r)

def sys : System Event (ℕ × ℕ) ℤ where
  event := Occurs k t
  pre := Pre k t
  guard
    | seen q p r, m => m (q, t.word r p) = 1
    | _, _ => True
  action
    | add p q r => .add (q, t.word r p) 1
    | reset q p r => .store (q, t.word r p) fun _ => 0
    | _ => .skip

def certificate : Certificate Event ℤ where
  waitsFor
    | seen q p r, a => (p < t.peSize ∧ q < t.peSize) ∧ a = add p q r
    | _, _ => False
  val _ := 0

abbrev Prior (a e : Event) : Prop := Before (sys k t) (certificate t) a e

variable {k t} {p q r r' : ℕ}

variable {a e : Event}

theorem Pre.prior (h : Pre k t a e) : Prior k t a e := before_of_pre h

def Team.stage (t : Team) : Event → ℕ
  | enter _ r => r * (3 * t.peSize + 4)
  | payload _ _ r => r * (3 * t.peSize + 4) + 1
  | add _ _ r => r * (3 * t.peSize + 4) + 2
  | seen _ p r => r * (3 * t.peSize + 4) + 3 * p + 3
  | quiet _ p r => r * (3 * t.peSize + 4) + 3 * p + 4
  | reset _ p r => r * (3 * t.peSize + 4) + 3 * p + 5
  | leave _ r => r * (3 * t.peSize + 4) + 3 * t.peSize + 3

theorem stepSize_pos (t : Team) : 0 < stepSize t.blockSize := by
  have hpos := t.block_pos
  unfold stepSize wfSize
  split <;> omega

theorem depends_forward (h : Depends (sys k t) (certificate t) a e) : t.stage a < t.stage e := by
  have hstep := stepSize_pos t
  rcases h with hp | hw
  · cases hp <;> simp only [Team.stage, Nat.add_mul] <;> omega
  · cases e with
    | seen =>
      obtain ⟨-, rfl⟩ := hw
      simp only [Team.stage]
      omega
    | _ => exact hw.elim

theorem acyclic (k : Conduit) (t : Team) : WellFounded (Depends (sys k t) (certificate t)) :=
  acyclic_of_rank t.stage depends_forward

section Order

variable (hp : p < t.peSize) (hq : q < t.peSize)
include hp hq

theorem seen_reset : Prior k t (seen q p r) (reset q p r) := by
  cases k with
  | gda => exact (Pre.quietSeen rfl hp hq).prior.trans (Pre.resetGda rfl hp hq).prior
  | ipc => exact (Pre.resetIpc rfl hp hq).prior

theorem add_seen : Prior k t (add p q r) (seen q p r) := before_of_waits ⟨⟨hp, hq⟩, rfl⟩

theorem seen_leave : Prior k t (seen q p r) (leave q r) :=
  (seen_reset hp hq).trans (Pre.leave hp hq).prior

theorem enter_add : Prior k t (enter p r) (add p q r) :=
  (Pre.put hp hq).prior.trans (Pre.add hp hq).prior

theorem payload_leave : Prior k t (payload p q r) (leave q r) :=
  ((Pre.add hp hq).prior.trans (add_seen hp hq)).trans (seen_leave hp hq)

theorem enter_enter : Prior k t (enter p r) (enter q (r + 1)) :=
  ((Pre.put hp hq).prior.trans (payload_leave hp hq)).trans (Pre.again hq).prior

end Order

section

variable (hp : p < t.peSize)
include hp

theorem enter_le (hr : r ≤ r') : Prior k t (enter p r) (enter p r') :=
  before_of_le (f := fun r => enter p r) (fun _ => enter_enter hp hp) hr

theorem reset_enter (hq : q < t.peSize) (hr : r < r') : Prior k t (reset q p r) (enter q r') :=
  ((Pre.leave hp hq).prior.trans (Pre.again hq).prior).trans (enter_le hq hr)

theorem add_reset (hq : q < t.peSize) (hr : r ≤ r') : Prior k t (add p q r) (reset q p r') := by
  have hsame : Prior k t (add p q r) (reset q p r) := (add_seen hp hq).trans (seen_reset hp hq)
  rcases Nat.eq_or_lt_of_le hr with rfl | hlt
  · exact hsame
  · have hlater : Prior k t (enter q r') (reset q p r') :=
      (Pre.look hp hq).prior.trans (seen_reset hp hq)
    exact (hsame.trans (reset_enter hp hq hlt)).trans hlater

theorem reset_add (hq : q < t.peSize) (hr : r + 2 ≤ r') : Prior k t (reset q p r) (add p q r') := by
  have hnext : Prior k t (reset q p r) (enter p (r + 2)) :=
    (reset_enter hp hq (Nat.lt_succ_self r)).trans (enter_enter hq hp)
  exact (hnext.trans (enter_le hp hr)).trans (enter_add hp hq)

theorem reset_reset (hq : q < t.peSize) (hr : r < r') : Prior k t (reset q p r) (reset q p r') :=
  (reset_enter hp hq hr).trans ((Pre.look hp hq).prior.trans (seen_reset hp hq))

theorem word_inj {p' : ℕ} (hp' : p' < t.peSize) (h : t.word r p = t.word r' p') :
    r % 2 = r' % 2 ∧ p = p' := by
  unfold Team.word at h
  rcases Nat.mod_two_eq_zero_or_one r with hr | hr <;>
    rcases Nat.mod_two_eq_zero_or_one r' with hr' | hr' <;> rw [hr, hr'] at h <;>
    constructor <;> omega

end

theorem word_eq {p' : ℕ} (h : r % 2 = r' % 2 ∧ p = p') : t.word r p = t.word r' p' := by
  rw [Team.word, Team.word, h.1, h.2]

theorem word_lt (hp : p < t.peSize) : t.word r p < alltoallSyncSize := by
  have hle := t.pes_le
  unfold Team.word alltoallSyncSize
  rcases Nat.mod_two_eq_zero_or_one r with hr | hr <;> rw [hr] <;> omega

theorem stores_flag (hp : p < t.peSize) (he : Occurs k t e)
    (h : (sys k t).StoresTo (q, t.word r p) e) : ∃ r', e = reset q p r' ∧ r' % 2 = r % 2 := by
  obtain ⟨f, hf⟩ := h
  cases e with
  | reset q' p' r' =>
    grind [Occurs, sys, word_inj]
  | enter | payload | add | seen | quiet | leave => cases hf

theorem adds_flag (hp : p < t.peSize) (he : Occurs k t e)
    (h : (sys k t).AddsTo (q, t.word r p) e) : ∃ r', e = add p q r' ∧ r' % 2 = r % 2 := by
  obtain ⟨v, hv⟩ := h
  cases e with
  | add p' q' r' =>
    grind [Occurs, sys, word_inj]
  | enter | payload | seen | quiet | reset | leave => cases hv

theorem reset_stores (h : r' % 2 = r % 2) : (sys k t).StoresTo (q, t.word r p) (reset q p r') := by
  rw [word_eq ⟨h.symm, rfl⟩]
  exact ⟨_, rfl⟩

variable {X : Set Event} {m : ℕ × ℕ → ℤ}

def Pending (X : Set Event) (p q r : ℕ) : Prop := add p q r ∈ X ∧ reset q p r ∉ X

section Flags

variable (hc : Consistent (sys k t) (certificate t) (fun _ => 0) X m) (hp : p < t.peSize)
  (hq : q < t.peSize)
include hc hp hq

theorem pending_unique (hpar : r % 2 = r' % 2) (h : Pending X p q r) (h' : Pending X p q r') :
    r = r' := by
  rcases Nat.lt_trichotomy r r' with hlt | heq | hlt
  · exact absurd (reset_add hp hq (by omega) X hc.closed h'.1) h.2
  · exact heq
  · exact absurd (reset_add hp hq (by omega) X hc.closed h.1) h'.2

theorem flag_clear (h : ∀ r', r' % 2 = r % 2 → ¬ Pending X p q r') : m (q, t.word r p) = 0 := by
  apply hc.read_cleared fun _ _ _ => rfl
  intro a ha hadd
  obtain ⟨r', rfl, hpar⟩ := adds_flag hp (hc.events a ha) hadd
  have hreset : reset q p r' ∈ X := by
    by_contra hnot
    exact h r' hpar ⟨ha, hnot⟩
  exact ⟨_, hreset, reset_stores hpar, add_reset hp hq (Nat.le_refl r')⟩

theorem flag_set (h : Pending X p q r) : m (q, t.word r p) = 1 := by
  apply hc.read_pending (v := 1) h.1 rfl fun _ _ _ => rfl
  · -- a store after the signal would be one after its own reset
    intro w hw hs hb
    obtain ⟨r', rfl, hpar⟩ := stores_flag hp (hc.events w hw) hs
    rcases Nat.lt_or_ge r' r with hlt | hge
    · have hcycle := before_antisymm (acyclic k t) hb (reset_add hp hq (by omega))
      cases hcycle
    · rcases Nat.eq_or_lt_of_le hge with rfl | hlt
      · exact h.2 hw
      · exact h.2 (reset_reset hp hq hlt X hc.closed hw)
  · intro a ha hadd hne
    obtain ⟨r', rfl, hpar⟩ := adds_flag hp (hc.events a ha) hadd
    have hreset : reset q p r' ∈ X := by
      by_contra hnot
      exact hne (by rw [pending_unique hc hp hq hpar ⟨ha, hnot⟩ h])
    exact ⟨_, hreset, reset_stores hpar, add_reset hp hq (Nat.le_refl r')⟩

theorem seen_pending (henter : enter q r ∈ X) (hX : seen q p r ∉ X)
    (hm : m (q, t.word r p) = 1) : Pending X p q r := by
  have hreset : reset q p r ∉ X := fun h => hX (seen_reset hp hq X hc.closed h)
  by_contra hnot
  have hzero : m (q, t.word r p) = 0 := by
    apply flag_clear hc hp hq
    intro r' hpar hpend
    rcases Nat.lt_trichotomy r r' with hlt | rfl | hlt
    · exact hreset (reset_add hp hq (by omega) X hc.closed hpend.1)
    · exact hnot hpend
    · exact hpend.2 (reset_enter hp hq hlt X hc.closed henter)
  omega

end Flags

theorem pre_occurs (h : Pre k t a e) : Occurs k t a := by
  grind [Occurs, Pre]

theorem sound (k : Conduit) (t : Team) :
    Sound (sys k t) (certificate t) anyStep fun _ => 0 where
  acyclic := acyclic k t
  ordered := by
    intro d w w' hw hw' hs hwr
    cases w with
    | reset q p r =>
      obtain ⟨f, hf⟩ := hs
      cases hf
      rcases hwr with hs' | hadd
      · obtain ⟨r', rfl, -⟩ := stores_flag hw.1 hw' hs'
        rcases Nat.lt_trichotomy r r' with hlt | rfl | hlt
        · exact .inr (.inl (reset_reset hw.1 hw.2 hlt))
        · exact .inl rfl
        · exact .inr (.inr (reset_reset hw.1 hw.2 hlt))
      · obtain ⟨r', rfl, hpar⟩ := adds_flag hw.1 hw' hadd
        rcases Nat.lt_or_ge r r' with hlt | hge
        · exact .inr (.inl (reset_add hw.1 hw.2 (by omega)))
        · exact .inr (.inr (add_reset hw.1 hw.2 hge))
    | enter | payload | add | seen | quiet | leave =>
      obtain ⟨f, hf⟩ := hs
      cases hf
  matched := by
    intro X m e hc he hX hr hg _ a ha
    cases e with
    | seen q p r =>
      obtain ⟨⟨hp, hq⟩, rfl⟩ := ha
      exact (seen_pending hc hp hq (hr _ (.look hp hq)) hX hg).1
    | _ => exact ha.elim
  valued := by
    intro X m e d f _ _ _ _ _ hact
    cases e <;> cases hact
    rfl

theorem live (k : Conduit) (t : Team) :
    Live (sys k t) (certificate t) anyStep fun _ => 0 where
  pre_event _ _ := pre_occurs
  waits_event := by
    intro e a h
    cases e with
    | seen =>
      obtain ⟨hpq, rfl⟩ := h
      exact hpq
    | _ => exact h.elim
  guarded := by
    intro X m e hc he hX _ hw
    refine ⟨?_, trivial⟩
    cases e with
    | seen q p r =>
      have hreset : reset q p r ∉ X := fun h => hX (seen_reset he.1 he.2 X hc.closed h)
      exact flag_set hc he.1 he.2 ⟨hw _ ⟨he, rfl⟩, hreset⟩
    | _ => trivial

/-- No PE is more than one round ahead. A word of the flags holds one pending signal or none;
a thread takes only the signal of its own round, and clears only what it has taken. A PE
leaves a round with the blocks of all peers. -/
structure RoundsKept (k : Conduit) (t : Team) (X : Set Event) (m : ℕ × ℕ → ℤ) : Prop where
  inside : ∀ p r, p < t.peSize → t.word r p < alltoallSyncSize
  ahead : ∀ p q r, p < t.peSize → q < t.peSize → enter q (r + 1) ∈ X → enter p r ∈ X
  apart : ∀ p q r r', p < t.peSize → q < t.peSize → t.word r p = t.word r' p →
    Pending X p q r → Pending X p q r' → r = r'
  raised : ∀ p q r, p < t.peSize → q < t.peSize → Pending X p q r → m (q, t.word r p) = 1
  lowered : ∀ p q r, p < t.peSize → q < t.peSize →
    (∀ r', t.word r' p = t.word r p → ¬ Pending X p q r') → m (q, t.word r p) = 0
  taken : ∀ p q r, p < t.peSize → q < t.peSize → (sys k t).Ready X (seen q p r) →
    seen q p r ∉ X → m (q, t.word r p) = 1 → Pending X p q r
  cleared : ∀ p q r, p < t.peSize → q < t.peSize → (sys k t).Ready X (reset q p r) →
    reset q p r ∉ X → seen q p r ∈ X ∧ Pending X p q r
  landed : ∀ p q r, p < t.peSize → q < t.peSize → leave q r ∈ X → payload p q r ∈ X

theorem ready_reset (hc : Consistent (sys k t) (certificate t) (fun _ => 0) X m)
    (hp : p < t.peSize) (hq : q < t.peSize) (hr : (sys k t).Ready X (reset q p r)) :
    seen q p r ∈ X := by
  cases k with
  | gda => exact (Pre.quietSeen rfl hp hq).prior X hc.closed (hr _ (.resetGda rfl hp hq))
  | ipc => exact hr _ (.resetIpc rfl hp hq)

theorem alltoall_rounds_kept (h : (sys k t).Run anyStep (fun _ => 0) X m) :
    RoundsKept k t X m := by
  have hc := run_consistent (sound k t) h
  constructor
  · exact fun p r hp => word_lt hp
  · exact fun p q r hp hq henter => enter_enter hp hq X hc.closed henter
  · exact fun p q r r' hp hq hw => pending_unique hc hp hq (word_inj hp hp hw).1
  · exact fun p q r hp hq => flag_set hc hp hq
  · intro p q r hp hq hnone
    exact flag_clear hc hp hq fun r' hpar => hnone r' (word_eq ⟨hpar, rfl⟩)
  · intro p q r hp hq hr hX hm
    exact seen_pending hc hp hq (hr _ (.look hp hq)) hX hm
  · intro p q r hp hq hr hX
    have hseen := ready_reset hc hp hq hr
    exact ⟨hseen, add_seen hp hq X hc.closed hseen, hX⟩
  · exact fun p q r hp hq hleave => payload_leave hp hq X hc.closed hleave

def Event.round : Event → ℕ
  | enter _ r | payload _ _ r | add _ _ r | seen _ _ r | quiet _ _ r | reset _ _ r | leave _ r => r

theorem rounds_reached (k : Conduit) (t : Team) (n : ℕ) : ∃ m,
    (sys k t).Run anyStep (fun _ => 0) {e | Occurs k t e ∧ e.round < n} m := by
  apply (live k t).run_reaches (sound k t) _ (fun _ h => h.1)
  · rintro e ⟨-, hround⟩
    constructor
    · intro a ha
      refine ⟨pre_occurs ha, ?_⟩
      cases ha <;> simp only [Event.round] at hround ⊢ <;> omega
    · grind [Event.round, Occurs, certificate]
  · have hfin := List.finite_toSet ((List.range t.peSize).flatMap fun p =>
      (List.range t.peSize).flatMap fun q => (List.range n).flatMap fun r =>
        [enter p r, payload p q r, add p q r, seen q p r, quiet q p r, reset q p r, leave p r])
    apply hfin.subset
    rintro e ⟨ho, hr⟩
    simp only [Set.mem_ofPred_eq, List.mem_flatMap, List.mem_range]
    cases e with
    | enter p r | leave p r => exact ⟨p, ho, p, ho, r, hr, by simp⟩
    | payload p q r | add p q r | seen q p r | reset q p r =>
      exact ⟨p, ho.1, q, ho.2, r, hr, by simp⟩
    | quiet q p r => exact ⟨p, ho.2.1, q, ho.2.2, r, hr, by simp⟩

def twoPes : Team where
  peSize := 2
  blockSize := 64
  pes_pos := Nat.two_pos
  block_pos := by decide
  pes_le := by decide
  single := by
    intro j hj
    refine ⟨j, ⟨by omega, 0, by simp⟩, ?_⟩
    rintro tid ⟨-, k, hk⟩
    rw [show stepSize 64 = 64 from rfl] at hk
    omega

theorem three_rounds_kept : ∃ X m, (sys .gda twoPes).Run anyStep (fun _ => 0) X m ∧
    leave 0 2 ∈ X ∧ leave 1 2 ∈ X ∧ RoundsKept .gda twoPes X m := by
  obtain ⟨m, hrun⟩ := rounds_reached .gda twoPes 3
  exact ⟨_, m, hrun, ⟨Nat.two_pos, by decide⟩, ⟨Nat.one_lt_two, by decide⟩,
    alltoall_rounds_kept hrun⟩

end AlltoallRounds
