import Rocshmem.CentralDirectBarrier

/-! The flags of the IPC `internal_direct_allreduce_wg`. A member raises the word of its world
PE number on every other member and waits for the words of the others; at the end it clears
the words below `PE_size`. -/
namespace IpcDirectAllreduce

open MatchedPrograms
open CentralDirectBarrier (Team flagVal syncValue)

inductive Event where
  | copy (i : ℕ)
  | payload (i j : ℕ)
  | raise (i j : ℕ)
  | wait (i j : ℕ)
  | reduce (i j : ℕ)
  | reset (i w : ℕ)
  | ret (i : ℕ)
  deriving DecidableEq

open Event

variable (t : Team)

def program : Program Event ℕ (ℕ ×ₗ ℕ) ℕ (ℕ × ℕ) ℤ where
  event
    | copy i | ret i => i < t.nPes
    | payload i j | raise i j | wait i j | reduce i j => i < t.nPes ∧ j < t.nPes ∧ j ≠ i
    | reset i w => i < t.nPes ∧ w < t.nPes
  pe
    | copy i | ret i | payload i _ | raise i _ | wait i _ | reduce i _ | reset i _ => i
  point
    | copy _ => toLex (0, 0)
    | payload _ j => toLex (1, 2 * j)
    | raise _ j => toLex (1, 2 * j + 1)
    | wait _ j => toLex (2, 2 * j)
    | reduce _ j => toLex (2, 2 * j + 1)
    | reset _ _ => toLex (3, 0)
    | ret _ => toLex (4, 0)
  mode
    | payload _ j => .posted j
    | raise _ j => .ordered j
    | _ => .blocking
  guard
    | wait i j, m => m (t.member i, t.member j) = flagVal
    | _, _ => True
  action
    | raise i j => .store (t.member j, t.member i) fun _ => flagVal
    | reset i w => .store (t.member i, w) fun _ => syncValue
    | _ => .skip

def certificate : Certificate Event ℤ where
  waitsFor
    | wait i j, a => (i < t.nPes ∧ j < t.nPes ∧ j ≠ i) ∧ a = raise j i
    | _, _ => False
  val
    | raise _ _ => flagVal
    | _ => syncValue

abbrev Prior (a e : Event) : Prop := Before (program t).system (certificate t) a e

variable {t} {i j w : ℕ} {e : Event} {X : Set Event} {m : ℕ × ℕ → ℤ}

theorem member_injective (h : t.member i = t.member j) : i = j :=
  Nat.eq_of_mul_eq_mul_left t.stride_pos (Nat.add_left_cancel h)

theorem waits_forward (e a : Event) (h : (certificate t).waitsFor e a) :
    (program t).point a < (program t).point e := by
  cases e with
  | wait i j =>
    obtain ⟨-, rfl⟩ := h
    exact Prod.Lex.left _ _ (by decide)
  | _ => exact h.elim

theorem acyclic (t : Team) : WellFounded (Depends (program t).system (certificate t)) :=
  (program t).acyclic waits_forward

theorem writes_flag (h : (program t).system.Writes (t.member i, w) e) :
    (∃ j, e = raise j i ∧ t.member j = w) ∨ e = reset i w := by
  rcases h with ⟨f, hf⟩ | ⟨v, hv⟩
  all_goals grind [program, Program.system, member_injective]

theorem raise_wait (hi : i < t.nPes) (hj : j < t.nPes) (hne : j ≠ i) :
    Prior t (raise j i) (wait i j) :=
  before_of_waits ⟨⟨hi, hj, hne⟩, rfl⟩

theorem wait_reset (hi : i < t.nPes) (hj : j < t.nPes) (hne : j ≠ i) :
    Prior t (wait i j) (reset i w) :=
  before_of_pre ⟨⟨hi, hj, hne⟩, rfl, Prod.Lex.left _ _ (by decide), trivial⟩

theorem raise_reset (he : (program t).event (raise j i)) : Prior t (raise j i) (reset i w) :=
  (raise_wait he.2.1 he.1 he.2.2.symm).trans (wait_reset he.2.1 he.1 he.2.2.symm)

theorem wait_ret (hi : i < t.nPes) (hj : j < t.nPes) (hne : j ≠ i) : Prior t (wait i j) (ret i) :=
  before_of_pre ⟨⟨hi, hj, hne⟩, rfl, Prod.Lex.left _ _ (by decide), trivial⟩

theorem reset_ret (hi : i < t.nPes) (hw : w < t.nPes) : Prior t (reset i w) (ret i) :=
  before_of_pre ⟨⟨hi, hw⟩, rfl, Prod.Lex.left _ _ (by decide), trivial⟩

section

variable (hc : Consistent (program t).system (certificate t) (fun _ => 0) X m)
include hc

theorem flag_raised (hX : raise j i ∈ X) (hreset : reset i (t.member j) ∉ X) :
    m (t.member i, t.member j) = flagVal := by
  apply hc.read (acyclic t) hX ⟨_, rfl⟩
  intro w hw hwr
  rcases writes_flag hwr with ⟨k, rfl, hk⟩ | rfl
  · rw [member_injective hk]
    exact Before.refl _
  · exact absurd hw hreset

theorem flag_cleared (hX : reset i w ∈ X) : m (t.member i, w) = syncValue := by
  apply hc.read (acyclic t) hX ⟨_, rfl⟩
  intro e he hwr
  rcases writes_flag hwr with ⟨k, rfl, -⟩ | rfl
  · exact raise_reset (hc.events _ he)
  · exact Before.refl _

theorem raised_of_flag (hm : m (t.member i, t.member j) = flagVal) : raise j i ∈ X := by
  by_contra hX
  have hzero : m (t.member i, t.member j) = 0 := by
    by_cases hreset : reset i (t.member j) ∈ X
    · exact flag_cleared hc hreset
    · apply hc.read_init
      intro e he hwr
      rcases writes_flag hwr with ⟨k, rfl, hk⟩ | rfl
      · rw [member_injective hk] at he
        exact hX he
      · exact hreset he
  rw [hzero] at hm
  exact absurd hm (by decide)

end

theorem sound (t : Team) : Sound (program t).system (certificate t) anyStep fun _ => 0 where
  acyclic := acyclic t
  ordered := by
    intro c e e' he he' hs hwr
    cases e with
    | raise i j =>
      obtain ⟨f, hf⟩ := hs
      cases hf
      rcases writes_flag hwr with ⟨k, rfl, hk⟩ | rfl
      · exact .inl (by rw [member_injective hk])
      · exact .inr (.inl (raise_reset he))
    | reset i w =>
      obtain ⟨f, hf⟩ := hs
      cases hf
      rcases writes_flag hwr with ⟨k, rfl, hk⟩ | rfl
      · exact .inr (.inr (raise_reset he'))
      · exact .inl rfl
    | copy | payload | wait | reduce | ret =>
      obtain ⟨f, hf⟩ := hs
      cases hf
  matched := by
    grind [program, certificate, Program.system, raised_of_flag]
  valued := by
    intro X m e d f _ _ _ _ _ hact
    cases e <;> cases hact <;> rfl

theorem live (t : Team) : Live (program t).system (certificate t) anyStep fun _ => 0 where
  pre_event _ _ h := h.1
  waits_event := by
    grind [program, certificate, Program.system]
  guarded := by
    intro X m e hc he hX _ hw
    refine ⟨?_, trivial⟩
    cases e with
    | wait i j =>
      apply flag_raised hc (hw _ ⟨he, rfl⟩)
      exact fun hreset => hX (wait_reset he.1 he.2.1 he.2.2 X hc.closed hreset)
    | _ => trivial

theorem call_completes (t : Team) :
    ∃ m, (program t).system.Run anyStep (fun _ => 0) {e | (program t).event e} m := by
  apply (live t).run_reaches (sound t)
  · have hfin := List.finite_toSet ((List.range t.nPes).flatMap fun i =>
      (List.range t.nPes).flatMap fun j =>
        [copy i, payload i j, raise i j, wait i j, reduce i j, reset i j, ret i])
    apply hfin.subset
    intro e he
    simp only [Set.mem_ofPred_eq, List.mem_flatMap, List.mem_range]
    cases e with
    | copy i | ret i => exact ⟨i, he, i, he, by simp⟩
    | payload i j | raise i j | wait i j | reduce i j => exact ⟨i, he.1, j, he.2.1, by simp⟩
    | reset i w => exact ⟨i, he.1, w, he.2, by simp⟩
  · exact fun _ he => he
  · exact fun e _ => ⟨fun _ ha => ha.1, fun a ha => (live t).waits_event e a ha⟩

theorem last_member_lt_iff (hn : 1 < t.nPes) :
    t.member (t.nPes - 1) < t.nPes ↔ t.peStart = 0 ∧ t.stride = 1 := by
  have hpos := t.stride_pos
  unfold Team.member
  constructor
  · intro h
    have hstride : t.stride = 1 := by
      by_contra hne
      have hmul : 2 * (t.nPes - 1) ≤ t.stride * (t.nPes - 1) := Nat.mul_le_mul_right _ (by omega)
      omega
    rw [hstride] at h
    omega
  · rintro ⟨hstart, hstride⟩
    rw [hstart, hstride]
    omega

/-- After all members have returned, the flag words of all members are 0 again if and only if
the team has one member or consists of the first PEs of the world. -/
theorem flags_clean_iff (h : (program t).system.Run anyStep (fun _ => 0) X m)
    (hret : ∀ i < t.nPes, ret i ∈ X) :
    (∀ i < t.nPes, ∀ w, m (t.member i, w) = 0) ↔ t.nPes ≤ 1 ∨ t.peStart = 0 ∧ t.stride = 1 := by
  have hc := run_consistent (sound t) h
  by_cases hn : t.nPes ≤ 1
  · refine iff_of_true (fun i hi w => ?_) (.inl hn)
    by_cases hreset : reset i w ∈ X
    · exact flag_cleared hc hreset
    · apply hc.read_init
      intro e he hwr
      rcases writes_flag hwr with ⟨k, rfl, -⟩ | rfl
      · obtain ⟨hk, -, hne⟩ := hc.events _ he
        omega
      · exact hreset he
  · rw [or_iff_right hn, ← last_member_lt_iff (by omega)]
    constructor
    · intro hclean
      by_contra hlast
      -- the flag of the last member on the first one is never cleared
      have hne : t.nPes - 1 ≠ 0 := by omega
      have hwait := wait_ret t.pes_pos (by omega) hne X hc.closed (hret 0 t.pes_pos)
      have hraise := raise_wait t.pes_pos (by omega) hne X hc.closed hwait
      have hflag := flag_raised hc hraise fun hreset => hlast (hc.events _ hreset).2
      rw [hclean 0 t.pes_pos] at hflag
      exact absurd hflag (by decide)
    · intro hlast i hi w
      have hteam := (last_member_lt_iff (by omega)).mp hlast
      by_cases hw : w < t.nPes
      · exact flag_cleared hc (reset_ret hi hw X hc.closed (hret i hi))
      · apply hc.read_init
        intro e he hwr
        rcases writes_flag hwr with ⟨k, rfl, hk⟩ | rfl
        · obtain ⟨hk', -, -⟩ := hc.events _ he
          rw [Team.member, hteam.1, hteam.2] at hk
          omega
        · exact hw (hc.events _ he).2

def firstTwo : Team := ⟨0, 1, 2, Nat.one_pos, Nat.two_pos⟩

theorem first_two_flags_clean : ∃ X m, (program firstTwo).system.Run anyStep (fun _ => 0) X m ∧
    (∀ i < 2, ret i ∈ X) ∧ ∀ i < 2, ∀ w, m (firstTwo.member i, w) = 0 := by
  obtain ⟨m, hrun⟩ := call_completes firstTwo
  have hret : ∀ i < 2, ret i ∈ {e | (program firstTwo).event e} := fun i hi => hi
  exact ⟨_, m, hrun, hret, (flags_clean_iff hrun hret).mpr (.inr ⟨rfl, rfl⟩)⟩

def evenTwo : Team := ⟨0, 2, 2, Nat.two_pos, Nat.two_pos⟩

/-- The flag of PE 2 is still set on PE 0 when both have returned. -/
theorem stale_flag_left : ∃ X m, (program evenTwo).system.Run anyStep (fun _ => 0) X m ∧
    (∀ i < 2, ret i ∈ X) ∧ m (0, 2) = 1 := by
  obtain ⟨m, hrun⟩ := call_completes evenTwo
  refine ⟨_, m, hrun, fun i hi => hi, ?_⟩
  have hc := run_consistent (sound evenTwo) hrun
  have hraise : raise 1 0 ∈ {e | (program evenTwo).event e} :=
    ⟨Nat.one_lt_two, Nat.two_pos, Nat.zero_ne_one⟩
  exact flag_raised hc hraise fun hreset => absurd hreset.2 (Nat.lt_irrefl 2)

end IpcDirectAllreduce
