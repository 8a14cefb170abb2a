import Rocshmem.CentralDirectBarrier

/-! `internal_put_broadcastmem_wg` with `internal_sync_wg`, call after call on one `bcast_pSync`
array, in a world of fewer than 4 PEs. The root posts its message to every other member and
goes on; `internal_direct_barrier_wg` then collects a flag of every member at the first one
and releases all of them. Writes are ordered only on one QP, from one PE to one other. -/
namespace GdaPutBroadcast

open MatchedPrograms
open CentralDirectBarrier (Team)

structure Calls extends Team where
  numPes : ℕ
  waves : ℕ
  root : ℕ → ℕ
  small : numPes < 4
  inside : toTeam.member (nPes - 1) < numPes
  waves_pos : 0 < waves
  root_lt : ∀ r, root r < nPes

def Calls.releaseTarget (c : Calls) (i : ℕ) : ℕ :=
  c.peStart + c.stride + (i - 1) % c.waves + (i - 1) / c.waves * (c.waves * c.stride)

/-- The steps of call `r`, of the member of rank `i` or for it. `data` is the arrival of the
whole message at `i`, `copy` the root's own copy; the rest is the barrier. -/
inductive Event where
  | enter (i r : ℕ)
  | data (i r : ℕ)
  | copy (r : ℕ)
  | arrive (i r : ℕ)
  | collect (i r : ℕ)
  | reset (i r : ℕ)
  | release (i r : ℕ)
  | quiet (r : ℕ)
  | lower (r : ℕ)
  | await (i r : ℕ)
  | clear (i r : ℕ)
  | ret (i r : ℕ)
  deriving DecidableEq

open Event

def Calls.Other (c : Calls) (i : ℕ) : Prop := 0 < i ∧ i < c.nPes

def Occurs (c : Calls) : Event → Prop
  | enter i _ | ret i _ => i < c.nPes
  | data i r => i < c.nPes ∧ i ≠ c.root r
  | arrive i _ | collect i _ | reset i _ | release i _ | await i _ | clear i _ => c.Other i
  | copy _ | quiet _ | lower _ => True

inductive Pre (c : Calls) : Event → Event → Prop where
  | again {i r} : i < c.nPes → Pre c (ret i r) (enter i (r + 1))
  | post {i r} : i < c.nPes → i ≠ c.root r → Pre c (enter (c.root r) r) (data i r)
  -- the QP from a root to a member keeps the order of the calls
  | queue {i r r'} : i < c.nPes → i ≠ c.root r → c.root r = c.root r' → r < r' →
      Pre c (data i r) (data i r')
  | copy {r} : Pre c (enter (c.root r) r) (copy r)
  | arrive {i r} : c.Other i → Pre c (enter i r) (arrive i r)
  | arriveCopy {r} : 0 < c.root r → Pre c (copy r) (arrive (c.root r) r)
  -- the flag of the root follows its message to the first member on one QP
  | arriveData {r} : 0 < c.root r → Pre c (data 0 r) (arrive (c.root r) r)
  | collect {i r} : c.Other i → Pre c (enter 0 r) (collect i r)
  | collectCopy {i r} : c.Other i → c.root r = 0 → Pre c (copy r) (collect i r)
  | reset {i r} : c.Other i → Pre c (collect i r) (reset i r)
  -- `__syncthreads` between the two loops
  | release {i j r} : c.Other i → c.Other j → Pre c (reset j r) (release i r)
  -- the release follows the message of the first member to the same PE on one QP
  | releaseData {i j r} : c.Other i → c.Other j → c.root r = 0 →
      c.member j = c.releaseTarget i → Pre c (data j r) (release i r)
  | quietEnter {r} : Pre c (enter 0 r) (quiet r)
  | quietCopy {r} : c.root r = 0 → Pre c (copy r) (quiet r)
  | quiet {i r} : c.Other i → Pre c (release i r) (quiet r)
  | lower {r} : Pre c (quiet r) (lower r)
  | retFirst {r} : Pre c (lower r) (ret 0 r)
  | await {i r} : c.Other i → Pre c (arrive i r) (await i r)
  | clear {i r} : c.Other i → Pre c (await i r) (clear i r)
  | ret {i r} : c.Other i → Pre c (clear i r) (ret i r)

def sys (c : Calls) : System Event (ℕ × ℕ) ℤ where
  event := Occurs c
  pre := Pre c
  guard
    | collect i _, m => m (c.peStart, i) = 1
    | await i _, m => m (c.member i, 0) = 1
    | _, _ => True
  action
    | arrive i _ => .store (c.peStart, i) fun _ => 1
    | reset i _ => .store (c.peStart, i) fun _ => 0
    | release i _ => .store (c.releaseTarget i, 0) fun _ => 1
    | lower _ => .store (c.peStart, 0) fun _ => 0
    | clear i _ => .store (c.member i, 0) fun _ => 0
    | _ => .skip

theorem Calls.releaseTarget_eq (c : Calls) {i : ℕ} (hi : c.Other i) :
    c.releaseTarget i = c.member i := by
  obtain ⟨hpos, hlt⟩ := hi
  have hinside := c.inside
  have hsmall := c.small
  have hstride := c.stride_pos
  simp only [Team.member] at hinside
  rcases Nat.lt_or_ge c.nPes 3 with hn | hn
  · -- two members: only `i = 1`, in wave 0
    obtain rfl : i = 1 := by omega
    simp [Calls.releaseTarget, Team.member]
  · have hone : c.stride = 1 := by
      by_contra hne
      have htwo : 2 * 2 ≤ c.stride * (c.nPes - 1) := Nat.mul_le_mul (by omega) (by omega)
      omega
    have hdiv := Nat.mod_add_div (i - 1) c.waves
    rw [Calls.releaseTarget, Team.member, hone, Nat.mul_one, Nat.mul_comm _ c.waves]
    omega

def certificate (c : Calls) : Certificate Event ℤ where
  waitsFor
    | collect i r, a => c.Other i ∧ a = arrive i r
    | await i r, a => c.Other i ∧ a = release i r
    | _, _ => False
  val
    | arrive _ _ | release _ _ => 1
    | _ => 0

variable {c : Calls}

abbrev Prior (c : Calls) (a e : Event) : Prop := Before (sys c) (certificate c) a e

theorem Pre.prior {a e : Event} (h : Pre c a e) : Prior c a e := before_of_pre h

def Event.stage : Event → ℕ
  | enter _ r => 9 * r
  | data _ r | copy r => 9 * r + 1
  | arrive _ r => 9 * r + 2
  | collect _ r => 9 * r + 3
  | reset _ r => 9 * r + 4
  | release _ r => 9 * r + 5
  | quiet r | await _ r => 9 * r + 6
  | lower r | clear _ r => 9 * r + 7
  | ret _ r => 9 * r + 8

theorem depends_forward {a e : Event} (h : Depends (sys c) (certificate c) a e) :
    a.stage < e.stage := by
  rcases h with hp | hw
  · cases hp <;> simp only [Event.stage] <;> omega
  · grind [Event.stage, certificate]

theorem acyclic (c : Calls) : WellFounded (Depends (sys c) (certificate c)) :=
  acyclic_of_rank Event.stage depends_forward

def line (i k : ℕ) : Event :=
  match k % 6 with
  | 0 => arrive i (k / 6)
  | 1 => collect i (k / 6)
  | 2 => reset i (k / 6)
  | 3 => release i (k / 6)
  | 4 => await i (k / 6)
  | _ => clear i (k / 6)

theorem arrive_eq (i r : ℕ) : arrive i r = line i (6 * r) := by
  simp [line]

theorem collect_eq (i r : ℕ) : collect i r = line i (6 * r + 1) := by
  simp [line, Nat.mul_add_div]

theorem reset_eq (i r : ℕ) : reset i r = line i (6 * r + 2) := by
  simp [line, Nat.mul_add_div]

theorem release_eq (i r : ℕ) : release i r = line i (6 * r + 3) := by
  simp [line, Nat.mul_add_div]

theorem await_eq (i r : ℕ) : await i r = line i (6 * r + 4) := by
  simp [line, Nat.mul_add_div]

theorem clear_eq (i r : ℕ) : clear i r = line i (6 * r + 5) := by
  simp [line, Nat.mul_add_div]

theorem line_step {i : ℕ} (hi : c.Other i) (k : ℕ) : Prior c (line i k) (line i (k + 1)) := by
  obtain ⟨r, s, hs, rfl⟩ : ∃ r s, s < 6 ∧ k = 6 * r + s :=
    ⟨k / 6, k % 6, Nat.mod_lt k (by decide), (Nat.div_add_mod k 6).symm⟩
  have hnext : 6 * r + 6 = 6 * (r + 1) := by ring
  match s, hs with
  | 0, _ =>
    rw [Nat.add_zero, ← arrive_eq, ← collect_eq]
    exact before_of_waits ⟨hi, rfl⟩
  | 1, _ =>
    rw [← collect_eq, ← reset_eq]
    exact (Pre.reset hi).prior
  | 2, _ =>
    rw [← reset_eq, ← release_eq]
    exact (Pre.release hi hi).prior
  | 3, _ =>
    rw [← release_eq, ← await_eq]
    exact before_of_waits ⟨hi, rfl⟩
  | 4, _ =>
    rw [← await_eq, ← clear_eq]
    exact (Pre.clear hi).prior
  | 5, _ =>
    rw [← clear_eq, hnext, ← arrive_eq]
    exact ((Pre.ret hi).prior.trans (Pre.again hi.2).prior).trans (Pre.arrive hi).prior

theorem prior_of_line {i k k' : ℕ} {a e : Event} (hi : c.Other i) (ha : a = line i k)
    (he : e = line i k') (hk : k ≤ k') : Prior c a e := by
  rw [ha, he]
  exact before_of_le (line_step hi) hk

theorem line_total {i : ℕ} {a e : Event} (hi : c.Other i) (ha : ∃ k, a = line i k)
    (he : ∃ k, e = line i k) : Prior c a e ∨ Prior c e a := by
  obtain ⟨k, hk⟩ := ha
  obtain ⟨k', hk'⟩ := he
  exact (le_total k k').imp (prior_of_line hi hk hk') (prior_of_line hi hk' hk)

variable {e : Event}

theorem arrival_line {i r : ℕ} (h : e = arrive i r ∨ e = reset i r) : ∃ k, e = line i k := by
  rcases h with rfl | rfl
  · exact ⟨_, arrive_eq i r⟩
  · exact ⟨_, reset_eq i r⟩

theorem release_line {i r : ℕ} (h : e = release i r ∨ e = clear i r) : ∃ k, e = line i k := by
  rcases h with rfl | rfl
  · exact ⟨_, release_eq i r⟩
  · exact ⟨_, clear_eq i r⟩

theorem enter_lower (r : ℕ) : Prior c (enter 0 r) (lower r) :=
  Pre.quietEnter.prior.trans Pre.lower.prior

theorem lower_enter (r : ℕ) : Prior c (lower r) (enter 0 (r + 1)) :=
  Pre.retFirst.prior.trans (Pre.again c.pes_pos).prior

theorem lower_enter_lt {r r' : ℕ} (hr : r < r') : Prior c (lower r) (enter 0 r') := by
  have hnext : ∀ r, Prior c (enter 0 r) (enter 0 (r + 1)) :=
    fun r => (enter_lower r).trans (lower_enter r)
  exact (lower_enter r).trans (before_of_le (f := fun r => enter 0 r) hnext hr)

theorem lower_lt {r r' : ℕ} (hr : r < r') : Prior c (lower r) (lower r') :=
  (lower_enter_lt hr).trans (enter_lower r')

theorem reset_lower {i : ℕ} (hi : c.Other i) (r : ℕ) : Prior c (reset i r) (lower r) :=
  ((Pre.release hi hi).prior.trans (Pre.quiet hi).prior).trans Pre.lower.prior

variable {d : ℕ × ℕ}

theorem stores_cases (he : Occurs c e) (h : (sys c).StoresTo d e) :
    (∃ i r, c.Other i ∧ d = (c.peStart, i) ∧ (e = arrive i r ∨ e = reset i r)) ∨
    (∃ i r, c.Other i ∧ d = (c.member i, 0) ∧ (e = release i r ∨ e = clear i r)) ∨
    ∃ r, d = (c.peStart, 0) ∧ e = lower r := by
  obtain ⟨f, hf⟩ := h
  grind [Occurs, sys, Calls.releaseTarget_eq]

theorem not_addsTo : ¬ (sys c).AddsTo d e := by
  rintro ⟨v, hv⟩
  cases e <;> cases hv

theorem arrival_writer {i : ℕ} (hi : c.Other i) (he : Occurs c e)
    (h : (sys c).StoresTo (c.peStart, i) e) : ∃ r, e = arrive i r ∨ e = reset i r := by
  grind [Calls.Other, stores_cases]

theorem release_writer {i : ℕ} (hi : c.Other i) (he : Occurs c e)
    (h : (sys c).StoresTo (c.member i, 0) e) : ∃ r, e = release i r ∨ e = clear i r := by
  grind [GdaPutBroadcast.Calls.Other, GdaPutBroadcast.stores_cases, CentralDirectBarrier.member_inj,
    CentralDirectBarrier.member_eq_start]

theorem first_writer (he : Occurs c e) (h : (sys c).StoresTo (c.peStart, 0) e) :
    ∃ r, e = lower r := by
  rcases stores_cases he h with ⟨j, r, hj, hd, -⟩ | ⟨j, r, hj, hd, -⟩ | ⟨r, -, rfl⟩
  · have hpos := hj.1
    simp only [Prod.mk.injEq, true_and] at hd
    omega
  · have hpos := hj.1
    simp only [Prod.mk.injEq, and_true, CentralDirectBarrier.start_eq_member] at hd
    omega
  · exact ⟨r, rfl⟩

variable {X : Set Event} {m : ℕ × ℕ → ℤ} {i r : ℕ}

theorem writers_ordered {w w' : Event} (hw : Occurs c w) (hw' : Occurs c w')
    (hs : (sys c).StoresTo d w) (hs' : (sys c).StoresTo d w') :
    w = w' ∨ Prior c w w' ∨ Prior c w' w := by
  rcases stores_cases hw hs with ⟨i, r, hi, rfl, h⟩ | ⟨i, r, hi, rfl, h⟩ | ⟨r, rfl, rfl⟩
  · obtain ⟨r', h'⟩ := arrival_writer hi hw' hs'
    exact .inr (line_total hi (arrival_line h) (arrival_line h'))
  · obtain ⟨r', h'⟩ := release_writer hi hw' hs'
    exact .inr (line_total hi (release_line h) (release_line h'))
  · obtain ⟨r', rfl⟩ := first_writer hw' hs'
    rcases Nat.lt_trichotomy r r' with h | rfl | h
    · exact .inr (.inl (lower_lt h))
    · exact .inl rfl
    · exact .inr (.inr (lower_lt h))

theorem not_prior_back {k k' : ℕ} {a : Event} (hi : c.Other i) (ha : a = line i k)
    (he : e = line i k') (hk : k ≤ k') (hne : a ≠ e) : ¬ Prior c e a :=
  fun h => hne (before_antisymm (acyclic c) (prior_of_line hi ha he hk) h)

section

variable (hc : Consistent (sys c) (certificate c) (fun _ => 0) X m) (hi : c.Other i)
include hc hi

theorem collect_matched (henter : enter 0 r ∈ X) (hm : m (c.peStart, i) = 1) : arrive i r ∈ X := by
  rcases hc.last_store (c := (c.peStart, i)) fun _ => not_addsTo with
    ⟨hzero, -⟩ | ⟨w, hw, hs, hval, hlast⟩
  · omega
  obtain ⟨r', rfl | rfl⟩ := arrival_writer hi (hc.events w hw) hs
  · rcases Nat.lt_or_ge r' r with hlt | hge
    · -- the flag of an earlier call was cleared before this one
      have hreset : reset i r' ∈ X :=
        ((reset_lower hi r').trans (lower_enter_lt hlt)) X hc.closed henter
      exact absurd (hlast _ hreset ⟨_, rfl⟩)
        (not_prior_back hi (arrive_eq i r') (reset_eq i r') (by omega) nofun)
    · exact prior_of_line hi (arrive_eq i r) (arrive_eq i r') (by omega) X hc.closed hw
  · rw [hm] at hval
    cases hval

theorem await_matched (harrive : arrive i r ∈ X) (hm : m (c.member i, 0) = 1) :
    release i r ∈ X := by
  rcases hc.last_store (c := (c.member i, 0)) fun _ => not_addsTo with
    ⟨hzero, -⟩ | ⟨w, hw, hs, hval, hlast⟩
  · omega
  obtain ⟨r', rfl | rfl⟩ := release_writer hi (hc.events w hw) hs
  · rcases Nat.lt_or_ge r' r with hlt | hge
    · have hclear : clear i r' ∈ X :=
        prior_of_line hi (clear_eq i r') (arrive_eq i r) (by omega) X hc.closed harrive
      exact absurd (hlast _ hclear ⟨_, rfl⟩)
        (not_prior_back hi (release_eq i r') (clear_eq i r') (by omega) nofun)
    · exact prior_of_line hi (release_eq i r) (release_eq i r') (by omega) X hc.closed hw
  · rw [hm] at hval
    cases hval

theorem collect_guard (harrive : arrive i r ∈ X) (hX : collect i r ∉ X) : m (c.peStart, i) = 1 := by
  apply hc.read_before (acyclic c) hX harrive ⟨_, rfl⟩
  intro w hw hwr
  obtain ⟨r', rfl | rfl⟩ := arrival_writer hi hw (hwr.resolve_right not_addsTo)
  · grind [arrive_eq, collect_eq, prior_of_line]
  · grind [arrive_eq, collect_eq, reset_eq, prior_of_line]

theorem await_guard (hrelease : release i r ∈ X) (hX : await i r ∉ X) : m (c.member i, 0) = 1 := by
  have hs : (sys c).StoresTo (c.member i, 0) (release i r) := by
    rw [← c.releaseTarget_eq hi]
    exact ⟨_, rfl⟩
  apply hc.read_before (acyclic c) hX hrelease hs
  intro w hw hwr
  obtain ⟨r', rfl | rfl⟩ := release_writer hi hw (hwr.resolve_right not_addsTo)
  · grind [release_eq, await_eq, prior_of_line]
  · grind [release_eq, await_eq, clear_eq, prior_of_line]

end

theorem sound (c : Calls) : Sound (sys c) (certificate c) anyStep fun _ => 0 where
  acyclic := acyclic c
  ordered := by
    intro d w w' hw hw' hs hwr
    rcases hwr with hs' | hadd
    · exact writers_ordered hw hw' hs hs'
    · exact absurd hadd not_addsTo
  matched := by
    intro X m e hc he _ hr hg _ a ha
    cases e with
    | collect i r =>
      obtain ⟨hi, rfl⟩ := ha
      exact collect_matched hc hi (hr _ (.collect hi)) hg
    | await i r =>
      obtain ⟨hi, rfl⟩ := ha
      exact await_matched hc hi (hr _ (.await hi)) hg
    | _ => exact ha.elim
  valued := by
    intro X m e d f _ _ _ _ _ hact
    cases e <;> cases hact <;> rfl

theorem pre_occurs {a : Event} (h : Pre c a e) : Occurs c a := by
  have hpos := c.pes_pos
  cases h with
  | again hi => exact hi
  | post | copy => exact c.root_lt _
  | queue hi hne => exact ⟨hi, hne⟩
  | arrive hi => exact hi.2
  | arriveData hr => exact ⟨hpos, hr.ne⟩
  | collect | quietEnter => exact hpos
  | reset hi | quiet hi | await hi | clear hi | ret hi => exact hi
  | release _ hj => exact hj
  | releaseData _ hj hr => exact ⟨hj.2, fun h => hj.1.ne' (h.trans hr)⟩
  | arriveCopy | collectCopy | quietCopy | lower | retFirst => trivial

theorem live (c : Calls) : Live (sys c) (certificate c) anyStep fun _ => 0 where
  pre_event _ _ := pre_occurs
  waits_event := by
    intro e a h
    cases e with
    | collect | await =>
      obtain ⟨hi, rfl⟩ := h
      exact hi
    | _ => exact h.elim
  guarded := by
    intro X m e hc he hX _ hw
    refine ⟨?_, trivial⟩
    cases e with
    | collect i r => exact collect_guard hc he (hw _ ⟨he, rfl⟩) hX
    | await i r => exact await_guard hc he (hw _ ⟨he, rfl⟩) hX
    | _ => trivial

theorem copy_ret (c : Calls) (r : ℕ) : Prior c (copy r) (ret (c.root r) r) := by
  rcases Nat.eq_zero_or_pos (c.root r) with hr | hr
  · rw [hr]
    exact ((Pre.quietCopy hr).prior.trans Pre.lower.prior).trans Pre.retFirst.prior
  · have hi : c.Other (c.root r) := ⟨hr, c.root_lt r⟩
    have hclear : Prior c (copy r) (clear (c.root r) r) :=
      (Pre.arriveCopy hr).prior.trans
        (prior_of_line hi (arrive_eq _ r) (clear_eq _ r) (by omega))
    exact hclear.trans (Pre.ret hi).prior

theorem data_ret_first (hr : 0 < c.root r) : Prior c (data 0 r) (ret 0 r) := by
  have hi : c.Other (c.root r) := ⟨hr, c.root_lt r⟩
  have hreset : Prior c (data 0 r) (reset (c.root r) r) :=
    (Pre.arriveData hr).prior.trans (prior_of_line hi (arrive_eq _ r) (reset_eq _ r) (by omega))
  exact (hreset.trans (reset_lower hi r)).trans Pre.retFirst.prior

theorem data_ret_other (hi : c.Other i) (hr : c.root r = 0) : Prior c (data i r) (ret i r) := by
  have hclear : Prior c (data i r) (clear i r) :=
    (Pre.releaseData hi hi hr (c.releaseTarget_eq hi).symm).prior.trans
      (prior_of_line hi (release_eq i r) (clear_eq i r) (by omega))
  exact hclear.trans (Pre.ret hi).prior

def Delivered (c : Calls) (X : Set Event) (i r : ℕ) : Prop :=
  if i = c.root r then copy r ∈ X else data i r ∈ X

def BroadcastKept (c : Calls) : Prop :=
  ∀ X m, (sys c).Run anyStep (fun _ => 0) X m →
    ∀ i r, i < c.nPes → ret i r ∈ X → Delivered c X i r

def Event.call : Event → ℕ
  | enter _ r | data _ r | copy r | arrive _ r | collect _ r | reset _ r | release _ r | quiet r
  | lower r | await _ r | clear _ r | ret _ r => r

def withoutData (c : Calls) (i r : ℕ) : Set Event :=
  {e | Occurs c e ∧ e.call ≤ r ∧ e ≠ data i r}

theorem without_data_finite (c : Calls) (i r : ℕ) : (withoutData c i r).Finite := by
  have hpos := c.pes_pos
  have hfin := List.finite_toSet ((List.range c.nPes).flatMap fun j =>
    (List.range (r + 1)).flatMap fun r => [enter j r, data j r, copy r, arrive j r, collect j r,
      reset j r, release j r, quiet r, lower r, await j r, clear j r, ret j r])
  apply hfin.subset
  rintro e ⟨ho, hr, -⟩
  have hr := Nat.lt_succ_of_le hr
  simp only [Set.mem_ofPred_eq, List.mem_flatMap, List.mem_range]
  cases e with
  | enter j r | ret j r => exact ⟨j, ho, r, hr, by simp⟩
  | data j r => exact ⟨j, ho.1, r, hr, by simp⟩
  | copy r | quiet r | lower r => exact ⟨0, hpos, r, hr, by simp⟩
  | arrive j r | collect j r | reset j r | release j r | await j r | clear j r =>
    exact ⟨j, ho.2, r, hr, by simp⟩

theorem without_data_closed (hi : 0 < i) (hr : c.root r ≠ 0) :
    Closed (sys c) (certificate c) (withoutData c i r) := by
  rintro e ⟨-, hcall, hne⟩
  constructor
  · intro a ha
    refine ⟨pre_occurs ha, ?_, ?_⟩
    · cases ha <;> simp only [Event.call] at hcall ⊢ <;> omega
    · rintro rfl
      cases ha with
      | queue _ _ _ hlt => exact absurd hcall (Nat.not_le_of_lt hlt)
      | arriveData => exact absurd hi (Nat.lt_irrefl 0)
      | releaseData _ _ hfirst => exact hr hfirst
  · intro a ha
    cases e with
    | collect | await =>
      obtain ⟨ho, rfl⟩ := ha
      exact ⟨ho, hcall, nofun⟩
    | _ => exact ha.elim

theorem early_return (hi : c.Other i) (hr : c.root r ≠ 0) (hne : i ≠ c.root r) :
    ∃ X m, (sys c).Run anyStep (fun _ => 0) X m ∧ ret i r ∈ X ∧ ¬ Delivered c X i r := by
  obtain ⟨m, hrun⟩ := (live c).run_reaches (sound c) (without_data_finite c i r)
    (fun _ h => h.1) (without_data_closed hi.1 hr)
  refine ⟨_, m, hrun, ⟨hi.2, Nat.le_refl r, nofun⟩, ?_⟩
  rw [Delivered, if_neg hne]
  exact fun h => h.2.2 rfl

theorem broadcast_kept_iff (c : Calls) :
    BroadcastKept c ↔ c.nPes ≤ 2 ∨ ∀ r, c.root r = 0 := by
  constructor
  · intro h
    by_contra! hcon
    obtain ⟨hn, r, hr⟩ := hcon
    -- a third member, neither the first nor the root
    obtain ⟨i, hi, hne⟩ : ∃ i, c.Other i ∧ i ≠ c.root r := by
      by_cases hone : c.root r = 1
      · exact ⟨2, ⟨Nat.two_pos, hn⟩, by omega⟩
      · exact ⟨1, ⟨Nat.one_pos, by omega⟩, Ne.symm hone⟩
    obtain ⟨X, m, hrun, hret, hnot⟩ := early_return hi hr hne
    exact hnot (h X m hrun i r hi.2 hret)
  · intro hcond X m hrun i r hi hret
    have hc := run_consistent (sound c) hrun
    rw [Delivered]
    split
    next heq =>
      subst heq
      exact copy_ret c r X hc.closed hret
    next hne =>
      rcases Nat.eq_zero_or_pos i with rfl | hpos
      · exact data_ret_first (Nat.pos_of_ne_zero (Ne.symm hne)) X hc.closed hret
      · have hroot : c.root r = 0 := by
          rcases hcond with hn | hall
          · have hlt := c.root_lt r
            omega
          · exact hall r
        exact data_ret_other ⟨hpos, hi⟩ hroot X hc.closed hret

theorem three_pes : 0 < 3 := by decide

def threePes (root : Fin 3) : Calls where
  peStart := 0
  stride := 1
  nPes := 3
  stride_pos := Nat.one_pos
  pes_pos := three_pes
  numPes := 3
  waves := 2
  root _ := root
  small := by decide
  inside := by decide
  waves_pos := Nat.two_pos
  root_lt _ := root.isLt

theorem first_root_broadcast_kept : BroadcastKept (threePes 0) :=
  (broadcast_kept_iff _).mpr (.inr fun _ => rfl)

/-- With the second PE as root the third one returns before the message has arrived. -/
theorem third_returns_early : ∃ X m,
    (sys (threePes 1)).Run anyStep (fun _ => 0) X m ∧ ret 2 0 ∈ X ∧
      ¬ Delivered (threePes 1) X 2 0 :=
  early_return ⟨by decide, by decide⟩ (by decide) (by decide)

end GdaPutBroadcast
