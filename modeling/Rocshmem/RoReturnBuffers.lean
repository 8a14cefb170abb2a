import Rocshmem.GuardedMachines

/-! The return buffers of fetching calls on the default context. A wave takes a buffer from a
pool, its lanes wait for the host to write their results, the lowest lane gives the buffer
back, and only then do the lanes read their results. -/
namespace RoReturnBuffers

open GuardedMachines
open Function (update)

inductive Kind where
  | g
  | atomic
  deriving DecidableEq, Repr

/-- `kind`, `lanes` and `answer` are those of the `k`-th call of a wave: the pool it uses, its
active lanes, and what the host writes for the command of each lane. -/
structure Config (V : Type*) where
  waves : ℕ
  poolSize : ℕ
  kind : ℕ → ℕ → Kind
  lanes : ℕ → ℕ → ℕ
  answer : ℕ → ℕ → ℕ → V

inductive Phase where
  | idle
  | pending (buffer : ℕ)
  | reading (buffer : ℕ)
  deriving DecidableEq, Repr

/-- `lanesDone` lists the lanes served while a call is pending, and those that have read
their result afterwards. `pool` is the content of an `AtomicWFQueue`, first in first out. -/
structure State (V : Type*) where
  pool : Kind → List ℕ
  memory : Kind → ℕ → ℕ → V
  calls : ℕ → ℕ
  phase : ℕ → Phase
  lanesDone : ℕ → List ℕ
  result : ℕ → ℕ → ℕ → Option V

inductive Event where
  | dequeue (w b : ℕ)
  | serve (w b l : ℕ)
  | enqueue (w b : ℕ)
  | read (w b l : ℕ)
  | ret (w b : ℕ)
  deriving DecidableEq

variable {V : Type*}

def Config.kindOf (C : Config V) (s : State V) (w : ℕ) : Kind := C.kind w (s.calls w)

def Config.lanesOf (C : Config V) (s : State V) (w : ℕ) : ℕ := C.lanes w (s.calls w)

def Config.answerOf (C : Config V) (s : State V) (w l : ℕ) : V := C.answer w (s.calls w) l

open Config (kindOf answerOf)

def initial (C : Config V) (m : Kind → ℕ → ℕ → V) : State V where
  pool _ := List.range C.poolSize
  memory := m
  calls _ := 0
  phase _ := .idle
  lanesDone _ := []
  result _ _ _ := none

def Enabled (C : Config V) (s : State V) : Event → Prop
  | .dequeue w b => w < C.waves ∧ s.phase w = .idle ∧ (s.pool (C.kindOf s w)).head? = some b
  | .serve w b l => s.phase w = .pending b ∧ l < C.lanesOf s w ∧ l ∉ s.lanesDone w
  | .enqueue w b => s.phase w = .pending b ∧ ∀ l < C.lanesOf s w, l ∈ s.lanesDone w
  | .read w b l => s.phase w = .reading b ∧ l < C.lanesOf s w ∧ l ∉ s.lanesDone w
  | .ret w b => s.phase w = .reading b ∧ ∀ l < C.lanesOf s w, l ∈ s.lanesDone w

def store (m : Kind → ℕ → ℕ → V) (k : Kind) (b l : ℕ) (v : V) : Kind → ℕ → ℕ → V :=
  update m k (update (m k) b (update (m k b) l v))

def next (C : Config V) (s : State V) : Event → State V
  | .dequeue w b =>
    { s with
      pool := update s.pool (C.kindOf s w) (s.pool (C.kindOf s w)).tail
      phase := update s.phase w (.pending b)
      lanesDone := update s.lanesDone w [] }
  | .serve w b l =>
    { s with
      memory := store s.memory (C.kindOf s w) b l (C.answerOf s w l)
      lanesDone := update s.lanesDone w (l :: s.lanesDone w) }
  | .enqueue w b =>
    { s with
      pool := update s.pool (C.kindOf s w) (s.pool (C.kindOf s w) ++ [b])
      phase := update s.phase w (.reading b)
      lanesDone := update s.lanesDone w [] }
  | .read w b l =>
    { s with
      result := update s.result w (update (s.result w) (s.calls w)
        (update (s.result w (s.calls w)) l (some (s.memory (C.kindOf s w) b l))))
      lanesDone := update s.lanesDone w (l :: s.lanesDone w) }
  | .ret w _ =>
    { s with
      calls := update s.calls w (s.calls w + 1)
      phase := update s.phase w .idle }

def machine (C : Config V) (m : Kind → ℕ → ℕ → V) : Machine (State V) Event where
  initial := initial C m
  enabled := Enabled C
  next := next C

instance (C : Config V) (m : Kind → ℕ → ℕ → V) (s : State V) (e : Event) :
    Decidable ((machine C m).enabled s e) := by
  cases e <;> dsimp only [machine, Enabled] <;> infer_instance

structure ValuesKept (C : Config V) (s : State V) : Prop where
  own : ∀ w k l v, s.result w k l = some v → v = C.answer w k l
  unshared : ∀ w w' b, s.phase w = .reading b → s.phase w' = .pending b →
    C.kindOf s w = C.kindOf s w' → ∀ l < C.lanesOf s w, l ∈ s.lanesDone w

section OneWave

structure Invariant (C : Config V) (s : State V) : Prop where
  active : ∀ w, s.phase w ≠ .idle → w < C.waves
  served : ∀ w b, s.phase w = .pending b → ∀ l ∈ s.lanesDone w,
    s.memory (C.kindOf s w) b l = C.answerOf s w l
  ready : ∀ w b, s.phase w = .reading b → ∀ l < C.lanesOf s w,
    s.memory (C.kindOf s w) b l = C.answerOf s w l
  own : ∀ w k l v, s.result w k l = some v → v = C.answer w k l

variable {C : Config V} {m : Kind → ℕ → ℕ → V} {s : State V}

theorem initial_invariant : Invariant C (initial C m) := by
  constructor <;> simp [initial]

theorem Invariant.only (h : Invariant C s) (hone : C.waves ≤ 1) {w w' : ℕ}
    (hw : s.phase w ≠ .idle) (hw' : w' ≠ w) : s.phase w' = .idle := by
  by_contra hidle
  have := h.active w hw
  have := h.active w' hidle
  omega

variable {w b : ℕ}

section

variable (h : Invariant C s)
include h

theorem Invariant.dequeue (he : Enabled C s (.dequeue w b)) :
    Invariant C (next C s (.dequeue w b)) := by
  have hother : ∀ {w'}, w' ≠ w → (next C s (.dequeue w b)).phase w' = s.phase w' :=
    fun hne => Function.update_of_ne hne _ _
  refine ⟨?_, ?_, ?_, h.own⟩
  · intro w' hw'
    by_cases hww : w' = w
    · exact hww ▸ he.1
    · exact h.active w' (by rwa [hother hww] at hw')
  · intro w' b' hw' l hl
    by_cases hww : w' = w
    · subst hww
      simp [next] at hl
    · rw [hother hww] at hw'
      exact h.served w' b' hw' l (by simpa [next, hww] using hl)
  · intro w' b' hw'
    by_cases hww : w' = w
    · subst hww
      simp [next] at hw'
    · exact h.ready w' b' (by rwa [hother hww] at hw')

theorem Invariant.serve (hone : C.waves ≤ 1) {l : ℕ} (he : Enabled C s (.serve w b l)) :
    Invariant C (next C s (.serve w b l)) := by
  obtain ⟨hphase, -, -⟩ := he
  refine ⟨h.active, ?_, ?_, h.own⟩
  · intro w' b' hw' l' hl'
    have hww : w' = w := by
      by_contra hne
      have hidle := h.only hone (by simp [hphase]) hne
      exact absurd (hidle.symm.trans hw') (by simp)
    subst hww
    obtain rfl := Phase.pending.inj (hw'.symm.trans hphase)
    by_cases hll : l' = l
    · subst hll
      simp [next, store, kindOf, answerOf]
    · have hold := h.served w' b' hphase l' (by simpa [next, hll] using hl')
      simpa [next, store, hll, kindOf, answerOf] using hold
  · intro w' b' hw'
    have hww : w' ≠ w := by
      rintro rfl
      exact absurd (hphase.symm.trans hw') (by simp)
    have hidle := h.only hone (by simp [hphase]) hww
    exact absurd (hidle.symm.trans hw') (by simp)

theorem Invariant.enqueue (he : Enabled C s (.enqueue w b)) :
    Invariant C (next C s (.enqueue w b)) := by
  obtain ⟨hphase, hall⟩ := he
  have hother : ∀ {w'}, w' ≠ w → (next C s (.enqueue w b)).phase w' = s.phase w' :=
    fun hne => Function.update_of_ne hne _ _
  refine ⟨?_, ?_, ?_, h.own⟩
  · grind [Invariant]
  · intro w' b' hw' l hl
    by_cases hww : w' = w
    · subst hww
      simp [next] at hw'
    · rw [hother hww] at hw'
      exact h.served w' b' hw' l (by simpa [next, hww] using hl)
  · intro w' b' hw' l hl
    by_cases hww : w' = w
    · subst hww
      obtain rfl : b = b' := by simpa [next] using hw'
      exact h.served w' b hphase l (hall l hl)
    · exact h.ready w' b' (by rwa [hother hww] at hw') l hl

theorem Invariant.read {l : ℕ} (he : Enabled C s (.read w b l)) :
    Invariant C (next C s (.read w b l)) := by
  obtain ⟨hphase, hl, -⟩ := he
  refine ⟨h.active, ?_, h.ready, ?_⟩
  · intro w' b' hw' l' hl'
    have hww : w' ≠ w := by
      rintro rfl
      exact absurd (hphase.symm.trans hw') (by simp)
    exact h.served w' b' hw' l' (by simpa [next, hww] using hl')
  · intro w' k l' v hv
    by_cases hnew : w' = w ∧ k = s.calls w ∧ l' = l
    · obtain ⟨rfl, rfl, rfl⟩ := hnew
      have hready := h.ready w' b hphase l' hl
      simp only [next, Function.update_self, Option.some.injEq] at hv
      rw [← hv, hready, answerOf]
    · apply h.own w' k l' v
      by_cases hww : w' = w
      · subst hww
        by_cases hk : k = s.calls w'
        · subst hk
          have hll : l' ≠ l := fun heq => hnew ⟨rfl, rfl, heq⟩
          simpa [next, hll] using hv
        · simpa [next, hk] using hv
      · simpa [next, hww] using hv

theorem Invariant.ret : Invariant C (next C s (.ret w b)) := by
  have hother : ∀ {w'}, w' ≠ w → (next C s (.ret w b)).phase w' = s.phase w' :=
    fun hne => Function.update_of_ne hne _ _
  have hne_of : ∀ {w'}, (next C s (.ret w b)).phase w' ≠ .idle → w' ≠ w := by
    rintro w' hw' rfl
    simp [next] at hw'
  refine ⟨?_, ?_, ?_, h.own⟩
  · intro w' hw'
    have hne := hne_of hw'
    exact h.active w' (by rwa [hother hne] at hw')
  · intro w' b' hw' l hl
    have hne : w' ≠ w := hne_of (by simp [hw'])
    rw [hother hne] at hw'
    simpa [next, kindOf, answerOf, hne] using h.served w' b' hw' l hl
  · intro w' b' hw' l hl
    have hne : w' ≠ w := hne_of (by simp [hw'])
    rw [hother hne] at hw'
    have hold := h.ready w' b' hw' l (by simpa [next, Config.lanesOf, hne] using hl)
    simpa [next, kindOf, answerOf, hne] using hold

theorem step_preserves_invariant (hone : C.waves ≤ 1) {e : Event} (he : Enabled C s e) :
    Invariant C (next C s e) := by
  cases e with
  | dequeue w b => exact h.dequeue he
  | serve w b l => exact h.serve hone he
  | enqueue w b => exact h.enqueue he
  | read w b l => exact h.read he
  | ret w b => exact h.ret

end

theorem one_wave_kept (hone : C.waves ≤ 1) (h : (machine C m).Run anyStep s) :
    ValuesKept C s := by
  have hinv : Invariant C s :=
    h.induct initial_invariant fun _ _ hs he _ => step_preserves_invariant hs hone he
  refine ⟨hinv.own, ?_⟩
  intro w w' b hw hw'
  have hne : w' ≠ w := by
    rintro rfl
    exact absurd (hw.symm.trans hw') (by simp)
  have hidle := hinv.only hone (by simp [hw]) hne
  exact absurd (hidle.symm.trans hw') (by simp)

theorem Run.fire (e : Event) (he : Enabled C s e) (h : (machine C m).Run anyStep s) :
    (machine C m).Run anyStep (next C s e) :=
  h.step he trivial

theorem no_buffers_kept (hpool : C.poolSize = 0) (h : (machine C m).Run anyStep s) :
    ValuesKept C s := by
  have hstill : (∀ k, s.pool k = []) ∧ (∀ w, s.phase w = .idle) ∧ ∀ w k l,
    s.result w k l = none := by
    refine h.induct (I := fun s => (∀ k, s.pool k = []) ∧ (∀ w, s.phase w = .idle) ∧
      ∀ w k l, s.result w k l = none) ?_ ?_
    · exact ⟨fun k => by simp [machine, initial, hpool], fun _ => rfl, fun _ _ _ => rfl⟩
    · rintro s e ⟨hempty, hidle, -⟩ he -
      cases e with
      | dequeue w b => simp [machine, Enabled, hempty] at he
      | serve | enqueue | read | ret => simp [machine, Enabled, hidle] at he
  obtain ⟨-, hidle, hnone⟩ := hstill
  exact ⟨by simp [hnone], by simp [hidle]⟩

end OneWave

section TwoWaves

def singleLane [Inhabited V] (waves poolSize : ℕ) : Config V where
  waves := waves
  poolSize := poolSize
  kind _ _ := .g
  lanes _ _ := 1
  answer _ _ _ := default

variable [Inhabited V] {waves poolSize : ℕ} {m : Kind → ℕ → ℕ → V} {s : State V}

structure Parked (s : State V) : Prop where
  reading : s.phase 0 = .reading 0
  unread : s.lanesDone 0 = []
  idle : s.phase 1 = .idle

theorem call_rotates (hwaves : 1 < waves) {b : ℕ} {rest : List ℕ}
    (h : (machine (singleLane waves poolSize) m).Run anyStep s) (hp : Parked s)
    (hpool : s.pool .g = b :: rest) :
    ∃ s', (machine (singleLane waves poolSize) m).Run anyStep s' ∧ Parked s' ∧
      s'.pool .g = rest ++ [b] := by
  have hlanes : ∀ s : State V, (singleLane waves poolSize).lanesOf s 1 = 1 := fun _ => rfl
  have hkind : ∀ s : State V, (singleLane waves poolSize).kindOf s 1 = .g := fun _ => rfl
  have h₁ := Run.fire (.dequeue 1 b) ⟨hwaves, hp.idle, by simp [hkind, hpool]⟩ h
  have h₂ := Run.fire (.serve 1 b 0) ⟨by simp [next], by simp [hlanes], by simp [next]⟩ h₁
  have h₃ := Run.fire (.enqueue 1 b) ⟨by simp [next], by simp [hlanes, next]⟩ h₂
  have h₄ := Run.fire (.read 1 b 0) ⟨by simp [next], by simp [hlanes], by simp [next]⟩ h₃
  have h₅ := Run.fire (.ret 1 b) ⟨by simp [next], by simp [hlanes, next]⟩ h₄
  refine ⟨_, h₅, ⟨?_, ?_, ?_⟩, ?_⟩
  · simpa [next] using hp.reading
  · simpa [next] using hp.unread
  · simp [next]
  · simp [next, hkind, hpool]

theorem calls_rotate (hwaves : 1 < waves) {l rest : List ℕ}
    (h : (machine (singleLane waves poolSize) m).Run anyStep s) (hp : Parked s)
    (hpool : s.pool .g = l ++ rest) :
    ∃ s', (machine (singleLane waves poolSize) m).Run anyStep s' ∧ Parked s' ∧
      s'.pool .g = rest ++ l := by
  induction l generalizing s rest with
  | nil => exact ⟨s, h, hp, by simpa using hpool⟩
  | cons b l ih =>
    grind [call_rotates]

theorem parked_run (hwaves : 1 < waves) (n : ℕ) (m : Kind → ℕ → ℕ → V) :
    ∃ s, (machine (singleLane waves (n + 1)) m).Run anyStep s ∧ Parked s ∧
      s.pool .g = (List.range n).map (· + 1) ++ [0] := by
  have hlanes : ∀ s : State V, (singleLane waves (n + 1)).lanesOf s 0 = 1 := fun _ => rfl
  have hrange : List.range (n + 1) = 0 :: (List.range n).map (· + 1) := List.range_succ_eq_map
  have h₀ : (machine (singleLane waves (n + 1)) m).Run anyStep _ := .init
  have h₁ := Run.fire (.dequeue 0 0) ⟨Nat.zero_lt_of_lt hwaves, rfl,
    by simp [machine, initial, singleLane, hrange]⟩ h₀
  have h₂ := Run.fire (.serve 0 0 0) ⟨by simp [next], by simp [hlanes], by simp [next]⟩ h₁
  have h₃ := Run.fire (.enqueue 0 0) ⟨by simp [next], by simp [hlanes, next]⟩ h₂
  refine ⟨_, h₃, ⟨?_, ?_, ?_⟩, ?_⟩
  · simp [next]
  · simp [next]
  · simp [machine, next, initial]
  · simp [machine, next, initial, kindOf, singleLane, hrange]

theorem two_waves_share (hwaves : 1 < waves) (n : ℕ) (m : Kind → ℕ → ℕ → V) :
    ∃ s, (machine (singleLane waves (n + 1)) m).Run anyStep s ∧
      ¬ ValuesKept (singleLane waves (n + 1)) s := by
  obtain ⟨s₁, h₁, hp₁, hpool₁⟩ := parked_run hwaves n m
  obtain ⟨s₂, h₂, hp₂, hpool₂⟩ := calls_rotate hwaves h₁ hp₁ hpool₁
  have hkind : (singleLane waves (n + 1)).kindOf s₂ 1 = .g := rfl
  refine ⟨_, Run.fire (.dequeue 1 0) ⟨hwaves, hp₂.idle, by simp [hkind, hpool₂]⟩ h₂, ?_⟩
  intro hkept
  have hread := hkept.unshared 0 1 0 (by simpa [next] using hp₂.reading)
    (by simp [next]) rfl 0 Nat.one_pos
  simp [next, hp₂.unread] at hread

end TwoWaves

/-- Whatever the calls, the values and the interleaving, results are kept exactly when at most
one wave calls, or there is no buffer to call with. -/
theorem values_kept_iff (V : Type*) [Inhabited V] (waves poolSize : ℕ) :
    (∀ C : Config V, C.waves = waves → C.poolSize = poolSize → ∀ m s,
      (machine C m).Run anyStep s → ValuesKept C s) ↔ waves ≤ 1 ∨ poolSize = 0 := by
  constructor
  · intro h
    by_contra hno
    obtain ⟨hwaves, hpool⟩ := not_or.mp hno
    obtain ⟨n, rfl⟩ := Nat.exists_eq_succ_of_ne_zero hpool
    obtain ⟨s, hrun, hnot⟩ := two_waves_share (Nat.lt_of_not_le hwaves) n fun _ _ _ => (default : V)
    exact hnot (h (singleLane waves (n + 1)) rfl rfl _ s hrun)
  · rintro (hone | hnone) C rfl rfl m s hrun
    · exact one_wave_kept hone hrun
    · exact no_buffers_kept hnone hrun

def oneWave : Config ℕ := ⟨1, 1, fun _ _ => .g, fun _ _ => 2, fun w k l => 100 * w + 10 * k + l + 1⟩

/-- The second call returns its own values though it uses the buffer of the first. -/
theorem one_wave_values_kept :
    ∃ s, (machine oneWave fun _ _ _ => 0).Run anyStep s ∧ s.result 0 1 1 = some 12 ∧
      ValuesKept oneWave s := by
  obtain ⟨s, hrun, hs⟩ := (machine oneWave fun _ _ _ => 0).run_of_replay anyStep
    [.dequeue 0 0, .serve 0 0 1, .serve 0 0 0, .enqueue 0 0, .read 0 0 0, .read 0 0 1, .ret 0 0,
      .dequeue 0 0, .serve 0 0 0, .serve 0 0 1, .enqueue 0 0, .read 0 0 1]
    (fun s => s.result 0 1 1 = some 12) (by decide +kernel)
  exact ⟨s, hrun, hs,
    (values_kept_iff ℕ 1 1).mpr (.inl (Nat.le_refl 1)) oneWave rfl rfl _ s hrun⟩

def twoWaves : Config ℕ := ⟨2, 1, fun _ _ => .g, fun _ _ => 1,
    fun w k l => 100 * w + 10 * k + l + 1⟩

/-- Wave 0 gives the buffer back, wave 1 is served in it, and wave 0 returns the value of wave 1. -/
theorem value_of_other_wave_returned :
    ∃ s, (machine twoWaves fun _ _ _ => 0).Run anyStep s ∧ s.result 0 0 0 = some 101 ∧
      twoWaves.answer 0 0 0 = 1 ∧ ¬ ValuesKept twoWaves s := by
  obtain ⟨s, hrun, hs⟩ := (machine twoWaves fun _ _ _ => 0).run_of_replay anyStep
    [.dequeue 0 0, .serve 0 0 0, .enqueue 0 0, .dequeue 1 0, .serve 1 0 0, .read 0 0 0]
    (fun s => s.result 0 0 0 = some 101) (by decide +kernel)
  have hresult := hs
  exact ⟨s, hrun, hresult, rfl, fun hkept => absurd (hkept.own 0 0 0 101 hresult) (by decide)⟩

end RoReturnBuffers
