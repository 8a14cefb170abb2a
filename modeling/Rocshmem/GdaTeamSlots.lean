import Rocshmem.ByteMasks
import Rocshmem.GuardedMachines

/-! The slots of the GDA team pools. `create_new_team` reduces the free masks of the members
with a bytewise and and takes the least bit that is left; `team_destroy` frees the bit on its
own PE only, so the masks of different PEs differ. -/
namespace GdaTeamSlots

open ByteMasks Function GuardedMachines List

structure World where
  useIpc : Bool
  maxUserTeams : ℕ
  members : ℕ → List ℕ

def World.numReservedTeams (w : World) : ℕ := if w.useIpc then 2 else 1

def World.maxNumTeams (w : World) : ℕ := w.maxUserTeams + w.numReservedTeams

def getLsNonZeroBit (bitmask : Mask) (maskLength : ℕ) : Option ℕ :=
  (range maskLength).find? bitmask.test

def setupTeams (w : World) : Mask :=
  (range' w.numReservedTeams w.maxUserTeams).foldl Mask.set Mask.zero

/-- Where the host of a PE stands: outside, in the reduction or in the barrier of the creation
of a team, or ended by `LOG_ERROR_EXIT`. -/
inductive Host where
  | outside
  | reducing (team : ℕ)
  | barrier (team : ℕ)
  | exited
  deriving DecidableEq

structure Pe where
  host : Host
  teamPoolBitmask : Mask
  poolIndex : ℕ → Option ℕ

structure State where
  pe : ℕ → Pe
  given : ℕ → ℕ → Option Mask
  constructed : ℕ → ℕ → Bool

def initial (w : World) : State where
  pe _ := ⟨.outside, setupTeams w, fun _ => none⟩
  given _ _ := none
  constructed _ _ := false

inductive Event where
  | reduce (p t : ℕ)
  | construct (p t : ℕ)
  | leave (p t : ℕ)
  | destroy (p t : ℕ)
  deriving DecidableEq

variable {w : World} {s : State} {p q t u i j : ℕ}

def State.reduced (s : State) (w : World) (t : ℕ) : Mask :=
  Mask.band ((w.members t).map fun q => (s.given t q).getD Mask.zero)

def State.commonIndex (s : State) (w : World) (t : ℕ) : Option ℕ :=
  getLsNonZeroBit (s.reduced w t) w.maxNumTeams

def enabled (w : World) (s : State) : Event → Prop
  | .reduce p t => p ∈ w.members t ∧ (s.pe p).host = .outside ∧ s.given t p = none
  | .construct p t => (s.pe p).host = .reducing t ∧ ∀ q ∈ w.members t, (s.given t q).isSome
  | .leave p t => (s.pe p).host = .barrier t ∧ ∀ q ∈ w.members t, s.constructed t q
  | .destroy p t => (s.pe p).host = .outside ∧ ((s.pe p).poolIndex t).isSome

instance (w : World) (s : State) (e : Event) : Decidable (enabled w s e) := by
  cases e <;> unfold enabled <;> infer_instance

def Pe.construct (x : Pe) (t : ℕ) : Option ℕ → Pe
  | none => { x with host := .exited }
  | some i =>
    { host := .barrier t
      teamPoolBitmask := x.teamPoolBitmask.clear i
      poolIndex := update x.poolIndex t (some i) }

def Pe.destroy (x : Pe) (t : ℕ) : Pe :=
  match x.poolIndex t with
  | none => x
  | some i =>
    { x with
      teamPoolBitmask := x.teamPoolBitmask.set i
      poolIndex := update x.poolIndex t none }

def Event.pe : Event → ℕ
  | .reduce p _ | .construct p _ | .leave p _ | .destroy p _ => p

def after (w : World) (s : State) : Event → Pe
  | .reduce p t => { s.pe p with host := .reducing t }
  | .construct p t => (s.pe p).construct t (s.commonIndex w t)
  | .leave p _ => { s.pe p with host := .outside }
  | .destroy p t => (s.pe p).destroy t

def State.give (s : State) : Event → ℕ → ℕ → Option Mask
  | .reduce p t => update s.given t
      (update (s.given t) p (some (s.pe p).teamPoolBitmask))
  | _ => s.given

def next (w : World) (s : State) (e : Event) : State where
  pe := update s.pe e.pe (after w s e)
  given := s.give e
  constructed :=
    match e with
    | .construct p t =>
      update s.constructed t (update (s.constructed t) p true)
    | _ => s.constructed

def machine (w : World) : Machine State Event where
  initial := initial w
  enabled := enabled w
  next := next w

instance (w : World) (s : State) (e : Event) : Decidable ((machine w).enabled s e) :=
  inferInstanceAs (Decidable (enabled w s e))

structure Pe.Slots (x : Pe) (w : World) : Prop where
  free : ∀ i < w.maxNumTeams,
    x.teamPoolBitmask.test i = true ↔ w.numReservedTeams ≤ i ∧ ∀ t, x.poolIndex t ≠ some i
  bounded : ∀ t i, x.poolIndex t = some i → w.numReservedTeams ≤ i ∧ i < w.maxNumTeams
  distinct : ∀ t u i, x.poolIndex t = some i → x.poolIndex u = some i → t = u

structure Invariant (w : World) (s : State) : Prop where
  slots : ∀ p, (s.pe p).Slots w
  waiting : ∀ p t, (s.pe p).host = .reducing t → p ∈ w.members t ∧
    s.given t p = some (s.pe p).teamPoolBitmask ∧ (s.pe p).poolIndex t = none
  agreed : ∀ p t i, (s.pe p).poolIndex t = some i →
    (∀ q ∈ w.members t, (s.given t q).isSome) ∧ s.commonIndex w t = some i

theorem getLsNonZeroBit_some {m : Mask} {n : ℕ} (h : getLsNonZeroBit m n = some i) :
    i < n ∧ m.test i = true :=
  ⟨mem_range.mp (mem_of_find?_eq_some h), find?_some h⟩

theorem test_foldl_set (l : List ℕ) (m : Mask) (i : ℕ) :
    (l.foldl Mask.set m).test i = true ↔ i ∈ l ∨ m.test i = true := by
  induction l generalizing m with
  | nil => simp
  | cons a l ih =>
    rw [foldl_cons, ih, Mask.test_set, Bool.or_eq_true, decide_eq_true_iff, mem_cons]
    tauto

theorem test_setupTeams (w : World) (i : ℕ) :
    (setupTeams w).test i = true ↔ w.numReservedTeams ≤ i ∧ i < w.maxNumTeams := by
  rw [setupTeams, test_foldl_set, Mask.test_zero, mem_range'_1, World.maxNumTeams,
    Nat.add_comm w.maxUserTeams]
  simp

theorem State.test_of_commonIndex (h : s.commonIndex w t = some i) {m : Mask}
    (hq : q ∈ w.members t) (hm : s.given t q = some m) : i < w.maxNumTeams ∧ m.test i = true := by
  obtain ⟨hlt, hbit⟩ := getLsNonZeroBit_some h
  refine ⟨hlt, Mask.test_of_band hbit ?_⟩
  exact mem_map.mpr ⟨q, hq, by rw [hm, Option.getD_some]⟩

namespace Pe.Slots

variable {x : Pe}

theorem construct (hx : x.Slots w) (hi : i < w.maxNumTeams)
    (hbit : x.teamPoolBitmask.test i = true) (ht : x.poolIndex t = none) :
    (x.construct t (some i)).Slots w := by
  obtain ⟨hres, hunused⟩ := (hx.free i hi).mp hbit
  refine ⟨?_, ?_, ?_⟩
  · intro j hj
    simp only [Pe.construct, Mask.test_clear, Bool.and_eq_true, Bool.not_eq_true',
      decide_eq_false_iff_not, hx.free j hj]
    constructor
    · grind
    · rintro ⟨hres', hnone⟩
      refine ⟨?_, hres', fun u hu => ?_⟩
      · rintro rfl
        exact hnone t (update_self ..)
      · have hut : u ≠ t := by
          rintro rfl
          rw [ht] at hu
          cases hu
        exact hnone u (by rw [update_of_ne hut, hu])
  · intro u j hu
    simp only [Pe.construct] at hu
    by_cases hut : u = t
    · rw [hut, update_self, Option.some.injEq] at hu
      exact hu ▸ ⟨hres, hi⟩
    · rw [update_of_ne hut] at hu
      exact hx.bounded u j hu
  · intro u v j hu hv
    simp only [Pe.construct] at hu hv
    grind [Slots]

theorem destroy (hx : x.Slots w) : (x.destroy t).Slots w := by
  unfold Pe.destroy
  cases ht : x.poolIndex t with
  | none => exact hx
  | some i =>
    have hlive : ∀ u j, update x.poolIndex t none u = some j →
        u ≠ t ∧ x.poolIndex u = some j := by
      grind
    refine ⟨?_, ?_, ?_⟩
    · grind [Slots, Mask.test_set]
    · intro u j hu
      exact hx.bounded u j (hlive u j hu).2
    · intro u v j hu hv
      exact hx.distinct u v j (hlive u j hu).2 (hlive v j hv).2

end Pe.Slots

theorem next_pe_self (e : Event) : (next w s e).pe e.pe = after w s e := update_self ..

variable {e : Event}

theorem next_pe_of_ne (hp : p ≠ e.pe) : (next w s e).pe p = s.pe p :=
  update_of_ne hp ..

theorem given_of_isSome (he : enabled w s e) (h : (s.given t q).isSome) :
    (next w s e).given t q = s.given t q := by
  cases e with
  | reduce p u =>
    obtain ⟨-, -, hnone⟩ := he
    by_cases htu : t = u
    · subst htu
      have hqp : q ≠ p := by
        rintro rfl
        simp [hnone] at h
      simp [next, State.give, hqp]
    · simp [next, State.give, htu]
  | construct | leave | destroy => rfl

theorem commonIndex_next (he : enabled w s e) (h : ∀ q ∈ w.members t, (s.given t q).isSome) :
    (next w s e).commonIndex w t = s.commonIndex w t := by
  have hmap : (w.members t).map (fun q => ((next w s e).given t q).getD Mask.zero) =
      (w.members t).map fun q => (s.given t q).getD Mask.zero :=
    map_congr_left fun q hq => by rw [given_of_isSome he (h q hq)]
  rw [State.commonIndex, State.commonIndex, State.reduced, State.reduced, hmap]

theorem given_reduce : (next w s (.reduce p t)).given t p = some (s.pe p).teamPoolBitmask := by
  simp [next, State.give]

theorem slots_initial (w : World) (p : ℕ) : ((initial w).pe p).Slots w where
  free i hi := by simp [initial, test_setupTeams, hi]
  bounded t i h := by cases h
  distinct t u i h := by cases h

theorem invariant_initial (w : World) : Invariant w (initial w) where
  slots := slots_initial w
  waiting p t h := by cases h
  agreed p t i h := by cases h

section

variable (hs : Invariant w s) (he : enabled w s e)
include hs he

theorem slots_after :
    (after w s e).Slots w := by
  cases e with
  | reduce p t | leave p t => exact ⟨(hs.slots p).free, (hs.slots p).bounded, (hs.slots p).distinct⟩
  | destroy p t => exact (hs.slots p).destroy
  | construct p t =>
    obtain ⟨hmem, hgiven, hnone⟩ := hs.waiting p t he.1
    cases hc : s.commonIndex w t with
    | none =>
      rw [after, hc]
      exact ⟨(hs.slots p).free, (hs.slots p).bounded, (hs.slots p).distinct⟩
    | some i =>
      rw [after, hc]
      obtain ⟨hlt, hbit⟩ := s.test_of_commonIndex hc hmem hgiven
      exact (hs.slots p).construct hlt hbit hnone

theorem waiting_after (h : (after w s e).host = .reducing t) : e.pe ∈ w.members t ∧
      (next w s e).given t e.pe = some (after w s e).teamPoolBitmask ∧
      (after w s e).poolIndex t = none := by
  cases e with
  | reduce p u =>
    obtain rfl : u = t := Host.reducing.inj h
    obtain ⟨hmem, -, hnone⟩ := he
    refine ⟨hmem, given_reduce, ?_⟩
    cases hlive : (s.pe p).poolIndex u with
    | none => exact hlive
    | some i =>
      have hgiven := (hs.agreed p u i hlive).1 p hmem
      simp [hnone] at hgiven
  | construct p u =>
    rw [after] at h
    cases hc : s.commonIndex w u <;> rw [hc] at h <;> cases h
  | leave p u => cases h
  | destroy p u =>
    rw [after, Pe.destroy] at h
    rw [enabled] at he
    split at h <;> exact absurd (he.1.symm.trans h) (by simp)

theorem agreed_after (h : (after w s e).poolIndex t = some i) :
    (∀ q ∈ w.members t, (s.given t q).isSome) ∧ s.commonIndex w t = some i := by
  cases e with
  | reduce p u | leave p u => exact hs.agreed p t i h
  | destroy p u =>
    rw [after, Pe.destroy] at h
    split at h
    · exact hs.agreed p t i h
    · by_cases htu : t = u
      · simp [htu] at h
      · exact hs.agreed p t i (by simpa [htu] using h)
  | construct p u =>
    rw [after] at h
    cases hc : s.commonIndex w u with
    | none =>
      rw [hc] at h
      exact hs.agreed p t i h
    | some j =>
      rw [hc] at h
      by_cases htu : t = u
      · subst htu
        obtain rfl : j = i := by simpa [Pe.construct] using h
        exact ⟨he.2, hc⟩
      · exact hs.agreed p t i (by simpa [Pe.construct, htu] using h)

theorem invariant_next : Invariant w (next w s e) where
  slots p := by
    by_cases hp : p = e.pe
    · rw [hp, next_pe_self]
      exact slots_after hs he
    · rw [next_pe_of_ne hp]
      exact hs.slots p
  waiting p t h := by
    grind [Invariant, next_pe_self, next_pe_of_ne, given_of_isSome, waiting_after]
  agreed p t i h := by
    grind [Invariant, next_pe_self, next_pe_of_ne, given_of_isSome, commonIndex_next, agreed_after]

end

theorem run_invariant (h : (machine w).Run anyStep s) : Invariant w s :=
  Machine.Run.induct (invariant_initial w) (fun _ _ hs he _ => invariant_next hs he) h

inductive Pool where
  | barrierSync
  | reduceSync
  | bcastSync
  | alltoallSync
  | wrk
  deriving DecidableEq

def Pool.slotSize : Pool → ℕ
  | barrierSync | reduceSync | bcastSync => 8 * 256
  | alltoallSync => 8 * 257
  | wrk => 8 * 1048576

def Pool.base (maxNumTeams : ℕ) : Pool → ℕ
  | barrierSync => 0
  | reduceSync => barrierSync.slotSize * maxNumTeams
  | bcastSync => (barrierSync.slotSize + reduceSync.slotSize) * maxNumTeams
  | alltoallSync =>
    (barrierSync.slotSize + reduceSync.slotSize + bcastSync.slotSize) * maxNumTeams
  | wrk => (barrierSync.slotSize + reduceSync.slotSize + bcastSync.slotSize +
      alltoallSync.slotSize) * maxNumTeams

def World.slice (w : World) (pool : Pool) (i : ℕ) : Set ℕ :=
  Set.Ico (pool.base w.maxNumTeams + pool.slotSize * i)
    (pool.base w.maxNumTeams + pool.slotSize * (i + 1))

theorem slices_disjoint {pool pool' : Pool} (hi : i < w.maxNumTeams) (hj : j < w.maxNumTeams)
    (hne : i ≠ j) : Disjoint (w.slice pool i) (w.slice pool' j) := by
  rw [Set.disjoint_left]
  rintro x ⟨hlo, hhi⟩ ⟨hlo', hhi'⟩
  cases pool <;> cases pool' <;> simp only [Pool.base, Pool.slotSize] at * <;> omega

inductive Owner where
  | teamWorld
  | teamShared
  | created (team : ℕ)
  deriving DecidableEq

def State.slotOf (s : State) (w : World) (p : ℕ) : Owner → Option ℕ
  | .teamWorld => some 0
  | .teamShared => if w.useIpc then some 1 else none
  | .created t => (s.pe p).poolIndex t

theorem slotOf_lt (hs : Invariant w s) {o : Owner} (h : s.slotOf w p o = some i) :
    i < w.maxNumTeams := by
  cases o with
  | teamWorld =>
    obtain rfl : 0 = i := Option.some.inj h
    unfold World.maxNumTeams World.numReservedTeams
    split <;> omega
  | teamShared =>
    simp only [State.slotOf] at h
    split at h
    next hipc =>
      obtain rfl : 1 = i := Option.some.inj h
      simp [World.maxNumTeams, World.numReservedTeams, hipc]
    next => cases h
  | created t => exact ((hs.slots p).bounded t i h).2

theorem slotOf_predefined_lt {o : Owner} (ho : o = .teamWorld ∨ o = .teamShared)
    (h : s.slotOf w p o = some i) : i < w.numReservedTeams := by
  grind [State.slotOf, World.numReservedTeams]

theorem slotOf_injective (hs : Invariant w s) {o o' : Owner} (h : s.slotOf w p o = some i)
    (h' : s.slotOf w p o' = some i) : o = o' := by
  cases o with
  | created t =>
    have hres := ((hs.slots p).bounded t i h).1
    cases o' with
    | created u => rw [(hs.slots p).distinct t u i h h']
    | teamWorld => exact absurd (slotOf_predefined_lt (.inl rfl) h') (by omega)
    | teamShared => exact absurd (slotOf_predefined_lt (.inr rfl) h') (by omega)
  | teamWorld =>
    obtain rfl : 0 = i := Option.some.inj h
    cases o' with
    | teamWorld => rfl
    | teamShared =>
      simp only [State.slotOf] at h'
      split at h' <;> simp at h'
    | created u =>
      have hres := ((hs.slots p).bounded u 0 h').1
      exact absurd (slotOf_predefined_lt (.inl rfl) h) (by omega)
  | teamShared =>
    cases o' with
    | teamWorld =>
      obtain rfl : 0 = i := Option.some.inj h'
      simp only [State.slotOf] at h
      split at h <;> simp at h
    | teamShared => rfl
    | created u =>
      have hres := ((hs.slots p).bounded u i h').1
      exact absurd (slotOf_predefined_lt (.inr rfl) h) (by omega)

/-- Whatever teams were created over whatever members and destroyed in whatever order: on each
PE the live teams have slots of their own, none of them reserved, all members of a team have
the same slot, and the slices of two team objects are disjoint in all pools. -/
theorem live_teams_have_own_slots (h : (machine w).Run anyStep s) :
    (∀ p t u i, (s.pe p).poolIndex t = some i → (s.pe p).poolIndex u = some i → t = u) ∧
    (∀ p t i, (s.pe p).poolIndex t = some i → w.numReservedTeams ≤ i ∧ i < w.maxNumTeams) ∧
    (∀ t p q i j, (s.pe p).poolIndex t = some i → (s.pe q).poolIndex t = some j → i = j) ∧
    ∀ p o o' i j pool pool', s.slotOf w p o = some i → s.slotOf w p o' = some j → o ≠ o' →
      Disjoint (w.slice pool i) (w.slice pool' j) := by
  have hs := run_invariant h
  refine ⟨fun p => (hs.slots p).distinct, fun p => (hs.slots p).bounded, ?_, ?_⟩
  · intro t p q i j hp hq
    have hcommon := (hs.agreed p t i hp).2
    rw [(hs.agreed q t j hq).2] at hcommon
    exact (Option.some.inj hcommon).symm
  · intro p o o' i j pool pool' hi hj hne
    refine slices_disjoint (slotOf_lt hs hi) (slotOf_lt hs hj) ?_
    rintro rfl
    exact hne (slotOf_injective hs hi hj)

def overlapping : World where
  useIpc := true
  maxUserTeams := 3
  members
    | 0 => [0, 1]
    | 1 => [1, 2]
    | _ => []

def overlappingRun : List Event :=
  [Event.reduce 0 0, .reduce 1 0, .construct 1 0, .construct 0 0, .leave 0 0, .leave 1 0,
    .reduce 2 1, .reduce 1 1, .construct 1 1, .construct 2 1, .leave 1 1, .leave 2 1,
    .destroy 1 0]

theorem overlapping_teams_have_own_slots : ∃ s, (machine overlapping).Run anyStep s ∧
    (s.pe 0).poolIndex 0 = some 2 ∧ (s.pe 1).poolIndex 0 = none ∧
    (s.pe 1).poolIndex 1 = some 3 ∧ (s.pe 2).poolIndex 1 = some 3 ∧
    Disjoint (overlapping.slice .wrk 3) (overlapping.slice .wrk 1) := by
  obtain ⟨s, hrun, hs⟩ := (machine overlapping).run_of_replay anyStep overlappingRun
    (fun s => (s.pe 0).poolIndex 0 = some 2 ∧ (s.pe 1).poolIndex 0 = none ∧
      (s.pe 1).poolIndex 1 = some 3 ∧ (s.pe 2).poolIndex 1 = some 3) (by decide +kernel)
  obtain ⟨h0, h1, h2, h3⟩ := hs
  have hslices := (live_teams_have_own_slots hrun).2.2.2
  exact ⟨s, hrun, h0, h1, h2, h3,
    hslices 1 (.created 1) .teamShared 3 1 .wrk .wrk h2 rfl (by decide)⟩

/-- Over every history the mask of a PE marks exactly the slots for user teams that none of its
live teams has. When all its teams are destroyed, it is the mask of `setup_teams` again. -/
theorem mask_marks_unused (h : (machine w).Run anyStep s) (p : ℕ) :
    (∀ i < w.maxNumTeams, (s.pe p).teamPoolBitmask.test i = true ↔
      w.numReservedTeams ≤ i ∧ ∀ t, (s.pe p).poolIndex t ≠ some i) ∧
    ((∀ t, (s.pe p).poolIndex t = none) →
      ∀ i < w.maxNumTeams, (s.pe p).teamPoolBitmask.test i = (setupTeams w).test i) := by
  have hs := (run_invariant h).slots p
  refine ⟨hs.free, fun hnone i hi => ?_⟩
  rw [Bool.eq_iff_iff, hs.free i hi, test_setupTeams]
  simp [hnone, hi]

theorem second_slot_unused : ∃ s, (machine overlapping).Run anyStep s ∧
    (s.pe 1).teamPoolBitmask.test 2 = true ∧ ∀ t, (s.pe 1).poolIndex t ≠ some 2 := by
  obtain ⟨s, hrun, hs⟩ := (machine overlapping).run_of_replay anyStep overlappingRun
    (fun s => (s.pe 1).teamPoolBitmask.test 2 = true) (by decide +kernel)
  exact ⟨s, hrun, hs, (((mask_marks_unused hrun 1).1 2 (by decide)).mp hs).2⟩

section Creation

def State.occupied (s : State) (w : World) (t : ℕ) : Set ℕ :=
  {i | ∃ p ∈ w.members t, ∃ u, (s.pe p).poolIndex u = some i}

theorem test_band {ms : List Mask} (hne : ms ≠ []) :
    (Mask.band ms).test i = true ↔ ∀ m ∈ ms, m.test i = true := by
  refine ⟨fun h m hm => Mask.test_of_band h hm, fun h => ?_⟩
  cases ms with
  | nil => exact absurd rfl hne
  | cons m ms =>
    simp only [Mask.test_eq_getLsbD] at h ⊢
    rw [Mask.band, Mask.getLsbD_foldl_and, h m mem_cons_self, Bool.true_and, all_eq_true]
    exact fun m' hm' => h m' (mem_cons_of_mem _ hm')

theorem commonIndex_isSome :
    (s.commonIndex w t).isSome ↔ ∃ i < w.maxNumTeams, (s.reduced w t).test i = true := by
  rw [State.commonIndex, getLsNonZeroBit, find?_isSome]
  simp only [mem_range]

theorem test_reduced (hs : Invariant w s) (hne : w.members t ≠ [])
    (hall : ∀ p ∈ w.members t, (s.pe p).host = .reducing t) (hi : i < w.maxNumTeams) :
    (s.reduced w t).test i = true ↔ w.numReservedTeams ≤ i ∧ i ∉ s.occupied w t := by
  have hmask : ∀ p ∈ w.members t, ((s.given t p).getD Mask.zero).test i = true ↔
      w.numReservedTeams ≤ i ∧ ∀ u, (s.pe p).poolIndex u ≠ some i := fun p hp => by
    rw [(hs.waiting p t (hall p hp)).2.1]
    exact (hs.slots p).free i hi
  rw [State.reduced, test_band (by simpa using hne)]
  simp only [mem_map, forall_exists_index, and_imp, forall_apply_eq_imp_iff₂]
  constructor
  · intro h
    obtain ⟨p, hp⟩ := exists_mem_of_ne_nil _ hne
    refine ⟨((hmask p hp).mp (h p hp)).1, ?_⟩
    rintro ⟨q, hq, u, hu⟩
    exact ((hmask q hq).mp (h q hq)).2 u hu
  · rintro ⟨hle, hfree⟩ p hp
    exact (hmask p hp).mpr ⟨hle, fun u hu => hfree ⟨p, hp, u, hu⟩⟩

/-- When all members of `t` are in the reduction, `create_new_team` finds a slot if and only if
their live teams together leave one of the slots for user teams free. -/
theorem slot_found_iff (h : (machine w).Run anyStep s) (hne : w.members t ≠ [])
    (hall : ∀ p ∈ w.members t, (s.pe p).host = .reducing t) :
    (s.commonIndex w t).isSome ↔ (s.occupied w t).ncard < w.maxUserTeams := by
  have hs := run_invariant h
  have hsub : s.occupied w t ⊆ Finset.Ico w.numReservedTeams w.maxNumTeams := by
    rintro i ⟨p, -, u, hu⟩
    exact Finset.mem_coe.mpr (Finset.mem_Ico.mpr ((hs.slots p).bounded u i hu))
  have hcard : (Finset.Ico w.numReservedTeams w.maxNumTeams : Set ℕ).ncard = w.maxUserTeams := by
    rw [Set.ncard_coe_finset, Nat.card_Ico, World.maxNumTeams, Nat.add_sub_cancel]
  rw [commonIndex_isSome]
  constructor
  · rintro ⟨i, hi, htest⟩
    obtain ⟨hle, hfree⟩ := (test_reduced hs hne hall hi).mp htest
    rw [← hcard]
    refine Set.ncard_lt_ncard ⟨hsub, fun hback => hfree (hback ?_)⟩ (Finset.finite_toSet _)
    exact Finset.mem_coe.mpr (Finset.mem_Ico.mpr ⟨hle, hi⟩)
  · intro hlt
    by_contra hno
    have heq : s.occupied w t = Finset.Ico w.numReservedTeams w.maxNumTeams := by
      refine hsub.antisymm fun i hi => ?_
      obtain ⟨hle, hi⟩ := Finset.mem_Ico.mp (Finset.mem_coe.mp hi)
      by_contra hfree
      exact hno ⟨i, hi, (test_reduced hs hne hall hi).mpr ⟨hle, hfree⟩⟩
    rw [heq, hcard] at hlt
    exact Nat.lt_irrefl _ hlt

def threePairs : World where
  useIpc := true
  maxUserTeams := 2
  members
    | 0 => [0, 2]
    | 1 => [1, 2]
    | 2 => [0, 1]
    | _ => []

def firstPair : List Event := [Event.reduce 0 0, .reduce 2 0]

def secondPair : List Event :=
  [Event.construct 0 0, .construct 2 0, .leave 0 0, .leave 2 0, .reduce 1 1, .reduce 2 1,
    .construct 1 1, .construct 2 1, .leave 1 1, .leave 2 1]

theorem first_pair_finds_slot : ∃ s, (machine threePairs).Run anyStep s ∧
    ((s.commonIndex threePairs 0).isSome ↔ (s.occupied threePairs 0).ncard < 2) := by
  obtain ⟨s, hrun, hs⟩ := (machine threePairs).run_of_replay anyStep firstPair
    (fun s => ∀ p ∈ threePairs.members 0, (s.pe p).host = .reducing 0) (by decide +kernel)
  exact ⟨s, hrun, slot_found_iff hrun (by decide) (hs)⟩

/-- PE 0 has a team in slot 2 and PE 1 one in slot 3. Each is below the limit of two teams, and
no slot is free on both. -/
theorem pair_without_common_slot : ∃ s, (machine threePairs).Run anyStep s ∧
    (∀ p ∈ threePairs.members 2, (s.pe p).host = .reducing 2 ∧
      {u | ((s.pe p).poolIndex u).isSome}.ncard < threePairs.maxUserTeams) ∧
    s.commonIndex threePairs 2 = none := by
  obtain ⟨s, hrun, hs⟩ := (machine threePairs).run_of_replay anyStep
    (firstPair ++ secondPair ++ [.reduce 0 2, .reduce 1 2])
    (fun s => (s.pe 0).host = .reducing 2 ∧ (s.pe 1).host = .reducing 2 ∧
      s.commonIndex threePairs 2 = none ∧ (s.pe 0).teamPoolBitmask.test 3 = true ∧
      (s.pe 1).teamPoolBitmask.test 2 = true) (by decide +kernel)
  obtain ⟨h0, h1, hnone, hbit0, hbit1⟩ := hs
  have hslots := (run_invariant hrun).slots
  -- a PE with a free slot has at most one team, in the other slot
  have hone : ∀ p, (∃ i, 2 ≤ i ∧ i < 4 ∧ (s.pe p).teamPoolBitmask.test i = true) →
      {u | ((s.pe p).poolIndex u).isSome}.ncard < 2 := by
    rintro p ⟨i, hle, hlt, htest⟩
    have hfree := (((hslots p).free i hlt).mp htest).2
    have hsub : Set.Subsingleton {u | ((s.pe p).poolIndex u).isSome} := by
      intro u hu v hv
      obtain ⟨a, ha⟩ := Option.isSome_iff_exists.mp hu
      obtain ⟨b, hb⟩ := Option.isSome_iff_exists.mp hv
      have hboundA : 2 ≤ a ∧ a < 4 := (hslots p).bounded u a ha
      have hboundB : 2 ≤ b ∧ b < 4 := (hslots p).bounded v b hb
      have hneA : a ≠ i := fun h => hfree u (h ▸ ha)
      have hneB : b ≠ i := fun h => hfree v (h ▸ hb)
      obtain rfl : a = b := by omega
      exact (hslots p).distinct u v a ha hb
    exact Nat.lt_succ_of_le ((Set.ncard_le_one hsub.finite).mpr fun u hu v hv => hsub hu hv)
  refine ⟨s, hrun, fun p hp => ?_, hnone⟩
  have hp : p = 0 ∨ p = 1 := by simpa [threePairs] using hp
  rcases hp with rfl | rfl
  · exact ⟨h0, hone 0 ⟨3, by decide, by decide, hbit0⟩⟩
  · exact ⟨h1, hone 1 ⟨2, by decide, by decide, hbit1⟩⟩

end Creation

end GdaTeamSlots
