import Rocshmem.CentralDirectBarrier

/-! `internal_atomic_barrier` of the GDA and of the IPC conduit, round after round on one
`pSync` array. The members add to word 0 of PE `PE_start`, which waits for the full count,
clears the word and releases everybody. The GDA root stores the flag into the same word,
puts it from there without blocking, waits for the puts and clears the word again. -/
namespace CentralAtomicBarrier

open BarrierRounds Finset MatchedPrograms
open CentralDirectBarrier (Conduit Team Cell flagVal syncValue putSource member_eq_start)
open Prod.Lex (toLex_le_toLex toLex_lt_toLex)

inductive Event where
  | enter (i r : ℕ)
  | leave (i r : ℕ)
  | arrive (i r : ℕ)
  | await (i r : ℕ)
  | clear (i r : ℕ)
  | collect (r : ℕ)
  | reset (r : ℕ)
  | raise (r : ℕ)
  | release (i r : ℕ)
  | quiet (r : ℕ)
  | lower (r : ℕ)
  deriving DecidableEq, Repr

variable (k : Conduit) (t : Team)

def Occurs : Event → Prop
  | .enter i _ | .leave i _ => i < t.nPes
  | .arrive i _ | .await i _ | .clear i _ | .release i _ => 0 < i ∧ i < t.nPes
  | .collect _ | .reset _ => True
  | .raise _ | .quiet _ | .lower _ => k = .gda

def pe : Event → ℕ
  | .enter i _ | .leave i _ | .arrive i _ | .await i _ | .clear i _ => t.member i
  | .collect _ | .reset _ | .raise _ | .release _ _ | .quiet _ | .lower _ => t.peStart

def point : Event → ℕ ×ₗ ℕ ×ₗ ℕ
  | .enter _ r => toLex (r, toLex (0, 0))
  | .arrive _ r => toLex (r, toLex (1, 0))
  | .collect r => toLex (r, toLex (2, 0))
  | .reset r => toLex (r, toLex (3, 0))
  | .raise r => toLex (r, toLex (4, 0))
  | .release i r => toLex (r, toLex (5, i))
  | .quiet r => toLex (r, toLex (6, 0))
  | .lower r => toLex (r, toLex (7, 0))
  | .await _ r => toLex (r, toLex (8, 0))
  | .clear _ r => toLex (r, toLex (9, 0))
  | .leave _ r => toLex (r, toLex (10, 0))

def mode : Event → Mode ℕ
  | .arrive _ _ => .posted t.peStart
  | .release i _ => .posted (t.member i)
  | .quiet _ => .drain
  | _ => .blocking

def guard : Event → (Cell → ℤ) → Prop
  | .collect _, m => m (t.peStart, 0) = t.nPes - 1
  | .await i _, m => m (t.member i, 0) = flagVal
  | _, _ => True

def action : Event → Effect Cell ℤ
  | .arrive _ _ => .add (t.peStart, 0) flagVal
  | .clear i _ => .store (t.member i, 0) fun _ => syncValue
  | .reset _ => .store (t.peStart, 0) fun _ => syncValue
  | .raise _ => .store (t.peStart, 0) fun _ => flagVal
  | .release i _ => .store (t.member i, 0) (putSource k (t.peStart, 0))
  | .lower _ => .store (t.peStart, 0) fun _ => syncValue
  | .enter _ _ | .leave _ _ | .await _ _ | .collect _ | .quiet _ => .skip

def internalAtomicBarrier : Program Event ℕ (ℕ ×ₗ ℕ ×ₗ ℕ) ℕ Cell ℤ where
  event := Occurs k t
  pe := pe t
  point := point
  mode := mode t
  guard := guard t
  action := action k t

abbrev sys : System Event Cell ℤ := (internalAtomicBarrier k t).system

def OutsideWindow (X : Set Event) (_ : Cell → ℤ) (e : Event) : Prop :=
  ∀ i r, e = .arrive i r → ∀ r', .raise r' ∈ X → .lower r' ∈ X

def waitsFor : Event → Event → Prop
  | .collect r, e => ∃ i, e = .arrive i r ∧ 0 < i ∧ i < t.nPes
  | .await i r, e => e = .release i r ∧ 0 < i ∧ i < t.nPes
  | .arrive _ r, e => ∃ r', e = .lower r' ∧ r' < r ∧ k = .gda
  | _, _ => False

def value : Event → ℤ
  | .raise _ | .release _ _ => flagVal
  | _ => syncValue

def certificate : Certificate Event ℤ := ⟨waitsFor k t, value⟩

abbrev Prior : Event → Event → Prop := Before (sys k t) (certificate k t)

variable {k t}

theorem waits_forward {e a : Event} (h : waitsFor k t e a) : point a < point e := by
  cases e <;> simp only [waitsFor] at h
  case arrive i r =>
    obtain ⟨r', rfl, hr, -⟩ := h
    simp [point, toLex_lt_toLex, hr]
  case await i r =>
    obtain ⟨rfl, -⟩ := h
    simp [point, toLex_lt_toLex]
  case collect r =>
    obtain ⟨i, rfl, -⟩ := h
    simp [point, toLex_lt_toLex]

theorem acyclic : WellFounded (Depends (sys k t) (certificate k t)) :=
  (internalAtomicBarrier k t).acyclic fun _ _ => waits_forward

theorem prior_point_le {a e : Event} (h : Prior k t a e) : point a ≤ point e :=
  (internalAtomicBarrier k t).point_le (fun _ _ => waits_forward) h

theorem prior_of_point {a e : Event} (ha : Occurs k t a) (hpe : pe t a = pe t e)
    (hpt : point a < point e) (hm : (mode t a).Precedes (mode t e)) : Prior k t a e :=
  before_of_pre ⟨ha, hpe, hpt, hm⟩

section Order

variable {i j r r' : ℕ}

theorem arrive_collect (hi : 0 < i ∧ i < t.nPes) : Prior k t (.arrive i r) (.collect r) :=
  before_of_waits ⟨i, rfl, hi⟩

theorem release_await (hi : 0 < i ∧ i < t.nPes) : Prior k t (.release i r) (.await i r) :=
  before_of_waits ⟨rfl, hi⟩

theorem lower_arrive (hk : k = .gda) (hr : r < r') : Prior k t (.lower r) (.arrive i r') :=
  before_of_waits ⟨r, rfl, hr, hk⟩

theorem collect_reset (hr : r ≤ r') : Prior k t (.collect r) (.reset r') := by
  refine prior_of_point trivial rfl ?_ trivial
  simp only [point, toLex_lt_toLex]
  omega

theorem reset_release (hr : r ≤ r') : Prior k t (.reset r) (.release i r') := by
  refine prior_of_point trivial rfl ?_ trivial
  simp only [point, toLex_lt_toLex]
  omega

section

variable (hi : 0 < i ∧ i < t.nPes)
include hi

theorem await_arrive (hr : r < r') : Prior k t (.await i r) (.arrive i r') := by
  refine prior_of_point ?_ rfl ?_ trivial
  · exact hi
  · simp [point, toLex_lt_toLex, hr]

theorem await_clear (hr : r ≤ r') : Prior k t (.await i r) (.clear i r') := by
  refine prior_of_point ?_ rfl ?_ trivial
  · exact hi
  · simp only [point, toLex_lt_toLex]
    omega

theorem clear_arrive (hr : r < r') : Prior k t (.clear i r) (.arrive i r') := by
  refine prior_of_point ?_ rfl ?_ trivial
  · exact hi
  · simp [point, toLex_lt_toLex, hr]

theorem enter_arrive : Prior k t (.enter i r) (.arrive i r) := by
  refine prior_of_point ?_ rfl ?_ trivial
  · exact hi.2
  · simp [point, toLex_lt_toLex]

end

theorem raise_release (hk : k = .gda) : Prior k t (.raise r) (.release i r) := by
  refine prior_of_point hk rfl ?_ trivial
  simp [point, toLex_lt_toLex]

theorem release_quiet (hi : 0 < i ∧ i < t.nPes) (hr : r ≤ r') :
    Prior k t (.release i r) (.quiet r') := by
  refine prior_of_point ?_ rfl ?_ trivial
  · exact hi
  · simp only [point, toLex_lt_toLex]
    omega

theorem quiet_lower (hk : k = .gda) (hr : r ≤ r') : Prior k t (.quiet r) (.lower r') := by
  refine prior_of_point hk rfl ?_ trivial
  simp only [point, toLex_lt_toLex]
  omega

theorem arrive_reset (hi : 0 < i ∧ i < t.nPes) (hr : r ≤ r') :
    Prior k t (.arrive i r) (.reset r') :=
  (arrive_collect hi).trans (collect_reset hr)

theorem release_arrive (hi : 0 < i ∧ i < t.nPes) (hr : r < r') :
    Prior k t (.release i r) (.arrive i r') :=
  (release_await hi).trans (await_arrive hi hr)

theorem reset_arrive (hi : 0 < i ∧ i < t.nPes) (hr : r < r') :
    Prior k t (.reset r) (.arrive i r') :=
  (reset_release (le_refl r)).trans (release_arrive hi hr)

theorem enter_raise : Prior k t (.enter 0 r) (.raise r) := by
  refine prior_of_point ?_ ?_ ?_ trivial
  · exact t.pes_pos
  · simp [pe]
  · simp [point, toLex_lt_toLex]

theorem lower_leave (hk : k = .gda) : Prior k t (.lower r) (.leave 0 r) := by
  refine prior_of_point hk ?_ ?_ trivial
  · simp [pe]
  · simp [point, toLex_lt_toLex]

section

variable (hi : 0 < i ∧ i < t.nPes)
include hi

theorem clear_leave : Prior k t (.clear i r) (.leave i r) := by
  refine prior_of_point ?_ rfl ?_ trivial
  · exact hi
  · simp [point, toLex_lt_toLex]

theorem await_leave : Prior k t (.await i r) (.leave i r) := by
  refine prior_of_point ?_ rfl ?_ trivial
  · exact hi
  · simp [point, toLex_lt_toLex]

theorem reset_leave : Prior k t (.reset r) (.leave i r) :=
  (reset_release (le_refl r)).trans ((release_await hi).trans (await_leave hi))

theorem enter_release : Prior k t (.enter i r) (.release i r) :=
  (enter_arrive hi).trans ((arrive_reset hi (le_refl r)).trans (reset_release (le_refl r)))

end

theorem enter_mono (hi : i < t.nPes) (hr : r ≤ r') : Prior k t (.enter i r) (.enter i r') := by
  rcases hr.lt_or_eq with h | rfl
  · refine prior_of_point ?_ rfl ?_ trivial
    · exact hi
    · simp [point, toLex_lt_toLex, h]
  · exact Before.refl _

theorem enter_before_leave (hi : i < t.nPes) (hj : j < t.nPes) :
    Prior k t (.enter j r) (.leave i r) := by
  have hroot : Prior k t (.reset r) (.leave i r) := by
    rcases Nat.eq_zero_or_pos i with rfl | hpos
    · refine prior_of_point trivial ?_ ?_ trivial
      · simp [pe]
      · simp [point, toLex_lt_toLex]
    · exact reset_leave ⟨hpos, hi⟩
  rcases Nat.eq_zero_or_pos j with rfl | hpos
  · have henter : Prior k t (.enter 0 r) (.reset r) := by
      refine prior_of_point hj ?_ ?_ trivial
      · simp [pe]
      · simp [point, toLex_lt_toLex]
    exact henter.trans hroot
  · exact (enter_arrive ⟨hpos, hj⟩).trans ((arrive_reset ⟨hpos, hj⟩ (le_refl r)).trans hroot)

theorem reset_mono (hr : r ≤ r') : Prior k t (.reset r) (.reset r') := by
  rcases hr.lt_or_eq with h | rfl
  · refine prior_of_point trivial rfl ?_ trivial
    simp [point, toLex_lt_toLex, h]
  · exact Before.refl _

theorem release_mono (hi : 0 < i ∧ i < t.nPes) (hr : r ≤ r') :
    Prior k t (.release i r) (.release i r') := by
  rcases hr.lt_or_eq with h | rfl
  · exact (release_arrive hi h).trans ((arrive_reset hi (le_refl r')).trans
      (reset_release (le_refl r')))
  · exact Before.refl _

end Order

inductive Word where
  | counter
  | release (i : ℕ)
  deriving DecidableEq

def Word.cell (t : Team) : Word → Cell
  | .counter => (t.peStart, 0)
  | .release i => (t.member i, 0)

def Word.Used (t : Team) : Word → Prop
  | .counter => True
  | .release i => 0 < i ∧ i < t.nPes

inductive Stores : Word → Event → Prop where
  | reset (r) : Stores .counter (.reset r)
  | raise (r) : Stores .counter (.raise r)
  | lower (r) : Stores .counter (.lower r)
  | release (i r) : Stores (.release i) (.release i r)
  | clear (i r) : Stores (.release i) (.clear i r)

theorem cell_inj {u v : Word} (hu : u.Used t) (hv : v.Used t) (h : u.cell t = v.cell t) :
    u = v := by
  cases u <;> cases v <;> simp_all [Word.cell, Word.Used]

variable {e : Event}

theorem stores_to_iff {c : Cell} (he : Occurs k t e) :
    (sys k t).StoresTo c e ↔ ∃ u : Word, u.Used t ∧ u.cell t = c ∧ Stores u e := by
  constructor
  · intro h
    obtain ⟨f, h⟩ := h
    change action k t e = .store c f at h
    cases e <;> simp only [action, Effect.store.injEq, reduceCtorEq] at h <;> obtain ⟨rfl, -⟩ := h
    case clear i r => exact ⟨.release i, he, rfl, .clear i r⟩
    case reset r => exact ⟨.counter, trivial, rfl, .reset r⟩
    case raise r => exact ⟨.counter, trivial, rfl, .raise r⟩
    case release i r => exact ⟨.release i, he, rfl, .release i r⟩
    case lower r => exact ⟨.counter, trivial, rfl, .lower r⟩
  · intro h
    obtain ⟨u, -, rfl, h⟩ := h
    cases h <;> exact ⟨_, rfl⟩

theorem stores_to_cell {u : Word} (hu : u.Used t) (he : Occurs k t e) :
    (sys k t).StoresTo (u.cell t) e ↔ Stores u e := by
  rw [stores_to_iff he]
  constructor
  · intro h
    obtain ⟨u', hu', hcell, h⟩ := h
    obtain rfl := cell_inj hu' hu hcell
    exact h
  · intro h
    exact ⟨u, hu, rfl, h⟩

theorem adds_to_iff {c : Cell} :
    (sys k t).AddsTo c e ↔ c = (t.peStart, 0) ∧ ∃ i r, e = .arrive i r := by
  constructor
  · intro h
    obtain ⟨v, h⟩ := h
    change action k t e = .add c v at h
    cases e <;> simp only [action, Effect.add.injEq, reduceCtorEq] at h
    exact ⟨h.1.symm, _, _, rfl⟩
  · intro h
    obtain ⟨rfl, i, r, rfl⟩ := h
    exact ⟨_, rfl⟩

theorem stores_ordered {u : Word} {w w' : Event} (hu : u.Used t) (hw : Stores u w)
    (hw' : Stores u w') (ho : Occurs k t w) (hpt : point w < point w') : Prior k t w w' := by
  cases hw with
  | reset | raise | lower => cases hw' <;> exact prior_of_point ho rfl hpt trivial
  | release i r =>
    cases hw' with
    | release _ r' =>
      apply release_mono hu
      simp only [point, toLex_lt_toLex] at hpt
      omega
    | clear _ r' =>
      apply (release_await hu).trans (await_clear hu _)
      simp only [point, toLex_lt_toLex] at hpt
      omega
  | clear i r =>
    cases hw' with
    | release _ r' =>
      apply (clear_arrive hu _).trans ((arrive_reset hu (le_refl r')).trans
        (reset_release (le_refl r')))
      simp only [point, toLex_lt_toLex] at hpt
      omega
    | clear _ r' => exact prior_of_point ho rfl hpt trivial

def storeRound : Event → ℕ
  | .reset r | .raise r | .lower r => r
  | _ => 0

variable {w : Event}

theorem reset_store (hw : Stores .counter w) : Prior k t (.reset (storeRound w)) w := by
  cases hw with
  | reset r => exact Before.refl _
  | raise r | lower r =>
    refine prior_of_point trivial rfl ?_ trivial
    simp [storeRound, point, toLex_lt_toLex]

theorem lower_mono {r r' : ℕ} (hk : k = .gda) (hr : r ≤ r') : Prior k t (.lower r) (.lower r') := by
  rcases hr.lt_or_eq with h | rfl
  · refine prior_of_point hk rfl ?_ trivial
    simp [point, toLex_lt_toLex, h]
  · exact Before.refl _

theorem lower_reset {r r' : ℕ} (hk : k = .gda) (hr : r < r') :
    Prior k t (.lower r) (.reset r') := by
  refine prior_of_point hk rfl ?_ trivial
  simp [point, toLex_lt_toLex, hr]

theorem arrive_store {i r : ℕ} (hi : 0 < i ∧ i < t.nPes) (hw : Stores .counter w)
    (hr : r ≤ storeRound w) : Prior k t (.arrive i r) w :=
  (arrive_reset hi hr).trans (reset_store hw)

theorem store_arrive {i r : ℕ} (hi : 0 < i ∧ i < t.nPes) (hw : Stores .counter w)
    (ho : Occurs k t w) (hr : storeRound w < r) : Prior k t w (.arrive i r) := by
  cases hw with
  | reset r' => exact reset_arrive hi hr
  | raise r' => exact (raise_release ho).trans (release_arrive hi hr)
  | lower r' => exact lower_arrive ho hr

open Classical in
noncomputable def raised (X : Set Event) : ℤ :=
  if ∃ r, .raise r ∈ X ∧ .lower r ∉ X then flagVal else syncValue

open Classical in
noncomputable def arrived (t : Team) (X : Set Event) (r : ℕ) : Finset ℕ :=
  (Finset.Ico 1 t.nPes).filter fun i => .arrive i r ∈ X

theorem mem_arrived {X : Set Event} {i r : ℕ} :
    i ∈ arrived t X r ↔ (0 < i ∧ i < t.nPes) ∧ .arrive i r ∈ X := by
  simp [arrived, Nat.one_le_iff_ne_zero, Nat.pos_iff_ne_zero]

open Classical in
theorem arrived_full (X : Set Event) (r : ℕ) :
    ((arrived t X r).card : ℤ) = t.nPes - 1 ↔ ∀ i, 0 < i ∧ i < t.nPes → .arrive i r ∈ X := by
  have hpos := t.pes_pos
  have hcard : ((arrived t X r).card : ℤ) = t.nPes - 1 ↔
      (arrived t X r).card = (Finset.Ico 1 t.nPes).card := by
    rw [Nat.card_Ico]
    omega
  rw [hcard, arrived, card_filter_eq_iff]
  simp only [mem_Ico, Nat.one_le_iff_ne_zero, Nat.pos_iff_ne_zero]

section Counter

variable {X : Set Event} {m : Cell → ℤ} {r : ℕ}
  (hc : Consistent (sys k t) (certificate k t) (fun _ => syncValue) X m)
include hc

theorem sum_arrivals {l : List Event} (hnd : l.Nodup)
    (hl : ∀ a, a ∈ l ↔ ∃ i, a = .arrive i r ∧ a ∈ X) :
    (l.map fun a => ((sys k t).action a).amount).sum = (arrived t X r).card := by
  have hone : ∀ a ∈ l, ((sys k t).action a).amount = 1 := by
    intro a ha
    obtain ⟨i, rfl, -⟩ := (hl a).mp ha
    rfl
  have himage : l.toFinset = (arrived t X r).image fun i => .arrive i r := by
    ext a
    rw [List.mem_toFinset, hl, mem_image]
    constructor
    · intro h
      obtain ⟨i, rfl, ha⟩ := h
      exact ⟨i, mem_arrived.mpr ⟨hc.events _ ha, ha⟩, rfl⟩
    · intro h
      obtain ⟨i, hi, rfl⟩ := h
      exact ⟨i, rfl, (mem_arrived.mp hi).2⟩
  have hinj : Function.Injective fun i => Event.arrive i r := by
    intro i j h
    cases h
    rfl
  rw [List.map_congr_left hone, ← card_image_of_injective _ hinj, ← himage,
    List.toFinset_card_of_nodup hnd]
  simp

theorem value_last_store (hw : w ∈ X) (hs : Stores .counter w)
    (hlast : ∀ w' ∈ X, Stores .counter w' → point w' ≤ point w) : value w = raised X := by
  cases hs with
  | reset r =>
    symm
    apply if_neg
    intro h
    obtain ⟨r', hraise, hlower⟩ := h
    have hle := hlast _ hraise (.raise r')
    simp only [point, toLex_le_toLex] at hle
    exact hlower (lower_reset (hc.events _ hraise) (by omega) X hc.closed hw)
  | raise r =>
    symm
    apply if_pos
    refine ⟨r, hw, ?_⟩
    intro h
    have hle := hlast _ h (.lower r)
    simp [point, toLex_le_toLex] at hle
  | lower r =>
    symm
    apply if_neg
    intro h
    obtain ⟨r', hraise, hlower⟩ := h
    have hle := hlast _ hraise (.raise r')
    simp only [point, toLex_le_toLex] at hle
    exact hlower (lower_mono (hc.events _ hraise) (by omega) X hc.closed hw)

theorem arrive_le (hr : .reset r ∉ X) {i r' : ℕ} (h : .arrive i r' ∈ X) : r' ≤ r := by
  by_contra hlt
  exact hr (reset_arrive (hc.events _ h) (not_le.mp hlt) X hc.closed h)

theorem last_store_round (hprev : ∀ r' < r, .reset r' ∈ X) (hr : .reset r ∉ X)
    (hw : w ∈ X) (hst : Stores .counter w)
    (hlast : ∀ w' ∈ X, Stores .counter w' → point w' ≤ point w) : storeRound w + 1 = r := by
  have hlt : storeRound w < r := by
    by_contra hle
    exact hr ((reset_mono (not_lt.mp hle)).trans (reset_store hst) X hc.closed hw)
  have hle := hlast _ (hprev (r - 1) (by omega)) (.reset (r - 1))
  cases hst <;> simp only [point, toLex_le_toLex] at hle <;>
    simp only [storeRound] at hlt ⊢ <;> omega

omit hc in
theorem listed_arrivals {l : List Event} {later : Event → Prop}
    (hl : ∀ a, a ∈ l ↔ a ∈ X ∧ (sys k t).AddsTo (t.peStart, 0) a ∧ later a)
    (hlater : ∀ i r', .arrive i r' ∈ X → (later (.arrive i r') ↔ r' = r)) (a : Event) :
    a ∈ l ↔ ∃ i, a = .arrive i r ∧ a ∈ X := by
  rw [hl, adds_to_iff]
  constructor
  · intro h
    obtain ⟨ha, ⟨-, i, r', rfl⟩, h⟩ := h
    obtain rfl := (hlater i r' ha).mp h
    exact ⟨i, rfl, ha⟩
  · intro h
    obtain ⟨i, rfl, ha⟩ := h
    exact ⟨ha, ⟨rfl, i, r, rfl⟩, (hlater i r ha).mpr rfl⟩

theorem counter_eq (hprev : ∀ r' < r, .reset r' ∈ X) (hr : .reset r ∉ X) :
    m (t.peStart, 0) = raised X + (arrived t X r).card := by
  obtain ⟨s, l, hls, hnd, hl, hm⟩ := hc.contents (t.peStart, 0)
  cases s with
  | none =>
    have hno : ∀ w ∈ X, ¬ Stores .counter w := by
      intro w hw hs
      exact hls w hw ((stores_to_cell (u := .counter) trivial (hc.events w hw)).mpr hs)
    obtain rfl : r = 0 := by
      by_contra hne
      exact hno _ (hprev 0 (Nat.pos_of_ne_zero hne)) (.reset 0)
    have hraised : raised X = syncValue := by
      apply if_neg
      intro h
      obtain ⟨r', h, -⟩ := h
      exact hno _ h (.raise r')
    rw [hm, hraised, sum_arrivals hc hnd]
    · rfl
    · apply listed_arrivals hl
      intro i r' ha
      exact iff_of_true nofun (Nat.le_zero.mp (arrive_le hc hr ha))
  | some w =>
    obtain ⟨hw, hws, hlast⟩ := hls
    have hst := (stores_to_cell (u := .counter) trivial (hc.events w hw)).mp hws
    have hpoint : ∀ w' ∈ X, Stores .counter w' → point w' ≤ point w := by
      intro w' hw' hs
      exact prior_point_le (hlast w' hw'
        ((stores_to_cell (u := .counter) trivial (hc.events w' hw')).mpr hs))
    have hround := last_store_round hc hprev hr hw hst hpoint
    rw [hm, ← value_last_store hc hw hst hpoint, sum_arrivals hc hnd]
    · rfl
    · -- an arrival comes before the store unless it is one of this round
      apply listed_arrivals hl
      intro i r' ha
      constructor
      · intro hnot
        by_contra hne
        have hle := arrive_le hc hr ha
        exact hnot w rfl (arrive_store (hc.events _ ha) hst (by omega))
      · intro heq w' h hb
        cases h
        have hle := prior_point_le hb
        cases hst <;> simp only [point, storeRound, toLex_le_toLex] at hle hround <;>
          omega

theorem raised_zero (hk : k = .gda → ∀ r', .raise r' ∈ X → .lower r' ∈ X) :
    raised X = syncValue := by
  apply if_neg
  intro h
  obtain ⟨r', hraise, hlower⟩ := h
  exact hlower (hk (hc.events _ hraise) r' hraise)

theorem current_round : ∃ r, (∀ r' < r, .reset r' ∈ X) ∧ .reset r ∉ X := by
  obtain ⟨s, l, hls, -⟩ := hc.contents (t.peStart, 0)
  cases s with
  | none => exact ⟨0, by simp, fun h => hls _ h ⟨_, rfl⟩⟩
  | some w =>
    obtain ⟨hw, hws, hlast⟩ := hls
    have hst := (stores_to_cell (u := .counter) trivial (hc.events w hw)).mp hws
    refine ⟨storeRound w + 1, ?_, ?_⟩
    · intro r' hlt
      exact ((reset_mono (Nat.le_of_lt_succ hlt)).trans (reset_store hst)) X hc.closed hw
    · intro h
      have hle := prior_point_le (hlast _ h ⟨_, rfl⟩)
      cases hst <;> simp only [point, storeRound, toLex_le_toLex] at hle <;> omega

theorem collect_reads (hX : .collect r ∉ X) (hr : (sys k t).Ready X (.collect r)) :
    m (t.peStart, 0) = (arrived t X r).card := by
  have hreset : .reset r ∉ X := fun h => hX (collect_reset (le_refl r) X hc.closed h)
  have hprev : ∀ r' < r, .reset r' ∈ X := by
    intro r' hlt
    apply hr
    refine ⟨trivial, rfl, ?_, trivial⟩
    simp [internalAtomicBarrier, point, toLex_lt_toLex, hlt]
  have hraised : raised X = syncValue := by
    apply raised_zero hc
    intro hk r' hraise
    have hlt : r' < r := by
      by_contra hle
      apply hreset
      exact ((reset_mono (not_lt.mp hle)).trans (reset_store (.raise r'))) X hc.closed hraise
    apply hr
    refine ⟨hk, rfl, ?_, trivial⟩
    simp [internalAtomicBarrier, point, toLex_lt_toLex, hlt]
  rw [counter_eq hc hprev hreset, hraised, syncValue, zero_add]

end Counter

section Release

variable {X : Set Event} {m : Cell → ℤ} {i r : ℕ}
  (hc : Consistent (sys k t) (certificate k t) (fun _ => syncValue) X m)
include hc

theorem release_pending (hi : 0 < i ∧ i < t.nPes) (hne : m (t.member i, 0) ≠ syncValue) :
    ∃ r, .release i r ∈ X ∧ .clear i r ∉ X := by
  have hno : ∀ a, ¬ (sys k t).AddsTo (t.member i, 0) a := by
    intro a h
    have hcell := (adds_to_iff.mp h).1
    simp only [Prod.mk.injEq, member_eq_start] at hcell
    omega
  rcases hc.last_store hno with ⟨h, -⟩ | ⟨w, hw, hs, hval, hlast⟩
  · exact absurd h hne
  · have hst := (stores_to_cell (u := .release i) hi (hc.events w hw)).mp hs
    cases hst with
    | clear _ r => exact absurd hval hne
    | release _ r =>
      refine ⟨r, hw, ?_⟩
      intro h
      have hle := prior_point_le (hlast _ h ⟨_, rfl⟩)
      simp [point, toLex_le_toLex] at hle

theorem release_kept (hi : 0 < i ∧ i < t.nPes) (hs : .release i r ∈ X) (hX : .clear i r ∉ X) :
    m (t.member i, 0) = flagVal := by
  refine hc.read_before (w := .release i r) acyclic hX hs ⟨_, rfl⟩ ?_
  intro w' ho hw'
  rcases hw' with hst | hadd
  · have hst := (stores_to_cell (u := .release i) hi ho).mp hst
    cases hst with
    | release _ r' =>
      by_cases hle : r' ≤ r
      · exact .inl (release_mono hi hle)
      · right
        apply stores_ordered (u := .release i) hi (.clear i r) (.release i r') hi
        simp [point, toLex_lt_toLex, not_le.mp hle]
    | clear _ r' =>
      by_cases hlt : r' < r
      · left
        apply stores_ordered (u := .release i) hi (.clear i r') (.release i r) hi
        simp [point, toLex_lt_toLex, hlt]
      · right
        rcases (not_lt.mp hlt).lt_or_eq with h | rfl
        · apply stores_ordered (u := .release i) hi (.clear i r) (.clear i r') hi
          simp [point, toLex_lt_toLex, h]
        · exact Before.refl _
  · have hcell := (adds_to_iff.mp hadd).1
    simp only [Prod.mk.injEq, member_eq_start] at hcell
    omega

theorem await_matched (hi : 0 < i ∧ i < t.nPes) (hr : (sys k t).Ready X (.await i r))
    (hg : m (t.member i, 0) = flagVal) : .release i r ∈ X := by
  have hne : m (t.member i, 0) ≠ syncValue := by rw [hg]; decide
  obtain ⟨r', hs, hclear⟩ := release_pending hc hi hne
  apply release_mono hi _ X hc.closed hs
  -- the flag of an earlier round would have been cleared
  by_contra hlt
  apply hclear
  apply hr
  refine ⟨hi, rfl, ?_, trivial⟩
  simp [internalAtomicBarrier, point, toLex_lt_toLex, not_le.mp hlt]

theorem release_reads (hk : k = .gda) (hi : 0 < i ∧ i < t.nPes) (hX : .release i r ∉ X)
    (hr : (sys k t).Ready X (.release i r)) : m (t.peStart, 0) = flagVal := by
  have hraise : Event.raise r ∈ X := by
    apply hr
    refine ⟨hk, rfl, ?_, trivial⟩
    simp [internalAtomicBarrier, point, toLex_lt_toLex]
  -- the quiet keeps the root's later stores behind the put
  have hlower : ∀ {r'}, r ≤ r' → Prior k t (.release i r) (.lower r') := by
    intro r' hle
    exact (release_quiet hi hle).trans (quiet_lower hk (le_refl r'))
  refine hc.read_before (w := .raise r) acyclic hX hraise ⟨_, rfl⟩ ?_
  intro w' ho hw'
  rcases hw' with hst | hadd
  · have hst := (stores_to_cell (u := .counter) trivial ho).mp hst
    by_cases hlt : point w' < point (.raise r)
    · exact .inl (stores_ordered (u := .counter) trivial hst (.raise r) ho hlt)
    · cases hst with
      | reset r' =>
        simp only [point, toLex_lt_toLex] at hlt
        exact .inr ((hlower (le_refl r)).trans (lower_reset hk (by omega)))
      | raise r' =>
        simp only [point, toLex_lt_toLex] at hlt
        rcases (show r ≤ r' by omega).lt_or_eq with h | rfl
        · exact .inr ((hlower (le_refl r)).trans ((lower_reset hk h).trans
            (reset_store (.raise r'))))
        · exact .inl (Before.refl _)
      | lower r' =>
        simp only [point, toLex_lt_toLex] at hlt
        exact .inr (hlower (by omega))
  · obtain ⟨-, j, r', rfl⟩ := adds_to_iff.mp hadd
    by_cases hle : r' ≤ r
    · exact .inl (arrive_store ho (.raise r) hle)
    · exact .inr ((hlower (le_refl r)).trans (lower_arrive hk (not_le.mp hle)))

end Release

theorem arrive_matched {X : Set Event} {m : Cell → ℤ} {i r r' : ℕ} (hk : k = .gda)
    (hc : Consistent (sys k t) (certificate k t) (fun _ => syncValue) X m)
    (hi : 0 < i ∧ i < t.nPes) (hr : (sys k t).Ready X (.arrive i r))
    (hok : OutsideWindow X m (.arrive i r)) (hlt : r' < r) : .lower r' ∈ X := by
  apply hok i r rfl
  -- its own release of that round was awaited
  have hawait : Event.await i r' ∈ X := by
    apply hr
    refine ⟨hi, rfl, ?_, trivial⟩
    simp [internalAtomicBarrier, point, toLex_lt_toLex, hlt]
  exact ((raise_release hk).trans (release_await hi)) X hc.closed hawait

theorem sound : Sound (sys k t) (certificate k t) OutsideWindow fun _ => syncValue := by
  refine ⟨acyclic, ?_, ?_, ?_⟩
  · intro c w w' ho ho' hs hw'
    obtain ⟨u, hu, rfl, hst⟩ := (stores_to_iff ho).mp hs
    rcases hw' with hs' | hadd
    · have hst' := (stores_to_cell hu ho').mp hs'
      rcases lt_trichotomy (point w) (point w') with h | h | h
      · exact .inr (.inl (stores_ordered hu hst hst' ho h))
      · left
        cases hst <;> cases hst' <;> simp_all [point]
      · exact .inr (.inr (stores_ordered hu hst' hst ho' h))
    · obtain ⟨hcell, i, r, rfl⟩ := adds_to_iff.mp hadd
      obtain rfl := cell_inj (v := .counter) hu trivial hcell
      by_cases hle : r ≤ storeRound w
      · exact .inr (.inr (arrive_store ho' hst hle))
      · exact .inr (.inl (store_arrive ho' hst ho (not_le.mp hle)))
  · intro X m e hc he hX hr hg hok a ha
    cases e <;> simp only [certificate, waitsFor] at ha
    case arrive i r =>
      obtain ⟨r', rfl, hlt, hk⟩ := ha
      exact arrive_matched hk hc he hr hok hlt
    case await i r =>
      obtain ⟨rfl, hi⟩ := ha
      exact await_matched hc hi hr hg
    case collect r =>
      obtain ⟨i, rfl, hi⟩ := ha
      change m (t.peStart, 0) = t.nPes - 1 at hg
      rw [collect_reads hc hX hr] at hg
      exact (arrived_full X r).mp hg i hi
  · intro X m e c f hc he hX hr hm hact
    change action k t e = .store c f at hact
    cases e <;> simp only [action, Effect.store.injEq, reduceCtorEq] at hact <;>
      obtain ⟨-, rfl⟩ := hact <;> try rfl
    case release i r =>
      cases k with
      | gda => exact release_reads hc rfl he hX hr
      | ipc => rfl

theorem live : Live (sys k t) (certificate k t) OutsideWindow fun _ => syncValue := by
  refine ⟨fun a e h => h.1, ?_, ?_⟩
  · intro e a h
    cases e <;> simp only [certificate, waitsFor] at h
    case arrive i r =>
      obtain ⟨r', rfl, -, hk⟩ := h
      exact hk
    case await i r =>
      obtain ⟨rfl, hi⟩ := h
      exact hi
    case collect r =>
      obtain ⟨i, rfl, hi⟩ := h
      exact hi
  · intro X m e hc he hX hr hm
    constructor
    · cases e
      case collect r =>
        change m (t.peStart, 0) = t.nPes - 1
        rw [collect_reads hc hX hr]
        apply (arrived_full X r).mpr
        intro i hi
        exact hm _ ⟨i, rfl, hi⟩
      case await i r =>
        apply release_kept hc he (hm _ ⟨rfl, he⟩)
        intro h
        exact hX (await_clear he (le_refl r) X hc.closed h)
      all_goals trivial
    · rintro i r rfl r' hraise
      by_cases hlt : r' < r
      · exact hm _ ⟨r', rfl, hlt, hc.events _ hraise⟩
      · exact absurd (arrive_store he (.raise r') (not_lt.mp hlt) X hc.closed hraise) hX

section Properties

variable {X : Set Event} {m : Cell → ℤ}
  (hc : Consistent (sys k t) (certificate k t) (fun _ => syncValue) X m)
include hc

theorem words_clear (hidle : ∀ i r, i < t.nPes → .enter i r ∈ X → .leave i r ∈ X) (c : Cell) :
    m c = syncValue := by
  -- a member that has entered a round has also cleared its words
  have hleft : ∀ {i r w e}, i < t.nPes → w ∈ X → Prior k t (.enter i r) w →
      Prior k t e (.leave i r) → e ∈ X := by
    intro i r w e hi hw hen hle
    exact hle X hc.closed (hidle i r hi (hen X hc.closed hw))
  by_cases hcell : ∃ i, i < t.nPes ∧ c = (t.member i, 0)
  · obtain ⟨i, hi, rfl⟩ := hcell
    rcases Nat.eq_zero_or_pos i with rfl | hpos
    · rw [CentralDirectBarrier.member_zero]
      obtain ⟨r, hprev, hr⟩ := current_round hc
      have hraised : raised X = syncValue := by
        apply raised_zero hc
        intro hk r' hraise
        exact hleft t.pes_pos hraise enter_raise (lower_leave hk)
      have hnone : arrived t X r = ∅ := by
        apply eq_empty_of_forall_notMem
        intro j hj
        obtain ⟨hj, harrive⟩ := mem_arrived.mp hj
        exact hr (hleft hj.2 harrive (enter_arrive hj) (reset_leave hj))
      rw [counter_eq hc hprev hr, hraised, hnone]
      rfl
    · by_contra hne
      obtain ⟨r, hs, hclear⟩ := release_pending hc ⟨hpos, hi⟩ hne
      exact hclear (hleft hi hs (enter_release ⟨hpos, hi⟩) (clear_leave ⟨hpos, hi⟩))
  · apply hc.read_init
    intro w hw hwrites
    apply hcell
    rcases hwrites with hs | hadd
    · obtain ⟨u, hu, rfl, -⟩ := (stores_to_iff (hc.events w hw)).mp hs
      cases u with
      | counter => exact ⟨0, t.pes_pos, by simp [Word.cell]⟩
      | release i => exact ⟨i, hu.2, rfl⟩
    · exact ⟨0, t.pes_pos, by simp [(adds_to_iff.mp hadd).1]⟩

theorem rounds_kept : Rounds (sys k t) OutsideWindow t.nPes .enter .leave X m := by
  refine ⟨?_, words_clear hc, ?_⟩
  · intro i j r hi hj hl
    exact enter_before_leave hi hj X hc.closed hl
  · intro i r hi hall hl
    have ho : (sys k t).event (.leave i r) := hi
    obtain ⟨e, he, hX, hr, hg, hb⟩ := live.progress acyclic hc ho hl
    refine ⟨e, he, hX, hr, hg, ?_⟩
    rintro j r' rfl
    have hle := prior_point_le hb
    simp only [point, toLex_le_toLex] at hle
    exact hX (enter_mono he (by omega) X hc.closed (hall j he))

theorem counter_kept :
    CounterWord t.nPes .arrive .collect .reset X (m (t.peStart, 0) - raised X) := by
  constructor
  · intro r hr i hi
    exact arrive_collect (Finset.mem_Ico.mp hi) X hc.closed hr
  · intro r hprev hr
    rw [counter_eq hc hprev hr, arrived]
    ring
  · intro i hi r hs
    exact reset_arrive (Finset.mem_Ico.mp hi) r.lt_succ_self X hc.closed hs

theorem release_flag {i : ℕ} (hi : 0 < i ∧ i < t.nPes) :
    FlagWord (.release i) (.await i) (.clear i) X (m (t.member i, 0)) := by
  constructor
  · intro r hr
    exact release_await hi X hc.closed hr
  · intro r hs hX
    exact release_kept hc hi hs hX
  · intro hall
    by_contra hne
    obtain ⟨r, hs, hclear⟩ := release_pending hc hi hne
    exact hclear (hall r hs)
  · intro r hs
    exact ((clear_arrive hi r.lt_succ_self).trans ((arrive_reset hi (le_refl (r + 1))).trans
      (reset_release (le_refl (r + 1))))) X hc.closed hs

end Properties

def round (e : Event) : ℕ := (ofLex (point e)).1

def firstRounds (t : Team) (n : ℕ) : List Event :=
  (List.range t.nPes).flatMap fun i => (List.range n).flatMap fun r =>
    [.enter i r, .leave i r, .arrive i r, .await i r, .clear i r, .collect r, .reset r,
      .raise r, .release i r, .quiet r, .lower r]

theorem finite_rounds {Y : Set Event} {n : ℕ} (ho : ∀ e ∈ Y, Occurs k t e)
    (hr : ∀ e ∈ Y, round e < n) : Y.Finite := by
  apply (List.finite_toSet (firstRounds t n)).subset
  intro e he
  have hpos := t.pes_pos
  have ho := ho e he
  have hr := hr e he
  simp only [Set.mem_ofPred_eq, firstRounds, List.mem_flatMap, List.mem_range]
  cases e
  case enter i r | leave i r => exact ⟨i, ho, r, hr, by simp⟩
  case arrive i r | await i r | clear i r | release i r => exact ⟨i, ho.2, r, hr, by simp⟩
  all_goals rename_i r; exact ⟨0, hpos, r, hr, by simp⟩

theorem round_le {a : Event} (h : Depends (sys k t) (certificate k t) a e) : round a ≤ round e :=
  Prod.Lex.monotone_fst _ _ ((internalAtomicBarrier k t).depends_forward
    (fun _ _ => waits_forward) h).le

theorem closed_rounds (n : ℕ) :
    Closed (sys k t) (certificate k t) {e | Occurs k t e ∧ round e < n} := by
  intro e he
  constructor
  · intro a ha
    exact ⟨ha.1, (round_le (.inl ha)).trans_lt he.2⟩
  · intro a ha
    exact ⟨live.waits_event e a ha, (round_le (.inr ha)).trans_lt he.2⟩

theorem wave_pos : 0 < 64 := by decide

def team64 : Team := ⟨0, 1, 64, Nat.one_pos, wave_pos⟩

@[simp] theorem team64_pes : team64.nPes = 64 := rfl

theorem first_round_reached : ∃ m,
    (sys k team64).Run OutsideWindow (fun _ => syncValue) {e | Occurs k team64 e ∧ round e < 1} m :=
  live.run_reaches sound (finite_rounds (fun _ h => h.1) fun _ h => h.2) (fun _ h => h.1)
    (closed_rounds 1)

theorem ipc_run {X : Set Event} {m : Cell → ℤ}
    (h : (sys .ipc t).Run anyStep (fun _ => syncValue) X m) :
    (sys .ipc t).Run OutsideWindow (fun _ => syncValue) X m := by
  induction h with
  | start => exact .start
  | fire _ he hX hr hg _ ih =>
    apply ih.fire he hX hr hg
    intro i r _ r' hraise
    cases (run_consistent sound ih).events _ hraise

theorem ipc_raised {X : Set Event} {m : Cell → ℤ}
    (hc : Consistent (sys .ipc t) (certificate .ipc t) (fun _ => syncValue) X m) :
    raised X = syncValue := by
  apply raised_zero hc
  intro hk
  cases hk

/-- The barriers on plain flags, and the IPC barrier on a counter, keep their rounds apart
and lose no flag, in every run from zeroed words. -/
theorem central_barriers_keep_rounds (t : Team) :
    (∀ k X m, (CentralDirectBarrier.sys k t).Run anyStep (fun _ => syncValue) X m →
      Rounds (CentralDirectBarrier.sys k t) anyStep t.nPes .enter .leave X m ∧
      ∀ i, 0 < i ∧ i < t.nPes →
        FlagWord (.arrive i) (.collect i) (.reset i) X (m (t.peStart, i)) ∧
        FlagWord (.release i) (.await i) (.clear i) X (m (t.member i, 0))) ∧
    ∀ X m, (sys .ipc t).Run anyStep (fun _ => syncValue) X m →
      Rounds (sys .ipc t) anyStep t.nPes .enter .leave X m ∧
      CounterWord t.nPes .arrive .collect .reset X (m (t.peStart, 0)) ∧
      ∀ i, 0 < i ∧ i < t.nPes → FlagWord (.release i) (.await i)
        (.clear i) X (m (t.member i, 0)) := by
  constructor
  · intro k X m h
    have hc := run_consistent CentralDirectBarrier.sound h
    refine ⟨CentralDirectBarrier.rounds_kept hc, fun i hi => ⟨?_, ?_⟩⟩
    · exact CentralDirectBarrier.arrival_flag hc hi
    · exact CentralDirectBarrier.release_flag hc hi
  · intro X m h
    have hc := run_consistent sound (ipc_run h)
    have hcount := counter_kept hc
    rw [ipc_raised hc, syncValue, sub_zero] at hcount
    refine ⟨?_, hcount, fun i hi => release_flag hc hi⟩
    obtain ⟨hsep, hidle, hlive⟩ := rounds_kept hc
    refine ⟨hsep, hidle, ?_⟩
    intro i r hi hall hl
    obtain ⟨e, he, hX, hr, hg, hne⟩ := hlive i r hi hall hl
    exact ⟨e, he, hX, hr, ⟨hg.1, trivial⟩, hne⟩

theorem ipc_first_round_kept : ∃ X m,
    (sys .ipc team64).Run anyStep (fun _ => syncValue) X m ∧
    (∀ i < 64, .leave i 0 ∈ X) ∧
    Rounds (sys .ipc team64) anyStep 64 .enter .leave X m := by
  obtain ⟨m, h⟩ := first_round_reached
  have h := h.mono fun _ _ _ _ _ _ => trivial
  exact ⟨_, m, h, fun i hi => ⟨hi, Nat.one_pos⟩, ((central_barriers_keep_rounds team64).2 _ _ h).1⟩

def Conserved (t : Team) (X : Set Event) (m : Cell → ℤ) : Prop :=
  m (t.peStart, 0) - raised X + (t.nPes - 1) * {r | .reset r ∈ X}.ncard =
    {p : ℕ × ℕ | .arrive p.1 p.2 ∈ X}.ncard

theorem conserved {X : Set Event} {m : Cell → ℤ}
    (hc : Consistent (sys k t) (certificate k t) (fun _ => syncValue) X m) : Conserved t X m := by
  obtain ⟨r, hprev, hr⟩ := current_round hc
  have hresets : {r | .reset r ∈ X} = (Finset.range r : Set ℕ) := by
    ext r'
    simp only [Set.mem_ofPred_eq, coe_range, Set.mem_Iio]
    constructor
    · intro h
      by_contra hle
      exact hr (reset_mono (not_lt.mp hle) X hc.closed h)
    · exact hprev r'
  have hsent : {p : ℕ × ℕ | .arrive p.1 p.2 ∈ X} =
      ((Finset.Ico 1 t.nPes ×ˢ Finset.range r) ∪ (arrived t X r ×ˢ {r}) : Finset (ℕ × ℕ)) := by
    ext p
    obtain ⟨i, r'⟩ := p
    simp only [Set.mem_ofPred_eq, coe_union, coe_product, Set.mem_union, Set.mem_prod,
      mem_coe, mem_Ico, mem_range, mem_arrived, mem_singleton]
    constructor
    · intro h
      have hi : 0 < i ∧ i < t.nPes := hc.events _ h
      rcases lt_trichotomy r' r with hlt | rfl | hgt
      · exact .inl ⟨hi, hlt⟩
      · exact .inr ⟨⟨hi, h⟩, rfl⟩
      · exact absurd (reset_arrive hi hgt X hc.closed h) hr
    · intro h
      rcases h with ⟨hi, hlt⟩ | ⟨⟨-, h⟩, rfl⟩
      · exact arrive_reset hi (le_refl r') X hc.closed (hprev r' hlt)
      · exact h
  have hdisj : Disjoint (Finset.Ico 1 t.nPes ×ˢ Finset.range r) (arrived t X r ×ˢ {r}) := by
    apply Finset.disjoint_product.mpr
    simp
  have hpos := t.pes_pos
  rw [Conserved, counter_eq hc hprev hr, hresets, hsent, Set.ncard_coe_finset,
    Set.ncard_coe_finset, card_union_of_disjoint hdisj, card_product,
    card_product, Nat.card_Ico, card_range, card_singleton]
  push_cast [Nat.cast_sub hpos]
  ring

/-- In every run of the GDA barrier in which no add is applied inside the root's window, no
arrival is lost, nobody leaves early and no round is stuck. -/
theorem outside_window_conserved {X : Set Event} {m : Cell → ℤ}
    (h : (sys .gda t).Run OutsideWindow (fun _ => syncValue) X m) :
    Conserved t X m ∧ Rounds (sys .gda t) OutsideWindow t.nPes .enter .leave X m := by
  have hc := run_consistent sound h
  exact ⟨conserved hc, rounds_kept hc⟩

theorem first_round_conserved : ∃ X m,
    (sys .gda team64).Run OutsideWindow (fun _ => syncValue) X m ∧
    (∀ i < 64, .leave i 0 ∈ X) ∧ Conserved team64 X m ∧
    Rounds (sys .gda team64) OutsideWindow 64 .enter .leave X m := by
  obtain ⟨m, h⟩ := first_round_reached
  exact ⟨_, m, h, fun i hi => ⟨hi, Nat.one_pos⟩, outside_window_conserved h⟩

def firstReleased : Event → Prop
  | .enter i r => i < 64 ∧ (r = 0 ∨ i = 1 ∧ r = 1)
  | .arrive i r | .release i r => (0 < i ∧ i < 64) ∧ r = 0
  | .collect r | .reset r | .raise r | .quiet r => r = 0
  | .await i r | .clear i r | .leave i r => i = 1 ∧ r = 0
  | .lower _ => False

def lastReleased (q : ℕ) : ℕ ×ₗ ℕ ×ₗ ℕ :=
  if q = 0 then toLex (0, toLex (6, 0))
  else if q = 1 then toLex (1, toLex (0, 0))
  else toLex (0, toLex (1, 0))

theorem first_released_iff :
    firstReleased e ↔ Occurs .gda team64 e ∧ point e ≤ lastReleased (pe team64 e) := by
  have hstart : team64.peStart = 0 := rfl
  have hmember : ∀ i, team64.member i = i := by
    intro i
    simp [Team.member, team64]
  cases e with
  | enter | arrive | await | clear | leave =>
    simp only [firstReleased, Occurs, pe, hmember, team64_pes, lastReleased, point]
    split_ifs <;> simp only [toLex_le_toLex, true_and] <;> omega
  | collect | reset | raise | release | quiet | lower =>
    simp only [firstReleased, Occurs, pe, hstart, team64_pes, lastReleased, point, if_true,
      toLex_le_toLex, true_and, false_iff]
    omega

theorem first_released_closed :
    Closed (sys .gda team64) (certificate .gda team64) {e | firstReleased e} := by
  intro e he
  constructor
  · intro a ha
    obtain ⟨ho, hpe, hpt, -⟩ := ha
    change pe team64 a = pe team64 e at hpe
    have hle := (first_released_iff.mp he).2
    rw [← hpe] at hle
    exact first_released_iff.mpr ⟨ho, (le_of_lt hpt).trans hle⟩
  · intro a ha
    change firstReleased a
    change firstReleased e at he
    change waitsFor .gda team64 e a at ha
    cases e <;> simp only [waitsFor, firstReleased] at ha he
    case arrive i r =>
      obtain ⟨r', -, hlt, -⟩ := ha
      omega
    case await i r =>
      obtain ⟨rfl, hi⟩ := ha
      exact ⟨hi, he.2⟩
    case collect r =>
      obtain ⟨i, rfl, hi⟩ := ha
      exact ⟨hi, he⟩

theorem first_released_occurs (h : firstReleased e) : Occurs .gda team64 e ∧ round e < 2 := by
  cases e <;> simp only [firstReleased] at h <;>
    simp only [Occurs, team64_pes, round, point, ofLex_toLex, true_and] <;> omega

def afterWipe : Set Event := insert (.lower 0) (insert (.arrive 1 1) {e | firstReleased e})

theorem after_wipe_run : ∃ m, (sys .gda team64).Run anyStep (fun _ => syncValue) afterWipe m ∧
    m (team64.peStart, 0) = syncValue := by
  have hocc : ∀ e ∈ {e | firstReleased e}, Occurs .gda team64 e := by
    intro e he
    exact (first_released_occurs he).1
  obtain ⟨m, h⟩ := live.run_reaches sound
    (finite_rounds hocc fun e he => (first_released_occurs he).2) hocc first_released_closed
  have hready : ∀ {a e}, (sys .gda team64).pre a e → e = .arrive 1 1 ∨ e = .lower 0 →
      firstReleased a := by
    intro a e ha he
    obtain ⟨ho, hpe, hpt, -⟩ := ha
    change Occurs .gda team64 a at ho
    change pe team64 a = pe team64 e at hpe
    change point a < point e at hpt
    rcases he with rfl | rfl <;> cases a <;>
      simp only [firstReleased, Occurs, pe, point, team64_pes, toLex_lt_toLex,
        CentralDirectBarrier.member_inj, member_eq_start,
        CentralDirectBarrier.start_eq_member] at ho hpe hpt ⊢ <;> omega
  have harrive : (sys .gda team64).Run anyStep (fun _ => syncValue)
      (insert (.arrive 1 1) {e | firstReleased e})
        ((action .gda team64 (.arrive 1 1)).apply m) := by
    refine (h.mono fun _ _ _ _ _ _ => trivial).fire ?_ ?_ ?_ trivial trivial
    · exact ⟨Nat.one_pos, by decide⟩
    · intro hin
      cases hin.2
    · intro a ha
      exact hready ha (.inl rfl)
  have hlower : (sys .gda team64).Run anyStep (fun _ => syncValue) afterWipe
      ((action .gda team64 (.lower 0)).apply ((action .gda team64 (.arrive 1 1)).apply m)) := by
    refine harrive.fire ?_ ?_ ?_ trivial trivial
    · rfl
    · intro hin
      rcases hin with hin | hin
      · cases hin
      · exact hin
    · intro a ha
      exact .inr (hready ha (.inr rfl))
  exact ⟨_, hlower, by simp [action, Effect.apply]⟩

theorem after_wipe_arrivals : {p : ℕ × ℕ | .arrive p.1 p.2 ∈ afterWipe} =
      (insert (1, 1) (Finset.Ico 1 64 ×ˢ {0}) : Finset (ℕ × ℕ)) := by
  ext p
  obtain ⟨i, r⟩ := p
  simp [afterWipe, firstReleased, Nat.one_le_iff_ne_zero, Nat.pos_iff_ne_zero, eq_comm (b := r)]

/-- A member that is back early adds to the counter before the root clears the word: its
arrival is gone. -/
theorem early_arrival_wiped : ∃ X m,
    (sys .gda team64).Run anyStep (fun _ => syncValue) X m ∧ ¬ Conserved team64 X m := by
  obtain ⟨m, hrun, hm⟩ := after_wipe_run
  refine ⟨afterWipe, m, hrun, ?_⟩
  have hraised : raised afterWipe = syncValue := by
    apply if_neg
    simp [afterWipe, firstReleased]
  have hresets : {r | .reset r ∈ afterWipe} = ({0} : Set ℕ) := by
    ext r
    simp [afterWipe, firstReleased]
  rw [Conserved, hm, hraised, hresets, after_wipe_arrivals, Set.ncard_coe_finset,
    Set.ncard_singleton, card_insert_of_notMem (by simp), card_product, Nat.card_Ico,
    team64_pes, card_singleton]
  simp only [syncValue]
  omega

end CentralAtomicBarrier
