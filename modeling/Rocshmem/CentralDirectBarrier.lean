import Rocshmem.BarrierRounds

/-! `internal_direct_barrier` of the GDA and of the IPC conduit, round after round on one
`pSync` array. PE `PE_start` collects one flag of every other member and then releases all
of them. The GDA puts read their flag from a word of the sender and complete before the
next statement; the IPC stores carry a constant and arrive at any later time. -/
namespace CentralDirectBarrier

open MatchedPrograms BarrierRounds
open Prod.Lex (toLex_le_toLex toLex_lt_toLex)

inductive Conduit where
  | gda
  | ipc
  deriving DecidableEq, Repr

structure Team where
  peStart : ℕ
  stride : ℕ
  nPes : ℕ
  stride_pos : 0 < stride
  pes_pos : 0 < nPes

def Team.member (t : Team) (i : ℕ) : ℕ := t.peStart + t.stride * i

def Team.peOffset (t : Team) (pe : ℕ) : ℕ := (pe - t.peStart) / t.stride

/-- The statements of round `r`, between marks of entry and exit. The member `i` marks its
own word, sends it, waits for its release and clears both words. The root waits for every
flag and clears it, and then for every member raises its word 0 and sends it. -/
inductive Event where
  | enter (i r : ℕ)
  | leave (i r : ℕ)
  | mark (i r : ℕ)
  | arrive (i r : ℕ)
  | await (i r : ℕ)
  | clear (i r : ℕ)
  | clearOwn (i r : ℕ)
  | collect (i r : ℕ)
  | reset (i r : ℕ)
  | raise (i r : ℕ)
  | release (i r : ℕ)
  | lower (r : ℕ)
  deriving DecidableEq, Repr

abbrev Cell := ℕ × ℕ

variable (k : Conduit) (t : Team)

def Occurs : Event → Prop
  | .enter i _ | .leave i _ => i < t.nPes
  | .mark i _ | .clearOwn i _ | .raise i _ => k = .gda ∧ 0 < i ∧ i < t.nPes
  | .arrive i _ | .await i _ | .clear i _ => 0 < i ∧ i < t.nPes
  | .collect i _ | .reset i _ | .release i _ => 0 < i ∧ i < t.nPes
  | .lower _ => k = .gda

def pe : Event → ℕ
  | .enter i _ | .leave i _ => t.member i
  | .mark i _ | .arrive i _ | .await i _ | .clear i _ | .clearOwn i _ => t.member i
  | .collect _ _ | .reset _ _ | .raise _ _ | .release _ _ | .lower _ => t.peStart

def point : Event → ℕ ×ₗ ℕ ×ₗ ℕ
  | .enter _ r => toLex (r, toLex (0, 0))
  | .mark _ r => toLex (r, toLex (1, 0))
  | .arrive _ r => toLex (r, toLex (2, 0))
  | .collect i r => toLex (r, toLex (3, 2 * i))
  | .reset i r => toLex (r, toLex (3, 2 * i + 1))
  | .raise i r => toLex (r, toLex (4, 2 * i))
  | .release i r => toLex (r, toLex (4, 2 * i + 1))
  | .lower r => toLex (r, toLex (5, 0))
  | .await _ r => toLex (r, toLex (6, 0))
  | .clear _ r => toLex (r, toLex (7, 0))
  | .clearOwn _ r => toLex (r, toLex (8, 0))
  | .leave _ r => toLex (r, toLex (9, 0))

def putMode (dest : ℕ) : Mode ℕ :=
  match k with
  | .gda => .flushed dest
  | .ipc => .posted dest

def mode : Event → Mode ℕ
  | .arrive _ _ => putMode k t.peStart
  | .release i _ => putMode k (t.member i)
  | _ => .blocking

def flagVal : ℤ := 1

def syncValue : ℤ := 0

def putSource (word : Cell) (m : Cell → ℤ) : ℤ :=
  match k with
  | .gda => m word
  | .ipc => flagVal

def guard : Event → (Cell → ℤ) → Prop
  | .collect i _, m => m (t.peStart, i) = flagVal
  | .await i _, m => m (t.member i, 0) = flagVal
  | _, _ => True

def action : Event → Effect Cell ℤ
  | .mark i _ => .store (t.member i, t.peOffset (t.member i)) fun _ => flagVal
  | .arrive i _ => .store (t.peStart, t.peOffset (t.member i))
      (putSource k (t.member i, t.peOffset (t.member i)))
  | .enter _ _ | .leave _ _ | .await _ _ => .skip
  | .clear i _ => .store (t.member i, 0) fun _ => syncValue
  | .clearOwn i _ => .store (t.member i, t.peOffset (t.member i)) fun _ => syncValue
  | .collect _ _ => .skip
  | .reset i _ => .store (t.peStart, i) fun _ => syncValue
  | .raise _ _ => .store (t.peStart, 0) fun _ => flagVal
  | .release i _ => .store (t.member i, 0) (putSource k (t.peStart, 0))
  | .lower _ => .store (t.peStart, 0) fun _ => syncValue

def internalDirectBarrier : Program Event ℕ (ℕ ×ₗ ℕ ×ₗ ℕ) ℕ Cell ℤ where
  event := Occurs k t
  pe := pe t
  point := point
  mode := mode k t
  guard := guard t
  action := action k t

def waitsFor : Event → Event → Prop
  | .collect i r, e => e = .arrive i r ∧ 0 < i ∧ i < t.nPes
  | .await i r, e => e = .release i r ∧ 0 < i ∧ i < t.nPes
  | _, _ => False

def value : Event → ℤ
  | .mark _ _ | .arrive _ _ | .raise _ _ | .release _ _ => flagVal
  | _ => syncValue

def certificate : Certificate Event ℤ := ⟨waitsFor t, value⟩

variable {k t}

abbrev sys (k : Conduit) (t : Team) : System Event Cell ℤ := (internalDirectBarrier k t).system

abbrev Prior (k : Conduit) (t : Team) : Event → Event → Prop := Before (sys k t) (certificate t)

@[simp] theorem member_zero : t.member 0 = t.peStart := by simp [Team.member]

@[simp] theorem member_inj {i j : ℕ} : t.member i = t.member j ↔ i = j := by
  simp [Team.member, t.stride_pos.ne']

@[simp] theorem member_eq_start {i : ℕ} : t.member i = t.peStart ↔ i = 0 := by
  rw [← member_zero, member_inj]

@[simp] theorem start_eq_member {i : ℕ} : t.peStart = t.member i ↔ i = 0 := by
  rw [eq_comm, member_eq_start]

@[simp] theorem pe_offset_member (i : ℕ) : t.peOffset (t.member i) = i := by
  simp [Team.peOffset, Team.member, t.stride_pos]

theorem waits_forward {e a : Event} (h : waitsFor t e a) : point a < point e := by
  cases e <;> simp only [waitsFor] at h
  all_goals
    obtain ⟨rfl, -, -⟩ := h
    simp [point, toLex_lt_toLex]

variable {a e : Event}

theorem prior_of_point (ha : Occurs k t a) (hpe : pe t a = pe t e) (hpt : point a < point e)
    (hm : mode k t a = .blocking) : Prior k t a e :=
  before_of_pre (Program.pre_of_blocking ha hpe hpt hm)

section Order

variable {i j r r' : ℕ}

section

variable (hi : 0 < i ∧ i < t.nPes)
include hi

theorem arrive_collect : Prior k t (.arrive i r) (.collect i r) :=
  before_of_waits ⟨rfl, hi⟩

theorem release_await : Prior k t (.release i r) (.await i r) :=
  before_of_waits ⟨rfl, hi⟩

theorem collect_release (hr : r ≤ r') : Prior k t (.collect i r) (.release j r') := by
  refine prior_of_point ?_ rfl ?_ rfl
  · exact hi
  · simp only [point, toLex_lt_toLex]
    omega

theorem reset_release (hr : r ≤ r') : Prior k t (.reset i r) (.release j r') := by
  refine prior_of_point ?_ rfl ?_ rfl
  · exact hi
  · simp only [point, toLex_lt_toLex]
    omega

theorem collect_reset (hr : r ≤ r') : Prior k t (.collect i r) (.reset i r') := by
  refine prior_of_point ?_ rfl ?_ rfl
  · exact hi
  · simp only [point, toLex_lt_toLex, true_and]
    omega

theorem await_arrive (hr : r < r') : Prior k t (.await i r) (.arrive i r') := by
  refine prior_of_point ?_ rfl ?_ rfl
  · exact hi
  · simp only [point, toLex_lt_toLex]
    omega

theorem await_clear (hr : r ≤ r') : Prior k t (.await i r) (.clear i r') := by
  refine prior_of_point ?_ rfl ?_ rfl
  · exact hi
  · simp only [point, toLex_lt_toLex]
    omega

theorem clear_arrive (hr : r < r') : Prior k t (.clear i r) (.arrive i r') := by
  refine prior_of_point ?_ rfl ?_ rfl
  · exact hi
  · simp only [point, toLex_lt_toLex]
    omega

theorem enter_arrive : Prior k t (.enter i r) (.arrive i r) := by
  refine prior_of_point ?_ rfl ?_ rfl
  · exact hi.2
  · simp [point, toLex_lt_toLex]

end

theorem enter_collect : Prior k t (.enter 0 r) (.collect i r) := by
  refine prior_of_point ?_ ?_ ?_ rfl
  · exact t.pes_pos
  · simp [pe]
  · simp [point, toLex_lt_toLex]

theorem enter_leave (hi : i < t.nPes) : Prior k t (.enter i r) (.leave i r) := by
  refine prior_of_point ?_ rfl ?_ rfl
  · exact hi
  · simp [point, toLex_lt_toLex]

section

variable (hi : 0 < i ∧ i < t.nPes)
include hi

theorem collect_leave : Prior k t (.collect i r) (.leave 0 r) := by
  refine prior_of_point ?_ ?_ ?_ rfl
  · exact hi
  · simp [pe]
  · simp [point, toLex_lt_toLex]

theorem await_leave : Prior k t (.await i r) (.leave i r) := by
  refine prior_of_point ?_ rfl ?_ rfl
  · exact hi
  · simp [point, toLex_lt_toLex]

theorem clear_leave : Prior k t (.clear i r) (.leave i r) := by
  refine prior_of_point ?_ rfl ?_ rfl
  · exact hi
  · simp [point, toLex_lt_toLex]

theorem enter_mark : Prior k t (.enter i r) (.mark i r) := by
  refine prior_of_point ?_ rfl ?_ rfl
  · exact hi.2
  · simp [point, toLex_lt_toLex]

end

theorem clear_own_leave (hi : Occurs k t (.clearOwn i r)) :
    Prior k t (.clearOwn i r) (.leave i r) := by
  refine prior_of_point hi rfl ?_ rfl
  simp [point, toLex_lt_toLex]

theorem enter_raise : Prior k t (.enter 0 r) (.raise i r) := by
  refine prior_of_point ?_ ?_ ?_ rfl
  · exact t.pes_pos
  · simp [pe]
  · simp [point, toLex_lt_toLex]

theorem lower_leave (hk : Occurs k t (.lower r)) : Prior k t (.lower r) (.leave 0 r) := by
  refine prior_of_point hk ?_ ?_ rfl
  · simp [pe]
  · simp [point, toLex_lt_toLex]

theorem enter_mono (hi : i < t.nPes) (hr : r ≤ r') : Prior k t (.enter i r) (.enter i r') := by
  rcases hr.lt_or_eq with h | rfl
  · refine prior_of_point ?_ rfl ?_ rfl
    · exact hi
    · simp [point, toLex_lt_toLex, h]
  · exact Before.refl _

section

variable (hi : 0 < i ∧ i < t.nPes)
include hi

theorem arrive_release (hr : r ≤ r') : Prior k t (.arrive i r) (.release j r') :=
  (arrive_collect hi).trans (collect_release hi hr)

theorem release_arrive (hr : r < r') : Prior k t (.release i r) (.arrive i r') :=
  (release_await hi).trans (await_arrive hi hr)

theorem arrive_mono (hr : r ≤ r') : Prior k t (.arrive i r) (.arrive i r') := by
  rcases hr.lt_or_eq with h | rfl
  · exact (arrive_release hi (le_refl r)).trans (release_arrive hi h)
  · exact Before.refl _

theorem release_mono (hr : r ≤ r') : Prior k t (.release i r) (.release i r') := by
  rcases hr.lt_or_eq with h | rfl
  · exact (release_arrive hi h).trans (arrive_release hi (le_refl r'))
  · exact Before.refl _

end

end Order

inductive Word where
  | arrival (i : ℕ)
  | release (i : ℕ)
  | own (i : ℕ)
  | source
  deriving DecidableEq

def Word.cell (t : Team) : Word → Cell
  | .arrival i => (t.peStart, i)
  | .release i => (t.member i, 0)
  | .own i => (t.member i, i)
  | .source => (t.peStart, 0)

inductive Writer : Word → Event → Prop where
  | arrive (i r) : Writer (.arrival i) (.arrive i r)
  | reset (i r) : Writer (.arrival i) (.reset i r)
  | release (i r) : Writer (.release i) (.release i r)
  | clear (i r) : Writer (.release i) (.clear i r)
  | mark (i r) : Writer (.own i) (.mark i r)
  | clearOwn (i r) : Writer (.own i) (.clearOwn i r)
  | raise (i r) : Writer .source (.raise i r)
  | lower (r) : Writer .source (.lower r)

def Word.Used (t : Team) : Word → Prop
  | .arrival i | .release i | .own i => 0 < i ∧ i < t.nPes
  | .source => True

theorem cell_inj {u v : Word} (hu : u.Used t) (hv : v.Used t) (h : u.cell t = v.cell t) :
    u = v := by
  cases u <;> cases v <;> simp_all [Word.cell, Word.Used, eq_comm]
  omega

theorem writer_of_writes {c : Cell} (he : Occurs k t e) (h : (sys k t).Writes c e) :
    ∃ u : Word, u.Used t ∧ u.cell t = c ∧ Writer u e := by
  rcases h with ⟨f, h⟩ | ⟨v, h⟩
  · change action k t e = .store c f at h
    cases e <;> simp only [action, pe_offset_member, Effect.store.injEq, reduceCtorEq] at h <;>
      obtain ⟨rfl, -⟩ := h
    case mark i r => exact ⟨.own i, he.2, rfl, .mark i r⟩
    case arrive i r => exact ⟨.arrival i, he, rfl, .arrive i r⟩
    case clear i r => exact ⟨.release i, he, rfl, .clear i r⟩
    case clearOwn i r => exact ⟨.own i, he.2, rfl, .clearOwn i r⟩
    case reset i r => exact ⟨.arrival i, he, rfl, .reset i r⟩
    case raise i r => exact ⟨.source, trivial, rfl, .raise i r⟩
    case release i r => exact ⟨.release i, he, rfl, .release i r⟩
    case lower r => exact ⟨.source, trivial, rfl, .lower r⟩
  · change action k t e = .add c v at h
    cases e <;> simp [action] at h

variable {u : Word}

theorem writer_stores (h : Writer u e) :
    (sys k t).StoresTo (u.cell t) e := by
  cases h <;> simp only [System.StoresTo, Word.cell] <;>
    simp [sys, Program.system, internalDirectBarrier, action]

variable {w w' : Event}

theorem writers_ordered (hu : u.Used t) (hw : Writer u w) (hw' : Writer u w') (ho : Occurs k t w)
    (ho' : Occurs k t w') (hpt : point w < point w') : Prior k t w w' := by
  cases hw with
  | arrive i r =>
    cases hw' with
    | arrive _ r' =>
      apply arrive_mono hu
      simp only [point, toLex_lt_toLex] at hpt
      omega
    | reset _ r' =>
      apply (arrive_collect hu).trans (collect_reset hu _)
      simp only [point, toLex_lt_toLex] at hpt
      omega
  | reset i r =>
    cases hw' with
    | arrive _ r' =>
      apply (reset_release hu (le_refl r)).trans (release_arrive hu _)
      simp only [point, toLex_lt_toLex] at hpt
      omega
    | reset _ r' => exact prior_of_point ho rfl hpt rfl
  | release i r =>
    cases hw' with
    | release _ r' =>
      apply release_mono hu
      simp only [point, toLex_lt_toLex] at hpt
      omega
    | clear _ r' =>
      apply (release_await hu).trans (await_clear hu _)
      simp only [point, toLex_lt_toLex] at hpt
      omega
  | clear i r =>
    cases hw' with
    | release _ r' =>
      apply (clear_arrive hu _).trans (arrive_release hu (le_refl r'))
      simp only [point, toLex_lt_toLex] at hpt
      omega
    | clear _ r' => exact prior_of_point ho rfl hpt rfl
  | mark | clearOwn | raise | lower => cases hw' <;> exact prior_of_point ho rfl hpt rfl

theorem writer_unique (hw : Writer u w) (hw' : Writer u w') (hpt : point w = point w') :
    w = w' := by
  cases hw <;> cases hw' <;> simp_all [point]

theorem writers_le (hu : u.Used t) (hw : Writer u w) (hw' : Writer u w') (ho : Occurs k t w)
    (ho' : Occurs k t w') (hpt : point w ≤ point w') : Prior k t w w' := by
  rcases hpt.lt_or_eq with h | h
  · exact writers_ordered hu hw hw' ho ho' h
  · rw [writer_unique hw hw' h]
    exact Before.refl _

theorem acyclic : WellFounded (Depends (sys k t) (certificate t)) :=
  (internalDirectBarrier k t).acyclic fun _ _ => waits_forward

theorem prior_point_le (h : Prior k t a e) : point a ≤ point e :=
  (internalDirectBarrier k t).point_le (fun _ _ => waits_forward) h

theorem not_adds (c : Cell) (e : Event) : ¬ (sys k t).AddsTo c e := by
  rintro ⟨v, h⟩
  change action k t e = .add c v at h
  cases e <;> simp [action] at h

theorem flag_writer {X : Set Event} {m : Cell → ℤ} {c : Cell}
    (hc : Consistent (sys k t) (certificate t) (fun _ => syncValue) X m) (hne : m c ≠ syncValue) :
    ∃ u w, u.Used t ∧ u.cell t = c ∧ w ∈ X ∧ Writer u w ∧ value w = flagVal ∧
      ∀ w' ∈ X, Writer u w' → point w' ≤ point w := by
  rcases hc.last_store (not_adds c) with ⟨h, -⟩ | ⟨w, hw, hs, hval, hlast⟩
  · exact absurd h hne
  · obtain ⟨u, hu, rfl, hwr⟩ := writer_of_writes (hc.events w hw) (.inl hs)
    refine ⟨u, w, hu, rfl, hw, hwr, ?_, ?_⟩
    · rw [hval] at hne
      change value w ≠ syncValue at hne
      cases w <;> first | rfl | exact absurd rfl hne
    · intro w' hw' hwr'
      exact prior_point_le (hlast w' hw' (writer_stores hwr'))

section Obligations

variable {X : Set Event} {m : Cell → ℤ} {i r : ℕ}
  (hc : Consistent (sys k t) (certificate t) (fun _ => syncValue) X m)
include hc

theorem arrival_pending (hi : 0 < i ∧ i < t.nPes) (hne : m (t.peStart, i) ≠ syncValue) :
    ∃ r, .arrive i r ∈ X ∧ .reset i r ∉ X := by
  obtain ⟨u, w, hu, hcell, hw, hwr, hval, hlast⟩ := flag_writer hc hne
  obtain rfl := cell_inj (v := .arrival i) hu hi hcell
  cases hwr with
  | reset _ r => simp [value, flagVal, syncValue] at hval
  | arrive _ r =>
    refine ⟨r, hw, fun hX => ?_⟩
    have hpt := hlast _ hX (.reset i r)
    simp [point, toLex_le_toLex] at hpt

theorem release_pending (hi : 0 < i ∧ i < t.nPes) (hne : m (t.member i, 0) ≠ syncValue) :
    ∃ r, .release i r ∈ X ∧ .clear i r ∉ X := by
  obtain ⟨u, w, hu, hcell, hw, hwr, hval, hlast⟩ := flag_writer hc hne
  obtain rfl := cell_inj (v := .release i) hu hi hcell
  cases hwr with
  | clear _ r => simp [value, flagVal, syncValue] at hval
  | release _ r =>
    refine ⟨r, hw, fun hX => ?_⟩
    have hpt := hlast _ hX (.clear i r)
    simp [point, toLex_le_toLex] at hpt

theorem collect_matched (hi : 0 < i ∧ i < t.nPes) (hr : (sys k t).Ready X (.collect i r))
    (hg : m (t.peStart, i) = flagVal) : .arrive i r ∈ X := by
  obtain ⟨r', hs, hX⟩ := arrival_pending hc hi (by rw [hg]; decide)
  by_cases hle : r ≤ r'
  · exact arrive_mono hi hle X hc.closed hs
  · -- an older flag has been cleared since
    refine absurd (hr (.reset i r') ⟨hi, rfl, ?_, trivial⟩) hX
    simp only [internalDirectBarrier, point, toLex_lt_toLex]
    omega

theorem await_matched (hi : 0 < i ∧ i < t.nPes) (hr : (sys k t).Ready X (.await i r))
    (hg : m (t.member i, 0) = flagVal) : .release i r ∈ X := by
  obtain ⟨r', hs, hX⟩ := release_pending hc hi (by rw [hg]; decide)
  by_cases hle : r ≤ r'
  · exact release_mono hi hle X hc.closed hs
  · refine absurd (hr (.clear i r') ⟨hi, rfl, ?_, trivial⟩) hX
    simp only [internalDirectBarrier, point, toLex_lt_toLex]
    omega

theorem read_word (hu : u.Used t) (hX : e ∉ X) (hw : w ∈ X)
    (hwr : Writer u w)
    (hother : ∀ w', Occurs k t w' → Writer u w' → point w' ≤ point w ∨ Prior k t e w') :
    m (u.cell t) = value w := by
  apply hc.read_before acyclic hX hw (writer_stores hwr)
  intro w' ho hwrites
  obtain ⟨u', hu', hcell, hwr'⟩ := writer_of_writes ho hwrites
  obtain rfl := cell_inj hu' hu hcell
  rcases hother w' ho hwr' with hle | hprior
  · exact .inl (writers_le hu hwr' hwr ho (hc.events w hw) hle)
  · exact .inr hprior

theorem read_source (hu : u.Used t) (he : Occurs k t e) (hX : e ∉ X)
    (hw : w ∈ X) (hwr : Writer u w) (hval : value w = flagVal) (hm : ∀ x, (mode k t e).Precedes x)
    (hother : ∀ w', Writer u w' → pe t e = pe t w' ∧ (point w' ≤ point w ∨ point e < point w')) :
    m (u.cell t) = flagVal := by
  rw [← hval]
  apply read_word hc hu hX hw hwr
  intro w' _ hwr'
  obtain ⟨hpe, hle | hlt⟩ := hother w' hwr'
  · exact .inl hle
  · exact .inr (before_of_pre ⟨he, hpe, hlt, hm _⟩)

theorem arrive_value (hk : k = .gda) (hi : 0 < i ∧ i < t.nPes) (hX : .arrive i r ∉ X)
    (hr : (sys k t).Ready X (.arrive i r)) : m (t.member i, i) = flagVal := by
  subst hk
  have hmark : Event.mark i r ∈ X := by
    apply hr
    refine ⟨⟨rfl, hi⟩, rfl, ?_, trivial⟩
    simp [internalDirectBarrier, point, toLex_lt_toLex]
  apply read_source hc (u := .own i) (e := .arrive i r) hi hi hX hmark (.mark i r) rfl
    fun _ => trivial
  intro w' hwr'
  cases hwr' <;> refine ⟨rfl, ?_⟩ <;>
    simp only [point, toLex_le_toLex, toLex_lt_toLex, true_and] <;> omega

theorem release_value (hk : k = .gda) (hi : 0 < i ∧ i < t.nPes) (hX : .release i r ∉ X)
    (hr : (sys k t).Ready X (.release i r)) : m (t.peStart, 0) = flagVal := by
  subst hk
  have hraise : Event.raise i r ∈ X := by
    apply hr
    refine ⟨⟨rfl, hi⟩, rfl, ?_, trivial⟩
    simp [internalDirectBarrier, point, toLex_lt_toLex]
  apply read_source hc (u := .source) (e := .release i r) trivial hi hX hraise (.raise i r) rfl
    fun _ => trivial
  intro w' hwr'
  cases hwr' <;> refine ⟨rfl, ?_⟩ <;>
    simp only [point, toLex_le_toLex, toLex_lt_toLex, true_and] <;> omega

end Obligations

theorem sound : Sound (sys k t) (certificate t) anyStep fun _ => syncValue := by
  refine ⟨acyclic, ?_, ?_, ?_⟩
  · intro c w w' ho ho' hs hw'
    obtain ⟨u, hu, rfl, hwr⟩ := writer_of_writes ho (.inl hs)
    obtain ⟨u', hu', hcell, hwr'⟩ := writer_of_writes ho' hw'
    obtain rfl := cell_inj hu' hu hcell
    rcases lt_trichotomy (point w) (point w') with h | h | h
    · exact .inr (.inl (writers_ordered hu hwr hwr' ho ho' h))
    · exact .inl (writer_unique hwr hwr' h)
    · exact .inr (.inr (writers_ordered hu hwr' hwr ho' ho h))
  · intro X m e hc he hX hr hg _ a ha
    cases e <;> simp only [certificate, waitsFor] at ha <;> obtain ⟨rfl, hi⟩ := ha
    case collect i r => exact collect_matched hc hi hr hg
    case await i r => exact await_matched hc hi hr hg
  · intro X m e c f hc he hX hr hm hact
    change action k t e = .store c f at hact
    cases e <;> simp only [action, pe_offset_member, Effect.store.injEq, reduceCtorEq] at hact <;>
      obtain ⟨-, rfl⟩ := hact <;> try rfl
    case arrive i r =>
      cases k with
      | gda => exact arrive_value hc rfl he hX hr
      | ipc => rfl
    case release i r =>
      cases k with
      | gda => exact release_value hc rfl he hX hr
      | ipc => rfl

theorem enter_before_leave {i j r : ℕ} (hi : i < t.nPes) (hj : j < t.nPes) :
    Prior k t (.enter j r) (.leave i r) := by
  -- the root has collected every flag before it leaves and before it releases anybody
  have hroot : ∀ l, 0 < l ∧ l < t.nPes → Prior k t (.collect l r) (.leave i r) := by
    intro l hl
    rcases Nat.eq_zero_or_pos i with rfl | hpos
    · exact collect_leave hl
    · exact (collect_release hl (le_refl r)).trans
        ((release_await ⟨hpos, hi⟩).trans (await_leave ⟨hpos, hi⟩))
  rcases Nat.eq_zero_or_pos j with rfl | hpos
  · rcases Nat.eq_zero_or_pos i with rfl | hpos
    · exact enter_leave hi
    · exact enter_collect.trans (hroot i ⟨hpos, hi⟩)
  · exact (enter_arrive ⟨hpos, hj⟩).trans ((arrive_collect ⟨hpos, hj⟩).trans (hroot j ⟨hpos, hj⟩))

section Properties

variable {X : Set Event} {m : Cell → ℤ} {i r : ℕ}
  (hc : Consistent (sys k t) (certificate t) (fun _ => syncValue) X m)
include hc

theorem kept_between (hu : u.Used t) (hw : w ∈ X) (hwr : Writer u w)
    (he : Occurs k t e) (hX : e ∉ X) (hwe : Writer u e)
    (hnone : ∀ w', Writer u w' → point w' ≤ point w ∨ point e ≤ point w') :
    m (u.cell t) = value w := by
  apply read_word hc hu hX hw hwr
  intro w' ho hwr'
  rcases hnone w' hwr' with h | h
  · exact .inl h
  · exact .inr (writers_le hu hwe hwr' he ho h)

section

variable (hi : 0 < i ∧ i < t.nPes)
include hi

theorem arrival_kept (hs : .arrive i r ∈ X) (hX : .reset i r ∉ X) : m (t.peStart, i) = flagVal := by
  apply kept_between hc (u := .arrival i) (e := .reset i r) hi hs (.arrive i r) hi hX (.reset i r)
  intro w' hwr'
  cases hwr' <;> simp only [point, toLex_le_toLex, true_and] <;> omega

theorem release_kept (hs : .release i r ∈ X) (hX : .clear i r ∉ X) :
    m (t.member i, 0) = flagVal := by
  apply kept_between hc (u := .release i) (e := .clear i r) hi hs (.release i r) hi hX (.clear i r)
  intro w' hwr'
  cases hwr' <;> simp only [point, toLex_le_toLex, true_and] <;> omega

theorem arrival_flag : FlagWord (.arrive i) (.collect i) (.reset i) X (m (t.peStart, i)) := by
  constructor
  · intro r hr
    exact arrive_collect hi X hc.closed hr
  · intro r hs hX
    exact arrival_kept hc hi hs hX
  · intro hall
    by_contra hne
    obtain ⟨r, hs, hX⟩ := arrival_pending hc hi hne
    exact hX (hall r hs)
  · intro r hs
    apply ((reset_release hi (le_refl r)).trans (release_arrive hi _)) X hc.closed hs
    exact r.lt_succ_self

theorem release_flag : FlagWord (.release i) (.await i) (.clear i) X (m (t.member i, 0)) := by
  constructor
  · intro r hr
    exact release_await hi X hc.closed hr
  · intro r hs hX
    exact release_kept hc hi hs hX
  · intro hall
    by_contra hne
    obtain ⟨r, hs, hX⟩ := release_pending hc hi hne
    exact hX (hall r hs)
  · intro r hs
    apply ((clear_arrive hi _).trans (arrive_release hi (le_refl (r + 1)))) X hc.closed hs
    exact r.lt_succ_self

end

theorem words_clear (hidle : ∀ i r, i < t.nPes → .enter i r ∈ X → .leave i r ∈ X) (c : Cell) :
    m c = syncValue := by
  -- whoever stored the flag has left the round, and cleared the word before
  have hleft : ∀ {i r w e}, i < t.nPes → w ∈ X → Prior k t (.enter i r) w →
      Prior k t e (.leave i r) → e ∈ X := by
    intro i r w e hi hw hen hle
    exact hle X hc.closed (hidle i r hi (hen X hc.closed hw))
  by_contra hne
  obtain ⟨u, w, hu, hcell, hw, hwr, hval, hlast⟩ := flag_writer hc hne
  have ho := hc.events w hw
  cases hwr with
  | arrive i r =>
    have hpt := hlast (.reset i r) (hleft hu.2 hw (enter_arrive hu) ((reset_release hu
      (le_refl r)).trans ((release_await hu).trans (await_leave hu)))) (.reset i r)
    simp [point, toLex_le_toLex] at hpt
  | release i r =>
    have hpt := hlast (.clear i r) (hleft hu.2 hw ((enter_arrive hu).trans
      (arrive_release hu (le_refl r))) (clear_leave hu)) (.clear i r)
    simp [point, toLex_le_toLex] at hpt
  | mark i r =>
    have hpt := hlast (.clearOwn i r) (hleft hu.2 hw (enter_mark hu) (clear_own_leave ho))
      (.clearOwn i r)
    simp [point, toLex_le_toLex] at hpt
  | raise i r =>
    have hpt := hlast (.lower r) (hleft t.pes_pos hw enter_raise (lower_leave ho.1)) (.lower r)
    simp [point, toLex_le_toLex] at hpt
  | reset | clear | clearOwn | lower => simp [value, flagVal, syncValue] at hval

end Properties

theorem live : Live (sys k t) (certificate t) anyStep fun _ => syncValue := by
  refine ⟨fun a e h => h.1, ?_, ?_⟩
  · intro e a h
    cases e <;> simp only [certificate, waitsFor] at h <;> obtain ⟨rfl, hi⟩ := h <;> exact hi
  · intro X m e hc he hX hr hm
    refine ⟨?_, trivial⟩
    cases e
    case collect i r =>
      apply arrival_kept hc he (hm _ ⟨rfl, he⟩)
      intro h
      exact hX (collect_reset he (le_refl r) X hc.closed h)
    case await i r =>
      apply release_kept hc he (hm _ ⟨rfl, he⟩)
      intro h
      exact hX (await_clear he (le_refl r) X hc.closed h)
    all_goals trivial

theorem rounds_kept {X : Set Event} {m : Cell → ℤ}
    (hc : Consistent (sys k t) (certificate t) (fun _ => syncValue) X m) :
    Rounds (sys k t) anyStep t.nPes .enter .leave X m := by
  refine ⟨?_, words_clear hc, ?_⟩
  · intro i j r hi hj hl
    exact enter_before_leave hi hj X hc.closed hl
  · intro i r hi hall hl
    have ho : (sys k t).event (.leave i r) := hi
    obtain ⟨e, he, hX, hr, hg, hb⟩ := live.progress acyclic hc ho hl
    refine ⟨e, he, hX, hr, hg, ?_⟩
    rintro j r' rfl
    -- the entries up to round `r` have all been made
    have hle := prior_point_le hb
    simp only [point, toLex_le_toLex] at hle
    exact hX (enter_mono he (by omega) X hc.closed (hall j he))

def round (e : Event) : ℕ := (ofLex (point e)).1

theorem round_le (h : Depends (sys k t) (certificate t) a e) : round a ≤ round e :=
  Prod.Lex.monotone_fst _ _ ((internalDirectBarrier k t).depends_forward
    (fun _ _ => waits_forward) h).le

theorem finite_first_round : {e | Occurs k t e ∧ round e < 1}.Finite := by
  have hfin := List.finite_toSet ((List.range t.nPes).flatMap fun i =>
    [Event.enter i 0, .leave i 0, .mark i 0, .arrive i 0, .await i 0, .clear i 0, .clearOwn i 0,
      .collect i 0, .reset i 0, .raise i 0, .release i 0, .lower 0])
  apply hfin.subset
  intro e ⟨ho, hr⟩
  simp only [Set.mem_ofPred_eq, List.mem_flatMap, List.mem_range]
  cases e
  case enter i r | leave i r =>
    obtain rfl : r = 0 := Nat.lt_one_iff.mp hr
    exact ⟨i, ho, by simp⟩
  case mark i r | clearOwn i r | raise i r =>
    obtain rfl : r = 0 := Nat.lt_one_iff.mp hr
    exact ⟨i, ho.2.2, by simp⟩
  case arrive i r | await i r | clear i r | collect i r | reset i r | release i r =>
    obtain rfl : r = 0 := Nat.lt_one_iff.mp hr
    exact ⟨i, ho.2, by simp⟩
  case lower r =>
    obtain rfl : r = 0 := Nat.lt_one_iff.mp hr
    exact ⟨0, t.pes_pos, by simp⟩

end CentralDirectBarrier
