import Rocshmem.GuardedMachines
import Rocshmem.RoQueueElement

/-! The command ring of a reverse-offload block handle. Waves reserve a range of write
indices under the lock, against a read index that they cache; each lane then fills its slot
field by field and raises the valid flag. The host copies a slot whose flag is up, lowers
the flag and advances its read index. A blocking lane polls the status word whose address
it finds in its slot. -/
namespace RoCommandRing

open GuardedMachines RoQueueElement
open Function (update)

structure Ring where
  queueSize : ℕ
  positive : 0 < queueSize
  calls : ℕ → Args

inductive Holder where
  | waiting (lanes : ℕ)
  | reserved
  deriving DecidableEq

inductive Lane where
  | building
  | waiting
  | leaving
  | returned
  deriving DecidableEq

inductive Host where
  | idle
  | copying
  | inserted
  | cleared
  deriving DecidableEq

/-- `readIndex` is the copy in the handle. `consumed` lists the elements handed to the
transport, `cleared` the address through which a blocking lane stored its final zero. -/
structure State where
  lock : Option Holder
  readIndex : ℕ
  writeIndex : ℕ
  hostReadIndex : ℕ
  slot : ℕ → Element
  valid : ℕ → Bool
  lane : ℕ → Lane
  done : ℕ → List ElemField
  host : Host
  cache : Element
  copied : List ElemField
  consumed : List Element
  status : ℤ → Bool
  notified : ℕ → Bool
  cleared : ℕ → Option ℤ

def initial : State where
  lock := none
  readIndex := 0
  writeIndex := 0
  hostReadIndex := 0
  slot _ := zeroed
  valid _ := false
  lane _ := .building
  done _ := []
  host := .idle
  cache := zeroed
  copied := []
  consumed := []
  status _ := false
  notified _ := false
  cleared _ := none

inductive Event where
  | acquire (lanes : ℕ)
  | refresh (lanes : ℕ)
  | reserve (lanes : ℕ)
  | release
  | store (t : ℕ) (f : ElemField)
  | publish (t : ℕ)
  | look
  | copy (f : ElemField)
  | insert
  | clear
  | advance
  | notify (t : ℕ)
  | observe (t : ℕ)
  | finish (t : ℕ)
  deriving DecidableEq

def enoughSpace (R : Ring) (s : State) (required : ℕ) : Prop :=
  R.queueSize - (s.writeIndex - s.readIndex) ≥ required

def SharesStatus (R : Ring) (s : State) (t t' : ℕ) : Prop :=
  (R.calls t).blocking = true ∧ (R.calls t').blocking = true ∧ s.lane t ≠ .returned ∧
    (R.calls t).status = (R.calls t').status

def StatusFree (R : Ring) (s : State) (lanes : ℕ) : Prop :=
  ∀ t' < s.writeIndex + lanes, s.writeIndex ≤ t' → ∀ t < t', ¬ SharesStatus R s t t'

instance (R : Ring) (s : State) (required : ℕ) : Decidable (enoughSpace R s required) :=
  inferInstanceAs (Decidable (_ ≥ _))

instance (R : Ring) (s : State) (t t' : ℕ) : Decidable (SharesStatus R s t t') :=
  inferInstanceAs (Decidable (_ ∧ _ ∧ _ ≠ _ ∧ _ = _))

instance (R : Ring) (s : State) (lanes : ℕ) : Decidable (StatusFree R s lanes) :=
  inferInstanceAs (Decidable (∀ _, _ → _))

def Enabled (R : Ring) (s : State) : Event → Prop
  | .acquire lanes => s.lock = none ∧ 0 < lanes ∧ lanes ≤ R.queueSize
  | .refresh lanes => s.lock = some (.waiting lanes) ∧ ¬ enoughSpace R s lanes
  | .reserve lanes => s.lock = some (.waiting lanes) ∧ enoughSpace R s lanes ∧ StatusFree R s lanes
  | .release => s.lock = some .reserved
  | .store t f =>
    t < s.writeIndex ∧ s.lane t = .building ∧ f ∈ (R.calls t).stores ∧ f ∉ s.done t
  | .publish t =>
    t < s.writeIndex ∧ s.lane t = .building ∧ ∀ f ∈ (R.calls t).stores, f ∈ s.done t
  | .look => s.host = .idle ∧ s.valid (s.hostReadIndex % R.queueSize) = true
  | .copy f => s.host = .copying ∧ f ∉ s.copied
  | .insert => s.host = .copying ∧ ∀ f ∈ fields, f ∈ s.copied
  | .clear => s.host = .inserted
  | .advance => s.host = .cleared
  | .notify t =>
    t < s.consumed.length ∧ (R.calls t).blocking = true ∧ s.notified t = false
  | .observe t => s.lane t = .waiting ∧ s.status (s.slot (t % R.queueSize) .status) = true
  | .finish t => s.lane t = .leaving

def State.notifyAddress (s : State) (t : ℕ) : ℤ := (s.consumed[t]?.getD zeroed) .status

def next (R : Ring) (s : State) : Event → State
  | .acquire lanes => { s with lock := some (.waiting lanes) }
  | .refresh _ => { s with readIndex := s.hostReadIndex }
  | .reserve lanes => { s with lock := some .reserved, writeIndex := s.writeIndex + lanes }
  | .release => { s with lock := none }
  | .store t f =>
    { s with
      slot := update s.slot (t % R.queueSize)
        (update (s.slot (t % R.queueSize)) f ((R.calls t).arg f))
      done := update s.done t (f :: s.done t) }
  | .publish t =>
    { s with
      valid := update s.valid (t % R.queueSize) true
      lane := update s.lane t (if (R.calls t).blocking then .waiting else .returned) }
  | .look => { s with host := .copying, copied := [] }
  | .copy f =>
    { s with
      cache := update s.cache f (s.slot (s.hostReadIndex % R.queueSize) f)
      copied := f :: s.copied }
  | .insert => { s with host := .inserted, consumed := s.consumed ++ [s.cache] }
  | .clear =>
    { s with
      valid := update s.valid (s.hostReadIndex % R.queueSize) false
      host := .cleared }
  | .advance => { s with hostReadIndex := s.hostReadIndex + 1, host := .idle }
  | .notify t =>
    { s with
      status := update s.status (s.notifyAddress t) true
      notified := update s.notified t true }
  | .observe t => { s with lane := update s.lane t .leaving }
  | .finish t =>
    { s with
      status := update s.status (s.slot (t % R.queueSize) .status) false
      lane := update s.lane t .returned
      cleared := update s.cleared t (some (s.slot (t % R.queueSize) .status)) }

def machine (R : Ring) : Machine State Event where
  initial := initial
  enabled := Enabled R
  next := next R

instance (R : Ring) (s : State) (e : Event) : Decidable ((machine R).enabled s e) := by
  cases e <;> dsimp only [machine, Enabled] <;> infer_instance

def Published (s : State) (t : ℕ) : Prop := s.lane t ≠ .building

def Host.ahead : Host → ℕ
  | .idle | .copying => 0
  | .inserted | .cleared => 1

structure RingInvariant (R : Ring) (s : State) : Prop where
  cached_le : s.readIndex ≤ s.hostReadIndex
  host_le : s.hostReadIndex ≤ s.writeIndex
  room : s.writeIndex ≤ s.readIndex + R.queueSize
  ahead : ∀ t, s.writeIndex ≤ t → s.lane t = .building ∧ s.done t = []
  behind : ∀ t, t < s.hostReadIndex → Published s t
  whole : ∀ t, Published s t → ∀ f ∈ (R.calls t).stores, f ∈ s.done t
  flag : ∀ t, s.hostReadIndex ≤ t → t < s.hostReadIndex + R.queueSize →
    (s.valid (t % R.queueSize) = true ↔
      Published s t ∧ ¬ (t = s.hostReadIndex ∧ s.host = .cleared))
  content : ∀ t, s.hostReadIndex ≤ t → ∀ f ∈ (R.calls t).stores,
    Published s t ∨ f ∈ s.done t → s.slot (t % R.queueSize) f = (R.calls t).arg f
  busy : s.host ≠ .idle → Published s s.hostReadIndex
  cached : s.host = .copying → ∀ f ∈ s.copied, f ∈ (R.calls s.hostReadIndex).stores →
    s.cache f = (R.calls s.hostReadIndex).arg f
  count : s.consumed.length = s.hostReadIndex + s.host.ahead
  elements : ∀ t e, s.consumed[t]? = some e → ∀ f ∈ (R.calls t).stores, e f = (R.calls t).arg f

theorem initial_ring_invariant (R : Ring) : RingInvariant R initial := by
  constructor <;> simp [initial, Published, Host.ahead]

theorem slot_inj {b n t t' : ℕ} (h : b ≤ t) (hlt : t < b + n) (h' : b ≤ t') (hlt' : t' < b + n)
    (hmod : t % n = t' % n) : t = t' := by
  have hd := Nat.div_add_mod t n
  have hd' := Nat.div_add_mod t' n
  rw [hmod] at hd
  rcases Nat.lt_trichotomy (t / n) (t' / n) with hlt | heq | hgt
  · have := Nat.mul_le_mul_left n (Nat.succ_le_of_lt hlt)
    rw [Nat.mul_succ] at this
    omega
  · rw [heq] at hd
    omega
  · have := Nat.mul_le_mul_left n (Nat.succ_le_of_lt hgt)
    rw [Nat.mul_succ] at this
    omega

section Step

variable {R : Ring} {s : State}

variable {t : ℕ} {f : ElemField}

section

variable (h : RingInvariant R s)
include h

theorem RingInvariant.started_lt (ht : Published s t ∨ f ∈ s.done t) : t < s.writeIndex := by
  grind [RingInvariant, Published]

theorem RingInvariant.window (ht : t < s.writeIndex) : t < s.hostReadIndex + R.queueSize := by
  have := h.cached_le
  have := h.room
  omega

theorem RingInvariant.building_ge (ht : s.lane t = .building) : s.hostReadIndex ≤ t := by
  by_contra hlt
  exact h.behind t (Nat.lt_of_not_le hlt) ht

theorem RingInvariant.consumed_le : s.consumed.length ≤ s.writeIndex := by
  have hcount := h.count
  have hle := h.host_le
  by_cases hidle : s.host = .idle
  · simp only [hidle, Host.ahead] at hcount
    omega
  · have hlt := h.started_lt (f := .type) (.inl (h.busy hidle))
    have hahead : s.host.ahead ≤ 1 := by cases s.host <;> decide
    omega

theorem RingInvariant.slot_ne {t' : ℕ} (hge : s.hostReadIndex ≤ t)
    (hlt : t < s.hostReadIndex + R.queueSize) (hge' : s.hostReadIndex ≤ t')
    (hlt' : t' < s.writeIndex) (hne : t ≠ t') : t % R.queueSize ≠ t' % R.queueSize :=
  fun hmod => hne (slot_inj hge hlt hge' (h.window hlt') hmod)

theorem RingInvariant.reserve {lanes : ℕ} (he : Enabled R s (.reserve lanes)) :
    RingInvariant R (next R s (.reserve lanes)) := by
  have hspace := he.2.1
  have hle := h.cached_le
  have hhost := h.host_le
  have hroom := h.room
  simp only [enoughSpace] at hspace
  refine { h with cached_le := hle, host_le := ?_, room := ?_, ahead := ?_ }
  · exact Nat.le_add_right_of_le hhost
  · change s.writeIndex + lanes ≤ s.readIndex + R.queueSize
    omega
  · intro t ht
    exact h.ahead t (Nat.le_of_add_right_le ht)

theorem RingInvariant.store (he : Enabled R s (.store t f)) :
    RingInvariant R (next R s (.store t f)) := by
  obtain ⟨hlt, hlane, hf, -⟩ := he
  have hge := h.building_ge hlane
  refine { h with ahead := ?_, whole := ?_, content := ?_ }
  · intro t' ht'
    have hne : t' ≠ t := by
      rintro rfl
      exact absurd hlt (Nat.not_lt_of_le ht')
    simpa [next, hne] using h.ahead t' ht'
  · intro t' hp f' hf'
    have hne : t' ≠ t := by
      rintro rfl
      exact hp hlane
    simpa [next, hne] using h.whole t' hp f' hf'
  · intro t' hge' f' hf' hstarted
    by_cases htt : t' = t
    · subst htt
      by_cases hff : f' = f
      · subst hff
        simp [next]
      · have hdone : f' ∈ s.done t' := by
          rcases hstarted with hp | hd
          · exact absurd hlane hp
          · simpa [next, hff] using hd
        simpa [next, hff] using h.content t' hge' f' hf' (.inr hdone)
    · -- the other index is in the same stretch of the ring, hence in another slot
      have hstarted' : Published s t' ∨ f' ∈ s.done t' := by
        simpa [next, Published, htt] using hstarted
      have hslot := h.slot_ne hge (h.window hlt) hge' (h.started_lt hstarted') (Ne.symm htt)
      simpa [next, hslot.symm] using h.content t' hge' f' hf' hstarted'

end

theorem published_update {t' : ℕ} {l : Lane} (hl : l ≠ .building) :
    update s.lane t l t' ≠ .building ↔ t' = t ∨ Published s t' := by
  by_cases htt : t' = t
  · subst htt
    simp [hl]
  · simp [htt, Published]

section

variable (h : RingInvariant R s)
include h

theorem RingInvariant.publish (he : Enabled R s (.publish t)) :
    RingInvariant R (next R s (.publish t)) := by
  obtain ⟨hlt, hlane, hdone⟩ := he
  have hge := h.building_ge hlane
  have hnew : (if (R.calls t).blocking then Lane.waiting else .returned) ≠ .building := by
    split <;> decide
  have hpub : ∀ t', Published (next R s (.publish t)) t' ↔ t' = t ∨ Published s t' :=
    fun t' => published_update hnew
  refine ⟨h.cached_le, h.host_le, h.room, ?_, ?_, ?_, ?_, ?_, ?_, h.cached, h.count, h.elements⟩
  · intro t' ht'
    have hne : t' ≠ t := by
      rintro rfl
      exact absurd hlt (Nat.not_lt_of_le ht')
    simpa [next, hne] using h.ahead t' ht'
  · exact fun t' ht' => (hpub t').mpr (.inr (h.behind t' ht'))
  · intro t' hp
    rcases (hpub t').mp hp with rfl | hp
    · exact hdone
    · exact h.whole t' hp
  · intro t' hge' hlt'
    rw [hpub]
    by_cases htt : t' = t
    · subst htt
      have hfree : ¬ (t' = s.hostReadIndex ∧ s.host = .cleared) := by
        rintro ⟨rfl, hhost⟩
        exact h.busy (by simp [hhost]) hlane
      simpa [next] using hfree
    · have hslot : t' % R.queueSize ≠ t % R.queueSize := h.slot_ne hge' hlt' hge hlt htt
      simpa [next, hslot, htt] using h.flag t' hge' hlt'
  · intro t' hge' f hf hstarted
    rw [hpub] at hstarted
    rcases hstarted with (rfl | hp) | hd
    · exact h.content t' hge' f hf (.inr (hdone f hf))
    · exact h.content t' hge' f hf (.inl hp)
    · exact h.content t' hge' f hf (.inr hd)
  · exact fun hhost => (hpub _).mpr (.inr (h.busy hhost))

theorem RingInvariant.lane_moves {l : Lane} (ht : Published s t) (hl : l ≠ .building)
    {status : ℤ → Bool} {cleared : ℕ → Option ℤ} : RingInvariant R { s with
      lane := update s.lane t l, status := status, cleared := cleared } := by
  have hpub : ∀ t', update s.lane t l t' ≠ .building ↔ Published s t' := by
    intro t'
    rw [published_update hl]
    constructor
    · rintro (rfl | hp)
      · exact ht
      · exact hp
    · exact .inr
  refine ⟨h.cached_le, h.host_le, h.room, ?_, ?_, ?_, ?_, ?_, ?_, h.cached, h.count, h.elements⟩
  · intro t' ht'
    have hne : t' ≠ t := by
      rintro rfl
      exact ht (h.ahead t' ht').1
    simpa [hne] using h.ahead t' ht'
  · exact fun t' ht' => (hpub t').mpr (h.behind t' ht')
  · exact fun t' hp => h.whole t' ((hpub t').mp hp)
  · intro t' hge hlt
    simpa only [Published, hpub] using h.flag t' hge hlt
  · intro t' hge f hf hstarted
    exact h.content t' hge f hf (hstarted.imp_left (hpub t').mp)
  · exact fun hhost => (hpub _).mpr (h.busy hhost)

theorem RingInvariant.look (he : Enabled R s .look) : RingInvariant R (next R s .look) := by
  obtain ⟨hidle, hvalid⟩ := he
  have hpos := R.positive
  have hflag := h.flag s.hostReadIndex (Nat.le_refl _) (by omega)
  have hcount := h.count
  refine { h with flag := ?_, busy := ?_, cached := ?_, count := ?_ }
  · intro t hge hlt
    simpa [next, Published, hidle] using h.flag t hge hlt
  · exact fun _ => (hflag.mp hvalid).1
  · intro _ f hf
    simp [next] at hf
  · simpa [next, hidle, Host.ahead] using hcount

theorem RingInvariant.copy (he : Enabled R s (.copy f)) : RingInvariant R (next R s (.copy f)) := by
  have hpub := h.busy (by simp [he.1])
  refine { h with cached := ?_ }
  intro _ f' hf' hstored
  by_cases hff : f' = f
  · subst hff
    simpa [next] using h.content s.hostReadIndex (Nat.le_refl _) f' hstored (.inl hpub)
  · have hcopied : f' ∈ s.copied := by simpa [next, hff] using hf'
    simpa [next, hff] using h.cached he.1 f' hcopied hstored

theorem RingInvariant.insert (he : Enabled R s .insert) : RingInvariant R (next R s .insert) := by
  obtain ⟨hhost, hall⟩ := he
  have hcount := h.count
  simp only [hhost, Host.ahead, Nat.add_zero] at hcount
  refine { h with flag := ?_, busy := ?_, cached := ?_, count := ?_, elements := ?_ }
  · intro t hge hlt
    simpa [next, Published, hhost] using h.flag t hge hlt
  · exact fun _ => h.busy (by simp [hhost])
  · simp [next]
  · simp [next, Host.ahead, hcount]
  · intro t e hget f hf
    simp only [next, List.getElem?_append] at hget
    split at hget
    · exact h.elements t e hget f hf
    next hlen =>
      -- the element just handed on is the one at the read index
      obtain ⟨hzero, rfl⟩ : t - s.consumed.length = 0 ∧ s.cache = e := by
        simpa [List.getElem?_singleton] using hget
      obtain rfl : t = s.hostReadIndex := by omega
      exact h.cached hhost f (hall f (mem_fields f)) hf

theorem RingInvariant.clear (he : Enabled R s .clear) : RingInvariant R (next R s .clear) := by
  have hhost : s.host = .inserted := he
  have hpub := h.busy (by simp [hhost])
  have hlt := h.started_lt (f := .type) (.inl hpub)
  have hcount := h.count
  refine { h with flag := ?_, busy := fun _ => hpub, cached := ?_, count := ?_ }
  · intro t hge hltq
    by_cases ht : t = s.hostReadIndex
    · simp [next, ht]
    · have hslot := h.slot_ne hge hltq (Nat.le_refl _) hlt ht
      have hflag := h.flag t hge hltq
      simpa [next, hslot, ht, Published] using hflag
  · simp [next]
  · simpa [next, hhost, Host.ahead] using hcount

theorem RingInvariant.advance (he : Enabled R s .advance) :
    RingInvariant R (next R s .advance) := by
  have hhost : s.host = .cleared := he
  have hpub := h.busy (by simp [hhost])
  have hlt := h.started_lt (f := .type) (.inl hpub)
  have hpos := R.positive
  have hcount := h.count
  have hcached := h.cached_le
  have hroom := h.room
  refine ⟨Nat.le_succ_of_le hcached, hlt, hroom, h.ahead, ?_, h.whole, ?_, ?_, ?_, ?_, ?_,
    h.elements⟩
  · intro t ht
    rcases Nat.lt_succ_iff_lt_or_eq.mp ht with ht | rfl
    · exact h.behind t ht
    · exact hpub
  · intro t hge hltq
    simp only [next] at hge hltq ⊢
    by_cases ht : t = s.hostReadIndex + R.queueSize
    · -- the slot just freed: its flag is down and nobody has started to fill it
      subst ht
      have hdown := h.flag s.hostReadIndex (Nat.le_refl _) (by omega)
      have hahead := h.ahead (s.hostReadIndex + R.queueSize) (by omega)
      simp [hhost] at hdown
      simp [hdown, Published, hahead]
    · grind [RingInvariant, Published]
  · exact fun t hge => h.content t (Nat.le_of_succ_le hge)
  · simp [next]
  · simp [next]
  · simpa [next, hhost, Host.ahead] using hcount

theorem step_preserves_ring {e : Event} (he : Enabled R s e) : RingInvariant R (next R s e) := by
  cases e with
  | acquire | release | notify =>
    exact { h with }
  | refresh lanes =>
    refine { h with cached_le := Nat.le_refl _, room := ?_ }
    exact Nat.le_trans h.room (Nat.add_le_add_right h.cached_le _)
  | reserve lanes => exact h.reserve he
  | store t f => exact h.store he
  | publish t => exact h.publish he
  | look => exact h.look he
  | copy f => exact h.copy he
  | insert => exact h.insert he
  | clear => exact h.clear he
  | advance => exact h.advance he
  | observe t => exact h.lane_moves (by simp [Published, he.1]) (by decide)
  | finish t =>
    have hlane : s.lane t = .leaving := he
    exact h.lane_moves (by simp [Published, hlane]) (by decide)

end

end Step

theorem run_ring {R : Ring} {ok : State → Event → Prop} {s : State} (h : (machine R).Run ok s) :
    RingInvariant R s :=
  h.induct (initial_ring_invariant R) fun _ _ hs he _ => step_preserves_ring hs he

section Drain

variable {R : Ring} {s : State}

structure HostReaches (R : Ring) (s s' : State) : Prop where
  reaches : (machine R).Reaches s s'
  lane : s'.lane = s.lane

theorem HostReaches.trans {s' s'' : State} (h : HostReaches R s s') (h' : HostReaches R s' s'') :
    HostReaches R s s'' :=
  ⟨h.reaches.trans h'.reaches, h'.lane.trans h.lane⟩

theorem HostReaches.step (e : Event) {s' : State} (he : Enabled R s e)
    (hlane : (next R s e).lane = s.lane) (h : HostReaches R (next R s e) s') : HostReaches R s s' :=
  ⟨h.reaches.step he, h.lane.trans hlane⟩

theorem host_copies (l : List ElemField) (hhost : s.host = .copying) :
    ∃ s', HostReaches R s s' ∧ s'.hostReadIndex = s.hostReadIndex ∧ s'.host = .copying ∧
      ∀ f ∈ l, f ∈ s'.copied := by
  induction l with
  | nil => exact ⟨s, ⟨.refl s, rfl⟩, rfl, hhost, by simp⟩
  | cons f l ih =>
    obtain ⟨s', hr, hindex, hhost', hl⟩ := ih
    by_cases hf : f ∈ s'.copied
    · exact ⟨s', hr, hindex, hhost', by simpa [hf] using hl⟩
    · refine ⟨next R s' (.copy f), hr.trans (.step (.copy f) ⟨hhost', hf⟩ rfl ⟨.refl _, rfl⟩),
        hindex, hhost', ?_⟩
      intro f' hf'
      rcases List.mem_cons.mp hf' with rfl | hf'
      · simp [next]
      · simp [next, hl f' hf']

abbrev HostTakes (R : Ring) (s : State) : Prop :=
  ∃ s', HostReaches R s s' ∧ s'.hostReadIndex = s.hostReadIndex + 1

theorem host_takes (h : RingInvariant R s) (hpub : Published s s.hostReadIndex) :
    HostTakes R s := by
  have hcleared : ∀ s : State, s.host = .cleared → HostTakes R s :=
    fun s hs => ⟨next R s .advance, .step .advance hs rfl ⟨.refl _, rfl⟩, rfl⟩
  have hinserted : ∀ s : State, s.host = .inserted → HostTakes R s := by
    intro s hs
    obtain ⟨s', hr, hindex⟩ := hcleared (next R s .clear) rfl
    exact ⟨s', .step .clear hs rfl hr, hindex⟩
  have hcopying : ∀ s : State, s.host = .copying → HostTakes R s := by
    intro s hs
    obtain ⟨s₁, hr₁, hindex₁, hs₁, hall⟩ := host_copies (R := R) fields hs
    obtain ⟨s', hr, hindex⟩ := hinserted (next R s₁ .insert) rfl
    exact ⟨s', hr₁.trans (.step .insert ⟨hs₁, hall⟩ rfl hr), hindex₁ ▸ hindex⟩
  have hpos := R.positive
  cases hhost : s.host with
  | cleared => exact hcleared s hhost
  | inserted => exact hinserted s hhost
  | copying => exact hcopying s hhost
  | idle =>
    have hvalid : s.valid (s.hostReadIndex % R.queueSize) = true := by
      rw [h.flag s.hostReadIndex (Nat.le_refl _) (by omega)]
      exact ⟨hpub, by simp [hhost]⟩
    obtain ⟨s', hr, hindex⟩ := hcopying (next R s .look) rfl
    exact ⟨s', .step .look ⟨hhost, hvalid⟩ rfl hr, hindex⟩

theorem reaches_ring {s' : State} (h : RingInvariant R s) (hr : (machine R).Reaches s s') :
    RingInvariant R s' := by
  induction hr with
  | refl => exact h
  | tail _ hstep ih =>
    obtain ⟨e, he, rfl⟩ := hstep
    exact step_preserves_ring ih he

theorem host_drains (h : RingInvariant R s) {t : ℕ} (hpub : ∀ t' ≤ t, Published s t') :
    ∃ s', (machine R).Reaches s s' ∧ t < s'.consumed.length := by
  obtain ⟨n, hn⟩ : ∃ n, t + 1 ≤ s.hostReadIndex + n := ⟨t + 1, Nat.le_add_left _ _⟩
  induction n generalizing s with
  | zero =>
    have := h.count
    exact ⟨s, .refl s, by omega⟩
  | succ n ih =>
    by_cases hle : s.hostReadIndex ≤ t
    · obtain ⟨s₁, hr₁, hindex⟩ := host_takes h (hpub _ hle)
      obtain ⟨s', hr, ht⟩ := ih (reaches_ring h hr₁.reaches)
        (fun t' ht' => by simpa [Published, hr₁.lane] using hpub t' ht') (by omega)
      exact ⟨s', hr₁.reaches.trans hr, ht⟩
    · have := h.count
      exact ⟨s, .refl s, by omega⟩

end Drain

/-- The `t`-th element that the host takes is the one written at index `t`, whole, and the
host looked at it only when it was published. An index is written to only after the host has
advanced past the index that had the slot before, and the host can always go on to take what
is published. -/
structure RingKept (R : Ring) (s : State) : Prop where
  in_order : s.consumed.length = s.hostReadIndex + s.host.ahead
  own : ∀ t e, s.consumed[t]? = some e → ∀ f ∈ (R.calls t).stores, e f = (R.calls t).arg f
  published_first : ∀ t, t < s.hostReadIndex ∨ t = s.hostReadIndex ∧ s.host ≠ .idle →
    Published s t
  written_first : ∀ t, Published s t → ∀ f ∈ (R.calls t).stores, f ∈ s.done t
  freed_first : ∀ t, s.done t ≠ [] ∨ Published s t → t < s.hostReadIndex + R.queueSize
  drains : ∀ t, (∀ t' ≤ t, Published s t') → ∃ s', (machine R).Reaches s s' ∧ t < s'.consumed.length

def twoPuts : Ring where
  queueSize := 1
  positive := Nat.one_pos
  calls
    | 0 => ⟨.put, 8, 16, 4, 1, 0, 0, 0, 0, true, 10, .sum, .float⟩
    | _ => ⟨.put, 24, 32, 4, 1, 0, 0, 0, 0, true, 11, .sum, .float⟩

def fill (R : Ring) (t : ℕ) : List Event := (R.calls t).stores.map (Event.store t) ++ [Event.publish t]

def take : List Event := [Event.look] ++ fields.map Event.copy ++ [Event.insert, .clear, .advance]

def putAfterPut : List Event :=
  [Event.acquire 1, .reserve 1, .release] ++ fill twoPuts 0 ++ take ++
    [Event.acquire 1, .refresh 1, .reserve 1, .release] ++ fill twoPuts 1 ++ take

end RoCommandRing
