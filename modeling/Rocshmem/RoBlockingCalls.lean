import Rocshmem.RoCommandRing

/-! Blocking calls on the reverse-offload ring. The caller polls through the status pointer in
its slot, and the host gives the slot back before the command is complete. -/
namespace RoBlockingCalls

open Function GuardedMachines RoCommandRing RoQueueElement

def SlotUnawaited (R : Ring) (s : State) : Event → Prop
  | .store t .status =>
    ∀ t' < t, t' % R.queueSize = t % R.queueSize → s.lane t' ≠ .waiting ∧ s.lane t' ≠ .leaving
  | _ => True

def Awaiting (s : State) (t : ℕ) : Prop := s.lane t = .waiting ∨ s.lane t = .leaving

theorem Awaiting.published {s : State} {t : ℕ} (h : Awaiting s t) : Published s t := by
  rcases h with h | h <;> simp [Published, h]

structure WaiterInvariant (R : Ring) (s : State) : Prop where
  blocks : ∀ t, Awaiting s t → (R.calls t).blocking = true
  pointer : ∀ t, Awaiting s t → s.slot (t % R.queueSize) .status = (R.calls t).status
  word : ∀ t, t < s.writeIndex → (R.calls t).blocking = true → s.lane t ≠ .returned →
    s.status (R.calls t).status = s.notified t
  raised : ∀ p, s.status p = true → ∃ t, t < s.writeIndex ∧ (R.calls t).blocking = true ∧
    s.lane t ≠ .returned ∧ (R.calls t).status = p
  distinct : ∀ t' < s.writeIndex, ∀ t < t', ¬ SharesStatus R s t t'
  consumed : ∀ t, s.notified t = true → t < s.consumed.length
  leaving : ∀ t, s.lane t = .leaving → s.notified t = true
  returned : ∀ t, s.lane t = .returned → (R.calls t).blocking = true →
    s.notified t = true ∧ s.cleared t = some (R.calls t).status

theorem initial_waiter_invariant (R : Ring) : WaiterInvariant R initial := by
  constructor <;> simp [initial, Awaiting]

theorem status_stored {a : Args} (h : a.blocking = true) : .status ∈ a.stores := by
  simp [Args.stores, h]

section Waiters

variable {R : Ring} {s : State}

theorem WaiterInvariant.word_ne (h : WaiterInvariant R s) {t t' : ℕ} (hne : t ≠ t')
    (ht : t < s.writeIndex) (ht' : t' < s.writeIndex) (hb : (R.calls t).blocking = true)
    (hb' : (R.calls t').blocking = true) (hl : s.lane t ≠ .returned)
    (hl' : s.lane t' ≠ .returned) : (R.calls t).status ≠ (R.calls t').status := by
  intro heq
  rcases Nat.lt_or_gt_of_ne hne with hlt | hgt
  · exact h.distinct t' ht' t hlt ⟨hb, hb', hl, heq⟩
  · exact h.distinct t ht t' hgt ⟨hb', hb, hl', heq.symm⟩

theorem WaiterInvariant.reserve (hr : RingInvariant R s) (h : WaiterInvariant R s) {lanes : ℕ}
    (he : Enabled R s (.reserve lanes)) : WaiterInvariant R (next R s (.reserve lanes)) := by
  obtain ⟨-, -, hfree⟩ := he
  refine { h with word := ?_, raised := ?_, distinct := ?_ }
  · intro t ht hb hl
    by_cases hold : t < s.writeIndex
    · exact h.word t hold hb hl
    · -- a fresh index: nobody under way uses its word, and the host has not seen it
      have hnot : s.notified t = false := by
        by_contra hn
        have hlen := h.consumed t (by simpa using hn)
        have hbound := hr.consumed_le
        omega
      change s.status _ = s.notified t
      rw [hnot]
      by_contra hraised
      obtain ⟨t', ht', hb', hl', heq⟩ := h.raised _ (by simpa using hraised)
      exact hfree t ht (Nat.le_of_not_lt hold) t' (by omega) ⟨hb', hb, hl', heq⟩
  · intro p hp
    obtain ⟨t, ht, hrest⟩ := h.raised p hp
    exact ⟨t, Nat.lt_add_right lanes ht, hrest⟩
  · grind [StatusFree, SharesStatus, WaiterInvariant, next]

variable {t : ℕ}

section

variable (hr : RingInvariant R s) (h : WaiterInvariant R s)
include hr h

theorem WaiterInvariant.store {f : ElemField} (he : Enabled R s (.store t f))
    (hok : SlotUnawaited R s (.store t f)) : WaiterInvariant R (next R s (.store t f)) := by
  obtain ⟨hlt, hlane, -, -⟩ := he
  refine { h with pointer := ?_ }
  intro t' ht'
  by_cases hf : f = .status
  · subst hf
    have hslot : t' % R.queueSize ≠ t % R.queueSize := by
      intro hmod
      have hne : t' ≠ t := by
        rintro rfl
        exact ht'.published hlane
      rcases Nat.lt_or_gt_of_ne hne with hlt' | hgt
      · obtain ⟨hw, hl⟩ := hok t' hlt' hmod
        exact ht'.elim hw hl
      · have hge := hr.building_ge hlane
        have hlt' := hr.started_lt (f := .type) (.inl ht'.published)
        exact hr.slot_ne hge (hr.window hlt) (by omega) hlt' hne.symm hmod.symm
    simpa [next, hslot] using h.pointer t' ht'
  · by_cases hmod : t' % R.queueSize = t % R.queueSize
    · simpa [next, hmod, Ne.symm hf] using h.pointer t' ht'
    · simpa [next, hmod] using h.pointer t' ht'

theorem WaiterInvariant.publish (he : Enabled R s (.publish t)) :
    WaiterInvariant R (next R s (.publish t)) := by
  obtain ⟨hlt, hlane, hdone⟩ := he
  have hother : ∀ {t'}, t' ≠ t → (next R s (.publish t)).lane t' = s.lane t' :=
    fun hne => update_of_ne hne _ _
  have hnew : (next R s (.publish t)).lane t =
    if (R.calls t).blocking then .waiting else .returned :=
    update_self ..
  -- a blocking call was under way and still is
  have hstill : ∀ t', (R.calls t').blocking = true → (next R s (.publish t)).lane t' ≠ .returned →
      s.lane t' ≠ .returned := by
    intro t' _ hl
    by_cases htt : t' = t
    · subst htt
      simp [hlane]
    · rwa [hother htt] at hl
  have hkeeps : ∀ t', (R.calls t').blocking = true → s.lane t' ≠ .returned →
      (next R s (.publish t)).lane t' ≠ .returned := by
    intro t' hb hl
    by_cases htt : t' = t
    · subst htt
      simp [hnew, hb]
    · rwa [hother htt]
  have hawait : ∀ t', Awaiting (next R s (.publish t)) t' →
      Awaiting s t' ∨ t' = t ∧ (R.calls t).blocking = true := by
    intro t' ht'
    by_cases htt : t' = t
    · subst htt
      right
      simp only [Awaiting, hnew] at ht'
      refine ⟨rfl, ?_⟩
      by_contra hb
      simp [hb] at ht'
    · left
      simpa only [Awaiting, hother htt] using ht'
  refine ⟨?_, ?_, fun t' ht' hb hl => h.word t' ht' hb (hstill t' hb hl), ?_, ?_,
    h.consumed, ?_, ?_⟩
  · intro t' ht'
    rcases hawait t' ht' with ht' | ⟨rfl, hb⟩
    · exact h.blocks t' ht'
    · exact hb
  · intro t' ht'
    rcases hawait t' ht' with ht' | ⟨rfl, hb⟩
    · exact h.pointer t' ht'
    · exact hr.content t' (hr.building_ge hlane) .status (status_stored hb)
        (.inr (hdone _ (status_stored hb)))
  · intro p hp
    obtain ⟨t', ht', hb, hl, heq⟩ := h.raised p hp
    exact ⟨t', ht', hb, hkeeps t' hb hl, heq⟩
  · grind [SharesStatus, WaiterInvariant, next]
  · grind [WaiterInvariant, next]
  · grind [WaiterInvariant, next]

theorem WaiterInvariant.notify (he : Enabled R s (.notify t)) :
    WaiterInvariant R (next R s (.notify t)) := by
  obtain ⟨hlen, hb, hnot⟩ := he
  have hwrite : t < s.writeIndex := Nat.lt_of_lt_of_le hlen hr.consumed_le
  -- the transport got the pointer that the call stored
  have haddr : s.notifyAddress t = (R.calls t).status := by
    have hget : s.consumed[t]? = some s.consumed[t] := List.getElem?_eq_getElem hlen
    have hfield := hr.elements t _ hget .status (status_stored hb)
    rw [State.notifyAddress, hget]
    exact hfield
  have hunder : s.lane t ≠ .returned := by
    intro hl
    simp [(h.returned t hl hb).1] at hnot
  have hmono : ∀ t', s.notified t' = true → (next R s (.notify t)).notified t' = true := by
    intro t' ht'
    by_cases htt : t' = t
    · simp [next, htt]
    · simpa [next, htt] using ht'
  refine ⟨h.blocks, h.pointer, ?_, ?_, h.distinct, ?_, fun t' hl => hmono t' (h.leaving t' hl),
    fun t' hl hb' => ⟨hmono t' (h.returned t' hl hb').1, (h.returned t' hl hb').2⟩⟩
  · intro t' ht' hb' hl'
    by_cases htt : t' = t
    · subst htt
      simp [next, haddr]
    · have hne := h.word_ne htt ht' hwrite hb' hb hl' hunder
      simpa [next, haddr, hne, htt] using h.word t' ht' hb' hl'
  · intro p hp
    by_cases hpt : p = (R.calls t).status
    · exact ⟨t, hwrite, hb, hunder, hpt.symm⟩
    · exact h.raised p (by simpa [next, haddr, hpt] using hp)
  · intro t' ht'
    by_cases htt : t' = t
    · exact htt ▸ hlen
    · exact h.consumed t' (by simpa [next, htt] using ht')

theorem WaiterInvariant.observe (he : Enabled R s (.observe t)) :
    WaiterInvariant R (next R s (.observe t)) := by
  obtain ⟨hlane, hraised⟩ := he
  have hwait : Awaiting s t := .inl hlane
  have hother : ∀ {t'}, t' ≠ t → (next R s (.observe t)).lane t' = s.lane t' :=
    fun hne => update_of_ne hne _ _
  have hnew : (next R s (.observe t)).lane t = .leaving := update_self ..
  have hawait : ∀ t', Awaiting (next R s (.observe t)) t' → Awaiting s t' := by
    intro t' ht'
    by_cases htt : t' = t
    · exact htt ▸ hwait
    · simpa only [Awaiting, hother htt] using ht'
  have hunder : ∀ t', (next R s (.observe t)).lane t' ≠ .returned ↔ s.lane t' ≠ .returned := by
    intro t'
    by_cases htt : t' = t
    · simp [htt, hnew, hlane]
    · rw [hother htt]
  -- the word that was seen is its own, so the host has raised it for this call
  have hnotified : s.notified t = true := by
    grind [RingInvariant, WaiterInvariant]
  refine ⟨fun t' ht' => h.blocks t' (hawait t' ht'), fun t' ht' => h.pointer t' (hawait t' ht'),
    fun t' ht' hb hl => h.word t' ht' hb ((hunder t').mp hl), ?_, ?_, h.consumed, ?_, ?_⟩
  · intro p hp
    obtain ⟨t', ht', hb, hl, heq⟩ := h.raised p hp
    exact ⟨t', ht', hb, (hunder t').mpr hl, heq⟩
  · grind [SharesStatus, WaiterInvariant, next]
  · intro t' hl
    by_cases htt : t' = t
    · exact htt ▸ hnotified
    · exact h.leaving t' (by rwa [hother htt] at hl)
  · grind [WaiterInvariant, next]

theorem WaiterInvariant.finish (he : Enabled R s (.finish t)) :
    WaiterInvariant R (next R s (.finish t)) := by
  have hlane : s.lane t = .leaving := he
  have hwait : Awaiting s t := .inr hlane
  have hb := h.blocks t hwait
  have hptr := h.pointer t hwait
  have hwrite := hr.started_lt (f := .type) (.inl hwait.published)
  have hother : ∀ {t'}, t' ≠ t → (next R s (.finish t)).lane t' = s.lane t' :=
    fun hne => update_of_ne hne _ _
  have hnew : (next R s (.finish t)).lane t = .returned := update_self ..
  have hne_of : ∀ {t'}, (next R s (.finish t)).lane t' ≠ .returned → t' ≠ t := by
    rintro t' hl rfl
    exact hl hnew
  have hawait : ∀ t', Awaiting (next R s (.finish t)) t' → Awaiting s t' := by
    intro t' ht'
    have hne : t' ≠ t := by
      rintro rfl
      simp [Awaiting, hnew] at ht'
    simpa only [Awaiting, hother hne] using ht'
  refine ⟨fun t' ht' => h.blocks t' (hawait t' ht'), fun t' ht' => h.pointer t' (hawait t' ht'), ?_,
    ?_, ?_, h.consumed, ?_, ?_⟩
  · intro t' ht' hb' hl'
    have hne := hne_of hl'
    rw [hother hne] at hl'
    have hword := h.word_ne hne ht' hwrite hb' hb hl' (by simp [hlane])
    simpa [next, hptr, hword] using h.word t' ht' hb' hl'
  · intro p hp
    have hpt : p ≠ (R.calls t).status := by
      rintro rfl
      simp [next, hptr] at hp
    obtain ⟨t', ht', hb', hl', heq⟩ := h.raised p (by simpa [next, hptr, hpt] using hp)
    have hne : t' ≠ t := by
      rintro rfl
      exact hpt heq.symm
    exact ⟨t', ht', hb', by rwa [hother hne], heq⟩
  · rintro t₂ ht₂ t₁ hlt ⟨hb₁, hb₂, hl, heq⟩
    exact h.distinct t₂ ht₂ t₁ hlt ⟨hb₁, hb₂, by rwa [hother (hne_of hl)] at hl, heq⟩
  · intro t' hl
    have hne : t' ≠ t := by
      rintro rfl
      simp [hnew] at hl
    exact h.leaving t' (by rwa [hother hne] at hl)
  · intro t' hl hb'
    by_cases htt : t' = t
    · subst htt
      exact ⟨h.leaving t' hlane, by simp [next, hptr]⟩
    · have hret := h.returned t' (by rwa [hother htt] at hl) hb'
      exact ⟨hret.1, by simpa [next, htt] using hret.2⟩

theorem step_preserves_waiters {e : Event} (he : Enabled R s e) (hok : SlotUnawaited R s e) :
    WaiterInvariant R (next R s e) := by
  cases e with
  | acquire | refresh | release | look | copy | clear | advance =>
    exact { h with }
  | insert =>
    refine { h with consumed := ?_ }
    intro t ht
    have hlt := h.consumed t ht
    simp only [next, List.length_append, List.length_singleton]
    omega
  | reserve lanes => exact h.reserve hr he
  | store t f => exact h.store hr he hok
  | publish t => exact h.publish hr he
  | notify t => exact h.notify hr he
  | observe t => exact h.observe hr he
  | finish t => exact h.finish hr he

end

end Waiters

structure BlockingKept (R : Ring) (s : State) : Prop where
  notified : ∀ t, (R.calls t).blocking = true → s.lane t = .returned → s.notified t = true
  own_word : ∀ t, (R.calls t).blocking = true → s.lane t = .returned →
    s.cleared t = some (R.calls t).status

instance (R : Ring) (s : State) (e : Event) : Decidable (SlotUnawaited R s e) := by
  unfold SlotUnawaited
  split <;> infer_instance

def putsInTurn : List Event :=
  [Event.acquire 1, .reserve 1, .release] ++ fill twoPuts 0 ++ take ++
    [Event.notify 0, .observe 0, .finish 0] ++
    [Event.acquire 1, .refresh 1, .reserve 1, .release] ++ fill twoPuts 1 ++ take ++
    [Event.notify 1, .observe 1, .finish 1]

end RoBlockingCalls
