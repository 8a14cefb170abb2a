import Rocshmem.RangeMaps

/-! The registry of user buffers in the base class of the backends, `user_buffer_regions`,
over whole histories of `buffer_register` and `buffer_unregister`. -/
namespace BufferRegistry

open RangeMaps

inductive Status where
  | success
  | error
  deriving DecidableEq, Repr

theorem overflow_check_iff (addr length : UInt64) :
    addr > 0xFFFFFFFFFFFFFFFF - length ↔ 2 ^ 64 ≤ addr.toNat + length.toNat := by
  have hlen := length.toNat_lt
  have hle : length ≤ 0xFFFFFFFFFFFFFFFF := by
    rw [UInt64.le_iff_toNat_le]
    change _ ≤ 2 ^ 64 - 1
    omega
  rw [gt_iff_lt, UInt64.lt_iff_toNat_lt, UInt64.toNat_sub_of_le _ _ hle]
  change 2 ^ 64 - 1 - length.toNat < addr.toNat ↔ _
  omega

theorem fits_of_check {addr length : UInt64} (h : ¬ addr > 0xFFFFFFFFFFFFFFFF - length) :
    addr.toNat + length.toNat < 2 ^ 64 :=
  Nat.lt_of_not_le fun hle => h ((overflow_check_iff addr length).mpr hle)

theorem length_pos {length : UInt64} (h : length ≠ 0) : 0 < length.toNat :=
  Nat.pos_of_ne_zero fun h0 => h (UInt64.toNat_inj.mp h0)

def bufferRegister (regions : RangeMap) (addr length : UInt64) : Status × RangeMap :=
  if addr = 0 then (.error, regions)
  else if hlen : length = 0 then (.error, regions)
  else if hfit : addr > 0xFFFFFFFFFFFFFFFF - length then (.error, regions)
  else if hno : regions.overlaps addr length then (.error, regions)
  else
    (.success, regions.add addr length (length_pos hlen) (fits_of_check hfit)
      (Bool.eq_false_iff.mpr hno))

def bufferUnregister (regions : RangeMap) (addr : UInt64) : Status × RangeMap :=
  if addr = 0 then (.error, regions)
  else match regions.containing addr with
  | some e => (.success, regions.remove e.1)
  | none => (.error, regions)

inductive Call where
  | register (addr length : UInt64)
  | unregister (addr : UInt64)
  deriving DecidableEq, Repr

def step (regions : RangeMap) : Call → Status × RangeMap
  | .register addr length => bufferRegister regions addr length
  | .unregister addr => bufferUnregister regions addr

def after : List Call → RangeMap
  | [] => .empty
  | call :: earlier => (step (after earlier) call).2

structure Registrable (regions : RangeMap) (addr length : UInt64) : Prop where
  addr_ne : addr ≠ 0
  length_ne : length ≠ 0
  no_overflow : addr.toNat + length.toNat < 2 ^ 64
  apart : ∀ e ∈ regions, Apart e (addr, length)

section Register

variable {regions : RangeMap} {addr length : UInt64}

theorem register_accepts (h : Registrable regions addr length) :
    (bufferRegister regions addr length).1 = .success ∧
    ∀ e, e ∈ (bufferRegister regions addr length).2 ↔ e = (addr, length) ∨ e ∈ regions := by
  obtain ⟨haddr, hlen, hfit, hapart⟩ := h
  have hno := (regions.no_overlap_iff (length_pos hlen) hfit).mpr hapart
  have hcheck : ¬ addr > 0xFFFFFFFFFFFFFFFF - length := by
    rw [overflow_check_iff]
    omega
  rw [bufferRegister, if_neg haddr, dif_neg hlen, dif_neg hcheck, dif_neg (by simp [hno])]
  exact ⟨rfl, fun e => RangeMap.mem_add (length_pos hlen) hfit hno⟩

theorem register_refuses (h : ¬ Registrable regions addr length) :
    bufferRegister regions addr length = (.error, regions) := by
  unfold bufferRegister
  split_ifs with haddr hlen hfit hno
  · rfl
  · rfl
  · rfl
  · rfl
  · have hfit' := fits_of_check hfit
    have hapart := (regions.no_overlap_iff (length_pos hlen) hfit').mp (Bool.eq_false_iff.mpr hno)
    exact absurd ⟨haddr, hlen, hfit', hapart⟩ h

theorem register_success_iff :
    (bufferRegister regions addr length).1 = .success ↔ Registrable regions addr length := by
  refine ⟨fun h => ?_, fun h => (register_accepts h).1⟩
  by_contra hnot
  rw [register_refuses hnot] at h
  cases h

end Register

section Unregister

variable {regions : RangeMap} {addr : UInt64}

theorem unregister_accepts (hne : ∀ e ∈ regions, e.1 ≠ 0) {e : UInt64 × UInt64}
    (he : e ∈ regions) (hcov : Covers e addr.toNat) :
    bufferUnregister regions addr = (.success, regions.remove e.1) := by
  have haddr : addr ≠ 0 := by
    rintro rfl
    exact hne e he (UInt64.toNat_inj.mp (Nat.le_zero.mp hcov.1))
  rw [bufferUnregister, if_neg haddr, RangeMap.containing_some_iff.mpr ⟨he, hcov⟩]

theorem unregister_refuses (h : ∀ e ∈ regions, ¬ Covers e addr.toNat) :
    bufferUnregister regions addr = (.error, regions) := by
  unfold bufferUnregister
  split_ifs
  · rfl
  · rw [RangeMap.containing_none_iff.mpr h]

theorem unregister_success_iff (hne : ∀ e ∈ regions, e.1 ≠ 0) :
    (bufferUnregister regions addr).1 = .success ↔ ∃ e ∈ regions, Covers e addr.toNat := by
  constructor
  · intro h
    by_contra hnot
    push Not at hnot
    rw [unregister_refuses hnot] at h
    cases h
  · rintro ⟨e, he, hcov⟩
    rw [unregister_accepts hne he hcov]

end Unregister

theorem step_starts_ne {regions : RangeMap} (call : Call) (h : ∀ e ∈ regions, e.1 ≠ 0) :
    ∀ e ∈ (step regions call).2, e.1 ≠ 0 := by
  cases call with
  | register addr length =>
    intro e he
    change e ∈ (bufferRegister regions addr length).2 at he
    by_cases hreg : Registrable regions addr length
    · rcases ((register_accepts hreg).2 e).mp he with rfl | he'
      · exact hreg.addr_ne
      · exact h e he'
    · rw [register_refuses hreg] at he
      exact h e he
  | unregister addr =>
    intro e he
    change e ∈ (bufferUnregister regions addr).2 at he
    by_cases hcov : ∃ f ∈ regions, Covers f addr.toNat
    · obtain ⟨f, hf, hcov⟩ := hcov
      rw [unregister_accepts h hf hcov] at he
      exact h e ((RangeMap.mem_remove hf).mp he).1
    · push Not at hcov
      rw [unregister_refuses hcov] at he
      exact h e he

theorem starts_ne (calls : List Call) : ∀ e ∈ after calls, e.1 ≠ 0 := by
  induction calls with
  | nil => intro e he; cases he
  | cons call earlier ih => exact step_starts_ne call ih

structure Sound (regions : RangeMap) : Prop where
  disjoint : ∀ e ∈ regions, ∀ f ∈ regions, e ≠ f → Apart e f
  register_iff : ∀ addr length, (bufferRegister regions addr length).1 = .success ↔
    Registrable regions addr length
  register_adds : ∀ addr length, (bufferRegister regions addr length).1 = .success →
    ∀ e, e ∈ (bufferRegister regions addr length).2 ↔ e = (addr, length) ∨ e ∈ regions
  unregister_iff : ∀ addr, (bufferUnregister regions addr).1 = .success ↔
    ∃ e ∈ regions, Covers e addr.toNat
  unregister_removes : ∀ addr, ∀ e ∈ regions, Covers e addr.toNat →
    ∀ f, f ∈ (bufferUnregister regions addr).2 ↔ f ∈ regions ∧ f ≠ e
  failure : ∀ call, (step regions call).1 = .error → (step regions call).2 = regions

/-- The registry keeps its promises after every history of calls. -/
theorem registry_sound (calls : List Call) : Sound (after calls) := by
  have hne := starts_ne calls
  refine ⟨fun e he f hf => (after calls).pairwise_apart he hf, fun addr length =>
    register_success_iff, fun addr length h => (register_accepts (register_success_iff.mp h)).2,
    fun addr => unregister_success_iff hne, fun addr e he hcov f => ?_, fun call herr => ?_⟩
  · rw [unregister_accepts hne he hcov]
    exact RangeMap.mem_remove he
  · cases call with
    | register addr length =>
      have hnot : ¬ Registrable (after calls) addr length := by
        intro hreg
        rw [step, (register_accepts hreg).1] at herr
        cases herr
      rw [step, register_refuses hnot]
    | unregister addr =>
      have hnot : ∀ e ∈ after calls, ¬ Covers e addr.toNat := by
        intro e he hcov
        rw [step, unregister_accepts hne he hcov] at herr
        cases herr
      rw [step, unregister_refuses hnot]

end BufferRegistry
