import Rocshmem.MatchedPrograms

/-! `internal_ring_allreduce_das` of the GDA conduit, any number of calls one after the
other without a barrier. In every step of the ring a PE puts a chunk to its right neighbour,
puts the sequence value of the segment behind it on the same QP, and waits for the value
from its left neighbour. In the first `PE_size - 1` steps of a segment the chunk goes to
`pWrk` and is reduced into `dst`, in the others it goes to `dst`. -/
namespace GdaRingAllreduce

open Finset MatchedPrograms
open Nat (cast_sub mod_eq_of_lt mod_lt mul_le_mul_right sub_le)

variable {N : ℕ}

structure Call (N : ℕ) where
  dst : ℕ
  src : ZMod N → ℕ → ℤ
  nelems : ℕ
  nSeg : ℕ
  chunkSize : ℕ
  seg_pos : 0 < nSeg
  chunk_pos : 0 < chunkSize
  covered : nSeg * (chunkSize * N) ≤ nelems

def Call.segSize (c : Call N) : ℕ := c.chunkSize * N

structure Segment (N : ℕ) where
  call : Call N
  seg : ℕ
  inside : seg < call.nSeg

structure Plan (N : ℕ) where
  total : ℕ
  segment : ℕ → Segment N
  first : (segment 0).seg = 0
  next : ∀ g, g + 1 < total → (segment (g + 1)).seg = 0 ∨
    ((segment (g + 1)).call = (segment g).call ∧ (segment (g + 1)).seg = (segment g).seg + 1)

def iters (N : ℕ) : ℕ := 2 * N - 2

def segOf (N s : ℕ) : ℕ := s / iters N

def iter (N s : ℕ) : ℕ := s % iters N

def offSend (p : ZMod N) (t : ℕ) : ℕ := (p.val + 1 + 2 * N - t) % N

def offRecv (p : ZMod N) (t : ℕ) : ℕ := (p.val + 2 * N - t) % N

inductive Event (N : ℕ) where
  | copyIn (p : ZMod N) (g i : ℕ)
  | put (p : ZMod N) (s e : ℕ)
  | flag (p : ZMod N) (s : ℕ)
  | wait (p : ZMod N) (s : ℕ)
  | reduce (p : ZMod N) (s e : ℕ)

inductive Cell (N : ℕ) where
  | pSync (p : ZMod N) (i : ℕ)
  | pWrk (p : ZMod N) (i : ℕ)
  | dst (p : ZMod N) (i : ℕ)
  deriving DecidableEq

def Segment.elem (s : Segment N) (chunk e : ℕ) : ℕ :=
  s.seg * s.call.segSize + (chunk * s.call.chunkSize + e)

def Segment.work (s : Segment N) (chunk e : ℕ) : ℕ := chunk * s.call.chunkSize + e

def Segment.address (s : Segment N) (chunk e : ℕ) : ℕ := s.call.dst + s.elem chunk e

variable (P : Plan N) (op : ℤ → ℤ → ℤ) (base : ℤ)

def Occurs : Event N → Prop
  | .copyIn _ g i => g < P.total ∧ (P.segment g).seg = 0 ∧ i < (P.segment g).call.nelems
  | .put _ s e => segOf N s < P.total ∧ e < (P.segment (segOf N s)).call.chunkSize
  | .flag _ s | .wait _ s => segOf N s < P.total
  | .reduce _ s e => segOf N s < P.total ∧ iter N s < N - 1 ∧
      e < (P.segment (segOf N s)).call.chunkSize

def pe : Event N → ZMod N
  | .copyIn p _ _ | .put p _ _ | .flag p _ | .wait p _ | .reduce p _ _ => p

def point : Event N → ℕ
  | .copyIn _ g _ => 5 * (g * iters N)
  | .put _ s _ => 5 * s + 1
  | .flag _ s => 5 * s + 2
  | .wait _ s => 5 * s + 3
  | .reduce _ s _ => 5 * s + 4

def mode : Event N → Mode (ZMod N)
  | .put p _ _ => .posted (p + 1)
  | .flag p _ => .flushed (p + 1)
  | _ => .blocking

def seqValue (g : ℕ) : ℤ := base + g + 1

def guard : Event N → (Cell N → ℤ) → Prop
  | .wait p s, m => m (.pSync p (iter N s)) = seqValue base (segOf N s)
  | _, _ => True

def target (p : ZMod N) (s e : ℕ) : Cell N :=
  if iter N s < N - 1 then .pWrk (p + 1) ((P.segment (segOf N s)).work (offSend p (iter N s)) e)
  else .dst (p + 1) ((P.segment (segOf N s)).address (offSend p (iter N s)) e)

def action : Event N → Effect (Cell N) ℤ
  | .copyIn p g i => .store (.dst p ((P.segment g).call.dst + i)) fun _ => (P.segment g).call.src p i
  | .put p s e => .store (target P p s e) fun m =>
      m (.dst p ((P.segment (segOf N s)).address (offSend p (iter N s)) e))
  | .flag p s => .store (.pSync (p + 1) (iter N s)) fun _ => seqValue base (segOf N s)
  | .wait _ _ => .skip
  | .reduce p s e => .store (.dst p ((P.segment (segOf N s)).address (offRecv p (iter N s)) e))
      fun m => op (m (.dst p ((P.segment (segOf N s)).address (offRecv p (iter N s)) e)))
        (m (.pWrk p ((P.segment (segOf N s)).work (offRecv p (iter N s)) e)))

def internalRingAllreduce : Program (Event N) (ZMod N) ℕ (ZMod N) (Cell N) ℤ where
  event := Occurs P
  pe := pe
  point := point
  mode := mode
  guard := guard base
  action := action P op base

abbrev sys : System (Event N) (Cell N) ℤ := (internalRingAllreduce P op base).system

def prefixReduce (src : ZMod N → ℕ → ℤ) (x : ℕ) (k : ZMod N) : ℕ → ℤ
  | 0 => src (k - 1) x
  | j + 1 => op (src (k + j) x) (prefixReduce src x k j)

def waitsFor : Event N → Event N → Prop
  | .wait p s, e => e = .flag (p - 1) s ∧ segOf N s < P.total
  | _, _ => False

def value : Event N → ℤ
  | .copyIn p g i => (P.segment g).call.src p i
  | .put p s e => prefixReduce op (P.segment (segOf N s)).call.src
      ((P.segment (segOf N s)).elem (offSend p (iter N s)) e) (p + 1 - iter N s)
      (min (iter N s) (N - 1))
  | .flag _ s => seqValue base (segOf N s)
  | .wait _ _ => 0
  | .reduce p s e => prefixReduce op (P.segment (segOf N s)).call.src
      ((P.segment (segOf N s)).elem (offRecv p (iter N s)) e) (p - iter N s) (iter N s + 1)

def certificate : Certificate (Event N) ℤ := ⟨waitsFor P, value P op base⟩

abbrev Plan.seg {N : ℕ} (P : Plan N) (s : ℕ) := P.segment (segOf N s)

abbrev Prior : Event N → Event N → Prop := Before (sys P op base) (certificate P op base)

variable {P op base}

section Arithmetic

variable [NeZero N] {p : ZMod N} {t : ℕ}

theorem off_send_eq (ht : t ≤ 2 * N) : offSend p t = (p + 1 - t : ZMod N).val := by
  have hcast : ((offSend p t : ℕ) : ZMod N) = p + 1 - t := by
    rw [offSend, ZMod.natCast_mod, cast_sub (by omega)]
    push_cast
    simp
  rw [← hcast, ZMod.val_natCast_of_lt]
  exact mod_lt _ (NeZero.pos N)

theorem off_recv_eq (ht : t ≤ 2 * N) : offRecv p t = (p - t : ZMod N).val := by
  have hcast : ((offRecv p t : ℕ) : ZMod N) = p - t := by
    rw [offRecv, ZMod.natCast_mod, cast_sub (by omega)]
    push_cast
    simp
  rw [← hcast, ZMod.val_natCast_of_lt]
  exact mod_lt _ (NeZero.pos N)

end Arithmetic

variable {a : Event N}

theorem waits_forward {e : Event N} (h : waitsFor P e a) : point a < point e := by
  cases e <;> simp only [waitsFor] at h
  obtain ⟨rfl, -⟩ := h
  simp [point]

theorem acyclic : WellFounded (Depends (sys P op base) (certificate P op base)) :=
  (internalRingAllreduce P op base).acyclic fun _ _ => waits_forward

theorem prior_of_point {e : Event N} (ha : Occurs P a) (hpe : pe a = pe e)
    (hpt : point a < point e) (hm : (mode a).Precedes (mode e)) : Prior P op base a e :=
  before_of_pre ⟨ha, hpe, hpt, hm⟩

variable {k : ℕ}

section Order

variable {p : ZMod N} {s s' e : ℕ}

theorem segOf_mono (h : s ≤ s') : segOf N s ≤ segOf N s' := Nat.div_le_div_right h

theorem put_flag (ho : Occurs P (.put p s e)) : Prior P op base (.put p s e) (.flag p s) := by
  refine prior_of_point ho rfl ?_ rfl
  simp [point]

theorem flag_wait (ho : segOf N s < P.total) : Prior P op base (.flag (p - 1) s) (.wait p s) :=
  before_of_waits ⟨rfl, ho⟩

theorem flag_own (ho : segOf N s < P.total) (hpt : 5 * s + 2 < point a) :
    Prior P op base (.flag (pe a) s) a := by
  refine prior_of_point ?_ rfl hpt ?_
  · exact ho
  · cases a <;> trivial

theorem wait_own (ho : segOf N s < P.total) (hpt : 5 * s + 3 < point a) :
    Prior P op base (.wait (pe a) s) a := by
  refine prior_of_point ?_ rfl hpt ?_
  · exact ho
  · cases a <;> trivial

theorem wait_mono (ho : segOf N s < P.total) (h : s ≤ s') :
    Prior P op base (.wait p s) (.wait p s') := by
  rcases h.lt_or_eq with h | rfl
  · refine wait_own ho ?_
    simp only [point]
    omega
  · exact Before.refl _

theorem flag_lag (ho : segOf N s < P.total) (hk : k ≤ s) :
    Prior P op base (.flag (p - k) (s - k)) (.flag p s) := by
  induction k with
  | zero =>
    rw [Nat.cast_zero, sub_zero]
    exact Before.refl _
  | succ k ih =>
    have hle : k ≤ s := by omega
    apply Before.trans _ (ih hle)
    have hseg : segOf N (s - (k + 1)) < P.total := (segOf_mono (by omega)).trans_lt ho
    have hwait : Prior P op base (.flag (p - k - 1) (s - (k + 1))) (.wait (p - k) (s - (k + 1))) :=
      flag_wait hseg
    have hown : Prior P op base (.wait (p - k) (s - (k + 1))) (.flag (p - k) (s - k)) := by
      refine wait_own hseg ?_
      simp only [point]
      omega
    rw [Nat.cast_succ, ← sub_sub]
    exact hwait.trans hown

theorem flag_left_put (hN : 2 ≤ N) (ho : Occurs P (.put (p - 1) s' e)) (hs : s + (N - 1) ≤ s') :
    Prior P op base (.flag p s) (.put (p - 1) s' e) := by
  have hseg : segOf N (s' - 1) < P.total := (segOf_mono (by omega)).trans_lt ho.1
  have hlag : Prior P op base (.flag (p - 1 - 1 - (N - 2 : ℕ)) (s' - 1 - (N - 2)))
      (.flag (p - 1 - 1) (s' - 1)) := flag_lag hseg (by omega)
  have hpe : p - 1 - 1 - ((N - 2 : ℕ) : ZMod N) = p := by
    rw [cast_sub hN]
    simp only [Nat.cast_ofNat, CharP.cast_eq_zero, zero_sub]
    ring
  rw [hpe] at hlag
  have hown : Prior P op base (.wait (p - 1) (s' - 1)) (.put (p - 1) s' e) := by
    refine wait_own hseg ?_
    simp only [point]
    omega
  apply Before.trans _ (hlag.trans ((flag_wait hseg).trans hown))
  -- the flag itself, or one that comes after it on the same PE
  rcases (show s ≤ s' - 1 - (N - 2) by omega).lt_or_eq with h | h
  · refine flag_own ?_ ?_
    · exact (segOf_mono (by omega)).trans_lt ho.1
    · simp only [point]
      omega
  · rw [h]
    exact Before.refl _

theorem own_left_put (hN : 2 ≤ N) (ho : Occurs P (.put (p - 1) s' e))
    (ha : Occurs P a) (hpe : pe a = p) (hm : (mode a).Precedes (.flushed (p + 1)))
    (hpt : point a + 5 * (N - 1) < 5 * s' + 2) : Prior P op base a (.put (p - 1) s' e) := by
  have hflag : Prior P op base (.flag p (s' - (N - 1))) (.put (p - 1) s' e) :=
    flag_left_put hN ho (by omega)
  apply Before.trans _ hflag
  refine prior_of_point ha hpe ?_ hm
  change point a < 5 * (s' - (N - 1)) + 2
  omega

end Order

section Layout

theorem split_unique {c a a' b b' : ℕ} (hb : b < c) (hb' : b' < c)
    (h : a * c + b = a' * c + b') : a = a' ∧ b = b' := by
  have hdiv : ∀ {x y}, y < c → (x * c + y) / c = x := by
    intro x y hy
    rw [mul_comm, Nat.mul_add_div (by omega), Nat.div_eq_of_lt hy, add_zero]
  grind

theorem work_unique {c : Segment N} {k' e e' : ℕ} (he : e < c.call.chunkSize)
    (he' : e' < c.call.chunkSize) (h : c.work k e = c.work k' e') : k = k' ∧ e = e' :=
  split_unique he he' h

theorem work_lt {c : Segment N} {e : ℕ} (hk : k < N) (he : e < c.call.chunkSize) :
    c.work k e < c.call.segSize := by
  have hmul : (k + 1) * c.call.chunkSize ≤ N * c.call.chunkSize := mul_le_mul_right _ hk
  grind [Call.segSize, Segment.work]

theorem elem_lt {c : Segment N} {e : ℕ} (hk : k < N) (he : e < c.call.chunkSize) :
    c.elem k e < c.call.nelems := by
  have hwork := work_lt hk he
  have hmul : (c.seg + 1) * c.call.segSize ≤ c.call.nSeg * c.call.segSize :=
    mul_le_mul_right _ c.inside
  have hcov := c.call.covered
  rw [Nat.succ_mul] at hmul
  simp only [Segment.elem, Segment.work, Call.segSize] at hwork hmul ⊢
  omega

theorem Plan.start_spec (P : Plan N) {g : ℕ} (hg : g < P.total) : (P.segment g).seg ≤ g ∧
    ∀ j ≤ (P.segment g).seg, (P.segment (g - j)).call = (P.segment g).call ∧
      (P.segment (g - j)).seg = (P.segment g).seg - j := by
  induction g with
  | zero =>
    rw [P.first]
    refine ⟨le_refl 0, fun j hj => ?_⟩
    obtain rfl := Nat.le_zero.mp hj
    exact ⟨rfl, P.first⟩
  | succ g ih =>
    obtain ⟨hle, hcall⟩ := ih (by omega)
    rcases P.next g hg with h | ⟨hc, hs⟩
    · grind
    · refine ⟨by omega, fun j hj => ?_⟩
      cases j with
      | zero => exact ⟨rfl, rfl⟩
      | succ j =>
        rw [Nat.succ_sub_succ, hc, hs, Nat.succ_sub_succ]
        exact hcall j (by omega)

def Plan.start (P : Plan N) (g : ℕ) : ℕ := g - (P.segment g).seg

variable {g g' : ℕ}

theorem start_segment (hg : g < P.total) :
    (P.segment (P.start g)).call = (P.segment g).call ∧ (P.segment (P.start g)).seg = 0 := by
  grind [Plan.start, Plan.start_spec]

theorem same_call (hg : g < P.total) (hstart : P.start g ≤ g') (hle : g' ≤ g) :
    (P.segment g').call = (P.segment g).call ∧
      (P.segment g').seg + (g - g') = (P.segment g).seg := by
  have hspec := P.start_spec hg
  rw [Plan.start] at hstart
  obtain ⟨hcall, hseg⟩ := hspec.2 (g - g') (by omega)
  rw [Nat.sub_sub_self hle] at hcall hseg
  exact ⟨hcall, by omega⟩

theorem start_le_of_first (hg : g < P.total) (hle : g' ≤ g) (hfirst : (P.segment g').seg = 0) :
    g' ≤ P.start g := by
  grind [Plan.start, same_call]

theorem address_unique (hg : g < P.total) (hstart : P.start g ≤ g') (hle : g' ≤ g)
    {k' e e' : ℕ} (hk : k < N) (hk' : k' < N) (he : e < (P.segment g).call.chunkSize)
    (he' : e' < (P.segment g').call.chunkSize)
    (h : (P.segment g').address k' e' = (P.segment g).address k e) : g' = g ∧ k' = k ∧ e' = e := by
  obtain ⟨hcall, hseg⟩ := same_call hg hstart hle
  have hlt := work_lt hk he
  have hlt' := work_lt hk' he'
  grind [Segment.address, Segment.work, Segment.elem, split_unique]

end Layout

section Steps

variable {p : ZMod N} {s s' t t' : ℕ}

theorem iters_pos (hN : 2 ≤ N) : 0 < iters N := by
  rw [iters]
  omega

theorem iter_lt (hN : 2 ≤ N) (s : ℕ) : iter N s < 2 * N - 2 := mod_lt _ (iters_pos hN)

theorem step_eq (s : ℕ) : segOf N s * iters N + iter N s = s := Nat.div_add_mod' s _

theorem same_segment (h : segOf N s = segOf N s') : s + iter N s' = s' + iter N s := by
  have hst := step_eq (N := N) s
  have hst' := step_eq (N := N) s'
  rw [h] at hst
  omega

theorem later_segment (h : segOf N s < segOf N s') :
    s + iters N + iter N s' ≤ s' + iter N s := by
  have hst := step_eq (N := N) s
  have hst' := step_eq (N := N) s'
  have hmul : (segOf N s + 1) * iters N ≤ segOf N s' * iters N := mul_le_mul_right _ h
  rw [Nat.succ_mul] at hmul
  omega

theorem segOf_step (hN : 2 ≤ N) {g : ℕ} (ht : t < iters N) : segOf N (g * iters N + t) = g := by
  rw [segOf, mul_comm, Nat.mul_add_div (iters_pos hN), Nat.div_eq_of_lt ht, add_zero]

theorem iter_step {g : ℕ} (ht : t < iters N) : iter N (g * iters N + t) = t := by
  rw [iter, mul_comm, Nat.mul_add_mod, mod_eq_of_lt ht]

theorem start_mul_le (P : Plan N) (s : ℕ) : P.start (segOf N s) * iters N ≤ s := by
  have hst := step_eq (N := N) s
  have hmul : P.start (segOf N s) * iters N ≤ segOf N s * iters N :=
    mul_le_mul_right _ (sub_le _ _)
  omega

theorem prev_step (hN : 2 ≤ N) (hiter : 0 < iter N s) :
    segOf N (s - 1) = segOf N s ∧ iter N (s - 1) = iter N s - 1 := by
  have hst := step_eq (N := N) s
  have hlt : iter N s - 1 < iters N := (sub_le _ _).trans_lt (mod_lt _ (iters_pos hN))
  have heq : s - 1 = segOf N s * iters N + (iter N s - 1) := by omega
  constructor
  · conv_lhs => rw [heq]
    exact segOf_step hN hlt
  · conv_lhs => rw [heq]
    exact iter_step hlt

theorem shift_of_cast_eq (hlt : t < t') (hbound : t' < t + 2 * N)
    (h : (t : ZMod N) = t') : t' = t + N := by
  have hdvd := (Nat.modEq_iff_dvd' hlt.le).mp ((ZMod.natCast_eq_natCast_iff t t' N).mp h)
  have heq := Nat.eq_of_dvd_of_lt_two_mul (by omega) hdvd (by omega)
  omega

variable [NeZero N]

theorem off_send_lt (p : ZMod N) (t : ℕ) : offSend p t < N := mod_lt _ (NeZero.pos N)

theorem off_recv_lt (p : ZMod N) (t : ℕ) : offRecv p t < N := mod_lt _ (NeZero.pos N)

theorem off_send_left (ht : t ≤ 2 * N) : offSend (p - 1) t = offRecv p t := by
  rw [off_send_eq ht, off_recv_eq ht, sub_add_cancel]

theorem recv_recv (ht : t ≤ 2 * N) (hlt : t < t') (ht' : t' ≤ 2 * N) (hbound : t' < t + 2 * N)
    (h : offRecv p t = offRecv p t') : t' = t + N := by
  rw [off_recv_eq ht, off_recv_eq ht'] at h
  have hcast := ZMod.val_injective N h
  exact shift_of_cast_eq hlt hbound (sub_right_injective hcast)

theorem send_recv (ht : t ≤ 2 * N) (hlt : t < t' + 1) (ht' : t' ≤ 2 * N)
    (hbound : t' + 1 < t + 2 * N) (h : offSend p t = offRecv p t') : t' + 1 = t + N := by
  rw [off_send_eq ht, off_recv_eq ht'] at h
  have hcast := ZMod.val_injective N h
  apply shift_of_cast_eq hlt hbound
  push_cast
  linear_combination -hcast

end Steps

def arrival (p : ZMod N) (s e : ℕ) : Event N :=
  if iter N s < N - 1 then .reduce p s e else .put (p - 1) s e

section Writers

variable {c : Cell N} {p : ZMod N} {i : ℕ} {w : Event N}

theorem not_adds (c : Cell N) (w : Event N) : ¬ (sys P op base).AddsTo c w := by
  intro h
  obtain ⟨v, h⟩ := h
  change action P op base w = .add c v at h
  cases w <;> simp [action] at h

theorem writes_stores (h : (sys P op base).Writes c w) : (sys P op base).StoresTo c w :=
  h.resolve_right (not_adds c w)

theorem sync_writers (h : (sys P op base).Writes (.pSync p i) w) :
    ∃ s, w = .flag (p - 1) s ∧ i = iter N s := by
  obtain ⟨f, h⟩ := writes_stores h
  change action P op base w = .store (.pSync p i) f at h
  cases w with
  | flag q s =>
    simp only [action, Effect.store.injEq, Cell.pSync.injEq] at h
    obtain ⟨⟨rfl, rfl⟩, -⟩ := h
    exact ⟨s, by rw [add_sub_cancel_right], rfl⟩
  | put q s e =>
    simp only [action, Effect.store.injEq, target] at h
    split at h <;> cases h.1
  | copyIn | wait | reduce => simp [action] at h

variable [NeZero N]

theorem dst_writers (hN : 2 ≤ N) (ho : Occurs P w) (h : (sys P op base).Writes (.dst p i) w) :
    (∃ g j, w = .copyIn p g j ∧ i = (P.segment g).call.dst + j) ∨
    ∃ s e, w = arrival p s e ∧ segOf N s < P.total ∧ e < (P.seg s).call.chunkSize ∧
      i = (P.seg s).address (offRecv p (iter N s)) e := by
  obtain ⟨f, h⟩ := writes_stores h
  change action P op base w = .store (.dst p i) f at h
  cases w with
  | copyIn q g j =>
    simp only [action, Effect.store.injEq, Cell.dst.injEq] at h
    obtain ⟨⟨rfl, rfl⟩, -⟩ := h
    exact .inl ⟨g, j, rfl, rfl⟩
  | put q s e =>
    simp only [action, Effect.store.injEq, target] at h
    split at h
    · cases h.1
    · next hiter =>
      simp only [Cell.dst.injEq] at h
      obtain ⟨⟨rfl, rfl⟩, -⟩ := h
      refine .inr ⟨s, e, ?_, ho.1, ho.2, ?_⟩
      · rw [arrival, if_neg hiter, add_sub_cancel_right]
      · rw [← off_send_left (by have := iter_lt hN s; omega), add_sub_cancel_right]
  | flag | wait => simp [action] at h
  | reduce q s e =>
    simp only [action, Effect.store.injEq, Cell.dst.injEq] at h
    obtain ⟨⟨rfl, rfl⟩, -⟩ := h
    refine .inr ⟨s, e, ?_, ho.1, ho.2.2, rfl⟩
    rw [arrival, if_pos ho.2.1]

theorem work_writers (hN : 2 ≤ N) (ho : Occurs P w) (h : (sys P op base).Writes (.pWrk p i) w) :
    ∃ s e, w = .put (p - 1) s e ∧ iter N s < N - 1 ∧
      i = (P.seg s).work (offRecv p (iter N s)) e := by
  obtain ⟨f, h⟩ := writes_stores h
  change action P op base w = .store (.pWrk p i) f at h
  cases w with
  | put q s e =>
    simp only [action, Effect.store.injEq, target] at h
    grind [off_send_left]
  | copyIn | flag | wait | reduce => simp [action] at h

end Writers

section Ordered

variable {p : ZMod N} {s s' e e' : ℕ}

theorem arrival_point (p : ZMod N) (s e : ℕ) :
    5 * s + 1 ≤ point (arrival p s e) ∧ point (arrival p s e) ≤ 5 * s + 4 := by
  unfold arrival
  split <;> simp only [point] <;> omega

theorem arrival_own (hs : segOf N s < P.total)
    (he : e < (P.seg s).call.chunkSize) (hpt : 5 * s + 4 < point a) :
    Prior P op base (arrival (pe a) s e) a := by
  unfold arrival
  split
  · next hiter =>
    refine prior_of_point ?_ rfl hpt ?_
    · exact ⟨hs, hiter, he⟩
    · cases a <;> trivial
  · have hflag : Prior P op base (.put (pe a - 1) s e) (.flag (pe a - 1) s) := put_flag ⟨hs, he⟩
    exact hflag.trans ((flag_wait hs).trans (wait_own hs (by omega)))

variable [NeZero N]

/-- A chunk comes round again after all others. -/
theorem apart_of_chunk (hN : 2 ≤ N) (hlt : s < s') (hiter : iter N s < N - 1)
    (hchunk : segOf N s = segOf N s' → offRecv p (iter N s) = offRecv p (iter N s')) :
    s + N ≤ s' := by
  have hit := iter_lt hN s'
  rcases (segOf_mono (N := N) hlt.le).lt_or_eq with hseg | hseg
  · have hgap := later_segment hseg
    rw [iters] at hgap
    omega
  · have hgap := same_segment hseg
    have hshift := recv_recv (by omega) (by omega) (by omega) (by omega) (hchunk hseg)
    omega

theorem steps_apart (hN : 2 ≤ N) (hs : segOf N s' < P.total) (hlt : s < s')
    (he : e < (P.seg s).call.chunkSize)
    (he' : e' < (P.seg s').call.chunkSize) (hiter : iter N s < N - 1)
    (h : (P.seg s).address (offRecv p (iter N s)) e =
      (P.seg s').address (offRecv p (iter N s')) e') : s + N ≤ s' := by
  refine apart_of_chunk (p := p) hN hlt hiter fun hseg => ?_
  rw [Plan.seg, hseg] at h he
  exact (address_unique hs (sub_le _ _) (le_refl _) (off_recv_lt _ _) (off_recv_lt _ _) he' he
    h).2.1

section

variable (hN : 2 ≤ N) {i : ℕ} {w w' : Event N} (ho : Occurs P w) (ho' : Occurs P w')
  (hw : (sys P op base).Writes (.dst p i) w) (hw' : (sys P op base).Writes (.dst p i) w')
include hN ho ho' hw hw'

theorem dst_order (hpt : point w < point w') : Prior P op base w w' := by
  rcases dst_writers hN ho hw with ⟨g, j, rfl, -⟩ | ⟨s, e, rfl, hs, he, hi⟩
  · rcases dst_writers hN ho' hw' with ⟨g', j', rfl, -⟩ | ⟨s', e', rfl, hs', he', hi'⟩
    · exact prior_of_point ho rfl hpt trivial
    · by_cases hiter : iter N s' < N - 1
      · rw [arrival, if_pos hiter] at hpt ⊢
        exact prior_of_point ho rfl hpt trivial
      · rw [arrival, if_neg hiter] at hpt ⊢
        apply own_left_put hN ⟨hs', he'⟩ ho rfl trivial
        -- the copy is before the segment of the put
        simp only [point] at hpt ⊢
        have hst := step_eq (N := N) s'
        have hle : g ≤ segOf N s' := (Nat.le_div_iff_mul_le (iters_pos hN)).mpr (by omega)
        have hmul : g * iters N ≤ segOf N s' * iters N := mul_le_mul_right _ hle
        omega
  · have hpt' := arrival_point p s e
    rcases dst_writers hN ho' hw' with ⟨g', j', rfl, -⟩ | ⟨s', e', rfl, hs', he', hi'⟩
    · have hcopy : 5 * s + 4 < point (Event.copyIn p g' j') := by
        change point (arrival p s e) < 5 * (g' * iters N) at hpt
        change 5 * s + 4 < 5 * (g' * iters N)
        omega
      exact arrival_own hs he hcopy
    · have hpt'' := arrival_point p s' e'
      have hlt : s < s' := by
        by_contra hle
        obtain rfl : s = s' := by omega
        simp only [arrival] at hpt
        split at hpt <;> simp only [point] at hpt <;> omega
      by_cases hiter' : iter N s' < N - 1
      · have harr : 5 * s + 4 < point (Event.reduce p s' e') := by
          simp only [point]
          omega
        rw [show arrival p s' e' = .reduce p s' e' from if_pos hiter']
        exact arrival_own hs he harr
      · rw [show arrival p s' e' = .put (p - 1) s' e' from if_neg hiter']
        by_cases hiter : iter N s < N - 1
        · rw [show arrival p s e = .reduce p s e from if_pos hiter]
          have happ := steps_apart hN hs' hlt he he' hiter (hi.symm.trans hi')
          refine own_left_put hN ⟨hs', he'⟩ ?_ rfl trivial ?_
          · exact ⟨hs, hiter, he⟩
          · simp only [point]
            omega
        · rw [show arrival p s e = .put (p - 1) s e from if_neg hiter]
          have hput : Prior P op base (.put (p - 1) s e) (.flag (p - 1) s) := put_flag ⟨hs, he⟩
          apply hput.trans
          refine flag_own hs ?_
          simp only [point]
          omega

theorem dst_point_unique (hpt : point w = point w') : w = w' := by
  rcases dst_writers hN ho hw with ⟨g, j, rfl, hi⟩ | ⟨s, e, rfl, hs, he, hi⟩ <;>
    rcases dst_writers hN ho' hw' with ⟨g', j', rfl, hi'⟩ | ⟨s', e', rfl, hs', he', hi'⟩
  · obtain rfl : g = g' := by
      apply Nat.eq_of_mul_eq_mul_right (iters_pos hN)
      simp only [point] at hpt
      omega
    rw [show j = j' by omega]
  · have hpt' := arrival_point p s' e'
    simp only [arrival] at hpt
    split at hpt <;> simp only [point] at hpt <;> omega
  · have hpt' := arrival_point p s e
    simp only [arrival] at hpt
    split at hpt <;> simp only [point] at hpt <;> omega
  · have hpt' := arrival_point p s e
    have hpt'' := arrival_point p s' e'
    obtain rfl : s = s' := by omega
    have heq := address_unique hs (sub_le _ _) (le_refl _) (off_recv_lt _ _) (off_recv_lt _ _)
      he he' (hi'.symm.trans hi)
    rw [heq.2.2]

end

end Ordered

section Reads

variable [NeZero N] {p : ZMod N} {s s' e e' : ℕ} {w : Event N}

theorem put_before_writer (hN : 2 ≤ N) (hs : segOf N s < P.total)
    (he : e < (P.seg s).call.chunkSize) (ho : Occurs P w)
    (hw : (sys P op base).Writes (.dst p ((P.seg s).address
      (offSend p (iter N s)) e)) w)
    (hpt : 5 * s + 1 ≤ point w) : Prior P op base (.put p s e) w := by
  have hflag : Prior P op base (.put p s e) (.flag p s) := put_flag ⟨hs, he⟩
  apply hflag.trans
  rcases dst_writers hN ho hw with ⟨g, j, rfl, -⟩ | ⟨s', e', rfl, hs', he', hi⟩
  · refine flag_own hs ?_
    simp only [point] at hpt ⊢
    omega
  · have hpt' := arrival_point p s' e'
    by_cases hiter : iter N s' < N - 1
    · rw [arrival, if_pos hiter]
      refine flag_own hs ?_
      simp only [point]
      omega
    · rw [arrival, if_neg hiter]
      apply flag_left_put hN ⟨hs', he'⟩
      have hit := iter_lt hN s
      have hit' := iter_lt hN s'
      have hle : s ≤ s' := by omega
      rcases (segOf_mono (N := N) hle).lt_or_eq with hseg | hseg
      · have hgap := later_segment hseg
        rw [iters] at hgap
        omega
      · have hgap := same_segment hseg
        rw [Plan.seg, hseg] at hi he
        have hchunk := (address_unique hs' (sub_le _ _) (le_refl _) (off_recv_lt _ _)
          (off_send_lt _ _) he' he hi).2.1
        have hshift := send_recv (by omega) (by omega) (by omega) (by omega) hchunk
        omega

theorem work_apart (hN : 2 ≤ N) (hlt : s < s') (hiter : iter N s < N - 1)
    (he : e < (P.seg s).call.chunkSize)
    (he' : e' < (P.seg s').call.chunkSize)
    (h : (P.seg s).work (offRecv p (iter N s)) e =
      (P.seg s').work (offRecv p (iter N s')) e') : s + N ≤ s' := by
  refine apart_of_chunk (p := p) hN hlt hiter fun hseg => ?_
  rw [Plan.seg, hseg] at h he
  exact (work_unique he he' h).1

omit [NeZero N] in
theorem wait_left_flag (hN : 2 ≤ N) (hs : segOf N s' < P.total) (hlt : s < s')
    (hi : iter N s = iter N s') : Prior P op base (.wait p s) (.flag (p - 1) s') := by
  have hseg : segOf N s < segOf N s' := by
    apply lt_of_le_of_ne (segOf_mono hlt.le)
    intro h
    have hgap := same_segment h
    omega
  have hgap := later_segment hseg
  rw [iters] at hgap
  have hput : Prior P op base (.put (p - 1) s' 0) (.flag (p - 1) s') :=
    put_flag ⟨hs, (P.seg s').call.chunk_pos⟩
  refine Before.trans (own_left_put hN ?_ ?_ rfl trivial ?_) hput
  · exact ⟨hs, (P.seg s').call.chunk_pos⟩
  · exact hseg.trans hs
  · simp only [point]
    omega

theorem writer_before_copy (hN : 2 ≤ N) {g : ℕ} (hg : g < P.total) (hk : k < N)
    (he : e < (P.segment g).call.chunkSize) (ho : Occurs P w)
    (hw : (sys P op base).Writes (.dst p ((P.segment g).address k e)) w)
    (hle : point w < 5 * ((g + 1) * iters N))
    (hno : ∀ s' e', w = arrival p s' e' → segOf N s' = g → offRecv p (iter N s') ≠ k) :
    point w ≤ 5 * (P.start g * iters N) := by
  rcases dst_writers hN ho hw with ⟨g', j, rfl, -⟩ | ⟨s', e', rfl, hs', he', hi⟩
  · simp only [point] at hle ⊢
    have hlt : g' < g + 1 := by
      apply Nat.lt_of_mul_lt_mul_right (a := iters N)
      omega
    have hstart := start_le_of_first hg (Nat.le_of_lt_succ hlt) ho.2.1
    have hmul : g' * iters N ≤ P.start g * iters N := mul_le_mul_right _ hstart
    omega
  · have hpt := arrival_point p s' e'
    have hlt : segOf N s' < g + 1 := by
      apply (Nat.div_lt_iff_lt_mul (iters_pos hN)).mpr
      omega
    have hbefore : segOf N s' < P.start g := by
      by_contra hge
      obtain ⟨hseg, hchunk, -⟩ := address_unique hg (not_lt.mp hge) (Nat.le_of_lt_succ hlt) hk
        (off_recv_lt p _) he he' hi.symm
      exact hno s' e' rfl hseg hchunk
    have hmul : s' < P.start g * iters N := (Nat.div_lt_iff_lt_mul (iters_pos hN)).mp hbefore
    omega

end Reads

variable {r : Event N}

section Values

variable [NeZero N] {X : Set (Event N)} {m init : Cell N → ℤ} {p : ZMod N} {s e : ℕ}
  (hN : 2 ≤ N) (hc : Consistent (sys P op base) (certificate P op base) init X m)
include hN

theorem arrival_stores (p : ZMod N) (s e : ℕ) : (sys P op base).StoresTo
    (.dst p ((P.seg s).address (offRecv p (iter N s)) e)) (arrival p s e) := by
  have hit := iter_lt hN s
  by_cases hiter : iter N s < N - 1
  · rw [arrival, if_pos hiter]
    exact ⟨_, rfl⟩
  · rw [arrival, if_neg hiter, ← off_send_left (by omega)]
    refine ⟨fun m => m (.dst (p - 1) ((P.seg s).address
      (offSend (p - 1) (iter N s)) e)), ?_⟩
    change action P op base (.put (p - 1) s e) = _
    rw [action, target, if_neg hiter, sub_add_cancel]

theorem arrival_value (p : ZMod N) (s e : ℕ) : value P op base (arrival p s e) =
    prefixReduce op (P.seg s).call.src
      ((P.seg s).elem (offRecv p (iter N s)) e) (p - iter N s)
      (min (iter N s + 1) (N - 1)) := by
  have hit := iter_lt hN s
  by_cases hiter : iter N s < N - 1
  · rw [arrival, if_pos hiter, value, min_eq_left (by omega)]
  · rw [arrival, if_neg hiter, value, off_send_left (by omega), sub_add_cancel,
      min_eq_right (by omega), min_eq_right (by omega)]

include hc

omit [NeZero N] hN in
theorem arrival_ready (hs : segOf N s < P.total)
    (he : e < (P.seg s).call.chunkSize) (hready : (sys P op base).Ready X a)
    (hwait : .wait (pe a) s ∈ X) (hpt : 5 * s + 4 < point a) : arrival (pe a) s e ∈ X := by
  by_cases hiter : iter N s < N - 1
  · rw [arrival, if_pos hiter]
    apply hready
    refine ⟨⟨hs, hiter, he⟩, rfl, hpt, ?_⟩
    cases a <;> trivial
  · rw [arrival, if_neg hiter]
    have hflag : Prior P op base (.put (pe a - 1) s e) (.flag (pe a - 1) s) := put_flag ⟨hs, he⟩
    exact (hflag.trans (flag_wait hs)) X hc.closed hwait

omit hN hc in
theorem writer_before_arrival (hN : 2 ≤ N) {i : ℕ} {w : Event N} (hpos : 0 < iter N s)
    (ho : Occurs P w) (hw : (sys P op base).Writes (.dst p i) w) (hlt : point w < 5 * s + 1) :
    point w ≤ point (arrival p (s - 1) e) := by
  have hpt := arrival_point p (s - 1) e
  rcases dst_writers hN ho hw with ⟨g, j, rfl, -⟩ | ⟨s', e', rfl, hs', he', hi⟩
  · simp only [point] at hlt ⊢
    have hne : g * iters N ≠ s := by
      rintro rfl
      rw [iter, Nat.mul_mod_left] at hpos
      exact absurd hpos (lt_irrefl 0)
    change 5 * (g * iters N) ≤ point (arrival p (s - 1) e)
    omega
  · have hpt' := arrival_point p s' e'
    rcases (show s' ≤ s - 1 by omega).lt_or_eq with h | rfl
    · omega
    · apply le_of_eq
      unfold arrival
      split <;> rfl

theorem read_dst {i : ℕ} {w : Event N} (hX : r ∉ X) (hw : w ∈ X)
    (hs : (sys P op base).StoresTo (.dst p i) w)
    (hother : ∀ w', Occurs P w' → (sys P op base).Writes (.dst p i) w' →
      point w' ≤ point w ∨ Prior P op base r w') : m (.dst p i) = value P op base w := by
  have ho := hc.events w hw
  apply hc.read_before acyclic hX hw hs
  intro w' ho' hw'
  rcases hother w' ho' hw' with hle | hr
  · left
    rcases hle.lt_or_eq with h | h
    · exact dst_order hN ho' ho hw' (.inl hs) h
    · rw [dst_point_unique hN ho' ho hw' (.inl hs) h]
      exact Before.refl _
  · exact .inr hr

theorem read_copied {g : ℕ} (hX : r ∉ X) (hg : g < P.total) (hk : k < N)
    (he : e < (P.segment g).call.chunkSize)
    (hr : .copyIn p (P.start g) ((P.segment g).elem k e) ∈ X)
    (hother : ∀ w', Occurs P w' → (sys P op base).Writes (.dst p ((P.segment g).address k e)) w' →
      Prior P op base r w' ∨ point w' < 5 * ((g + 1) * iters N) ∧
        ∀ s' e', w' = arrival p s' e' → segOf N s' = g → offRecv p (iter N s') ≠ k) :
    m (.dst p ((P.segment g).address k e)) = (P.segment g).call.src p ((P.segment g).elem k e) := by
  obtain ⟨hcall, -⟩ := start_segment hg
  have hval : value P op base (.copyIn p (P.start g) ((P.segment g).elem k e)) =
      (P.segment g).call.src p ((P.segment g).elem k e) := by
    rw [value, hcall]
  rw [← hval]
  apply read_dst hN hc hX hr
  · refine ⟨fun _ => (P.segment (P.start g)).call.src p ((P.segment g).elem k e), ?_⟩
    change action P op base (.copyIn p (P.start g) ((P.segment g).elem k e)) = _
    rw [action, hcall]
    rfl
  · intro w' ho' hw'
    rcases hother w' ho' hw' with h | ⟨hlt, hno⟩
    · exact .inr h
    · exact .inl (writer_before_copy hN hg hk he ho' hw' hlt hno)

omit [NeZero N] hN hc in
theorem copy_ready (hready : (sys P op base).Ready X a)
    (hs : segOf N s < P.total) (hk : k < N) (he : e < (P.seg s).call.chunkSize)
    (hpt : 5 * s < point a) :
    .copyIn (pe a) (P.start (segOf N s)) ((P.seg s).elem k e) ∈ X := by
  obtain ⟨hcall, hfirst⟩ := start_segment hs
  apply hready
  refine ⟨⟨?_, hfirst, ?_⟩, rfl, ?_, ?_⟩
  · exact (sub_le _ _).trans_lt hs
  · rw [hcall]
    exact elem_lt hk he
  · have hstart := start_mul_le P s
    change 5 * (P.start (segOf N s) * iters N) < point a
    omega
  · cases a <;> trivial

theorem first_put_value (hs : segOf N s < P.total)
    (he : e < (P.seg s).call.chunkSize) (hzero : iter N s = 0)
    (hX : .put p s e ∉ X) (hready : (sys P op base).Ready X (.put p s e)) :
    m (.dst p ((P.seg s).address (offSend p (iter N s)) e)) =
      value P op base (.put p s e) := by
  have hval : value P op base (.put p s e) = (P.seg s).call.src p
      ((P.seg s).elem (offSend p (iter N s)) e) := by
    rw [value, hzero, Nat.zero_min, prefixReduce, Nat.cast_zero, sub_zero, add_sub_cancel_right]
  rw [hval]
  apply read_copied hN hc hX hs (off_send_lt _ _) he
  · exact copy_ready hready hs (off_send_lt _ _) he (by simp [point])
  grind [iters_pos, step_eq, arrival_point, put_before_writer]

omit hc in
theorem arrival_value_sent (hpos : 0 < iter N s) :
    offRecv p (iter N (s - 1)) = offSend p (iter N s) ∧
    value P op base (arrival p (s - 1) e) = value P op base (.put p s e) := by
  obtain ⟨hseg, hiter⟩ := prev_step hN hpos
  have hchunk : offRecv p (iter N (s - 1)) = offSend p (iter N s) := by
    grind [offSend, offRecv]
  refine ⟨hchunk, ?_⟩
  rw [arrival_value hN, value, Plan.seg, hseg, hchunk, hiter, Nat.sub_add_cancel hpos,
    cast_sub hpos]
  congr 1
  push_cast
  ring

theorem put_value (hs : segOf N s < P.total) (he : e < (P.seg s).call.chunkSize)
    (hX : .put p s e ∉ X) (hready : (sys P op base).Ready X (.put p s e)) :
    m (.dst p ((P.seg s).address (offSend p (iter N s)) e)) =
      value P op base (.put p s e) := by
  rcases Nat.eq_zero_or_pos (iter N s) with hzero | hpos
  · exact first_put_value hN hc hs he hzero hX hready
  · have hst := step_eq (N := N) s
    obtain ⟨hseg, -⟩ := prev_step hN hpos
    obtain ⟨hchunk, hval⟩ := arrival_value_sent (P := P) (p := p) (e := e) hN hpos
    have hwait : Event.wait p (s - 1) ∈ X := by
      apply hready
      refine ⟨?_, rfl, ?_, trivial⟩
      · change segOf N (s - 1) < P.total
        rw [hseg]
        exact hs
      · change 5 * (s - 1) + 3 < 5 * s + 1
        omega
    have harr : arrival p (s - 1) e ∈ X := by
      rw [← hseg] at hs
      rw [Plan.seg, ← hseg] at he
      have hpt : 5 * (s - 1) + 4 < point (Event.put p s e) := by
        simp only [point]
        omega
      exact arrival_ready hc hs he hready hwait hpt
    rw [← hval]
    grind [put_before_writer, arrival_stores, writer_before_arrival, read_dst]

section

variable (hs : segOf N s < P.total) (he : e < (P.seg s).call.chunkSize)
  (hiter : iter N s < N - 1) (hX : .reduce p s e ∉ X)
  (hready : (sys P op base).Ready X (.reduce p s e))
include hs he hiter hX hready

theorem reduce_reads_dst :
    m (.dst p ((P.seg s).address (offRecv p (iter N s)) e)) =
      (P.seg s).call.src p ((P.seg s).elem (offRecv p (iter N s)) e) := by
  have hself : (sys P op base).Writes (.dst p ((P.seg s).address
      (offRecv p (iter N s)) e)) (.reduce p s e) := .inl ⟨_, rfl⟩
  have ho : Occurs P (.reduce p s e) := ⟨hs, hiter, he⟩
  apply read_copied hN hc hX hs (off_recv_lt _ _) he
  · exact copy_ready hready hs (off_recv_lt _ _) he (by simp [point])
  · intro w' ho' hw'
    rcases lt_trichotomy (point (.reduce p s e)) (point w') with h | h | h
    · exact .inl (dst_order hN ho ho' hself hw' h)
    · rw [dst_point_unique hN ho ho' hself hw' h]
      exact .inl (Before.refl _)
    · right
      have hst := step_eq (N := N) s
      have hit := iter_lt hN s
      change point w' < 5 * s + 4 at h
      constructor
      · have hmul := Nat.add_one_mul (segOf N s) (iters N)
        have hT : iters N = 2 * N - 2 := rfl
        omega
      · rintro s' e' rfl hseg hchunk
        have hpt := arrival_point p s' e'
        have hgap := same_segment hseg
        rcases (show iter N s' ≤ iter N s by omega).lt_or_eq with hlt | heq
        · have hshift := recv_recv (by omega) hlt (by omega) (by omega) hchunk
          omega
        · obtain rfl : s' = s := by omega
          rw [arrival, if_pos hiter] at h
          simp [point] at h

theorem reduce_reads_work :
    m (.pWrk p ((P.seg s).work (offRecv p (iter N s)) e)) =
      value P op base (.put (p - 1) s e) := by
  have hit := iter_lt hN s
  have hwait : Event.wait p s ∈ X := by
    apply hready
    refine ⟨hs, rfl, ?_, trivial⟩
    change 5 * s + 3 < 5 * s + 4
    omega
  have hflag : Prior P op base (.put (p - 1) s e) (.flag (p - 1) s) := put_flag ⟨hs, he⟩
  have hput : Event.put (p - 1) s e ∈ X := (hflag.trans (flag_wait hs)) X hc.closed hwait
  apply hc.read_before acyclic hX hput
  · refine ⟨fun m => m (.dst (p - 1) ((P.seg s).address
      (offSend (p - 1) (iter N s)) e)), ?_⟩
    change action P op base (.put (p - 1) s e) = _
    rw [action, target, if_pos hiter, sub_add_cancel, off_send_left (by omega)]
  · intro w' ho' hw'
    obtain ⟨s', e', rfl, hiter', hi⟩ := work_writers hN ho' hw'
    rcases lt_trichotomy s' s with hlt | rfl | hgt
    · left
      have hflag' : Prior P op base (.put (p - 1) s' e') (.flag (p - 1) s') := put_flag ho'
      apply hflag'.trans
      refine flag_own ho'.1 ?_
      simp only [point]
      omega
    · rw [(work_unique he ho'.2 hi).2]
      exact .inl (Before.refl _)
    · right
      refine own_left_put hN ho' ?_ rfl trivial ?_
      · exact ⟨hs, hiter, he⟩
      · have happ := work_apart hN hgt hiter he ho'.2 hi
        simp only [point]
        omega

end

omit hc in
theorem reduce_step (hiter : iter N s < N - 1) :
    op ((P.seg s).call.src p ((P.seg s).elem (offRecv p (iter N s)) e))
      (value P op base (.put (p - 1) s e)) = value P op base (.reduce p s e) := by
  have hit := iter_lt hN s
  rw [value, value, prefixReduce, off_send_left (by omega), sub_add_cancel, sub_add_cancel,
    min_eq_left (by omega)]

omit [NeZero N] hN in
theorem wait_matched (hinit : ∀ g, g < P.total → init (.pSync p (iter N s)) ≠ seqValue base g)
    (hs : segOf N s < P.total) (hg : m (.pSync p (iter N s)) = seqValue base (segOf N s)) :
    .flag (p - 1) s ∈ X := by
  rcases hc.last_store (not_adds (.pSync p (iter N s))) with ⟨h, -⟩ | ⟨w, hw, hst, hval, -⟩
  · exact absurd (h.symm.trans hg) (hinit _ hs)
  · obtain ⟨s', rfl, hi⟩ := sync_writers (.inl hst)
    have heq := hval.symm.trans hg
    change seqValue base (segOf N s') = seqValue base (segOf N s) at heq
    have hseg : segOf N s' = segOf N s := by
      simp only [seqValue] at heq
      omega
    have hgap := same_segment hseg
    obtain rfl : s' = s := by omega
    exact hw

omit [NeZero N] in
theorem wait_reads (hs : segOf N s < P.total) (hX : .wait p s ∉ X) (hflag : .flag (p - 1) s ∈ X) :
    m (.pSync p (iter N s)) = seqValue base (segOf N s) := by
  apply hc.read_before (w := .flag (p - 1) s) acyclic hX hflag
  · refine ⟨fun _ => seqValue base (segOf N s), ?_⟩
    change action P op base (.flag (p - 1) s) = _
    rw [action, sub_add_cancel]
  · intro w' ho' hw'
    obtain ⟨s', rfl, hi⟩ := sync_writers hw'
    rcases lt_trichotomy s' s with hlt | rfl | hgt
    · left
      refine flag_own ho' ?_
      simp only [point]
      omega
    · exact .inl (Before.refl _)
    · exact .inr (wait_left_flag hN ho' hgt hi)

end Values

section Sound

variable [NeZero N] {init : Cell N → ℤ}

def NoStaleFlag (P : Plan N) (base : ℤ) (init : Cell N → ℤ) : Prop :=
  ∀ p i g, i < iters N → g < P.total → init (.pSync p i) ≠ seqValue base g

theorem writers_ordered (hN : 2 ≤ N) {c : Cell N} {w w' : Event N} (ho : Occurs P w)
    (ho' : Occurs P w') (hw : (sys P op base).Writes c w) (hw' : (sys P op base).Writes c w') :
    w = w' ∨ Prior P op base w w' ∨ Prior P op base w' w := by
  have hput : ∀ {q s s' e e'}, Occurs P (.put q s e) → s < s' →
      Prior P op base (.put q s e) (.put q s' e') := by
    intro q s s' e e' ho hlt
    refine (put_flag ho).trans (flag_own ho.1 ?_)
    simp only [point]
    omega
  have hflag : ∀ {q s s'}, Occurs P (.flag q s) → s < s' →
      Prior P op base (.flag q s) (.flag q s') := by
    intro q s s' ho hlt
    refine flag_own ho ?_
    simp only [point]
    omega
  cases c with
  | dst p i =>
    grind [dst_order, dst_point_unique]
  | pWrk p i =>
    obtain ⟨s, e, rfl, -, hi⟩ := work_writers hN ho hw
    obtain ⟨s', e', rfl, -, hi'⟩ := work_writers hN ho' hw'
    rcases lt_trichotomy s s' with h | rfl | h
    · exact .inr (.inl (hput ho h))
    · rw [(work_unique ho.2 ho'.2 (hi.symm.trans hi')).2]
      exact .inl rfl
    · exact .inr (.inr (hput ho' h))
  | pSync p i =>
    grind [sync_writers]

theorem sound (hN : 2 ≤ N) (hinit : NoStaleFlag P base init) :
    Sound (sys P op base) (certificate P op base) anyStep init := by
  refine ⟨acyclic, ?_, ?_, ?_⟩
  · intro c w w' ho ho' hs hw'
    exact writers_ordered hN ho ho' (.inl hs) hw'
  · intro X m e hc he hX hr hg _ a ha
    cases e <;> simp only [certificate, waitsFor] at ha
    obtain ⟨rfl, hs⟩ := ha
    exact wait_matched hc (fun g => hinit _ _ g (mod_lt _ (iters_pos hN))) hs hg
  · intro X m e c f hc he hX hr hm hact
    change action P op base e = .store c f at hact
    cases e with
    | copyIn | flag =>
      simp only [action, Effect.store.injEq] at hact
      obtain ⟨-, rfl⟩ := hact
      rfl
    | put p s e =>
      simp only [action, Effect.store.injEq] at hact
      obtain ⟨-, rfl⟩ := hact
      exact put_value hN hc he.1 he.2 hX hr
    | wait p s => simp [action] at hact
    | reduce p s e =>
      simp only [action, Effect.store.injEq] at hact
      obtain ⟨-, rfl⟩ := hact
      change op _ _ = value P op base (.reduce p s e)
      rw [reduce_reads_dst hN hc he.1 he.2.2 he.2.1 hX hr,
        reduce_reads_work hN hc he.1 he.2.2 he.2.1 hX hr]
      exact reduce_step hN he.2.1

omit [NeZero N] in
theorem live (hN : 2 ≤ N) : Live (sys P op base) (certificate P op base) anyStep init := by
  refine ⟨fun a e h => h.1, ?_, ?_⟩
  · intro e a h
    cases e <;> simp only [certificate, waitsFor] at h
    obtain ⟨rfl, hs⟩ := h
    exact hs
  · intro X m e hc he hX hr hm
    refine ⟨?_, trivial⟩
    cases e
    case wait p s => exact wait_reads hN hc he hX (hm _ ⟨rfl, he⟩)
    all_goals trivial

end Sound

section Reduction

variable [NeZero N] [Std.Associative op] [Std.Commutative op] {src : ZMod N → ℕ → ℤ} {x : ℕ}

def reduction (op : ℤ → ℤ → ℤ) [Std.Associative op] [Std.Commutative op] (src : ZMod N → ℕ → ℤ)
    (x : ℕ) : ℤ :=
  (Finset.univ.erase 0).fold op (src 0 x) fun p => src p x

omit [NeZero N] in
theorem op_fold_comm (f : ZMod N → ℤ) (a b : ℤ) (t : Finset (ZMod N)) :
    op a (t.fold op b f) = op b (t.fold op a f) := by
  have hpull : ∀ a b, op a (t.fold op b f) = t.fold op (op a b) f := by
    intro a b
    exact (Multiset.fold_cons_left op b a _).symm.trans (Multiset.fold_cons'_left op b a _)
  have hcomm : op a b = op b a := Std.Commutative.comm a b
  rw [hpull, hpull, hcomm]

theorem fold_erase (f : ZMod N → ℤ) (a b : ZMod N) :
    (Finset.univ.erase a).fold op (f a) f = (Finset.univ.erase b).fold op (f b) f := by
  by_cases hab : a = b
  · rw [hab]
  · have ha : Finset.univ.erase a = insert b ((Finset.univ.erase a).erase b) :=
      (insert_erase (by simp [Ne.symm hab])).symm
    have hb : Finset.univ.erase b = insert a ((Finset.univ.erase a).erase b) := by
      rw [erase_right_comm]
      exact (insert_erase (by simp [hab])).symm
    rw [ha, hb, fold_insert (by simp), fold_insert (by simp)]
    exact op_fold_comm f _ _ _

omit [NeZero N] in
theorem prefix_reduce_fold (k : ZMod N) {j : ℕ} (hj : j < N) : prefixReduce op src x k j =
    ((Finset.range j).image fun i : ℕ => k + i).fold op (src (k - 1) x) fun p => src p x := by
  induction j with
  | zero => rfl
  | succ j ih =>
    have hnot : k + (j : ZMod N) ∉ (Finset.range j).image fun i : ℕ => k + (i : ZMod N) := by
      intro h
      obtain ⟨i, hi, heq⟩ := Finset.mem_image.mp h
      have hcast := (ZMod.natCast_eq_natCast_iff' i j N).mp (add_left_cancel heq)
      rw [mem_range] at hi
      rw [mod_eq_of_lt (by omega), mod_eq_of_lt (by omega)] at hcast
      omega
    rw [prefixReduce, ih (by omega), range_add_one, image_insert, fold_insert hnot]

theorem prefix_reduce_all (k : ZMod N) : prefixReduce op src x k (N - 1) = reduction op src x := by
  have hpos := NeZero.pos N
  have himage : ((Finset.range (N - 1)).image fun i : ℕ => k + (i : ZMod N)) =
      Finset.univ.erase (k - 1) := by
    ext q
    simp only [mem_image, mem_range, mem_erase, mem_univ, and_true]
    constructor
    · rintro ⟨i, hi, rfl⟩ h
      have hcast : ((i + 1 : ℕ) : ZMod N) = (0 : ℕ) := by
        push_cast
        linear_combination h
      have hmod := (ZMod.natCast_eq_natCast_iff' _ _ N).mp hcast
      rw [mod_eq_of_lt (by omega), Nat.zero_mod] at hmod
      omega
    · intro hq
      have hlt := ZMod.val_lt (q - k)
      refine ⟨(q - k).val, ?_, by simp⟩
      by_contra hge
      apply hq
      have hval : (q - k).val = N - 1 := by omega
      have hcast : q - k = ((N - 1 : ℕ) : ZMod N) := by rw [← hval, ZMod.natCast_zmod_val]
      rw [cast_sub hpos] at hcast
      simp only [CharP.cast_eq_zero, Nat.cast_one] at hcast
      linear_combination hcast
  rw [prefix_reduce_fold k (by omega), himage]
  exact fold_erase _ _ _

end Reduction

section Result

variable {X : Set (Event N)} {m init : Cell N → ℤ} {p : ZMod N} {g : ℕ}

def lastStep (N g : ℕ) : ℕ := g * iters N + (iters N - 1)

def Plan.Ends (P : Plan N) (g : ℕ) : Prop := (P.segment g).seg + 1 = (P.segment g).call.nSeg

theorem start_after_end (hend : P.Ends g) {g' : ℕ} (hg' : g' < P.total) (hlt : g < g') :
    g < P.start g' := by
  by_contra hle
  obtain ⟨hcall, hseg⟩ := same_call hg' (not_lt.mp hle) hlt.le
  have hin := (P.segment g').inside
  rw [Plan.Ends, hcall] at hend
  omega

theorem element_chunk (hg : g < P.total) (hend : P.Ends g) {x : ℕ}
    (hx : x < (P.segment g).call.nSeg * (P.segment g).call.segSize) :
    ∃ g' k e, P.start g ≤ g' ∧ g' ≤ g ∧ k < N ∧ e < (P.segment g').call.chunkSize ∧
      (P.segment g').call = (P.segment g).call ∧ (P.segment g').elem k e = x := by
  have hspec := (P.start_spec hg).1
  have hpos : 0 < (P.segment g).call.segSize := by
    apply pos_of_ne_zero
    intro h
    simp [h] at hx
  have hchunk := (P.segment g).call.chunk_pos
  have hdiv : x / (P.segment g).call.segSize < (P.segment g).call.nSeg :=
    (Nat.div_lt_iff_lt_mul hpos).mpr hx
  rw [Plan.Ends] at hend
  have hstart : P.start g + (P.segment g).seg = g := Nat.sub_add_cancel hspec
  have hle : P.start g + x / (P.segment g).call.segSize ≤ g := by omega
  obtain ⟨hcall, hseg⟩ := same_call hg (Nat.le_add_right _ _) hle
  refine ⟨P.start g + x / (P.segment g).call.segSize,
    x % (P.segment g).call.segSize / (P.segment g).call.chunkSize,
    x % (P.segment g).call.segSize % (P.segment g).call.chunkSize,
    Nat.le_add_right _ _, hle, ?_, ?_, hcall, ?_⟩
  · apply (Nat.div_lt_iff_lt_mul hchunk).mpr
    rw [mul_comm]
    exact mod_lt _ hpos
  · rw [hcall]
    exact mod_lt _ hchunk
  · have hidx : (P.segment (P.start g + x / (P.segment g).call.segSize)).seg =
        x / (P.segment g).call.segSize := by omega
    rw [Segment.elem, hcall, hidx, Nat.div_add_mod', Nat.div_add_mod']

variable [NeZero N]

theorem final_step (p k : ZMod N) (hN : 2 ≤ N) :
    ∃ t, N - 2 ≤ t ∧ t < iters N ∧ p - (t : ZMod N) = k := by
  have hlt := ZMod.val_lt (p - k - ((N - 2 : ℕ) : ZMod N))
  refine ⟨N - 2 + (p - k - ((N - 2 : ℕ) : ZMod N)).val, Nat.le_add_right _ _, ?_, ?_⟩
  · rw [iters]
    omega
  · push_cast
    rw [ZMod.natCast_zmod_val]
    ring

theorem copy_before_arrival (hN : 2 ≤ N) {s e : ℕ} (hs : segOf N s < P.total)
    (he : e < (P.seg s).call.chunkSize) :
    Prior P op base (.copyIn p (P.start (segOf N s)) 0) (arrival p s e) := by
  obtain ⟨hcall, hfirst⟩ := start_segment hs
  have hst := step_eq (N := N) s
  have hmul : P.start (segOf N s) * iters N ≤ segOf N s * iters N :=
    mul_le_mul_right _ (sub_le _ _)
  have ho : Occurs P (.copyIn p (P.start (segOf N s)) 0) := by
    refine ⟨(sub_le _ _).trans_lt hs, hfirst, ?_⟩
    rw [hcall]
    exact (Nat.zero_le _).trans_lt (elem_lt (NeZero.pos N) he)
  by_cases hiter : iter N s < N - 1
  · rw [arrival, if_pos hiter]
    refine prior_of_point ho rfl ?_ trivial
    simp only [point]
    omega
  · rw [arrival, if_neg hiter]
    refine own_left_put hN ⟨hs, he⟩ ho rfl trivial ?_
    simp only [point]
    omega

theorem final_writer (hN : 2 ≤ N) (hc : Consistent (sys P op base) (certificate P op base) init X m)
    (hg : g < P.total) (hend : P.Ends g) (hnext : ∀ g' > g, ∀ i, .copyIn p g' i ∉ X)
    {s e : ℕ} (hstart : P.start g ≤ segOf N s) (hle : segOf N s ≤ g) (hiter : N - 2 ≤ iter N s)
    (he : e < (P.seg s).call.chunkSize) {w : Event N} (hw : w ∈ X)
    (hwr : (sys P op base).Writes
      (.dst p ((P.seg s).address (offRecv p (iter N s)) e)) w) :
    point w ≤ point (arrival p s e) := by
  by_contra hlt
  have hpt := arrival_point p s e
  rcases dst_writers hN (hc.events w hw) hwr with ⟨g', j, rfl, -⟩ | ⟨s', e', rfl, hs', he', hi⟩
  · have ho := hc.events _ hw
    apply hnext g' _ j hw
    by_contra hge
    have hfirst := start_le_of_first hg (not_lt.mp hge) ho.2.1
    have hmul : g' * iters N ≤ segOf N s * iters N := mul_le_mul_right _ (hfirst.trans hstart)
    have hst := step_eq (N := N) s
    change ¬ 5 * (g' * iters N) ≤ _ at hlt
    omega
  · have hpt' := arrival_point p s' e'
    have hss : s ≤ s' := by omega
    by_cases hlater : g < segOf N s'
    · exact hnext _ (start_after_end hend hs' hlater) 0
        (copy_before_arrival hN hs' he' X hc.closed hw)
    · -- the same call, so the same segment and chunk
      have hcall := same_call hg (hstart.trans (segOf_mono hss)) (not_lt.mp hlater)
      have hstart' : P.start (segOf N s') ≤ segOf N s := by
        have h1 := same_call hg hstart hle
        rw [Plan.start]
        omega
      obtain ⟨hseg, hchunk, -⟩ := address_unique hs' hstart' (segOf_mono hss) (off_recv_lt p _)
        (off_recv_lt p _) he' he hi
      have hgap := same_segment hseg
      have hit' := iter_lt hN s'
      rcases (show iter N s ≤ iter N s' by omega).lt_or_eq with h | h
      · have hshift := recv_recv (by omega) h (by omega) (by omega) hchunk
        omega
      · obtain rfl : s = s' := by omega
        apply hlt
        apply le_of_eq
        unfold arrival
        split <;> rfl

variable [Std.Associative op] [Std.Commutative op]

theorem returned_reduction (hN : 2 ≤ N)
    (hc : Consistent (sys P op base) (certificate P op base) init X m) (hg : g < P.total)
    (hend : P.Ends g) (hret : .wait p (lastStep N g) ∈ X)
    (hnext : ∀ g' > g, ∀ i, .copyIn p g' i ∉ X) {x : ℕ}
    (hx : x < (P.segment g).call.nSeg * (P.segment g).call.segSize) :
    m (.dst p ((P.segment g).call.dst + x)) = reduction op (P.segment g).call.src x := by
  obtain ⟨g', k, e, hstart, hle, hk, he, hcall, rfl⟩ := element_chunk hg hend hx
  obtain ⟨t, ht, hlt, hchunk⟩ := final_step p (k : ZMod N) hN
  have hT : iters N = 2 * N - 2 := rfl
  obtain ⟨s, hseg, hit, hs⟩ : ∃ s, segOf N s = g' ∧ iter N s = t ∧ s = g' * iters N + t :=
    ⟨_, segOf_step hN hlt, iter_step hlt, rfl⟩
  have hoff : offRecv p (iter N s) = k := by
    rw [off_recv_eq (by omega), hit, hchunk, ZMod.val_natCast_of_lt hk]
  subst hseg
  have htotal := hle.trans_lt hg
  have hmul : segOf N s * iters N ≤ g * iters N := mul_le_mul_right _ hle
  have harr : arrival p s e ∈ X := by
    by_cases hiter : iter N s < N - 1
    · have hpt : 5 * s + 4 < point (Event.wait p (lastStep N g)) := by
        simp only [point, lastStep]
        omega
      exact arrival_own htotal he hpt X hc.closed hret
    · rw [arrival, if_neg hiter]
      have hflag : Prior P op base (.put (p - 1) s e) (.flag (p - 1) s) := put_flag ⟨htotal, he⟩
      have hmono : Prior P op base (.wait p s) (.wait p (lastStep N g)) :=
        wait_mono htotal (by rw [lastStep]; omega)
      exact (hflag.trans ((flag_wait htotal).trans hmono)) X hc.closed hret
  have hstores : (sys P op base).StoresTo
      (.dst p ((P.seg s).address (offRecv p (iter N s)) e)) (arrival p s e) :=
    arrival_stores hN p s e
  have hval : m (.dst p ((P.seg s).address (offRecv p (iter N s)) e)) =
      value P op base (arrival p s e) := by
    apply hc.read acyclic harr hstores
    intro w hw hwr
    have hpt := final_writer hN hc hg hend hnext hstart hle (by omega) he hw hwr
    rcases hpt.lt_or_eq with h | h
    · exact dst_order hN (hc.events w hw) (hc.events _ harr) hwr (.inl hstores) h
    · rw [dst_point_unique hN (hc.events w hw) (hc.events _ harr) hwr (.inl hstores) h]
      exact Before.refl _
  rw [arrival_value hN, min_eq_right (by omega), prefix_reduce_all, hoff, hcall] at hval
  rw [← hval, Segment.address, hcall]

end Result

section Plans

def Call.segments (c : Call N) : List (Segment N) :=
  (List.finRange c.nSeg).map fun i : Fin c.nSeg => ⟨c, i, i.isLt⟩

def Follows (a b : Segment N) : Prop := b.seg = 0 ∨ (b.call = a.call ∧ b.seg = a.seg + 1)

theorem call_segments_chain (c : Call N) : c.segments.IsChain Follows := by
  rw [List.isChain_iff_getElem]
  intro i hi
  right
  simp [Call.segments]

theorem call_segments_first {c : Call N} {b : Segment N} (hb : b ∈ c.segments.head?) :
    b.seg = 0 := by
  rw [Option.mem_def, List.head?_eq_getElem?, List.getElem?_eq_some_iff] at hb
  obtain ⟨hlt, rfl⟩ := hb
  simp [Call.segments]

theorem call_segments_ne_nil (c : Call N) : c.segments ≠ [] := by
  have hpos := c.seg_pos
  intro h
  have hlen := congrArg List.length h
  simp [Call.segments] at hlen
  omega

def segments (calls : List (Call N)) : List (Segment N) := calls.flatMap Call.segments

theorem segments_first {calls : List (Call N)} {b : Segment N} (hb : b ∈ (segments calls).head?) :
    b.seg = 0 := by
  cases calls with
  | nil => simp [segments] at hb
  | cons c calls =>
    rw [segments, List.flatMap_cons, List.head?_append_of_ne_nil _ (call_segments_ne_nil c)] at hb
    exact call_segments_first hb

theorem segments_chain (calls : List (Call N)) : (segments calls).IsChain Follows := by
  induction calls with
  | nil => simp [segments]
  | cons c calls ih =>
    rw [segments, List.flatMap_cons]
    apply (call_segments_chain c).append ih
    intro a _ b hb
    exact .inl (segments_first hb)

def noSegment : Segment N := ⟨⟨0, fun _ _ => 0, N, 1, 1, Nat.one_pos,
    Nat.one_pos, by simp⟩, 0, by simp⟩

def planOf (calls : List (Call N)) : Plan N where
  total := (segments calls).length
  segment g := (segments calls).getD g noSegment
  first := by
    cases h : segments calls with
    | nil => rfl
    | cons b l =>
      have hb : b ∈ (segments calls).head? := by
        rw [h]
        rfl
      exact segments_first hb
  next := by
    intro g hg
    have hchain := (List.isChain_iff_getElem.mp (segments_chain calls)) g hg
    have hg' : g < (segments calls).length := by omega
    simp only [List.getD_eq_getElem?_getD, List.getElem?_eq_getElem hg,
      List.getElem?_eq_getElem hg',
      Option.getD_some]
    exact hchain

end Plans

inductive Reads (P : Plan N) : Event N → Cell N → Prop where
  | wait (p s) : Reads P (.wait p s) (.pSync p (iter N s))
  | put (p s e) : Reads P (.put p s e)
      (.dst p ((P.segment (segOf N s)).address (offSend p (iter N s)) e))
  | reduceDst (p s e) : Reads P (.reduce p s e)
      (.dst p ((P.segment (segOf N s)).address (offRecv p (iter N s)) e))
  | reduceWork (p s e) : Reads P (.reduce p s e)
      (.pWrk p ((P.segment (segOf N s)).work (offRecv p (iter N s)) e))

/-- A PE that has returned from a call holds the reduction until it starts a later call. A
cell is written by a later statement only after it was read. The calls do not get stuck. -/
structure Correct (P : Plan N) (op : ℤ → ℤ → ℤ) (base : ℤ) [NeZero N] [Std.Associative op]
    [Std.Commutative op] (X : Set (Event N)) (m : Cell N → ℤ) : Prop where
  returned : ∀ p g, g < P.total → P.Ends g → .wait p (lastStep N g) ∈ X →
    (∀ g' > g, ∀ i, .copyIn p g' i ∉ X) →
    ∀ x < (P.segment g).call.nSeg * (P.segment g).call.segSize,
      m (.dst p ((P.segment g).call.dst + x)) = reduction op (P.segment g).call.src x
  unharmed : ∀ r c w, Occurs P r → Reads P r c → w ∈ X → (sys P op base).Writes c w →
    point r < point w → r ∈ X
  live : ∀ e, Occurs P e → e ∉ X →
    ∃ e', Occurs P e' ∧ e' ∉ X ∧ (sys P op base).Ready X e' ∧ guard base e' m

theorem read_before_write [NeZero N] (hN : 2 ≤ N) {w : Event N} {c : Cell N} (hr : Occurs P r)
    (hw : Occurs P w) (hread : Reads P r c) (hwr : (sys P op base).Writes c w)
    (hpt : point r < point w) : Prior P op base r w := by
  cases hread with
  | wait p s =>
    obtain ⟨s', rfl, hi⟩ := sync_writers hwr
    apply wait_left_flag hN hw _ hi
    simp only [point] at hpt
    omega
  | put p s e => exact put_before_writer hN hr.1 hr.2 hw hwr hpt.le
  | reduceDst p s e => exact dst_order hN hr hw (.inl ⟨_, rfl⟩) hwr hpt
  | reduceWork p s e =>
    obtain ⟨s', e', rfl, hiter, hi⟩ := work_writers hN hw hwr
    simp only [point] at hpt
    have happ := work_apart hN (by omega) hr.2.1 hr.2.2 hw.2 hi
    refine own_left_put hN hw hr rfl trivial ?_
    simp only [point]
    omega

/-- Any number of ring allreduce calls, one after the other without a barrier. -/
theorem ring_allreduce_correct [NeZero N] [Std.Associative op] [Std.Commutative op] (hN : 2 ≤ N)
    (calls : List (Call N)) {init m : Cell N → ℤ} {X : Set (Event N)}
    (hinit : NoStaleFlag (planOf calls) base init)
    (h : (sys (planOf calls) op base).Run anyStep init X m) :
    Correct (planOf calls) op base X m := by
  have hc := run_consistent (sound hN hinit) h
  constructor
  · intro p g hg hend hret hnext x hx
    exact returned_reduction hN hc hg hend hret hnext hx
  · intro r c w hr hread hw hwr hpt
    exact read_before_write hN hr (hc.events w hw) hread hwr hpt X hc.closed hw
  · intro e he hX
    obtain ⟨e', he', hX', hready, hg, -⟩ := (live hN).progress acyclic hc he hX
    exact ⟨e', he', hX', hready, hg.1⟩

section Complete

variable [NeZero N]

def code : Event N → ℕ × ZMod N × ℕ × ℕ
  | .copyIn p g i => (0, p, g, i)
  | .put p s e => (1, p, s, e)
  | .flag p s => (2, p, s, 0)
  | .wait p s => (3, p, s, 0)
  | .reduce p s e => (4, p, s, e)

omit [NeZero N] in
theorem code_injective : Function.Injective (code (N := N)) := by
  intro a b h
  cases a <;> cases b <;> simp_all [code]

theorem chunk_le (c : Call N) : c.chunkSize ≤ c.nelems := by
  have hseg : c.chunkSize ≤ c.chunkSize * N := Nat.le_mul_of_pos_right _ (NeZero.pos N)
  exact (hseg.trans (Nat.le_mul_of_pos_left _ c.seg_pos)).trans c.covered

theorem finite_events (hN : 2 ≤ N) (P : Plan N) : {e | Occurs P e}.Finite := by
  have hbound : ∀ g < P.total, (P.segment g).call.nelems ≤
      ∑ g ∈ Finset.range P.total, (P.segment g).call.nelems := by
    intro g hg
    exact single_le_sum (f := fun g => (P.segment g).call.nelems)
      (fun _ _ => Nat.zero_le _) (Finset.mem_range.mpr hg)
  have hstep : ∀ s, segOf N s < P.total → s < P.total * iters N + P.total := by
    intro s hs
    have hlt := (Nat.div_lt_iff_lt_mul (iters_pos hN)).mp hs
    omega
  apply Set.Finite.of_finite_image _ code_injective.injOn
  apply ((Set.finite_Iio 5).prod (Set.finite_univ.prod ((Set.finite_Iio (P.total * iters N +
    P.total)).prod (Set.finite_Iic (∑ g ∈ Finset.range P.total,
      (P.segment g).call.nelems))))).subset
  rintro _ ⟨e, he, rfl⟩
  change Occurs P e at he
  cases e with
  | copyIn | flag | wait =>
    grind [Occurs, code]
  | put p s e | reduce p s e =>
    grind [Occurs, code, chunk_le]

theorem run_complete (hN : 2 ≤ N) {init : Cell N → ℤ} (hinit : NoStaleFlag P base init) :
    ∃ m, (sys P op base).Run anyStep init {e | Occurs P e} m := by
  have hlive : Live (sys P op base) (certificate P op base) anyStep init := live hN
  exact hlive.run_all (sound hN hinit) (finite_events hN P)

end Complete

theorem three_pos : 0 < 3 := by decide

def twoCalls : List (Call 2) :=
  [⟨0, fun p i => 10 * p.val + i, 2, 1, 1, Nat.one_pos, Nat.one_pos, by decide⟩,
    ⟨2, fun p i => 100 * p.val + i, 12, 2, 3, Nat.two_pos, three_pos, by decide⟩]

theorem two_calls_correct : ∃ X m,
    (sys (planOf twoCalls) (· + ·) 0).Run anyStep (fun _ => 0) X m ∧
    (∀ p, .wait p (lastStep 2 2) ∈ X) ∧ Correct (planOf twoCalls) (· + ·) 0 X m := by
  have hinit : NoStaleFlag (planOf twoCalls) 0 fun _ => 0 := by
    intro p i g _ _
    simp only [seqValue]
    omega
  obtain ⟨m, h⟩ : ∃ m, (sys (planOf twoCalls) (· + ·) 0).Run anyStep (fun _ => 0)
      {e | Occurs (planOf twoCalls) e} m := run_complete (by decide) hinit
  refine ⟨_, m, h, fun p => ?_, ring_allreduce_correct (by decide) twoCalls hinit h⟩
  change segOf 2 (lastStep 2 2) < (segments twoCalls).length
  decide

end GdaRingAllreduce
