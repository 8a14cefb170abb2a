import Rocshmem.GuardedMachines
import Rocshmem.WrappingRings

/-! The ring of one SDMA queue. Any number of producers reserve bytes with a compare-exchange,
place their packets and submit them in the order of their reservations; the engine reads what
was submitted. Indices count bytes and are never reduced; a producer steps between any two of
its accesses to the shared words and to the ring. -/
namespace SdmaRing

open Function GuardedMachines List

abbrev Dword := BitVec 32

def queueSize : ℕ := 1024 * 1024

def wrapIntoRing (index : ℕ) : ℕ := index % queueSize

def canWriteUpto (upto cached : ℕ) : Bool :=
  decide (cached ≤ upto) && decide (upto - cached < queueSize)

def sizeInBytes (packets : List (List Dword)) : ℕ := 4 * packets.flatten.length

def padding (cur size : ℕ) : ℕ :=
  if wrapIntoRing cur + size > queueSize then queueSize - wrapIntoRing cur else 0

def nop (n i : ℕ) : Dword := if i = 0 then BitVec.ofNat 32 ((n - 1) % 2 ^ 16 * 2 ^ 16) else 0

structure Reservation where
  base : ℕ
  packets : List (List Dword)
  deriving DecidableEq

namespace Reservation

variable (r : Reservation)

def size : ℕ := sizeInBytes r.packets

def offset : ℕ := padding r.base r.size

def stop : ℕ := r.base + r.size + r.offset

def words : List Dword :=
  (range (r.offset / 4)).map (nop (r.offset / 4)) ++ r.packets.flatten

end Reservation

open Reservation (offset stop words size)

/-- `queueBuf` has for each dword what it holds and the index for which it was stored.
`reservations`, the newest first, is a history. -/
structure Queue where
  queueBuf : ℕ → Option (ℕ × Dword)
  rptr : ℕ
  wptr : ℕ
  doorbell : ℕ
  cachedWptr : ℕ
  committedWptr : ℕ
  cachedHwReadIndex : ℕ
  maxWritePtr : ℕ
  reservations : List Reservation

namespace Queue

def initial : Queue := ⟨fun _ => none, 0, 0, 0, 0, 0, 0, 0, []⟩

def put (q : Queue) (slot pos : ℕ) (w : Dword) : Queue :=
  { q with queueBuf := update q.queueBuf slot (some (pos, w)) }

end Queue

inductive Producer where
  | idle
  | reserving (packets : List (List Dword))
  | loaded (packets : List (List Dword)) (cur : ℕ)
  | full (packets : List (List Dword)) (cur : ℕ)
  | sawRptr (packets : List (List Dword)) (cur hw : ℕ)
  | refreshed (packets : List (List Dword)) (cur : ℕ)
  | fits (packets : List (List Dword)) (cur : ℕ)
  | placing (r : Reservation) (pending offset i : ℕ) (packets : List (List Dword))
  | submitting (r : Reservation) (pending : ℕ)
  | wroteWptr (r : Reservation) (pending : ℕ)
  | rang (r : Reservation) (pending : ℕ)
  | committed (pending : ℕ)
  deriving DecidableEq

inductive Action where
  | start (packets : List (List Dword))
  | load
  | test
  | loadRptr
  | storeCached
  | retest
  | cas
  | store
  | next
  | turn
  | storeWptr
  | ring
  | commit
  | publish
  deriving DecidableEq

def nextStore (pending offset i : ℕ) (packet : List Dword) : Option (ℕ × ℕ × Dword) :=
  if i < offset / 4 then
    some (wrapIntoRing pending / 4 + i, pending + 4 * i, nop (offset / 4) i)
  else
    packet[i - offset / 4]?.map fun w =>
      (wrapIntoRing (pending + offset) / 4 + (i - offset / 4),
        pending + offset + 4 * (i - offset / 4), w)

def producerStep (q : Queue) : Producer → Action → Option (Queue × Producer)
  | .idle, .start packets =>
    if 0 < sizeInBytes packets ∧ sizeInBytes packets ≤ queueSize then
      some (q, .reserving packets)
    else none
  | .reserving packets, .load => some (q, .loaded packets q.cachedWptr)
  | .loaded packets cur, .test =>
    some (q, if canWriteUpto (Reservation.mk cur packets).stop q.cachedHwReadIndex then
      .fits packets cur else .full packets cur)
  | .full packets cur, .loadRptr => some (q, .sawRptr packets cur q.rptr)
  | .sawRptr packets cur hw, .storeCached =>
    some ({ q with cachedHwReadIndex := hw }, .refreshed packets cur)
  | .refreshed packets cur, .retest =>
    some (q, if canWriteUpto (Reservation.mk cur packets).stop q.cachedHwReadIndex then
      .fits packets cur else .reserving packets)
  | .fits packets cur, .cas =>
    if q.cachedWptr = cur then
      some ({ q with
          cachedWptr := (Reservation.mk cur packets).stop
          reservations := ⟨cur, packets⟩ :: q.reservations },
        .placing ⟨cur, packets⟩ cur (Reservation.mk cur packets).offset 0 packets)
    else some (q, .reserving packets)
  | .placing r pending offset i (packet :: rest), .store =>
    (nextStore pending offset i packet).map fun (slot, pos, w) =>
      (q.put slot pos w, .placing r pending offset (i + 1) (packet :: rest))
  | .placing r pending offset i (packet :: rest), .next =>
    if i = offset / 4 + packet.length then
      some (q, .placing r (pending + offset + 4 * packet.length) 0 0 rest)
    else none
  | .placing r pending _ _ [], .turn =>
    if q.committedWptr = r.base then some (q, .submitting r pending) else none
  | .submitting r pending, .storeWptr => some ({ q with wptr := pending }, .wroteWptr r pending)
  | .wroteWptr r pending, .ring => some ({ q with doorbell := pending }, .rang r pending)
  | .rang _ pending, .commit => some ({ q with committedWptr := pending }, .committed pending)
  | .committed pending, .publish => some ({ q with maxWritePtr := pending }, .idle)
  | _, _ => none

structure State (N : ℕ) where
  queue : Queue
  producers : Fin N → Producer

def initial (N : ℕ) : State N := ⟨.initial, fun _ => .idle⟩

inductive Event (N : ℕ) where
  | producer (p : Fin N) (a : Action)
  | read (n : ℕ)
  deriving DecidableEq

variable {N : ℕ}

def State.after (s : State N) (p : Fin N) (r : Queue × Producer) : State N :=
  ⟨r.1, update s.producers p r.2⟩

def step (s : State N) : Event N → Option (State N)
  | .producer p a => (producerStep s.queue (s.producers p) a).map (s.after p)
  | .read n =>
    if s.queue.rptr + n ≤ s.queue.doorbell then
      some { s with queue := { s.queue with rptr := s.queue.rptr + n } }
    else none

def machine (N : ℕ) : Machine (State N) (Event N) := .ofStep (initial N) step

instance (s : State N) (e : Event N) : Decidable ((machine N).enabled s e) :=
  inferInstanceAs (Decidable ((step s e).isSome = true))

section Numbers

variable {r : Reservation}

theorem padding_eq (base size : ℕ) : (padding base size = 0 ∧ base % queueSize + size ≤ queueSize) ∨
      (base % queueSize + padding base size = queueSize ∧ queueSize < base % queueSize + size) := by
  have hlt : base % queueSize < queueSize := Nat.mod_lt _ (by decide)
  unfold padding wrapIntoRing
  split <;> omega

theorem dvd_size : 4 ∣ r.size := Nat.dvd_mul_right 4 _

theorem dvd_offset (h : 4 ∣ r.base) : 4 ∣ r.offset := by
  have := padding_eq r.base r.size
  unfold offset queueSize at *
  omega

theorem dvd_stop (h : 4 ∣ r.base) : 4 ∣ r.stop := by
  have := dvd_offset h
  have := @dvd_size r
  unfold stop
  omega

theorem length_words (h : 4 ∣ r.base) : r.base + 4 * r.words.length = r.stop := by
  have := dvd_offset h
  have hlen : r.words.length = r.offset / 4 + r.packets.flatten.length := by
    simp [words]
  have hsize : r.size = 4 * r.packets.flatten.length := rfl
  unfold stop
  omega

theorem straight (h : r.size ≤ queueSize) :
    (r.base + r.offset) % queueSize + r.size ≤ queueSize := by
  have := padding_eq r.base r.size
  unfold offset queueSize at *
  omega

end Numbers

inductive Tiles : List Reservation → ℕ → Prop where
  | nil : Tiles [] 0
  | cons {r rs} : Tiles rs r.base → 0 < r.size → r.size ≤ queueSize → Tiles (r :: rs) r.stop

namespace Tiles

variable {rs : List Reservation} {r : Reservation} {upto : ℕ}

theorem dvd (h : Tiles rs upto) : 4 ∣ upto := by
  induction h with
  | nil => exact Nat.dvd_zero 4
  | cons _ _ _ ih => exact dvd_stop ih

theorem base_dvd (h : Tiles rs upto) (hr : r ∈ rs) : 4 ∣ r.base := by
  induction h with
  | nil => cases hr
  | cons hrs _ _ ih =>
    rcases mem_cons.mp hr with rfl | hr
    · exact hrs.dvd
    · exact ih hr

theorem size_le (h : Tiles rs upto) (hr : r ∈ rs) : 0 < r.size ∧ r.size ≤ queueSize := by
  induction h with
  | nil => cases hr
  | cons _ hpos hle ih =>
    rcases mem_cons.mp hr with rfl | hr
    · exact ⟨hpos, hle⟩
    · exact ih hr

theorem base_le_stop (r : Reservation) : r.base ≤ r.stop := by
  unfold stop
  omega

section

variable (h : Tiles rs upto)
include h

theorem stop_le (hr : r ∈ rs) : r.stop ≤ upto := by
  induction h with
  | nil => cases hr
  | cons _ _ _ ih =>
    rcases mem_cons.mp hr with rfl | hr
    · exact le_rfl
    · exact (ih hr).trans (base_le_stop _)

theorem pairwise : rs.Pairwise fun later earlier => earlier.stop ≤ later.base := by
  induction h with
  | nil => exact .nil
  | cons hrs _ _ ih => exact .cons (fun _ hr => hrs.stop_le hr) ih

theorem lt_iff (b : ℕ) : b < upto ↔ ∃ r ∈ rs, r.base ≤ b ∧ b < r.stop := by
  induction h with
  | nil => simp
  | @cons r rs hrs hpos hle ih =>
    rw [exists_mem_cons_iff, ← ih]
    have := base_le_stop r
    omega

theorem eq_of_mem {r' : Reservation} (hr : r ∈ rs) (hr' : r' ∈ rs) (hlt : r.base < r'.stop)
    (hlt' : r'.base < r.stop) : r = r' := by
  induction h with
  | nil => cases hr
  | cons hrs _ _ ih =>
    rcases mem_cons.mp hr with hm | hm <;> rcases mem_cons.mp hr' with hm' | hm'
    · exact hm.trans hm'.symm
    · have := hrs.stop_le hm'
      subst hm
      omega
    · have := hrs.stop_le hm
      subst hm'
      omega
    · exact ih hm hm'

theorem stop_le_of_lt {r' : Reservation} (hr : r ∈ rs) (hr' : r' ∈ rs) (hlt : r.base < r'.stop) :
    r.stop ≤ r'.stop := by
  grind [base_le_stop, eq_of_mem]

end

end Tiles

def holds : Producer → Option (Reservation × ℕ)
  | .placing r pending _ i _ => some (r, pending + 4 * i)
  | .submitting r pending | .wroteWptr r pending | .rang r pending => some (r, pending)
  | _ => none

structure Cursor (r : Reservation) (pending offset i : ℕ) (rest : List (List Dword)) : Prop where
  split : ∃ placed, r.packets = placed ++ rest ∧
    pending + offset = r.base + r.offset + 4 * placed.flatten.length ∧
      (offset = 0 ∨ placed = [] ∧ offset = r.offset)
  le : i ≤ offset / 4 + (rest.headD []).length

def Sized (packets : List (List Dword)) : Prop :=
  0 < sizeInBytes packets ∧ sizeInBytes packets ≤ queueSize

def ProducerOk (q : Queue) : Producer → Prop
  | .idle | .committed _ => True
  | .reserving packets | .loaded packets _ | .full packets _ | .refreshed packets _ => Sized packets
  | .sawRptr packets _ hw => Sized packets ∧ hw ≤ q.rptr
  | .fits packets cur =>
    Sized packets ∧ (Reservation.mk cur packets).stop < q.rptr + queueSize
  | .placing r pending offset i rest => Cursor r pending offset i rest
  | .submitting r pending | .wroteWptr r pending => q.committedWptr = r.base ∧ pending = r.stop
  | .rang r pending => q.committedWptr = r.base ∧ pending = r.stop ∧ q.doorbell = pending

def Filled (q : Queue) (r : Reservation) (upto : ℕ) : Prop :=
  ∀ k w, r.words[k]? = some w → r.base + 4 * k < upto → q.rptr ≤ r.base + 4 * k →
    q.queueBuf ((r.base + 4 * k) % queueSize / 4) = some (r.base + 4 * k, w)

structure Held (q : Queue) (r : Reservation) (upto : ℕ) : Prop where
  mem : r ∈ q.reservations
  committed_le : q.committedWptr ≤ r.base
  base_le : r.base ≤ upto
  le_stop : upto ≤ r.stop
  room : r.stop < q.rptr + queueSize
  filled : Filled q r upto

structure Stored (s : State N) (k b : ℕ) : Prop where
  dvd : 4 ∣ b
  slot : k = b % queueSize / 4
  lt_wptr : b < s.queue.cachedWptr
  room : b < s.queue.rptr + queueSize
  past : ∀ {p r u}, holds (s.producers p) = some (r, u) → r.base ≤ b → b < r.stop → b < u

structure Inv (s : State N) : Prop where
  tiles : Tiles s.queue.reservations s.queue.cachedWptr
  rptr_le : s.queue.rptr ≤ s.queue.doorbell
  cached_le : s.queue.cachedHwReadIndex ≤ s.queue.rptr
  committed_le : s.queue.committedWptr ≤ s.queue.cachedWptr
  doorbell : s.queue.doorbell = s.queue.committedWptr ∨
    ∃ p r, s.producers p = .rang r s.queue.doorbell
  producer : ∀ p, ProducerOk s.queue (s.producers p)
  held : ∀ {p r u}, holds (s.producers p) = some (r, u) → Held s.queue r u
  apart : ∀ {p p' r u u'}, holds (s.producers p) = some (r, u) →
    holds (s.producers p') = some (r, u') → p = p'
  written : ∀ {r}, r ∈ s.queue.reservations → r.stop ≤ s.queue.committedWptr →
    Filled s.queue r r.stop
  stored : ∀ {k b w}, s.queue.queueBuf k = some (b, w) → Stored s k b
  whole : ∀ {r}, r ∈ s.queue.reservations → r.base < s.queue.committedWptr →
    r.stop ≤ s.queue.committedWptr

def HasTurn (c : Producer) (r : Reservation) : Prop :=
  ∃ pending, c = .submitting r pending ∨ c = .wroteWptr r pending ∨ c = .rang r pending

variable {p' : Fin N}

section Lemmas

variable {q : Queue} {s : State N} {p : Fin N} {c : Producer} {r r' : Reservation} {u u' : ℕ}

theorem HasTurn.holds (h : HasTurn c r) : ∃ pending, holds c = some (r, pending) := by
  obtain ⟨pending, rfl | rfl | rfl⟩ := h <;> exact ⟨pending, rfl⟩

theorem ProducerOk.turn (h : ProducerOk q c) (ht : HasTurn c r) : q.committedWptr = r.base := by
  obtain ⟨pending, rfl | rfl | rfl⟩ := ht
  · exact h.1
  · exact h.1
  · exact h.1

theorem ProducerOk.transfer {q' : Queue} (h : ProducerOk q c) (hr : q.rptr ≤ q'.rptr)
    (hc : q'.committedWptr = q.committedWptr ∧ q'.doorbell = q.doorbell ∨ ∀ r, ¬ HasTurn c r) :
    ProducerOk q' c := by
  cases c with
  | idle | committed => trivial
  | reserving | loaded | full | refreshed | placing => exact h
  | sawRptr packets cur hw => exact ⟨h.1, h.2.trans hr⟩
  | fits packets cur => exact ⟨h.1, h.2.trans_le (Nat.add_le_add_right hr _)⟩
  | submitting r pending =>
    rcases hc with hc | hno
    · exact ⟨hc.1.trans h.1, h.2⟩
    · exact absurd ⟨pending, .inl rfl⟩ (hno r)
  | wroteWptr r pending =>
    rcases hc with hc | hno
    · exact ⟨hc.1.trans h.1, h.2⟩
    · exact absurd ⟨pending, .inr (.inl rfl)⟩ (hno r)
  | rang r pending =>
    rcases hc with hc | hno
    · exact ⟨hc.1.trans h.1, h.2.1, hc.2.trans h.2.2⟩
    · exact absurd ⟨pending, .inr (.inr rfl)⟩ (hno r)

theorem update_producers {P : Producer → Prop} {producers : Fin N → Producer} (hc : P c)
    (h : ∀ p', p' ≠ p → P (producers p')) (p' : Fin N) : P (update producers p c p') := by
  by_cases hp : p' = p
  · subst hp
    rwa [update_self]
  · rw [update_of_ne hp]
    exact h p' hp

namespace Inv

theorem disjoint (h : Inv s) (hp : holds (s.producers p) = some (r, u))
    (hp' : holds (s.producers p') = some (r', u')) (hne : p' ≠ p) :
    r.stop ≤ r'.base ∨ r'.stop ≤ r.base := by
  by_contra hno
  have heq := h.tiles.eq_of_mem (h.held hp).mem (h.held hp').mem (by omega) (by omega)
  subst heq
  exact hne (h.apart hp' hp)

theorem base_lt_stop (h : Inv s) (hr : r ∈ s.queue.reservations) : r.base < r.stop := by
  have := (h.tiles.size_le hr).1
  unfold stop
  omega

theorem turn_unique (h : Inv s) (hp : HasTurn (s.producers p) r)
    (hp' : HasTurn (s.producers p') r') : p' = p := by
  obtain ⟨u, hu⟩ := hp.holds
  obtain ⟨u', hu'⟩ := hp'.holds
  have hbase := (h.producer p).turn hp
  have hbase' := (h.producer p').turn hp'
  have hlt := h.base_lt_stop (h.held hu).mem
  have hlt' := h.base_lt_stop (h.held hu').mem
  by_contra hne
  have := h.disjoint hu hu' hne
  omega

theorem doorbell_le_base (h : Inv s) (hp : holds (s.producers p) = some (r, u))
    (hno : ∀ r, ¬ HasTurn (s.producers p) r) : s.queue.doorbell ≤ r.base := by
  have hcom := (h.held hp).committed_le
  rcases h.doorbell with heq | ⟨p', r', hp'⟩
  · exact heq.le.trans hcom
  · have hok := h.producer p'
    rw [hp'] at hok
    have hne : p' ≠ p := by
      rintro rfl
      exact hno r' ⟨_, .inr (.inr hp')⟩
    have hh : holds (s.producers p') = some (r', s.queue.doorbell) := by rw [hp']; rfl
    have hlt := h.base_lt_stop (h.held hp).mem
    have hbase := hok.1
    have := h.disjoint hp hh hne
    rw [hok.2.1]
    omega

theorem doorbell_update (h : Inv s) (hp : ∀ r, s.producers p ≠ .rang r s.queue.doorbell) :
    s.queue.doorbell = s.queue.committedWptr ∨
      ∃ p' r, update s.producers p c p' = .rang r s.queue.doorbell := by
  refine h.doorbell.imp_right fun ⟨p', r, hr⟩ => ⟨p', r, ?_⟩
  have hpp : p' ≠ p := by
    rintro rfl
    exact hp r hr
  exact (update_of_ne hpp ..).trans hr

end Inv

end Lemmas

variable {cur : ℕ}

section Steps

variable {s : State N} {p : Fin N} {c : Producer} {r : Reservation} {u : ℕ}

namespace Inv

theorem outside (h : Inv s) {hw m : ℕ} (hp : holds (s.producers p) = none)
    (hc : holds c = none) (hhw : hw ≤ s.queue.rptr) (hok : ProducerOk s.queue c) :
    Inv (s.after p ({ s.queue with cachedHwReadIndex := hw, maxWritePtr := m }, c)) := by
  have hheld : ∀ {p' r u}, holds (update s.producers p c p') = some (r, u) →
      p' ≠ p ∧ holds (s.producers p') = some (r, u) := by
    grind
  refine ⟨h.tiles, h.rptr_le, hhw, h.committed_le, h.doorbell_update fun r hr => ?_, ?_,
    fun hh => ?_, fun hh hh' => ?_, fun hr hle => h.written hr hle, fun hb => ?_, h.whole⟩
  · rw [hr] at hp
    cases hp
  · refine update_producers ?_ fun p' _ => (h.producer p').transfer le_rfl (.inl ⟨rfl, rfl⟩)
    exact hok.transfer le_rfl (.inl ⟨rfl, rfl⟩)
  · exact { h.held (hheld hh).2 with }
  · exact h.apart (hheld hh).2 (hheld hh').2
  · exact { h.stored hb with past := fun hh => (h.stored hb).past (hheld hh).2 }

theorem cas (h : Inv s) {packets : List (List Dword)}
    (hp : s.producers p = .fits packets cur) (hcur : s.queue.cachedWptr = cur) : Inv (s.after p
      ({ s.queue with
          cachedWptr := (Reservation.mk cur packets).stop
          reservations := ⟨cur, packets⟩ :: s.queue.reservations },
        .placing ⟨cur, packets⟩ cur (Reservation.mk cur packets).offset 0 packets)) := by
  obtain ⟨hsized, hroom⟩ : ProducerOk s.queue (.fits packets cur) := hp ▸ h.producer p
  subst hcur
  set new : Reservation := ⟨s.queue.cachedWptr, packets⟩ with hnew
  have hlt : new.base < new.stop := by
    have : 0 < new.size := hsized.1
    unfold stop
    omega
  have hpnone : holds (s.producers p) = none := by rw [hp]; rfl
  have hold : ∀ {p' r u}, p' ≠ p → holds (update s.producers p
      (.placing new new.base new.offset 0 packets) p') = some (r, u) →
      holds (s.producers p') = some (r, u) := by
    intro p' r u hpp hh
    rwa [update_of_ne hpp] at hh
  have hself : ∀ {r u}, holds (update s.producers p
      (.placing new new.base new.offset 0 packets) p) = some (r, u) →
      new = r ∧ new.base = u := by
    intro r u hh
    rw [update_self] at hh
    cases hh
    exact ⟨rfl, rfl⟩
  have hmem : ∀ {r}, r ∈ s.queue.reservations → r.stop ≤ new.base := fun hr => h.tiles.stop_le hr
  refine ⟨.cons h.tiles hsized.1 hsized.2, h.rptr_le, h.cached_le, h.committed_le.trans hlt.le,
    h.doorbell_update fun r hr => ?_, ?_, fun {p' r u} hh => ?_,
    fun {p' p'' r u u'} hh hh' => ?_, fun {r} hr hle => ?_, fun hb => ?_, fun {r} hr hlt' => ?_⟩
  · rw [hp] at hr
    cases hr
  · refine update_producers ⟨⟨[], rfl, ?_, .inr ⟨rfl, rfl⟩⟩, Nat.zero_le _⟩ fun p' _ =>
      (h.producer p').transfer le_rfl (.inl ⟨rfl, rfl⟩)
    simp [hnew]
  · by_cases hpp : p' = p
    · subst hpp
      obtain ⟨rfl, rfl⟩ := hself hh
      exact ⟨mem_cons_self, h.committed_le, le_rfl, hlt.le, hroom,
        fun _ _ _ hk => absurd hk (by omega)⟩
    · have hheld := h.held (hold hpp hh)
      exact { hheld with mem := mem_cons_of_mem _ hheld.mem }
  · -- the new reservation lies after all that are held
    have hne : ∀ {p' r u}, p' ≠ p → holds (s.producers p') = some (r, u) → r ≠ new := by
      intro p' r u _ hh hr
      have := h.base_lt_stop (h.held hh).mem
      have := hmem (h.held hh).mem
      rw [hr] at *
      omega
    by_cases hpp : p' = p <;> by_cases hpp' : p'' = p
    · exact hpp.trans hpp'.symm
    · subst hpp
      exact absurd (hself hh).1.symm (hne hpp' (hold hpp' hh'))
    · subst hpp'
      exact absurd (hself hh').1.symm (hne hpp (hold hpp hh))
    · exact h.apart (hold hpp hh) (hold hpp' hh')
  · rcases mem_cons.mp hr with rfl | hr
    · grind [State.after, Inv]
    · exact h.written hr hle
  · obtain ⟨hd, hslot, hltw, hroom', hpast⟩ := h.stored hb
    refine ⟨hd, hslot, hltw.trans hlt, hroom', fun {p' r u} hh hge hb' => ?_⟩
    by_cases hpp : p' = p
    · subst hpp
      obtain ⟨rfl, rfl⟩ := hself hh
      exact absurd hltw (Nat.not_lt.mpr hge)
    · exact hpast (hold hpp hh) hge hb'
  · rcases mem_cons.mp hr with rfl | hr
    · exact absurd hlt' (Nat.not_lt.mpr h.committed_le)
    · exact h.whole hr hlt'

theorem keep (h : Inv s) {w d : ℕ} (hp : holds (s.producers p) = some (r, u))
    (hc : holds c = some (r, u)) (hd : s.queue.rptr ≤ d)
    (hbell : d = s.queue.committedWptr ∨ ∃ p' r, update s.producers p c p' = .rang r d)
    (hok : ProducerOk { s.queue with wptr := w, doorbell := d } c)
    (hothers : ∀ p', p' ≠ p → d = s.queue.doorbell ∨ ∀ r, ¬ HasTurn (s.producers p') r) :
    Inv (s.after p ({ s.queue with wptr := w, doorbell := d }, c)) := by
  have hheld : ∀ {p' r u}, holds (update s.producers p c p') = some (r, u) →
      holds (s.producers p') = some (r, u) := by
    grind
  refine ⟨h.tiles, hd, h.cached_le, h.committed_le, hbell, ?_, fun hh => ?_, fun hh hh' => ?_,
    fun hr hle => h.written hr hle, fun hb => ?_, h.whole⟩
  · exact update_producers hok fun p' hpp => (h.producer p').transfer le_rfl
      ((hothers p' hpp).imp_left fun heq => ⟨rfl, heq⟩)
  · exact { h.held (hheld hh) with }
  · exact h.apart (hheld hh) (hheld hh')
  · exact { h.stored hb with past := fun hh => (h.stored hb).past (hheld hh) }

end Inv

end Steps

section Placing

variable {s : State N} {p : Fin N} {r : Reservation} {pending offset i slot pos : ℕ}
  {packet : List Dword} {rest : List (List Dword)} {w : Dword}

theorem slot_add {a k : ℕ} (ha : 4 ∣ a) (h : a % queueSize + 4 * k < queueSize) :
    a % queueSize / 4 + k = (a + 4 * k) % queueSize / 4 := by
  unfold queueSize at *
  omega

theorem Cursor.store (h : Cursor r pending offset i (packet :: rest)) (hbase : 4 ∣ r.base)
    (hsize : r.size ≤ queueSize) (hn : nextStore pending offset i packet = some (slot, pos, w)) :
    pos = pending + 4 * i ∧ slot = pos % queueSize / 4 ∧
      (∃ k, pos = r.base + 4 * k ∧ r.words[k]? = some w) ∧
      Cursor r pending offset (i + 1) (packet :: rest) := by
  obtain ⟨⟨placed, hpk, hsum, hoff⟩, hle⟩ := h
  have hdvd := dvd_offset hbase
  have hpad := padding_eq r.base r.size
  have hstr := straight hsize
  change (r.offset = 0 ∧ _) ∨ (_ + r.offset = _ ∧ _) at hpad
  unfold nextStore wrapIntoRing at hn
  split at hn
  next hi =>
    -- the padding comes first, so nothing has been placed
    obtain ⟨rfl, rfl⟩ : placed = [] ∧ offset = r.offset := hoff.resolve_left (by omega)
    obtain rfl : pending = r.base := by simpa using hsum
    cases hn
    refine ⟨rfl, ?_, ⟨i, rfl, ?_⟩, ⟨[], hpk, by simp, .inr ⟨rfl, rfl⟩⟩, ?_⟩
    · exact slot_add hbase (by omega)
    · rw [words, getElem?_append_left (by simpa using hi)]
      simp [hi]
    · omega
  next hi =>
    obtain ⟨w', hw', heq⟩ := Option.map_eq_some_iff.mp hn
    cases heq
    obtain ⟨hj, -⟩ := List.getElem?_eq_some_iff.mp hw'
    have hoff4 : 4 ∣ offset := by
      rcases hoff with rfl | ⟨-, rfl⟩
      · exact Nat.dvd_zero 4
      · exact hdvd
    have hflat : r.packets.flatten = placed.flatten ++ (packet ++ rest.flatten) := by
      rw [hpk, flatten_append, flatten_cons]
    have hlen : r.size = 4 * (placed.flatten.length + (packet.length + rest.flatten.length)) := by
      rw [size, sizeInBytes, hflat]
      simp
    refine ⟨by omega, ?_, ⟨r.offset / 4 + (placed.flatten.length + (i - offset / 4)), by omega, ?_⟩,
      ⟨placed, hpk, hsum, hoff⟩, ?_⟩
    · have hdvd' : 4 ∣ r.base + r.offset := Nat.dvd_add hbase hdvd
      rw [hsum, Nat.add_assoc _ (4 * placed.flatten.length), ← Nat.mul_add,
        ← slot_add hdvd' (by omega), ← slot_add hdvd' (by omega), Nat.add_assoc]
    · have hrange : ((range (r.offset / 4)).map (nop (r.offset / 4))).length =
        r.offset / 4 := by simp
      rw [words, getElem?_append_right (by omega), hrange, hflat,
        getElem?_append_right (by omega), getElem?_append_left (by omega)]
      rw [← hw']
      congr 1
      omega
    · change i + 1 ≤ offset / 4 + packet.length
      omega

theorem slot_ne {a b lo : ℕ} (ha : 4 ∣ a) (hb : 4 ∣ b) (hlo : lo ≤ a) (hlo' : lo ≤ b)
    (hhi : a < lo + queueSize) (hhi' : b < lo + queueSize) (hne : a ≠ b) :
    a % queueSize / 4 ≠ b % queueSize / 4 := by
  grind [queueSize]

theorem Filled.put {q : Queue} {r' : Reservation} {upto : ℕ} (h : Filled q r' upto)
    (hr' : 4 ∣ r'.base) (hpos : 4 ∣ pos) (hge : q.rptr ≤ pos) (hroom : pos < q.rptr + queueSize)
    (hslot : slot = pos % queueSize / 4)
    (hupto : ∀ b, r'.base ≤ b → b < upto → b < q.rptr + queueSize ∧ b ≠ pos) :
    Filled (q.put slot pos w) r' upto := by
  intro k w' hw' hlt hle
  have hk := hupto _ (Nat.le_add_right _ _) hlt
  have hne := slot_ne (a := r'.base + 4 * k) (by omega) hpos hle hge hk.1 hroom hk.2
  rw [← hslot] at hne
  exact (update_of_ne hne ..).trans (h k w' hw' hlt hle)

namespace Inv

theorem rptr_le_base (h : Inv s)
    (hp : s.producers p = .placing r pending offset i rest) : s.queue.rptr ≤ r.base := by
  refine h.rptr_le.trans (h.doorbell_le_base (p := p) (u := pending + 4 * i) (by rw [hp]; rfl) ?_)
  rintro r' ⟨pending', hr' | hr' | hr'⟩ <;> rw [hp] at hr' <;> cases hr'

theorem store (h : Inv s) (hp : s.producers p = .placing r pending offset i (packet :: rest))
    (hn : nextStore pending offset i packet = some (slot, pos, w)) : Inv (s.after p
      (s.queue.put slot pos w, .placing r pending offset (i + 1) (packet :: rest))) := by
  have hh : holds (s.producers p) = some (r, pending + 4 * i) := by rw [hp]; rfl
  have hheld := h.held hh
  have hbase := h.tiles.base_dvd hheld.mem
  have hcur : Cursor r pending offset i (packet :: rest) :=
    show ProducerOk s.queue (.placing r pending offset i (packet :: rest)) from hp ▸ h.producer p
  obtain ⟨hpos, hslot, ⟨k, hk, hw⟩, hcur'⟩ := hcur.store hbase (h.tiles.size_le hheld.mem).2 hn
  have hklt := (List.getElem?_eq_some_iff.mp hw).1
  have hstop := length_words hbase
  have hge := (h.rptr_le_base hp).trans (show r.base ≤ pos by omega)
  have hroom := hheld.room
  have hnew : ∀ {p' r' u}, holds (update s.producers p
      (.placing r pending offset (i + 1) (packet :: rest)) p') = some (r', u) →
      (p' = p ∧ r' = r ∧ u = pos + 4) ∨ (p' ≠ p ∧ holds (s.producers p') = some (r', u)) := by
    intro p' r' u hh'
    by_cases hpp : p' = p
    · subst hpp
      rw [update_self] at hh'
      cases hh'
      exact .inl ⟨rfl, rfl, by omega⟩
    · rw [update_of_ne hpp] at hh'
      exact .inr ⟨hpp, hh'⟩
  refine ⟨h.tiles, h.rptr_le, h.cached_le, h.committed_le, h.doorbell_update fun r' hr' => ?_, ?_,
    fun {p' r' u} hh' => ?_, fun {p' p'' r' u u'} hh' hh'' => ?_, fun {r'} hr' hle => ?_,
    fun {k' b w'} hb => ?_, h.whole⟩
  · rw [hp] at hr'
    cases hr'
  · exact update_producers hcur' fun p' _ => (h.producer p').transfer le_rfl (.inl ⟨rfl, rfl⟩)
  · rcases hnew hh' with ⟨rfl, rfl, rfl⟩ | ⟨hpp, hold⟩
    · refine ⟨hheld.mem, hheld.committed_le, by omega, by omega, hroom, ?_⟩
      intro k' w' hw' hlt hle
      by_cases hkk : k' = k
      · subst hkk
        obtain rfl : w = w' := Option.some.inj (hw.symm.trans hw')
        rw [← hk, ← hslot]
        exact update_self ..
      · have hfill : Filled (s.queue.put slot pos w) r' (pending + 4 * i) :=
          hheld.filled.put hbase (by omega) hge (by omega) hslot
            fun b _ hb => ⟨by omega, by omega⟩
        exact hfill k' w' hw' (by omega) hle
    · obtain ⟨hm, hcom, hb, hle, hroom', hfill⟩ := h.held hold
      refine ⟨hm, hcom, hb, hle, hroom', hfill.put (h.tiles.base_dvd hm) (by omega) hge (by omega)
        hslot fun b hb' hb'' => ⟨by omega, fun heq => ?_⟩⟩
      have := h.disjoint hh hold hpp
      omega
  · rcases hnew hh' with ⟨rfl, rfl, -⟩ | ⟨hpp, hold⟩ <;>
      rcases hnew hh'' with ⟨rfl, hr, -⟩ | ⟨hpp', hold'⟩
    · rfl
    · exact h.apart hh hold'
    · subst hr
      exact h.apart hold hh
    · exact h.apart hold hold'
  · have hcom := hheld.committed_le
    have hle' : r'.stop ≤ s.queue.committedWptr := hle
    exact (h.written hr' hle).put (h.tiles.base_dvd hr') (by omega) hge (by omega) hslot
      fun b _ hb => ⟨by omega, by omega⟩
  · by_cases hkk : k' = slot
    · subst hkk
      change update s.queue.queueBuf k' (some (pos, w)) k' = some (b, w') at hb
      rw [update_self] at hb
      cases hb
      refine ⟨by omega, hslot, ?_, show pos < s.queue.rptr + queueSize by omega,
        fun {p' r' u} hh' hb hb' => ?_⟩
      · have := h.tiles.stop_le hheld.mem
        change pos < s.queue.cachedWptr
        omega
      · rcases hnew hh' with ⟨-, -, rfl⟩ | ⟨hpp, hold⟩
        · omega
        · have := h.disjoint hh hold hpp
          omega
    · have hb' : s.queue.queueBuf k' = some (b, w') := (update_of_ne hkk ..).symm.trans hb
      obtain ⟨hd, hsl, hlt, hr, hpast⟩ := h.stored hb'
      refine ⟨hd, hsl, hlt, hr, fun {p' r' u} hh' hge' hlt' => ?_⟩
      rcases hnew hh' with ⟨-, rfl, rfl⟩ | ⟨-, hold⟩
      · have := hpast hh hge' hlt'
        omega
      · exact hpast hold hge' hlt'

end Inv

end Placing

variable {x : Queue × Producer}

section Submitting

variable {s t : State N} {p : Fin N} {r : Reservation} {pending offset i : ℕ}
  {packet : List Dword} {rest : List (List Dword)} {a : Action} {e : Event N}

theorem Cursor.next (h : Cursor r pending offset i (packet :: rest)) :
    Cursor r (pending + offset + 4 * packet.length) 0 0 rest := by
  obtain ⟨⟨placed, hpk, hsum, -⟩, -⟩ := h
  refine ⟨⟨placed ++ [packet], by simp [hpk], ?_, .inl rfl⟩, Nat.zero_le _⟩
  simp only [flatten_append, flatten_singleton, length_append]
  omega

theorem Cursor.last (h : Cursor r pending offset i []) (hsize : 0 < r.size) :
    pending = r.stop ∧ i = 0 := by
  obtain ⟨⟨placed, hpk, hsum, hoff⟩, hle⟩ := h
  rw [append_nil] at hpk
  have hlen : r.size = 4 * placed.flatten.length := by rw [size, sizeInBytes, hpk]
  have hoff0 : offset = 0 := by
    rcases hoff with hoff | ⟨rfl, -⟩
    · exact hoff
    · simp only [flatten_nil, length_nil] at hlen
      omega
  subst hoff0
  unfold stop
  simp only [headD_nil, length_nil] at hle
  omega

namespace Inv

section

variable (h : Inv s)
include h

theorem next (hp : s.producers p = .placing r pending offset i (packet :: rest))
    (hi : i = offset / 4 + packet.length) :
    Inv (s.after p (s.queue, .placing r (pending + offset + 4 * packet.length) 0 0 rest)) := by
  have hh : holds (s.producers p) = some (r, pending + 4 * i) := by rw [hp]; rfl
  have hcur : Cursor r pending offset i (packet :: rest) :=
    show ProducerOk s.queue (.placing r pending offset i (packet :: rest)) from hp ▸ h.producer p
  have hdvd : 4 ∣ offset := by
    obtain ⟨placed, -, -, hoff⟩ := hcur.split
    rcases hoff with rfl | ⟨-, rfl⟩
    · exact Nat.dvd_zero 4
    · exact dvd_offset (h.tiles.base_dvd (h.held hh).mem)
  refine h.keep hh ?_ h.rptr_le (h.doorbell_update fun r' hr' => ?_) hcur.next
    fun p' _ => .inl rfl
  · have heq : pending + offset + 4 * packet.length + 4 * 0 = pending + 4 * i := by omega
    exact congrArg (fun u => some (r, u)) heq
  · rw [hp] at hr'
    cases hr'

theorem turn (hp : s.producers p = .placing r pending offset i [])
    (hbase : s.queue.committedWptr = r.base) :
    Inv (s.after p (s.queue, .submitting r pending)) := by
  have hh : holds (s.producers p) = some (r, pending + 4 * i) := by rw [hp]; rfl
  have hcur : Cursor r pending offset i [] :=
    show ProducerOk s.queue (.placing r pending offset i []) from hp ▸ h.producer p
  obtain ⟨hpend, rfl⟩ := hcur.last (h.tiles.size_le (h.held hh).mem).1
  refine h.keep hh rfl h.rptr_le (h.doorbell_update fun r' hr' => ?_) ⟨hbase, hpend⟩
    fun p' _ => .inl rfl
  rw [hp] at hr'
  cases hr'

theorem storeWptr (hp : s.producers p = .submitting r pending) :
    Inv (s.after p ({ s.queue with wptr := pending }, .wroteWptr r pending)) := by
  have hok : ProducerOk s.queue (.submitting r pending) := hp ▸ h.producer p
  refine h.keep (by rw [hp]; rfl) rfl h.rptr_le (h.doorbell_update fun r' hr' => ?_)
    ⟨hok.1, hok.2⟩ fun p' _ => .inl rfl
  rw [hp] at hr'
  cases hr'

theorem doorbell_eq_base (hp : s.producers p = .wroteWptr r pending) :
    s.queue.doorbell = r.base := by
  have hok : ProducerOk s.queue (.wroteWptr r pending) := hp ▸ h.producer p
  rcases h.doorbell with heq | ⟨p', r', hr'⟩
  · exact heq.trans hok.1
  · have hpp := h.turn_unique ⟨pending, .inr (.inl hp)⟩ ⟨_, .inr (.inr hr')⟩
    rw [hpp, hp] at hr'
    cases hr'

theorem ring (hp : s.producers p = .wroteWptr r pending) :
    Inv (s.after p ({ s.queue with doorbell := pending }, .rang r pending)) := by
  have hok : ProducerOk s.queue (.wroteWptr r pending) := hp ▸ h.producer p
  have hbell := h.doorbell_eq_base hp
  have hle := Tiles.base_le_stop r
  have hrptr := h.rptr_le
  have hpend := hok.2
  refine h.keep (by rw [hp]; rfl) rfl (by omega) (.inr ⟨p, r, update_self ..⟩)
    ⟨hok.1, hok.2, rfl⟩ fun p' hpp => .inr fun r' hr' => ?_
  exact hpp (h.turn_unique ⟨pending, .inr (.inl hp)⟩ hr')

theorem commit (hp : s.producers p = .rang r pending) :
    Inv (s.after p ({ s.queue with committedWptr := pending }, .committed pending)) := by
  obtain ⟨hbase, rfl, hbell⟩ : ProducerOk s.queue (.rang r pending) := hp ▸ h.producer p
  have hh : holds (s.producers p) = some (r, r.stop) := by rw [hp]; rfl
  have hheld := h.held hh
  have hpos := h.base_lt_stop hheld.mem
  have hold : ∀ {p' r' u}, holds (update s.producers p (.committed r.stop) p') =
      some (r', u) → p' ≠ p ∧ holds (s.producers p') = some (r', u) := by
    grind [holds]
  refine ⟨h.tiles, h.rptr_le, h.cached_le, h.tiles.stop_le hheld.mem, .inl hbell, ?_,
    fun {p' r' u} hh' => ?_, fun hh' hh'' => h.apart (hold hh').2 (hold hh'').2,
    fun {r'} hr' hle => ?_, fun hb => ?_, fun hr' hlt => h.tiles.stop_le_of_lt hr' hheld.mem hlt⟩
  · refine update_producers trivial fun p' hpp => (h.producer p').transfer le_rfl (.inr ?_)
    exact fun r' hr' => hpp (h.turn_unique ⟨r.stop, .inr (.inr hp)⟩ hr')
  · -- what the others hold lies after the reservation just submitted
    obtain ⟨hpp, hh'⟩ := hold hh'
    obtain ⟨hm, hcom, hb, hle, hroom, hfill⟩ := h.held hh'
    have := h.disjoint hh hh' hpp
    have := h.base_lt_stop hm
    exact ⟨hm, show r.stop ≤ r'.base by omega, hb, hle, hroom, hfill⟩
  · by_cases hle' : r'.stop ≤ s.queue.committedWptr
    · exact h.written hr' hle'
    · have hstop : r'.stop ≤ r.stop := hle
      have hpos' := h.base_lt_stop hr'
      obtain rfl := h.tiles.eq_of_mem hr' hheld.mem (by omega) (by omega)
      exact hheld.filled
  · exact { h.stored hb with past := fun hh => (h.stored hb).past (hold hh).2 }

theorem read {n : ℕ} (hn : s.queue.rptr + n ≤ s.queue.doorbell) :
    Inv { s with queue := { s.queue with rptr := s.queue.rptr + n } } := by
  have hle : s.queue.rptr ≤ s.queue.rptr + n := Nat.le_add_right _ _
  have hfilled : ∀ {r u}, Filled s.queue r u →
      Filled { s.queue with rptr := s.queue.rptr + n } r u :=
    fun hf k w hw hlt hk => hf k w hw hlt (hle.trans hk)
  refine ⟨h.tiles, hn, h.cached_le.trans hle, h.committed_le, h.doorbell,
    fun p => (h.producer p).transfer hle (.inl ⟨rfl, rfl⟩), fun hh => ?_, h.apart,
    fun hr hc => hfilled (h.written hr hc), fun hb => ?_, h.whole⟩
  · grind [Inv, Held]
  · grind [Inv, Stored]

theorem room_of_canWriteUpto {upto : ℕ} (hc : canWriteUpto upto s.queue.cachedHwReadIndex = true) :
    upto < s.queue.rptr + queueSize := by
  have := h.cached_le
  simp only [canWriteUpto, Bool.and_eq_true, decide_eq_true_eq] at hc
  omega

theorem producerStep (hs : producerStep s.queue (s.producers p) a = some x) :
    Inv (s.after p x) := by
  have hok := h.producer p
  generalize hp : s.producers p = c at hs
  rw [hp] at hok
  have hnone : holds c = none → holds (s.producers p) = none := fun hc => hp ▸ hc
  rw [SdmaRing.producerStep.eq_def] at hs
  split at hs
  · split at hs
    next hsz =>
      cases hs
      exact h.outside (hnone rfl) rfl h.cached_le hsz
    · cases hs
  · cases hs
    exact h.outside (hnone rfl) rfl h.cached_le hok
  · cases hs
    refine h.outside (hnone rfl) (by split <;> rfl) h.cached_le ?_
    split
    next hc => exact ⟨hok, h.room_of_canWriteUpto hc⟩
    · exact hok
  · cases hs
    exact h.outside (hnone rfl) rfl h.cached_le ⟨hok, le_rfl⟩
  · cases hs
    exact h.outside (hnone rfl) rfl hok.2 hok.1
  · cases hs
    refine h.outside (hnone rfl) (by split <;> rfl) h.cached_le ?_
    split
    next hc => exact ⟨hok, h.room_of_canWriteUpto hc⟩
    · exact hok
  · split at hs
    next hcur =>
      cases hs
      exact h.cas hp hcur
    · cases hs
      exact h.outside (hnone rfl) rfl h.cached_le hok.1
  · obtain ⟨⟨slot, pos, w⟩, hn, rfl⟩ := Option.map_eq_some_iff.mp hs
    exact h.store hp hn
  · split at hs
    next hi =>
      cases hs
      exact h.next hp hi
    · cases hs
  · split at hs
    next hbase =>
      cases hs
      exact h.turn hp hbase
    · cases hs
  · cases hs
    exact h.storeWptr hp
  · cases hs
    exact h.ring hp
  · cases hs
    exact h.commit hp
  · cases hs
    exact h.outside (hnone rfl) rfl h.cached_le trivial
  · cases hs

theorem step (hs : SdmaRing.step s e = some t) : Inv t := by
  cases e with
  | producer p a =>
    obtain ⟨x, hx, rfl⟩ := Option.map_eq_some_iff.mp hs
    exact h.producerStep hx
  | read n =>
    rw [SdmaRing.step] at hs
    split at hs
    next hn =>
      cases hs
      exact h.read hn
    · cases hs

end

theorem initial : Inv (SdmaRing.initial N) :=
  ⟨.nil, le_rfl, le_rfl, le_rfl, .inl rfl, fun _ => trivial, nofun, nofun, nofun, nofun, nofun⟩

end Inv

theorem inv_of_run {ok : State N → Event N → Prop} (h : (machine N).Run ok s) : Inv s :=
  h.ofStep_induct .initial fun _ _ _ hs _ he => hs.step he

end Submitting

section Results

variable {s t : State N} {e : Event N}

def overwritten (s : State N) : Event N → Option ℕ
  | .producer p .store =>
    match s.producers p with
    | .placing _ pending offset i (packet :: _) =>
      (nextStore pending offset i packet).bind fun (slot, _, _) =>
        (s.queue.queueBuf slot).map Prod.fst
    | _ => none
  | _ => none

namespace Inv

theorem overwritten_le (h : Inv s) {b : ℕ} (hb : overwritten s e = some b) :
    b + 4 ≤ s.queue.rptr := by
  rw [overwritten.eq_def] at hb
  split at hb
  next p =>
    split at hb
    next r pending offset i packet rest hp =>
      obtain ⟨⟨slot, pos, w⟩, hn, hb⟩ := Option.bind_eq_some_iff.mp hb
      obtain ⟨⟨b', w'⟩, hbuf, rfl⟩ := Option.map_eq_some_iff.mp hb
      have hh : holds (s.producers p) = some (r, pending + 4 * i) := by rw [hp]; rfl
      have hheld := h.held hh
      have hbase := h.tiles.base_dvd hheld.mem
      have hcur : ProducerOk s.queue (.placing r pending offset i (packet :: rest)) :=
        hp ▸ h.producer p
      obtain ⟨hpos, hslot, ⟨k, hk, hw⟩, -⟩ :=
        Cursor.store hcur hbase (h.tiles.size_le hheld.mem).2 hn
      have hklt := (List.getElem?_eq_some_iff.mp hw).1
      have hstop := length_words hbase
      have hge := h.rptr_le_base hp
      have hroom := hheld.room
      obtain ⟨hd, hsl, -, hroom', hpast⟩ := h.stored hbuf
      have hmod : b' % queueSize = pos % queueSize := by
        rw [hsl] at hslot
        unfold queueSize at *
        omega
      have hne : b' < pos := by
        grind [queueSize]
      have := WrappingRings.add_le_of_mod_eq hmod hne
      change b' + 4 ≤ _
      omega
    · cases hb
  · cases hb

theorem doorbell_mono (h : Inv s) (hs : SdmaRing.step s e = some t) :
    s.queue.doorbell ≤ t.queue.doorbell := by
  cases e with
  | producer p a =>
    obtain ⟨x, hx, rfl⟩ := Option.map_eq_some_iff.mp hs
    generalize hp : s.producers p = c at hx
    rw [SdmaRing.producerStep.eq_def] at hx
    split at hx
    case h_12 r pending =>
      cases hx
      have hok : ProducerOk s.queue (.wroteWptr r pending) := hp ▸ h.producer p
      have := Tiles.base_le_stop r
      rw [h.doorbell_eq_base hp]
      exact this.trans hok.2.ge
    case h_8 =>
      obtain ⟨-, -, rfl⟩ := Option.map_eq_some_iff.mp hx
      exact le_rfl
    all_goals
      try split at hx
      all_goals
        cases hx
        try exact le_rfl
  | read n =>
    rw [SdmaRing.step] at hs
    split at hs <;> cases hs
    exact le_rfl

theorem covered (h : Inv s) {r : Reservation} (hr : r ∈ s.queue.reservations)
    (hlt : r.base < s.queue.doorbell) : r.stop ≤ s.queue.doorbell ∧ Filled s.queue r r.stop := by
  rcases h.doorbell with heq | ⟨p, r', hp⟩
  · rw [heq] at hlt ⊢
    have hle := h.whole hr hlt
    exact ⟨hle, h.written hr hle⟩
  · obtain ⟨hbase, hstop, -⟩ : ProducerOk s.queue (.rang r' s.queue.doorbell) := hp ▸ h.producer p
    have hheld : Held s.queue r' s.queue.doorbell := h.held (by rw [hp]; rfl)
    rw [hstop] at hlt hheld ⊢
    refine ⟨h.tiles.stop_le_of_lt hr hheld.mem hlt, ?_⟩
    by_cases hcom : r.stop ≤ s.queue.committedWptr
    · exact h.written hr hcom
    · obtain rfl := h.tiles.eq_of_mem hr hheld.mem hlt (by omega)
      exact hheld.filled

end Inv

theorem producerStep_counts {q : Queue} {c : Producer} {a : Action}
    (h : producerStep q c a = some x) (hc : ∀ u, c ≠ .committed u) :
    x.1.rptr = q.rptr ∧ x.1.maxWritePtr = q.maxWritePtr ∧
      ((x.1.committedWptr = q.committedWptr ∧ ∀ u, x.2 ≠ .committed u) ∨
        ∃ r u, a = .commit ∧ c = .rang r u ∧ x.1.committedWptr = u ∧ x.2 = .committed u) := by
  rw [producerStep.eq_def] at h
  split at h
  case h_13 r u =>
    cases h
    exact ⟨rfl, rfl, .inr ⟨r, u, rfl, rfl, rfl, rfl⟩⟩
  case h_14 u => exact absurd rfl (hc u)
  case h_8 =>
    obtain ⟨-, -, rfl⟩ := Option.map_eq_some_iff.mp h
    exact ⟨rfl, rfl, .inl ⟨rfl, nofun⟩⟩
  case h_3 | h_6 =>
    cases h
    refine ⟨rfl, rfl, .inl ⟨rfl, fun u => ?_⟩⟩
    split <;> nofun
  all_goals
    try split at h
    all_goals
      cases h
      try exact ⟨rfl, rfl, .inl ⟨rfl, nofun⟩⟩

/-- In every run the reserved ranges follow each other without gap or overlap, a store hits a
dword that the engine has consumed, no packet crosses the end of the ring and the padding fills
what is left of it, the doorbell does not go back, and it covers whole reservations, of which
everything that the engine has not consumed is in the ring. -/
theorem ring_sound {s t : State N} {e : Event N} (hrun : (machine N).Run anyStep s)
    (hs : step s e = some t) :
    (s.queue.reservations.Pairwise (fun later earlier => earlier.stop ≤ later.base) ∧
      ∀ b, b < s.queue.cachedWptr ↔ ∃ r ∈ s.queue.reservations, r.base ≤ b ∧ b < r.stop) ∧
    (∀ b, overwritten s e = some b → b + 4 ≤ s.queue.rptr) ∧
    (∀ r ∈ s.queue.reservations, wrapIntoRing (r.base + r.offset) + r.size ≤ queueSize ∧
      (r.offset = 0 ∨ wrapIntoRing r.base + 4 * (r.offset / 4) = queueSize)) ∧
    s.queue.doorbell ≤ t.queue.doorbell ∧
    (∀ r ∈ s.queue.reservations, r.base < s.queue.doorbell →
      r.stop ≤ s.queue.doorbell ∧ Filled s.queue r r.stop) := by
  have h := inv_of_run hrun
  refine ⟨⟨h.tiles.pairwise, h.tiles.lt_iff⟩, fun b hb => h.overwritten_le hb, fun r hr => ?_,
    h.doorbell_mono hs, fun r hr hlt => h.covered hr hlt⟩
  refine ⟨straight (h.tiles.size_le hr).2, ?_⟩
  have hdvd := dvd_offset (h.tiles.base_dvd hr)
  have hpad := padding_eq r.base r.size
  change (r.offset = 0 ∧ _) ∨ (_ + r.offset = _ ∧ _) at hpad
  unfold wrapIntoRing
  omega

theorem ring_sound_first :
    ∃ s t : State 1, (machine 1).Run anyStep s ∧ step s (.read 4) = some t ∧
      ⟨0, [[7]]⟩ ∈ s.queue.reservations ∧ s.queue.doorbell = 4 ∧
      Filled s.queue ⟨0, [[7]]⟩ (Reservation.mk 0 [[7]]).stop := by
  obtain ⟨s, hrun, hP⟩ := run_of_replay (machine 1) anyStep
    ([.start [[7]], .load, .test, .cas, .store, .next, .turn, .storeWptr, .ring].map (.producer 0))
    (fun s => (step s (.read 4)).isSome ∧ ⟨0, [[7]]⟩ ∈ s.queue.reservations ∧
      s.queue.doorbell = 4) (by decide +kernel)
  obtain ⟨t, ht⟩ := Option.isSome_iff_exists.mp hP.1
  have hcov := (ring_sound hrun ht).2.2.2.2 ⟨0, [[7]]⟩ hP.2.1 (by rw [hP.2.2]; decide)
  exact ⟨s, t, hrun, ht, hP.2.1, hP.2.2, hcov.2⟩

end Results

section QuietTarget

variable {s t : State N} {e : Event N}

def Producer.published : Producer → Bool
  | .committed _ => false
  | _ => true

/-- `committedWptr` is stored after the producer before has stored `maxWritePtr`. -/
def Published (s : State N) (e : Event N) : Prop :=
  (∃ p, e = .producer p .commit) → ∀ p, (s.producers p).published = true

instance : Decidable (Published s e) := inferInstanceAs (Decidable (_ → _))

structure Targets (s : State N) : Prop where
  le : s.queue.maxWritePtr ≤ s.queue.committedWptr
  last : ∀ p u, s.producers p = .committed u → u = s.queue.committedWptr

theorem committed_after {p : Fin N} {u : ℕ}
    (h : (s.after p x).producers p' = .committed u) :
    x.2 = .committed u ∨ p' ≠ p ∧ s.producers p' = .committed u := by
  change update s.producers p x.2 p' = _ at h
  by_cases hp : p' = p
  · rw [hp, update_self] at h
    exact .inl h
  · rw [update_of_ne hp] at h
    exact .inr ⟨hp, h⟩

theorem Targets.step (h : Targets s) (hinv : Inv s) (hok : Published s e)
    (hs : SdmaRing.step s e = some t) :
    Targets t ∧ s.queue.maxWritePtr ≤ t.queue.maxWritePtr := by
  cases e with
  | read n =>
    rw [SdmaRing.step] at hs
    split at hs <;> cases hs
    exact ⟨⟨h.le, h.last⟩, le_rfl⟩
  | producer p a =>
    obtain ⟨x, hx, rfl⟩ := Option.map_eq_some_iff.mp hs
    by_cases hc : ∃ u, s.producers p = .committed u
    · obtain ⟨u, hp⟩ := hc
      have hu := h.last p u hp
      rw [hp] at hx
      cases a <;> cases hx
      refine ⟨⟨hu.le, fun p' u' hp' => ?_⟩, h.le.trans_eq hu.symm⟩
      rcases committed_after hp' with hidle | ⟨-, hp'⟩
      · cases hidle
      · exact h.last p' u' hp'
    · push Not at hc
      obtain ⟨-, hmax, ⟨hcom, hnot⟩ | ⟨r, u, rfl, hp, hcom, hnext⟩⟩ := producerStep_counts hx hc
      · refine ⟨⟨?_, fun p' u' hp' => ?_⟩, hmax.ge⟩
        · exact hmax.trans_le (h.le.trans_eq hcom.symm)
        · rcases committed_after hp' with hnew | ⟨-, hp'⟩
          · exact absurd hnew (hnot u')
          · exact (h.last p' u' hp').trans hcom.symm
      · -- the producer takes over at the end of its reservation, and no other store is pending
        obtain ⟨hbase, hstop, -⟩ : ProducerOk s.queue (.rang r u) := hp ▸ hinv.producer p
        have hle : s.queue.committedWptr ≤ u := by
          rw [hbase, hstop]
          exact Tiles.base_le_stop r
        refine ⟨⟨?_, fun p' u' hp' => ?_⟩, hmax.ge⟩
        · exact hmax.trans_le (h.le.trans (hle.trans_eq hcom.symm))
        · rcases committed_after hp' with hnew | ⟨-, hp'⟩
          · cases hnext.symm.trans hnew
            exact hcom.symm
          · have hpub := hok ⟨p, rfl⟩ p'
            rw [hp'] at hpub
            cases hpub

theorem targets_of_run (h : (machine N).Run Published s) : Inv s ∧ Targets s :=
  h.ofStep_induct (I := fun s => Inv s ∧ Targets s) ⟨.initial, le_rfl, nofun⟩
    fun _ _ _ hs hok he => ⟨hs.1.step he, (hs.2.step hs.1 hok he).1⟩

/-- The runs that go on from a state. -/
def later (s : State N) : Machine (State N) (Event N) := .ofStep s step

theorem quiet_target (hrun : (machine N).Run Published s) :
    (∀ e t, Published s e → step s e = some t → s.queue.maxWritePtr ≤ t.queue.maxWritePtr) ∧
    ∀ p u t t', s.producers p = .committed u → step s (.producer p .publish) = some t →
      (later t).Run Published t' → u ≤ t'.queue.maxWritePtr ∧
        ∀ t'', (later t').Run Published t'' → t'.queue.maxWritePtr ≤ t''.queue.rptr →
          u ≤ t''.queue.rptr := by
  have h := targets_of_run hrun
  refine ⟨fun e t hok hs => (h.2.step h.1 hok hs).2, fun p u t t' hp hs hlater => ?_⟩
  have ht := h.2.step h.1 (fun ⟨_, hne⟩ => by cases hne) hs
  have hu : t.queue.maxWritePtr = u := by
    rw [step, hp] at hs
    cases hs
    rfl
  have hkept : (Inv t' ∧ Targets t') ∧ u ≤ t'.queue.maxWritePtr :=
    hlater.ofStep_induct (I := fun t' => (Inv t' ∧ Targets t') ∧ u ≤ t'.queue.maxWritePtr)
      ⟨⟨h.1.step hs, ht.1⟩, hu.ge⟩ fun _ _ _ hi hok he =>
        have hnext := hi.1.2.step hi.1.1 hok he
        ⟨⟨hi.1.1.step he, hnext.1⟩, hi.2.trans hnext.2⟩
  exact ⟨hkept.2, fun t'' _ hread => hkept.2.trans hread⟩

def submit (p : Fin N) : List (Event N) :=
  [.start [[7]], .load, .test, .cas, .store, .next, .turn, .storeWptr, .ring, .commit].map
    (.producer p)

theorem quiet_target_first : ∃ s t t' : State 2, (machine 2).Run Published s ∧
    s.producers 0 = .committed 4 ∧ step s (.producer 0 .publish) = some t ∧
    (later t).Run Published t' ∧ 4 ≤ t'.queue.rptr := by
  obtain ⟨s, hrun, hP⟩ := run_of_replay (machine 2) Published (submit 0)
    (fun s => s.producers 0 = .committed 4 ∧
      ((step s (.producer 0 .publish)).bind (step · (.read 4))).any fun t' : State 2 =>
        decide (t'.queue.maxWritePtr ≤ t'.queue.rptr)) (by decide +kernel)
  simp only [decide_eq_true_eq, Option.any_eq_true, Option.bind_eq_some_iff] at hP
  obtain ⟨hp, t', ⟨t, ht, ht'⟩, hle⟩ := hP
  have hread : (later t).Run Published t' := Machine.Run.init.then (fun ⟨_, h⟩ => by cases h) ht'
  have hu := (quiet_target hrun).2 0 4 t t' hp ht hread
  exact ⟨s, t, t', hrun, hp, ht, hread, hu.1.trans hle⟩

/-- Producer 0 stores its index after producer 1, whose packet ends at 8. -/
theorem quiet_target_lowered : ∃ s t : State 2, (machine 2).Run anyStep s ∧
    step s (.producer 0 .publish) = some t ∧ s.producers 1 = .idle ∧
    ⟨4, [[7]]⟩ ∈ s.queue.reservations ∧ s.queue.maxWritePtr = 8 ∧ t.queue.maxWritePtr = 4 ∧
    t.queue.rptr = 4 := by
  obtain ⟨s, hrun, hP⟩ := run_of_replay (machine 2) anyStep
    (submit 0 ++ submit 1 ++ [.producer 1 .publish, .read 4])
    (fun s => ((step s (.producer 0 .publish)).any fun t =>
        t.queue.maxWritePtr == 4 && t.queue.rptr == 4) ∧ s.producers 1 = .idle ∧
      ⟨4, [[7]]⟩ ∈ s.queue.reservations ∧ s.queue.maxWritePtr = 8) (by decide +kernel)
  simp only [Bool.and_eq_true, beq_iff_eq, Option.any_eq_true] at hP
  obtain ⟨⟨t, ht, hmax, hread⟩, hidle, hmem, hold⟩ := hP
  exact ⟨s, t, hrun, ht, hidle, hmem, hold, hmax, hread⟩

end QuietTarget

section SingleProducer

/-- The words on which a producer of `SdmaQueueSingleProducerDeviceHandle` waits. The reader
consumes what was submitted, so its index comes to `wptr`; `none` is a wait that never ends. -/
structure Handle where
  cachedWptr : ℕ
  committedWptr : ℕ
  wptr : ℕ

namespace Handle

def initial : Handle := ⟨0, 0, 0⟩

def padRingToEnd (s : Handle) : Option Handle :=
  let newIndex := s.cachedWptr + (queueSize - wrapIntoRing s.cachedWptr)
  -- the base class submits the padding once `committedWptr` is the index of the padding
  if canWriteUpto newIndex s.wptr = true ∧ s.committedWptr = s.cachedWptr then
    some ⟨newIndex, newIndex, newIndex⟩
  else none

def reserveQueueSpace (s : Handle) (size : ℕ) : Option Handle := do
  let s ← if wrapIntoRing s.cachedWptr + size > queueSize then s.padRingToEnd else some s
  if canWriteUpto (s.cachedWptr + size) s.wptr then
    some { s with cachedWptr := s.cachedWptr + size }
  else none

def submitPacket (s : Handle) (size : ℕ) : Option Handle :=
  (s.reserveQueueSpace size).map fun s => { s with wptr := s.cachedWptr }

end Handle

/-- From index `cur` on no packet meets the end of the ring. -/
def Straight : ℕ → List ℕ → Prop
  | _, [] => True
  | cur, size :: sizes => wrapIntoRing cur + size ≤ queueSize ∧ Straight (cur + size) sizes

theorem submitPacket_eq {size : ℕ} (hlt : size < queueSize) :
    Handle.submitPacket ⟨cur, 0, cur⟩ size =
      if wrapIntoRing cur + size ≤ queueSize then some ⟨cur + size, 0, cur + size⟩ else none := by
  rw [Handle.submitPacket, Handle.reserveQueueSpace]
  by_cases hfit : wrapIntoRing cur + size ≤ queueSize
  · have hroom : canWriteUpto (cur + size) cur = true := by simp [canWriteUpto, hlt]
    simp [hfit, hfit.not_gt, hroom]
  · -- the padding is not at index 0, where the counter still stands
    have hcur : 0 ≠ cur := by
      rintro rfl
      exact hfit (by simpa [wrapIntoRing] using hlt.le)
    simp [hfit, Nat.lt_of_not_le hfit, Handle.padRingToEnd, hcur]

theorem submits_iff {sizes : List ℕ} (h : ∀ n ∈ sizes, n < queueSize) (cur : ℕ) :
    (sizes.foldlM Handle.submitPacket ⟨cur, 0, cur⟩).isSome = true ↔ Straight cur sizes := by
  induction sizes generalizing cur with
  | nil => exact iff_of_true rfl trivial
  | cons n sizes ih =>
    rw [foldlM_cons, submitPacket_eq (h n mem_cons_self), Straight]
    split
    next hfit =>
      rw [← ih (fun m hm => h m (mem_cons_of_mem _ hm))]
      exact (and_iff_right hfit).symm
    next hfit => exact iff_of_false nofun fun hs => hfit hs.1

/-- The single producer never commits, so it gets past the ring's end only if no packet ever
meets it. -/
theorem single_producer_progress_iff {sizes : List ℕ} (h : ∀ n ∈ sizes, n < queueSize) :
    (sizes.foldlM Handle.submitPacket .initial).isSome = true ↔ Straight 0 sizes :=
  submits_iff h 0

theorem two_copies_submitted : ([28, 28].foldlM Handle.submitPacket .initial).isSome = true :=
  (single_producer_progress_iff (by decide)).mpr ⟨by decide, by decide, trivial⟩

theorem Straight.last {size k : ℕ} (h : Straight cur (replicate (k + 1) size)) :
    wrapIntoRing (cur + k * size) + size ≤ queueSize := by
  induction k generalizing cur with
  | zero => simpa using h.1
  | succ k ih =>
    rw [Nat.succ_mul, Nat.add_comm (k * size), ← Nat.add_assoc]
    exact ih h.2

/-- Copies take 28 bytes; the padding before the one number 37450 waits for ever. -/
theorem first_wrap_blocks : (replicate 37450 28).foldlM Handle.submitPacket .initial = none := by
  have hsmall : ∀ n ∈ replicate 37450 28, n < queueSize := fun n hn => by
    rw [eq_of_mem_replicate hn]
    decide
  rw [← Option.not_isSome_iff_eq_none]
  intro hsome
  exact absurd (Straight.last (k := 37449) ((submits_iff hsmall 0).mp hsome)) (by decide)

end SingleProducer

end SdmaRing
