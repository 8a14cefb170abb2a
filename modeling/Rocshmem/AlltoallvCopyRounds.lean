import Rocshmem.GdaAlltoallSync
import Rocshmem.MachineInts
import Rocshmem.ObservedReads

/-! The COPY algorithm of the GDA alltoallv, round after round on one team:
`alltoallv_copy_das`, which publishes a count, and `alltoallv_copy`, which adds to a flag and
clears it. A member puts its elements for a peer into the slot that it has in the `pWrk` of
the peer and signals; when all signals have come it copies its slots out. The signals
alternate between two banks of words, the slots are the same in every round. -/
namespace AlltoallvCopyRounds

open MatchedPrograms ObservedReads MachineInts
open GdaAlltoallSync (Layout splitOffset splitCount tmpBufOff)

inductive Form where
  | copyDas
  | copy
  deriving DecidableEq, Repr

structure Round where
  wgId : ℕ
  wgCount : ℕ
  layout : ℕ → Layout

def Round.slice (R : Round) (k : Form) (total : ℕ) : ℕ :=
  match k with
  | .copyDas => splitCount total R.wgId R.wgCount
  | .copy => total

def Round.sliceOffset (R : Round) (k : Form) (total : ℕ) : ℕ :=
  match k with
  | .copyDas => splitOffset total R.wgId R.wgCount
  | .copy => 0

structure Setup where
  form : Form
  peSize : ℕ
  sizeofT : ℕ
  rounds : List Round
  matching : ∀ R ∈ rounds, ∀ p < peSize, ∀ q < peSize,
    (R.layout p).sourceNelems q = (R.layout q).destNelems p
  fits : ∀ R ∈ rounds, ∀ p < peSize, ∀ q < peSize,
    R.slice form ((R.layout p).sourceNelems q) ≤ tmpBufOff peSize sizeofT

/-- The steps of round `r`. `payload p q` is the arrival of an element of `p` at `q`, `publish`
that of the signal. `seen`, `quiet` and `zero` are steps of the thread of `q` that handles `p`,
and `copy` takes an element out of the slot of `p`. -/
inductive Event where
  | enter (p r : ℕ)
  | payload (p q r i : ℕ)
  | publish (p q r : ℕ)
  | seen (q p r : ℕ)
  | quiet (q p r : ℕ)
  | zero (q p r : ℕ)
  | copy (q p r i : ℕ)
  | leave (p r : ℕ)
  deriving DecidableEq

open Event

inductive Cell where
  | word (q w : ℕ)
  | stage (q y : ℕ)
  deriving DecidableEq

namespace Setup

variable (c : Setup)

def round (r : ℕ) : Round := c.rounds.getD r ⟨0, 0,
    fun _ => ⟨fun _ => 0, fun _ => 0, fun _ => 0, fun _ => 0⟩⟩

def sent (r p q : ℕ) : ℕ := (c.round r).slice c.form (((c.round r).layout p).sourceNelems q)

def received (r q p : ℕ) : ℕ := (c.round r).slice c.form (((c.round r).layout q).destNelems p)

def sourceIndex (r p q i : ℕ) : ℕ :=
  ((c.round r).layout p).sourceDispls q +
    (c.round r).sliceOffset c.form (((c.round r).layout p).sourceNelems q) + i

def slot (p i : ℕ) : ℕ := p * tmpBufOff c.peSize c.sizeofT + i

def peerWord (r p : ℕ) : ℕ := r % 2 * c.peSize + p

def completionCount (r : ℕ) : ℕ := r / 2 + 1

def Pair (p q r : ℕ) : Prop := (p < c.peSize ∧ q < c.peSize) ∧ r < c.rounds.length

def Occurs : Event → Prop
  | enter p r | leave p r => p < c.peSize ∧ r < c.rounds.length
  | payload p q r i => c.Pair p q r ∧ i < c.sent r p q
  | publish p q r | seen p q r | quiet p q r => c.Pair p q r
  | zero p q r => c.form = .copy ∧ c.Pair p q r
  | copy q p r i => c.Pair q p r ∧ i < c.received r q p

inductive Pre : Event → Event → Prop where
  | again {p r} : Pre (leave p r) (enter p (r + 1))
  | put {p q r i} : Pre (enter p r) (payload p q r i)
  | signal {p q r} : Pre (enter p r) (publish p q r)
  -- one QP to the peer
  | behind {p q r i} : Pre (payload p q r i) (publish p q r)
  | look {p q r} : Pre (enter q r) (seen q p r)
  | quietSeen {p q r} : Pre (seen q p r) (quiet q p r)
  -- the quiet completes the puts and the signal of the thread to the peer
  | quietSent {p q r} : Pre (publish q p r) (quiet q p r)
  | zero {p q r} : Pre (quiet q p r) (zero q p r)
  | copyQuiet {p p' q r i} : Pre (quiet q p r) (copy q p' r i)
  | copyZero {p p' q r i} : Pre (zero q p r) (copy q p' r i)
  | leaveQuiet {p q r} : Pre (quiet q p r) (leave q r)
  | leaveZero {p q r} : Pre (zero q p r) (leave q r)
  | leaveCopy {p q r i} : Pre (copy q p r i) (leave q r)

def guard : Event → (Cell → ℤ) → Prop
  | seen q p r, m =>
    match c.form with
    | .copyDas => completionCount r ≤ m (.word q (c.peerWord r p))
    | .copy => m (.word q (c.peerWord r p)) = 1
  | _, _ => True

variable (source : ℕ → ℕ → ℕ → ℤ)

def action : Event → Effect Cell ℤ
  | payload p q r i => .store (.stage q (c.slot p i)) fun _ => source r p (c.sourceIndex r p q i)
  | publish p q r =>
    match c.form with
    | .copyDas => .store (.word q (c.peerWord r p)) fun _ => completionCount r
    | .copy => .add (.word q (c.peerWord r p)) 1
  | zero q p r => .store (.word q (c.peerWord r p)) fun _ => 0
  | _ => .skip

def core : System Event Cell ℤ where
  event := c.Occurs
  pre a e := c.Occurs a ∧ Pre a e
  guard := c.guard
  action := c.action source

def reads : Event → Option (Cell × (ℕ × ℕ × ℕ × ℕ))
  | copy q p r i => some (.stage q (c.slot p i), (q, p, r, i))
  | _ => none

def sys : System Event (Cell ⊕ ℕ × ℕ × ℕ × ℕ) ℤ := observed (c.core source) c.reads

def certificate : Certificate Event ℤ where
  waitsFor
    | seen q p r, a => c.Pair q p r ∧ a = publish p q r
    | _, _ => False
  val
    | payload p q r i => source r p (c.sourceIndex r p q i)
    | publish _ _ r => completionCount r
    | _ => 0

structure Kept (X : Set Event) (m : Cell ⊕ ℕ × ℕ × ℕ × ℕ → ℤ) : Prop where
  /-- An element copied out is the one that the peer sent in the round. -/
  copied : ∀ q p r i, copy q p r i ∈ X → m (.inr (q, p, r, i)) = source r p (c.sourceIndex r p q i)
  /-- A slot is written in a round after it was copied out in the round before. -/
  spared : ∀ q p r i j, payload p q (r + 1) j ∈ X → c.Occurs (copy q p r i) → copy q p r i ∈ X

def Spaced : Prop :=
  ∀ p < c.peSize, ∀ q < c.peSize, p ≠ q → ∀ r, r + 1 < c.rounds.length →
    c.sent r p q = 0 ∨ c.sent (r + 1) p q = 0

abbrev Prior (c : Setup) (source : ℕ → ℕ → ℕ → ℤ) (a e : Event) : Prop :=
  Before (c.core source) (c.certificate source) a e

variable {c source} {p p' q r r' i j : ℕ}

theorem prior_of_pre {a e : Event} (ha : c.Occurs a) (h : Pre a e) : c.Prior source a e :=
  before_of_pre ⟨ha, h⟩

def time : Event → ℕ
  | enter _ r => 8 * r
  | payload _ _ r _ => 8 * r + 1
  | publish _ _ r => 8 * r + 2
  | seen _ _ r => 8 * r + 3
  | quiet _ _ r => 8 * r + 4
  | zero _ _ r => 8 * r + 5
  | copy _ _ r _ => 8 * r + 6
  | leave _ r => 8 * r + 7

theorem depends_forward {a e : Event} (h : Depends (c.core source) (c.certificate source) a e) :
    time a < time e := by
  rcases h with ⟨-, hp⟩ | hw
  · cases hp <;> simp only [time] <;> omega
  · cases e with
    | seen =>
      obtain ⟨-, rfl⟩ := hw
      simp only [time]
      omega
    | _ => exact hw.elim

theorem acyclic (c : Setup) (source : ℕ → ℕ → ℕ → ℤ) :
    WellFounded (Depends (c.core source) (c.certificate source)) :=
  acyclic_of_rank time depends_forward

theorem Pair.symm (h : c.Pair p q r) : c.Pair q p r := ⟨⟨h.1.2, h.1.1⟩, h.2⟩

theorem Pair.at_round (h : c.Pair p q r) (hr : r' < c.rounds.length) : c.Pair p q r' := ⟨h.1, hr⟩

section Order

theorem publish_seen (h : c.Pair q p r) : c.Prior source (publish p q r) (seen q p r) :=
  before_of_waits ⟨h, rfl⟩

theorem seen_quiet (h : c.Pair q p r) : c.Prior source (seen q p r) (quiet q p r) :=
  prior_of_pre h .quietSeen

theorem quiet_leave (h : c.Pair q p r) : c.Prior source (quiet q p r) (leave q r) :=
  prior_of_pre h .leaveQuiet

theorem seen_leave (h : c.Pair q p r) : c.Prior source (seen q p r) (leave q r) :=
  (seen_quiet h).trans (quiet_leave h)

theorem publish_leave (h : c.Pair p q r) : c.Prior source (publish p q r) (leave p r) :=
  (prior_of_pre (a := publish p q r) h .quietSent).trans (quiet_leave h)

theorem enter_leave (hp : p < c.peSize) (hr : r < c.rounds.length) :
    c.Prior source (enter p r) (leave p r) :=
  (prior_of_pre (a := enter p r) ⟨hp, hr⟩ .look).trans (seen_leave ⟨⟨hp, hp⟩, hr⟩)

theorem leave_enter (hp : p < c.peSize) (hr' : r' < c.rounds.length) (h : r < r') :
    c.Prior source (leave p r) (enter p r') := by
  induction h with
  | refl => exact prior_of_pre ⟨hp, Nat.lt_of_succ_lt hr'⟩ .again
  | @step j hj ih =>
    have hlast : c.Prior source (leave p j) (enter p (j + 1)) :=
      prior_of_pre ⟨hp, Nat.lt_of_succ_lt hr'⟩ .again
    have hin : j < c.rounds.length := Nat.lt_of_succ_lt hr'
    exact (ih hin).trans ((enter_leave hp hin).trans hlast)

theorem leave_enter_peer (hq : q < c.peSize) (hp : p < c.peSize) (hr' : r' < c.rounds.length)
    (h : r + 2 ≤ r') : c.Prior source (leave q r) (enter p r') := by
  have hr : r + 1 < c.rounds.length := by omega
  have hpair : c.Pair p q (r + 1) := ⟨⟨hp, hq⟩, hr⟩
  have hsignal : c.Prior source (enter q (r + 1)) (publish q p (r + 1)) :=
    prior_of_pre ⟨hq, hr⟩ .signal
  have hseen : c.Prior source (publish q p (r + 1)) (leave p (r + 1)) :=
    (publish_seen hpair).trans (seen_leave hpair)
  exact (leave_enter hq hr (Nat.lt_succ_self r)).trans (hsignal.trans (hseen.trans
    (leave_enter hp hr' h)))

theorem enter_publish (h : c.Pair p q r) : c.Prior source (enter p r) (publish p q r) :=
  prior_of_pre ⟨h.1.1, h.2⟩ .signal

theorem enter_payload (hp : p < c.peSize) (hr : r < c.rounds.length) :
    c.Prior source (enter p r) (payload p q r i) :=
  prior_of_pre ⟨hp, hr⟩ .put

theorem payload_leave (h : c.Pair p q r) (hi : i < c.sent r p q) :
    c.Prior source (payload p q r i) (leave p r) :=
  (prior_of_pre (a := payload p q r i) ⟨h, hi⟩ .behind).trans (publish_leave h)

theorem zero_leave (h : c.Occurs (zero q p r)) : c.Prior source (zero q p r) (leave q r) :=
  prior_of_pre h .leaveZero

theorem copy_leave (h : c.Occurs (copy q p r i)) : c.Prior source (copy q p r i) (leave q r) :=
  prior_of_pre h .leaveCopy

theorem seen_zero (h : c.Pair q p r) : c.Prior source (seen q p r) (zero q p r) :=
  (seen_quiet h).trans (prior_of_pre (a := quiet q p r) h .zero)

theorem payload_payload (h : c.Pair p q r) (hi : i < c.sent r p q) (hr' : r' < c.rounds.length)
    (hlt : r < r') : c.Prior source (payload p q r i) (payload p q r' j) :=
  (payload_leave h hi).trans ((leave_enter h.1.1 hr' hlt).trans (enter_payload h.1.1 hr'))

theorem publish_publish (h : c.Pair p q r) (hr' : r' < c.rounds.length) (hlt : r < r') :
    c.Prior source (publish p q r) (publish p q r') :=
  (publish_leave h).trans ((leave_enter h.1.1 hr' hlt).trans (enter_publish (h.at_round hr')))

theorem leave_publish (h : c.Pair p q r) (hr' : r' < c.rounds.length) (hle : r + 2 ≤ r') :
    c.Prior source (leave q r) (publish p q r') :=
  (leave_enter_peer h.1.2 h.1.1 hr' hle).trans (enter_publish (h.at_round hr'))

theorem zero_zero (h : c.Occurs (zero q p r)) (hr' : r' < c.rounds.length) (hlt : r < r') :
    c.Prior source (zero q p r) (zero q p r') := by
  have hlook : c.Prior source (enter q r') (seen q p r') := prior_of_pre ⟨h.2.1.1, hr'⟩ .look
  exact (zero_leave h).trans ((leave_enter h.2.1.1 hr' hlt).trans
    (hlook.trans (seen_zero (h.2.at_round hr'))))

theorem copy_payload (h : c.Occurs (copy q p r i)) (hr' : r' < c.rounds.length)
    (hlt : r + 2 ≤ r' ∨ p = q ∧ r < r') : c.Prior source (copy q p r i) (payload p q r' j) := by
  have henter : c.Prior source (leave q r) (enter p r') := by
    rcases hlt with hle | ⟨rfl, hlt⟩
    · exact leave_enter_peer h.1.1.1 h.1.1.2 hr' hle
    · exact leave_enter h.1.1.1 hr' hlt
  exact (copy_leave h).trans (henter.trans (enter_payload h.1.1.2 hr'))

end Order

section Writers

variable {w y : ℕ} {e : Event}

theorem peerWord_injective (hp : p < c.peSize) (hp' : p' < c.peSize)
    (h : c.peerWord r p = c.peerWord r' p') : r % 2 = r' % 2 ∧ p = p' :=
  block_unique hp hp' h

theorem round_mem (hr : r < c.rounds.length) : c.round r ∈ c.rounds := by
  rw [round, List.getD_eq_getElem?_getD, List.getElem?_eq_getElem hr, Option.getD_some]
  exact List.getElem_mem hr

theorem received_eq (h : c.Pair p q r) : c.received r q p = c.sent r p q := by
  rw [received, sent, c.matching _ (round_mem h.2) p h.1.1 q h.1.2]

theorem sent_le (h : c.Pair p q r) : c.sent r p q ≤ tmpBufOff c.peSize c.sizeofT :=
  c.fits _ (round_mem h.2) p h.1.1 q h.1.2

theorem writes_word (h : (c.core source).Writes (.word q w) e) :
    ∃ p r, (e = publish p q r ∨ e = zero q p r) ∧ w = c.peerWord r p := by
  have ht := h.target
  cases e with
  | publish p q' r =>
    have hcell : Cell.word q' (c.peerWord r p) = .word q w := by
      cases hform : c.form <;> simp only [core, action, hform] at ht <;> exact Option.some.inj ht
    cases hcell
    exact ⟨p, r, .inl rfl, rfl⟩
  | zero q' p r =>
    cases ht
    exact ⟨p, r, .inr rfl, rfl⟩
  | payload => cases Option.some.inj ht
  | enter | seen | quiet | copy | leave => cases ht

theorem writes_stage (h : (c.core source).Writes (.stage q y) e) :
    ∃ p r i, e = payload p q r i ∧ y = c.slot p i := by
  have ht := h.target
  cases e with
  | payload p q' r i =>
    cases ht
    exact ⟨p, r, i, rfl, rfl⟩
  | publish p q' r =>
    exfalso
    cases hform : c.form <;> simp only [core, action, hform] at ht <;> cases Option.some.inj ht
  | zero => cases Option.some.inj ht
  | enter | seen | quiet | copy | leave => cases ht

theorem slot_injective (h : c.Pair p q r) (hi : i < c.sent r p q) (h' : c.Pair p' q r')
    (hj : j < c.sent r' p' q) (heq : c.slot p i = c.slot p' j) : p = p' ∧ i = j :=
  block_unique (hi.trans_le (sent_le h)) (hj.trans_le (sent_le h')) heq

end Writers

section Signals

variable {e : Event} {X : Set Event} {m : Cell → ℤ}

theorem publish_zero (h : c.Pair p q r) (hr' : r' < c.rounds.length) (hle : r ≤ r') :
    c.Prior source (publish p q r) (zero q p r') := by
  have hlast : c.Prior source (publish p q r') (zero q p r') :=
    (publish_seen (h.symm.at_round hr')).trans (seen_zero (h.symm.at_round hr'))
  rcases Nat.eq_or_lt_of_le hle with rfl | hlt
  · exact hlast
  · exact (publish_publish h hr' hlt).trans hlast

theorem zero_publish (h : c.Occurs (zero q p r)) (hr' : r' < c.rounds.length) (hle : r + 2 ≤ r') :
    c.Prior source (zero q p r) (publish p q r') :=
  (zero_leave h).trans (leave_publish h.2.symm hr' hle)

theorem publish_stores (h : c.form = .copyDas) (p q r : ℕ) :
    (c.core source).action (publish p q r) =
    .store (.word q (c.peerWord r p)) fun _ => completionCount r := by
  simp only [core, action, h]

theorem publish_adds (h : c.form = .copy) (p q r : ℕ) :
    (c.core source).action (publish p q r) = .add (.word q (c.peerWord r p)) 1 := by
  simp only [core, action, h]

theorem peerWord_eq (h : r' % 2 = r % 2) : c.peerWord r' p = c.peerWord r p := by
  rw [peerWord, peerWord, h]

theorem peerWord_writer (hp : p < c.peSize) (he : c.Occurs e)
    (h : (c.core source).Writes (.word q (c.peerWord r p)) e) :
    ∃ r', r' % 2 = r % 2 ∧ (e = publish p q r' ∨ e = zero q p r') := by
  obtain ⟨p', r', hcase, hw⟩ := writes_word h
  have hp' : p' < c.peSize := by
    rcases hcase with rfl | rfl
    · exact he.1.1
    · exact he.2.1.2
  obtain ⟨hpar, rfl⟩ := peerWord_injective hp hp' hw
  exact ⟨r', hpar.symm, hcase⟩

theorem parity_cases (h : r % 2 = r' % 2) : r = r' ∨ r + 2 ≤ r' ∨ r' + 2 ≤ r := by
  omega

theorem word_ordered {e' : Event} (hp : p < c.peSize) (he : c.Occurs e) (he' : c.Occurs e')
    (h : (c.core source).Writes (.word q (c.peerWord r p)) e)
    (h' : (c.core source).Writes (.word q (c.peerWord r p)) e') :
    e = e' ∨ c.Prior source e e' ∨ c.Prior source e' e := by
  obtain ⟨k, hk, hcase⟩ := peerWord_writer hp he h
  obtain ⟨k', hk', hcase'⟩ := peerWord_writer hp he' h'
  have hparity := parity_cases (hk.trans hk'.symm)
  rcases hcase with rfl | rfl
  · rcases hcase' with rfl | rfl
    · rcases hparity with rfl | hle | hle
      · exact .inl rfl
      · exact .inr (.inl (publish_publish he he'.2 (by omega)))
      · exact .inr (.inr (publish_publish he' he.2 (by omega)))
    · rcases hparity with rfl | hle | hle
      · exact .inr (.inl (publish_zero he he'.2.2 (le_refl _)))
      · exact .inr (.inl (publish_zero he he'.2.2 (by omega)))
      · exact .inr (.inr (zero_publish he' he.2 hle))
  · rcases hcase' with rfl | rfl
    · rcases hparity with rfl | hle | hle
      · exact .inr (.inr (publish_zero he' he.2.2 (le_refl _)))
      · exact .inr (.inl (zero_publish he he'.2 hle))
      · exact .inr (.inr (publish_zero he' he.2.2 (by omega)))
    · rcases hparity with rfl | hle | hle
      · exact .inl rfl
      · exact .inr (.inl (zero_zero he he'.2.2 (by omega)))
      · exact .inr (.inr (zero_zero he' he.2.2 (by omega)))

theorem stage_ordered {y : ℕ} {e' : Event} (he : c.Occurs e) (he' : c.Occurs e')
    (h : (c.core source).Writes (.stage q y) e) (h' : (c.core source).Writes (.stage q y) e') :
    e = e' ∨ c.Prior source e e' ∨ c.Prior source e' e := by
  obtain ⟨p, r, i, rfl, rfl⟩ := writes_stage h
  obtain ⟨p', r', j, rfl, heq⟩ := writes_stage h'
  obtain ⟨rfl, rfl⟩ := slot_injective he.1 he.2 he'.1 he'.2 heq
  rcases Nat.lt_trichotomy r r' with hlt | rfl | hlt
  · exact .inr (.inl (payload_payload he.1 he.2 he'.1.2 hlt))
  · exact .inl rfl
  · exact .inr (.inr (payload_payload he'.1 he'.2 he.1.2 hlt))

variable (hc : Consistent (c.core source) (c.certificate source) (fun _ => 0) X m)
include hc

theorem published_of_count (hform : c.form = .copyDas) (h : c.Pair q p r)
    (hcount : (completionCount r : ℤ) ≤ m (.word q (c.peerWord r p))) : publish p q r ∈ X := by
  have hnoadd : ∀ a, ¬ (c.core source).AddsTo (.word q (c.peerWord r p)) a := by
    intro a ⟨v, hv⟩
    cases a with
    | publish p' q' r' =>
      rw [publish_stores hform] at hv
      cases hv
    | _ => cases hv
  rcases hc.last_store hnoadd with ⟨hzero, -⟩ | ⟨w, hw, hstore, hval, -⟩
  · rw [hzero, completionCount] at hcount
    omega
  · have hev := hc.events w hw
    rw [hval] at hcount
    obtain ⟨r', hpar, rfl | rfl⟩ := peerWord_writer h.1.2 hev (.inl hstore)
    · have hle : (completionCount r : ℤ) ≤ completionCount r' := hcount
      unfold completionCount at hle
      rcases Nat.eq_or_lt_of_le (show r ≤ r' by omega) with rfl | hlt
      · exact hw
      · exact publish_publish h.symm hev.2 hlt X hc.closed hw
    · exact absurd hev.1 (by rw [hform]; decide)

theorem published_of_flag (hform : c.form = .copy) (h : c.Pair q p r) (henter : enter q r ∈ X)
    (hflag : m (.word q (c.peerWord r p)) = 1) : publish p q r ∈ X := by
  by_contra hX
  have hzero : m (.word q (c.peerWord r p)) = 0 := by
    apply hc.read_cleared
    · intro w hw hstore
      obtain ⟨r', -, rfl | rfl⟩ := peerWord_writer h.1.2 (hc.events w hw) (.inl hstore)
      · obtain ⟨f, hf⟩ := hstore
        rw [publish_adds hform] at hf
        cases hf
      · rfl
    · intro a ha hadd
      have hev := hc.events a ha
      obtain ⟨r', hpar, rfl | rfl⟩ := peerWord_writer h.1.2 hev (.inr hadd)
      · -- an earlier signal was reset before the member entered the round
        have hlt : r' < r := by
          rcases parity_cases hpar with rfl | hle | hle
          · exact absurd ha hX
          · omega
          · exact absurd (publish_publish h.symm hev.2 (by omega) X hc.closed ha) hX
        have hzero : c.Occurs (zero q p r') := ⟨hform, hev.symm⟩
        refine ⟨zero q p r', ?_, ⟨_, by rw [← peerWord_eq hpar]; rfl⟩,
          publish_zero hev hev.2 (le_refl _)⟩
        exact ((zero_leave hzero).trans (leave_enter h.1.1 h.2 hlt)) X hc.closed henter
      · obtain ⟨v, hv⟩ := hadd
        cases hv
  rw [hzero] at hflag
  cases hflag

theorem count_kept (hform : c.form = .copyDas) (h : c.Pair q p r) (hsent : publish p q r ∈ X)
    (hX : seen q p r ∉ X) : m (.word q (c.peerWord r p)) = completionCount r := by
  refine hc.read_before (acyclic c source) hX hsent ⟨_, publish_stores hform p q r⟩
    fun w hw hwrites => ?_
  obtain ⟨r', hpar, rfl | rfl⟩ := peerWord_writer h.1.2 hw hwrites
  · rcases parity_cases hpar with rfl | hle | hle
    · exact .inl (Before.refl _)
    · exact .inl (publish_publish hw h.2 (by omega))
    · exact .inr ((seen_leave h).trans (leave_publish h.symm hw.2 hle))
  · exact absurd hw.1 (by rw [hform]; decide)

theorem flag_kept (hform : c.form = .copy) (h : c.Pair q p r) (hsent : publish p q r ∈ X)
    (hX : seen q p r ∉ X) : m (.word q (c.peerWord r p)) = 1 := by
  have hone : m (.word q (c.peerWord r p)) = 0 + 1 := by
    apply hc.read_pending hsent (publish_adds hform p q r)
    · intro w hw hstore
      obtain ⟨r', -, rfl | rfl⟩ := peerWord_writer h.1.2 (hc.events w hw) (.inl hstore)
      · obtain ⟨f, hf⟩ := hstore
        rw [publish_adds hform] at hf
        cases hf
      · rfl
    · intro w hw hstore hbefore
      have hev := hc.events w hw
      obtain ⟨r', hpar, rfl | rfl⟩ := peerWord_writer h.1.2 hev (.inl hstore)
      · obtain ⟨f, hf⟩ := hstore
        rw [publish_adds hform] at hf
        cases hf
      · rcases parity_cases hpar with rfl | hle | hle
        · exact hX (seen_zero h X hc.closed hw)
        · have heq := before_antisymm (acyclic c source) hbefore (zero_publish hev h.2 hle)
          cases heq
        · have hlater : c.Prior source (seen q p r) (zero q p r') :=
            ((seen_leave h).trans (leave_publish h.symm hev.2.2 hle)).trans
              (publish_zero (h.symm.at_round hev.2.2) hev.2.2 (le_refl _))
          exact hX (hlater X hc.closed hw)
    · intro a ha hadd hne
      have hev := hc.events a ha
      obtain ⟨r', hpar, rfl | rfl⟩ := peerWord_writer h.1.2 hev (.inr hadd)
      · rcases parity_cases hpar with rfl | hle | hle
        · exact absurd rfl hne
        · have hzero : c.Occurs (zero q p r') := ⟨hform, hev.symm⟩
          refine ⟨zero q p r', zero_publish hzero h.2 hle X hc.closed hsent,
            ⟨_, by rw [← peerWord_eq hpar]; rfl⟩, publish_zero hev hev.2 (le_refl _)⟩
        · exact absurd (((seen_leave h).trans (leave_publish h.symm hev.2 hle)) X hc.closed ha) hX
      · obtain ⟨v, hv⟩ := hadd
        cases hv
  rw [hone]
  rfl

end Signals

theorem sound (c : Setup) (source : ℕ → ℕ → ℕ → ℤ) :
    Sound (c.core source) (c.certificate source) anyStep fun _ => 0 where
  acyclic := acyclic c source
  ordered d w w' hw hw' h h' := by
    cases d with
    | word q y =>
      obtain ⟨p, r, hcase, rfl⟩ := writes_word (.inl h)
      have hp : p < c.peSize := by
        rcases hcase with rfl | rfl
        · exact hw.1.1
        · exact hw.2.1.2
      exact word_ordered hp hw hw' (.inl h) h'
    | stage q y => exact stage_ordered hw hw' (.inl h) h'
  matched X m e hc he hX hr hg _ a ha := by
    cases e with
    | seen q p r =>
      obtain ⟨hpair, rfl⟩ := ha
      cases hform : c.form with
      | copyDas =>
        simp only [core, guard, hform] at hg
        exact published_of_count hc hform hpair hg
      | copy =>
        simp only [core, guard, hform] at hg
        exact published_of_flag hc hform hpair (hr _ ⟨⟨hpair.1.1, hpair.2⟩, .look⟩) hg
    | _ => exact ha.elim
  valued X m e d f _ _ _ _ _ hact := by
    cases e with
    | payload | zero =>
      cases hact
      rfl
    | publish p q r =>
      cases hform : c.form with
      | copyDas =>
        rw [publish_stores hform] at hact
        cases hact
        rfl
      | copy =>
        rw [publish_adds hform] at hact
        cases hact
    | enter | seen | quiet | copy | leave => cases hact

theorem live (c : Setup) (source : ℕ → ℕ → ℕ → ℤ) :
    Live (c.core source) (c.certificate source) anyStep fun _ => 0 where
  pre_event _ _ h := h.1
  waits_event e a h := by
    cases e with
    | seen =>
      obtain ⟨hpair, rfl⟩ := h
      exact hpair.symm
    | _ => exact h.elim
  guarded X m e hc he hX _ hw := by
    refine ⟨?_, trivial⟩
    cases e with
    | seen q p r =>
      have hsent := hw _ ⟨he, rfl⟩
      cases hform : c.form with
      | copyDas =>
        simp only [core, guard, hform]
        exact (count_kept hc hform he hsent hX).ge
      | copy =>
        simp only [core, guard, hform]
        exact flag_kept hc hform he hsent hX
    | _ => trivial

def Unmixed (c : Setup) (X : Set Event) : Prop :=
  ∀ q p r i j r', c.Occurs (copy q p r i) → copy q p r i ∉ X → payload p q r' j ∈ X → r' ≤ r

theorem slot_read {X : Set Event} {m : Cell → ℤ}
    (hc : Consistent (c.core source) (c.certificate source) (fun _ => 0) X m) (hmix : c.Unmixed X)
    (he : c.Occurs (copy q p r i)) (hX : copy q p r i ∉ X)
    (hr : (c.core source).Ready X (copy q p r i)) :
    m (.stage q (c.slot p i)) = source r p (c.sourceIndex r p q i) := by
  have hpair := he.1
  have hi := he.2
  rw [received_eq hpair.symm] at hi
  have hquiet : quiet q p r ∈ X := hr _ ⟨hpair, .copyQuiet⟩
  have harrived : c.Prior source (payload p q r i) (quiet q p r) :=
    (prior_of_pre (a := payload p q r i) ⟨hpair.symm, hi⟩ .behind).trans
      ((publish_seen hpair).trans (seen_quiet hpair))
  refine hc.read (acyclic c source) (harrived X hc.closed hquiet) ⟨_, rfl⟩ fun w hw hwrites => ?_
  have hev := hc.events w hw
  obtain ⟨p', r', j, rfl, heq⟩ := writes_stage hwrites
  obtain ⟨rfl, rfl⟩ := slot_injective hpair.symm hi hev.1 hev.2 heq
  rcases Nat.eq_or_lt_of_le (hmix q p r i i r' he hX hw) with rfl | hlt
  · exact Before.refl _
  · exact payload_payload hev.1 hev.2 hpair.2 hlt

theorem unmixed_of_spaced (h : c.Spaced) {X : Set Event} {m : Cell → ℤ}
    (hc : Consistent (c.core source) (c.certificate source) (fun _ => 0) X m) : c.Unmixed X := by
  intro q p r i j r' he hX hput
  by_contra hlt
  have hev := hc.events _ hput
  have hsent := he.2
  rw [received_eq he.1.symm] at hsent
  refine hX (copy_payload he hev.1.2 ?_ X hc.closed hput)
  by_cases hpq : p = q
  · exact .inr ⟨hpq, by omega⟩
  · -- a put in the next round is excluded, a later one comes after the copy
    rcases Nat.lt_or_ge r' (r + 2) with hnext | hlater
    · obtain rfl : r' = r + 1 := by omega
      have hput := hev.2
      rcases h p hev.1.1.1 q hev.1.1.2 hpq r hev.1.2 with hzero | hzero <;> omega
    · exact .inl hlater

theorem reads_skip (e : Event) (h : (c.reads e).isSome) : (c.core source).action e = .skip := by
  cases e with
  | copy => rfl
  | _ => cases h

theorem reads_own {e e' : Event} {d d' : Cell} {x : ℕ × ℕ × ℕ × ℕ} (h : c.reads e = some (d, x))
    (h' : c.reads e' = some (d', x)) : e = e' := by
  cases e with
  | copy q p r i =>
    cases e' with
    | copy q' p' r' i' =>
      grind [reads]
    | _ => cases h'
  | _ => cases h

def copyValue (c : Setup) (source : ℕ → ℕ → ℕ → ℤ) : Event → ℤ
  | copy q p r i => source r p (c.sourceIndex r p q i)
  | _ => 0

theorem kept_of_spaced (h : c.Spaced) {X : Set Event} {m : Cell ⊕ ℕ × ℕ × ℕ × ℕ → ℤ}
    (hrun : (c.sys source).Run anyStep (fun _ => 0) X m) : c.Kept source X m := by
  constructor
  · intro q p r i hcopy
    have hread := copied (v := c.copyValue source) reads_skip reads_own
      (fun {X m e d x} hrun he hX hr _
        hreads => ?_) hrun (copy q p r i) hcopy _ _ rfl
    · exact hread
    · have hc := run_consistent (sound c source) hrun
      cases e with
      | copy q p r i =>
        obtain rfl := (Prod.mk.inj (Option.some.inj hreads)).1
        exact slot_read hc (unmixed_of_spaced h hc) he hX hr
      | _ => cases hreads
  · intro q p r i j hput he
    have hc := run_consistent (sound c source) (run_core reads_skip hrun)
    by_contra hX
    have hle := unmixed_of_spaced h hc q p r i j (r + 1) he hX hput
    omega

section Race

def roundOf : Event → ℕ
  | enter _ r | payload _ _ r _ | publish _ _ r | seen _ _ r | quiet _ _ r | zero _ _ r
  | copy _ _ r _ | leave _ r => r

def Held (q : ℕ) : Event → Prop
  | copy q' _ _ _ | leave q' _ => q' = q
  | _ => False

def ahead (c : Setup) (p q r : ℕ) : Set Event :=
  {e | c.Occurs e ∧ (roundOf e < r ∨ roundOf e = r ∧ ¬ Held q e ∨
    e = enter p (r + 1) ∨ e = payload p q (r + 1) 0)}

theorem ahead_closed (hpq : p ≠ q) :
    Closed (c.core source) (c.certificate source) (c.ahead p q r) := by
  intro e ⟨he, hcase⟩
  constructor
  · intro a ⟨ha, hpre⟩
    refine ⟨ha, ?_⟩
    grind [roundOf, Pre, Held]
  · grind [roundOf, ahead, certificate, Occurs, Held, Pair.symm]

theorem sent_lt (h : c.Pair p q r) (hi : i < c.sent r p q) : i < tmpBufOff c.peSize c.sizeofT :=
  hi.trans_le (sent_le h)

theorem finite_events (c : Setup) : {e | c.Occurs e}.Finite := by
  have hfin := List.finite_toSet ((List.range c.peSize).flatMap fun p =>
    (List.range c.peSize).flatMap fun q => (List.range c.rounds.length).flatMap fun r =>
      [enter p r, publish p q r, seen p q r, quiet p q r, zero p q r, leave p r] ++
        (List.range (tmpBufOff c.peSize c.sizeofT)).flatMap fun i => [payload p q r i,
          copy q p r i])
  apply hfin.subset
  intro e he
  simp only [Set.mem_ofPred_eq, List.mem_flatMap, List.mem_range]
  cases e with
  | enter p r | leave p r => exact ⟨p, he.1, p, he.1, r, he.2, by simp⟩
  | publish p q r | seen p q r | quiet p q r => exact ⟨p, he.1.1, q, he.1.2, r, he.2, by simp⟩
  | zero p q r => exact ⟨p, he.2.1.1, q, he.2.1.2, r, he.2.2, by simp⟩
  | payload p q r i =>
    have hi := sent_lt he.1 he.2
    exact ⟨p, he.1.1.1, q, he.1.1.2, r, he.1.2, by simp [hi]⟩
  | copy q p r i =>
    have hi := sent_lt he.1.symm (received_eq he.1.symm ▸ he.2)
    exact ⟨p, he.1.1.2, q, he.1.1.1, r, he.1.2, by simp [hi]⟩

theorem run_ahead (source : ℕ → ℕ → ℕ → ℤ) (hpq : p ≠ q) :
    ∃ m, (c.sys source).Run anyStep (fun _ => 0) (c.ahead p q r) m := by
  obtain ⟨m, hrun⟩ := (live c source).run_reaches (sound c source)
    ((finite_events c).subset fun e he => he.1) (fun e he => he.1)
    (ahead_closed (c := c) (r := r) hpq)
  have hcore : (c.core source).Run anyStep
      ((fun _ => 0 : Cell ⊕ ℕ × ℕ × ℕ × ℕ → ℤ) ∘ .inl) (c.ahead p q r) m := hrun
  obtain ⟨m', hrun', -⟩ := run_observed reads_skip hcore
  exact ⟨m', hrun'⟩

theorem run_mixed (source : ℕ → ℕ → ℕ → ℤ) (hpq : p ≠ q) (h : c.Pair p q (r + 1))
    (hsent : 0 < c.sent r p q) (hnext : 0 < c.sent (r + 1) p q) :
    ∃ X m, (c.sys source).Run anyStep (fun _ => 0) X m ∧ copy q p r 0 ∈ X ∧
      m (.inr (q, p, r, 0)) = source (r + 1) p (c.sourceIndex (r + 1) p q 0) := by
  obtain ⟨m, hrun⟩ := run_ahead (c := c) (r := r) source hpq
  have hpair : c.Pair p q r := h.at_round (Nat.lt_of_succ_lt h.2)
  have hcopy : c.Occurs (copy q p r 0) := ⟨hpair.symm, received_eq hpair ▸ hsent⟩
  have hput : payload p q (r + 1) 0 ∈ c.ahead p q r := ⟨⟨h, hnext⟩, .inr (.inr (.inr rfl))⟩
  have hX : copy q p r 0 ∉ c.ahead p q r := by
    intro ⟨_, hcase⟩
    rcases hcase with hlt | ⟨-, hheld⟩ | heq | heq
    · exact Nat.lt_irrefl r hlt
    · exact hheld rfl
    · cases heq
    · cases heq
  have hready : (c.sys source).Ready (c.ahead p q r) (copy q p r 0) := by
    intro a ⟨ha, hpre⟩
    cases hpre <;> exact ⟨ha, .inr (.inl ⟨rfl, fun h => h⟩)⟩
  have hc := run_consistent (sound c source) (run_core reads_skip hrun)
  have hslot : m (.inl (.stage q (c.slot p 0))) =
      source (r + 1) p (c.sourceIndex (r + 1) p q 0) := by
    refine hc.read (acyclic c source) hput ⟨_, rfl⟩ fun w hw hwrites => ?_
    have hev := hc.events w hw
    obtain ⟨p', r', j, rfl, heq⟩ := writes_stage hwrites
    obtain ⟨rfl, rfl⟩ := slot_injective h hnext hev.1 hev.2 heq
    rcases hw.2 with hlt | ⟨hround, -⟩ | heq | heq
    · exact payload_payload hev.1 hev.2 h.2 (Nat.lt_succ_of_lt hlt)
    · exact payload_payload hev.1 hev.2 h.2 (Nat.lt_succ_of_le hround.le)
    · cases heq
    · rw [heq]
      exact Before.refl _
  have hreads : c.reads (copy q p r 0) = some (.stage q (c.slot p 0), (q, p, r, 0)) := rfl
  refine ⟨_, _, hrun.fire (e := copy q p r 0) hcopy hX hready trivial trivial, .inl rfl, ?_⟩
  rw [sys, observed_apply_copy hreads, hslot]

end Race

/-- The rounds are kept apart in every run from zeroed words if and only if no member sends to
the same other member in two consecutive rounds. -/
theorem rounds_kept_iff (c : Setup) : (∀ source X m,
    (c.sys source).Run anyStep (fun _ => 0) X m → c.Kept source X m) ↔ c.Spaced := by
  constructor
  · intro h p hp q hq hpq r hr
    by_contra hboth
    push Not at hboth
    obtain ⟨m, hrun⟩ := run_ahead (c := c) (r := r) (fun _ _ _ => 0) hpq
    have hput : payload p q (r + 1) 0 ∈ c.ahead p q r :=
      ⟨⟨⟨⟨hp, hq⟩, hr⟩, Nat.pos_of_ne_zero hboth.2⟩, .inr (.inr (.inr rfl))⟩
    have hcopy : c.Occurs (copy q p r 0) := by
      have hpair : c.Pair p q r := ⟨⟨hp, hq⟩, Nat.lt_of_succ_lt hr⟩
      exact ⟨hpair.symm, received_eq hpair ▸ Nat.pos_of_ne_zero hboth.1⟩
    -- the copy is one of the steps that `q` has not made
    obtain ⟨-, hlt | ⟨-, hheld⟩ | heq | heq⟩ := (h _ _ _ hrun).spared q p r 0 0 hput hcopy
    · exact Nat.lt_irrefl r hlt
    · exact hheld rfl
    · cases heq
    · cases heq
  · exact fun h source X m hrun => kept_of_spaced h hrun

end Setup

def twoRounds : Setup where
  form := .copyDas
  peSize := 2
  sizeofT := 8
  rounds := [⟨0, 1, fun _ => GdaAlltoallSync.reversed⟩, ⟨0, 1, fun _ => GdaAlltoallSync.reversed⟩]
  matching := by decide
  fits := by decide

/-- Call `r` sends the number `r`. The element of the second call is copied out in the first. -/
theorem second_round_copied_first : ∃ X m,
    (twoRounds.sys fun r _ _ => r).Run anyStep (fun _ => 0) X m ∧ copy 1 0 0 0 ∈ X ∧
      m (.inr (1, 0, 0, 0)) = 1 ∧ ¬ twoRounds.Kept (fun r _ _ => r) X m := by
  have hpair : twoRounds.Pair 0 1 1 := ⟨⟨by decide, by decide⟩, by decide⟩
  obtain ⟨X, m, hrun, hcopy, hval⟩ := Setup.run_mixed (fun r _ _ => r) (r := 0) (by decide) hpair
    (by decide) (by decide)
  refine ⟨X, m, hrun, hcopy, hval, fun hkept => ?_⟩
  have hsent := hkept.copied 1 0 0 0 hcopy
  rw [hval] at hsent
  cases hsent

end AlltoallvCopyRounds
