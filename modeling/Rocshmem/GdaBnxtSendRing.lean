import Mathlib

/-! The bnxt send ring: posts under the SQ lock and unlocked quiets, interleaved at
every load with in-order NIC completions. A WQE takes three ring slots. The CQ entry
shows the number of completed WQEs modulo the number of WQEs that the ring holds. -/
namespace GdaBnxtSendRing

open Function (update)

def wqeSlotCount : ℕ := 3

structure DeviceSq where
  depth : UInt32
  tail : UInt32
  flags : UInt32
  deriving DecidableEq, Repr

structure Ring where
  depth : UInt32
  positive : 0 < depth.toNat
  multiple : depth.toNat % wqeSlotCount = 0

def Ring.wqes (ring : Ring) : ℕ := ring.depth.toNat / wqeSlotCount

def bnxtReIncrTail (sq : DeviceSq) (cnt : UInt8) : DeviceSq :=
  let tail := sq.tail + cnt.toUInt32
  if tail ≥ sq.depth then { sq with tail := tail % sq.depth, flags := sq.flags ^^^ 1 }
  else { sq with tail := tail }

def bnxtReGetHwqe (sq : DeviceSq) (idx : UInt32) : UInt32 :=
  let idx := idx + sq.tail
  if idx ≥ sq.depth then idx - sq.depth else idx

def pollSqHead (depth conIndx : UInt32) : UInt32 := ((conIndx &&& 0xFFFF) * 3) % depth

def pollAvailableSlots (depth sqHead sqTail : UInt32) : UInt32 :=
  let consumedSlots := (sqTail - sqHead + depth) % depth
  depth - consumedSlots

inductive Request where
  | rma (length : Int32) (isWrite : Bool)
  | amo
  deriving DecidableEq

def inlineThreshold : Int32 := 8

def sgeBytes : Request → ℕ
  | .rma length isWrite =>
    if length ≤ inlineThreshold ∧ isWrite = true then (length.toInt % 2 ^ 64).toNat else 16
  | .amo => 16

def WritesSlot (sq : DeviceSq) (req : Request) (j : ℕ) : Prop :=
  j = (bnxtReGetHwqe sq 0).toNat ∨ j = (bnxtReGetHwqe sq 1).toNat ∨
  (bnxtReGetHwqe sq 2).toNat ≤ j ∧ 16 * (j - (bnxtReGetHwqe sq 2).toNat) < sgeBytes req

instance (sq : DeviceSq) (req : Request) (j : ℕ) : Decidable (WritesSlot sq req j) :=
  inferInstanceAs (Decidable (_ ∨ _ ∨ _ ∧ _))

def wqeSlot (ring : Ring) (w j : ℕ) : ℕ := (wqeSlotCount * w + j) % ring.depth.toNat

inductive Poster where
  | free
  | polling (req : Request)
  | headRead (req : Request) (sqHead : UInt32)
  | ready (req : Request)
  | written
  deriving DecidableEq

inductive Quiet where
  | idle
  | called (before : ℕ)
  | headRead (before shown : ℕ) (sqHead : UInt32)
  | returned (before : ℕ)
  deriving DecidableEq

structure State where
  posted : ℕ
  completed : ℕ
  sq : DeviceSq
  poster : Poster
  quiet : ℕ → Quiet
  clobbered : List ℕ

def initial (ring : Ring) : State := ⟨0, 0, ⟨ring.depth, 0, 0⟩, .free, fun _ => .idle, []⟩

def State.conIndx (ring : Ring) (s : State) : UInt32 := UInt32.ofNat (s.completed % ring.wqes)

inductive Event where
  | complete
  | lock (req : Request)
  | loadCqe
  | loadTail
  | write
  | advance
  | call (i : ℕ)
  | quietLoadCqe (i : ℕ)
  | quietLoadTail (i : ℕ)
  deriving DecidableEq

def Enabled (s : State) : Event → Prop
  | .complete => s.completed < s.posted
  | .lock _ => s.poster = .free
  | .loadCqe => ∃ req, s.poster = .polling req
  | .loadTail => ∃ req h, s.poster = .headRead req h
  | .write => ∃ req, s.poster = .ready req
  | .advance => s.poster = .written
  | .call i => s.quiet i = .idle
  | .quietLoadCqe i => ∃ b, s.quiet i = .called b
  | .quietLoadTail i => ∃ b c h, s.quiet i = .headRead b c h

instance (s : State) (e : Event) : Decidable (Enabled s e) := by
  cases e <;> dsimp only [Enabled]
  case loadCqe | write =>
    cases s.poster <;> first | exact isTrue ⟨_, rfl⟩ | exact isFalse fun ⟨_, h⟩ => nomatch h
  case loadTail =>
    cases s.poster <;> first | exact isTrue ⟨_, _, rfl⟩ | exact isFalse fun ⟨_, _, h⟩ => nomatch h
  case quietLoadCqe i =>
    cases s.quiet i <;> first | exact isTrue ⟨_, rfl⟩ | exact isFalse fun ⟨_, h⟩ => nomatch h
  case quietLoadTail i =>
    cases s.quiet i <;>
      first | exact isTrue ⟨_, _, _, rfl⟩ | exact isFalse fun ⟨_, _, _, h⟩ => nomatch h
  all_goals infer_instance

def touched (ring : Ring) (s : State) (req : Request) : List ℕ :=
  (List.range s.posted).filter fun w =>
    s.completed ≤ w ∧ ∃ j ∈ List.range wqeSlotCount, WritesSlot s.sq req (wqeSlot ring w j)

def posterLoadCqe (ring : Ring) (s : State) : Poster → Poster
  | .polling req => .headRead req (pollSqHead ring.depth (s.conIndx ring))
  | p => p

def posterLoadTail (ring : Ring) (s : State) : Poster → Poster
  | .headRead req h =>
    if pollAvailableSlots ring.depth h s.sq.tail < 3 then .polling req else .ready req
  | p => p

def quietLoadCqe (ring : Ring) (s : State) : Quiet → Quiet
  | .called b => .headRead b s.completed (pollSqHead ring.depth (s.conIndx ring))
  | c => c

def quietLoadTail (ring : Ring) (s : State) : Quiet → Quiet
  | .headRead b _ h =>
    if pollAvailableSlots ring.depth h s.sq.tail < ring.depth then .called b else .returned b
  | c => c

def next (ring : Ring) (s : State) : Event → State
  | .complete => { s with completed := s.completed + 1 }
  | .lock req => { s with poster := .polling req }
  | .loadCqe => { s with poster := posterLoadCqe ring s s.poster }
  | .loadTail => { s with poster := posterLoadTail ring s s.poster }
  | .write =>
    match s.poster with
    | .ready req =>
      { s with poster := .written, clobbered := s.clobbered ++ touched ring s req }
    | _ => s
  | .advance =>
    { s with poster := .free, posted := s.posted + 1, sq := bnxtReIncrTail s.sq 3 }
  | .call i => { s with quiet := update s.quiet i (.called s.posted) }
  | .quietLoadCqe i => { s with quiet := update s.quiet i (quietLoadCqe ring s (s.quiet i)) }
  | .quietLoadTail i => { s with quiet := update s.quiet i (quietLoadTail ring s (s.quiet i)) }

inductive Run (ring : Ring) (ok : State → Event → Prop) : State → Prop where
  | init : Run ring ok (initial ring)
  | step {s e} : Run ring ok s → Enabled s e → ok s e → Run ring ok (next ring s e)

def RoomInRing (ring : Ring) (s : State) : Event → Prop
  | .write =>
    s.posted < s.completed + ring.wqes ∧ ∀ length w, s.poster = .ready (.rma length w) → 0 ≤ length
  | .quietLoadTail i => ∀ b c h, s.quiet i = .headRead b c h → s.posted ≠ c + ring.wqes ∧
      c % ring.wqes < 2 ^ 16 ∧ s.sq.tail.toNat + ring.depth.toNat < 2 ^ 32 + h.toNat
  | _ => True

instance (ring : Ring) (s : State) (e : Event) : Decidable (RoomInRing ring s e) := by
  cases e <;> dsimp only [RoomInRing]
  case write =>
    refine @instDecidableAnd _ _ _ ?_
    rcases s.poster with _ | _ | _ | ⟨⟨length, w⟩ | _⟩ | _
    case ready.rma =>
      exact decidable_of_iff (0 ≤ length)
        ⟨fun hr _ _ hp => by cases hp; exact hr, fun hr => hr length w rfl⟩
    all_goals exact isTrue nofun
  case quietLoadTail i =>
    cases s.quiet i with
    | headRead b c head =>
      exact decidable_of_iff (s.posted ≠ c + ring.wqes ∧ c % ring.wqes < 2 ^ 16 ∧
          s.sq.tail.toNat + ring.depth.toNat < 2 ^ 32 + head.toNat)
        ⟨fun hr _ _ _ hq => by cases hq; exact hr, fun hr => hr b c head rfl⟩
    | _ => exact isTrue nofun
  all_goals infer_instance

theorem Ring.depth_eq (ring : Ring) : ring.depth.toNat = 3 * ring.wqes := by
  have := ring.multiple
  simp only [Ring.wqes, wqeSlotCount] at *
  omega

theorem Ring.wqes_pos (ring : Ring) : 0 < ring.wqes := by
  have := ring.depth_eq
  have := ring.positive
  omega

theorem succ_mod (n : ℕ) {w : ℕ} (hw : 0 < w) :
    (n + 1) % w = if n % w + 1 = w then 0 else n % w + 1 := by
  have hdiv := Nat.div_add_mod n w
  have hlt := Nat.mod_lt n hw
  split
  · rename_i heq
    rw [show n + 1 = w * (n / w + 1) by rw [Nat.mul_add]; omega, Nat.mul_mod_right]
  · rename_i hne
    rw [show n + 1 = w * (n / w) + (n % w + 1) by omega, Nat.mul_add_mod,
      Nat.mod_eq_of_lt (by omega)]

def TailAt (ring : Ring) (sq : DeviceSq) (n : ℕ) : Prop :=
  sq.depth = ring.depth ∧ sq.tail.toNat = 3 * (n % ring.wqes)

variable {ring : Ring}

theorem incr_tail_advances {sq : DeviceSq} {n : ℕ} (h : TailAt ring sq n) :
    TailAt ring (bnxtReIncrTail sq 3) (n + 1) := by
  obtain ⟨hd, ht⟩ := h
  have hw := ring.wqes_pos
  have hde := ring.depth_eq
  have hlt := Nat.mod_lt n hw
  have hb := ring.depth.toNat_lt
  have hsum : (sq.tail + (3 : UInt8).toUInt32).toNat = 3 * (n % ring.wqes) + 3 := by
    rw [UInt32.toNat_add, ht]
    change (3 * (n % ring.wqes) + 3) % 2 ^ 32 = _
    omega
  have hstep := succ_mod n hw
  unfold bnxtReIncrTail
  dsimp only
  split
  · rename_i hge
    rw [ge_iff_le, UInt32.le_iff_toNat_le, hsum, hd] at hge
    refine ⟨hd, ?_⟩
    dsimp only
    rw [UInt32.toNat_mod, hsum, hd, hstep, if_pos (by omega)]
    rw [show 3 * (n % ring.wqes) + 3 = ring.depth.toNat by omega, Nat.mod_self]
  · rename_i hge
    rw [ge_iff_le, UInt32.le_iff_toNat_le, hsum, hd] at hge
    refine ⟨hd, ?_⟩
    dsimp only
    rw [hsum, hstep, if_neg (by omega)]
    omega

theorem get_hwqe_slot {sq : DeviceSq} {n : ℕ} (h : TailAt ring sq n) {j : UInt32} (hj : j.toNat < 3)
    : (bnxtReGetHwqe sq j).toNat = 3 * (n % ring.wqes) + j.toNat := by
  obtain ⟨hde, ht⟩ := h
  have hlt := Nat.mod_lt n ring.wqes_pos
  have hdq := ring.depth_eq
  have hb := ring.depth.toNat_lt
  have hsum : (j + sq.tail).toNat = j.toNat + 3 * (n % ring.wqes) := by
    rw [UInt32.toNat_add, ht]
    omega
  have hno : ¬ j + sq.tail ≥ sq.depth := by
    rw [ge_iff_le, UInt32.le_iff_toNat_le, hsum, hde, ring.depth_eq]
    omega
  unfold bnxtReGetHwqe
  dsimp only
  rw [if_neg hno, hsum]
  omega

theorem wqe_slot_eq (ring : Ring) (w : ℕ) {j : ℕ} (hj : j < 3) :
    wqeSlot ring w j = 3 * (w % ring.wqes) + j := by
  have hlt := Nat.mod_lt w ring.wqes_pos
  have hdiv := Nat.div_add_mod w ring.wqes
  have hsplit : 3 * w + j = 3 * ring.wqes * (w / ring.wqes) + (3 * (w % ring.wqes) + j) := by
    rw [Nat.mul_assoc]; omega
  simp only [wqeSlot, wqeSlotCount, ring.depth_eq]
  rw [hsplit, Nat.mul_add_mod, Nat.mod_eq_of_lt (by omega)]

def Contained : Request → Prop
  | .rma length _ => 0 ≤ length
  | .amo => True

theorem contained_sge_bytes {req : Request} (h : Contained req) : sgeBytes req ≤ 16 := by
  cases req with
  | amo => exact le_refl 16
  | rma length isWrite =>
    simp only [sgeBytes]
    split
    · rename_i hin
      have h0 : 0 ≤ length.toInt := Int32.le_iff_toInt_le.mp h
      have h8 : length.toInt ≤ 8 := Int32.le_iff_toInt_le.mp hin.1
      omega
    · exact le_refl 16

theorem mod_eq_of_close {a b w : ℕ} (hab : a < b) (hb : b < a + w) : a % w ≠ b % w := by
  intro h
  have hd := Nat.dvd_of_mod_eq_zero (Nat.sub_mod_eq_zero_of_mod_eq h.symm)
  have := Nat.le_of_dvd (by omega) hd
  omega

variable {s : State}

theorem touched_nil {req : Request} (ht : TailAt ring s.sq s.posted)
    (hroom : s.posted < s.completed + ring.wqes) (hc : Contained req) :
    touched ring s req = [] := by
  have hb := contained_sge_bytes hc
  have h0 := get_hwqe_slot ht (j := 0) (by decide)
  have h1 := get_hwqe_slot ht (j := 1) (by decide)
  have h2 := get_hwqe_slot ht (j := 2) (by decide)
  simp only [UInt32.reduceToNat] at h0 h1 h2
  unfold touched
  rw [List.filter_eq_nil_iff]
  intro w hw hw'
  simp only [decide_eq_true_eq, List.mem_range] at hw hw'
  obtain ⟨hlo, j, hj, hslot⟩ := hw'
  have hne := mod_eq_of_close hw (by omega : s.posted < w + ring.wqes)
  rw [wqe_slot_eq ring w hj] at hslot
  simp only [WritesSlot, h0, h1, h2, wqeSlotCount] at hslot hj
  omega

theorem sq_head_eq {c : ℕ} (hc : c % ring.wqes < 2 ^ 16) :
    (pollSqHead ring.depth (UInt32.ofNat (c % ring.wqes))).toNat = 3 * (c % ring.wqes) := by
  have hlt := Nat.mod_lt c ring.wqes_pos
  have hde := ring.depth_eq
  have hmask : (UInt32.ofNat (c % ring.wqes) &&& 0xFFFF).toNat = c % ring.wqes := by
    rw [UInt32.toNat_and, UInt32.toNat_ofNat']
    change (c % ring.wqes % 2 ^ 32) &&& (2 ^ 16 - 1) = _
    rw [Nat.and_two_pow_sub_one_eq_mod]
    omega
  unfold pollSqHead
  rw [UInt32.toNat_mod, UInt32.toNat_mul, hmask]
  change c % ring.wqes * 3 % 2 ^ 32 % ring.depth.toNat = _
  rw [Nat.mod_eq_of_lt (by omega : c % ring.wqes * 3 < 2 ^ 32), Nat.mod_eq_of_lt (by omega)]
  omega

theorem available_all {head tail : UInt32} {a b : ℕ} (hh : head.toNat = 3 * (a % ring.wqes))
    (ht : tail.toNat = 3 * (b % ring.wqes))
    (hfit : tail.toNat + ring.depth.toNat < 2 ^ 32 + head.toNat)
    (h : ¬ pollAvailableSlots ring.depth head tail < ring.depth) :
    a % ring.wqes = b % ring.wqes := by
  have ha := Nat.mod_lt a ring.wqes_pos
  have hb := Nat.mod_lt b ring.wqes_pos
  have hde := ring.depth_eq
  have hlt := ring.depth.toNat_lt
  have hsum : (tail - head + ring.depth).toNat =
      3 * (b % ring.wqes) + 3 * ring.wqes - 3 * (a % ring.wqes) := by
    rw [UInt32.toNat_add, UInt32.toNat_sub, hh, ht, hde]
    rw [hh, ht, hde] at hfit
    omega
  unfold pollAvailableSlots at h
  dsimp only at h
  rw [UInt32.lt_iff_toNat_lt, UInt32.toNat_sub, UInt32.toNat_mod, hsum, hde] at h
  have hm : (3 * (b % ring.wqes) + 3 * ring.wqes - 3 * (a % ring.wqes)) % (3 * ring.wqes) = 0 := by
    have := Nat.mod_lt (3 * (b % ring.wqes) + 3 * ring.wqes - 3 * (a % ring.wqes))
      (show 0 < 3 * ring.wqes by omega)
    omega
  obtain ⟨k, hk⟩ := Nat.dvd_of_mod_eq_zero hm
  have hk1 : k = 1 := by
    rcases Nat.lt_trichotomy k 1 with h | h | h
    · obtain rfl : k = 0 := by omega
      omega
    · exact h
    · have : 3 * ring.wqes * 2 ≤ 3 * ring.wqes * k := Nat.mul_le_mul_left _ h
      omega
  subst hk1
  omega

def PosterOk (ring : Ring) (s : State) : Poster → Prop
  | .written => s.posted < s.completed + ring.wqes
  | _ => True

def QuietOk (ring : Ring) (s : State) : Quiet → Prop
  | .idle => True
  | .called b => b ≤ s.posted
  | .headRead b c h => b ≤ s.posted ∧ b ≤ c + ring.wqes ∧ c ≤ s.completed ∧
      h = pollSqHead ring.depth (UInt32.ofNat (c % ring.wqes))
  | .returned b => b ≤ s.completed

structure Invariant (ring : Ring) (s : State) : Prop where
  ordered : s.completed ≤ s.posted
  bounded : s.posted ≤ s.completed + ring.wqes
  tail : TailAt ring s.sq s.posted
  poster : PosterOk ring s s.poster
  quiet : ∀ i, QuietOk ring s (s.quiet i)
  intact : s.clobbered = []

theorem initial_invariant (ring : Ring) : Invariant ring (initial ring) := by
  refine ⟨le_refl _, Nat.zero_le _, ⟨rfl, ?_⟩, trivial, fun _ => trivial, rfl⟩
  simp [initial]

theorem quiet_ok_mono {u : State} {c : Quiet} (hp : s.posted ≤ u.posted)
    (hc : s.completed ≤ u.completed) (h : QuietOk ring s c) : QuietOk ring u c := by
  cases c with
  | idle => trivial
  | called b => exact le_trans h hp
  | headRead b c hd => exact ⟨h.1.trans hp, h.2.1, h.2.2.1.trans hc, h.2.2.2⟩
  | returned b => exact le_trans h hc

theorem quiet_update {i : ℕ} {c : Quiet} (h : ∀ i, QuietOk ring s (s.quiet i))
    (hc : QuietOk ring s c) (k : ℕ) : QuietOk ring s (update s.quiet i c k) := by
  by_cases hk : k = i
  · subst hk; simpa using hc
  · simpa [hk] using h k

theorem quiet_returns_drained (hs : Invariant ring s) {b c : ℕ} {h : UInt32}
    (hq : QuietOk ring s (.headRead b c h)) (hne : s.posted ≠ c + ring.wqes)
    (hc : c % ring.wqes < 2 ^ 16) (hfit : s.sq.tail.toNat + ring.depth.toNat < 2 ^ 32 + h.toNat)
    (hret : ¬ pollAvailableSlots ring.depth h s.sq.tail < ring.depth) : b ≤ s.completed := by
  obtain ⟨hb, hbc, hcc, rfl⟩ := hq
  have heq := available_all (sq_head_eq hc) hs.tail.2 hfit hret
  have hcp : c ≤ s.posted := hcc.trans hs.ordered
  obtain ⟨k, hk⟩ := Nat.dvd_of_mod_eq_zero (Nat.sub_mod_eq_zero_of_mod_eq heq.symm)
  have hbound := hs.bounded
  rcases Nat.lt_trichotomy k 1 with h1 | h1 | h1
  · obtain rfl : k = 0 := by omega
    omega
  · subst h1
    exact absurd (show s.posted = c + ring.wqes by omega) hne
  · have : ring.wqes * 2 ≤ ring.wqes * k := Nat.mul_le_mul_left _ h1
    omega

theorem step_preserves_invariant {e : Event} (h : Invariant ring s) (he : Enabled s e)
    (hr : RoomInRing ring s e) : Invariant ring (next ring s e) := by
  obtain ⟨ho, hb, ht, hp, hq, hi⟩ := id h
  cases e with
  | complete =>
    refine ⟨he, ?_, ht, ?_, ?_, hi⟩
    · dsimp [next]; omega
    · cases hm : s.poster <;> simp only [hm, next, PosterOk] at hp ⊢
      omega
    · exact fun i => quiet_ok_mono (s := s) (le_refl _) (Nat.le_succ _) (hq i)
  | lock req => exact ⟨ho, hb, ht, trivial, hq, hi⟩
  | loadCqe =>
    obtain ⟨req, hm⟩ := he
    refine ⟨ho, hb, ht, ?_, hq, hi⟩
    simp [next, hm, posterLoadCqe, PosterOk]
  | loadTail =>
    obtain ⟨req, head, hm⟩ := he
    refine ⟨ho, hb, ht, ?_, hq, hi⟩
    simp only [next, hm, posterLoadTail]
    split <;> trivial
  | write =>
    obtain ⟨req, hm⟩ := he
    have hc : Contained req := by
      cases req with
      | amo => trivial
      | rma length w => exact hr.2 length w hm
    simp only [next, hm]
    exact ⟨ho, hb, ht, hr.1, hq, by rw [hi, touched_nil ht hr.1 hc, List.nil_append]⟩
  | advance =>
    rw [he] at hp
    refine ⟨ho.trans (Nat.le_succ _), hp, incr_tail_advances ht, trivial, ?_, hi⟩
    exact fun i => quiet_ok_mono (s := s) (Nat.le_succ _) (le_refl _) (hq i)
  | call i => exact ⟨ho, hb, ht, hp, quiet_update hq (le_refl s.posted), hi⟩
  | quietLoadCqe i =>
    obtain ⟨b, hm⟩ := he
    have hold := hq i
    rw [hm] at hold
    refine ⟨ho, hb, ht, hp, quiet_update hq ?_, hi⟩
    rw [hm]
    exact ⟨hold, hold.trans hb, le_refl _, rfl⟩
  | quietLoadTail i =>
    obtain ⟨b, c, head, hm⟩ := he
    have hold := hq i
    rw [hm] at hold
    refine ⟨ho, hb, ht, hp, quiet_update hq ?_, hi⟩
    simp only [hm, quietLoadTail]
    split
    · exact hold.1
    · rename_i hret
      obtain ⟨hne, hc, hfit⟩ := hr b c head hm
      exact quiet_returns_drained h hold hne hc hfit hret

theorem run_invariant (h : Run ring (RoomInRing ring) s) : Invariant ring s := by
  induction h with
  | init => exact initial_invariant ring
  | step _ he hr ih => exact step_preserves_invariant ih he hr

def runTrace (ring : Ring) (s : State) : List Event → State
  | [] => s
  | e :: es => runTrace ring (next ring s e) es

def ValidTrace (ring : Ring) (ok : State → Event → Prop) (s : State) : List Event → Prop
  | [] => True
  | e :: es => Enabled s e ∧ ok s e ∧ ValidTrace ring ok (next ring s e) es

theorem valid_trace_run {ok : State → Event → Prop} {es : List Event} (hs : Run ring ok s)
    (h : ValidTrace ring ok s es) : Run ring ok (runTrace ring s es) := by
  induction es generalizing s with
  | nil => exact hs
  | cons e es ih => exact ih (.step hs h.1 h.2.1) h.2.2

def ringOfTwo : Ring := ⟨6, by decide, by decide⟩

def postTrace : List Event := [.lock (.rma 8 true), .loadCqe, .loadTail, .write, .advance]

def quietTrace : List Event := [.call 0, .quietLoadCqe 0, .quietLoadTail 0]

def uncompletedPosts : ℕ → State
  | 0 => initial ringOfTwo
  | n + 1 => runTrace ringOfTwo (uncompletedPosts n) postTrace

end GdaBnxtSendRing
