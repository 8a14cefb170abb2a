import Rocshmem.GdaMlx5CompletionWait
import Rocshmem.GuardedMachines

/-! The slots of one mlx5 send queue under all posting functions. Posts take the SQ lock, the
NIC completes the WQEs it was told of in order. Only WQEs with `MLX5_WQE_CTRL_CQ_UPDATE` reach
the CQ entry, so what the entry shows lags behind what is complete. The `dp_single_lane`
functions neither set that flag nor wait for space. -/
namespace GdaMlx5SendQueue

open GdaMlx5CompletionWait GuardedMachines

inductive Path where
  | rma (numPeGroupLanes : UInt8) (ringDb : Bool)
  | rmaSingle (ringDb : Bool)
  | amo (numPeGroupLanes : UInt8) (fetching : Bool)
  | amoSingle (fetching : Bool)
  | rmaDpSingleLane
  | amoDpSingleLane
  deriving DecidableEq, Repr

namespace Path

def lanes : Path → ℕ
  | .rma n _ | .amo n _ => n.toNat
  | .rmaSingle _ | .amoSingle _ | .rmaDpSingleLane | .amoDpSingleLane => 1

def polls : Path → Bool
  | .rma _ _ | .rmaSingle _ | .amo _ _ | .amoSingle _ => true
  | .rmaDpSingleLane | .amoDpSingleLane => false

def cqUpdate : Path → Bool
  | .rma _ _ | .rmaSingle _ | .amo _ _ | .amoSingle _ => true
  | .rmaDpSingleLane | .amoDpSingleLane => false

def ringsDoorbell : Path → Bool
  | .rma _ ringDb | .rmaSingle ringDb => ringDb
  | .amo _ _ | .amoSingle _ | .rmaDpSingleLane | .amoDpSingleLane => true

def fetching : Path → Bool
  | .amo _ fetching | .amoSingle fetching => fetching
  | .rma _ _ | .rmaSingle _ | .rmaDpSingleLane | .amoDpSingleLane => false

end Path

structure Wqe where
  number : ℕ
  cqUpdate : Bool
  deriving DecidableEq, Repr

inductive Poster where
  | free
  | locked (p : Path)
  | polling (p : Path) (snapshot : ℕ)
  | writing (p : Path) (pending : List ℕ)
  | counted (p : Path)
  | rung
  deriving DecidableEq, Repr

structure State where
  posted : ℕ
  rung : ℕ
  completed : ℕ
  shown : ℕ
  cqe : Cqe
  slots : ℕ → Option Wqe
  poster : Poster

def State.sqPost (s : State) : UInt64 := UInt64.ofNat s.posted

def initial : State :=
  ⟨0, 0, 0, 0, GdaMlx5CompletionWait.initial.cqe, fun _ => none, .free⟩

def mlx5WqeIdx (sqPost : UInt64) (lane : ℕ) : UInt16 := (sqPost + UInt64.ofNat lane).toUInt16

def mlx5SqIdx (q : SendQueue) (wqeIdx : UInt16) : UInt16 := wqeIdx &&& (q.depth - 1)

def State.slotOf (q : SendQueue) (s : State) (lane : ℕ) : ℕ :=
  (mlx5SqIdx q (mlx5WqeIdx s.sqPost lane)).toNat

inductive Event where
  | lock (p : Path)
  | enter
  | poll
  | write (lane : ℕ)
  | count
  | ring
  | release
  | complete (signature owner : UInt8)
  deriving DecidableEq, Repr

def Enabled (s : State) : Event → Prop
  | .lock _ => s.poster = .free
  | .enter => ∃ p, s.poster = .locked p
  | .poll => ∃ p v, s.poster = .polling p v
  | .write lane => ∃ p pending, s.poster = .writing p pending ∧ lane ∈ pending
  | .count => ∃ p, s.poster = .writing p []
  | .ring => ∃ p, s.poster = .counted p
  | .release => s.poster = .rung
  | .complete _ owner => s.completed < s.rung ∧ owner.toNat < 16

instance (s : State) (e : Event) : Decidable (Enabled s e) := by
  cases e <;> dsimp only [Enabled]
  case enter | ring =>
    cases s.poster <;> first | exact isTrue ⟨_, rfl⟩ | exact isFalse fun ⟨_, h⟩ => nomatch h
  case poll =>
    cases s.poster <;> first | exact isTrue ⟨_, _, rfl⟩ | exact isFalse fun ⟨_, _, h⟩ => nomatch h
  case write lane =>
    cases s.poster with
    | writing p pending =>
      exact decidable_of_iff (lane ∈ pending)
        ⟨fun h => ⟨p, pending, rfl, h⟩, fun ⟨_, _, hp, h⟩ => by cases hp; exact h⟩
    | _ => exact isFalse fun ⟨_, _, h, _⟩ => nomatch h
  case count =>
    rcases s.poster with _ | _ | _ | ⟨_, _ | _⟩ | _ | _ <;>
      first | exact isTrue ⟨_, rfl⟩ | exact isFalse fun ⟨_, h⟩ => nomatch h
  all_goals infer_instance

def startWriting (p : Path) : Poster := .writing p (List.range p.lanes)

def lockPoster (p : Path) : Poster := if p.polls then .locked p else startWriting p

def enterPoster (q : SendQueue) (s : State) : Poster → Poster
  | .locked p =>
    if pollEntryReturns q.depth s.sqPost (UInt16.ofNat p.lanes) then startWriting p
    else .polling p s.posted
  | c => c

def pollPoster (q : SendQueue) (s : State) : Poster → Poster
  | .polling p v =>
    if pollIterationReturns q.depth (UInt64.ofNat v) (UInt16.ofNat p.lanes) (wqecntSigOpOwn s.cqe)
    then startWriting p
    else .polling p v
  | c => c

def reports (q : SendQueue) (s : State) : Bool :=
  (s.slots (s.completed % q.depth.toNat)).any Wqe.cqUpdate

def next (q : SendQueue) (s : State) : Event → State
  | .lock p => { s with poster := lockPoster p }
  | .enter => { s with poster := enterPoster q s s.poster }
  | .poll => { s with poster := pollPoster q s s.poster }
  | .write lane =>
    match s.poster with
    | .writing p pending =>
      { s with
        slots := Function.update s.slots (s.slotOf q lane) (some ⟨s.posted + lane, p.cqUpdate⟩)
        poster := .writing p (pending.erase lane) }
    | _ => s
  | .count =>
    match s.poster with
    | .writing p _ => { s with posted := s.posted + p.lanes, poster := .counted p }
    | _ => s
  | .ring =>
    match s.poster with
    | .counted p =>
      { s with rung := if p.ringsDoorbell then s.posted else s.rung, poster := .rung }
    | _ => s
  | .release => { s with poster := .free }
  | .complete signature owner =>
    { s with
      completed := s.completed + 1
      shown := if reports q s then s.completed + 1 else s.shown
      cqe :=
        if reports q s then
          ⟨byteswap16 (UInt16.ofNat s.completed), signature, mlx5CqeReq * 16 + owner⟩
        else s.cqe }

def machine (q : SendQueue) : Machine State Event := ⟨initial, Enabled, next q⟩

instance (q : SendQueue) (s : State) (e : Event) : Decidable ((machine q).enabled s e) :=
  inferInstanceAs (Decidable (Enabled s e))

def overwrites (q : SendQueue) (s : State) : Event → Bool
  | .write lane => (s.slots (s.slotOf q lane)).any fun wqe => s.completed ≤ wqe.number
  | _ => false

def RoomShown (q : SendQueue) (s : State) : Event → Prop
  | .lock p => p.polls = false → s.posted < s.shown + q.depth.toNat
  | .enter => ∀ p, s.poster = .locked p → s.posted + p.lanes < 2 ^ 64
  | _ => True

instance (q : SendQueue) (s : State) (e : Event) : Decidable (RoomShown q s e) := by
  cases e <;> dsimp only [RoomShown]
  case enter =>
    cases s.poster with
    | locked p =>
      exact decidable_of_iff (s.posted + p.lanes < 2 ^ 64)
        ⟨fun hlt _ hp => by cases hp; exact hlt, fun hall => hall p rfl⟩
    | _ => exact isTrue nofun
  all_goals infer_instance

theorem lanes_lt (p : Path) : p.lanes < 256 := by
  cases p with
  | rma n _ | amo n _ => exact n.toNat_lt
  | _ => exact (by decide : 1 < 256)

theorem lanes_toNat (p : Path) : (UInt16.ofNat p.lanes).toNat = p.lanes := by
  have := lanes_lt p
  rw [UInt16.toNat_ofNat', Nat.mod_eq_of_lt (by omega)]

theorem lanes_of_not_polls {p : Path} (h : p.polls = false) : p.lanes = 1 := by
  cases p with
  | rma _ _ | rmaSingle _ | amo _ _ | amoSingle _ => cases h
  | _ => rfl

theorem slotOf_eq (q : SendQueue) (s : State) (lane : ℕ) :
    s.slotOf q lane = (s.posted + lane) % q.depth.toNat := by
  obtain ⟨k, hk, hdepth⟩ := q.pow
  have hone : (q.depth - 1).toNat = 2 ^ k - 1 := by
    have hle : (1 : UInt16) ≤ q.depth := by
      rw [UInt16.le_iff_toNat_le, hdepth]
      exact Nat.one_le_two_pow
    rw [UInt16.toNat_sub_of_le _ _ hle, hdepth]
    rfl
  have hdvd : 2 ^ k ∣ 2 ^ 16 := Nat.pow_dvd_pow 2 (by omega)
  have hdvd' : 2 ^ k ∣ 2 ^ 64 := Nat.pow_dvd_pow 2 (by omega)
  unfold State.slotOf mlx5SqIdx mlx5WqeIdx State.sqPost
  rw [UInt16.toNat_and, hone, Nat.and_two_pow_sub_one_eq_mod, UInt64.toNat_toUInt16,
    UInt64.toNat_add, UInt64.toNat_ofNat', UInt64.toNat_ofNat', hdepth,
    Nat.mod_mod_of_dvd _ hdvd, Nat.mod_mod_of_dvd _ hdvd', Nat.add_mod,
    Nat.mod_mod_of_dvd _ hdvd', Nat.mod_mod_of_dvd _ hdvd', ← Nat.add_mod]

theorem entry_returns_room {q : SendQueue} {r : UInt16} {p : ℕ} (hp : p + r.toNat < 2 ^ 64)
    (h : pollEntryReturns q.depth (UInt64.ofNat p) r = true) : p + r.toNat ≤ q.depth.toNat := by
  simp only [pollEntryReturns, decide_eq_true_eq, UInt64.le_iff_toNat_le, UInt64.toNat_add,
    UInt64.toNat_ofNat', UInt16.toNat_toUInt64] at h
  omega

def Counted (s : State) : Prop := ∀ i wqe, s.slots i = some wqe → wqe.number < s.posted

/-- The holder may write its WQEs: there is room for them after the one in the CQ entry, and
the lanes that are still to write have left nothing in the queue. -/
structure MayWrite (q : SendQueue) (s : State) (p : Path) (pending : List ℕ) : Prop where
  room : s.posted + p.lanes ≤ s.shown + q.depth.toNat
  inRange : ∀ lane ∈ pending, lane < p.lanes
  nodup : pending.Nodup
  written : ∀ i wqe, s.slots i = some wqe → wqe.number < s.posted ∨
    ∃ lane < p.lanes, lane ∉ pending ∧ wqe.number = s.posted + lane

def PosterOk (q : SendQueue) (s : State) : Poster → Prop
  | .polling _ v => v = s.posted ∧ Counted s
  | .writing p pending => MayWrite q s p pending
  | .free | .locked _ | .counted _ | .rung => Counted s

structure Invariant (q : SendQueue) (s : State) : Prop where
  rung_le : s.rung ≤ s.posted
  completed_le : s.completed ≤ s.rung
  shown_le : s.shown ≤ s.completed
  shows : ShowsCompleted s.cqe s.shown
  window : s.posted ≤ s.shown + q.depth.toNat
  places : ∀ i wqe, s.slots i = some wqe → i = wqe.number % q.depth.toNat
  poster : PosterOk q s s.poster

theorem same_slot_apart {d x y : ℕ} (hmod : x % d = y % d) (hlt : x < y) : x + d ≤ y := by
  have hdvd : d ∣ y - x := (Nat.modEq_iff_dvd' hlt.le).mp hmod
  have := Nat.le_of_dvd (by omega) hdvd
  omega

theorem initial_invariant (q : SendQueue) : Invariant q initial :=
  ⟨le_refl _, le_refl _, le_refl _, shows_initial, Nat.zero_le _, fun _ _ h => (by cases h),
    fun _ _ h => (by cases h)⟩

section Steps

variable {q : SendQueue} {s : State}

variable {p : Path} {pending : List ℕ}

theorem next_write (hp : s.poster = .writing p pending) (lane : ℕ) :
    next q s (.write lane) = { s with
      slots := Function.update s.slots (s.slotOf q lane) (some ⟨s.posted + lane, p.cqUpdate⟩)
      poster := .writing p (pending.erase lane) } := by
  simp only [next, hp]

theorem next_count (hp : s.poster = .writing p pending) :
    next q s .count = { s with posted := s.posted + p.lanes, poster := .counted p } := by
  simp only [next, hp]

theorem next_ring (hp : s.poster = .counted p) : next q s .ring = { s with
      rung := if p.ringsDoorbell then s.posted else s.rung, poster := .rung } := by
  simp only [next, hp]

theorem posterOk_mono {s' : State} (hposted : s'.posted = s.posted) (hslots : s'.slots = s.slots)
    (hshown : s.shown ≤ s'.shown) {c : Poster} (h : PosterOk q s c) : PosterOk q s' c := by
  have hcounted : Counted s → Counted s' := by
    unfold Counted
    rw [hposted, hslots]
    exact id
  cases c with
  | free | locked _ | counted _ | rung => exact hcounted h
  | polling p v => exact ⟨h.1.trans hposted.symm, hcounted h.2⟩
  | writing p pending =>
    refine ⟨?_, h.inRange, h.nodup, ?_⟩
    · have := h.room
      rw [hposted]
      omega
    · rw [hposted, hslots]
      exact h.written

theorem startWriting_ok (h : Counted s) (hroom : s.posted + p.lanes ≤ s.shown + q.depth.toNat) :
    PosterOk q s (startWriting p) :=
  ⟨hroom, fun _ hl => List.mem_range.mp hl, List.nodup_range, fun i wqe hi => .inl (h i wqe hi)⟩

section

variable (h : Invariant q s)
include h

theorem lock_preserves (he : Enabled s (.lock p)) (hok : RoomShown q s (.lock p)) :
    Invariant q (next q s (.lock p)) := by
  refine { h with poster := ?_ }
  have hcounted : Counted s := by
    have := h.poster
    rw [he] at this
    exact this
  refine posterOk_mono (s := s) (by rfl) (by rfl) (by exact le_refl _) ?_
  change PosterOk q s (lockPoster p)
  unfold lockPoster
  cases hp : p.polls with
  | true => exact hcounted
  | false =>
    have := hok hp
    refine startWriting_ok hcounted ?_
    rw [lanes_of_not_polls hp]
    exact this

theorem enter_preserves (he : Enabled s .enter) (hok : RoomShown q s .enter) :
    Invariant q (next q s .enter) := by
  obtain ⟨p, hp⟩ := he
  refine { h with poster := ?_ }
  have hcounted := h.poster
  rw [hp] at hcounted
  have hlanes := lanes_toNat p
  refine posterOk_mono (s := s) (by rfl) (by rfl) (by exact le_refl _) ?_
  change PosterOk q s (enterPoster q s s.poster)
  rw [hp, enterPoster]
  split
  · rename_i hret
    have hroom := entry_returns_room (by rw [hlanes]; exact hok p hp) hret
    exact startWriting_ok hcounted (by omega)
  · exact ⟨rfl, hcounted⟩

theorem poll_preserves (he : Enabled s .poll) : Invariant q (next q s .poll) := by
  obtain ⟨p, v, hp⟩ := he
  refine { h with poster := ?_ }
  obtain ⟨hv, hcounted⟩ : v = s.posted ∧ Counted s := by
    have := h.poster
    rw [hp] at this
    exact this
  have hlanes := lanes_toNat p
  refine posterOk_mono (s := s) (by rfl) (by rfl) (by exact le_refl _) ?_
  change PosterOk q s (pollPoster q s s.poster)
  rw [hp, pollPoster]
  split
  · rename_i hret
    subst hv
    have hle := (h.shown_le.trans h.completed_le).trans h.rung_le
    have hroom := iteration_returns_room h.shows hle h.window hret
    exact startWriting_ok hcounted (by omega)
  · exact ⟨hv, hcounted⟩

theorem write_safe {lane : ℕ} (he : Enabled s (.write lane)) {wqe : Wqe}
    (hslot : s.slots (s.slotOf q lane) = some wqe) : wqe.number < s.completed := by
  obtain ⟨p, pending, hp, hl⟩ := he
  have hwrite := h.poster
  rw [hp] at hwrite
  have hplace := h.places _ _ hslot
  rw [slotOf_eq] at hplace
  have hlane := hwrite.inRange lane hl
  have hroom := hwrite.room
  have hshown := h.shown_le
  have hle := (h.shown_le.trans h.completed_le).trans h.rung_le
  rcases hwrite.written _ _ hslot with hold | ⟨lane', hlane', hdone, hnew⟩
  · have := same_slot_apart hplace.symm (by omega)
    omega
  · -- the lanes of one post have slots of their own
    have hne : lane' ≠ lane := fun heq => hdone (heq ▸ hl)
    rw [hnew] at hplace
    rcases Nat.lt_or_gt_of_ne hne with hlt | hgt
    · have := same_slot_apart hplace.symm (by omega)
      omega
    · have := same_slot_apart hplace (by omega)
      omega

theorem write_preserves {lane : ℕ} (he : Enabled s (.write lane)) :
    Invariant q (next q s (.write lane)) := by
  obtain ⟨p, pending, hp, hl⟩ := he
  have hwrite := h.poster
  rw [hp] at hwrite
  rw [next_write hp]
  refine ⟨h.rung_le, h.completed_le, h.shown_le, h.shows, h.window, fun i wqe hi => ?_,
    hwrite.room, fun l hl' => ?_, hwrite.nodup.erase lane, fun i wqe hi => ?_⟩
  · grind [Invariant, slotOf_eq]
  · exact hwrite.inRange l (List.mem_of_mem_erase hl')
  · dsimp only at hi ⊢
    by_cases hslot : i = s.slotOf q lane
    · subst hslot
      rw [Function.update_self] at hi
      cases hi
      exact .inr ⟨lane, hwrite.inRange lane hl, hwrite.nodup.not_mem_erase, rfl⟩
    · rw [Function.update_of_ne hslot] at hi
      refine (hwrite.written i wqe hi).imp_right ?_
      rintro ⟨lane', hlt, hdone, hnum⟩
      exact ⟨lane', hlt, fun hin => hdone (List.mem_of_mem_erase hin), hnum⟩

theorem count_preserves (he : Enabled s .count) : Invariant q (next q s .count) := by
  obtain ⟨p, hp⟩ := he
  have hwrite := h.poster
  rw [hp] at hwrite
  rw [next_count hp]
  refine ⟨h.rung_le.trans (Nat.le_add_right _ _), h.completed_le, h.shown_le, h.shows,
    hwrite.room, h.places, fun i wqe hi => ?_⟩
  dsimp only at hi ⊢
  rcases hwrite.written i wqe hi with hold | ⟨lane, hlt, -, hnum⟩ <;> omega

theorem ring_preserves (he : Enabled s .ring) : Invariant q (next q s .ring) := by
  obtain ⟨p, hp⟩ := he
  have hcounted := h.poster
  rw [hp] at hcounted
  rw [next_ring hp]
  have hrung := h.rung_le
  have hcompleted := h.completed_le
  refine ⟨?_, ?_, h.shown_le, h.shows, h.window, h.places, hcounted⟩
  · dsimp only
    split_ifs <;> omega
  · dsimp only
    split_ifs <;> omega

theorem release_preserves (he : Enabled s .release) : Invariant q (next q s .release) := by
  have hcounted := h.poster
  rw [he] at hcounted
  exact { h with poster := hcounted }

theorem complete_preserves {signature owner : UInt8} (he : Enabled s (.complete signature owner)) :
    Invariant q (next q s (.complete signature owner)) := by
  obtain ⟨hlt, -⟩ := he
  have hshown := h.shown_le
  have hwindow := h.window
  have hmono : s.shown ≤ (next q s (.complete signature owner)).shown := by
    simp only [next]
    split_ifs <;> omega
  refine ⟨h.rung_le, hlt, ?_, ?_, ?_, h.places, posterOk_mono (by rfl) (by rfl) hmono h.poster⟩
  · simp only [next]
    split_ifs <;> omega
  · simp only [next]
    split_ifs
    · exact shows_complete _ _ _
    · exact h.shows
  · change s.posted ≤ (next q s (.complete signature owner)).shown + q.depth.toNat
    omega

theorem step_preserves {e : Event} (he : Enabled s e) (hok : RoomShown q s e) :
    Invariant q (next q s e) := by
  cases e with
  | lock p => exact lock_preserves h he hok
  | enter => exact enter_preserves h he hok
  | poll => exact poll_preserves h he
  | write lane => exact write_preserves h he
  | count => exact count_preserves h he
  | ring => exact ring_preserves h he
  | release => exact release_preserves h he
  | complete signature owner => exact complete_preserves h he

end

theorem run_invariant (h : (machine q).Run (RoomShown q) s) : Invariant q s :=
  h.induct (initial_invariant q) fun _ _ ih he hok => step_preserves ih he hok

/-- In a run in which the functions that do not wait find room after the WQE in the CQ entry,
no step writes a slot whose WQE has not completed. -/
theorem no_live_slot_overwritten {e : Event} (h : (machine q).Run (RoomShown q) s)
    (he : Enabled s e) : overwrites q s e = false := by
  cases e with
  | write lane =>
    have hinv := run_invariant h
    simp only [overwrites, Option.any_eq_false]
    intro wqe hslot
    have := write_safe hinv he hslot
    simpa using this
  | _ => rfl

end Steps

def slotReused : List Event :=
  [.lock (.rma 3 true), .enter, .write 2, .write 0, .write 1, .count, .ring, .release,
    .lock (.amo 2 true), .enter, .poll, .complete 0 0, .poll]

theorem slot_reused_after_completion :
    ∃ s, (machine depthFour).Run (RoomShown depthFour) s ∧ s.slots 0 = some ⟨0, true⟩ ∧
      s.slotOf depthFour 1 = 0 ∧ Enabled s (.write 1) ∧
      overwrites depthFour s (.write 1) = false := by
  obtain ⟨s, hrun, hs⟩ := run_of_replay (machine depthFour) (RoomShown depthFour) slotReused
    (fun s => s.slots 0 = some ⟨0, true⟩ ∧ s.slotOf depthFour 1 = 0 ∧
      Enabled s (.write 1)) (by decide)
  obtain ⟨hslot, hindex, hen⟩ := hs
  exact ⟨s, hrun, hslot, hindex, hen, no_live_slot_overwritten hrun hen⟩

def secondDpPost : List Event :=
  [.lock .rmaDpSingleLane, .write 0, .count, .ring, .release, .lock .rmaDpSingleLane]

/-- In a queue of one slot the second post writes over the first WQE, which is still outstanding. -/
theorem dp_post_overwrites :
    ∃ s, (machine depthOne).Run anyStep s ∧ Enabled s (.write 0) ∧
      overwrites depthOne s (.write 0) = true := by
  obtain ⟨s, hrun, hs⟩ := run_of_replay (machine depthOne) anyStep secondDpPost
    (fun s => Enabled s (.write 0) ∧ overwrites depthOne s (.write 0)) (by decide)
  exact ⟨s, hrun, hs⟩

end GdaMlx5SendQueue
