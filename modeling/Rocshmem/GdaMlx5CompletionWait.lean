import Mathlib

/-! The completion wait of one mlx5 queue pair: a caller of `mlx5_poll_cq_until`
interleaved with posts by other waves and with NIC completions. The NIC completes
in order, overwrites the single CQ entry at every completion and never holds more
than `depth` outstanding WQEs. The post counter is the 64-bit `mlx5_sq.post`; the
number of WQEs ever posted is kept beside it. -/
namespace GdaMlx5CompletionWait

structure Cqe where
  wqeCounter : UInt16
  signature : UInt8
  opOwn : UInt8
  deriving DecidableEq, Repr

def mlx5CqeReq : UInt8 := 0
def mlx5CqeInvalid : UInt8 := 15

def byteswap16 (v : UInt16) : UInt16 := UInt16.ofNat (v.toNat % 256 * 256 + v.toNat / 256)

def wqecntSigOpOwn (c : Cqe) : UInt32 :=
  UInt32.ofNat (c.wqeCounter.toNat + c.signature.toNat * 2 ^ 16 + c.opOwn.toNat * 2 ^ 24)

def cqeOpcode (w : UInt32) : UInt8 := (w >>> 28).toUInt8

def cqeSqHead (w : UInt32) : UInt16 := byteswap16 w.toUInt16

def pollEntryReturns (sqDepth : UInt16) (sqPost : UInt64) (requested : UInt16) : Bool :=
  sqPost + requested.toUInt64 ≤ sqDepth.toUInt64

def pollIterationReturns (sqDepth : UInt16) (sqPost : UInt64) (requested : UInt16)
    (w : UInt32) : Bool :=
  if cqeOpcode w = mlx5CqeInvalid then false
  else
    let posted : UInt16 := sqPost.toUInt16
    let completed : UInt16 := cqeSqHead w + 1
    let consumedSlots : UInt16 := posted - completed
    let availableSlots : UInt16 := sqDepth - consumedSlots
    consumedSlots > sqDepth || availableSlots ≥ requested

structure SendQueue where
  depth : UInt16
  pow : ∃ k, k ≤ 15 ∧ depth.toNat = 2 ^ k

inductive Caller where
  | idle
  | called (before : ℕ)
  | polling (before snapshot : ℕ)
  | returned (before snapshot : ℕ)
  deriving DecidableEq, Repr

structure State where
  posted : ℕ
  completed : ℕ
  cqe : Cqe
  caller : Caller
  deriving DecidableEq, Repr

def State.sqPost (s : State) : UInt64 := UInt64.ofNat s.posted

def initial : State := ⟨0, 0, ⟨0xf0f0, 0xf0, 0xf0⟩, .idle⟩

inductive Event where
  | post (k : ℕ)
  | complete (signature owner : UInt8)
  | call
  | enter
  | poll
  deriving DecidableEq, Repr

def Enabled (q : SendQueue) (s : State) : Event → Prop
  | .post k => s.posted + k ≤ s.completed + q.depth.toNat
  | .complete _ owner => s.completed < s.posted ∧ owner.toNat < 16
  | .call => s.caller = .idle
  | .enter => ∃ b, s.caller = .called b
  | .poll => ∃ b p, s.caller = .polling b p

instance (q : SendQueue) (s : State) (e : Event) : Decidable (Enabled q s e) := by
  cases e <;> dsimp only [Enabled]
  case enter =>
    cases s.caller <;> first | exact isTrue ⟨_, rfl⟩ | exact isFalse fun ⟨_, h⟩ => nomatch h
  case poll =>
    cases s.caller <;> first | exact isTrue ⟨_, _, rfl⟩ | exact isFalse fun ⟨_, _, h⟩ => nomatch h
  all_goals infer_instance

def enterCaller (q : SendQueue) (r : UInt16) (s : State) : Caller → Caller
  | .called b =>
    if pollEntryReturns q.depth s.sqPost r then .returned b s.posted else .polling b s.posted
  | c => c

def pollCaller (q : SendQueue) (r : UInt16) (s : State) : Caller → Caller
  | .polling b p =>
    if pollIterationReturns q.depth (UInt64.ofNat p) r (wqecntSigOpOwn s.cqe) then .returned b p
    else .polling b p
  | c => c

def next (q : SendQueue) (r : UInt16) (s : State) : Event → State
  | .post k => { s with posted := s.posted + k }
  | .complete signature owner =>
    { s with
      completed := s.completed + 1
      cqe := ⟨byteswap16 (UInt16.ofNat s.completed), signature, mlx5CqeReq * 16 + owner⟩ }
  | .call => { s with caller := .called s.posted }
  | .enter => { s with caller := enterCaller q r s s.caller }
  | .poll => { s with caller := pollCaller q r s s.caller }

inductive Mlx5PollCqUntil (q : SendQueue) (r : UInt16) : State → Prop where
  | init : Mlx5PollCqUntil q r initial
  | step {s e} : Mlx5PollCqUntil q r s → Enabled q s e → Mlx5PollCqUntil q r (next q r s e)

def Mlx5Quiet (q : SendQueue) (s : State) : Prop := Mlx5PollCqUntil q q.depth s

theorem SendQueue.depth_le (q : SendQueue) : q.depth.toNat ≤ 32768 := by
  obtain ⟨k, hk, h⟩ := q.pow
  rw [h]
  exact (Nat.pow_le_pow_right (by decide) hk)

theorem byteswap16_toNat (v : UInt16) :
    (byteswap16 v).toNat = v.toNat % 256 * 256 + v.toNat / 256 := by
  have hv := v.toNat_lt
  simp only [byteswap16, UInt16.toNat_ofNat']
  omega

theorem byteswap16_byteswap16 (v : UInt16) : byteswap16 (byteswap16 v) = v := by
  have hv := v.toNat_lt
  apply UInt16.toNat.inj
  rw [byteswap16_toNat, byteswap16_toNat]
  omega

theorem sqHead_load (c : Cqe) : cqeSqHead (wqecntSigOpOwn c) = byteswap16 c.wqeCounter := by
  have h := c.wqeCounter.toNat_lt
  unfold cqeSqHead
  congr 1
  apply UInt16.toNat.inj
  simp only [wqecntSigOpOwn, UInt32.toNat_toUInt16, UInt32.toNat_ofNat']
  omega

def ShowsCompleted (c : Cqe) (completed : ℕ) : Prop :=
  (completed = 0 → cqeOpcode (wqecntSigOpOwn c) = mlx5CqeInvalid) ∧
  (0 < completed → cqeSqHead (wqecntSigOpOwn c) + 1 = UInt16.ofNat completed)

theorem shows_initial : ShowsCompleted initial.cqe 0 := by
  constructor
  · intro _; decide
  · intro h; omega

theorem shows_complete (n : ℕ) (signature owner : UInt8) :
    ShowsCompleted ⟨byteswap16 (UInt16.ofNat n), signature, mlx5CqeReq * 16 + owner⟩ (n + 1) := by
  refine ⟨by omega, fun _ => ?_⟩
  rw [sqHead_load, byteswap16_byteswap16]
  simp [UInt16.ofNat_add]

theorem iteration_returns_room {q : SendQueue} {r : UInt16} {c : Cqe} {shown p : ℕ}
    (hc : ShowsCompleted c shown) (hle : shown ≤ p) (hp : p ≤ shown + q.depth.toNat)
    (h : pollIterationReturns q.depth (UInt64.ofNat p) r (wqecntSigOpOwn c) = true) :
    p + r.toNat ≤ shown + q.depth.toNat := by
  unfold pollIterationReturns at h
  split at h
  · cases h
  · rename_i hop
    have hpos : 0 < shown := Nat.pos_of_ne_zero fun h0 => hop (hc.1 h0)
    rw [hc.2 hpos] at h
    have hd := q.depth_le
    have hr := r.toNat_lt
    simp only [Bool.or_eq_true, decide_eq_true_eq, gt_iff_lt, ge_iff_le, UInt16.lt_iff_toNat_lt,
      UInt16.le_iff_toNat_le, UInt16.toNat_sub, UInt64.toNat_toUInt16, UInt64.toNat_ofNat',
      UInt16.toNat_ofNat'] at h
    omega

theorem iteration_returns_drained {q : SendQueue} {r : UInt16} {c : Cqe} {completed p : ℕ}
    (hc : ShowsCompleted c completed) (hp : p ≤ completed + q.depth.toNat)
    (h : pollIterationReturns q.depth (UInt64.ofNat p) r (wqecntSigOpOwn c) = true) :
    p - completed ≤ q.depth.toNat - r.toNat := by
  rcases Nat.lt_or_ge p completed with hlt | hle
  · omega
  · have hroom := iteration_returns_room hc hle hp h
    omega

theorem entry_returns_drained {q : SendQueue} {r : UInt16} {p : ℕ} (hp : p + r.toNat < 2 ^ 64)
    (h : pollEntryReturns q.depth (UInt64.ofNat p) r = true) : p ≤ q.depth.toNat - r.toNat := by
  simp only [pollEntryReturns, decide_eq_true_eq, UInt64.le_iff_toNat_le, UInt64.toNat_add,
    UInt64.toNat_ofNat', UInt16.toNat_toUInt64] at h
  omega

def CallerOk (q : SendQueue) (r : UInt16) (s : State) : Caller → Prop
  | .idle => True
  | .called b => b ≤ s.posted
  | .polling b p => b ≤ p ∧ p ≤ s.posted
  | .returned b p => b ≤ p ∧ p ≤ s.posted ∧
      (p + r.toNat < 2 ^ 64 → p - s.completed ≤ q.depth.toNat - r.toNat)

structure Invariant (q : SendQueue) (r : UInt16) (s : State) : Prop where
  ordered : s.completed ≤ s.posted
  bounded : s.posted ≤ s.completed + q.depth.toNat
  shown : ShowsCompleted s.cqe s.completed
  caller : CallerOk q r s s.caller

theorem initial_invariant (q : SendQueue) (r : UInt16) : Invariant q r initial :=
  ⟨le_refl _, Nat.zero_le _, shows_initial, trivial⟩

theorem step_preserves_invariant {q : SendQueue} {r : UInt16} {s : State} {e : Event}
    (h : Invariant q r s) (he : Enabled q s e) : Invariant q r (next q r s e) := by
  obtain ⟨ho, hb, hs, hc⟩ := h
  cases e with
  | post k =>
    refine ⟨?_, he, hs, ?_⟩
    · dsimp [next]; omega
    · cases hm : s.caller <;> simp only [hm, CallerOk, next] at hc ⊢ <;> omega
  | complete signature owner =>
    obtain ⟨hlt, _⟩ := he
    refine ⟨hlt, ?_, shows_complete _ _ _, ?_⟩
    · dsimp [next]; omega
    · cases hm : s.caller <;> simp only [hm, CallerOk, next] at hc ⊢ <;> omega
  | call => exact ⟨ho, hb, hs, le_refl _⟩
  | enter =>
    obtain ⟨b, hcall⟩ := he
    refine ⟨ho, hb, hs, ?_⟩
    rw [hcall] at hc
    change CallerOk q r _ (enterCaller q r s s.caller)
    simp only [hcall, enterCaller]
    split
    · rename_i hret
      refine ⟨hc, le_refl _, fun hw => ?_⟩
      exact (Nat.sub_le _ _).trans (entry_returns_drained hw hret)
    · exact ⟨hc, le_refl _⟩
  | poll =>
    obtain ⟨b, p, hpoll⟩ := he
    refine ⟨ho, hb, hs, ?_⟩
    rw [hpoll] at hc
    change CallerOk q r _ (pollCaller q r s s.caller)
    simp only [hpoll, pollCaller]
    split
    · rename_i hret
      exact ⟨hc.1, hc.2, fun _ => iteration_returns_drained hs (hc.2.trans hb) hret⟩
    · exact hc

theorem reachable_invariant {q : SendQueue} {r : UInt16} {s : State}
    (h : Mlx5PollCqUntil q r s) : Invariant q r s := by
  induction h with
  | init => exact initial_invariant q r
  | step _ he ih => exact step_preserves_invariant ih he

/-- At a return at most `depth - r` WQEs of the post value read at entry are
uncompleted, and a quiet leaves none of the WQEs posted before its call. The sum of
the post value and the request must not wrap in its 64 bits. -/
theorem poll_cq_until_returns_drained (q : SendQueue) :
    (∀ r s b p, Mlx5PollCqUntil q r s → s.caller = .returned b p → p + r.toNat < 2 ^ 64 →
      p - s.completed ≤ q.depth.toNat - r.toNat) ∧
    (∀ s b p, Mlx5Quiet q s → s.caller = .returned b p → p + q.depth.toNat < 2 ^ 64 →
      b ≤ s.completed) := by
  have drained : ∀ r s b p, Mlx5PollCqUntil q r s → s.caller = .returned b p →
      p + r.toNat < 2 ^ 64 → b ≤ p ∧ p - s.completed ≤ q.depth.toNat - r.toNat := by
    intro r s b p h hret hw
    have hc := (reachable_invariant h).caller
    rw [hret] at hc
    exact ⟨hc.1, hc.2.2 hw⟩
  refine ⟨fun r s b p h hret hw => (drained r s b p h hret hw).2, fun s b p h hret hw => ?_⟩
  obtain ⟨hbp, hd⟩ := drained q.depth s b p h hret hw
  omega

def runTrace (q : SendQueue) (r : UInt16) (s : State) : List Event → State
  | [] => s
  | e :: es => runTrace q r (next q r s e) es

def ValidTrace (q : SendQueue) (r : UInt16) (s : State) : List Event → Prop
  | [] => True
  | e :: es => Enabled q s e ∧ ValidTrace q r (next q r s e) es

instance (q : SendQueue) (r : UInt16) (s : State) (es : List Event) :
    Decidable (ValidTrace q r s es) := by
  induction es generalizing s with
  | nil => exact isTrue trivial
  | cons e es ih => exact instDecidableAnd

theorem valid_trace_reachable {q : SendQueue} {r : UInt16} {s : State} {es : List Event}
    (hs : Mlx5PollCqUntil q r s) (h : ValidTrace q r s es) :
    Mlx5PollCqUntil q r (runTrace q r s es) := by
  induction es generalizing s with
  | nil => exact hs
  | cons e es ih => exact ih (.step hs h.1) h.2

def depthFour : SendQueue := ⟨4, 2, by decide, rfl⟩

def quietTrace : List Event := [.post 2, .complete 0 0, .call, .enter, .poll, .complete 7 1, .poll]

theorem quiet_trace_drained :
    (runTrace depthFour 4 initial quietTrace).caller = .returned 2 2 ∧
    2 - (runTrace depthFour 4 initial quietTrace).completed ≤ 4 - 4 ∧
    2 ≤ (runTrace depthFour 4 initial quietTrace).completed := by
  have hr : Mlx5PollCqUntil depthFour 4 (runTrace depthFour 4 initial quietTrace) :=
    valid_trace_reachable .init (by decide)
  have hret : (runTrace depthFour 4 initial quietTrace).caller = .returned 2 2 := by decide
  exact ⟨hret, (poll_cq_until_returns_drained depthFour).1 4 _ 2 2 hr hret (by decide),
    (poll_cq_until_returns_drained depthFour).2 _ 2 2 hr hret (by decide)⟩

theorem every_count_reachable (q : SendQueue) (hq : 0 < q.depth.toNat) (r : UInt16) (n : ℕ) :
    ∃ c, Mlx5PollCqUntil q r ⟨n, n, c, .idle⟩ := by
  induction n with
  | zero => exact ⟨_, .init⟩
  | succ n ih =>
    obtain ⟨c, h⟩ := ih
    have hpost := h.step (e := .post 1) (show n + 1 ≤ n + q.depth.toNat by omega)
    exact ⟨_, hpost.step (e := .complete 0 0) ⟨Nat.lt_succ_self n, by decide⟩⟩

def depthOne : SendQueue := ⟨1, 0, by decide, rfl⟩

/-- With the post counter at its last value the sum of the entry test wraps to zero:
the wait for one slot returns although the whole queue is outstanding. -/
theorem post_counter_wrap_returns_early :
    ∃ s, Mlx5PollCqUntil depthOne 1 s ∧ s.sqPost = 0xffffffffffffffff ∧
      s.caller = .returned (2 ^ 64 - 1) (2 ^ 64 - 1) ∧
      ¬ (2 ^ 64 - 1) - s.completed ≤ depthOne.depth.toNat - (1 : UInt16).toNat := by
  obtain ⟨c, h⟩ := every_count_reachable depthOne (by decide) 1 (2 ^ 64 - 2)
  have hpost := h.step (e := .post 1) (show 2 ^ 64 - 2 + 1 ≤ 2 ^ 64 - 2 + 1 from Nat.le_refl _)
  have henter := (hpost.step (e := .call) rfl).step (e := .enter) ⟨_, rfl⟩
  have hret : pollEntryReturns 1 (UInt64.ofNat (2 ^ 64 - 1)) 1 = true := by decide
  have hcaller : enterCaller depthOne 1 ⟨2 ^ 64 - 1, 2 ^ 64 - 2, c, .called (2 ^ 64 - 1)⟩
      (.called (2 ^ 64 - 1)) = .returned (2 ^ 64 - 1) (2 ^ 64 - 1) := if_pos hret
  refine ⟨_, henter, ?_, hcaller, ?_⟩
  · change UInt64.ofNat (2 ^ 64 - 1) = _
    decide
  · change ¬ (2 ^ 64 - 1) - (2 ^ 64 - 2) ≤ 1 - 1
    decide

section Exit

variable {q : SendQueue} {r : UInt16} {s : State} {c : Cqe} {completed p : ℕ}

def ValidOnce (s : State) : Prop :=
  0 < s.completed → cqeOpcode (wqecntSigOpOwn s.cqe) ≠ mlx5CqeInvalid

theorem opcode_complete (counter : UInt16) (signature : UInt8) {owner : UInt8}
    (h : owner.toNat < 16) :
    cqeOpcode (wqecntSigOpOwn ⟨counter, signature, mlx5CqeReq * 16 + owner⟩) = mlx5CqeReq := by
  have hcounter := counter.toNat_lt
  have hsignature := signature.toNat_lt
  have hreq : (mlx5CqeReq * 16 + owner).toNat = owner.toNat := by
    simp only [mlx5CqeReq, UInt8.toNat_add, UInt8.toNat_mul, UInt8.toNat_zero]
    omega
  apply UInt8.toNat.inj
  simp only [cqeOpcode, wqecntSigOpOwn, hreq, UInt32.toNat_toUInt8, UInt32.toNat_shiftRight,
    UInt32.toNat_ofNat', Nat.shiftRight_eq_div_pow, UInt32.reduceToNat, Nat.reduceMod]
  change _ = 0
  omega

theorem reachable_valid (h : Mlx5PollCqUntil q r s) : ValidOnce s := by
  induction h with
  | init => exact fun h => absurd h (Nat.lt_irrefl 0)
  | @step s e _ he ih =>
    cases e with
    | complete signature owner =>
      intro _
      change cqeOpcode (wqecntSigOpOwn ⟨byteswap16 (UInt16.ofNat s.completed), signature,
        mlx5CqeReq * 16 + owner⟩) ≠ mlx5CqeInvalid
      rw [opcode_complete _ _ he.2]
      decide
    | post | call | enter | poll => exact ih

def consumedSlots (completed p : ℕ) : ℕ := (2 ^ 16 - (completed - p) % 2 ^ 16) % 2 ^ 16

theorem iteration_returns_iff (hc : ShowsCompleted c completed) (hpos : 0 < completed)
    (hvalid : cqeOpcode (wqecntSigOpOwn c) ≠ mlx5CqeInvalid) (hp : p ≤ completed) :
    pollIterationReturns q.depth (UInt64.ofNat p) r (wqecntSigOpOwn c) = true ↔
      q.depth.toNat < consumedSlots completed p ∨
        consumedSlots completed p + r.toNat ≤ q.depth.toNat := by
  have hd := q.depth_le
  have hr := r.toNat_lt
  rw [pollIterationReturns, if_neg hvalid, hc.2 hpos]
  simp only [Bool.or_eq_true, decide_eq_true_eq, gt_iff_lt, ge_iff_le, UInt16.lt_iff_toNat_lt,
    UInt16.le_iff_toNat_le, UInt16.toNat_sub, UInt64.toNat_toUInt16, UInt64.toNat_ofNat',
    UInt16.toNat_ofNat', consumedSlots]
  omega

theorem quiet_snapshot_pos (h : Mlx5Quiet q s) : ∀ b p, s.caller = .polling b p → 0 < p := by
  induction h with
  | init => exact fun b p h => nomatch h
  | @step s e _ he ih =>
    intro b p hcaller
    cases e with
    | post | complete => exact ih b p hcaller
    | call => cases hcaller
    | enter =>
      obtain ⟨b', hcalled⟩ := he
      change enterCaller q q.depth s s.caller = _ at hcaller
      rw [hcalled, enterCaller] at hcaller
      split at hcaller
      · cases hcaller
      next hentry =>
        cases hcaller
        refine Nat.pos_of_ne_zero fun hzero => hentry ?_
        rw [State.sqPost, hzero]
        simp only [pollEntryReturns, decide_eq_true_eq, UInt64.le_iff_toNat_le, UInt64.toNat_add,
          UInt64.toNat_ofNat', UInt16.toNat_toUInt64]
        omega
    | poll =>
      obtain ⟨b', p', hpolling⟩ := he
      change pollCaller q q.depth s s.caller = _ at hcaller
      rw [hpolling, pollCaller] at hcaller
      split at hcaller
      · cases hcaller
      · cases hcaller
        exact ih b p hpolling

/-- When the WQEs of the snapshot have completed, the next iteration of a wait for `r` slots
returns if and only if the CQ was written and the completions past the snapshot, modulo
`2 ^ 16`, are not in the window in which they look like less than `r` free slots; for a quiet
that window is the last `depth` counts before a multiple of `2 ^ 16`. -/
theorem poll_exits_iff (q : SendQueue) :
    (∀ r s b p, Mlx5PollCqUntil q r s → s.caller = .polling b p → p ≤ s.completed →
      ((next q r s .poll).caller = .returned b p ↔
        0 < s.completed ∧ (q.depth.toNat < consumedSlots s.completed p ∨
          consumedSlots s.completed p + r.toNat ≤ q.depth.toNat))) ∧
    ∀ s b p, Mlx5Quiet q s → s.caller = .polling b p → p ≤ s.completed →
      ((next q q.depth s .poll).caller = .returned b p ↔
        (s.completed - p) % 2 ^ 16 = 0 ∨ (s.completed - p) % 2 ^ 16 + q.depth.toNat < 2 ^ 16) := by
  have hexit : ∀ r s b p, Mlx5PollCqUntil q r s → s.caller = .polling b p → p ≤ s.completed →
      ((next q r s .poll).caller = .returned b p ↔
        0 < s.completed ∧ (q.depth.toNat < consumedSlots s.completed p ∨
          consumedSlots s.completed p + r.toNat ≤ q.depth.toNat)) := by
    intro r s b p h hcaller hp
    have htest : (next q r s .poll).caller = .returned b p ↔
        pollIterationReturns q.depth (UInt64.ofNat p) r (wqecntSigOpOwn s.cqe) = true := by
      change pollCaller q r s s.caller = _ ↔ _
      rw [hcaller, pollCaller]
      split
      next hret => exact iff_of_true rfl hret
      next hret => exact iff_of_false nofun hret
    rw [htest]
    rcases Nat.eq_zero_or_pos s.completed with hzero | hpos
    · have hinvalid := (reachable_invariant h).shown.1 hzero
      rw [pollIterationReturns, if_pos hinvalid]
      exact iff_of_false nofun fun hc => absurd hc.1 (by omega)
    · rw [iteration_returns_iff (reachable_invariant h).shown hpos (reachable_valid h hpos) hp]
      exact (and_iff_right hpos).symm
  refine ⟨hexit, fun s b p h hcaller hp => (hexit q.depth s b p h hcaller hp).trans ?_⟩
  have hpos := quiet_snapshot_pos h b p hcaller
  have hd := q.depth_le
  rw [consumedSlots]
  omega

end Exit

section Instances

theorem polling_advances {q : SendQueue} (hq : 0 < q.depth.toNat) {r : UInt16} {n : ℕ} {c : Cqe}
    {x : Caller} (h : Mlx5PollCqUntil q r ⟨n, n, c, x⟩) (k : ℕ) :
    ∃ c, Mlx5PollCqUntil q r ⟨n + k, n + k, c, x⟩ := by
  induction k with
  | zero => exact ⟨c, h⟩
  | succ k ih =>
    obtain ⟨c, h⟩ := ih
    have hpost := h.step (e := .post 1) (show n + k + 1 ≤ n + k + q.depth.toNat by omega)
    exact ⟨_, hpost.step (e := .complete 0 0) ⟨Nat.lt_succ_self (n + k), by decide⟩⟩

theorem quiet_polling : ∃ c, Mlx5Quiet depthFour ⟨1, 1, c, .polling 1 1⟩ := by
  have hrun : Mlx5Quiet depthFour
      (runTrace depthFour 4 initial [.post 1, .call, .enter, .complete 0 0]) :=
    valid_trace_reachable .init (by decide)
  exact ⟨_, hrun⟩

theorem poll_exits_iff_next : ∃ s, Mlx5Quiet depthFour s ∧ s.caller = .polling 1 1 ∧
    (next depthFour 4 s .poll).caller = .returned 1 1 := by
  obtain ⟨c, h⟩ := quiet_polling
  exact ⟨_, h, rfl, ((poll_exits_iff depthFour).2 _ 1 1 h rfl (Nat.le_refl 1)).mpr (.inl rfl)⟩

/-- After `2 ^ 16 - 1` further WQEs the shown index is that of the WQE before the snapshot, and
the quiet does not return although all it waits for has completed. -/
theorem quiet_misses_completion : ∃ s, Mlx5Quiet depthFour s ∧ s.caller = .polling 1 1 ∧
    1 ≤ s.completed ∧ (next depthFour 4 s .poll).caller = .polling 1 1 := by
  obtain ⟨c, h⟩ := quiet_polling
  obtain ⟨c, h⟩ := polling_advances (by decide) h (2 ^ 16 - 1)
  have hpos : 0 < 1 + (2 ^ 16 - 1) := by decide
  have hnot : ¬ pollIterationReturns 4 (UInt64.ofNat 1) 4 (wqecntSigOpOwn c) = true := by
    have hiff := iteration_returns_iff (q := depthFour) (r := 4) (p := 1)
      (reachable_invariant h).shown hpos (reachable_valid h hpos) hpos
    have hwindow : ¬ (depthFour.depth.toNat < consumedSlots (1 + (2 ^ 16 - 1)) 1 ∨
        consumedSlots (1 + (2 ^ 16 - 1)) 1 + (4 : UInt16).toNat ≤ depthFour.depth.toNat) := by
      decide
    exact fun hret => hwindow (hiff.mp hret)
  exact ⟨_, h, rfl, hpos, if_neg hnot⟩

end Instances

end GdaMlx5CompletionWait
