import Rocshmem.TeamSplitStrided

/-! A loop of strided splits of one parent as a single PE runs it. Each round tests the number
of user teams anew, also the rounds whose team this PE is not a member of. -/
namespace TeamSplitLoop

open TeamSplitStrided

def Backend.capacity (b : Backend) : UInt64 := b.maxNumTeams.toInt64.toUInt64 - numReservedTeams

def Backend.during (b : Backend) (created : ℕ) (available : Bool) : Backend :=
  { b with
    numUserTeams := b.numUserTeams + UInt64.ofNat created
    teamAvailable := available }

open Backend (capacity during)

def Outcome.team : Outcome → Option NewTeam
  | .created team => some team
  | _ => none

structure Axis where
  count : Int32
  step : Int32
  stride : Int32
  size : Int32 → Int32

/-- What a loop has done: the outcomes of its splits, the teams the call has tracked so far,
and the handle `*xaxis_team` or `*yaxis_team`. -/
structure Progress where
  outcomes : List Outcome
  tracked : List NewTeam
  handle : Option NewTeam

def Progress.after (s : Progress) (out : Outcome) : Progress :=
  match Outcome.team out with
  | some team => ⟨s.outcomes ++ [out], s.tracked ++ [team], some team⟩
  | none => { s with outcomes := s.outcomes ++ [out] }

def splitLoop (b : Backend) (p : Team b.numPes) (available : ℕ → Bool) (axis : Axis) :
    ℕ → Int32 → Int32 → Progress → Int32 × Progress
  | 0, _, _, s => (0, s)
  | n + 1, i, start, s =>
    let out := rocshmemTeamSplitStrided
      (during b s.tracked.length (available s.tracked.length)) (some p) start
      axis.stride (axis.size i)
    if out.status ≠ 0 then (rocshmemError, s.after out)
    else splitLoop b p available axis n (i + 1) (start + axis.step) (s.after out)

section Split

variable {b : Backend} {p : Team b.numPes} {start stride size : Int32} {r : ℤ}

structure Inside (parentSize : Int32) (start stride size : Int32) : Prop where
  start_nonneg : 0 ≤ start.toInt
  stride_pos : 0 < stride.toInt
  size_pos : 0 < size.toInt
  last_lt : start.toInt + (size.toInt - 1) * stride.toInt < parentSize.toInt

theorem Inside.start_valid (h : Inside p.size start stride size) : p.ValidRank start.toInt := by
  simpa using members_valid (i := 0) h.start_nonneg h.stride_pos h.last_lt le_rfl h.size_pos

theorem composed_stride_exact (h : Inside p.size start stride size) (h2 : 2 ≤ size.toInt) :
    (strideInWorld p.toTeamInfo stride).toInt = stride.toInt * p.stride.toInt := by
  have hstart := h.start_nonneg
  have hstride := h.stride_pos
  have hlast := h.last_lt
  have hle : stride.toInt ≤ (size.toInt - 1) * stride.toInt :=
    le_mul_of_one_le_left hstride.le (by omega)
  have hworld := (p.world_pe_inside (r := stride.toInt) ⟨hstride.le, by omega⟩).2.2
  have hp := p.start_nonneg
  have hlt := Int32.toInt_lt b.numPes
  have hcomm : p.stride.toInt * stride.toInt = stride.toInt * p.stride.toInt := Int.mul_comm _ _
  simp only [TeamInfo.worldPe] at hworld
  have hpos := Int.mul_nonneg hstride.le p.stride_pos.le
  rw [strideInWorld, Int32.toInt_mul, bmod_of_fits ⟨by omega, by omega⟩]

theorem active_set_single (start stride pe : Int32) (hs : 0 ≤ start.toInt) (hp : 0 ≤ pe.toInt) :
    (pe = start → peInActiveSet start stride 1 pe = 0) ∧
    (pe ≠ start → peInActiveSet start stride 1 pe < 0) := by
  constructor
  · rintro rfl
    simp [peInActiveSet]
  intro hne
  unfold peInActiveSet
  dsimp only
  split_ifs with hout
  · decide
  push Not at hout
  obtain ⟨hge, hmod, hlt⟩ := hout
  have hsub : (pe - start).toInt = pe.toInt - start.toInt := by
    rw [Int32.toInt_sub, bmod_of_fits]
    have := Int32.toInt_lt pe
    have := Int32.toInt_lt start
    omega
  rw [Int32.lt_iff_toInt_lt] at hge
  have hd : 0 < pe.toInt - start.toInt := by
    have : pe.toInt ≠ start.toInt := fun h => hne (Int32.toInt_inj.mp h)
    omega
  rw [← Int32.toInt_inj, Int32.toInt_mod, hsub] at hmod
  have hsplit := Int.mul_tdiv_add_tmod (pe.toInt - start.toInt) stride.toInt
  rw [hmod] at hsplit
  change _ + 0 = _ at hsplit
  -- a quotient of zero would make the distance zero
  have hq : (pe.toInt - start.toInt).tdiv stride.toInt ≠ 0 := by
    intro h0
    rw [h0] at hsplit
    omega
  have hle : ((pe.toInt - start.toInt).tdiv stride.toInt).natAbs ≤
      (pe.toInt - start.toInt).natAbs := by
    rw [Int.natAbs_tdiv]
    exact Nat.div_le_self _ _
  have hmax := Int32.toInt_lt pe
  have hdiv : ((pe - start) / stride).toInt = (pe.toInt - start.toInt).tdiv stride.toInt := by
    rw [Int32.toInt_div, hsub, bmod_of_fits ⟨by omega, by omega⟩]
  rw [ge_iff_le, Int32.le_iff_toInt_le, hdiv] at hlt
  rw [Int32.lt_iff_toInt_lt, hdiv]
  change ¬ (1 : ℤ) ≤ _ at hlt
  change _ < (0 : ℤ)
  omega

section

variable (h : Inside p.size start stride size)
include h

theorem active_set_inside (hme : b.myPe.toInt = p.worldPe r) :
    (∀ i, 0 ≤ i → i < size.toInt → r = start.toInt + i * stride.toInt →
      (peInActiveSet (getPeInWorld p.toTeamInfo start) (strideInWorld p.toTeamInfo stride) size
        b.myPe).toInt = i) ∧ ((∀ i, 0 ≤ i → i < size.toInt → r ≠ start.toInt + i * stride.toInt) →
      peInActiveSet (getPeInWorld p.toTeamInfo start) (strideInWorld p.toTeamInfo stride) size
        b.myPe < 0) := by
  have hs := p.get_pe_in_world_exact h.start_valid
  obtain ⟨-, hs0, hs1⟩ := p.world_pe_inside h.start_valid
  have hnonneg := b.pe_nonneg
  have hlt := b.pe_lt
  have hmax := Int32.toInt_lt b.numPes
  by_cases h1 : size.toInt = 1
  · have hone : size = 1 := Int32.toInt_inj.mp h1
    obtain ⟨hmem, hnot⟩ := active_set_single (getPeInWorld p.toTeamInfo start)
      (strideInWorld p.toTeamInfo stride) b.myPe (by omega) hnonneg
    rw [hone]
    constructor
    · intro i hi hi1 heq
      change i < 1 at hi1
      obtain rfl : i = 0 := by omega
      rw [hmem, Int32.toInt_zero]
      rw [← Int32.toInt_inj, hme, hs, heq, Int.zero_mul, Int.add_zero]
    · grind [Inside, Team.worldPe_inj]
  · have h2 : 2 ≤ size.toInt := by
      have := h.size_pos
      omega
    have hc := composed_stride_exact h h2
    have hpos : 0 < (strideInWorld p.toTeamInfo stride).toInt := by
      rw [hc]
      exact Int.mul_pos h.stride_pos p.stride_pos
    have hmember : ∀ i : ℤ, (getPeInWorld p.toTeamInfo start).toInt +
        (strideInWorld p.toTeamInfo stride).toInt * i =
          p.worldPe (start.toInt + i * stride.toInt) := by
      intro i
      rw [hs, hc]
      simp only [TeamInfo.worldPe]
      ring
    obtain ⟨hiff, hval⟩ := @active_set_rank (getPeInWorld p.toTeamInfo start)
      (strideInWorld p.toTeamInfo stride) size b.myPe hpos ⟨by omega, by omega⟩
    simp only [hmember, hme] at hiff hval
    constructor
    · intro i hi hi1 heq
      have hmem := hiff.mpr ⟨i, hi, hi1, by rw [heq]⟩
      have hrank := p.worldPe_inj (hval hmem)
      rw [heq] at hrank
      exact Int.eq_of_mul_eq_mul_right h.stride_pos.ne' (by omega) |>.symm
    · intro hno
      by_contra hge
      obtain ⟨i, hi, hi1, heq⟩ := hiff.mp hge
      exact hno i hi hi1 (p.worldPe_inj heq)

theorem end_inside : ¬ peEndInWorld p.toTeamInfo start stride size > b.numPes := by
  have hs := p.get_pe_in_world_exact h.start_valid
  have hlast := members_valid (p := p) (i := size.toInt - 1) h.start_nonneg h.stride_pos h.last_lt
    (by have := h.size_pos; omega) (by omega)
  obtain ⟨-, he0, he1⟩ := p.world_pe_inside hlast
  obtain ⟨-, hs0, hs1⟩ := p.world_pe_inside h.start_valid
  have hmax := Int32.toInt_lt b.numPes
  have hsub : (size - 1).toInt = size.toInt - 1 := by
    rw [Int32.toInt_sub, bmod_of_fits]
    · rfl
    · have := h.size_pos
      have := Int32.toInt_lt size
      change -2 ^ 31 ≤ size.toInt - 1 ∧ size.toInt - 1 < 2 ^ 31
      omega
  -- the product is the offset of the last member
  have hspan : (strideInWorld p.toTeamInfo stride * (size - 1)).toInt =
      p.worldPe (start.toInt + (size.toInt - 1) * stride.toInt) - p.worldPe start.toInt := by
    by_cases h1 : size.toInt = 1
    · obtain rfl : size = 1 := Int32.toInt_inj.mp h1
      simp
    · have hc := composed_stride_exact h (by have := h.size_pos; omega)
      have hprod : stride.toInt * p.stride.toInt * (size.toInt - 1) =
          p.worldPe (start.toInt + (size.toInt - 1) * stride.toInt) - p.worldPe start.toInt := by
        simp only [TeamInfo.worldPe]
        ring
      rw [Int32.toInt_mul, hc, hsub, hprod, bmod_of_fits ⟨by omega, by omega⟩]
  rw [gt_iff_lt, Int32.lt_iff_toInt_lt, peEndInWorld, Int32.toInt_add, hs, hspan,
    bmod_of_fits ⟨by omega, by omega⟩]
  omega

theorem split_checks (hroom : b.numUserTeams < capacity b) :
    rocshmemTeamSplitStrided b (some p) start stride size =
      let m := peInActiveSet (getPeInWorld p.toTeamInfo start) (strideInWorld p.toTeamInfo stride)
        size b.myPe
      if m < 0 then .notMember
      else if b.teamAvailable then
        .created ⟨⟨start, stride, size⟩,
          ⟨getPeInWorld p.toTeamInfo start, strideInWorld p.toTeamInfo stride, size⟩, m⟩
      else .createFailed m := by
  have hargs : ¬ (start < 0 ∨ start ≥ p.size ∨ size < 1 ∨ size > p.size ∨ stride < 1) := by
    simp only [not_or, Int32.not_lt, ge_iff_le, gt_iff_lt, Int32.le_iff_toInt_le, not_le]
    obtain ⟨h0, h1, h2, h3⟩ := h
    have hle : size.toInt - 1 ≤ (size.toInt - 1) * stride.toInt :=
      le_mul_of_one_le_right (by omega) (by omega)
    exact ⟨h0, by omega, h2, by omega, h1⟩
  have hlimit : ¬ b.numUserTeams ≥ b.maxNumTeams.toInt64.toUInt64 - numReservedTeams :=
    UInt64.not_le.mpr hroom
  unfold rocshmemTeamSplitStrided
  rw [if_neg hlimit]
  dsimp only
  rw [if_neg hargs, if_neg (end_inside h)]

theorem split_member (hme : b.myPe.toInt = p.worldPe r)
    (hroom : b.numUserTeams < capacity b) {i : ℤ} (hi : 0 ≤ i) (hlt : i < size.toInt)
    (heq : r = start.toInt + i * stride.toInt) :
    ∃ m : Int32, m.toInt = i ∧ rocshmemTeamSplitStrided b (some p) start stride size =
      if b.teamAvailable then .created ⟨⟨start, stride, size⟩,
          ⟨getPeInWorld p.toTeamInfo start, strideInWorld p.toTeamInfo stride, size⟩, m⟩
      else .createFailed m := by
  have hm := (active_set_inside h hme).1 i hi hlt heq
  refine ⟨_, hm, ?_⟩
  rw [split_checks h hroom]
  dsimp only
  rw [if_neg]
  rw [Int32.lt_iff_toInt_lt, hm]
  exact not_lt.mpr hi

theorem split_not_member (hme : b.myPe.toInt = p.worldPe r)
    (hroom : b.numUserTeams < capacity b)
    (hno : ∀ i, 0 ≤ i → i < size.toInt → r ≠ start.toInt + i * stride.toInt) :
    rocshmemTeamSplitStrided b (some p) start stride size = .notMember := by
  rw [split_checks h hroom]
  exact if_pos ((active_set_inside h hme).2 hno)

end

theorem split_full (hfull : ¬ b.numUserTeams < capacity b) :
    rocshmemTeamSplitStrided b (some p) start stride size = .tooManyTeams :=
  if_pos (UInt64.not_lt.mp hfull)

theorem member_iff (h : Inside p.size start stride size) (pe : ℤ) :
    TeamInfo.Member ⟨getPeInWorld p.toTeamInfo start, strideInWorld p.toTeamInfo stride, size⟩ pe ↔
      ∃ i, 0 ≤ i ∧ i < size.toInt ∧ pe = p.worldPe (start.toInt + i * stride.toInt) := by
  have hs := p.get_pe_in_world_exact h.start_valid
  have hexact : ∀ i, 0 ≤ i → i < size.toInt → (TeamInfo.mk (getPeInWorld p.toTeamInfo start)
      (strideInWorld p.toTeamInfo stride) size).worldPe i =
        p.worldPe (start.toInt + i * stride.toInt) := by
    grind [TeamInfo.worldPe, composed_stride_exact]
  constructor
  · rintro ⟨i, ⟨hi, hlt⟩, rfl⟩
    exact ⟨i, hi, hlt, hexact i hi hlt⟩
  · rintro ⟨i, hi, hlt, rfl⟩
    exact ⟨i, ⟨hi, hlt⟩, (hexact i hi hlt).symm⟩

end Split

section Loop

def Axis.startAt (axis : Axis) (j : ℕ) : Int32 := Int32.ofInt (j * axis.step.toInt)

theorem Axis.startAt_zero (axis : Axis) : axis.startAt 0 = 0 := by
  simp [startAt]

theorem Axis.startAt_succ (axis : Axis) (j : ℕ) :
    axis.startAt (j + 1) = axis.startAt j + axis.step := by
  have hsum : ((j + 1 : ℕ) : ℤ) * axis.step.toInt = j * axis.step.toInt + axis.step.toInt := by
    push_cast
    ring
  rw [startAt, startAt, hsum, Int32.ofInt_add, Int32.ofInt_toInt]

structure Axis.Covers (axis : Axis) (parentSize : Int32) (n : ℕ) (r : ℤ) (m : ℕ) (i : ℤ) :
    Prop where
  inside : ∀ j < n, Inside parentSize (axis.startAt j) axis.stride (axis.size (Int32.ofNat j))
  mine_lt : m < n
  nonneg : 0 ≤ i
  lt : i < (axis.size (Int32.ofNat m)).toInt
  mine : r = (axis.startAt m).toInt + i * axis.stride.toInt
  others : ∀ j < n, j ≠ m → ∀ k, 0 ≤ k → k < (axis.size (Int32.ofNat j)).toInt →
    r ≠ (axis.startAt j).toInt + k * axis.stride.toInt

def Backend.free (b : Backend) : ℕ := (capacity b).toNat - b.numUserTeams.toNat

export Backend (free)

theorem room_iff {b : Backend} {c : ℕ} (a : Bool) (h : c ≤ free b) :
    (during b c a).numUserTeams < capacity (during b c a) ↔
      c < free b := by
  have hcap := (capacity b).toNat_lt
  have hteams := b.numUserTeams.toNat_lt
  have hc : (UInt64.ofNat c).toNat = c := by
    rw [UInt64.toNat_ofNat', Nat.mod_eq_of_lt]
    unfold free at h
    omega
  change b.numUserTeams + UInt64.ofNat c < capacity b ↔ _
  rw [UInt64.lt_iff_toNat_lt, UInt64.toNat_add, hc]
  unfold free at h ⊢
  rcases Nat.eq_zero_or_pos c with rfl | hpos
  · rw [Nat.add_zero, Nat.mod_eq_of_lt hteams]
    omega
  · rw [Nat.mod_eq_of_lt (by omega)]
    omega

variable {b : Backend} {p : Team b.numPes} {available : ℕ → Bool} {axis : Axis} {n m : ℕ}
  {r i : ℤ} {s : Progress}

def round (b : Backend) (p : Team b.numPes) (available : ℕ → Bool) (axis : Axis) (c j : ℕ) :
    Outcome :=
  rocshmemTeamSplitStrided (during b c (available c)) (some p) (axis.startAt j)
    axis.stride (axis.size (Int32.ofNat j))

theorem splitLoop_succ (k j : ℕ) :
    splitLoop b p available axis (k + 1) (Int32.ofNat j) (axis.startAt j) s =
      if (round b p available axis s.tracked.length j).status ≠ 0 then
        (rocshmemError, s.after (round b p available axis s.tracked.length j))
      else splitLoop b p available axis k (Int32.ofNat (j + 1)) (axis.startAt (j + 1))
        (s.after (round b p available axis s.tracked.length j)) := by
  rw [Int32.ofNat_add, axis.startAt_succ]
  rfl

theorem splitLoop_skip (available : ℕ → Bool) (hc : axis.Covers p.size n r m i)
    (hme : b.myPe.toInt = p.worldPe r)
    (hroom : s.tracked.length < free b) (k : ℕ) :
    ∀ l j, j + l + k ≤ n → (∀ t, j ≤ t → t < j + l → t ≠ m) →
      splitLoop b p available axis (l + k) (Int32.ofNat j) (axis.startAt j) s =
        splitLoop b p available axis k (Int32.ofNat (j + l)) (axis.startAt (j + l))
          { s with outcomes := s.outcomes ++ List.replicate l .notMember } := by
  intro l
  induction l generalizing s with
  | zero =>
    intro j _ _
    simp
  | succ l ih =>
    intro j hle hne
    have hout : round b p available axis s.tracked.length j = .notMember :=
      split_not_member (b := during b s.tracked.length (available s.tracked.length))
        (hc.inside j (by omega)) hme ((room_iff _ hroom.le).mpr hroom)
        (hc.others j (by omega) (hne j le_rfl (by omega)))
    rw [Nat.add_right_comm, splitLoop_succ, hout, if_neg (by decide)]
    have hrest := ih (s := s.after .notMember) hroom (j + 1) (by omega)
      (fun t ht hlt => hne t (by omega) (by omega))
    rw [hrest, show j + 1 + l = j + (l + 1) by omega]
    simp [Progress.after, Outcome.team, List.replicate_succ]

theorem loop_full (p : Team b.numPes) (available : ℕ → Bool) (axis : Axis)
    (hfull : s.tracked.length = free b) (k j : ℕ) :
    splitLoop b p available axis (k + 1) (Int32.ofNat j) (axis.startAt j) s =
      (rocshmemError, { s with outcomes := s.outcomes ++ [.tooManyTeams] }) := by
  have hout : round b p available axis s.tracked.length j = .tooManyTeams := by
    apply split_full
    rw [room_iff _ hfull.le]
    omega
  rw [splitLoop_succ, hout, if_pos (by decide)]
  rfl

theorem loop_full_at_start (hfull : s.tracked.length = free b) (hn : 0 < n) :
    splitLoop b p available axis n 0 0 s =
      (rocshmemError, { s with outcomes := s.outcomes ++ [.tooManyTeams] }) := by
  have hloop := loop_full p available axis hfull (n - 1) 0
  rwa [axis.startAt_zero, Nat.sub_add_cancel hn] at hloop

def mineTeam (p : TeamInfo) (axis : Axis) (m : ℕ) (rank : Int32) : NewTeam :=
  ⟨⟨axis.startAt m, axis.stride, axis.size (Int32.ofNat m)⟩,
    ⟨getPeInWorld p (axis.startAt m), strideInWorld p axis.stride, axis.size (Int32.ofNat m)⟩,
    rank⟩

section

variable (hc : axis.Covers p.size n r m i) (hme : b.myPe.toInt = p.worldPe r)
  (hroom : s.tracked.length < free b)
include hc hme hroom

theorem splitLoop_to_mine : splitLoop b p available axis n 0 0 s =
      splitLoop b p available axis (n - m) (Int32.ofNat m) (axis.startAt m)
        { s with outcomes := s.outcomes ++ List.replicate m .notMember } := by
  have hlt := hc.mine_lt
  have hskip := splitLoop_skip available hc hme hroom (n - m) m 0 (by omega)
    (fun t _ ht => by omega)
  rw [Nat.zero_add, Nat.add_sub_cancel' hlt.le] at hskip
  rw [← hskip, axis.startAt_zero]
  rfl

theorem loop_refused (hav : available s.tracked.length = false) :
    ∃ outcomes, splitLoop b p available axis n 0 0 s =
      (rocshmemError, { s with outcomes := outcomes }) := by
  obtain ⟨rank, -, hout⟩ := split_member
    (b := during b s.tracked.length (available s.tracked.length))
    (hc.inside m hc.mine_lt) hme ((room_iff _ hroom.le).mpr hroom) hc.nonneg hc.lt hc.mine
  change round b p available axis s.tracked.length m = _ at hout
  have hfail : round b p available axis s.tracked.length m = .createFailed rank := by
    rw [hout]
    exact if_neg (by simp [during, hav])
  have hlt := hc.mine_lt
  refine ⟨s.outcomes ++ List.replicate m .notMember ++ [.createFailed rank], ?_⟩
  rw [splitLoop_to_mine hc hme hroom, show n - m = n - m - 1 + 1 by omega, splitLoop_succ]
  dsimp only
  rw [hfail, if_pos (by simp [Outcome.status, rocshmemError])]
  rfl

theorem loop_created (hav : available s.tracked.length = true) :
    ∃ rank : Int32, rank.toInt = i ∧ splitLoop b p available axis n 0 0 s =
      splitLoop b p available axis (n - m - 1) (Int32.ofNat (m + 1)) (axis.startAt (m + 1))
        ⟨s.outcomes ++ List.replicate m .notMember ++ [.created (mineTeam p.toTeamInfo axis m rank)],
          s.tracked ++ [mineTeam p.toTeamInfo axis m rank],
          some (mineTeam p.toTeamInfo axis m rank)⟩ := by
  obtain ⟨rank, hrank, hout⟩ := split_member
    (b := during b s.tracked.length (available s.tracked.length))
    (hc.inside m hc.mine_lt) hme ((room_iff _ hroom.le).mpr hroom) hc.nonneg hc.lt hc.mine
  change round b p available axis s.tracked.length m = _ at hout
  have hmade : round b p available axis s.tracked.length m =
      .created (mineTeam p.toTeamInfo axis m rank) := by
    rw [hout]
    exact if_pos (by simp [during, hav])
  have hlt := hc.mine_lt
  refine ⟨rank, hrank, ?_⟩
  rw [splitLoop_to_mine hc hme hroom, show n - m = n - m - 1 + 1 by omega, splitLoop_succ]
  dsimp only
  rw [hmade, if_neg (by simp [Outcome.status])]
  rfl

theorem loop_done (hav : available s.tracked.length = true)
    (hlast : s.tracked.length + 1 < free b ∨ m + 1 = n) :
    ∃ rank : Int32, rank.toInt = i ∧ splitLoop b p available axis n 0 0 s =
      (0, ⟨s.outcomes ++ List.replicate m .notMember ++
          [.created (mineTeam p.toTeamInfo axis m rank)] ++ List.replicate (n - m - 1) .notMember,
        s.tracked ++ [mineTeam p.toTeamInfo axis m rank],
        some (mineTeam p.toTeamInfo axis m rank)⟩) := by
  obtain ⟨rank, hrank, hloop⟩ := loop_created hc hme hroom hav
  refine ⟨rank, hrank, ?_⟩
  have hlt := hc.mine_lt
  rw [hloop]
  rcases hlast with hmore | hend
  · exact splitLoop_skip available hc hme (by simpa using hmore) 0 (n - m - 1) (m + 1) (by omega)
      (fun t ht _ => by omega)
  · have h0 : n - m - 1 = 0 := by omega
    rw [h0]
    simp [splitLoop]

omit hroom in
theorem loop_late (hav : available s.tracked.length = true)
    (hfull : s.tracked.length + 1 = free b) (hmore : m + 1 < n) :
    ∃ team, (splitLoop b p available axis n 0 0 s).1 = rocshmemError ∧
      (splitLoop b p available axis n 0 0 s).2.tracked = s.tracked ++ [team] ∧
      (splitLoop b p available axis n 0 0 s).2.handle = some team := by
  obtain ⟨rank, -, hloop⟩ := loop_created hc hme (by omega) hav
  refine ⟨mineTeam p.toTeamInfo axis m rank, ?_⟩
  rw [hloop, show n - m - 1 = n - m - 2 + 1 by omega,
    loop_full p available axis (by simpa using hfull)]
  exact ⟨rfl, rfl, rfl⟩

end

end Loop

end TeamSplitLoop
