import Rocshmem.TeamSplitLoop

/-! `rocshmem_team_split_2d`: one loop of strided splits for the x-teams, the rows of the
parent, and one for the y-teams, its columns. -/
namespace TeamSplit2d

open Int32 TeamSplitLoop TeamSplitStrided

def clampedXrange (parentSize xrange : Int32) : Int32 :=
  if xrange > parentSize then parentSize else xrange

def xAxis (parentSize xrange : Int32) : Axis :=
  let numXteams := (parentSize + xrange - 1) / xrange
  let remainder := parentSize % xrange
  { count := numXteams
    step := xrange
    stride := 1
    size := fun i => if i = numXteams - 1 ∧ remainder ≠ 0 then remainder else xrange }

def yAxis (parentSize xrange : Int32) : Axis :=
  let yrange := parentSize / xrange
  let remainder := parentSize % xrange
  { count := xrange
    step := 1
    stride := xrange
    size := fun i => if remainder ≠ 0 ∧ i < remainder then yrange + 1 else yrange }

def xTeams (b : Backend) (p : Team b.numPes) (xrange : Int32) (available : ℕ → Bool) :
    Int32 × Progress :=
  splitLoop b p available (xAxis p.size xrange) (xAxis p.size xrange).count.toInt.toNat 0 0
    ⟨[], [], none⟩

def yTeams (b : Backend) (p : Team b.numPes) (xrange : Int32) (available : ℕ → Bool)
    (tracked : List NewTeam) : Int32 × Progress :=
  splitLoop b p available (yAxis p.size xrange) (yAxis p.size xrange).count.toInt.toNat 0 0
    ⟨[], tracked, none⟩

structure Result where
  status : Int32
  xaxisTeam : Option NewTeam
  yaxisTeam : Option NewTeam
  xOutcomes : List Outcome
  yOutcomes : List Outcome
  tracked : List NewTeam

def rocshmemTeamSplit2d (b : Backend) (parent : Option (Team b.numPes)) (xrange : Int32)
    (available : ℕ → Bool) : Result :=
  match parent with
  | none => ⟨rocshmemError, none, none, [], [], []⟩
  | some p =>
    if xrange < 1 then ⟨rocshmemError, none, none, [], [], []⟩
    else
      let x := xTeams b p (clampedXrange p.size xrange) available
      if x.1 ≠ 0 then ⟨rocshmemError, x.2.handle, none, x.2.outcomes, [], x.2.tracked⟩
      else
        let y := yTeams b p (clampedXrange p.size xrange) available x.2.tracked
        ⟨if y.1 ≠ 0 then rocshmemError else 0, x.2.handle, y.2.handle, x.2.outcomes, y.2.outcomes,
          y.2.tracked⟩

section Axes

variable {parentSize xrange : Int32} {r : ℤ}

theorem cell_unique {x j k : ℤ} (h0 : 0 ≤ k) (hlt : k < x) (h : r = j * x + k) :
    r / x = j ∧ r % x = k := by
  rw [Int.ediv_emod_unique (by omega), Int.mul_comm, Int.add_comm]
  exact ⟨h.symm, h0, hlt⟩

variable {j : ℕ}

theorem index_exact {bound : Int32} (h : (j : ℤ) < bound.toInt) :
    (Int32.ofNat j).toInt = j := by
  have := toInt_lt bound
  exact toInt_ofNat_of_lt (by omega)

variable (hx : 0 < xrange.toInt) (hle : xrange.toInt ≤ parentSize.toInt)

include hx hle

theorem remainder_exact : (parentSize % xrange).toInt = parentSize.toInt % xrange.toInt := by
  rw [toInt_mod, Int.tmod_eq_emod_of_nonneg (by omega)]

theorem yrange_exact : (parentSize / xrange).toInt = parentSize.toInt / xrange.toInt := by
  have hmax := toInt_lt parentSize
  have hq := Int.ediv_le_self xrange.toInt (by omega : 0 ≤ parentSize.toInt)
  have hq0 := Int.ediv_nonneg (by omega : 0 ≤ parentSize.toInt) hx.le
  rw [toInt_div, Int.tdiv_eq_ediv_of_nonneg (by omega), bmod_of_fits ⟨by omega, by omega⟩]

omit hle in
theorem yAxis_start (hj : (j : ℤ) < xrange.toInt) :
    ((yAxis parentSize xrange).startAt j).toInt = j := by
  have hmax := toInt_lt xrange
  change (Int32.ofInt (j * 1)).toInt = j
  rw [Int.mul_one, toInt_ofInt_of_le (by omega) (by omega)]

theorem yAxis_size (hj : (j : ℤ) < xrange.toInt) :
    ((yAxis parentSize xrange).size (Int32.ofNat j)).toInt =
      parentSize.toInt / xrange.toInt + if (j : ℤ) < parentSize.toInt % xrange.toInt then 1 else 0 := by
  have hrem := remainder_exact hx hle
  have hquot := yrange_exact hx hle
  have hindex : Int32.ofNat j < parentSize % xrange ↔
    (j : ℤ) < parentSize.toInt % xrange.toInt := by
    rw [lt_iff_toInt_lt, hrem, index_exact hj]
  change Int32.toInt (if parentSize % xrange ≠ 0 ∧ Int32.ofNat j < parentSize % xrange then
    parentSize / xrange + 1 else parentSize / xrange) = _
  by_cases hlt : (j : ℤ) < parentSize.toInt % xrange.toInt
  · have hne : parentSize % xrange ≠ 0 := by
      rw [Ne, ← toInt_inj, hrem]
      change ¬ _ = (0 : ℤ)
      omega
    -- a remainder leaves room below `parentSize` for the longer column
    have hsplit := Int.mul_ediv_add_emod parentSize.toInt xrange.toInt
    have hq : parentSize.toInt / xrange.toInt ≤
        xrange.toInt * (parentSize.toInt / xrange.toInt) :=
      le_mul_of_one_le_left (Int.ediv_nonneg (by omega) hx.le) (by omega)
    have hq0 := Int.ediv_nonneg (by omega : 0 ≤ parentSize.toInt) hx.le
    have hmax := toInt_lt parentSize
    rw [if_pos ⟨hne, hindex.mpr hlt⟩, if_pos hlt, toInt_add, hquot]
    exact bmod_of_fits (x := parentSize.toInt / xrange.toInt + 1) ⟨by omega, by omega⟩
  · rw [if_neg (fun h => hlt (hindex.mp h.2)), if_neg hlt, hquot, Int.add_zero]

theorem yAxis_covers (hr0 : 0 ≤ r) (hr : r < parentSize.toInt) :
    (yAxis parentSize xrange).Covers parentSize xrange.toInt.toNat r (r % xrange.toInt).toNat
      (r / xrange.toInt) := by
  have hsplit := Int.mul_ediv_add_emod parentSize.toInt xrange.toInt
  have hrem0 := Int.emod_nonneg parentSize.toInt hx.ne'
  have hrow := Int.mul_ediv_add_emod r xrange.toInt
  have hcomm := Int.mul_comm xrange.toInt (r / xrange.toInt)
  have hcol0 := Int.emod_nonneg r hx.ne'
  have hcollt := Int.emod_lt_of_pos r hx
  have hq1 : 1 ≤ parentSize.toInt / xrange.toInt := (Int.le_ediv_iff_mul_le hx).mpr (by omega)
  have hmine : ((r % xrange.toInt).toNat : ℤ) = r % xrange.toInt := Int.toNat_of_nonneg hcol0
  have hstride : (yAxis parentSize xrange).stride.toInt = xrange.toInt := rfl
  refine ⟨fun j hj => ?_, by omega, Int.ediv_nonneg hr0 hx.le, ?_, ?_, fun j hj hne k hk hlt => ?_⟩
  · have hj' : (j : ℤ) < xrange.toInt := by omega
    refine ⟨?_, hx, ?_, ?_⟩ <;>
      simp only [yAxis_start hx hj', yAxis_size hx hle hj', hstride]
    all_goals grind
  · rw [yAxis_size hx hle (by omega), hmine]
    have hlast : r / xrange.toInt ≤ parentSize.toInt / xrange.toInt :=
      Int.ediv_le_ediv hx (by omega)
    split_ifs with hlong
    · omega
    · grind
  · rw [yAxis_start hx (by omega), hmine, hstride]
    omega
  · have hj' : (j : ℤ) < xrange.toInt := by omega
    rw [yAxis_start hx hj', hstride]
    intro heq
    obtain ⟨-, hmod⟩ := cell_unique (by omega : (0 : ℤ) ≤ j) hj'
      (by omega : r = k * xrange.toInt + j)
    omega

omit hx hle in
theorem sum_wraps (parentSize xrange : Int32) : (parentSize + xrange - 1).toInt =
    (parentSize.toInt + xrange.toInt - 1).bmod (2 ^ 32) := by
  rw [toInt_sub, toInt_add, Int.bmod_sub_bmod]
  rfl

theorem xAxis_count (hfit : parentSize.toInt + xrange.toInt - 1 < 2 ^ 31) :
    (xAxis parentSize xrange).count.toInt =
      (parentSize.toInt + xrange.toInt - 1) / xrange.toInt := by
  have hsum := sum_wraps parentSize xrange
  rw [bmod_of_fits ⟨by omega, by omega⟩] at hsum
  have hq := Int.ediv_le_self xrange.toInt (by omega : 0 ≤ parentSize.toInt + xrange.toInt - 1)
  have hq0 := Int.ediv_nonneg (by omega : 0 ≤ parentSize.toInt + xrange.toInt - 1) hx.le
  change ((parentSize + xrange - 1) / xrange).toInt = _
  rw [toInt_div, hsum, Int.tdiv_eq_ediv_of_nonneg (by omega), bmod_of_fits ⟨by omega, by omega⟩]

theorem xAxis_count_wrapped (hbig : 2 ^ 31 ≤ parentSize.toInt + xrange.toInt - 1) :
    (xAxis parentSize xrange).count.toInt ≤ 0 := by
  have hmax := toInt_lt parentSize
  have hmax' := toInt_lt xrange
  have hsum := sum_wraps parentSize xrange
  have hneg : (parentSize.toInt + xrange.toInt - 1).bmod (2 ^ 32) =
      parentSize.toInt + xrange.toInt - 1 - 2 ^ 32 := by
    rw [← Int.sub_bmod_right]
    exact bmod_of_fits ⟨by omega, by omega⟩
  rw [hneg] at hsum
  have hquot : (parentSize + xrange - 1).toInt.tdiv xrange.toInt ≤ 0 := by
    have hneg := Int.tdiv_nonneg (a := -(parentSize + xrange - 1).toInt) (by omega) hx.le
    rw [Int.neg_tdiv] at hneg
    omega
  have habs : ((parentSize + xrange - 1).toInt.tdiv xrange.toInt).natAbs ≤
      (parentSize + xrange - 1).toInt.natAbs := by
    rw [Int.natAbs_tdiv]
    exact Nat.div_le_self _ _
  change ((parentSize + xrange - 1) / xrange).toInt ≤ 0
  rw [toInt_div, bmod_of_fits ⟨by omega, by omega⟩]
  exact hquot

section Rows

variable (hfit : parentSize.toInt + xrange.toInt - 1 < 2 ^ 31)

include hfit

theorem rows_bounds :
    ((xAxis parentSize xrange).count.toInt - 1) * xrange.toInt < parentSize.toInt ∧
    parentSize.toInt ≤ (xAxis parentSize xrange).count.toInt * xrange.toInt ∧
    0 < (xAxis parentSize xrange).count.toInt := by
  rw [xAxis_count hx hle hfit, Int.sub_mul, Int.one_mul]
  have hlow := Int.ediv_mul_le (parentSize.toInt + xrange.toInt - 1) hx.ne'
  have hhigh := Int.lt_ediv_add_one_mul_self (parentSize.toInt + xrange.toInt - 1) hx
  rw [Int.add_mul, Int.one_mul] at hhigh
  have hpos : 1 ≤ (parentSize.toInt + xrange.toInt - 1) / xrange.toInt :=
    (Int.le_ediv_iff_mul_le hx).mpr (by omega)
  exact ⟨by omega, by omega, by omega⟩

theorem last_row : ((xAxis parentSize xrange).count.toInt - 1) * xrange.toInt +
    (if parentSize.toInt % xrange.toInt ≠ 0 then parentSize.toInt % xrange.toInt
      else xrange.toInt) = parentSize.toInt := by
  obtain ⟨hbefore, hend, -⟩ := rows_bounds hx hle hfit
  have hwidth : (xAxis parentSize xrange).count.toInt * xrange.toInt =
      ((xAxis parentSize xrange).count.toInt - 1) * xrange.toInt + xrange.toInt := by ring
  generalize (xAxis parentSize xrange).count.toInt - 1 = row at *
  rcases Int.lt_or_eq_of_le (by omega : parentSize.toInt - row * xrange.toInt ≤ xrange.toInt)
    with hshort | hfull
  · obtain ⟨-, hrem⟩ := cell_unique (by omega) hshort
      (by omega : parentSize.toInt = row * xrange.toInt + (parentSize.toInt - row * xrange.toInt))
    rw [if_pos (by omega)]
    omega
  · obtain ⟨-, hrem⟩ := cell_unique (x := xrange.toInt) (j := row + 1) (r := parentSize.toInt)
      (le_refl 0) hx (by rw [Int.add_mul]; omega)
    rw [if_neg (by omega)]
    omega

variable {j : ℕ}

theorem xAxis_start (hj : (j : ℤ) < (xAxis parentSize xrange).count.toInt) :
    ((xAxis parentSize xrange).startAt j).toInt = j * xrange.toInt := by
  have hmax := toInt_lt parentSize
  have hrow : (j : ℤ) * xrange.toInt ≤
      ((xAxis parentSize xrange).count.toInt - 1) * xrange.toInt :=
    Int.mul_le_mul_of_nonneg_right (by omega) hx.le
  have hpos := Int.mul_nonneg (by omega : (0 : ℤ) ≤ j) hx.le
  have hlt := (rows_bounds hx hle hfit).1
  change (Int32.ofInt (j * xrange.toInt)).toInt = _
  rw [toInt_ofInt_of_le (by omega) (by omega)]

omit hfit in
theorem xAxis_size (hj : (j : ℤ) < (xAxis parentSize xrange).count.toInt) :
    ((xAxis parentSize xrange).size (Int32.ofNat j)).toInt =
      if (j : ℤ) = (xAxis parentSize xrange).count.toInt - 1 ∧
        parentSize.toInt % xrange.toInt ≠ 0 then parentSize.toInt % xrange.toInt
      else xrange.toInt := by
  have hrem := remainder_exact hx hle
  have hcount : ((xAxis parentSize xrange).count - 1).toInt =
      (xAxis parentSize xrange).count.toInt - 1 := by
    have hmax := toInt_lt (xAxis parentSize xrange).count
    rw [toInt_sub]
    exact bmod_of_fits (x := (xAxis parentSize xrange).count.toInt - 1) ⟨by omega, by omega⟩
  have hcond : (Int32.ofNat j = (xAxis parentSize xrange).count - 1 ∧ parentSize % xrange ≠ 0) ↔
      ((j : ℤ) = (xAxis parentSize xrange).count.toInt - 1 ∧
        parentSize.toInt % xrange.toInt ≠ 0) := by
    rw [Ne, ← toInt_inj, ← toInt_inj, index_exact hj, hcount, hrem]
    rfl
  change Int32.toInt (if Int32.ofNat j = (xAxis parentSize xrange).count - 1 ∧
    parentSize % xrange ≠ 0 then parentSize % xrange else xrange) = _
  by_cases hlast : (j : ℤ) = (xAxis parentSize xrange).count.toInt - 1 ∧
      parentSize.toInt % xrange.toInt ≠ 0
  · rw [if_pos (hcond.mpr hlast), if_pos hlast, hrem]
  · rw [if_neg (fun h => hlast (hcond.mp h)), if_neg hlast]

theorem xAxis_row (hj : (j : ℤ) < (xAxis parentSize xrange).count.toInt) :
    0 < ((xAxis parentSize xrange).size (Int32.ofNat j)).toInt ∧
    ((xAxis parentSize xrange).size (Int32.ofNat j)).toInt ≤ xrange.toInt ∧
    j * xrange.toInt + ((xAxis parentSize xrange).size (Int32.ofNat j)).toInt ≤
      parentSize.toInt := by
  have hfull := (rows_bounds hx hle hfit).1
  have hremlt := Int.emod_lt_of_pos parentSize.toInt hx
  have hlast := last_row hx hle hfit
  rw [xAxis_size hx hle hj]
  by_cases heq : (j : ℤ) = (xAxis parentSize xrange).count.toInt - 1
  · simp only [heq, true_and]
    split_ifs at hlast ⊢ <;> omega
  · have hwhole := Int.mul_le_mul_of_nonneg_right
      (by omega : (j : ℤ) + 1 ≤ (xAxis parentSize xrange).count.toInt - 1) hx.le
    rw [Int.add_mul, Int.one_mul] at hwhole
    rw [if_neg (fun h => heq h.1)]
    omega

theorem xAxis_covers (hr0 : 0 ≤ r) (hr : r < parentSize.toInt) :
    (xAxis parentSize xrange).Covers parentSize (xAxis parentSize xrange).count.toInt.toNat r
      (r / xrange.toInt).toNat (r % xrange.toInt) := by
  obtain ⟨hfull, hend, hpos⟩ := rows_bounds hx hle hfit
  have hrow := Int.mul_ediv_add_emod r xrange.toInt
  have hcomm := Int.mul_comm xrange.toInt (r / xrange.toInt)
  have hcol0 := Int.emod_nonneg r hx.ne'
  have hcollt := Int.emod_lt_of_pos r hx
  have hrow0 := Int.ediv_nonneg hr0 hx.le
  have hmine : ((r / xrange.toInt).toNat : ℤ) = r / xrange.toInt := Int.toNat_of_nonneg hrow0
  have hrowlt : r / xrange.toInt < (xAxis parentSize xrange).count.toInt :=
    (Int.ediv_lt_iff_lt_mul hx).mpr (by omega)
  have hstride : (xAxis parentSize xrange).stride.toInt = 1 := rfl
  have hlast := last_row hx hle hfit
  refine ⟨fun j hj => ?_, by omega, hcol0, ?_, ?_, fun j hj hne k hk hlt => ?_⟩
  · have hj' : (j : ℤ) < (xAxis parentSize xrange).count.toInt := by omega
    obtain ⟨hpos', -, hin⟩ := xAxis_row hx hle hfit hj'
    have hstart0 := Int.mul_nonneg (by omega : (0 : ℤ) ≤ j) hx.le
    refine ⟨?_, ?_, hpos', ?_⟩
    · rwa [xAxis_start hx hle hfit hj']
    · rw [hstride]
      decide
    · rw [xAxis_start hx hle hfit hj', hstride]
      omega
  · rw [xAxis_size hx hle (by omega), hmine]
    split_ifs with hrow
    · obtain ⟨heq, hne⟩ := hrow
      rw [if_pos hne, ← heq] at hlast
      omega
    · exact hcollt
  · rw [xAxis_start hx hle hfit (by omega), hmine, hstride]
    omega
  · have hj' : (j : ℤ) < (xAxis parentSize xrange).count.toInt := by omega
    have hle' := (xAxis_row hx hle hfit hj').2.1
    rw [xAxis_start hx hle hfit hj', hstride]
    intro heq
    obtain ⟨hdiv, -⟩ := cell_unique hk (by omega) (by omega : r = j * xrange.toInt + k)
    omega

end Rows

end Axes

structure Placed (p : TeamInfo) (width r : ℤ) (x y : NewTeam) : Prop where
  x_rank : x.myPe.toInt = r % width
  y_rank : y.myPe.toInt = r / width
  row : ∀ pe, TeamInfo.Member x.wrtWorld pe ↔
    ∃ q, p.ValidRank q ∧ q / width = r / width ∧ pe = p.worldPe q
  column : ∀ pe, TeamInfo.Member y.wrtWorld pe ↔
    ∃ q, p.ValidRank q ∧ q % width = r % width ∧ pe = p.worldPe q
  meet : ∀ pe, TeamInfo.Member x.wrtWorld pe ∧ TeamInfo.Member y.wrtWorld pe ↔ pe = p.worldPe r

/-- The call succeeded on the PE of rank `r`: all splits passed their checks, exactly one of
the x-teams and one of the y-teams is its own, and they are its row and its column. -/
structure OnGrid (p : TeamInfo) (xrange : Int32) (r : ℤ) (res : Result) : Prop where
  success : res.status = 0
  checked : ∀ out ∈ res.xOutcomes ++ res.yOutcomes, out.passed = true
  teams : ∃ x y, res.xOutcomes.filterMap Outcome.team = [x] ∧
    res.yOutcomes.filterMap Outcome.team = [y] ∧ res.xaxisTeam = some x ∧
    res.yaxisTeam = some y ∧ Placed p (min xrange.toInt p.size.toInt) r x y

def FailsCleanly (res : Result) : Prop :=
  res.status ≠ 0 → res.xaxisTeam = none ∧ res.yaxisTeam = none ∧ res.tracked = []

section Call

variable {b : Backend} {p : Team b.numPes} {available : ℕ → Bool} {xrange : Int32} {r : ℤ}

theorem clamped_exact (hx : 1 ≤ xrange.toInt) :
    (clampedXrange p.size xrange).toInt = min xrange.toInt p.size.toInt ∧
    0 < (clampedXrange p.size xrange).toInt ∧
    (clampedXrange p.size xrange).toInt ≤ p.size.toInt := by
  have hsize := p.size_pos
  unfold clampedXrange
  split_ifs with hgt
  all_goals
    rw [gt_iff_lt, lt_iff_toInt_lt] at hgt
    omega

theorem covers_members {axis : Axis} {n : ℕ} {m : ℤ → ℕ} {i : ℤ → ℤ}
    (h : ∀ q, p.ValidRank q → axis.Covers p.size n q (m q) (i q)) (hr : p.ValidRank r)
    (rank : Int32) (pe : ℤ) : TeamInfo.Member (mineTeam p.toTeamInfo axis (m r) rank).wrtWorld pe ↔
      ∃ q, p.ValidRank q ∧ m q = m r ∧ pe = p.worldPe q := by
  have hin := (h r hr).inside (m r) (h r hr).mine_lt
  refine (member_iff hin pe).trans ⟨?_, ?_⟩
  · rintro ⟨k, hk, hlt, rfl⟩
    have hq := members_valid (p := p) hin.start_nonneg hin.stride_pos hin.last_lt hk hlt
    refine ⟨_, hq, ?_, rfl⟩
    by_contra hne
    exact (h _ hq).others (m r) (h r hr).mine_lt (Ne.symm hne) k hk hlt rfl
  · rintro ⟨q, hq, heq, rfl⟩
    obtain ⟨-, -, hi, hlt, hmine, -⟩ := h q hq
    rw [heq] at hlt hmine
    exact ⟨i q, hi, hlt, by rw [← hmine]⟩

/-- The two teams of rank `r` of the parent. -/
abbrev xTeam {N : Int32} (p : Team N) (width : Int32) (r : ℤ) (rank : Int32) : NewTeam :=
  mineTeam p.toTeamInfo (xAxis p.size width) (r / width.toInt).toNat rank

abbrev yTeam {N : Int32} (p : Team N) (width : Int32) (r : ℤ) (rank : Int32) : NewTeam :=
  mineTeam p.toTeamInfo (yAxis p.size width) (r % width.toInt).toNat rank

theorem placed {width : Int32} (hx : 0 < width.toInt) (hle : width.toInt ≤ p.size.toInt)
    (hfit : p.size.toInt + width.toInt - 1 < 2 ^ 31) (hr : p.ValidRank r) {rankX rankY : Int32}
    (hrankX : rankX.toInt = r % width.toInt) (hrankY : rankY.toInt = r / width.toInt) :
    Placed p.toTeamInfo width.toInt r (xTeam p width r rankX) (yTeam p width r rankY) := by
  have hrow : ∀ pe, TeamInfo.Member
      (xTeam p width r rankX).wrtWorld pe ↔
        ∃ q, p.ValidRank q ∧ q / width.toInt = r / width.toInt ∧ pe = p.worldPe q := by
    intro pe
    refine (covers_members (fun q hq => xAxis_covers hx hle hfit hq.1 hq.2) hr rankX pe).trans ?_
    refine exists_congr fun q => and_congr_right fun hq => and_congr_left fun _ => ?_
    have := Int.ediv_nonneg hq.1 hx.le
    have := Int.ediv_nonneg hr.1 hx.le
    omega
  have hcolumn : ∀ pe, TeamInfo.Member
      (yTeam p width r rankY).wrtWorld pe ↔
        ∃ q, p.ValidRank q ∧ q % width.toInt = r % width.toInt ∧ pe = p.worldPe q := by
    intro pe
    refine (covers_members (fun q hq => yAxis_covers hx hle hq.1 hq.2) hr rankY pe).trans ?_
    refine exists_congr fun q => and_congr_right fun hq => and_congr_left fun _ => ?_
    have := Int.emod_nonneg q hx.ne'
    have := Int.emod_nonneg r hx.ne'
    omega
  refine ⟨hrankX, hrankY, hrow, hcolumn, fun pe => ⟨?_, ?_⟩⟩
  · rintro ⟨hpx, hpy⟩
    obtain ⟨q, -, hdiv, rfl⟩ := (hrow pe).mp hpx
    obtain ⟨q', -, hmod, heq⟩ := (hcolumn _).mp hpy
    obtain rfl := p.worldPe_inj heq
    have hq := Int.mul_ediv_add_emod q width.toInt
    rw [hdiv, hmod, Int.mul_ediv_add_emod] at hq
    rw [hq]
  · rintro rfl
    exact ⟨(hrow _).mpr ⟨r, hr, rfl, rfl⟩, (hcolumn _).mpr ⟨r, hr, rfl, rfl⟩⟩

def result (x y : Int32 × Progress) : Result :=
  if x.1 ≠ 0 then ⟨rocshmemError, x.2.handle, none, x.2.outcomes, [], x.2.tracked⟩
  else ⟨if y.1 ≠ 0 then rocshmemError else 0, x.2.handle, y.2.handle, x.2.outcomes, y.2.outcomes,
    y.2.tracked⟩

variable {x y : Int32 × Progress}

theorem clean_of_x_failed (hx : x.1 = rocshmemError) :
    FailsCleanly (result x y) ↔ x.2.handle = none ∧ x.2.tracked = [] := by
  have hne : x.1 ≠ 0 := by
    rw [hx]
    decide
  simp [FailsCleanly, result, hne, rocshmemError]

theorem clean_of_y_failed (hx : x.1 = 0) (hy : y.1 = rocshmemError) :
    FailsCleanly (result x y) ↔ x.2.handle = none ∧ y.2.handle = none ∧ y.2.tracked = [] := by
  have hne : y.1 ≠ 0 := by
    rw [hy]
    decide
  simp [FailsCleanly, result, hx, hne, rocshmemError]

theorem clean_of_success (hx : x.1 = 0) (hy : y.1 = 0) : FailsCleanly (result x y) := by
  simp [FailsCleanly, result, hx, hy]

section Loops

variable {width : Int32} (hx : 0 < width.toInt) (hle : width.toInt ≤ p.size.toInt)
  (hr : p.ValidRank r) (hme : b.myPe.toInt = p.worldPe r)

include hx hle hr hme

theorem xTeams_done (hfit : p.size.toInt + width.toInt - 1 < 2 ^ 31) (hfree : 2 ≤ free b)
    (hav : available 0 = true) :
    ∃ rank before after, rank.toInt = r % width.toInt ∧ xTeams b p width available =
      (0, ⟨List.replicate before .notMember ++ [.created (xTeam p width r rank)] ++
          List.replicate after .notMember, [xTeam p width r rank],
        some (xTeam p width r rank)⟩) := by
  obtain ⟨rank, hrank, hloop⟩ := loop_done (s := ⟨[], [], none⟩)
    (xAxis_covers hx hle hfit hr.1 hr.2) hme (by simp; omega) hav (.inl (by simp; omega))
  exact ⟨rank, _, _, hrank, hloop⟩

theorem yTeams_done (available : ℕ → Bool) (tracked : List NewTeam)
    (hroom : tracked.length < free b) (hav : available tracked.length = true)
    (hlast : tracked.length + 1 < free b ∨ r % width.toInt = width.toInt - 1) :
    ∃ rank before after, rank.toInt = r / width.toInt ∧ yTeams b p width available tracked =
      (0, ⟨List.replicate before .notMember ++
          [.created (yTeam p width r rank)] ++
          List.replicate after .notMember,
        tracked ++ [yTeam p width r rank],
        some (yTeam p width r rank)⟩) := by
  have hlast' : tracked.length + 1 < free b ∨
      (r % width.toInt).toNat + 1 = width.toInt.toNat :=
    hlast.imp_right (fun h => by omega)
  obtain ⟨rank, hrank, hloop⟩ := loop_done (s := ⟨[], tracked, none⟩)
    (yAxis_covers hx hle hr.1 hr.2) hme hroom hav hlast'
  exact ⟨rank, _, _, hrank, hloop⟩

theorem yTeams_late (available : ℕ → Bool) (tracked : List NewTeam)
    (hfull : tracked.length + 1 = free b)
    (hav : available tracked.length = true) (hcol : r % width.toInt ≠ width.toInt - 1) :
    ∃ team, (yTeams b p width available tracked).1 = rocshmemError ∧
      (yTeams b p width available tracked).2.tracked = tracked ++ [team] ∧
      (yTeams b p width available tracked).2.handle = some team := by
  have hcol0 := Int.emod_nonneg r hx.ne'
  have hcollt := Int.emod_lt_of_pos r hx
  have hmore : (r % width.toInt).toNat + 1 < width.toInt.toNat := by omega
  exact loop_late (s := ⟨[], tracked, none⟩) (yAxis_covers hx hle hr.1 hr.2) hme hav hfull hmore

theorem yTeams_refused (available : ℕ → Bool) (tracked : List NewTeam)
    (hroom : tracked.length < free b) (hav : available tracked.length = false) :
    ∃ outcomes, yTeams b p width available tracked = (rocshmemError, ⟨outcomes, tracked, none⟩) :=
  loop_refused (s := ⟨[], tracked, none⟩) (yAxis_covers hx hle hr.1 hr.2) hme hroom hav

omit hle hr hme in
theorem yTeams_full (available : ℕ → Bool) (tracked : List NewTeam)
    (hfull : tracked.length = free b) : ∃ outcomes, yTeams b p width available tracked =
      (rocshmemError, ⟨outcomes, tracked, none⟩) := by
  have hcount : 0 < (yAxis p.size width).count.toInt.toNat := Int.lt_toNat.mpr hx
  exact ⟨_, loop_full_at_start (s := ⟨[], tracked, none⟩) hfull hcount⟩

omit hr hme in
theorem xTeams_full (available : ℕ → Bool)
    (hfit : p.size.toInt + width.toInt - 1 < 2 ^ 31) (hfull : free b = 0) :
    ∃ outcomes, xTeams b p width available = (rocshmemError, ⟨outcomes, [], none⟩) := by
  have hcount : 0 < (xAxis p.size width).count.toInt.toNat :=
    Int.lt_toNat.mpr (rows_bounds hx hle hfit).2.2
  exact ⟨_, loop_full_at_start (s := ⟨[], [], none⟩) hfull.symm hcount⟩

theorem one_slot_not_clean (hfit : p.size.toInt + width.toInt - 1 < 2 ^ 31)
    (hfree : free b = 1) (hav : available 0 = true) :
    ¬ FailsCleanly (result (xTeams b p width available)
      (yTeams b p width available (xTeams b p width available).2.tracked)) := by
  have hc := xAxis_covers hx hle hfit hr.1 hr.2
  have hmine := hc.mine_lt
  by_cases hmore : (r / width.toInt).toNat + 1 = (xAxis p.size width).count.toInt.toNat
  · obtain ⟨rank, -, hloop⟩ := loop_done (s := ⟨[], [], none⟩) hc hme (by simp; omega) hav
      (.inr hmore)
    have hxs : xTeams b p width available = _ := hloop
    rw [hxs]
    obtain ⟨outcomes, hys⟩ := yTeams_full (b := b) (p := p) hx available
      [xTeam p width r rank]
      (by simp; omega)
    simp only [List.nil_append]
    rw [hys, clean_of_y_failed rfl rfl]
    simp
  · grind [xTeams, clean_of_x_failed, loop_late]

omit hr hme in
theorem xTeams_wrapped (hbig : ¬ p.size.toInt + width.toInt - 1 < 2 ^ 31) :
    xTeams b p width available = (0, ⟨[], [], none⟩) := by
  have hcount := xAxis_count_wrapped hx hle (by omega)
  have hzero : (xAxis p.size width).count.toInt.toNat = 0 := by omega
  rw [xTeams, hzero]
  rfl

theorem clean_fit_iff (hfit : p.size.toInt + width.toInt - 1 < 2 ^ 31) :
    FailsCleanly (result (xTeams b p width available)
        (yTeams b p width available (xTeams b p width available).2.tracked)) ↔
      free b = 0 ∨ available 0 = false ∨ available 1 = true ∧
        (3 ≤ free b ∨ free b = 2 ∧ r % width.toInt = width.toInt - 1) := by
  by_cases h0 : free b = 0
  · obtain ⟨outcomes, hxs⟩ := xTeams_full hx hle available hfit h0
    rw [hxs, clean_of_x_failed rfl]
    simp [h0]
  cases hav : available 0 with
  | false =>
    obtain ⟨outcomes, hxs⟩ := loop_refused (s := ⟨[], [], none⟩)
      (xAxis_covers hx hle hfit hr.1 hr.2) hme (by simp; omega) hav
    have hxs' : xTeams b p width available = _ := hxs
    rw [hxs', clean_of_x_failed rfl]
    simp
  | true =>
    by_cases h1 : free b = 1
    · have hnot := one_slot_not_clean hx hle hr hme hfit h1 hav
      simp [hnot, h1]
    obtain ⟨rank, before, after, -, hxs⟩ := xTeams_done hx hle hr hme hfit (by omega) hav
    rw [hxs]
    dsimp only
    cases hav1 : available 1 with
    | false =>
      obtain ⟨outcomes, hys⟩ := yTeams_refused hx hle hr hme available
        [xTeam p width r rank]
        (by simp; omega) hav1
      rw [hys, clean_of_y_failed rfl rfl]
      simp [h0]
    | true =>
      by_cases hlast : 2 < free b ∨ r % width.toInt = width.toInt - 1
      · obtain ⟨rankY, before, after, -, hys⟩ := yTeams_done hx hle hr hme available
          [xTeam p width r rank]
          (by simp; omega) hav1 hlast
        rw [hys]
        exact iff_of_true (clean_of_success rfl rfl) (.inr (.inr ⟨rfl, by omega⟩))
      grind [clean_of_y_failed, yTeams_late]

theorem clean_wrapped_iff (hbig : ¬ p.size.toInt + width.toInt - 1 < 2 ^ 31) :
    FailsCleanly (result (xTeams b p width available)
        (yTeams b p width available (xTeams b p width available).2.tracked)) ↔
      free b = 0 ∨ available 0 = false ∨
        (2 ≤ free b ∨ r % width.toInt = width.toInt - 1) := by
  rw [xTeams_wrapped hx hle hbig]
  dsimp only
  by_cases h0 : free b = 0
  · obtain ⟨outcomes, hys⟩ := yTeams_full (p := p) hx available []
      (by simp [h0])
    rw [hys, clean_of_y_failed rfl rfl]
    simp [h0]
  cases hav : available 0 with
  | false =>
    obtain ⟨outcomes, hys⟩ := yTeams_refused hx hle hr hme available [] (by simp; omega) hav
    rw [hys, clean_of_y_failed rfl rfl]
    simp
  | true =>
    by_cases hlast : 1 < free b ∨ r % width.toInt = width.toInt - 1
    · obtain ⟨rank, before, after, -, hys⟩ := yTeams_done hx hle hr hme available []
        (by simp; omega) hav hlast
      rw [hys]
      exact iff_of_true (clean_of_success rfl rfl) (.inr (.inr hlast))
    grind [clean_of_y_failed, yTeams_late]

end Loops

theorem split2d_eq (hx : 1 ≤ xrange.toInt) : rocshmemTeamSplit2d b (some p) xrange available =
      result (xTeams b p (clampedXrange p.size xrange) available)
        (yTeams b p (clampedXrange p.size xrange) available
          (xTeams b p (clampedXrange p.size xrange) available).2.tracked) := by
  have hpos : ¬ xrange < 1 := by
    rw [lt_iff_toInt_lt]
    exact not_lt.mpr hx
  unfold rocshmemTeamSplit2d
  dsimp only
  rw [if_neg hpos]
  rfl

end Call

def withRoom (me : Int32) (h0 : 0 ≤ me.toInt) (h8 : me.toInt < 8) (room : Int32) : Backend :=
  ⟨8, me, 0, room + 2, true, h0, h8⟩

def hugeBackend : Backend := ⟨1073741825, 0, 0, 40, true, by decide, by decide⟩

def hugeTeam : Team hugeBackend.numPes :=
  ⟨⟨0, 1, 1073741825⟩, by decide, by decide, by decide, by decide⟩

def NoLateFailure (b : Backend) (p : Team b.numPes) (xrange : Int32) (available : ℕ → Bool)
    (r : ℤ) : Prop :=
  let width := min xrange.toInt p.size.toInt
  free b = 0 ∨ available 0 = false ∨
    if p.size.toInt + width - 1 < 2 ^ 31 then
      available 1 = true ∧ (3 ≤ free b ∨ free b = 2 ∧ r % width = width - 1)
    else 2 ≤ free b ∨ r % width = width - 1

/-- The call destroys nothing on its way out, so it fails cleanly exactly when it cannot fail
after its first team. -/
theorem split_2d_fails_cleanly_iff (b : Backend) (parent : Option (Team b.numPes))
    (xrange : Int32) (available : ℕ → Bool) (r : ℤ)
    (hme : ∀ p ∈ parent, p.ValidRank r ∧ b.myPe.toInt = p.worldPe r) :
    FailsCleanly (rocshmemTeamSplit2d b parent xrange available) ↔
      ∀ p ∈ parent, 1 ≤ xrange.toInt → NoLateFailure b p xrange available r := by
  cases parent with
  | none => simp [FailsCleanly, rocshmemTeamSplit2d]
  | some p =>
    obtain ⟨hr, hme⟩ := hme p rfl
    simp only [Option.mem_def, Option.some.injEq, forall_eq']
    by_cases hx : 1 ≤ xrange.toInt
    swap
    · have hneg : xrange < 1 := by
        rw [lt_iff_toInt_lt]
        exact not_le.mp hx
      simp [FailsCleanly, rocshmemTeamSplit2d, hneg, hx]
    obtain ⟨hwidth, hpos, hle⟩ := clamped_exact (p := p) hx
    rw [split2d_eq hx]
    simp only [hx, true_implies, NoLateFailure, ← hwidth]
    generalize clampedXrange p.size xrange = width at *
    split_ifs with hfit
    · exact clean_fit_iff hpos hle hr hme hfit
    · exact clean_wrapped_iff hpos hle hr hme hfit

/-- A PE without room for any team fails, and leaves nothing behind. -/
theorem no_room_fails_cleanly :
    (rocshmemTeamSplit2d (withRoom 3 (by decide) (by decide) 0) (some teamWorld) 2
      (fun _ => true)).status ≠ 0 ∧
    FailsCleanly (rocshmemTeamSplit2d (withRoom 3 (by decide) (by decide) 0) (some teamWorld) 2
      (fun _ => true)) := by
  refine ⟨by decide, (split_2d_fails_cleanly_iff (withRoom 3 (by decide) (by decide) 0)
    (some teamWorld) 2 (fun _ => true) 3 ?_).mpr ?_⟩
  · rintro p hp
    cases hp
    exact ⟨⟨by decide, by decide⟩, by decide⟩
  · intro p _ _
    exact .inl (by decide)

/-- With room for one team, PE 0 keeps its x-team and the handle to it after the error. -/
theorem x_team_survives_error :
    ¬ FailsCleanly (rocshmemTeamSplit2d (withRoom 0 (by decide) (by decide) 1) (some teamWorld) 2
      (fun _ => true)) :=
  fun h => absurd (h (by decide)).2.2 (by decide)

end TeamSplit2d
