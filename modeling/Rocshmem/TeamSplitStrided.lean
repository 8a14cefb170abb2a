import Mathlib

/-! `rocshmem_team_split_strided` in the 32-bit `int` arithmetic of the host code. The end
of the new team is checked in world coordinates and against the size of the world. -/
namespace TeamSplitStrided

structure TeamInfo where
  peStart : Int32
  stride : Int32
  size : Int32
  deriving DecidableEq, Repr

structure Team (world : Int32) extends TeamInfo where
  start_nonneg : 0 ≤ peStart.toInt
  stride_pos : 0 < stride.toInt
  size_pos : 0 < size.toInt
  inside : peStart.toInt + stride.toInt * (size.toInt - 1) < world.toInt

structure Backend where
  numPes : Int32
  myPe : Int32
  numUserTeams : UInt64
  maxNumTeams : Int32
  teamAvailable : Bool
  pe_nonneg : 0 ≤ myPe.toInt
  pe_lt : myPe.toInt < numPes.toInt

def numReservedTeams : UInt64 := 2

def getPeInWorld (team : TeamInfo) (pe : Int32) : Int32 := team.peStart + team.stride * pe

def strideInWorld (parent : TeamInfo) (stride : Int32) : Int32 := stride * parent.stride

def peEndInWorld (parent : TeamInfo) (start stride size : Int32) : Int32 :=
  getPeInWorld parent start + strideInWorld parent stride * (size - 1)

def peInActiveSet (start stride size pe : Int32) : Int32 :=
  let translatedPe := (pe - start) / stride
  if pe < start ∨ (pe - start) % stride ≠ 0 ∨ translatedPe ≥ size then -1 else translatedPe

structure NewTeam where
  wrtParent : TeamInfo
  wrtWorld : TeamInfo
  myPe : Int32
  deriving DecidableEq, Repr

inductive Outcome where
  | tooManyTeams
  | invalidParent
  | badArguments
  | endOutOfBounds
  | notMember
  | createFailed (myPe : Int32)
  | created (team : NewTeam)
  deriving DecidableEq, Repr

def rocshmemError : Int32 := 1

def Outcome.status : Outcome → Int32
  | .tooManyTeams | .badArguments | .endOutOfBounds => -1
  | .invalidParent | .notMember | .created _ => 0
  | .createFailed _ => rocshmemError

def Outcome.passed : Outcome → Bool
  | .notMember | .createFailed _ | .created _ => true
  | _ => false

def Outcome.rank : Outcome → Option Int32
  | .createFailed r => some r
  | .created team => some team.myPe
  | _ => none

def rocshmemTeamSplitStrided (b : Backend) (parent : Option (Team b.numPes))
    (start stride size : Int32) : Outcome :=
  if b.numUserTeams ≥ b.maxNumTeams.toInt64.toUInt64 - numReservedTeams then .tooManyTeams
  else match parent with
  | none => .invalidParent
  | some p =>
    if start < 0 ∨ start ≥ p.size ∨ size < 1 ∨ size > p.size ∨ stride < 1 then .badArguments
    else if peEndInWorld p.toTeamInfo start stride size > b.numPes then .endOutOfBounds
    else
      let peStart := getPeInWorld p.toTeamInfo start
      let stride' := strideInWorld p.toTeamInfo stride
      let myPe := peInActiveSet peStart stride' size b.myPe
      if myPe < 0 then .notMember
      else if b.teamAvailable then
        .created ⟨⟨start, stride, size⟩, ⟨peStart, stride', size⟩, myPe⟩
      else .createFailed myPe

def TeamInfo.worldPe (team : TeamInfo) (rank : ℤ) : ℤ :=
  team.peStart.toInt + team.stride.toInt * rank

open TeamInfo (worldPe)

def TeamInfo.ValidRank (team : TeamInfo) (rank : ℤ) : Prop := 0 ≤ rank ∧ rank < team.size.toInt

def TeamInfo.Member (team : TeamInfo) (pe : ℤ) : Prop :=
  ∃ i, team.ValidRank i ∧ pe = team.worldPe i

def intermediates (b : Backend) (p : TeamInfo) (start stride size : Int32) : List ℤ :=
  let peStart := p.worldPe start.toInt
  let stride' := stride.toInt * p.stride.toInt
  [p.stride.toInt * start.toInt, peStart, stride', stride' * (size.toInt - 1),
    peStart + stride' * (size.toInt - 1), b.myPe.toInt - peStart]

structure InsideParent (b : Backend) (p : Team b.numPes) (start stride size : Int32) : Prop where
  members : ∀ i : ℤ, 0 ≤ i → i < size.toInt → p.ValidRank (start.toInt + i * stride.toInt)
  triple : ∀ i : ℤ, 0 ≤ i → i < size.toInt → ∃ rank, p.ValidRank rank ∧
    (TeamInfo.mk (getPeInWorld p.toTeamInfo start) (strideInWorld p.toTeamInfo stride)
      size).worldPe i = p.worldPe rank ∧ 0 ≤ p.worldPe rank ∧ p.worldPe rank < b.numPes.toInt
  ranked : (rocshmemTeamSplitStrided b (some p) start stride size).rank.isSome ↔
    ∃ i : ℤ, 0 ≤ i ∧ i < size.toInt ∧ b.myPe.toInt = p.worldPe (start.toInt + i * stride.toInt)
  rank_eq : ∀ r, (rocshmemTeamSplitStrided b (some p) start stride size).rank = some r →
    b.myPe.toInt = p.worldPe (start.toInt + r.toInt * stride.toInt)
  no_overflow : ∀ x ∈ intermediates b p.toTeamInfo start stride size, -2 ^ 31 ≤ x ∧ x < 2 ^ 31

theorem bmod_of_fits {x : ℤ} (h : -2 ^ 31 ≤ x ∧ x < 2 ^ 31) : x.bmod (2 ^ 32) = x :=
  Int.bmod_eq_of_le (by omega) (by omega)

theorem active_set_rank {start stride size pe : Int32} (hs : 0 < stride.toInt)
    (hfit : -2 ^ 31 ≤ pe.toInt - start.toInt ∧ pe.toInt - start.toInt < 2 ^ 31) :
    (¬ peInActiveSet start stride size pe < 0 ↔
      ∃ i : ℤ, 0 ≤ i ∧ i < size.toInt ∧ pe.toInt = start.toInt + stride.toInt * i) ∧
    (¬ peInActiveSet start stride size pe < 0 →
      pe.toInt = start.toInt + stride.toInt * (peInActiveSet start stride size pe).toInt) := by
  have hsub : (pe - start).toInt = pe.toInt - start.toInt := by
    rw [Int32.toInt_sub, bmod_of_fits hfit]
  by_cases hlt : pe < start
  · have hneg : peInActiveSet start stride size pe = -1 := if_pos (.inl hlt)
    rw [hneg]
    rw [Int32.lt_iff_toInt_lt] at hlt
    refine ⟨⟨fun h => absurd (by decide) h, ?_⟩, fun h => absurd (by decide) h⟩
    rintro ⟨i, hi, _, heq⟩
    have := Int.mul_nonneg hs.le hi
    omega
  have hge : 0 ≤ pe.toInt - start.toInt := by
    rw [Int32.lt_iff_toInt_lt] at hlt
    omega
  have hq0 := Int.ediv_nonneg hge hs.le
  have hq1 := Int.ediv_le_self stride.toInt hge
  have hdiv : ((pe - start) / stride).toInt = (pe.toInt - start.toInt) / stride.toInt := by
    rw [Int32.toInt_div, hsub, Int.tdiv_eq_ediv_of_nonneg hge, bmod_of_fits ⟨by omega, by omega⟩]
  have hmod : ((pe - start) % stride).toInt = (pe.toInt - start.toInt) % stride.toInt := by
    rw [Int32.toInt_mod, hsub, Int.tmod_eq_emod_of_nonneg hge]
  have hsplit := Int.mul_ediv_add_emod (pe.toInt - start.toInt) stride.toInt
  by_cases hout : (pe - start) % stride ≠ 0 ∨ (pe - start) / stride ≥ size
  · have hneg : peInActiveSet start stride size pe = -1 := if_pos (.inr hout)
    rw [hneg]
    refine ⟨⟨fun h => absurd (by decide) h, ?_⟩, fun h => absurd (by decide) h⟩
    rintro ⟨i, hi, hsize, heq⟩
    have hd : pe.toInt - start.toInt = stride.toInt * i := by omega
    rw [ge_iff_le, Int32.le_iff_toInt_le, hdiv, Ne, ← Int32.toInt_inj, hmod, hd,
      Int.mul_emod_right, Int.mul_ediv_cancel_left _ hs.ne'] at hout
    rcases hout with h | h
    · exact absurd rfl h
    · omega
  · have hval : peInActiveSet start stride size pe = (pe - start) / stride :=
      if_neg (by rintro (h | h); exacts [hlt h, hout h])
    push Not at hout
    obtain ⟨hrem, hsize⟩ := hout
    rw [← Int32.toInt_inj, hmod] at hrem
    rw [ge_iff_le, Int32.le_iff_toInt_le, hdiv, not_le] at hsize
    have hpe : pe.toInt = start.toInt + stride.toInt * ((pe.toInt - start.toInt) / stride.toInt) := by
      rw [hrem] at hsplit
      change _ + 0 = _ at hsplit
      omega
    rw [hval, hdiv]
    refine ⟨⟨fun _ => ⟨_, hq0, hsize, hpe⟩, fun _ => ?_⟩, fun _ => hpe⟩
    rw [Int32.lt_iff_toInt_lt, hdiv]
    exact not_lt.mpr hq0

theorem passed_spec {b : Backend} {p : Team b.numPes} {start stride size : Int32}
    (h : (rocshmemTeamSplitStrided b (some p) start stride size).passed = true) :
    0 ≤ start.toInt ∧ 0 < size.toInt ∧ 0 < stride.toInt ∧
    (rocshmemTeamSplitStrided b (some p) start stride size).rank =
      if peInActiveSet (getPeInWorld p.toTeamInfo start) (strideInWorld p.toTeamInfo stride) size
        b.myPe < 0 then none else some (peInActiveSet (getPeInWorld p.toTeamInfo start)
        (strideInWorld p.toTeamInfo stride) size b.myPe) := by
  unfold rocshmemTeamSplitStrided at h ⊢
  split at h
  · cases h
  rename_i hteams
  rw [if_neg hteams]
  dsimp only at h ⊢
  split at h
  · cases h
  rename_i hargs
  rw [if_neg hargs]
  split at h
  · cases h
  rename_i hend
  rw [if_neg hend]
  simp only [not_or, Int32.not_lt, ge_iff_le, gt_iff_lt, Int32.le_iff_toInt_le] at hargs
  obtain ⟨hstart, -, hsize, -, hstride⟩ := hargs
  refine ⟨hstart, hsize, hstride, ?_⟩
  split
  · rfl
  · split <;> rfl

theorem Team.world_pe_inside {world : Int32} (t : Team world) {r : ℤ} (h : t.ValidRank r) :
    0 ≤ t.stride.toInt * r ∧ 0 ≤ t.worldPe r ∧ t.worldPe r < world.toInt := by
  have hstart := t.start_nonneg
  have hnonneg : 0 ≤ t.stride.toInt * r := Int.mul_nonneg t.stride_pos.le h.1
  have hle : t.stride.toInt * r ≤ t.stride.toInt * (t.size.toInt - 1) :=
    Int.mul_le_mul_of_nonneg_left (Int.le_sub_one_of_lt h.2) t.stride_pos.le
  have hinside := t.inside
  refine ⟨hnonneg, ?_, ?_⟩ <;> simp only [worldPe] <;> omega

theorem Team.worldPe_inj {w : Int32} (p : Team w) {i j : ℤ}
    (h : p.worldPe i = p.worldPe j) : i = j := by
  have hmul : p.stride.toInt * i = p.stride.toInt * j := by
    simp only [worldPe] at h
    omega
  exact Int.eq_of_mul_eq_mul_left p.stride_pos.ne' hmul

theorem Team.get_pe_in_world_exact {w : Int32} (p : Team w) {start : Int32}
    (h : p.ValidRank start.toInt) :
    (getPeInWorld p.toTeamInfo start).toInt = p.worldPe start.toInt := by
  obtain ⟨hoff, hlow, hhigh⟩ := p.world_pe_inside h
  have hworld := Int32.toInt_lt w
  have hp := p.start_nonneg
  simp only [worldPe] at hlow hhigh
  have hfits : -2 ^ 31 ≤ p.stride.toInt * start.toInt ∧ p.stride.toInt * start.toInt < 2 ^ 31 := by
    omega
  rw [getPeInWorld, Int32.toInt_add, Int32.toInt_mul, bmod_of_fits hfits,
    bmod_of_fits ⟨by omega, by omega⟩]
  rfl

section LastMember

variable {b : Backend} {p : Team b.numPes} {start stride size : Int32}

theorem members_valid (hstart : 0 ≤ start.toInt) (hstride : 0 < stride.toInt)
    (hlast : start.toInt + (size.toInt - 1) * stride.toInt < p.size.toInt) {i : ℤ} (hi : 0 ≤ i)
    (hlt : i < size.toInt) : p.ValidRank (start.toInt + i * stride.toInt) := by
  have hpos := Int.mul_nonneg hi hstride.le
  have hle : i * stride.toInt ≤ (size.toInt - 1) * stride.toInt :=
    Int.mul_le_mul_of_nonneg_right (by omega) hstride.le
  exact ⟨by omega, by omega⟩

theorem intermediates_fit (hstart : 0 ≤ start.toInt) (hsize : 0 < size.toInt)
    (hstride : 0 < stride.toInt)
    (hlast : start.toInt + (size.toInt - 1) * stride.toInt < p.size.toInt)
    (hcomp : stride.toInt * p.stride.toInt < 2 ^ 31) :
    ∀ x ∈ intermediates b p.toTeamInfo start stride size, -2 ^ 31 ≤ x ∧ x < 2 ^ 31 := by
  have hfirst : p.ValidRank start.toInt := by
    simpa using members_valid (i := 0) hstart hstride hlast (by omega) hsize
  have hend := members_valid (i := size.toInt - 1) hstart hstride hlast (by omega) (by omega)
  -- the start and the end are world PEs of ranks of the parent
  obtain ⟨hs0, hs1, hs2⟩ := p.world_pe_inside hfirst
  obtain ⟨-, he1, he2⟩ := p.world_pe_inside hend
  have hspan : p.worldPe (start.toInt + (size.toInt - 1) * stride.toInt) =
      p.worldPe start.toInt + stride.toInt * p.stride.toInt * (size.toInt - 1) := by
    simp only [worldPe]; ring
  have hcomp0 := Int.mul_nonneg hstride.le p.stride_pos.le
  have hspan0 := Int.mul_nonneg hcomp0 (by omega : 0 ≤ size.toInt - 1)
  have hworld := Int32.toInt_lt b.numPes
  have hme := b.pe_nonneg
  have hme' := b.pe_lt
  have hp0 := p.start_nonneg
  simp only [intermediates, List.forall_mem_cons, List.not_mem_nil, false_implies, implies_true,
    and_true]
  simp only [worldPe] at *
  omega

theorem world_triple_exact
    (h : ∀ x ∈ intermediates b p.toTeamInfo start stride size, -2 ^ 31 ≤ x ∧ x < 2 ^ 31) :
    (getPeInWorld p.toTeamInfo start).toInt = p.worldPe start.toInt ∧
    (strideInWorld p.toTeamInfo stride).toInt = stride.toInt * p.stride.toInt ∧
    ∀ i : ℤ, (getPeInWorld p.toTeamInfo start).toInt +
      (strideInWorld p.toTeamInfo stride).toInt * i =
        p.worldPe (start.toInt + i * stride.toInt) := by
  simp only [intermediates, List.forall_mem_cons, worldPe] at h
  obtain ⟨hoff, hstart, hcomp, -⟩ := h
  have hs : (getPeInWorld p.toTeamInfo start).toInt = p.worldPe start.toInt := by
    rw [getPeInWorld, Int32.toInt_add, Int32.toInt_mul, bmod_of_fits hoff, bmod_of_fits hstart]
    rfl
  have hc : (strideInWorld p.toTeamInfo stride).toInt = stride.toInt * p.stride.toInt := by
    rw [strideInWorld, Int32.toInt_mul, bmod_of_fits hcomp]
  refine ⟨hs, hc, fun i => ?_⟩
  rw [hs, hc]
  simp only [worldPe]
  ring

end LastMember

/-- The new team stays inside its parent exactly when its last member is a rank of the
parent and the composed stride is an `int`. The end check of the code implies neither. -/
theorem split_strided_inside_parent_iff (b : Backend) (p : Team b.numPes)
    (start stride size : Int32)
    (h : (rocshmemTeamSplitStrided b (some p) start stride size).passed = true) :
    InsideParent b p start stride size ↔
      start.toInt + (size.toInt - 1) * stride.toInt < p.size.toInt ∧
      stride.toInt * p.stride.toInt < 2 ^ 31 := by
  obtain ⟨hstart, hsize, hstride, hrank⟩ := passed_spec h
  constructor
  · intro hin
    refine ⟨(hin.members (size.toInt - 1) (by omega) (by omega)).2, ?_⟩
    exact (hin.no_overflow _ (by simp [intermediates])).2
  rintro ⟨hlast, hcomp⟩
  have hfits := intermediates_fit hstart hsize hstride hlast hcomp
  obtain ⟨hs, hc, hmember⟩ := world_triple_exact hfits
  have hrange := hfits (b.myPe.toInt - p.worldPe start.toInt) (by simp [intermediates])
  rw [← hs] at hrange
  have hpos : 0 < (strideInWorld p.toTeamInfo stride).toInt := by
    rw [hc]
    exact Int.mul_pos hstride p.stride_pos
  obtain ⟨hiff, hval⟩ := active_set_rank hpos hrange
  simp only [hmember] at hiff hval
  refine ⟨fun i => members_valid hstart hstride hlast, fun i hi hlt => ?_, ?_,
    fun r hr => ?_, hfits⟩
  · have hv := members_valid hstart hstride hlast hi hlt
    exact ⟨_, hv, hmember i, (p.world_pe_inside hv).2⟩
  · rw [hrank, ← hiff]
    split <;> simp_all
  · rw [hrank] at hr
    split at hr
    · cases hr
    · rename_i hneg
      cases hr
      exact hval hneg

def worldOfEight (me : Int32) (h0 : 0 ≤ me.toInt) (h8 : me.toInt < 8) : Backend :=
  ⟨8, me, 0, 40, true, h0, h8⟩

def teamWorld : Team 8 := ⟨⟨0, 1, 8⟩, by decide, by decide, by decide, by decide⟩

def firstFour : Team 8 := ⟨⟨0, 1, 4⟩, by decide, by decide, by decide, by decide⟩

def everyFourth : Team 8 := ⟨⟨0, 4, 2⟩, by decide, by decide, by decide, by decide⟩

theorem even_ranks_inside :
    InsideParent (worldOfEight 6 (by decide) (by decide)) teamWorld 0 2 4 :=
  (split_strided_inside_parent_iff (worldOfEight 6 (by decide) (by decide)) teamWorld 0 2 4
    (by decide)).mpr (by decide)

/-- Three calls that pass. The last member of the first is rank 8 of the eight PEs of the
world, that of the second rank 5 of four; the composed stride of the third is `2 ^ 32`. -/
theorem end_check_lets_outsiders_pass :
    ((rocshmemTeamSplitStrided (worldOfEight 0 (by decide) (by decide)) (some teamWorld)
        0 8 2).passed = true ∧
      ¬ InsideParent (worldOfEight 0 (by decide) (by decide)) teamWorld 0 8 2) ∧
    ((rocshmemTeamSplitStrided (worldOfEight 0 (by decide) (by decide)) (some firstFour)
        2 3 2).passed = true ∧
      ¬ InsideParent (worldOfEight 0 (by decide) (by decide)) firstFour 2 3 2) ∧
    ((rocshmemTeamSplitStrided (worldOfEight 0 (by decide) (by decide)) (some everyFourth)
        0 (2 ^ 30) 1).passed = true ∧
      ¬ InsideParent (worldOfEight 0 (by decide) (by decide)) everyFourth 0 (2 ^ 30) 1) := by
  refine ⟨⟨by decide, fun h => ?_⟩, ⟨by decide, fun h => ?_⟩, ⟨by decide, fun h => ?_⟩⟩
  · exact absurd (h.members 1 (by decide) (by decide)).2 (by decide)
  · exact absurd (h.members 1 (by decide) (by decide)).2 (by decide)
  · exact absurd (h.no_overflow (2 ^ 32) (by decide)).2 (by decide)

end TeamSplitStrided
