import Rocshmem.TeamSplitStrided

/-! `team_translate_pe`: a rank of one team is sent to the world by `get_pe_in_world` and from
there into the other team by `get_pe_in_my_team`. Only the second step checks its argument. -/
namespace TeamTranslatePe

open TeamSplitStrided

def getPeInMyTeam (team : TeamInfo) (peInWorld : Int32) : Int32 :=
  if peInWorld < team.peStart then -1
  else if (peInWorld - team.peStart) % team.stride ≠ 0 then -1
  else
    let peInMyTeam := (peInWorld - team.peStart) / team.stride
    if peInMyTeam ≥ team.size then -1 else peInMyTeam

def teamTranslatePe (srcTeam : Option TeamInfo) (srcPe : Int32) (dstTeam : Option TeamInfo) :
    Int32 :=
  match srcTeam, dstTeam with
  | some src, some dst => getPeInMyTeam dst (getPeInWorld src srcPe)
  | _, _ => -1

structure TranslatesExactly {world : Int32} (src dst : Team world) (pe : Int32) : Prop where
  accepted : 0 ≤ (teamTranslatePe (some src.toTeamInfo) pe (some dst.toTeamInfo)).toInt ↔
    src.ValidRank pe.toInt ∧ dst.Member (src.worldPe pe.toInt)
  rank : ∀ q, teamTranslatePe (some src.toTeamInfo) pe (some dst.toTeamInfo) = q → 0 ≤ q.toInt →
    dst.ValidRank q.toInt ∧ dst.worldPe q.toInt = src.worldPe pe.toInt
  back : ∀ q, teamTranslatePe (some src.toTeamInfo) pe (some dst.toTeamInfo) = q → 0 ≤ q.toInt →
    teamTranslatePe (some dst.toTeamInfo) q (some src.toTeamInfo) = pe

theorem getPeInMyTeam_eq (team : TeamInfo) (pe : Int32) :
    getPeInMyTeam team pe = peInActiveSet team.peStart team.stride team.size pe := by
  grind [peInActiveSet, getPeInMyTeam]

section Lookup

variable {world : Int32} (t : Team world)

theorem my_team_rank (pe : Int32) :
    (0 ≤ (getPeInMyTeam t.toTeamInfo pe).toInt ↔ t.Member pe.toInt) ∧
    (0 ≤ (getPeInMyTeam t.toTeamInfo pe).toInt →
      pe.toInt = t.worldPe (getPeInMyTeam t.toTeamInfo pe).toInt) := by
  by_cases hneg : pe.toInt < 0
  · -- a negative number is before every start
    have hlt : pe < t.peStart := by
      rw [Int32.lt_iff_toInt_lt]
      have := t.start_nonneg
      omega
    have hval : getPeInMyTeam t.toTeamInfo pe = -1 := if_pos hlt
    rw [hval]
    refine ⟨iff_of_false (by decide) ?_, fun h => absurd h (by decide)⟩
    rintro ⟨i, hi, heq⟩
    have := (t.world_pe_inside hi).2.1
    omega
  · have hstart := t.start_nonneg
    have hmax := Int32.toInt_lt pe
    have hmax' := Int32.toInt_lt t.peStart
    obtain ⟨hiff, hval⟩ := @active_set_rank t.peStart t.stride t.size pe t.stride_pos
      ⟨by omega, by omega⟩
    have hsign : 0 ≤ (getPeInMyTeam t.toTeamInfo pe).toInt ↔
        ¬ peInActiveSet t.peStart t.stride t.size pe < 0 := by
      rw [getPeInMyTeam_eq, Int32.lt_iff_toInt_lt]
      exact not_lt.symm
    rw [hsign, hiff, getPeInMyTeam_eq]
    refine ⟨⟨?_, ?_⟩, fun h => hval (hiff.mpr h)⟩
    · rintro ⟨i, hi, hlt, heq⟩
      exact ⟨i, ⟨hi, hlt⟩, heq⟩
    · rintro ⟨i, ⟨hi, hlt⟩, heq⟩
      exact ⟨i, hi, hlt, heq⟩

theorem my_team_of_rank {pe : Int32} {i : ℤ} (hi : t.ValidRank i) (h : pe.toInt = t.worldPe i) :
    (getPeInMyTeam t.toTeamInfo pe).toInt = i := by
  obtain ⟨hiff, hval⟩ := my_team_rank t pe
  have heq := hval (hiff.mpr ⟨i, hi, h⟩)
  exact t.worldPe_inj (heq.symm.trans h)

theorem get_pe_in_world_wraps (team : TeamInfo) (pe : Int32) :
    (getPeInWorld team pe).toInt = (team.worldPe pe.toInt).bmod (2 ^ 32) := by
  rw [getPeInWorld, Int32.toInt_add, Int32.toInt_mul, Int.add_bmod_bmod]
  rfl

end Lookup

/-- The translation is right exactly when the number is a rank of the source team, or the
`int` that `get_pe_in_world` makes of it happens to be no PE of the destination. -/
theorem translate_pe_exact_iff {world : Int32} (src dst : Team world) (pe : Int32) :
    TranslatesExactly src dst pe ↔
      src.ValidRank pe.toInt ∨ ¬ dst.Member ((src.worldPe pe.toInt).bmod (2 ^ 32)) := by
  obtain ⟨hiff, hval⟩ := my_team_rank dst (getPeInWorld src.toTeamInfo pe)
  rw [get_pe_in_world_wraps] at hiff hval
  change (0 ≤ (teamTranslatePe (some src.toTeamInfo) pe (some dst.toTeamInfo)).toInt ↔ _) at hiff
  constructor
  · intro h
    by_contra hnot
    push Not at hnot
    exact hnot.1 (h.accepted.mp (hiff.mpr hnot.2)).1
  · intro h
    by_cases hvalid : src.ValidRank pe.toInt
    swap
    · have hno := h.resolve_left hvalid
      have hneg : ¬ 0 ≤ (teamTranslatePe (some src.toTeamInfo) pe (some dst.toTeamInfo)).toInt :=
        fun h0 => hno (hiff.mp h0)
      refine ⟨iff_of_false hneg fun h => hvalid h.1, ?_, ?_⟩
      · rintro q rfl hq
        exact absurd hq hneg
      · rintro q rfl hq
        exact absurd hq hneg
    have hexact := src.get_pe_in_world_exact hvalid
    rw [get_pe_in_world_wraps] at hexact
    rw [hexact] at hiff hval
    have hrank : ∀ q, teamTranslatePe (some src.toTeamInfo) pe (some dst.toTeamInfo) = q →
        0 ≤ q.toInt → dst.ValidRank q.toInt ∧ dst.worldPe q.toInt = src.worldPe pe.toInt := by
      rintro q rfl hq
      obtain ⟨i, hi, heq⟩ := hiff.mp hq
      have hworld := hval hq
      have hqi : _ = i := dst.worldPe_inj (hworld.symm.trans heq)
      exact ⟨by rw [← hqi] at hi; exact hi, hworld.symm⟩
    refine ⟨⟨fun h0 => ⟨hvalid, hiff.mp h0⟩, fun h => hiff.mpr h.2⟩, hrank, fun q hq h0 => ?_⟩
    obtain ⟨hvalidq, hworldq⟩ := hrank q hq h0
    rw [← Int32.toInt_inj]
    exact my_team_of_rank src hvalid ((dst.get_pe_in_world_exact hvalidq).trans hworldq)

theorem second_of_every_fourth_translates :
    TranslatesExactly everyFourth teamWorld 1 :=
  (translate_pe_exact_iff everyFourth teamWorld 1).mpr (.inl ⟨by decide, by decide⟩)

/-- Number 5 is no rank of the first four PEs, and is translated to PE 5 of the world. -/
theorem outside_rank_translates :
    teamTranslatePe (some firstFour.toTeamInfo) 5 (some teamWorld.toTeamInfo) = 5 ∧
    ¬ firstFour.ValidRank 5 ∧ ¬ TranslatesExactly firstFour teamWorld 5 := by
  have hout : ¬ firstFour.ValidRank 5 := fun h => absurd h.2 (by decide)
  exact ⟨by decide, hout, fun h => hout (h.accepted.mp (by decide)).1⟩

end TeamTranslatePe
