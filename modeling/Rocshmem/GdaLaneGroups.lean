import Mathlib

/-! The loop of `put_nbi_shared_qp`, `get_nbi_shared_qp` and `quiet_shared_qp`. The lanes that
entered stay together: each iteration serves the pending lanes that use the QP of the first one. -/
namespace GdaLaneGroups

abbrev Mask := BitVec 64

variable {Q : Type*} [DecidableEq Q]

/-- `__builtin_ctzll`, for a mask that is not zero. -/
def firstLane (pending : Mask) : Fin 64 :=
  ((List.finRange 64).find? fun lane : Fin 64 => pending.getLsbD lane).getD 0

/-- `__ballot` among the lanes of `active`. -/
def ballot (active : Mask) (p : Fin 64 → Bool) : Mask :=
  BitVec.ofFnLE fun lane => active.getLsbD lane && p lane

def getNextQpGroup (active : Mask) (qpIndex : Fin 64 → Q) (pending : Mask) : Mask :=
  let selectedQp := qpIndex (firstLane pending)
  ballot active fun lane => pending.getLsbD lane && qpIndex lane = selectedQp

/-- The groups served by the iterations, if the loop ends within the fuel. -/
def loop (active : Mask) (qpIndex : Fin 64 → Q) : ℕ → Mask → Option (List Mask)
  | 0, _ => none
  | fuel + 1, pending =>
    if pending = 0 then some []
    else
      let qpGroup := getNextQpGroup active qpIndex pending
      (loop active qpIndex fuel (pending &&& ~~~qpGroup)).map (qpGroup :: ·)

def lanes (mask : Mask) : Finset (Fin 64) := Finset.univ.filter fun lane => mask.getLsbD lane

/-- Each QP of a lane in the mask has one iteration, which serves its lanes in the mask. -/
structure Serves (qpIndex : Fin 64 → Q) (mask : Mask) (qps : List Q) (groups : List Mask) :
    Prop where
  distinct : qps.Nodup
  used : ∀ q, q ∈ qps ↔ ∃ lane ∈ lanes mask, qpIndex lane = q
  served : groups.map lanes = qps.map fun q => (lanes mask).filter fun lane => qpIndex lane = q

variable {active pending : Mask} {qpIndex : Fin 64 → Q} {qps : List Q} {groups : List Mask}
  {lane : Fin 64} {fuel : ℕ}

theorem mem_lanes {mask : Mask} : lane ∈ lanes mask ↔ mask.getLsbD lane = true := by
  simp [lanes]

theorem firstLane_mem (h : pending ≠ 0) : firstLane pending ∈ lanes pending := by
  rw [mem_lanes, firstLane]
  cases hfind : (List.finRange 64).find? fun lane : Fin 64 => pending.getLsbD lane with
  | some lane => simpa using List.find?_some hfind
  | none =>
    have hzero : pending = 0 := BitVec.eq_of_getLsbD_eq fun i hi => by
      simpa using List.find?_eq_none.mp hfind ⟨i, hi⟩ (List.mem_finRange _)
    exact absurd hzero h

section

variable (hsub : lanes pending ⊆ lanes active)
include hsub

theorem mem_group : lane ∈ lanes (getNextQpGroup active qpIndex pending) ↔
    lane ∈ lanes pending ∧ qpIndex lane = qpIndex (firstLane pending) := by
  have hactive : pending.getLsbD lane = true → active.getLsbD lane = true := fun h =>
    mem_lanes.mp (hsub (mem_lanes.mpr h))
  simp only [mem_lanes, getNextQpGroup, ballot, BitVec.getLsbD_ofFnLE, lane.isLt, dite_true,
    Bool.and_eq_true, decide_eq_true_eq]
  exact ⟨fun h => h.2, fun h => ⟨hactive h.1, h⟩⟩

theorem mem_rest : lane ∈ lanes (pending &&& ~~~getNextQpGroup active qpIndex pending) ↔
    lane ∈ lanes pending ∧ qpIndex lane ≠ qpIndex (firstLane pending) := by
  have hgroup : lane ∈ lanes (getNextQpGroup active qpIndex pending) ↔ _ := mem_group hsub
  simp only [mem_lanes, BitVec.getLsbD_and, BitVec.getLsbD_not, lane.isLt] at hgroup ⊢
  grind

/-- One iteration serves the lanes of one QP and leaves the others to the rest of the loop. -/
theorem Serves.cons (hne : pending ≠ 0)
    (h : Serves qpIndex (pending &&& ~~~getNextQpGroup active qpIndex pending) qps groups) :
    Serves qpIndex pending (qpIndex (firstLane pending) :: qps)
      (getNextQpGroup active qpIndex pending :: groups) := by
  have hrest {lane : Fin 64} : lane ∈ lanes (pending &&& ~~~getNextQpGroup active qpIndex pending) ↔
      lane ∈ lanes pending ∧ _ := mem_rest hsub
  refine ⟨List.nodup_cons.mpr ⟨fun hq => ?_, h.distinct⟩, fun q => ?_, ?_⟩
  · obtain ⟨lane, hlane, heq⟩ := (h.used _).mp hq
    exact (hrest.mp hlane).2 heq
  · have hfirst := firstLane_mem hne
    rw [List.mem_cons, h.used]
    grind
  · rw [List.map_cons, List.map_cons, h.served]
    congr 1
    · ext lane
      rw [mem_group hsub, Finset.mem_filter]
    · refine List.map_congr_left fun q hq => ?_
      obtain ⟨other, hother, rfl⟩ := (h.used q).mp hq
      ext lane
      grind

theorem loop_serves (hfuel : (lanes pending).card < fuel) : ∃ qps groups,
    loop active qpIndex fuel pending = some groups ∧ Serves qpIndex pending qps groups := by
  induction fuel generalizing pending with
  | zero => exact absurd hfuel (Nat.not_lt_zero _)
  | succ fuel ih =>
    by_cases hne : pending = 0
    · have hempty : lanes pending = ∅ := by simp [hne, lanes]
      exact ⟨[], [], by rw [loop, if_pos hne], List.nodup_nil, by simp [hempty], rfl⟩
    · have hrest : lanes (pending &&& ~~~getNextQpGroup active qpIndex pending) ⊂
          lanes pending := by
        refine Finset.ssubset_iff_of_subset ?_ |>.mpr ⟨_, firstLane_mem hne, ?_⟩
        · exact fun lane hlane => ((mem_rest hsub).mp hlane).1
        · exact fun hlane => ((mem_rest hsub).mp hlane).2 rfl
      have hcard := Finset.card_lt_card hrest
      obtain ⟨qps, groups, hloop, hs⟩ := ih (hrest.1.trans hsub) (by omega)
      exact ⟨_, _, by simp only [loop, if_neg hne, hloop, Option.map_some], hs.cons hsub hne⟩

end

/-- The loop of the active lanes ends after at most one iteration for each of the 64 lanes. -/
theorem lane_groups (active : Mask) (qpIndex : Fin 64 → Q) : ∃ qps groups,
    loop active qpIndex 65 active = some groups ∧ Serves qpIndex active qps groups := by
  apply loop_serves fun _ h => h
  exact Nat.lt_succ_of_le ((Finset.card_le_univ _).trans_eq (Fintype.card_fin 64))

end GdaLaneGroups
