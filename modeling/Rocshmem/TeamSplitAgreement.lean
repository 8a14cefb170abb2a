import Rocshmem.TeamSplitLoop

/-! All members of a parent call `rocshmem_team_split_strided` together, but each of them tests
the limit against the teams that it tracks itself: teams of the user and duplicates that the
collective launcher made, with other member sets on other PEs. -/
namespace TeamSplitAgreement

open TeamSplitStrided TeamSplitLoop

abbrev Handle := ℕ

structure Config where
  numPes : Int32
  maxNumTeams : Int32
  /-- The node-local teams `ROCSHMEM_TEAM_SHARED`. -/
  shared : List TeamInfo

abbrev Config.Rank (c : Config) := Fin c.numPes.toInt.toNat

structure Resources where
  wgTeams : List Handle
  wgTeamCreationFailed : Bool

structure Pe where
  tracked : List Handle
  resources : Handle → Resources

structure State (c : Config) where
  teams : List TeamInfo
  pes : c.Rank → Pe

def initial (c : Config) : State c :=
  ⟨⟨0, 1, c.numPes⟩ :: c.shared, fun _ => ⟨[], fun _ => ⟨[], false⟩⟩⟩

variable {c : Config}

theorem rank_exact (q : c.Rank) : (Int32.ofNat q).toInt = q := by
  have := q.isLt
  have := Int32.toInt_lt c.numPes
  exact Int32.toInt_ofNat_of_lt (by omega)

def State.backend (s : State c) (q : c.Rank) (slot : Bool) : Backend where
  numPes := c.numPes
  myPe := Int32.ofNat q
  numUserTeams := UInt64.ofNat (s.pes q).tracked.length
  maxNumTeams := c.maxNumTeams
  teamAvailable := slot
  pe_nonneg := by
    rw [rank_exact]
    omega
  pe_lt := by
    rw [rank_exact]
    have := q.isLt
    omega

def refusal (b : Backend) (parent : TeamInfo) (start stride size : Int32) : Option Outcome :=
  if b.numUserTeams ≥ Backend.capacity b then some .tooManyTeams
  else if start < 0 ∨ start ≥ parent.size ∨ size < 1 ∨ size > parent.size ∨ stride < 1 then
    some .badArguments
  else if peEndInWorld parent start stride size > b.numPes then some .endOutOfBounds
  else none

def exchange (b : Backend) (parent : TeamInfo) (start stride size : Int32) : Outcome :=
  let peStart := getPeInWorld parent start
  let stride' := strideInWorld parent stride
  let myPe := peInActiveSet peStart stride' size b.myPe
  if myPe < 0 then .notMember
  else if b.teamAvailable then
    .created ⟨⟨start, stride, size⟩, ⟨peStart, stride', size⟩, myPe⟩
  else .createFailed myPe

def State.Holds (s : State c) (q : c.Rank) (h : Handle) : Prop :=
  (h ≤ c.shared.length ∧ (s.teams[h]?).any (fun p =>
    decide (¬ peInActiveSet p.peStart p.stride p.size (Int32.ofNat q) < 0)) = true) ∨
  h ∈ (s.pes q).tracked

instance (s : State c) (q : c.Rank) (h : Handle) : Decidable (s.Holds q h) :=
  inferInstanceAs (Decidable (_ ∨ _))

def State.TakesPart (s : State c) (p : TeamInfo) (start stride size : Int32) (q : c.Rank) : Prop :=
  refusal (s.backend q true) p start stride size = none

instance (s : State c) (p : TeamInfo) (start stride size : Int32) (q : c.Rank) :
    Decidable (s.TakesPart p start stride size q) := inferInstanceAs (Decidable (_ = _))

def State.Together (s : State c) (parent : Handle) (p : TeamInfo) (start stride size : Int32) :
    Prop :=
  ∀ q r, s.Holds q parent → s.Holds r parent → s.TakesPart p start stride size q →
    s.TakesPart p start stride size r

instance (s : State c) (parent : Handle) (p : TeamInfo) (start stride size : Int32) :
    Decidable (s.Together parent p start stride size) := inferInstanceAs (Decidable (∀ _ _, _))

def State.gets (s : State c) (p : TeamInfo) (start stride size : Int32) (slot : Bool)
    (q : c.Rank) : Bool :=
  (Outcome.team ((refusal (s.backend q slot) p start stride size).getD
    (exchange (s.backend q slot) p start stride size))).isSome

def newTriple (p : TeamInfo) (start stride size : Int32) : TeamInfo :=
  ⟨getPeInWorld p start, strideInWorld p stride, size⟩

def Pe.track (pe : Pe) (h : Handle) : Pe := { pe with tracked := pe.tracked ++ [h] }

def Pe.dropWgTeams (pe : Pe) (parent : Handle) (failed : Bool) : Pe where
  tracked := pe.tracked.filter (· ∉ (pe.resources parent).wgTeams)
  resources := Function.update pe.resources parent ⟨[], failed⟩

def Pe.addWgTeam (pe : Pe) (parent h : Handle) : Pe where
  tracked := pe.tracked ++ [h]
  resources := Function.update pe.resources parent
    ⟨(pe.resources parent).wgTeams ++ [h], false⟩

def State.afterSplit (s : State c) (parent : Handle) (p : TeamInfo) (start stride size : Int32)
    (slot : Bool) : State c where
  teams := s.teams ++ [newTriple p start stride size]
  pes := fun q =>
    if s.Holds q parent ∧ s.gets p start stride size slot q = true then
      (s.pes q).track s.teams.length
    else s.pes q

def State.afterLaunch (s : State c) (parent : Handle) (p : TeamInfo) (slot : Bool) : State c where
  teams := s.teams ++ [newTriple p 0 1 p.size]
  pes := fun q =>
    if s.Holds q parent then
      if s.gets p 0 1 p.size slot q = true then (s.pes q).addWgTeam parent s.teams.length
      else (s.pes q).dropWgTeams parent true
    else s.pes q

def State.afterDestroy (s : State c) (q : c.Rank) (h : Handle) : State c :=
  { s with
    pes := Function.update s.pes q
      { (s.pes q).dropWgTeams h false with
        tracked := ((s.pes q).dropWgTeams h false).tracked.erase h } }

inductive Step : State c → State c → Prop
  | split (s : State c) (parent : Handle) (p : TeamInfo) (start stride size : Int32) (slot : Bool) :
      s.teams[parent]? = some p → s.Together parent p start stride size →
      Step s (s.afterSplit parent p start stride size slot)
  | launch (s : State c) (parent : Handle) (p : TeamInfo) (slot : Bool) :
      s.teams[parent]? = some p → s.Together parent p 0 1 p.size →
      (∀ q, s.Holds q parent → ((s.pes q).resources parent).wgTeamCreationFailed = false) →
      Step s (s.afterLaunch parent p slot)
  | destroy (s : State c) (q : c.Rank) (h : Handle) : h ∈ (s.pes q).tracked →
      Step s (s.afterDestroy q h)

inductive Reachable (c : Config) : State c → Prop
  | init : Reachable c (initial c)
  | next {s t : State c} : Reachable c s → Step s t → Reachable c t

def Config.capacity (c : Config) : ℕ := (c.maxNumTeams.toInt64.toUInt64 - numReservedTeams).toNat

def State.count (s : State c) (q : c.Rank) : ℕ := (s.pes q).tracked.length

def State.WithinLimit (s : State c) : Prop := ∀ q, s.count q ≤ c.capacity

theorem at_limit_iff {s : State c} (h : s.WithinLimit) (q : c.Rank) (slot : Bool) :
    (s.backend q slot).numUserTeams ≥ Backend.capacity (s.backend q slot) ↔
      s.count q = c.capacity := by
  have hle := h q
  have hcap : c.capacity < 2 ^ 64 := UInt64.toNat_lt _
  have hcount : (UInt64.ofNat (s.pes q).tracked.length).toNat = s.count q :=
    Nat.mod_eq_of_lt (lt_of_le_of_lt hle hcap)
  change Backend.capacity (s.backend q slot) ≤ UInt64.ofNat (s.pes q).tracked.length ↔ _
  rw [UInt64.le_iff_toNat_le, hcount]
  change c.capacity ≤ _ ↔ _
  omega

theorem takes_part_iff {s : State c} (h : s.WithinLimit) (p : TeamInfo)
    (start stride size : Int32) (slot : Bool) (q : c.Rank) :
    refusal (s.backend q slot) p start stride size = none ↔ s.count q ≠ c.capacity ∧
      ¬ (start < 0 ∨ start ≥ p.size ∨ size < 1 ∨ size > p.size ∨ stride < 1) ∧
      ¬ peEndInWorld p start stride size > c.numPes := by
  have hlimit := at_limit_iff h q slot
  unfold refusal
  split_ifs with hfull hargs hend
  · simp [hlimit.mp hfull]
  · exact ⟨fun hsome => (by cases hsome), fun hnone => absurd hargs hnone.2.1⟩
  · exact ⟨fun hsome => (by cases hsome), fun hnone => absurd hend hnone.2.2⟩
  · simp only [true_iff]
    exact ⟨fun heq => hfull (hlimit.mpr heq), hargs, hend⟩

theorem gets_below_limit {s : State c} (h : s.WithinLimit) {p : TeamInfo}
    {start stride size : Int32} {slot : Bool} {q : c.Rank}
    (hget : s.gets p start stride size slot q = true) : s.count q < c.capacity := by
  refine lt_of_le_of_ne (h q) ?_
  intro hfull
  have hrefused : refusal (s.backend q slot) p start stride size = some .tooManyTeams :=
    if_pos ((at_limit_iff h q slot).mpr hfull)
  rw [State.gets, hrefused] at hget
  cases hget

theorem dropWgTeams_count (pe : Pe) (parent : Handle) (failed : Bool) :
    (pe.dropWgTeams parent failed).tracked.length ≤ pe.tracked.length :=
  List.length_filter_le _ _

theorem step_within_limit {s t : State c} (h : Step s t) (hs : s.WithinLimit) : t.WithinLimit := by
  cases h with
  | split parent p start stride size slot hp htogether =>
    intro q
    simp only [State.count, State.afterSplit]
    split_ifs with hget
    · have hlt := gets_below_limit hs hget.2
      simp only [Pe.track, List.length_append]
      exact hlt
    · exact hs q
  | launch parent p slot hp htogether hok =>
    intro q
    simp only [State.count, State.afterLaunch]
    split_ifs with hholds hget
    · have hlt := gets_below_limit hs hget
      simp only [Pe.addWgTeam, List.length_append]
      exact hlt
    · exact (dropWgTeams_count _ _ _).trans (hs q)
    · exact hs q
  | destroy q h hmem =>
    intro r
    by_cases hr : r = q
    · subst hr
      simp only [State.count, State.afterDestroy, Function.update_self]
      exact (List.length_erase_le.trans (dropWgTeams_count _ _ _)).trans (hs r)
    · simp only [State.count, State.afterDestroy, Function.update_of_ne hr]
      exact hs r

theorem reachable_within_limit {s : State c} (h : Reachable c s) : s.WithinLimit := by
  induction h with
  | init =>
    intro q
    exact Nat.zero_le _
  | next _ hstep ih => exact step_within_limit hstep ih

/-- After any history, the members of a parent decide alike about a split exactly when its
arguments are refused by all of them, or either all or none of them are at the limit. -/
theorem split_together_iff {s : State c} (h : Reachable c s) (parent : Handle) (p : TeamInfo)
    (start stride size : Int32) :
    s.Together parent p start stride size ↔
      (start < 0 ∨ start ≥ p.size ∨ size < 1 ∨ size > p.size ∨ stride < 1) ∨
      peEndInWorld p start stride size > c.numPes ∨
      (∀ q, s.Holds q parent → s.count q = c.capacity) ∨
      (∀ q, s.Holds q parent → s.count q < c.capacity) := by
  have hlimit := reachable_within_limit h
  have htakes : ∀ q, s.TakesPart p start stride size q ↔ _ :=
    takes_part_iff hlimit p start stride size true
  constructor
  · intro htogether
    by_cases hargs : start < 0 ∨ start ≥ p.size ∨ size < 1 ∨ size > p.size ∨ stride < 1
    · exact .inl hargs
    by_cases hend : peEndInWorld p start stride size > c.numPes
    · exact .inr (.inl hend)
    refine .inr (.inr ?_)
    by_cases hfull : ∀ q, s.Holds q parent → s.count q = c.capacity
    · exact .inl hfull
    -- one member below the limit takes part, so all do
    push Not at hfull
    obtain ⟨q, hq, hbelow⟩ := hfull
    refine .inr fun r hr => ?_
    have hpart := htogether q r hq hr ((htakes q).mpr ⟨hbelow, hargs, hend⟩)
    exact lt_of_le_of_ne (hlimit r) ((htakes r).mp hpart).1
  · rintro (hargs | hend | hfull | hbelow) q r hq hr hpart
    · exact absurd hargs ((htakes q).mp hpart).2.1
    · exact absurd hend ((htakes q).mp hpart).2.2
    · exact absurd (hfull q hq) ((htakes q).mp hpart).1
    · exact (htakes r).mpr ⟨(hbelow r hr).ne, ((htakes q).mp hpart).2⟩

def twoPes : Config := ⟨2, 3, []⟩

theorem world_splits_together :
    (initial twoPes).Together 0 ⟨0, 1, 2⟩ 0 1 1 :=
  (split_together_iff Reachable.init 0 ⟨0, 1, 2⟩ 0 1 1).mpr
    (.inr (.inr (.inr (by decide))))

/-- PE 0 alone made a team. At the next split of the world it returns an error while PE 1
enters the exchange. -/
theorem lone_team_parts_members :
    Reachable twoPes ((initial twoPes).afterSplit 0 ⟨0, 1, 2⟩ 0 1 1 true) ∧
    ¬ ((initial twoPes).afterSplit 0 ⟨0, 1, 2⟩ 0 1 1 true).Together 0 ⟨0, 1, 2⟩ 0 1 2 := by
  refine ⟨.next .init (.split _ 0 ⟨0, 1, 2⟩ 0 1 1 true rfl (by decide)), by decide⟩

end TeamSplitAgreement
