import Rocshmem.MatchedPrograms

/-! `MPITransport::alltoall` and `MPITransport::fcollect`. The progress thread of a PE puts one
block to every member with `Rput`, completes its own puts with `Win_flush_all` and notifies
the device through `quiet`; the workgroup returns when its status is set. Nothing orders the
puts of different origins. -/
namespace RoExchangeCompletion

open MatchedPrograms

inductive Collective where
  | alltoall
  | fcollect

structure Call where
  op : Collective
  peSize : ℕ
  source : ℕ → ℕ → ℤ

def Call.sent (c : Call) (rank target : ℕ) : ℤ :=
  match c.op with
  | .alltoall => c.source rank target
  | .fcollect => c.source rank 0

def Call.target (c : Call) (rank i : ℕ) : ℕ := (rank + i) % c.peSize

inductive Event where
  | put (rank i : ℕ)
  | flush (rank : ℕ)
  | notify (rank : ℕ)
  | ret (rank : ℕ)
  deriving DecidableEq

open Event

def Event.pe : Event → ℕ
  | put p _ | flush p | notify p | ret p => p

def program (c : Call) : Program Event ℕ ℕ ℕ (ℕ × ℕ) ℤ where
  event
    | put p i => p < c.peSize ∧ i < c.peSize
    | flush p | notify p | ret p => p < c.peSize
  pe := Event.pe
  point
    | put _ i => i
    | flush _ => c.peSize
    | notify _ => c.peSize + 1
    | ret _ => c.peSize + 2
  mode
    | put p i => .posted (c.target p i)
    | flush _ => .drain
    | notify _ | ret _ => .blocking
  guard _ _ := True
  action
    | put p i => .store (c.target p i, p) fun _ => c.sent p (c.target p i)
    | _ => .skip

variable {c : Call} {init : ℕ × ℕ → ℤ} {X : Set Event} {m : ℕ × ℕ → ℤ}

def Landed (c : Call) (X : Set Event) (m : ℕ × ℕ → ℤ) (p q : ℕ) : Prop :=
  ∃ i < c.peSize, c.target q i = p ∧ put q i ∈ X ∧ m (p, q) = c.sent q p

def certificate (c : Call) : Certificate Event ℤ where
  waitsFor _ _ := False
  val
    | put p i => c.sent p (c.target p i)
    | _ => 0

variable {p q : ℕ}

theorem stores_iff {e : Event} :
    (program c).system.StoresTo (p, q) e ↔ ∃ i, e = put q i ∧ c.target q i = p := by
  constructor
  · intro h
    obtain ⟨f, hf⟩ := h
    cases e with
    | put r i =>
      grind [program, Program.system]
    | flush | notify | ret => cases hf
  · rintro ⟨i, rfl, rfl⟩
    exact ⟨_, rfl⟩

theorem not_addsTo {a : ℕ × ℕ} {e : Event} : ¬ (program c).system.AddsTo a e := by
  rintro ⟨v, hv⟩
  cases e <;> cases hv

theorem target_injective {i j : ℕ} (hi : i < c.peSize) (hj : j < c.peSize)
    (h : c.target p i = c.target p j) : i = j := by
  have hmod : i ≡ j [MOD c.peSize] := Nat.ModEq.add_left_cancel' p h
  exact hmod.eq_of_lt_of_lt hi hj

theorem target_surjective (hp : p < c.peSize) (hq : q < c.peSize) :
    ∃ i < c.peSize, c.target q i = p := by
  refine ⟨(p + (c.peSize - q)) % c.peSize, Nat.mod_lt _ (Nat.zero_lt_of_lt hp), ?_⟩
  have hsum : q + (p + (c.peSize - q)) = p + c.peSize := by omega
  rw [Call.target, Nat.add_mod_mod, hsum, Nat.add_mod_right, Nat.mod_eq_of_lt hp]

theorem sound (init : ℕ × ℕ → ℤ) :
    Sound (program c).system (certificate c) anyStep init where
  acyclic := (program c).acyclic fun _ _ h => h.elim
  ordered := by
    rintro ⟨p, q⟩ w w' hw hw' hs (hs' | hadd)
    · obtain ⟨i, rfl, hi⟩ := stores_iff.mp hs
      obtain ⟨j, rfl, hj⟩ := stores_iff.mp hs'
      exact .inl (by rw [target_injective hw.2 hw'.2 (hi.trans hj.symm)])
    · exact absurd hadd not_addsTo
  matched := fun _ _ _ _ _ _ _ _ _ a h => h.elim
  valued := by
    intro X m e d f _ _ _ _ _ hact
    cases e with
    | put p i =>
      cases hact
      rfl
    | flush | notify | ret => cases hact

theorem live (init : ℕ × ℕ → ℤ) : Live (program c).system (certificate c) anyStep init where
  pre_event _ _ h := h.1
  waits_event _ _ h := h.elim
  guarded _ _ _ _ _ _ _ _ := ⟨trivial, trivial⟩

section

variable (h : (program c).system.Run anyStep init X m)
include h

theorem landed_of_put {i : ℕ} (hi : i < c.peSize) (hX : put q i ∈ X) :
    Landed c X m (c.target q i) q := by
  have hc := run_consistent (sound init) h
  refine ⟨i, hi, rfl, hX, ?_⟩
  apply hc.read (sound init).acyclic hX (stores_iff.mpr ⟨i, rfl, rfl⟩)
  rintro w hw (hs | hadd)
  · obtain ⟨j, rfl, hj⟩ := stores_iff.mp hs
    rw [target_injective (hc.events _ hw).2 hi hj]
    exact Before.refl _
  · exact absurd hadd not_addsTo

theorem landed_of_flush (hp : p < c.peSize) (hX : flush q ∈ X) : Landed c X m p q := by
  have hc := run_consistent (sound init) h
  have hq : q < c.peSize := hc.events _ hX
  obtain ⟨i, hi, rfl⟩ := target_surjective hp hq
  exact landed_of_put h hi ((hc.closed _ hX).1 (put q i) ⟨⟨hq, hi⟩, rfl, hi, trivial⟩)

theorem flush_of_ret (hX : ret p ∈ X) : flush p ∈ X := by
  have hc := run_consistent (sound init) h
  exact (hc.closed _ hX).1 (flush p)
    ⟨hc.events _ hX, rfl, Nat.lt_add_of_pos_right Nat.two_pos, trivial⟩

end

theorem run_alone (c : Call) (init : ℕ × ℕ → ℤ) (p : ℕ) :
    ∃ m, (program c).system.Run anyStep init {e | (program c).event e ∧ e.pe = p} m := by
  apply (live init).run_reaches (sound init)
  · have hfin : ({i | i < c.peSize}.image (put p) ∪ {flush p, notify p, ret p}).Finite :=
      ((Set.finite_lt_nat _).image _).union (Set.toFinite _)
    apply hfin.subset
    rintro e ⟨he, rfl⟩
    cases e with
    | put p i => exact .inl ⟨i, he.2, rfl⟩
    | flush | notify | ret => simp [Event.pe]
  · exact fun e he => he.1
  · rintro e ⟨-, rfl⟩
    exact ⟨fun a ha => ⟨ha.1, ha.2.1⟩, fun a ha => ha.elim⟩

def ReturnsComplete (c : Call) (init : ℕ × ℕ → ℤ) : Prop :=
  ∀ X m, (program c).system.Run anyStep init X m →
    ∀ p < c.peSize, ret p ∈ X → ∀ q < c.peSize, Landed c X m p q

theorem returns_complete_iff (c : Call) (init : ℕ × ℕ → ℤ) :
    ReturnsComplete c init ↔ c.peSize ≤ 1 := by
  constructor
  · intro h
    by_contra hn
    -- the first member returns before the second has put anything
    obtain ⟨m, hrun⟩ := run_alone c init 0
    have hret : ret 0 ∈ {e | (program c).event e ∧ e.pe = 0} := ⟨show 0 < c.peSize by omega, rfl⟩
    obtain ⟨i, -, -, hput, -⟩ := h _ m hrun 0 (by omega) hret 1 (by omega)
    exact absurd hput.2 Nat.one_ne_zero
  · intro hn X m hrun p hp hret q hq
    obtain rfl : p = q := by omega
    exact landed_of_flush hrun hp (flush_of_ret hrun hret)

theorem one_member_returns_complete : ReturnsComplete ⟨.fcollect, 1, fun _ _ => 1⟩ fun _ => 0 :=
  (returns_complete_iff _ _).mpr (by decide)

/-- With two members the first returns from `alltoall` without the block of the second. -/
theorem alltoall_returns_incomplete : ∃ X m,
    (program ⟨.alltoall, 2, fun _ _ => 1⟩).system.Run anyStep (fun _ => 0) X m ∧
      ret 0 ∈ X ∧ put 1 1 ∉ X ∧ ¬ Landed ⟨.alltoall, 2, fun _ _ => 1⟩ X m 0 1 := by
  obtain ⟨m, hrun⟩ := run_alone ⟨.alltoall, 2, fun _ _ => 1⟩ (fun _ => 0) 0
  refine ⟨_, m, hrun, ⟨Nat.two_pos, rfl⟩, fun h => absurd h.2 Nat.one_ne_zero, ?_⟩
  rintro ⟨i, -, -, hput, -⟩
  exact absurd hput.2 Nat.one_ne_zero

end RoExchangeCompletion
