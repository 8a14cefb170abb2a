import Rocshmem.GuardedMachines

/-! Flag words that several phases of a program use one after the other. In a phase a member
raises flags in the words of others and waits for flags in its own; at the end of the phase it
clears its words and goes on, with no barrier. If a flag is raised only on members that have
come to the phase, all flags that a member holds are of its own phase. -/
namespace PhasedFlags

open Function GuardedMachines

inductive Stmt where
  | raise (target word : ℕ) (value : ℤ)
  | wait (word : ℕ) (value : ℤ)
  deriving DecidableEq

/-- `code p q` is what `p` does in phase `q`, at whose end it clears `clears q` words. -/
structure Program where
  phases : ℕ
  code : ℕ → ℕ → List Stmt
  clears : ℕ → ℕ

/-- `word p w` is the value of the word and the phase in which it was written. -/
structure State where
  phase : ℕ → ℕ
  idx : ℕ → ℕ
  word : ℕ → ℕ → ℤ × ℕ

namespace Program

variable (Q : Program)

def stmt (s : State) (p : ℕ) : Option Stmt := (Q.code p (s.phase p))[s.idx p]?

def step (s : State) (p : ℕ) : Option State :=
  if s.phase p < Q.phases then
    match Q.stmt s p with
    | some (.raise t w v) => some
      { s with
        idx := update s.idx p (s.idx p + 1)
        word := update s.word t (update (s.word t) w (v, s.phase p)) }
    | some (.wait w v) =>
      if (s.word p w).1 = v then some { s with idx := update s.idx p (s.idx p + 1) }
      else none
    | none => some
      { phase := update s.phase p (s.phase p + 1)
        idx := update s.idx p 0
        word := update s.word p fun w =>
          if w < Q.clears (s.phase p) then (0, s.phase p) else s.word p w }
  else none

def machine : Machine State ℕ := .ofStep ⟨fun _ => 0, fun _ => 0, fun _ _ => (0, 0)⟩ Q.step

instance (s : State) (p : ℕ) : Decidable (Q.machine.enabled s p) :=
  inferInstanceAs (Decidable ((Q.step s p).isSome = true))

/-- A flag is raised only on a member that has come to the phase. -/
def TargetReady (s : State) (p : ℕ) : Prop :=
  ∀ i ∈ Q.stmt s p, match i with
    | .raise t _ _ => s.phase p ≤ s.phase t
    | .wait _ _ => True

instance (s : State) (p : ℕ) : Decidable (Q.TargetReady s p) :=
  match h : Q.stmt s p with
  | some (.raise t w v) => decidable_of_iff (s.phase p ≤ s.phase t) (by simp [TargetReady, h])
  | some (.wait w v) => isTrue (by simp [TargetReady, h])
  | none => isTrue (by simp [TargetReady, h])

/-- Every flag is awaited in its phase, has one sender and a value, and is cleared at the end. -/
structure Matched : Prop where
  awaited : ∀ {p q t w : ℕ} {v : ℤ}, Stmt.raise t w v ∈ Q.code p q →
    v ≠ 0 ∧ w < Q.clears q ∧ Stmt.wait w v ∈ Q.code t q
  single : ∀ {p p' q k k' t w : ℕ} {v : ℤ}, (Q.code p q)[k]? = some (Stmt.raise t w v) →
    (Q.code p' q)[k']? = some (Stmt.raise t w v) → p = p' ∧ k = k'

/-- Statement `k` of phase `q` lies behind `p`. -/
def Past (s : State) (p q k : ℕ) : Prop := q < s.phase p ∨ q = s.phase p ∧ k < s.idx p

/-- The flag has been raised in phase `q`. -/
def Raised (s : State) (q t w : ℕ) (v : ℤ) : Prop :=
  ∃ p k, (Q.code p q)[k]? = some (.raise t w v) ∧ Past s p q k

structure Inv (s : State) : Prop where
  fresh : ∀ t w, (s.word t w).1 ≠ 0 → (s.word t w).2 = s.phase t
  raised : ∀ t w, (s.word t w).1 ≠ 0 → Q.Raised s (s.phase t) t w (s.word t w).1
  waited : ∀ t k w v, (Q.code t (s.phase t))[k]? = some (.wait w v) → k < s.idx t → v ≠ 0 →
    Q.Raised s (s.phase t) t w v
  past : ∀ t q p k w v, q < s.phase t → (Q.code p q)[k]? = some (.raise t w v) → Past s p q k

variable {Q} {s s' : State} {p t w k : ℕ} {v : ℤ}

theorem step_cases (h : Q.step s p = some s') : (∃ t w v, Q.stmt s p = some (.raise t w v) ∧ s' =
      { s with
        idx := update s.idx p (s.idx p + 1)
        word := update s.word t (update (s.word t) w (v, s.phase p)) }) ∨
    (∃ w v, Q.stmt s p = some (.wait w v) ∧ (s.word p w).1 = v ∧
      s' = { s with idx := update s.idx p (s.idx p + 1) }) ∨
    Q.stmt s p = none ∧ s' =
      { phase := update s.phase p (s.phase p + 1)
        idx := update s.idx p 0
        word := update s.word p fun w =>
          if w < Q.clears (s.phase p) then (0, s.phase p) else s.word p w } := by
  grind [step]

theorem past_step (h : Q.step s p = some s') {a q : ℕ} (hp : Past s a q k) : Past s' a q k := by
  rcases step_cases h with ⟨t, w, v, -, rfl⟩ | ⟨w, v, -, -, rfl⟩ | ⟨-, rfl⟩ <;>
    grind [Past]

theorem raised_step (h : Q.step s p = some s') {q : ℕ} (hr : Q.Raised s q t w v) :
    Q.Raised s' q t w v := by
  obtain ⟨a, k, hcode, hp⟩ := hr
  exact ⟨a, k, hcode, past_step h hp⟩

theorem inv_initial : Q.Inv Q.machine.initial where
  fresh _ _ h := absurd rfl h
  raised _ _ h := absurd rfl h
  waited _ _ _ _ _ h := absurd h (Nat.not_lt_zero _)
  past _ _ _ _ _ _ h := absurd h (Nat.not_lt_zero _)

theorem all_raised (hQ : Q.Matched) (hs : Q.Inv s) (hend : Q.stmt s t = none) {a : ℕ}
    (h : (Q.code a (s.phase t))[k]? = some (.raise t w v)) : Past s a (s.phase t) k := by
  obtain ⟨hv, -, hwait⟩ := hQ.awaited (List.mem_of_getElem? h)
  obtain ⟨j, hj⟩ := List.getElem?_of_mem hwait
  have hlt : j < s.idx t :=
    Nat.lt_of_lt_of_le (List.getElem?_eq_some_iff.mp hj).1 (List.getElem?_eq_none_iff.mp hend)
  obtain ⟨a', k', hcode, hpast⟩ := hs.waited t j w v hj hlt hv
  obtain ⟨rfl, rfl⟩ := hQ.single h hcode
  exact hpast

theorem inv_step (hQ : Q.Matched) (hs : Q.Inv s) (hok : Q.TargetReady s p)
    (h : Q.step s p = some s') : Q.Inv s' := by
  have hpast {a q k : ℕ} := past_step h (a := a) (q := q) (k := k)
  have hraised {q t w : ℕ} {v : ℤ} := raised_step h (q := q) (t := t) (w := w) (v := v)
  rcases step_cases h with ⟨t, w, v, hstmt, hs'⟩ | ⟨w, v, hstmt, hword, rfl⟩ | ⟨hstmt, rfl⟩
  · -- the phase of the flag is that of its target, whose earlier flags are all there
    have hle : s.phase p ≤ s.phase t := hok _ hstmt
    have heq : s.phase p = s.phase t := by
      by_contra hne
      have hp := hs.past t _ p _ w v (Nat.lt_of_le_of_ne hle hne) hstmt
      rcases hp with hp | hp <;> omega
    have hnew : Q.Raised s' (s.phase t) t w v :=
      ⟨p, s.idx p, heq ▸ hstmt, .inr ⟨by simp [hs', heq], by simp [hs']⟩⟩
    subst hs'
    refine ⟨fun t' w' hne => ?_, fun t' w' hne => ?_, fun t' j w' v' hj hlt hv => ?_,
      fun t' q a j w' v' hq hj => hpast (hs.past t' q a j w' v' hq hj)⟩
    · have := hs.fresh t' w'
      simp only [update_apply] at hne ⊢
      grind [update_apply]
    · have := hs.raised t' w'
      by_cases ht : t' = t ∧ w' = w
      · obtain ⟨rfl, rfl⟩ := ht
        simpa using hnew
      · refine hraised ?_
        simp only [update_apply] at hne ⊢
        grind [update_apply]
    · by_cases hold : j < s.idx t'
      · exact hraised (hs.waited t' j w' v' hj hold hv)
      · have := hj.symm.trans (show _ = some (Stmt.raise t w v) by grind [stmt])
        cases this
  · refine ⟨hs.fresh, fun t' w' hne => hraised (hs.raised t' w' hne),
      fun t' j w' v' hj hlt hv => ?_,
      fun t' q a j w' v' hq hj => hpast (hs.past t' q a j w' v' hq hj)⟩
    by_cases hold : j < s.idx t'
    · exact hraised (hs.waited t' j w' v' hj hold hv)
    · have heq : some (Stmt.wait w' v') = some (Stmt.wait w v) := by grind [stmt]
      cases heq
      refine hraised ?_
      grind [Inv]
  · have hclear : ∀ w, (s.word p w).1 ≠ 0 → w < Q.clears (s.phase p) := fun w hne => by
      obtain ⟨a, j, hj, -⟩ := hs.raised p w hne
      exact (hQ.awaited (List.mem_of_getElem? hj)).2.1
    refine ⟨fun t' w' hne => ?_, fun t' w' hne => ?_, fun t' j w' v' hj hlt hv => ?_,
      fun t' q a j w' v' hq hj => hpast ?_⟩
    · have := hs.fresh t' w'
      by_cases ht : t' = p
      · subst ht
        have := hclear w'
        simp only [update_self] at hne
        grind
      · simpa [update_of_ne ht] using this (by simpa [update_of_ne ht] using hne)
    · have := hs.raised t' w'
      have hne' : t' ≠ p := by
        rintro rfl
        have := hclear w'
        simp only [update_self] at hne
        grind
      simp only [update_of_ne hne'] at hne ⊢
      exact hraised (this hne)
    · have hne' : t' ≠ p := by
        rintro rfl
        simp at hlt
      simp only [update_of_ne hne'] at hj hlt ⊢
      exact hraised (hs.waited t' j w' v' hj hlt hv)
    · by_cases hlt : q < s.phase t'
      · exact hs.past t' q a j w' v' hlt hj
      · obtain rfl : t' = p := by grind
        obtain rfl : q = s.phase t' := by grind
        exact all_raised hQ hs hstmt hj

theorem run_inv {ok : State → ℕ → Prop} (hQ : Q.Matched)
    (hok : ∀ s p s', ok s p → Q.step s p = some s' → Q.TargetReady s p)
    (h : Q.machine.Run ok s) : Q.Inv s :=
  Machine.Run.ofStep_induct inv_initial
    (fun _ _ _ hs ho hstep => inv_step hQ hs (hok _ _ _ ho hstep) hstep) h

end Program

end PhasedFlags
