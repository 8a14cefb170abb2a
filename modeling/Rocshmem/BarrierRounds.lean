import Rocshmem.MatchedPrograms

/-! What a barrier owes its members in every state of a run. Members enter and leave the
rounds; the words of the barrier carry one flag, or one count of arrivals, a round. -/
namespace BarrierRounds

open MatchedPrograms

variable {E C : Type*}

/-- Nobody leaves a round that somebody has not entered. All words are zero when nobody is
inside a round. A round that all have entered goes on until all have left it. -/
structure Rounds (S : System E C ℤ) (ok : Set E → (C → ℤ) → E → Prop) (n : ℕ)
    (enter leave : ℕ → ℕ → E) (X : Set E) (m : C → ℤ) : Prop where
  separated : ∀ i j r, i < n → j < n → leave i r ∈ X → enter j r ∈ X
  idle : (∀ i r, i < n → enter i r ∈ X → leave i r ∈ X) → ∀ c, m c = 0
  live : ∀ i r, i < n → (∀ j < n, enter j r ∈ X) → leave i r ∉ X →
    ∃ e, S.event e ∧ e ∉ X ∧ S.Ready X e ∧ (S.guard e m ∧ ok X m e) ∧ ∀ j r', e ≠ enter j r'

/-- A flag word of value `v`. The wait of a round passes on the flag of that round only. A
flag stays until it is cleared, and is cleared before the next one is sent. -/
structure FlagWord (sent waited cleared : ℕ → E) (X : Set E) (v : ℤ) : Prop where
  matched : ∀ r, waited r ∈ X → sent r ∈ X
  kept : ∀ r, sent r ∈ X → cleared r ∉ X → v = 1
  taken : (∀ r, sent r ∈ X → cleared r ∈ X) → v = 0
  alternate : ∀ r, sent (r + 1) ∈ X → cleared r ∈ X

open Classical in
/-- A counter of value `v` that the members `1 .. n - 1` add to. It holds the number of
arrivals in the round that it was not yet cleared for. -/
structure CounterWord (n : ℕ) (sent : ℕ → ℕ → E) (waited cleared : ℕ → E) (X : Set E)
    (v : ℤ) : Prop where
  matched : ∀ r, waited r ∈ X → ∀ i ∈ Finset.Ico 1 n, sent i r ∈ X
  counts : ∀ r, (∀ r' < r, cleared r' ∈ X) → cleared r ∉ X →
    v = ((Finset.Ico 1 n).filter fun i => sent i r ∈ X).card
  alternate : ∀ i ∈ Finset.Ico 1 n, ∀ r, sent i (r + 1) ∈ X → cleared r ∈ X

end BarrierRounds
