import Rocshmem.LinkedSystems

/-! Events that copy a cell of the memory out. Guards and stores do not depend on the copies,
so that a run with them and a run without them are the same steps. A copy may race with the
writers of its cell; that does not make the contents of the memory itself uncertain. -/
namespace ObservedReads

open MatchedPrograms LinkedSystems

variable {E C D V : Type*}

def observed (S : System E C V) (reads : E → Option (C × D)) : System E (C ⊕ D) V where
  event := S.event
  pre := S.pre
  guard e m := S.guard e (m ∘ .inl)
  action e := match reads e with
    | none => Effect.via .inl (S.action e)
    | some (c, d) => .store (.inr d) fun m => m (.inl c)

section Action

variable {S : System E C V} {reads : E → Option (C × D)} {e : E}

theorem action_of_none (h : reads e = none) :
    (observed S reads).action e = Effect.via .inl (S.action e) := by
  simp only [observed, h]

theorem action_of_some {c : C} {d : D} (h : reads e = some (c, d)) :
    (observed S reads).action e = .store (.inr d) fun m => m (.inl c) := by
  simp only [observed, h]

end Action

variable [DecidableEq C] [DecidableEq D] [Add V] {S : System E C V} {reads : E → Option (C × D)}
  {init m : C ⊕ D → V} {X : Set E} {e : E} (hskip : ∀ e, (reads e).isSome → S.action e = .skip)

include hskip in
theorem observed_apply (e : E) (m : C ⊕ D → V) :
    ((observed S reads).action e).apply m ∘ .inl = (S.action e).apply (m ∘ .inl) := by
  cases h : reads e with
  | none => rw [action_of_none h, via_apply_comp Sum.inl_injective]
  | some cd =>
    rw [action_of_some h, hskip e (by rw [h]; rfl)]
    ext c
    simp [Effect.apply]

include hskip in
theorem run_core (h : (observed S reads).Run anyStep init X m) :
    S.Run anyStep (init ∘ .inl) X (m ∘ .inl) := by
  induction h with
  | start => exact .start
  | fire _ he hX hr hg _ ih =>
    rw [observed_apply hskip]
    exact ih.fire he hX hr hg trivial

include hskip in
theorem run_observed {m : C → V} (h : S.Run anyStep (init ∘ .inl) X m) :
    ∃ m', (observed S reads).Run anyStep init X m' ∧ m' ∘ .inl = m := by
  induction h with
  | start => exact ⟨init, .start, rfl⟩
  | @fire X m e _ he hX hr hg _ ih =>
    obtain ⟨m', hrun, rfl⟩ := ih
    exact ⟨_, hrun.fire he hX hr hg trivial, observed_apply hskip e m'⟩

theorem observed_apply_copy {c : C} {d : D} (h : reads e = some (c, d)) :
    ((observed S reads).action e).apply m (.inr d) = m (.inl c) := by
  rw [action_of_some h]
  exact Function.update_self ..

theorem observed_apply_other {d : D} (h : ∀ c, reads e ≠ some (c, d)) :
    ((observed S reads).action e).apply m (.inr d) = m (.inr d) := by
  cases hreads : reads e with
  | none =>
    rw [action_of_none hreads]
    exact via_apply_of_ne (fun c => Sum.inr_ne_inl) (S.action e)
  | some cd =>
    have hne : (Sum.inr d : C ⊕ D) ≠ .inr cd.2 := by
      intro heq
      obtain rfl := Sum.inr.inj heq
      exact h cd.1 hreads
    rw [action_of_some hreads]
    exact Function.update_of_ne hne _ _

include hskip in
theorem copied {v : E → V} (hown : ∀ {e e' c c' d}, reads e = some (c, d) →
    reads e' = some (c', d) →
      e = e') (hread : ∀ {X m e c d}, S.Run anyStep (init ∘ .inl) X m → S.event e → e ∉ X →
      S.Ready X e → S.guard e m → reads e = some (c, d) → m c = v e)
    (h : (observed S reads).Run anyStep init X m) :
    ∀ e ∈ X, ∀ c d, reads e = some (c, d) → m (.inr d) = v e := by
  induction h with
  | start => exact fun e he => he.elim
  | @fire X m a hrun ha hX hr hg _ ih =>
    intro e he c d hcd
    by_cases hea : e = a
    · subst hea
      rw [observed_apply_copy hcd]
      exact hread (run_core hskip hrun) ha hX hr hg hcd
    · have hne : ∀ c', reads a ≠ some (c', d) := fun c' h => hea (hown hcd h)
      rw [observed_apply_other hne]
      exact ih e (he.resolve_left hea) c d hcd

end ObservedReads
