import Mathlib

/-! The streams of a device. A stream is a queue of works, of event records and of waits for
records, and executes them in order. The works of a chain are numbered, and so are the records
of its event: record `n` is to be made after the works up to `n`. A work or a record is covered
by what is queued before it if each unfinished work that it comes after is queued there itself or
is one that a wait queued there waits for. -/
namespace StreamEvents

open Function List

variable {S K : Type*}

inductive Op (K : Type*) where
  | work (k : K) (n : ℕ)
  | wait (k : K) (n : ℕ)
  | record (k : K) (n : ℕ)
  | other
  deriving DecidableEq

structure Device (S K : Type*) where
  queue : S → List (Op K)
  started : K → ℕ → Bool
  finished : K → ℕ → Bool
  recorded : K → ℕ → Bool

def Device.initial : Device S K :=
  ⟨fun _ => [], fun _ _ => false, fun _ _ => false, fun _ _ => false⟩

def Covers (q : List (Op K)) (k : K) (i : ℕ) : Prop :=
  .work k i ∈ q ∨ ∃ n, i ≤ n ∧ .wait k n ∈ q

def CoveredBy (d : Device S K) (q : List (Op K)) (k : K) (n : ℕ) : Prop :=
  ∀ i < n, d.finished k i = false → Covers q k i

def Covered (d : Device S K) (σ : S) (k : K) (n : ℕ) : Prop := CoveredBy d (d.queue σ) k n

def OpOk (d : Device S K) (pre : List (Op K)) : Op K → Prop
  | .work k n => CoveredBy d pre k n
  | .record k n => CoveredBy d pre k (n + 1)
  | .wait _ _ | .other => True

structure Ordered (d : Device S K) : Prop where
  queued : ∀ {σ pre x post}, d.queue σ = pre ++ x :: post → OpOk d pre x
  started : ∀ {k n}, d.started k n = true → ∀ i < n, d.finished k i = true
  recorded : ∀ {k n}, d.recorded k n = true → ∀ i < n + 1, d.finished k i = true

variable {d d' : Device S K} {σ σ' : S} {k k' : K} {n i : ℕ} {x : Op K} {p q : List (Op K)}

section Cover

theorem Covers.mono (h : Covers p k i) (hpq : p ⊆ q) : Covers q k i :=
  h.imp (fun hw => hpq hw) fun ⟨n, hn, hw⟩ => ⟨n, hn, hpq hw⟩

theorem Covers.cons (h : Covers (x :: q) k i) : Covers [x] k i ∨ Covers q k i := by
  grind [Covers]

theorem CoveredBy.finished (h : CoveredBy d [] k n) (hi : i < n) : d.finished k i = true := by
  by_contra hf
  rcases h i hi (Bool.not_eq_true _ ▸ hf) with hw | ⟨_, _, hw⟩ <;> cases hw

theorem CoveredBy.mono (h : CoveredBy d p k n) (hpq : p ⊆ q)
    (hf : ∀ i, d.finished k i = true → d'.finished k i = true) : CoveredBy d' q k n := by
  grind [CoveredBy, Covers.mono]

theorem OpOk.mono (h : OpOk d p x)
    (hf : ∀ k i, d.finished k i = true → d'.finished k i = true) : OpOk d' p x :=
  match x, h with
  | .work _ _, h | .record _ _, h => CoveredBy.mono h (List.Subset.refl p) (hf _)
  | .wait _ _, _ | .other, _ => trivial

theorem covered_of_finished (h : ∀ i < n, d.finished k i = true) : Covered d σ k n := by
  intro i hi hi'
  rw [h i hi] at hi'
  cases hi'

theorem ordered_initial : Ordered (Device.initial : Device S K) where
  queued hq := absurd hq.symm (append_ne_nil_of_right_ne_nil _ (cons_ne_nil _ _))
  started hs := absurd hs Bool.false_ne_true
  recorded hr := absurd hr Bool.false_ne_true

end Cover

variable [DecidableEq S]

def Device.enqueue (d : Device S K) (σ : S) (x : Op K) : Device S K :=
  { d with queue := update d.queue σ (d.queue σ ++ [x]) }

section Enqueue

theorem queue_enqueue (d : Device S K) (σ : S) (x : Op K) :
    (d.enqueue σ x).queue σ = d.queue σ ++ [x] := by
  rw [Device.enqueue]
  exact update_self _ _ _

theorem subset_enqueue (d : Device S K) (σ σ' : S) (x : Op K) :
    d.queue σ' ⊆ (d.enqueue σ x).queue σ' := by
  by_cases hσ : σ' = σ
  · rw [hσ, queue_enqueue]
    exact subset_append_left _ _
  · have hq : (d.enqueue σ x).queue σ' = d.queue σ' := update_of_ne hσ _ _
    rw [hq]
    exact List.Subset.refl _

theorem Ordered.enqueue (h : Ordered d) (hx : OpOk d (d.queue σ) x) : Ordered (d.enqueue σ x) where
  started := h.started
  recorded := h.recorded
  queued {σ' pre y post} hq := by
    by_cases hσ : σ' = σ
    · subst hσ
      rw [queue_enqueue] at hq
      rcases append_eq_append_iff.mp hq with ⟨as, hpre, has⟩ | ⟨bs, hpre, hbs⟩
      · -- the new operation is the only one after the old queue
        rcases as with _ | ⟨a, as⟩
        · rw [nil_append] at has
          obtain ⟨rfl, -⟩ := cons.inj has
          rw [append_nil] at hpre
          exact (hpre ▸ hx : OpOk d pre x).mono fun _ _ => id
        · have hlen := congrArg length has
          simp only [cons_append, length_cons, length_append, length_nil]
            at hlen
          omega
      · rcases bs with _ | ⟨b, bs⟩
        · rw [nil_append] at hbs
          obtain ⟨rfl, -⟩ := cons.inj hbs
          rw [append_nil] at hpre
          exact (hpre ▸ hx : OpOk d pre y).mono fun _ _ => id
        · rw [cons_append] at hbs
          obtain ⟨rfl, -⟩ := cons.inj hbs
          exact (h.queued hpre).mono fun _ _ => id
    · have hq' : d.queue σ' = pre ++ y :: post := by
        rw [← hq]
        exact (update_of_ne hσ _ _).symm
      exact (h.queued hq').mono fun _ _ => id

theorem Covered.enqueue (h : Covered d σ k n) (σ' : S) (x : Op K) :
    Covered (d.enqueue σ' x) σ k n :=
  h.mono (subset_enqueue d σ' σ x) fun _ => id

theorem covered_wait (d : Device S K) (σ : S) (k : K) (n : ℕ) :
    Covered (d.enqueue σ (.wait k n)) σ k (n + 1) := by
  intro i hi _
  rw [queue_enqueue]
  exact Or.inr ⟨n, Nat.le_of_lt_succ hi, mem_append_right _ (mem_singleton_self _)⟩

theorem Covered.work (h : Covered d σ k n) : Covered (d.enqueue σ (.work k n)) σ k (n + 1) := by
  intro i hi hi'
  rcases Nat.lt_succ_iff_lt_or_eq.mp hi with hi | rfl
  · exact h.enqueue σ (.work k n) i hi hi'
  · rw [queue_enqueue]
    exact Or.inl (mem_append_right _ (mem_singleton_self _))

end Enqueue

section Pop

structure Pops (d d' : Device S K) (σ : S) (x : Op K) (q : List (Op K)) : Prop where
  queue : d.queue σ = x :: q
  queue' : d'.queue = update d.queue σ q
  started : d'.started = d.started
  finished : ∀ {k i}, d.finished k i = true → d'.finished k i = true
  recorded : ∀ {k n}, d'.recorded k n = true → d.recorded k n = true ∨ x = .record k n
  passed : ∀ {k i}, Covers [x] k i → d'.finished k i = true

theorem Pops.coveredBy (hp : Pops d d' σ x q) (h : CoveredBy d (x :: p) k n) :
    CoveredBy d' p k n := by
  intro i hi hi'
  have hunfinished : d.finished k i = false :=
    Bool.eq_false_iff.mpr fun hb => Bool.false_ne_true (hi'.symm.trans (hp.finished hb))
  refine (h i hi hunfinished).cons.resolve_left fun hx => ?_
  rw [hp.passed hx] at hi'
  cases hi'

theorem Pops.opOk (hp : Pops d d' σ x q) {y : Op K} (h : OpOk d (x :: p) y) : OpOk d' p y :=
  match y, h with
  | .work _ _, h | .record _ _, h => hp.coveredBy h
  | .wait _ _, _ | .other, _ => trivial

theorem Pops.ordered (hp : Pops d d' σ x q) (h : Ordered d) : Ordered d' where
  started hs i hi := hp.finished (h.started (hp.started ▸ hs) i hi)
  recorded {k n} hr i hi := by
    rcases hp.recorded hr with hr | rfl
    · exact hp.finished (h.recorded hr i hi)
    · have hok : OpOk d [] (.record k n) := h.queued hp.queue
      exact hp.finished (CoveredBy.finished hok hi)
  queued {σ' pre y post} hq := by
    rw [hp.queue'] at hq
    grind [Pops, Ordered, OpOk.mono, Pops.opOk]

end Pop

section Advance

variable [DecidableEq K]

def mark (f : K → ℕ → Bool) (k : K) (n : ℕ) : K → ℕ → Bool :=
  update f k (update (f k) n true)

def Device.advance (d : Device S K) (σ : S) : Option (Device S K) :=
  match d.queue σ with
  | [] => none
  | .work k n :: q =>
    if d.started k n then
      some { d with queue := update d.queue σ q, finished := mark d.finished k n }
    else some { d with started := mark d.started k n }
  | .wait k n :: q =>
    if d.recorded k n then some { d with queue := update d.queue σ q } else none
  | .record k n :: q =>
    some { d with queue := update d.queue σ q, recorded := mark d.recorded k n }
  | .other :: q => some { d with queue := update d.queue σ q }

theorem mark_eq_true {f : K → ℕ → Bool} :
    mark f k n k' i = true ↔ f k' i = true ∨ k' = k ∧ i = n := by
  by_cases hk : k' = k
  · subst hk
    by_cases hi : i = n
    · simp only [mark, update_self, hi, and_self, or_true]
    · simp only [mark, update_self, update_of_ne hi, hi, and_false, or_false]
  · simp only [mark, update_of_ne hk, hk, false_and, or_false]

section

variable (h : Ordered d) (hstep : d.advance σ = some d')
include h hstep

theorem advance_cases :
    (∃ k n q, d.queue σ = .work k n :: q ∧ d' = { d with started := mark d.started k n }) ∨
      ∃ x q, Pops d d' σ x q := by
  rw [Device.advance] at hstep
  split at hstep
  · cases hstep
  · rename_i k n q hq
    split at hstep
    · cases hstep
      refine Or.inr ⟨_, q, hq, rfl, rfl, fun hf => mark_eq_true.mpr (Or.inl hf), Or.inl, ?_⟩
      rintro k' i (hw | ⟨_, _, hw⟩) <;> cases mem_singleton.mp hw
      exact mark_eq_true.mpr (Or.inr ⟨rfl, rfl⟩)
    · cases hstep
      exact Or.inl ⟨k, n, q, hq, rfl⟩
  · rename_i k n q hq
    split at hstep
    case isFalse => cases hstep
    rename_i hrec
    cases hstep
    refine Or.inr ⟨_, q, hq, rfl, rfl, id, Or.inl, ?_⟩
    rintro k' i (hw | ⟨n', hn', hw⟩) <;> cases mem_singleton.mp hw
    exact h.recorded hrec i (Nat.lt_succ_of_le hn')
  · rename_i k n q hq
    cases hstep
    refine Or.inr ⟨_, q, hq, rfl, rfl, id, fun hrec => ?_, ?_⟩
    · exact (mark_eq_true.mp hrec).imp_right fun ⟨hk, hn⟩ => hk ▸ hn ▸ rfl
    · rintro k' i (hw | ⟨_, _, hw⟩) <;> cases mem_singleton.mp hw
  · rename_i q hq
    cases hstep
    refine Or.inr ⟨_, q, hq, rfl, rfl, id, Or.inl, ?_⟩
    rintro k' i (hw | ⟨_, _, hw⟩) <;> cases mem_singleton.mp hw

theorem Ordered.advance : Ordered d' := by
  rcases advance_cases h hstep with ⟨k, n, q, hq, rfl⟩ | ⟨x, q, hp⟩
  · refine ⟨fun hq' => (h.queued hq').mono fun _ _ => id, fun hs i hi => ?_, h.recorded⟩
    rcases mark_eq_true.mp hs with hs | ⟨rfl, rfl⟩
    · exact h.started hs i hi
    · -- the work is first in its stream, so all that it comes after has finished
      have hok : OpOk d [] (.work _ _) := h.queued hq
      exact CoveredBy.finished hok hi
  · exact hp.ordered h

theorem Ordered.finished_advance (hf : d.finished k i = true) : d'.finished k i = true := by
  rcases advance_cases h hstep with ⟨_, _, _, -, rfl⟩ | ⟨_, _, hp⟩
  · exact hf
  · exact hp.finished hf

end

theorem Ordered.mem_advance (h : Ordered d) (hw : .work k i ∈ d.queue σ')
    (hstep : d.advance σ = some d') : d'.finished k i = true ∨ .work k i ∈ d'.queue σ' := by
  rcases advance_cases h hstep with ⟨_, _, _, -, rfl⟩ | ⟨x, q, hp⟩
  · exact Or.inr hw
  · rw [hp.queue']
    by_cases hσ : σ' = σ
    · subst hσ
      rw [hp.queue] at hw
      rw [update_self]
      rcases mem_cons.mp hw with hw | hw
      · exact Or.inl (hp.passed (Or.inl (mem_singleton.mpr hw)))
      · exact Or.inr hw
    · rw [update_of_ne hσ]
      exact Or.inr hw

theorem Ordered.covered_advance (h : Ordered d) (hc : Covered d σ' k n)
    (hstep : d.advance σ = some d') : Covered d' σ' k n := by
  rcases advance_cases h hstep with ⟨_, _, _, -, rfl⟩ | ⟨x, q, hp⟩
  · exact hc
  · rw [Covered, hp.queue']
    by_cases hσ : σ' = σ
    · subst hσ
      rw [update_self]
      rw [Covered, hp.queue] at hc
      exact hp.coveredBy hc
    · rw [update_of_ne hσ]
      exact hc.mono (List.Subset.refl _) fun _ => hp.finished

end Advance

end StreamEvents
