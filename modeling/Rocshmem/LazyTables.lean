import Mathlib

/-! A table of answers that the first query builds and all later ones read. Which table is built
may depend on that query, and a query may fail to build one; the queries outside the domain get a
fixed answer and build nothing. -/
namespace LazyTables

variable {G A : Type*} (build : G → Option (G → A)) (dom : G → Prop) [DecidablePred dom] (d : A)

def query (cache : Option (G → A)) (g : G) : Option (A × Option (G → A)) :=
  if dom g then
    match cache with
    | some t => some (t g, cache)
    | none => (build g).map fun t => (t g, some t)
  else some (d, cache)

def answer : Option (G → A) → List G → G → Option A
  | cache, [], g => (query build dom d cache g).map Prod.fst
  | cache, q :: qs, g => (query build dom d cache q).bind fun r => answer r.2 qs g

variable {build dom d} {g q : G}

theorem query_of_not_dom (cache : Option (G → A)) (hg : ¬dom g) :
    query build dom d cache g = some (d, cache) := if_neg hg

theorem query_some (t : G → A) (hg : dom g) :
    query build dom d (some t) g = some (t g, some t) := if_pos hg

theorem query_none (hg : dom g) :
    query build dom d none g = (build g).map fun t => (t g, some t) := if_pos hg

theorem answer_of_table (t : G → A) (qs : List G) (hg : dom g) :
    answer build dom d (some t) qs g = some (t g) := by
  induction qs with
  | nil => rw [answer, query_some t hg, Option.map_some]
  | cons q qs ih =>
    rw [answer]
    by_cases hq : dom q
    · rw [query_some t hq]
      exact ih
    · rw [query_of_not_dom _ hq]
      exact ih

theorem answer_first (qs : List G) (hq : dom q) (hg : dom g) :
    answer build dom d none (q :: qs) g = (build q).map fun t => t g := by
  rw [answer, query_none hq]
  cases build q with
  | none => rfl
  | some t => exact answer_of_table t qs hg

theorem exists_build (qs : List G) (hg : dom g) :
    ∃ f, dom f ∧ answer build dom d none qs g = (build f).map fun t => t g := by
  induction qs with
  | nil =>
    refine ⟨g, hg, ?_⟩
    rw [answer, query_none hg, Option.map_map]
    rfl
  | cons q qs ih =>
    by_cases hq : dom q
    · exact ⟨q, hq, answer_first qs hq hg⟩
    · rw [answer, query_of_not_dom _ hq]
      exact ih

theorem answer_independent_iff :
    (∀ qs qs' g, dom g → answer build dom d none qs g = answer build dom d none qs' g) ↔
      ∀ f f' g, dom f → dom f' → dom g →
        ((build f).map fun t => t g) = (build f').map fun t => t g := by
  constructor
  · intro h f f' g hf hf' hg
    rw [← answer_first (d := d) [] hf hg, ← answer_first (d := d) [] hf' hg]
    exact h [f] [f'] g hg
  · intro h qs qs' g hg
    obtain ⟨f, hf, heq⟩ := exists_build (d := d) qs hg
    obtain ⟨f', hf', heq'⟩ := exists_build (d := d) qs' hg
    rw [heq, heq']
    exact h f f' g hf hf' hg

end LazyTables
