import Mathlib

/-! Element copies between two memories, performed in any order. -/
namespace UnorderedCopies

variable {S D α : Type*} [DecidableEq D]

structure Copy (S D : Type*) where
  src : S
  dst : D
  deriving DecidableEq

def store (source : S → α) (m : D → α) (c : Copy S D) : D → α :=
  Function.update m c.dst (source c.src)

def perform (source : S → α) (m : D → α) (cs : List (Copy S D)) : D → α :=
  cs.foldl (store source) m

def Delivers (α : Type*) (cs : List (Copy S D)) (R : S → D → Prop) : Prop :=
  ∀ (source : S → α) (m : D → α) (order : List (Copy S D)), order.Perm cs →
    (∀ s d, R s d → perform source m order d = source s) ∧
    (∀ d, (∀ s, ¬ R s d) → perform source m order d = m d)

theorem perform_append (source : S → α) (m : D → α) (cs ds : List (Copy S D)) :
    perform source m (cs ++ ds) = perform source (perform source m cs) ds :=
  List.foldl_append

theorem perform_cases (source : S → α) (m : D → α) (cs : List (Copy S D)) (d : D) :
    perform source m cs d = m d ∧ (∀ c ∈ cs, c.dst ≠ d) ∨
    ∃ c ∈ cs, c.dst = d ∧ perform source m cs d = source c.src := by
  induction cs using List.reverseRecOn with
  | nil => exact .inl ⟨rfl, by simp⟩
  | append_singleton cs c ih =>
    rw [perform_append]
    by_cases hd : c.dst = d
    · refine .inr ⟨c, by simp, hd, ?_⟩
      subst hd
      exact Function.update_self ..
    · have hval : perform source (perform source m cs) [c] d = perform source m cs d :=
        Function.update_of_ne (Ne.symm hd) ..
      grind

theorem delivers_iff [Nontrivial α] {cs : List (Copy S D)} {R : S → D → Prop}
    (hR : ∀ s s' d, R s d → R s' d → s = s') : Delivers α cs R ↔ ∀ s d, ⟨s, d⟩ ∈ cs ↔ R s d := by
  classical
  constructor
  · intro h s d
    obtain ⟨x, y, hxy⟩ := exists_pair_ne α
    -- a source memory in which `s` alone holds `x`
    let source : S → α := fun t => if t = s then x else y
    have hs : source s = x := if_pos rfl
    have hother : ∀ t, t ≠ s → source t = y := fun t ht => if_neg ht
    constructor
    · intro hmem
      by_contra hno
      let c : Copy S D := ⟨s, d⟩
      have hlast : perform source (fun _ => y) (cs.erase c ++ [c]) d = x := by
        rw [perform_append]
        exact (Function.update_self ..).trans hs
      have hperm : (cs.erase c ++ [c]).Perm cs :=
        (List.perm_append_singleton _ _).trans (List.perm_cons_erase hmem).symm
      obtain ⟨hin, hout⟩ := h source (fun _ => y) _ hperm
      by_cases hex : ∃ t, R t d
      · grind
      · exact hxy (by rw [← hlast, hout d (fun t ht => hex ⟨t, ht⟩)])
    · intro hr
      have hval := (h source (fun _ => y) cs (List.Perm.refl _)).1 s d hr
      rw [hs] at hval
      rcases perform_cases source (fun _ => y) cs d with ⟨h', _⟩ | ⟨c, hc, hd, h'⟩
      · exact absurd (hval.symm.trans h') hxy
      · have hsrc : c.src = s := by
          by_contra hne
          exact hxy (hval.symm.trans (h'.trans (hother _ hne)))
        rwa [← hsrc, ← hd]
  · intro h source m order hperm
    have hmem : ∀ c : Copy S D, c ∈ order ↔ R c.src c.dst := fun c => hperm.mem_iff.trans (h _ _)
    grind [perform_cases]

end UnorderedCopies
