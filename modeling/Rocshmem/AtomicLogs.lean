import Mathlib

/-! Registers with a log of the operations applied to each. A log explains the value of its
register if every operation saw what the operations before it had left. The operations have
tags, by which a caller finds its own. -/
namespace AtomicLogs

open Function

section Explains

variable {V R : Type*} {apply : R → V → V} {old : R → V} {v w : V} {rs : List R} {r : R}

def Explains (apply : R → V → V) (old : R → V) : V → List R → V → Prop
  | v, [], w => v = w
  | v, r :: rs, w => old r = v ∧ Explains apply old (apply r v) rs w

theorem Explains.snoc (h : Explains apply old v rs w) (hr : old r = w) :
    Explains apply old v (rs ++ [r]) (apply r w) := by
  induction rs generalizing v with
  | nil =>
    obtain rfl : v = w := h
    exact ⟨hr, rfl⟩
  | cons r' rs ih => exact ⟨h.1, ih h.2⟩

end Explains

section Tags

variable {X R T : Type*} [DecidableEq X] [DecidableEq T] {tag : R → T} {log : X → List R}
  {x : X} {r : R} {t : T}

def append (log : X → List R) (x : X) (r : R) : X → List R :=
  Function.update log x (log x ++ [r])

def Untouched (tag : R → T) (log : X → List R) (t : T) : Prop :=
  ∀ y, (log y).filter (fun r => tag r = t) = []

def Applied (tag : R → T) (log : X → List R) (x : X) (r : R) : Prop :=
  ∀ y, (log y).filter (fun r' => tag r' = tag r) = if y = x then [r] else []

theorem isPrefix_append (y : X) : log y <+: append log x r y := by
  by_cases hy : y = x
  · rw [append, hy, update_self]
    exact List.prefix_append _ _
  · have heq : append log x r y = log y := update_of_ne hy _ _
    exact heq ▸ List.prefix_rfl

theorem filter_append_of_ne (h : tag r ≠ t) (y : X) :
    (append log x r y).filter (fun r => tag r = t) = (log y).filter fun r => tag r = t := by
  by_cases hy : y = x
  · have hnil : [r].filter (fun r => tag r = t) = [] :=
      List.filter_cons_of_neg fun hc => h (of_decide_eq_true hc)
    rw [append, hy, update_self, List.filter_append, hnil, List.append_nil]
  · rw [append, update_of_ne hy]

def SameExcept (tag : R → T) (log log' : X → List R) (t : Option T) : Prop :=
  ∀ t', t ≠ some t' → ∀ y,
    (log' y).filter (fun r => tag r = t') = (log y).filter fun r => tag r = t'

theorem SameExcept.refl (log : X → List R) : SameExcept tag log log none := fun _ _ _ => rfl

theorem SameExcept.append (log : X → List R) (x : X) (r : R) :
    SameExcept tag log (append log x r) (some (tag r)) := fun _ hne =>
  filter_append_of_ne fun h => hne (congrArg some h)

variable {log' : X → List R} {u : Option T}

theorem Untouched.of_same (h : Untouched tag log t) (hsame : SameExcept tag log log' u)
    (hne : u ≠ some t) : Untouched tag log' t := fun y => (hsame t hne y).trans (h y)

theorem Applied.of_same (h : Applied tag log x r) (hsame : SameExcept tag log log' u)
    (hne : u ≠ some (tag r)) : Applied tag log' x r := fun y => (hsame _ hne y).trans (h y)

theorem Untouched.applied (h : Untouched tag log (tag r)) :
    Applied tag (AtomicLogs.append log x r) x r := by
  intro y
  by_cases hy : y = x
  · subst hy
    have hself : [r].filter (fun r' => tag r' = tag r) = [r] :=
      List.filter_cons_of_pos (decide_eq_true rfl)
    rw [AtomicLogs.append, update_self, List.filter_append, h y, hself, if_pos rfl]
    rfl
  · rw [AtomicLogs.append, update_of_ne hy, if_neg hy, h y]

end Tags

end AtomicLogs
