import Mathlib

/-! State machines whose events are guarded. A run is restricted by a condition on the state
before each step; what the steps keep holds in every state of a run. -/
namespace GuardedMachines

variable {σ ε : Type*}

structure Machine (σ ε : Type*) where
  initial : σ
  enabled : σ → ε → Prop
  next : σ → ε → σ

namespace Machine

def anyStep : σ → ε → Prop := fun _ _ => True

instance (s : σ) (e : ε) : Decidable (anyStep s e) := isTrue trivial

inductive Run (M : Machine σ ε) (ok : σ → ε → Prop) : σ → Prop where
  | init : Run M ok M.initial
  | step {s e} : Run M ok s → M.enabled s e → ok s e → Run M ok (M.next s e)

variable {M : Machine σ ε} {ok : σ → ε → Prop} {s t : σ}

theorem Run.induct {I : σ → Prop} (hinit : I M.initial)
    (hstep : ∀ s e, I s → M.enabled s e → ok s e → I (M.next s e)) (h : M.Run ok s) : I s := by
  induction h with
  | init => exact hinit
  | step _ he hok ih => exact hstep _ _ ih he hok

def Reaches (M : Machine σ ε) : σ → σ → Prop :=
  Relation.ReflTransGen fun s t => ∃ e, M.enabled s e ∧ t = M.next s e

theorem Reaches.refl (s : σ) : M.Reaches s s := Relation.ReflTransGen.refl

theorem Reaches.step {e : ε} (he : M.enabled s e) (h : M.Reaches (M.next s e) t) : M.Reaches s t :=
  Relation.ReflTransGen.head ⟨e, he, rfl⟩ h

theorem Reaches.trans {u : σ} (h : M.Reaches s t) (h' : M.Reaches t u) : M.Reaches s u :=
  Relation.ReflTransGen.trans h h'

section OfStep

variable {i : σ} {f : σ → ε → Option σ} {e : ε}

def ofStep (i : σ) (f : σ → ε → Option σ) : Machine σ ε where
  initial := i
  enabled s e := (f s e).isSome
  next s e := (f s e).getD s

instance (s : σ) (e : ε) : Decidable ((ofStep i f).enabled s e) :=
  inferInstanceAs (Decidable ((f s e).isSome = true))

theorem enabled_of_step (h : f s e = some t) : (ofStep i f).enabled s e :=
  Option.isSome_iff_exists.mpr ⟨t, h⟩

theorem next_of_step (h : f s e = some t) : (ofStep i f).next s e = t := by
  change (f s e).getD s = t
  rw [h, Option.getD_some]

theorem step_of_enabled (h : (ofStep i f).enabled s e) : f s e = some ((ofStep i f).next s e) := by
  obtain ⟨t, ht⟩ := Option.isSome_iff_exists.mp h
  rw [next_of_step ht, ht]

theorem Run.ofStep_induct {I : σ → Prop} (hinit : I i)
    (hstep : ∀ s e t, I s → ok s e → f s e = some t → I t) (h : (ofStep i f).Run ok s) : I s :=
  h.induct hinit fun s e hs he hok => hstep s e _ hs hok (step_of_enabled he)

theorem Run.then (hs : (ofStep i f).Run ok s) (hok : ok s e) (h : f s e = some t) :
    (ofStep i f).Run ok t :=
  next_of_step (i := i) h ▸ hs.step (enabled_of_step h) hok

end OfStep

section Replay

variable (M) [∀ s e, Decidable (M.enabled s e)] (ok) [∀ s e, Decidable (ok s e)]

def replay : List ε → σ → Option σ
  | [], s => some s
  | e :: es, s => if M.enabled s e ∧ ok s e then replay es (M.next s e) else none

variable {M ok} in
theorem Run.replay {es : List ε} (hs : M.Run ok s) (h : M.replay ok es s = some t) :
    M.Run ok t := by
  induction es generalizing s with
  | nil =>
    cases h
    exact hs
  | cons e es ih =>
    rw [Machine.replay] at h
    split at h
    next hen => exact ih (hs.step hen.1 hen.2) h
    next => cases h

variable {M ok} in
theorem Run.exists_replay (hs : M.Run ok s) (es : List ε) (P : σ → Bool)
    (h : (M.replay ok es s).any P = true) : ∃ t, M.Run ok t ∧ P t = true := by
  cases hr : M.replay ok es s with
  | none => simp [hr] at h
  | some t => exact ⟨t, hs.replay hr, by simpa [hr] using h⟩

theorem run_of_replay (es : List ε) (P : σ → Prop) [DecidablePred P]
    (h : (M.replay ok es M.initial).any (fun s => decide (P s)) = true) :
      ∃ s, M.Run ok s ∧ P s := by
  obtain ⟨s, hs, hP⟩ := Run.init.exists_replay es _ h
  exact ⟨s, hs, of_decide_eq_true hP⟩

end Replay

end Machine

export Machine (anyStep run_of_replay)

end GuardedMachines
