import Rocshmem.MachineInts
import Rocshmem.MatchedPrograms

/-! `fcollectmem_linear_wave`: every member puts its block to all members, quiets its QPs and
enters a barrier, which is taken to be correct. A put through a QP lands at any time after it is
posted, and before a quiet of the QP returns. The barrier is run by the calling wave, but the quiets
by the wave with thread zero of the block. -/
namespace GdaWaveFcollect

open List MachineInts MatchedPrograms

structure Call where
  peSize : ℕ
  nelems : ℕ
  waveId : ℕ → ℕ
  isIpcAvailable : ℕ → ℕ → Bool

inductive Event where
  | put (p q : ℕ)
  | land (p q : ℕ)
  | quiet (p q : ℕ)
  | sync (p : ℕ)
  | leave (p : ℕ)
  deriving DecidableEq

open Event

namespace Call

variable (c : Call)

def Occurs : Event → Prop
  | put p q | land p q => p < c.peSize ∧ q < c.peSize
  | quiet p q => p < c.peSize ∧ q < c.peSize ∧ c.waveId p = 0
  | sync p | leave p => p < c.peSize

instance : DecidablePred c.Occurs := by
  intro e
  cases e <;> dsimp only [Occurs] <;> infer_instance

/-- The puts of `p` to the members before `q`; those over IPC are then complete. -/
def putsBefore (p q : ℕ) : List Event :=
  (range q).map (put p) ++ ((range q).filter (c.isIpcAvailable p)).map (land p)

def preds : Event → List Event
  | put p q => c.putsBefore p q
  | land p q => [put p q]
  | quiet p q => c.putsBefore p c.peSize ++ (range q).map (quiet p) ++ [land p q]
  | sync p =>
    c.putsBefore p c.peSize ++ if c.waveId p = 0 then (range c.peSize).map (quiet p) else []
  | leave _ => (range c.peSize).map sync

abbrev sys : System Event Unit ℤ where
  event := c.Occurs
  pre a e := a ∈ c.preds e
  guard _ _ := True
  action _ := .skip

/-- Where in `dst` the block of a member goes. -/
def offset (p : ℕ) : ℤ := toInt (p * c.nelems)

def Quieted (X : Set Event) (_ : Unit → ℤ) : Event → Prop
  | sync p => ∀ q < c.peSize, c.isIpcAvailable p q ∨ quiet p q ∈ X
  | _ => True

def Fits : Prop := ∀ p < c.peSize, p * c.nelems < 2 ^ 31

def Landed (X : Set Event) : Prop :=
  ∀ q, leave q ∈ X → ∀ p < c.peSize, land p q ∈ X ∧ c.offset p = p * c.nelems

variable {c} {init m : Unit → ℤ} {X : Set Event} {p q : ℕ}

theorem quieted_of_sync (h : c.sys.Run c.Quieted init X m) (hs : sync p ∈ X) (hq : q < c.peSize) :
    c.isIpcAvailable p q ∨ quiet p q ∈ X := by
  obtain ⟨Y, _, hY, hok⟩ := h.ok_of_mem _ hs
  exact (hok q hq).imp_right fun hquiet => hY hquiet

theorem land_of_sync (h : c.sys.Run c.Quieted init X m) (hs : sync p ∈ X) (hq : q < c.peSize) :
    land p q ∈ X := by
  rcases quieted_of_sync h hs hq with hipc | hquiet
  · apply h.ready_of_mem _ hs
    change land p q ∈ c.preds (sync p)
    simp [preds, putsBefore, hq, hipc]
  · apply h.ready_of_mem _ hquiet
    change land p q ∈ c.preds (quiet p q)
    simp [preds]

/-- The wave with thread zero of the block quiets the QPs itself. -/
theorem quieted_of_zero (hzero : ∀ p < c.peSize, c.waveId p = 0)
    (h : c.sys.Run anyStep init X m) : c.sys.Run c.Quieted init X m := by
  refine h.mono fun X m e he hr _ => ?_
  cases e with
  | sync p =>
    intro q hq
    apply Or.inr
    apply hr
    change quiet p q ∈ c.preds (sync p)
    simp [preds, hzero p he, hq]
  | _ => trivial

end Call

/-- The wave is the one that calls on PE 1. -/
def threePes (wave : ℕ) : Call where
  peSize := 3
  nelems := 8
  waveId p := if p = 1 then wave else 0
  isIpcAvailable _ _ := false

theorem fits_threePes (wave : ℕ) : (threePes wave).Fits := by
  intro p hp
  change p < 3 at hp
  change p * 8 < 2 ^ 31
  omega

def complete (p : ℕ) : List Event :=
  [put p 0, put p 1, put p 2, land p 0, land p 1, land p 2, quiet p 0, quiet p 1, quiet p 2, sync p]

def firstWaves : List Event := complete 0 ++ complete 1 ++ complete 2 ++ [leave 2]

def unquieted : List Event :=
  complete 0 ++ complete 2 ++ [put 1 0, put 1 1, put 1 2, sync 1, leave 2]

end GdaWaveFcollect
