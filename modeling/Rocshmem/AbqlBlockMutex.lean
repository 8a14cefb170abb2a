import Rocshmem.GuardedMachines

/-! `ABQLBlockMutex`: a block takes a ticket, waits until the turn in the ticket's slot is the
ticket, and on release stores the next ticket into the slot of that one. There may be more
waiting blocks than slots, and tickets are words of 64 bits. -/
namespace AbqlBlockMutex

open Function GuardedMachines List

def memoryChannels : ℕ := 32

/-- The number of blocks of a grid, whose dimensions are below `2 ^ 31`, `2 ^ 16` and `2 ^ 16`. -/
structure Grid where
  blocks : ℕ
  blocks_lt : blocks < 2 ^ 63

/-- A call is named by the number of the `atomicAdd` that gave its ticket; memory has the words.
`acquired` lists the calls whose waits have ended and `released` those that have unlocked. -/
structure State where
  ticket : ℕ
  turns : ℕ → ℕ
  acquired : List ℕ
  released : List ℕ

def State.Holds (s : State) (k : ℕ) : Prop := k ∈ s.acquired ∧ k ∉ s.released

instance (s : State) : DecidablePred s.Holds := fun _ => inferInstanceAs (Decidable (_ ∧ _))

def initial : State := ⟨0, fun _ => 0, [], []⟩

def word (ticket : ℕ) : ℕ := ticket % 2 ^ 64

def index (ticket : ℕ) : ℕ := word ticket % memoryChannels

inductive Event where
  | grabTicket
  | waitTurn (k : ℕ)
  | unlock (k : ℕ)

/-- A block makes one call at a time, so it can call when fewer are open than there are blocks. -/
def step (g : Grid) (s : State) : Event → Option State
  | .grabTicket =>
    if s.ticket - s.released.length < g.blocks then some { s with ticket := s.ticket + 1 } else none
  | .waitTurn k =>
    if k < s.ticket ∧ k ∉ s.acquired then
      some (if s.turns (index k) = word k then { s with acquired := s.acquired ++ [k] } else s)
    else none
  | .unlock k =>
    if s.Holds k then
      some { s with turns := update s.turns (index (k + 1)) (word (k + 1))
                    released := s.released ++ [k] }
    else none

abbrev machine (g : Grid) : Machine State Event := .ofStep initial (step g)

/-- Tickets are served in their order. A slot has the last ticket signalled in it. -/
structure Inv (g : Grid) (s : State) : Prop where
  few : s.ticket ≤ s.released.length + g.blocks
  acquired : s.acquired = range s.acquired.length
  released : s.released = range s.released.length
  next : s.released.length ≤ s.acquired.length ∧ s.acquired.length ≤ s.released.length + 1
  turns : ∀ j, ∃ t ≤ s.released.length, s.turns j = word t ∧
    ∀ i, t < i → i ≤ s.released.length → i % memoryChannels ≠ j

variable {g : Grid} {s t : State} {k : ℕ}

theorem index_eq (k : ℕ) : index k = k % memoryChannels := by
  rw [index, word, memoryChannels]
  omega

theorem mem_log {l : List ℕ} (h : l = range l.length) : k ∈ l ↔ k < l.length := by
  rw [h, mem_range, length_range]

theorem log_append {l : List ℕ} (h : l = range l.length) (hk : k = l.length) :
    l ++ [k] = range (l ++ [k]).length := by
  rw [length_append, length_singleton, range_succ, ← h, hk]

namespace Inv

theorem initial (g : Grid) : Inv g initial :=
  ⟨Nat.zero_le _, rfl, rfl, by decide, fun _ => ⟨0, Nat.le_refl 0, rfl, fun _ hi hle =>
    absurd hle (Nat.not_le_of_lt hi)⟩⟩

theorem holds_iff (h : Inv g s) :
    s.Holds k ↔ k = s.released.length ∧ s.acquired.length = s.released.length + 1 := by
  have := h.next
  rw [State.Holds, mem_log h.acquired, mem_log h.released]
  omega

/-- A ticket that is seen in its slot is the next one to hold the mutex. -/
theorem next_of_turn (h : Inv g s) (hlt : k < s.ticket) (hle : s.released.length ≤ k)
    (hturn : s.turns (index k) = word k) : k = s.released.length := by
  obtain ⟨t, ht, hval, hlast⟩ := h.turns (index k)
  have hfew := h.few
  have hblocks := g.blocks_lt
  -- among the tickets of a round one has the slot
  have hnear : s.released.length < t + memoryChannels := by
    by_contra hfar
    refine hlast (t + 1 + (index k + memoryChannels - (t + 1) % memoryChannels) % memoryChannels)
      ?_ ?_ ?_ <;> rw [index_eq, memoryChannels] at * <;> omega
  rw [hturn, word, word] at hval
  rw [memoryChannels] at hnear
  omega

theorem turn_of_next (h : Inv g s) :
    s.turns (index s.released.length) = word s.released.length := by
  obtain ⟨t, ht, hval, hlast⟩ := h.turns (index s.released.length)
  rcases Nat.eq_or_lt_of_le ht with rfl | hlt
  · exact hval
  · exact absurd (index_eq _).symm (hlast _ hlt (Nat.le_refl _))

theorem acquire (h : Inv g s) (hlt : k < s.ticket) (hk : k ∉ s.acquired)
    (hturn : s.turns (index k) = word k) : Inv g { s with acquired := s.acquired ++ [k] } := by
  rw [mem_log h.acquired, Nat.not_lt] at hk
  obtain ⟨hle, hge⟩ := h.next
  obtain rfl := h.next_of_turn hlt (Nat.le_trans hle hk) hturn
  have heq : s.acquired.length = s.released.length := Nat.le_antisymm hk hle
  exact { h with acquired := log_append h.acquired heq.symm, next := by simp [heq] }

theorem unlock (h : Inv g s) (hk : s.Holds k) :
    Inv g { s with turns := update s.turns (index (k + 1)) (word (k + 1))
                   released := s.released ++ [k] } := by
  obtain ⟨rfl, heq⟩ := h.holds_iff.mp hk
  refine ⟨?_, h.acquired, log_append h.released rfl, by simp [heq], fun j => ?_⟩
  · exact Nat.le_trans h.few (by simp)
  rw [length_append, length_singleton]
  by_cases hj : j = index (s.released.length + 1)
  · exact ⟨_, Nat.le_refl _, hj ▸ update_self .., fun i hi hle => absurd hle (Nat.not_le_of_lt hi)⟩
  · obtain ⟨k, hk, hval, hlast⟩ := h.turns j
    refine ⟨k, Nat.le_succ_of_le hk, (update_of_ne hj _ _).trans hval, fun i hi hle => ?_⟩
    rcases Nat.le_succ_iff.mp hle with hle | rfl
    · exact hlast i hi hle
    · rw [← index_eq]
      exact Ne.symm hj

theorem step (h : Inv g s) {e : Event} (hs : step g s e = some t) : Inv g t := by
  cases e with
  | grabTicket =>
    rw [AbqlBlockMutex.step] at hs
    split at hs <;> cases hs
    exact { h with few := by change s.ticket + 1 ≤ s.released.length + _; omega }
  | waitTurn k =>
    rw [AbqlBlockMutex.step] at hs
    split at hs <;> cases hs
    next hk =>
      split
      next hturn => exact h.acquire hk.1 hk.2 hturn
      · exact h
  | unlock k =>
    rw [AbqlBlockMutex.step] at hs
    split at hs <;> cases hs
    next hk => exact h.unlock hk

end Inv

/-- At most one call holds the mutex and calls get it in the order of their tickets. While calls
are open it is not lost: a call holds it, or the next ticket is seen in its slot. -/
theorem mutex_passed_on (hrun : (machine g).Run anyStep s) :
    (∀ k k', s.Holds k → s.Holds k' → k = k') ∧ s.acquired = range s.acquired.length ∧
    (s.released.length < s.ticket → (∃ k, s.Holds k) ∨
      ∃ t, step g s (.waitTurn s.released.length) = some t ∧ t.Holds s.released.length) := by
  have h : Inv g s := hrun.ofStep_induct (.initial g) fun _ _ _ h _ hs => h.step hs
  refine ⟨fun k k' hk hk' => ?_, h.acquired, fun hopen => ?_⟩
  · exact (h.holds_iff.mp hk).1.trans (h.holds_iff.mp hk').1.symm
  by_cases hnext : s.acquired.length = s.released.length + 1
  · exact .inl ⟨_, h.holds_iff.mpr ⟨rfl, hnext⟩⟩
  · have heq : s.acquired.length = s.released.length := by
      have := h.next
      omega
    have hnot : s.released.length ∉ s.acquired := by
      rw [mem_log h.acquired]
      omega
    have hnew : s.released.length ∉ s.released := by
      rw [mem_log h.released]
      omega
    refine .inr ⟨_, (if_pos ⟨hopen, hnot⟩).trans (congrArg some (if_pos h.turn_of_next)), ?_⟩
    exact ⟨mem_append_right _ (mem_singleton_self _), hnew⟩

theorem second_block_waits : ∃ s, ((machine ⟨2, by decide⟩).Run anyStep s ∧ s.ticket = 2 ∧
    s.Holds 0) ∧ ∀ k, s.Holds k → k = 0 := by
  obtain ⟨s, hrun, hs⟩ := run_of_replay (machine ⟨2, by decide⟩) anyStep
    [.grabTicket, .grabTicket, .waitTurn 1, .waitTurn 0]
    (fun s => s.ticket = 2 ∧ s.Holds 0) (by decide)
  exact ⟨s, ⟨hrun, hs⟩, fun k hk => (mutex_passed_on hrun).1 k 0 hk hs.2⟩

end AbqlBlockMutex
