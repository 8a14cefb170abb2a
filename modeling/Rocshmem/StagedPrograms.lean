import Rocshmem.GuardedMachines

/-! Programs of several members in stages. A cell is computed by the member that owns it, by
a list of instructions in every stage; the other cells are inputs, which their owner may
change until it enters. Some stages end with a barrier of all members. If no cell is read
while its owner may write it, and inputs are read only after their owner has entered, then
every run computes the same values as the stages one after the other. -/
namespace StagedPrograms

open GuardedMachines List
open Function (update update_of_ne update_self)

variable {P C V : Type*}

/-- The instructions that compute a cell, with one register: combine the value of a cell into
the register, wait until the owner of a cell has come to this stage, combine the register
into the cell. -/
inductive Instr (C V : Type*) where
  | load (f : V → V → V) (d : C)
  | await (d : C)
  | store (f : V → V → V)

def Instr.apply [DecidableEq C] (c : C) (read : C → V) (x : V × V) : Instr C V → V × V
  | .load f d => (f x.1 (if d = c then x.2 else read d), x.2)
  | .await _ => x
  | .store f => (x.1, f x.1 x.2)

variable {read : C → V} {x : V × V} {i : Instr C V}

theorem Instr.apply_congr [DecidableEq C] {c : C} {read' : C → V}
    (h : ∀ f d, i = .load f d → d ≠ c → read d = read' d) :
    i.apply c read x = i.apply c read' x := by
  cases i with
  | load f d =>
    by_cases hd : d = c
    · simp [Instr.apply, hd]
    · simp [Instr.apply, hd, h f d rfl hd]
  | await | store => rfl

def Instr.copy (d : C) : List (Instr C V) := [.load (fun _ x => x) d, .store fun r _ => r]

variable {d : C}

theorem Instr.load_mem_copy {f : V → V → V} {d' : C} (h : .load f d' ∈ Instr.copy (V := V) d) :
    d' = d := by
  simp only [Instr.copy, mem_cons, Instr.load.injEq, reduceCtorEq, not_mem_nil, or_false] at h
  exact h.2

structure Program (P C V : Type*) where
  members : List P
  owner : C → P
  cells : P → List C
  stages : ℕ
  code : ℕ → C → List (Instr C V)
  barrier : ℕ → Bool

/-- A member outside is at 0, one in stage `k` at `k + 1`. `done` counts the instructions of
the stage that a cell has had, `entry` keeps the inputs as their owner entered. -/
structure State (P C V : Type*) where
  stage : P → ℕ
  done : C → ℕ
  reg : C → V
  mem : C → V
  entry : C → V

inductive Event (P C V : Type*) where
  | prepare (c : C) (v : V)
  | enter (p : P)
  | exec (c : C)
  | pass (p : P)

variable {p : P}

namespace Program

variable [DecidableEq P] [DecidableEq C] (Q : Program P C V)

def Computed (c : C) : Prop := c ∈ Q.cells (Q.owner c)

instance (c : C) : Decidable (Q.Computed c) := inferInstanceAs (Decidable (_ ∈ _))

def current (s : State P C V) (c : C) : List (Instr C V) := Q.code (s.stage (Q.owner c) - 1) c

def Finished (s : State P C V) (p : P) : Prop := ∀ c ∈ Q.cells p, s.done c = (Q.current s c).length

instance (s : State P C V) (p : P) : Decidable (Q.Finished s p) :=
  inferInstanceAs (Decidable (∀ c ∈ _, _))

def Unblocked (s : State P C V) (c : C) : Instr C V → Prop
  | .await d => s.stage (Q.owner c) ≤ s.stage (Q.owner d)
  | _ => True

instance (s : State P C V) (c : C) : (i : Instr C V) → Decidable (Q.Unblocked s c i)
  | .await _ => inferInstanceAs (Decidable (_ ≤ _))
  | .load _ _ | .store _ => isTrue trivial

def Enabled (s : State P C V) : Event P C V → Prop
  | .prepare c _ => ¬ Q.Computed c ∧ s.stage (Q.owner c) = 0
  | .enter p => p ∈ Q.members ∧ s.stage p = 0
  | .exec c => Q.Computed c ∧ 0 < s.stage (Q.owner c) ∧
    ∃ i ∈ (Q.current s c)[s.done c]?, Q.Unblocked s c i
  | .pass p => 0 < s.stage p ∧ s.stage p ≤ Q.stages ∧ Q.Finished s p ∧
    (Q.barrier (s.stage p - 1) = true → ∀ q ∈ Q.members,
      s.stage p < s.stage q ∨ (s.stage q = s.stage p ∧ Q.Finished s q))

instance (s : State P C V) : (e : Event P C V) → Decidable (Q.Enabled s e)
  | .prepare _ _ | .enter _ | .exec _ => inferInstanceAs (Decidable (_ ∧ _))
  | .pass _ => inferInstanceAs (Decidable (_ ∧ _))

def next (s : State P C V) : Event P C V → State P C V
  | .prepare c v => { s with mem := update s.mem c v }
  | .enter p =>
    { s with
      stage := update s.stage p 1
      entry := fun c => if Q.owner c = p then s.mem c else s.entry c }
  | .exec c =>
    match (Q.current s c)[s.done c]? with
    | none => s
    | some i =>
      { s with
        done := update s.done c (s.done c + 1)
        reg := update s.reg c (i.apply c s.mem (s.reg c, s.mem c)).1
        mem := update s.mem c (i.apply c s.mem (s.reg c, s.mem c)).2 }
  | .pass p =>
    { s with
      stage := update s.stage p (s.stage p + 1)
      done := fun c => if Q.owner c = p then 0 else s.done c }

def machine (reg mem : C → V) : Machine (State P C V) (Event P C V) where
  initial := ⟨fun _ => 0, fun _ => 0, reg, mem, mem⟩
  enabled := Q.Enabled
  next := Q.next

instance (reg mem : C → V) (s : State P C V) (e : Event P C V) :
    Decidable ((Q.machine reg mem).enabled s e) :=
  inferInstanceAs (Decidable (Q.Enabled s e))

def InputEntered (s : State P C V) : Instr C V → Prop
  | .load _ d => Q.Computed d ∨ 0 < s.stage (Q.owner d)
  | _ => True

instance (s : State P C V) : (i : Instr C V) → Decidable (Q.InputEntered s i)
  | .load _ _ => inferInstanceAs (Decidable (_ ∨ _))
  | .await _ | .store _ => isTrue trivial

def EntersFirst (s : State P C V) : Event P C V → Prop
  | .exec c => ∀ i ∈ (Q.current s c)[s.done c]?, Q.InputEntered s i
  | _ => True

instance (s : State P C V) : (e : Event P C V) → Decidable (Q.EntersFirst s e)
  | .exec _ => inferInstanceAs (Decidable (∀ i ∈ _, _))
  | .prepare _ _ | .enter _ | .pass _ => isTrue trivial

def runCode (read : C → V) (c : C) (code : List (Instr C V)) (x : V × V) : V × V :=
  code.foldl (fun x i => i.apply c read x) x

def value (reg mem E : C → V) : ℕ → C → V × V
  | 0, c => (reg c, if Q.Computed c then mem c else E c)
  | k + 1, c => runCode (fun d => (value reg mem E k d).2) c (Q.code k c) (value reg mem E k c)

/-- Instructions belong to computed cells of members. A cell of the same member is read in a
stage that does not write it. A cell of another member is read after a barrier or a wait for
its owner, and keeps its value up to the next barrier. -/
structure RaceFree : Prop where
  owned : ∀ p, ∀ c ∈ Q.cells p, Q.owner c = p
  coded : ∀ k c, Q.code k c ≠ [] → Q.Computed c ∧ Q.owner c ∈ Q.members ∧ k < Q.stages
  loads : ∀ k c l f d l', Q.code k c = l ++ .load f d :: l' → d ≠ c → Q.Computed d →
    (Q.owner d = Q.owner c ∧ Q.code k d = []) ∨
    (Q.owner d ∈ Q.members ∧ (0 < k ∧ Q.barrier (k - 1) = true ∨ .await d ∈ l) ∧
      ∀ j ≥ k, (∀ i, k ≤ i → i < j → Q.barrier i = false) → Q.code j d = [])

variable {Q} in
omit [DecidableEq P] [DecidableEq C] in
theorem RaceFree.of_barriers (hbarrier : ∀ k, Q.barrier k = true)
    (owned : ∀ p, ∀ c ∈ Q.cells p, Q.owner c = p)
    (coded : ∀ k c, Q.code k c ≠ [] → Q.Computed c ∧ Q.owner c ∈ Q.members ∧ k < Q.stages)
    (loads : ∀ k c f d, .load f d ∈ Q.code k c → Q.Computed d →
      Q.owner d ∈ Q.members ∧ 0 < k ∧ Q.code k d = []) : Q.RaceFree := by
  refine ⟨owned, coded, ?_⟩
  intro k c l f d l' hcode _ hd
  obtain ⟨hmem, hk, hempty⟩ := loads k c f d (by simp [hcode]) hd
  refine .inr ⟨hmem, .inl ⟨hk, hbarrier _⟩, ?_⟩
  intro j hj hopen
  rcases Nat.eq_or_lt_of_le hj with rfl | hlt
  · exact hempty
  · have hclosed := hopen k (Nat.le_refl k) hlt
    rw [hbarrier] at hclosed
    cases hclosed

variable {Q} {s : State P C V} {c : C}

theorem exec_spec (h : Q.Enabled s (.exec c)) : ∃ i, (Q.current s c)[s.done c]? = some i ∧
    (∀ d, i = .await d → s.stage (Q.owner c) ≤ s.stage (Q.owner d)) ∧ Q.next s (.exec c) = { s with
        done := Function.update s.done c (s.done c + 1)
        reg := Function.update s.reg c (i.apply c s.mem (s.reg c, s.mem c)).1
        mem := Function.update s.mem c (i.apply c s.mem (s.reg c, s.mem c)).2 } := by
  obtain ⟨-, -, i, hi, hready⟩ := h
  have hi : (Q.current s c)[s.done c]? = some i := hi
  refine ⟨i, hi, ?_, by simp [next, hi]⟩
  rintro d rfl
  exact hready

theorem not_finished (h : Q.Enabled s (.exec c)) : ¬ Q.Finished s (Q.owner c) := by
  intro hfin
  obtain ⟨i, hi, -⟩ := exec_spec h
  have hlt := (List.getElem?_eq_some_iff.mp hi).1
  have hlen := hfin c h.1
  omega

theorem stage_mono {e : Event P C V} (h : Q.Enabled s e) (q : P) :
    s.stage q ≤ (Q.next s e).stage q := by
  cases e with
  | prepare => exact Nat.le_refl _
  | exec c =>
    obtain ⟨i, -, -, hnext⟩ := exec_spec h
    exact Nat.le_of_eq (by rw [hnext])
  | enter p | pass p =>
    by_cases hq : q = p
    · simp [next, hq, h.2]
    · simp [next, hq]

structure Control (Q : Program P C V) (s : State P C V) : Prop where
  outside : ∀ c, s.stage (Q.owner c) = 0 → s.done c = 0
  entered : ∀ c, 0 < s.stage (Q.owner c) → ¬ Q.Computed c → s.mem c = s.entry c
  separated : ∀ p, ∀ q ∈ Q.members, ∀ k, Q.barrier k = true → k + 1 < s.stage p →
    k + 1 < s.stage q ∨ (s.stage q = k + 1 ∧ Q.Finished s q)
  awaited : ∀ c d, .await d ∈ (Q.current s c).take (s.done c) →
    s.stage (Q.owner c) ≤ s.stage (Q.owner d)

theorem control_initial (reg mem : C → V) : Q.Control (Q.machine reg mem).initial := by
  constructor
  · exact fun c _ => rfl
  · exact fun c h => absurd h (Nat.lt_irrefl 0)
  · exact fun p q _ k _ h => absurd h (Nat.not_lt_zero _)
  · intro c d h
    simp [machine] at h

theorem control_prepare {v : V} (hs : Q.Control s) (h : Q.Enabled s (.prepare c v)) :
    Q.Control (Q.next s (.prepare c v)) := by
  constructor
  · exact hs.outside
  · intro d hd hinput
    have hne : d ≠ c := by
      rintro rfl
      exact absurd h.2 (Nat.pos_iff_ne_zero.mp hd)
    simp only [next, update_of_ne hne]
    exact hs.entered d hd hinput
  · exact hs.separated
  · exact hs.awaited

theorem control_enter (hs : Q.Control s) (h : Q.Enabled s (.enter p)) :
    Q.Control (Q.next s (.enter p)) := by
  have hstage := stage_mono h
  obtain ⟨hmem, hzero⟩ := h
  have hcur : ∀ c, Q.current (Q.next s (.enter p)) c = Q.current s c := by
    intro c
    by_cases hc : Q.owner c = p
    · simp [current, next, hc, hzero]
    · simp [current, next, hc]
  constructor
  · intro c hc
    exact hs.outside c (Nat.eq_zero_of_le_zero (hc ▸ hstage (Q.owner c)))
  · intro c hc hinput
    by_cases hp : Q.owner c = p
    · simp [next, hp]
    · simp only [next, if_neg hp, update_of_ne hp] at hc ⊢
      exact hs.entered c hc hinput
  · intro q q' hq' k hk hlt
    have hne : q ≠ p := by
      rintro rfl
      simp [next] at hlt
    simp only [next, update_of_ne hne] at hlt
    -- a member that is still outside keeps everybody before the first barrier
    have hne' : q' ≠ p := by
      rintro rfl
      rcases hs.separated q q' hq' k hk hlt with h | h
      · omega
      · omega
    rcases hs.separated q q' hq' k hk hlt with h | ⟨h, hfin⟩
    · exact .inl (Nat.lt_of_lt_of_le h (hstage q'))
    · refine .inr ⟨by simpa [next, hne'] using h, fun c hc => ?_⟩
      rw [hcur]
      exact hfin c hc
  · intro c d hd
    rw [hcur] at hd
    by_cases hc : Q.owner c = p
    · have hnone : s.done c = 0 := hs.outside c (by rw [hc, hzero])
      simp [next, hnone] at hd
    · have hle := hs.awaited c d hd
      have heq : (Q.next s (.enter p)).stage (Q.owner c) = s.stage (Q.owner c) := by
        simp [next, hc]
      rw [heq]
      exact Nat.le_trans hle (hstage _)

omit [DecidableEq P] [DecidableEq C] in
theorem take_done_succ (hi : (Q.current s c)[s.done c]? = some i) :
    (Q.current s c).take (s.done c + 1) = (Q.current s c).take (s.done c) ++ [i] := by
  rw [take_add_one, hi, Option.toList_some]

theorem control_exec (hs : Q.Control s) (h : Q.Enabled s (.exec c)) :
    Q.Control (Q.next s (.exec c)) := by
  obtain ⟨i, hi, hawait, hnext⟩ := exec_spec h
  rw [hnext]
  constructor
  · grind [Control, Enabled]
  · grind [Control, Enabled]
  · grind [Finished, current, Control]
  · intro d d' hd
    by_cases hdc : d = c
    · subst hdc
      change .await d' ∈ (Q.current s d).take (update s.done d (s.done d + 1) d) at hd
      rw [update_self, take_done_succ hi, mem_append, mem_singleton] at hd
      rcases hd with hd | hd
      · exact hs.awaited d d' hd
      · exact hawait d' hd.symm
    · simp only [update_of_ne hdc] at hd
      exact hs.awaited d d' hd

theorem control_pass (hQ : Q.RaceFree) (hs : Q.Control s) (h : Q.Enabled s (.pass p)) :
    Q.Control (Q.next s (.pass p)) := by
  have hstage := stage_mono h
  obtain ⟨hpos, -, -, hall⟩ := h
  have hcur : ∀ c, Q.owner c ≠ p → Q.current (Q.next s (.pass p)) c = Q.current s c := by
    intro c hc
    simp [current, next, hc]
  constructor
  · grind [next, Control]
  · intro c hc hinput
    by_cases hp : Q.owner c = p
    · exact hs.entered c (by rwa [hp]) hinput
    · simp only [next, update_of_ne hp] at hc ⊢
      exact hs.entered c hc hinput
  · intro q q' hq' k hk hlt
    have hold : k + 1 < s.stage q' ∨ (s.stage q' = k + 1 ∧ Q.Finished s q') := by
      by_cases hq : q = p
      · subst hq
        simp only [next, update_self] at hlt
        grind [Control]
      · simp only [next, update_of_ne hq] at hlt
        exact hs.separated q q' hq' k hk hlt
    by_cases hp : q' = p
    · subst hp
      simp only [next, update_self]
      omega
    · rcases hold with hpast | ⟨hat, hfin⟩
      · exact .inl (Nat.lt_of_lt_of_le hpast (hstage q'))
      · refine .inr ⟨by simpa [next, hp] using hat, fun c hc => ?_⟩
        have hown : Q.owner c ≠ p := by rwa [hQ.owned q' c hc]
        rw [hcur c hown]
        simp only [next, if_neg hown]
        exact hfin c hc
  · intro c d hd
    by_cases hc : Q.owner c = p
    · simp [next, hc] at hd
    · rw [hcur c hc] at hd
      simp only [next, if_neg hc] at hd
      have heq : (Q.next s (.pass p)).stage (Q.owner c) = s.stage (Q.owner c) := by
        simp [next, hc]
      rw [heq]
      exact Nat.le_trans (hs.awaited c d hd) (hstage _)

theorem run_control (hQ : Q.RaceFree) {ok : State P C V → Event P C V → Prop} {reg mem : C → V}
    (h : (Q.machine reg mem).Run ok s) : Q.Control s := by
  apply h.induct (control_initial reg mem)
  intro s e hs he _
  cases e with
  | prepare c v => exact control_prepare hs he
  | enter p => exact control_enter hs he
  | exec c => exact control_exec hs he
  | pass p => exact control_pass hQ hs he

section Values

variable {reg mem E : C → V}

def Agrees (Q : Program P C V) (E : C → V) (s : State P C V) : Prop :=
  ∀ c, ¬ Q.Computed c → 0 < s.stage (Q.owner c) → s.mem c = E c

def Follows (Q : Program P C V) (reg mem E : C → V) (s : State P C V) : Prop :=
  ∀ c, Q.Computed c → (s.reg c, s.mem c) =
    runCode (fun d => (Q.value reg mem E (s.stage (Q.owner c) - 1) d).2) c
      ((Q.current s c).take (s.done c)) (Q.value reg mem E (s.stage (Q.owner c) - 1) c)

omit [DecidableEq P] in
theorem runCode_nil : runCode read c [] x = x := rfl

omit [DecidableEq P] in
theorem runCode_copy (hd : d ≠ c) :
    (runCode read c (Instr.copy d) x).2 = read d := by
  simp [runCode, Instr.copy, Instr.apply, hd]

omit [DecidableEq P] in
theorem runCode_append {l : List (Instr C V)} :
    runCode read c (l ++ [i]) x = i.apply c read (runCode read c l x) := by
  rw [runCode, foldl_append]
  rfl

omit [DecidableEq P] in
theorem value_idle {k k' : ℕ} (hk : k ≤ k') (h : ∀ j, k ≤ j → j < k' → Q.code j c = []) :
    Q.value reg mem E k' c = Q.value reg mem E k c := by
  induction hk with
  | refl => rfl
  | step hle ih =>
    rw [value, h _ hle (Nat.lt_succ_self _)]
    exact ih fun j hj hlt => h j hj (Nat.lt_succ_of_lt hlt)

omit [DecidableEq P] in
theorem value_input (hQ : Q.RaceFree) (hc : ¬ Q.Computed c) (k : ℕ) :
    (Q.value reg mem E k c).2 = E c := by
  have hidle : ∀ j, Q.code j c = [] := by
    intro j
    by_contra hne
    exact hc (hQ.coded j c hne).1
  rw [value_idle (Nat.zero_le k) fun j _ _ => hidle j]
  simp [value, hc]

theorem read_value (hQ : Q.RaceFree) (hs : Q.Control s) (hv : Q.Follows reg mem E s)
    (he : Q.Enabled s (.exec c)) {f : V → V → V}
    (hi : (Q.current s c)[s.done c]? = some (.load f d)) (hne : d ≠ c) (hd : Q.Computed d) :
    s.mem d = (Q.value reg mem E (s.stage (Q.owner c) - 1) d).2 := by
  obtain ⟨k, hk⟩ := Nat.exists_eq_succ_of_ne_zero (Nat.ne_of_gt he.2.1)
  rw [Nat.succ_eq_add_one] at hk
  have hcode : Q.current s c = Q.code k c := by rw [current, hk, Nat.add_sub_cancel]
  obtain ⟨hlt, hget⟩ := List.getElem?_eq_some_iff.mp hi
  have hsplit : Q.code k c = (Q.current s c).take (s.done c) ++
      .load f d :: (Q.current s c).drop (s.done c + 1) := by
    rw [← hcode, ← hget, ← drop_eq_getElem_cons hlt, take_append_drop]
  have hpos : Q.code k c ≠ [] := by
    rw [hsplit]
    simp
  have hp : Q.owner c ∈ Q.members := (hQ.coded k c hpos).2.1
  have hvd : s.mem d = _ := congrArg Prod.snd (hv d hd)
  rw [hk, Nat.add_sub_cancel]
  rcases hQ.loads k c _ f d _ hsplit hne hd with ⟨hown, hempty⟩ | ⟨hq, hsync, hkeep⟩
  · rw [hvd, current, hown, hk, Nat.add_sub_cancel, hempty, take_nil]
    rfl
  rcases Nat.lt_or_ge k (s.stage (Q.owner d)) with hreach | hbehind
  · -- the owner is in this stage or a later one, with no barrier in between
    obtain ⟨j, hj⟩ : ∃ j, s.stage (Q.owner d) = j + 1 := ⟨s.stage (Q.owner d) - 1, by omega⟩
    have hopen : ∀ i, k ≤ i → i < j → Q.barrier i = false := by
      grind [Control, not_finished]
    have hempty : ∀ i, k ≤ i → i ≤ j → Q.code i d = [] := by
      intro i hki hij
      exact hkeep i hki fun i' h1 h2 => hopen i' h1 (by omega)
    rw [← value_idle (by omega : k ≤ j) fun i hki hij => hempty i hki (by omega), hvd, current, hj,
      Nat.add_sub_cancel, hempty j (by omega) (Nat.le_refl j), take_nil]
    rfl
  · -- the owner waits at the barrier before this stage
    rcases hsync with ⟨hkpos, hb⟩ | hawait
    · rcases hs.separated (Q.owner c) (Q.owner d) hq (k - 1) hb (by omega) with h | ⟨hat, hfin⟩
      · omega
      · have hdone := hfin d hd
        have hstage : s.stage (Q.owner d) - 1 + 1 = k := by omega
        rw [hvd, hdone, take_length, ← hstage, value]
        rfl
    · have hle := hs.awaited c d hawait
      omega

theorem agrees_before {e : Event P C V} (he : Q.Enabled s e) (h : Q.Agrees E (Q.next s e)) :
    Q.Agrees E s := by
  intro c hc hpos
  cases e with
  | prepare d v =>
    have hne : c ≠ d := by
      rintro rfl
      exact absurd he.2 (Nat.ne_of_gt hpos)
    exact (update_of_ne hne _ _).symm.trans (h c hc hpos)
  | enter p =>
    have hne : Q.owner c ≠ p := by
      rintro rfl
      exact absurd he.2 (Nat.ne_of_gt hpos)
    exact h c hc (by simpa [next, hne] using hpos)
  | exec d =>
    have hne : c ≠ d := by
      rintro rfl
      exact hc he.1
    obtain ⟨i, -, -, hnext⟩ := exec_spec he
    rw [hnext] at h
    exact (update_of_ne hne _ _).symm.trans (h c hc hpos)
  | pass p =>
    have hmono : 0 < (Q.next s (.pass p)).stage (Q.owner c) := by
      by_cases hp : Q.owner c = p
      · simp [next, hp]
      · simpa [next, hp] using hpos
    exact h c hc hmono

theorem follows_initial : Q.Follows reg mem E (Q.machine reg mem).initial := by
  intro c hc
  simp [machine, runCode, value, hc]

theorem follows_exec (hQ : Q.RaceFree) (hs : Q.Control s) (hE : Q.Agrees E s)
    (hv : Q.Follows reg mem E s) (he : Q.Enabled s (.exec c)) (hok : Q.EntersFirst s (.exec c)) :
    Q.Follows reg mem E (Q.next s (.exec c)) := by
  obtain ⟨i, hi, -, hnext⟩ := exec_spec he
  -- the instruction reads what it would read at the start of the stage
  have hread : ∀ f d, i = .load f d → d ≠ c →
      s.mem d = (Q.value reg mem E (s.stage (Q.owner c) - 1) d).2 := by
    rintro f d rfl hne
    by_cases hd : Q.Computed d
    · exact read_value hQ hs hv he hi hne hd
    · rw [value_input hQ hd]
      exact hE d hd ((hok _ hi).resolve_left hd)
  rw [hnext]
  intro d hd
  by_cases hdc : d = c
  · subst hdc
    change (update s.reg d _ d, update s.mem d _ d) =
      runCode _ d ((Q.current s d).take (update s.done d (s.done d + 1) d)) _
    rw [update_self, update_self, update_self, take_done_succ hi, runCode_append]
    change i.apply d s.mem (s.reg d, s.mem d) = _
    rw [hv d hd, Instr.apply_congr hread]
  · grind [current, Follows]

theorem follows_enter (hv : Q.Follows reg mem E s)
    (he : Q.Enabled s (.enter p)) : Q.Follows reg mem E (Q.next s (.enter p)) := by
  intro c hc
  have hstage : (Q.next s (.enter p)).stage (Q.owner c) - 1 = s.stage (Q.owner c) - 1 := by
    by_cases hp : Q.owner c = p
    · simp [next, hp, he.2]
    · simp [next, hp]
  rw [current, hstage]
  exact hv c hc

theorem follows_pass (hv : Q.Follows reg mem E s) (he : Q.Enabled s (.pass p)) :
    Q.Follows reg mem E (Q.next s (.pass p)) := by
  intro c hc
  by_cases hp : Q.owner c = p
  · -- the stage is complete and its values are those of the next one
    have hdone : s.done c = (Q.current s c).length := he.2.2.1 c (hp ▸ hc)
    have hstage : s.stage p - 1 + 1 = s.stage p := Nat.succ_pred_eq_of_pos he.1
    have hold := hv c hc
    rw [hdone, take_length, hp, current, hp] at hold
    have hnew : (Q.next s (.pass p)).stage (Q.owner c) - 1 = s.stage p - 1 + 1 := by
      simp [next, hp, hstage]
    have hzero : (Q.next s (.pass p)).done c = 0 := by simp [next, hp]
    rw [hnew, hzero, take_zero, value]
    exact hold
  · have hstage : (Q.next s (.pass p)).stage (Q.owner c) = s.stage (Q.owner c) := by
      simp [next, hp]
    have hdone : (Q.next s (.pass p)).done c = s.done c := by simp [next, hp]
    rw [current, hstage, hdone]
    exact hv c hc

theorem run_follows (hQ : Q.RaceFree) (h : (Q.machine reg mem).Run Q.EntersFirst s)
    (hE : Q.Agrees E s) : Q.Follows reg mem E s := by
  induction h with
  | init => exact follows_initial
  | @step s e hrun he hok ih =>
    have hE' := agrees_before he hE
    have hs := run_control hQ hrun
    cases e with
    | prepare c v =>
      intro d hd
      have hne : d ≠ c := by
        rintro rfl
        exact he.1 hd
      have hmem : (Q.next s (.prepare c v)).mem d = s.mem d := update_of_ne hne _ _
      change (s.reg d, (Q.next s (.prepare c v)).mem d) = _
      rw [hmem]
      exact ih hE' d hd
    | enter p => exact follows_enter (ih hE') he
    | exec c => exact follows_exec hQ hs hE' (ih hE') he hok
    | pass p => exact follows_pass (ih hE') he

theorem returned_value (hQ : Q.RaceFree) (h : (Q.machine reg mem).Run Q.EntersFirst s)
    (hc : Q.Computed c) (hret : s.stage (Q.owner c) = Q.stages + 1) :
    s.mem c = (Q.value reg mem s.entry Q.stages c).2 := by
  have hagrees : Q.Agrees s.entry s := fun d hd hpos => (run_control hQ h).entered d hpos hd
  have hempty : Q.code Q.stages c = [] := by
    by_contra hne
    exact Nat.lt_irrefl _ (hQ.coded _ c hne).2.2
  have hfollows : s.mem c = _ := congrArg Prod.snd (run_follows hQ h hagrees c hc)
  rw [hfollows, current, hret, Nat.add_sub_cancel, hempty, take_nil]
  rfl

end Values

end Program

end StagedPrograms
