import Rocshmem.GuardedMachines
import Rocshmem.WrappingRings

/-! One shca queue pair. Groups of lanes post WQEs and ring the doorbell in the order of their
counters, waves claim completions in `shca_quiet`, single lanes consume them one by one in
`shca_quiet_single`, and the NIC completes the WQEs it was told of in order, with a CQE for
each. The 64-bit counters are exact numbers; a group, a wave and a single lane step between any
two of their accesses to the counters, the tables and the CQ. -/
namespace GdaShcaQueuePair

open Function GuardedMachines List

structure Sizes where
  sq : ℕ
  cq : ℕ
  sq_le : sq ≤ 65536
  cq_le : cq ≤ 65536

namespace Sizes

variable (z : Sizes)

def sqWqeCnt : ℕ := z.sq % 2 ^ 16

def cqLogCnt : ℕ := Nat.log2 z.cq

def capacity : ℕ := min z.sqWqeCnt z.cq

theorem capacity_lt : z.capacity < 2 ^ 16 :=
  Nat.lt_of_le_of_lt (Nat.min_le_left _ _) (Nat.mod_lt _ (by decide))

theorem capacity_le_sq : z.capacity ≤ z.sqWqeCnt := Nat.min_le_left _ _

theorem capacity_le_cq : z.capacity ≤ z.cq := Nat.min_le_right _ _

end Sizes

def sub64 (a b : ℕ) : ℕ := if b ≤ a then a - b else a + 2 ^ 64 - b

structure Cqe where
  wqe : ℕ
  valid : Bool
  owner : ℕ
  deriving DecidableEq, Repr

def Cqe.wqeCounter (c : Cqe) : ℕ := c.wqe % 2 ^ 16

/-- The counters and tables under their names in the source. `slots` says which WQE stands in
each slot of the send ring; `doorbell` and `completed` count the WQEs the NIC was told of and
those it has completed. `taken` lists the CQEs in the order in which they were consumed. -/
structure Qp where
  sqPosted : ℕ
  sqDbTouched : ℕ
  sqSunk : ℕ
  quietActive : ℕ
  quietPosted : ℕ
  quietCompleted : ℕ
  cqConsumer : ℕ
  outstandingWqes : ℕ → ℕ
  slots : ℕ → Option ℕ
  cq : ℕ → Cqe
  doorbell : ℕ
  completed : ℕ
  taken : List ℕ

namespace Qp

def initial : Qp :=
  ⟨0, 0, 0, 0, 0, 0, 0, fun _ => 0, fun _ => none, fun _ => ⟨0, false, 0⟩, 0, 0, []⟩

variable (z : Sizes) (qp : Qp)

def hasRoom (dbTouched sunk counter n : ℕ) : Bool :=
  decide (sunk ≤ dbTouched) &&
    decide (sub64 (counter + n) dbTouched ≤ sub64 z.capacity (dbTouched - sunk))

def build (counter : ℕ) : Qp :=
  { qp with
    outstandingWqes := update qp.outstandingWqes (counter % 2 ^ 16) counter
    slots := update qp.slots (counter % z.sqWqeCnt) (some counter) }

def cqe (consumer : ℕ) : Cqe := qp.cq (consumer % z.cq)

def ownerBit (consumer : ℕ) : ℕ := consumer >>> z.cqLogCnt &&& 1

def ready (consumer : ℕ) : Bool :=
  (qp.cqe z consumer).owner != ownerBit z consumer && (qp.cqe z consumer).valid

def invalidateCqe (cq : ℕ → Cqe) (consumer : ℕ) : ℕ → Cqe :=
  update cq (consumer % z.cq)
    { cq (consumer % z.cq) with valid := false, owner := ownerBit z consumer }

def invalidate (consumers : List ℕ) : Qp :=
  { qp with
    cq := consumers.foldl (invalidateCqe z) qp.cq
    taken := qp.taken ++ consumers.map fun j => (qp.cqe z j).wqe }

def complete : Option Qp :=
  if qp.completed < qp.doorbell then
    some { qp with
      cq := update qp.cq (qp.completed % z.cq)
        ⟨qp.completed, true, (qp.completed / z.cq + 1) % 2⟩
      completed := qp.completed + 1 }
  else none

end Qp

/-- The lanes of a wave that post on this queue pair with `shca_post_wqe_rma`, the doorbell on,
or `shca_post_wqe_amo`; `lanes` have not built their WQE. -/
inductive Group where
  | idle
  | waiting (counter n : ℕ)
  | sawTouched (counter n dbTouched : ℕ)
  | building (counter n : ℕ) (lanes : List ℕ)
  | rung (counter n : ℕ)
  | counted (counter n : ℕ)
  deriving DecidableEq, Repr

inductive GroupEvent where
  | post (n : ℕ)
  | loadTouched
  | loadSunk
  | build (lane : ℕ)
  | ring
  | count
  | touch
  deriving DecidableEq, Repr

def groupStep (z : Sizes) (qp : Qp) : Group → GroupEvent → Option (Qp × Group)
  | .idle, .post n =>
    if 0 < n ∧ n ≤ 64 then
      some ({ qp with sqPosted := qp.sqPosted + n }, .waiting qp.sqPosted n)
    else none
  | .waiting c n, .loadTouched => some (qp, .sawTouched c n qp.sqDbTouched)
  | .sawTouched c n dbTouched, .loadSunk =>
    some (qp, if Qp.hasRoom z dbTouched qp.sqSunk c n then .building c n (range n)
      else .waiting c n)
  | .building c n lanes, .build lane =>
    if lane ∈ lanes then some (qp.build z (c + lane), .building c n (lanes.erase lane)) else none
  | .building c n [], .ring =>
    if qp.sqDbTouched = c then some ({ qp with doorbell := c + n }, .rung c n) else none
  | .rung c n, .count => some ({ qp with quietPosted := qp.quietPosted + n }, .counted c n)
  | .counted c n, .touch => some ({ qp with sqDbTouched := c + n }, .idle)
  | _, _ => none

inductive Pc where
  | idle
  | loadActive
  | loadPosted
  | loadCompleted
  | cas
  | add
  | poll
  | counters
  | table
  | invalidate
  | turn
  | sink
  | finish
  deriving DecidableEq, Repr

/-- A wave in `shca_quiet` with `n` active lanes; `own` are those on this queue pair, the others
call it on their own. The lanes on this queue pair read the same values. -/
structure Wave where
  pc : Pc
  n : ℕ
  own : ℕ → Bool
  active : ℕ
  posted : ℕ
  amount : ℕ
  consumer : ℕ
  counters : ℕ → ℕ
  broadcast : ℕ

namespace Wave

def start : Wave := ⟨.idle, 0, fun _ => false, 0, 0, 0, 0, fun _ => 0, 0⟩

variable (σ : Wave)

def leads : Bool := σ.own 0

def lanes : List ℕ := (range σ.n).filter fun i => σ.own i && decide (i < σ.amount)

def others : List ℕ := (range σ.n).filter fun i => !σ.own i

end Wave

/-- What the lanes on other queue pairs contribute is an argument of the event: whether a leader
among them has claimed, from which consumer index, how many of them vote, and the greatest
`wqe_id` they put into `wqe_broadcast`. -/
inductive WaveEvent where
  | enter (n : ℕ) (own : ℕ → Bool)
  | loadActive
  | loadPosted
  | loadCompleted
  | cas (other : Bool)
  | add (other : ℕ)
  | poll (votes : ℕ)
  | counters
  | table (other : ℕ)
  | invalidate
  | turn
  | sink
  | finish

def waveStep (z : Sizes) (qp : Qp) (σ : Wave) : WaveEvent → Option (Qp × Wave)
  | .enter n own =>
    if σ.pc = .idle ∧ 0 < n ∧ n ≤ 64 then
      some (qp, { Wave.start with pc := .loadActive, n, own })
    else none
  | .loadActive =>
    if σ.pc = .loadActive then some (qp, { σ with pc := .loadPosted, active := qp.quietActive })
    else none
  | .loadPosted =>
    if σ.pc = .loadPosted then some (qp, { σ with pc := .loadCompleted, posted := qp.quietPosted })
    else none
  | .loadCompleted =>
    if σ.pc = .loadCompleted then
      if σ.posted = qp.quietCompleted then some (qp, { σ with pc := .idle })
      else if σ.posted ≤ σ.active then some (qp, { σ with pc := .loadActive })
      else some (qp, { σ with pc := .cas, amount := min σ.n (σ.posted - σ.active) })
    else none
  | .cas other =>
    if σ.pc = .cas then
      if σ.leads then
        if qp.quietActive = σ.active then
          some ({ qp with quietActive := σ.active + σ.amount }, { σ with pc := .add })
        else some (qp, { σ with pc := .loadActive })
      else if other then some (qp, { σ with pc := .add })
      else some (qp, { σ with pc := .loadActive })
    else none
  | .add other =>
    if σ.pc = .add then
      if σ.leads then
        some ({ qp with cqConsumer := qp.cqConsumer + σ.amount },
          { σ with pc := .poll, consumer := qp.cqConsumer })
      else some (qp, { σ with pc := .poll, consumer := other })
    else none
  | .poll votes =>
    if σ.pc = .poll ∧ votes ≤ σ.others.length ∧ (σ.lanes = [] ∨
        σ.amount ≤ (σ.lanes.filter fun i => qp.ready z (σ.consumer + i)).length + votes) then
      some (qp, { σ with pc := .counters })
    else none
  | .counters =>
    if σ.pc = .counters then
      some (qp, { σ with
        pc := .table
        counters := fun i => (qp.cqe z (σ.consumer + i)).wqeCounter })
    else none
  | .table other =>
    if σ.pc = .table ∧ (σ.others = [] → other = 0) then
      some (qp, { σ with
        pc := .invalidate
        broadcast :=
          σ.lanes.foldl (fun m i => max m (qp.outstandingWqes (σ.counters i)))
            (max σ.broadcast other) })
    else none
  | .invalidate =>
    if σ.pc = .invalidate then
      some (qp.invalidate z (σ.lanes.map (σ.consumer + ·)), { σ with pc := .turn })
    else none
  | .turn =>
    if σ.pc = .turn ∧ (σ.leads → qp.quietCompleted = σ.consumer) then
      some (qp, { σ with pc := .sink })
    else none
  | .sink =>
    if σ.pc = .sink then
      some ({ qp with sqSunk := if σ.leads then max qp.sqSunk (σ.broadcast + 1) else qp.sqSunk },
        { σ with pc := .finish })
    else none
  | .finish =>
    if σ.pc = .finish then
      some ({ qp with
          quietCompleted := if σ.leads then qp.quietCompleted + σ.amount else qp.quietCompleted },
        { σ with pc := .loadActive })
    else none

inductive Single where
  | idle
  | top (upto : ℕ)
  | sawCompleted (upto completed : ℕ)
  | polling (upto completed : ℕ)
  | seen (upto completed : ℕ)
  | counted (upto completed wqeCounter : ℕ)
  | known (upto completed wqeId : ℕ)
  | cleared (upto completed wqeId : ℕ)
  | sunk (upto completed : ℕ)
  deriving DecidableEq, Repr

inductive SingleEvent where
  | call
  | loadCompleted
  | loadPosted
  | poll
  | counter
  | table
  | invalidate
  | sink
  | store
  deriving DecidableEq, Repr

def singleStep (z : Sizes) (qp : Qp) : Single → SingleEvent → Option (Qp × Single)
  | .idle, .call => some (qp, .top qp.quietPosted)
  | .top u, .loadCompleted => some (qp, .sawCompleted u qp.quietCompleted)
  | .sawCompleted u f, .loadPosted =>
    some (qp, if f = qp.quietPosted then .idle else .polling u f)
  | .polling u f, .poll => if qp.ready z f then some (qp, .seen u f) else none
  | .seen u f, .counter => some (qp, .counted u f (qp.cqe z f).wqeCounter)
  | .counted u f k, .table => some (qp, .known u f (qp.outstandingWqes k))
  | .known u f id, .invalidate => some (qp.invalidate z [f], .cleared u f id)
  | .cleared u f id, .sink => some ({ qp with sqSunk := max qp.sqSunk (id + 1) }, .sunk u f)
  | .sunk u f, .store => some ({ qp with quietCompleted := f + 1 }, .top u)
  | _, _ => none

/-- `N` waves with what each of them does: the post of a group of its lanes, its call of
`shca_quiet`, and the call of `shca_quiet_single` by one of its lanes. -/
structure State (N : ℕ) where
  qp : Qp
  groups : Fin N → Group
  waves : Fin N → Wave
  singles : Fin N → Single

def initial (N : ℕ) : State N :=
  ⟨Qp.initial, fun _ => .idle, fun _ => Wave.start, fun _ => .idle⟩

inductive Event (N : ℕ) where
  | group (g : Fin N) (e : GroupEvent)
  | wave (w : Fin N) (e : WaveEvent)
  | single (x : Fin N) (e : SingleEvent)
  | complete

variable {N : ℕ}

namespace State

variable (s : State N)

def afterGroup (g : Fin N) (r : Qp × Group) : State N :=
  { s with qp := r.1, groups := update s.groups g r.2 }

def afterWave (w : Fin N) (r : Qp × Wave) : State N :=
  { s with qp := r.1, waves := update s.waves w r.2 }

def afterSingle (x : Fin N) (r : Qp × Single) : State N :=
  { s with qp := r.1, singles := update s.singles x r.2 }

end State

def step (z : Sizes) (s : State N) : Event N → Option (State N)
  | .group g e => (groupStep z s.qp (s.groups g) e).map (s.afterGroup g)
  | .wave w e => (waveStep z s.qp (s.waves w) e).map (s.afterWave w)
  | .single x e => (singleStep z s.qp (s.singles x) e).map (s.afterSingle x)
  | .complete => (s.qp.complete z).map fun qp => { s with qp }

def machine (z : Sizes) (N : ℕ) : Machine (State N) (Event N) := .ofStep (initial N) (step z)

instance (z : Sizes) (s : State N) (e : Event N) : Decidable ((machine z N).enabled s e) :=
  inferInstanceAs (Decidable ((step z s e).isSome = true))

def Group.Owns : Group → ℕ → Prop
  | .waiting c n, p | .sawTouched c n _, p | .building c n _, p | .rung c n, p
  | .counted c n, p => c ≤ p ∧ p < c + n
  | .idle, _ => False

def Group.Lacks : Group → ℕ → Prop
  | .waiting c n, p | .sawTouched c n _, p => c ≤ p ∧ p < c + n
  | .building c _ lanes, p => ∃ lane ∈ lanes, p = c + lane
  | _, _ => False

def Group.Built : Group → ℕ → Prop
  | .building c n lanes, p => c ≤ p ∧ p < c + n ∧ ∀ lane ∈ lanes, p ≠ c + lane
  | _, _ => False

def Group.Ringing (c : Group) : Prop := ∃ counter n, c = .rung counter n ∨ c = .counted counter n

structure Unrung (qp : Qp) (c n : ℕ) : Prop where
  pos : 0 < n
  doorbell_le : qp.doorbell ≤ c
  le_posted : c + n ≤ qp.sqPosted

def GroupOk (z : Sizes) (qp : Qp) : Group → Prop
  | .idle => True
  | .waiting c n => Unrung qp c n
  | .sawTouched c n dbTouched => Unrung qp c n ∧ dbTouched ≤ qp.sqDbTouched
  | .building c n lanes =>
    Unrung qp c n ∧ c + n ≤ qp.sqSunk + z.capacity ∧ lanes.Nodup ∧ ∀ lane ∈ lanes, lane < n
  | .rung c n =>
    0 < n ∧ qp.sqDbTouched = c ∧ qp.doorbell = c + n ∧ qp.quietPosted = c
  | .counted c n =>
    0 < n ∧ qp.sqDbTouched = c ∧ qp.doorbell = c + n ∧ qp.quietPosted = c + n

/-- The send ring and the completion ring between steps. `Cleared` are the CQEs from
`quiet_completed` on that have been consumed and not yet counted. -/
structure Ring (z : Sizes) (qp : Qp) (groups : Fin N → Group) (Cleared : ℕ → Prop) : Prop where
  quietCompleted_le : qp.quietCompleted ≤ qp.sqSunk
  sunk_le : qp.sqSunk ≤ qp.completed
  completed_le : qp.completed ≤ qp.doorbell
  doorbell_le : qp.doorbell ≤ qp.sqPosted
  room : qp.doorbell ≤ qp.sqSunk + z.capacity
  cleared : ∀ {j}, Cleared j → qp.quietCompleted ≤ j ∧ j < qp.completed
  gap : ∀ {j}, qp.quietCompleted ≤ j → j < qp.sqSunk → Cleared j
  rings : (qp.doorbell = qp.sqDbTouched ∧ qp.quietPosted = qp.sqDbTouched) ∨
    ∃ g, (groups g).Ringing
  group : ∀ g, GroupOk z qp (groups g)
  disjoint : ∀ {g g' p}, (groups g).Owns p → (groups g').Owns p → g = g'
  slot : ∀ {k p}, qp.slots k = some p →
    k = p % z.sqWqeCnt ∧ p < qp.sqSunk + z.capacity ∧ p < qp.sqPosted ∧ ∀ g, ¬ (groups g).Lacks p
  table : ∀ {j}, qp.sqSunk ≤ j → (j < qp.doorbell ∨ ∃ g, (groups g).Built j) →
    qp.outstandingWqes (j % 2 ^ 16) = j
  valid : ∀ {k}, (qp.cq k).valid = true →
    k = (qp.cq k).wqe % z.cq ∧ qp.quietCompleted ≤ (qp.cq k).wqe ∧
      (qp.cq k).wqe < qp.completed ∧ ¬ Cleared (qp.cq k).wqe
  live : ∀ {j}, qp.quietCompleted ≤ j → j < qp.completed → ¬ Cleared j →
    (qp.cqe z j).wqe = j
  taken_iff : ∀ {j}, j ∈ qp.taken ↔ j < qp.quietCompleted ∨ Cleared j
  taken_nodup : qp.taken.Nodup

section Groups

variable {z : Sizes} {qp : Qp} {groups : Fin N → Group} {Cleared : ℕ → Prop} {g : Fin N} {c : Group}

theorem Group.Lacks.owns {p : ℕ} (hc : GroupOk z qp c)
    (h : c.Lacks p) : c.Owns p := by
  match c, h with
  | .waiting _ _, h | .sawTouched _ _ _, h => exact h
  | .building _ _ _, ⟨lane, hl, hp⟩ =>
    have := hc.2.2.2 lane hl
    exact ⟨by omega, by omega⟩

theorem GroupOk.transfer {qp' : Qp} (h : GroupOk z qp c)
    (hun : ∀ {c' n}, Unrung qp c' n → c.Owns c' → Unrung qp' c' n)
    (ht : qp.sqDbTouched ≤ qp'.sqDbTouched) (hs : qp.sqSunk ≤ qp'.sqSunk)
    (hr : ¬ c.Ringing ∨ (qp'.sqDbTouched = qp.sqDbTouched ∧ qp'.doorbell = qp.doorbell ∧
      qp'.quietPosted = qp.quietPosted)) : GroupOk z qp' c := by
  cases c with
  | idle => trivial
  | waiting c' n => exact hun h ⟨le_rfl, Nat.lt_add_of_pos_right h.pos⟩
  | sawTouched c' n t => exact ⟨hun h.1 ⟨le_rfl, Nat.lt_add_of_pos_right h.1.pos⟩, h.2.trans ht⟩
  | building c' n lanes =>
    exact ⟨hun h.1 ⟨le_rfl, Nat.lt_add_of_pos_right h.1.pos⟩,
      h.2.1.trans (Nat.add_le_add_right hs _), h.2.2⟩
  | rung | counted =>
    grind [GroupOk, Group.Ringing]

theorem update_imp {R : Group → ℕ → Prop} (h : ∀ p, R c p → R (groups g) p) {g' : Fin N} {p : ℕ}
    (hu : R (update groups g c g') p) : R (groups g') p := by
  by_cases hg : g' = g
  · subst hg
    exact h p (by simpa using hu)
  · simpa [hg] using hu

theorem update_group {P : Group → Prop} (hc : P c) (h : ∀ g', g' ≠ g → P (groups g')) (g' : Fin N) :
    P (update groups g c g') := by
  by_cases hg : g' = g
  · subst hg
    simpa using hc
  · simpa [hg] using h g' hg

namespace Ring

theorem touched_le (h : Ring z qp groups Cleared) :
    qp.sqDbTouched ≤ qp.quietPosted ∧ qp.quietPosted ≤ qp.doorbell := by
  rcases h.rings with ⟨hd, hq⟩ | ⟨g, _, _, hg | hg⟩
  · omega
  all_goals
    obtain ⟨-, ht, hd, hq⟩ := hg ▸ h.group g
    omega

theorem owns_of_ringing (h : Ring z qp groups Cleared) (hg : (groups g).Ringing) :
    (groups g).Owns qp.sqDbTouched := by
  have hok := h.group g
  obtain ⟨c, n, hg | hg⟩ := hg <;>
  · rw [hg] at hok ⊢
    have hpos := hok.1
    have ht := hok.2.1
    exact ⟨by omega, by omega⟩

variable {lanes : List ℕ}

theorem doorbell_eq (h : Ring z qp groups Cleared) {n : ℕ}
    (hg : groups g = .building qp.sqDbTouched n lanes) :
    (qp.doorbell = qp.sqDbTouched ∧ qp.quietPosted = qp.sqDbTouched) ∧
      ∀ g', ¬ (groups g').Ringing := by
  have hpos := (hg ▸ h.group g).1.pos
  have hno : ∀ g', ¬ (groups g').Ringing := by
    intro g' hr
    have hown : (groups g).Owns qp.sqDbTouched := by
      rw [hg]
      exact ⟨le_rfl, by omega⟩
    obtain rfl := h.disjoint hown (h.owns_of_ringing hr)
    obtain ⟨c, m, hr | hr⟩ := hr <;> rw [hg] at hr <;> cases hr
  exact ⟨h.rings.resolve_right fun ⟨g', hr⟩ => hno g' hr, hno⟩

variable {counter n lane : ℕ}

section

variable (h : Ring z qp groups Cleared)
include h

theorem building_bounds (hg : groups g = .building counter n lanes) (hl : lane ∈ lanes) :
    qp.doorbell ≤ counter + lane ∧ counter + lane < qp.sqSunk + z.capacity ∧
      counter + lane < qp.sqPosted ∧ (groups g).Lacks (counter + lane) := by
  have hok := h.group g
  rw [hg] at hok ⊢
  obtain ⟨hun, hcap, -, hlt⟩ := hok
  have hpost := hun.le_posted
  have hdb := hun.doorbell_le
  have := hlt lane hl
  exact ⟨by omega, by omega, by omega, lane, hl, rfl⟩

theorem built_over {p : ℕ} (hg : groups g = .building counter n lanes)
    (hl : lane ∈ lanes) (hp : qp.slots ((counter + lane) % z.sqWqeCnt) = some p) :
    p < qp.completed := by
  obtain ⟨hdb, hcap, -, hlack⟩ := h.building_bounds hg hl
  obtain ⟨hk, hlt, -, hno⟩ := h.slot hp
  have hne : p ≠ counter + lane := by
    rintro rfl
    exact hno g hlack
  have hsq := z.capacity_le_sq
  have := h.sunk_le
  have := h.completed_le
  rcases Nat.lt_or_gt_of_ne hne with hlt' | hgt
  · have := WrappingRings.add_le_of_mod_eq hk.symm hlt'
    omega
  · have := WrappingRings.add_le_of_mod_eq hk hgt
    omega

theorem post (hg : groups g = .idle) (hn : 0 < n) :
    Ring z { qp with sqPosted := qp.sqPosted + n }
      (update groups g (.waiting qp.sqPosted n)) Cleared := by
  have hfresh : ∀ {g' p}, (update groups g (.waiting qp.sqPosted n) g').Owns p →
      (g' = g ∧ qp.sqPosted ≤ p) ∨ (groups g').Owns p := by
    grind [Group.Owns]
  have hold : ∀ {g' p}, (groups g').Owns p → p < qp.sqPosted := by
    intro g' p hown
    have hok := h.group g'
    have hdb := h.doorbell_le
    revert hok hown
    cases groups g' with
    | idle => exact fun hown => hown.elim
    | waiting c n | sawTouched c n | building c n =>
      intro ⟨_, hlt⟩ hok
      have := (show Unrung qp c n by first | exact hok | exact hok.1).le_posted
      omega
    | rung c n | counted c n =>
      intro ⟨_, hlt⟩ hok
      have := hok.2.2.1
      omega
  refine { h with
      doorbell_le := Nat.le_add_right_of_le h.doorbell_le
      rings := ?_
      group := update_group ?_ ?_
      disjoint := fun hp hp' => ?_
      slot := fun hs => ?_
      table := fun hj hb => ?_ }
  · refine h.rings.imp_right fun ⟨g', hr⟩ => ⟨g', ?_⟩
    have hne : g' ≠ g := by
      rintro rfl
      obtain ⟨c, m, hr | hr⟩ := hr <;> rw [hg] at hr <;> cases hr
    rwa [update_of_ne hne]
  · exact ⟨hn, h.doorbell_le, le_rfl⟩
  · exact fun g' _ => (h.group g').transfer
      (fun hun _ => ⟨hun.pos, hun.doorbell_le, Nat.le_add_right_of_le hun.le_posted⟩) le_rfl le_rfl
      (.inr ⟨rfl, rfl, rfl⟩)
  · grind [Ring]
  · grind [Ring, Group.Lacks]
  · grind [Ring, Group.Built]

theorem setGroup (hown : ∀ p, c.Owns p → (groups g).Owns p)
    (hlack : ∀ p, c.Lacks p → (groups g).Lacks p) (hbuilt : ∀ p, c.Built p → (groups g).Built p)
    (hc : GroupOk z qp c) (hrung : ¬ (groups g).Ringing) :
    Ring z qp (update groups g c) Cleared := by
  refine { h with
      rings := ?_
      group := update_group hc fun g' _ => h.group g'
      disjoint := fun hp hp' => h.disjoint (update_imp hown hp) (update_imp hown hp')
      slot := fun hs => ?_
      table := fun hj hb => h.table hj (hb.imp_right fun ⟨g', hb⟩ => ⟨g', update_imp hbuilt hb⟩) }
  · refine h.rings.imp_right fun ⟨g', hr⟩ => ⟨g', ?_⟩
    have hne : g' ≠ g := by
      rintro rfl
      exact hrung hr
    rwa [update_of_ne hne]
  · obtain ⟨hk, hlt, hpost, hno⟩ := h.slot hs
    exact ⟨hk, hlt, hpost, fun g' hl => hno g' (update_imp hlack hl)⟩

end

theorem room_of_hasRoom {dbTouched sunk : ℕ} (hcap : dbTouched ≤ sunk + z.capacity)
    (hle : dbTouched ≤ counter + n) (h : Qp.hasRoom z dbTouched sunk counter n = true) :
    counter + n ≤ sunk + z.capacity := by
  simp only [Qp.hasRoom, Bool.and_eq_true, decide_eq_true_eq] at h
  obtain ⟨hsunk, hfree⟩ := h
  rw [sub64, if_pos hle, sub64, if_pos (by omega)] at hfree
  omega

section

variable (h : Ring z qp groups Cleared)
include h

theorem loadSunk {dbTouched : ℕ} (hg : groups g = .sawTouched counter n dbTouched) :
    Ring z qp (update groups g
      (if Qp.hasRoom z dbTouched qp.sqSunk counter n then .building counter n (range n)
        else .waiting counter n)) Cleared := by
  obtain ⟨hun, ht⟩ := hg ▸ h.group g
  have hrung : ¬ (groups g).Ringing := by
    rintro ⟨c, m, hr | hr⟩ <;> rw [hg] at hr <;> cases hr
  split
  next hroom =>
    have hcap : counter + n ≤ qp.sqSunk + z.capacity := by
      have := h.touched_le
      have := h.room
      have := hun.doorbell_le
      exact room_of_hasRoom (by omega) (by omega) hroom
    refine h.setGroup (fun p hp => ?_) (fun p hp => ?_) (fun p hp => ?_)
      ⟨hun, hcap, nodup_range, fun lane hl => mem_range.mp hl⟩ hrung
    · rw [hg]
      exact hp
    · rw [hg]
      obtain ⟨lane, hl, rfl⟩ := hp
      have := mem_range.mp hl
      exact ⟨by omega, by omega⟩
    · obtain ⟨hge, hlt, hno⟩ := hp
      exact absurd (by omega) (hno (p - counter) (mem_range.mpr (by omega)))
  next =>
    refine h.setGroup (fun p hp => ?_) (fun p hp => ?_) (fun _ => False.elim) hun hrung <;>
    · rw [hg]
      exact hp

theorem build (hg : groups g = .building counter n lanes) (hl : lane ∈ lanes) :
    Ring z (qp.build z (counter + lane))
      (update groups g (.building counter n (lanes.erase lane))) Cleared := by
  obtain ⟨hdb, hcap, hpost, hlack⟩ := h.building_bounds hg hl
  obtain ⟨hun, hroom, hnd, hlt⟩ := hg ▸ h.group g
  have hown : ∀ p, (Group.building counter n (lanes.erase lane)).Owns p → (groups g).Owns p := by
    intro p hp
    rw [hg]
    exact hp
  have hlacks : ∀ p, (Group.building counter n (lanes.erase lane)).Lacks p →
      (groups g).Lacks p := by
    rintro p ⟨l, hm, hp⟩
    rw [hg]
    exact ⟨l, mem_of_mem_erase hm, hp⟩
  refine { h with
      rings := ?_
      group := update_group ?_ ?_
      disjoint := fun hp hp' => h.disjoint (update_imp hown hp) (update_imp hown hp')
      slot := fun {k p} hs => ?_
      table := fun {j} hj hb => ?_ }
  · refine h.rings.imp_right fun ⟨g', hr⟩ => ⟨g', ?_⟩
    have hne : g' ≠ g := by
      rintro rfl
      obtain ⟨c, m, hr | hr⟩ := hr <;> rw [hg] at hr <;> cases hr
    rwa [update_of_ne hne]
  · exact ⟨⟨hun.pos, hun.doorbell_le, hun.le_posted⟩, hroom, hnd.erase lane,
      fun l hm => hlt l (mem_of_mem_erase hm)⟩
  · exact fun g' _ => (h.group g').transfer
      (fun hun _ => ⟨hun.pos, hun.doorbell_le, hun.le_posted⟩) le_rfl le_rfl (.inr ⟨rfl, rfl, rfl⟩)
  · by_cases hk : k = (counter + lane) % z.sqWqeCnt
    · subst hk
      obtain rfl : counter + lane = p := by simpa [Qp.build] using hs
      refine ⟨rfl, hcap, hpost, fun g' hl' => ?_⟩
      by_cases hgg : g' = g
      · subst hgg
        exact hnd.not_mem_erase (by simpa [Group.Lacks] using hl')
      · have hl'' : (groups g').Lacks (counter + lane) := by simpa [hgg] using hl'
        exact hgg (h.disjoint (hl''.owns (h.group g')) (hlack.owns (h.group g)))
    · have hs' : qp.slots k = some p := by simpa [Qp.build, hk] using hs
      obtain ⟨hk', hlt', hpost', hno⟩ := h.slot hs'
      exact ⟨hk', hlt', hpost', fun g' hl' => hno g' (update_imp hlacks hl')⟩
  · -- only the entry of the WQE itself changes: the others in use are less than a table apart
    have hcap' := z.capacity_lt
    have hsunk : qp.sqSunk ≤ j := hj
    by_cases hj' : j = counter + lane
    · subst hj'
      simp [Qp.build]
    · have hold : j < qp.doorbell ∨ ∃ g, (groups g).Built j := by
        refine hb.imp_right fun ⟨g', hb⟩ => ⟨g', ?_⟩
        by_cases hgg : g' = g
        · subst hgg
          rw [update_self] at hb
          rw [hg]
          refine ⟨hb.1, hb.2.1, fun l hm => ?_⟩
          by_cases hll : l = lane
          · subst hll
            exact hj'
          · exact hb.2.2 l ((mem_erase_of_ne hll).mpr hm)
        · simpa [hgg] using hb
      have hjcap : j < qp.sqSunk + z.capacity := by
        rcases hold with hd | ⟨g', hb'⟩
        · have := h.room
          omega
        · have hg' := h.group g'
          revert hg' hb'
          cases groups g' with
          | building c' n' lanes' => exact fun ⟨_, hlt, _⟩ ⟨_, hcap, _⟩ => by omega
          | idle | waiting | sawTouched | rung | counted => exact fun hb' => hb'.elim
      have hne : j % 2 ^ 16 ≠ (counter + lane) % 2 ^ 16 := by
        grind [Ring]
      change update qp.outstandingWqes _ _ (j % 2 ^ 16) = j
      rw [update_of_ne hne]
      exact h.table hsunk hold

theorem ringer_unique (hg : (groups g).Ringing) {g' : Fin N} (hne : g' ≠ g) :
    ¬ (groups g').Ringing :=
  fun hg' => hne (h.disjoint (h.owns_of_ringing hg') (h.owns_of_ringing hg))

theorem ring (hg : groups g = .building qp.sqDbTouched n []) :
    Ring z { qp with doorbell := qp.sqDbTouched + n }
      (update groups g (.rung qp.sqDbTouched n)) Cleared := by
  obtain ⟨⟨hd, hq⟩, hno⟩ := h.doorbell_eq hg
  obtain ⟨hun, hroom, -, -⟩ := hg ▸ h.group g
  have hpos := hun.pos
  have hown : ∀ p, (Group.rung qp.sqDbTouched n).Owns p → (groups g).Owns p := by
    intro p hp
    rw [hg]
    exact hp
  -- the counters of the others are past the WQEs of this group
  have hafter : ∀ {g' c' n'}, g' ≠ g → Unrung qp c' n' → (groups g').Owns c' →
      qp.sqDbTouched + n ≤ c' := by
    grind [Ring, Unrung, Group.Owns]
  have hle : qp.completed ≤ qp.sqDbTouched + n := by
    have := h.completed_le
    omega
  refine ⟨h.quietCompleted_le, h.sunk_le, hle, hun.le_posted,
    hroom, h.cleared, h.gap, .inr ⟨g, qp.sqDbTouched, n, .inl (update_self ..)⟩,
    update_group ⟨hpos, rfl, rfl, hq⟩ fun g' hne => (h.group g').transfer
      (fun hun' hown' => ⟨hun'.pos, hafter hne hun' hown', hun'.le_posted⟩) le_rfl le_rfl
      (.inl (hno g')),
    fun hp hp' => h.disjoint (update_imp hown hp) (update_imp hown hp'), fun hs => ?_,
    fun {j} hj hb => h.table hj ?_, h.valid, h.live, h.taken_iff, h.taken_nodup⟩
  · grind [Ring, Group.Lacks]
  · grind [Group.Built]

theorem count {c : ℕ} (hg : groups g = .rung c n) :
    Ring z { qp with quietPosted := qp.quietPosted + n }
      (update groups g (.counted c n)) Cleared := by
  obtain ⟨hpos, ht, hd, hq⟩ := hg ▸ h.group g
  have hown : ∀ p, (Group.counted c n).Owns p → (groups g).Owns p := by
    intro p hp
    rw [hg]
    exact hp
  refine ⟨h.quietCompleted_le, h.sunk_le, h.completed_le, h.doorbell_le, h.room, h.cleared, h.gap,
    .inr ⟨g, c, n, .inr (update_self ..)⟩,
    update_group ⟨hpos, ht, hd, congrArg (· + n) hq⟩ fun g' hne => (h.group g').transfer
      (fun hun _ => ⟨hun.pos, hun.doorbell_le, hun.le_posted⟩) le_rfl le_rfl
      (.inl (h.ringer_unique ⟨c, n, .inl hg⟩ hne)),
    fun hp hp' => h.disjoint (update_imp hown hp) (update_imp hown hp'), fun hs => ?_,
    fun hj hb => h.table hj (hb.imp_right fun ⟨g', hb⟩ =>
      ⟨g', update_imp (R := Group.Built) (fun _ => False.elim) hb⟩),
    h.valid, h.live, h.taken_iff, h.taken_nodup⟩
  obtain ⟨hk, hlt, hpost, hno⟩ := h.slot hs
  exact ⟨hk, hlt, hpost, fun g' hl => hno g' (update_imp (fun _ => False.elim) hl)⟩

theorem touch {c : ℕ} (hg : groups g = .counted c n) :
    Ring z { qp with sqDbTouched := c + n } (update groups g .idle) Cleared := by
  have hok := h.group g
  rw [hg] at hok
  obtain ⟨hpos, ht, hd, hq⟩ := hok
  refine ⟨h.quietCompleted_le, h.sunk_le, h.completed_le, h.doorbell_le, h.room, h.cleared, h.gap,
    .inl ⟨hd, hq⟩,
    update_group trivial fun g' hne => (h.group g').transfer
      (fun hun _ => ⟨hun.pos, hun.doorbell_le, hun.le_posted⟩)
      (ht.trans_le (Nat.le_add_right c n)) le_rfl (.inl (h.ringer_unique ⟨c, n, .inr hg⟩ hne)),
    fun hp hp' => h.disjoint (update_imp (fun _ => False.elim) hp)
      (update_imp (fun _ => False.elim) hp'), fun hs => ?_,
    fun hj hb => h.table hj (hb.imp_right fun ⟨g', hb⟩ =>
      ⟨g', update_imp (R := Group.Built) (fun _ => False.elim) hb⟩),
    h.valid, h.live, h.taken_iff, h.taken_nodup⟩
  obtain ⟨hk, hlt, hpost, hno⟩ := h.slot hs
  exact ⟨hk, hlt, hpost, fun g' hl => hno g' (update_imp (fun _ => False.elim) hl)⟩

theorem groupStep {e : GroupEvent} {r : Qp × Group} (hs : groupStep z qp (groups g) e = some r) :
    Ring z r.1 (update groups g r.2) Cleared := by
  generalize hg : groups g = c at hs
  rw [GdaShcaQueuePair.groupStep.eq_def] at hs
  split at hs
  next n =>
    split at hs
    next hn =>
      cases hs
      exact h.post hg hn.1
    · cases hs
  next c n =>
    cases hs
    have hok := h.group g
    rw [hg] at hok
    refine h.setGroup (fun p hp => ?_) (fun p hp => ?_) (fun _ => False.elim) ⟨hok, le_rfl⟩ ?_
    · rw [hg]
      exact hp
    · rw [hg]
      exact hp
    · rintro ⟨c', n', hr | hr⟩ <;> rw [hg] at hr <;> cases hr
  next c n t =>
    cases hs
    exact h.loadSunk hg
  next c n lanes lane =>
    split at hs
    next hl =>
      cases hs
      exact h.build hg hl
    · cases hs
  next c n =>
    split at hs
    next heq =>
      cases hs
      subst heq
      exact h.ring hg
    · cases hs
  next c n =>
    cases hs
    exact h.count hg
  next c n =>
    cases hs
    exact h.touch hg
  next => cases hs

end

end Ring

end Groups

section Completions

variable {z : Sizes} {qp : Qp} {groups : Fin N → Group} {Cleared : ℕ → Prop}

theorem wqe_foldl_invalidate (js : List ℕ) (cq : ℕ → Cqe) (k : ℕ) :
    (js.foldl (Qp.invalidateCqe z) cq k).wqe = (cq k).wqe := by
  induction js generalizing cq with
  | nil => rfl
  | cons j js ih =>
    rw [foldl_cons, ih, Qp.invalidateCqe]
    by_cases hk : k = j % z.cq
    · subst hk
      rw [update_self]
    · rw [update_of_ne hk]

theorem valid_foldl_invalidate {js : List ℕ} {cq : ℕ → Cqe} {k : ℕ}
    (h : (js.foldl (Qp.invalidateCqe z) cq k).valid = true) :
    (cq k).valid = true ∧ ∀ j ∈ js, j % z.cq ≠ k := by
  induction js generalizing cq with
  | nil => exact ⟨h, nofun⟩
  | cons j js ih =>
    rw [foldl_cons] at h
    obtain ⟨hv, hne⟩ := ih h
    rw [Qp.invalidateCqe] at hv
    by_cases hk : k = j % z.cq
    · subst hk
      rw [update_self] at hv
      cases hv
    · grind

namespace Ring

variable {Cleared' : ℕ → Prop}

section

variable (h : Ring z qp groups Cleared)
include h

theorem congr (hiff : ∀ j, Cleared j ↔ Cleared' j) : Ring z qp groups Cleared' :=
  (funext fun j => propext (hiff j) : Cleared = Cleared') ▸ h

theorem claims (quietActive cqConsumer : ℕ) :
    Ring z { qp with quietActive, cqConsumer } groups Cleared :=
  ⟨h.quietCompleted_le, h.sunk_le, h.completed_le, h.doorbell_le, h.room, h.cleared, h.gap,
    h.rings, fun g => (h.group g).transfer (fun hun _ => ⟨hun.pos, hun.doorbell_le, hun.le_posted⟩)
      le_rfl le_rfl (.inr ⟨rfl, rfl, rfl⟩),
    h.disjoint, h.slot, h.table, h.valid, h.live, h.taken_iff, h.taken_nodup⟩

theorem sunk_le_of_not_cleared {j : ℕ} (hge : qp.quietCompleted ≤ j) (hno : ¬ Cleared j) :
    qp.sqSunk ≤ j := by
  by_contra hlt
  exact hno (h.gap hge (by omega))

theorem complete {qp' : Qp} (hs : qp.complete z = some qp') : Ring z qp' groups Cleared := by
  rw [Qp.complete] at hs
  split at hs
  next hlt =>
    cases hs
    have hcap := z.capacity_le_cq
    have hroom := h.room
    refine ⟨h.quietCompleted_le, Nat.le_succ_of_le h.sunk_le, hlt, h.doorbell_le, h.room,
      fun hc => ⟨(h.cleared hc).1, Nat.lt_succ_of_lt (h.cleared hc).2⟩, h.gap, h.rings,
      fun g => (h.group g).transfer (fun hun _ => ⟨hun.pos, hun.doorbell_le, hun.le_posted⟩)
        le_rfl le_rfl (.inr ⟨rfl, rfl, rfl⟩),
      h.disjoint, h.slot, h.table, fun {k} hv => ?_, fun {j} hge hlt' hno => ?_, h.taken_iff,
      h.taken_nodup⟩
    · grind [Ring]
    · change (update qp.cq _ _ (j % z.cq)).wqe = j
      rcases Nat.lt_succ_iff_lt_or_eq.mp hlt' with hj | rfl
      · have hsunk := h.sunk_le_of_not_cleared hge hno
        have hne : j % z.cq ≠ qp.completed % z.cq := by
          intro heq
          have := WrappingRings.add_le_of_mod_eq heq hj
          omega
        rw [update_of_ne hne]
        exact h.live hge hj hno
      · rw [update_self]
  · cases hs

theorem invalidate {js : List ℕ} (hnd : js.Nodup)
    (hjs : ∀ j ∈ js, qp.quietCompleted ≤ j ∧ j < qp.completed ∧ ¬ Cleared j) :
    Ring z (qp.invalidate z js) groups fun j => Cleared j ∨ j ∈ js := by
  have htaken : js.map (fun j => (qp.cqe z j).wqe) = js := by
    refine (map_congr_left fun j hj => ?_).trans (map_id js)
    exact h.live (hjs j hj).1 (hjs j hj).2.1 (hjs j hj).2.2
  refine ⟨h.quietCompleted_le, h.sunk_le, h.completed_le, h.doorbell_le, h.room, ?_,
    fun hge hlt => .inl (h.gap hge hlt), h.rings,
    fun g => (h.group g).transfer (fun hun _ => ⟨hun.pos, hun.doorbell_le, hun.le_posted⟩)
      le_rfl le_rfl (.inr ⟨rfl, rfl, rfl⟩),
    h.disjoint, h.slot, h.table, fun {k} hv => ?_, fun {j} hge hlt hno => ?_, fun {j} => ?_, ?_⟩
  · rintro j (hc | hj)
    · exact h.cleared hc
    · exact ⟨(hjs j hj).1, (hjs j hj).2.1⟩
  · change (js.foldl (Qp.invalidateCqe z) qp.cq k).valid = true at hv
    obtain ⟨hv, hne⟩ := valid_foldl_invalidate hv
    obtain ⟨hk, hge, hlt, hno⟩ := h.valid hv
    change _ = (js.foldl (Qp.invalidateCqe z) qp.cq k).wqe % _ ∧
      _ ≤ (js.foldl (Qp.invalidateCqe z) qp.cq k).wqe ∧
      (js.foldl (Qp.invalidateCqe z) qp.cq k).wqe < _ ∧
      ¬ (Cleared (js.foldl (Qp.invalidateCqe z) qp.cq k).wqe ∨
        (js.foldl (Qp.invalidateCqe z) qp.cq k).wqe ∈ js)
    rw [wqe_foldl_invalidate]
    exact ⟨hk, hge, hlt, fun hc => hc.elim hno fun hj => hne _ hj hk.symm⟩
  · change (js.foldl (Qp.invalidateCqe z) qp.cq (j % z.cq)).wqe = j
    rw [wqe_foldl_invalidate]
    exact h.live hge hlt fun hc => hno (.inl hc)
  · change j ∈ qp.taken ++ js.map _ ↔ _
    rw [htaken, mem_append, h.taken_iff, or_assoc]
    rfl
  · change (qp.taken ++ js.map _).Nodup
    rw [htaken]
    refine nodup_append.mpr ⟨h.taken_nodup, hnd, ?_⟩
    rintro i hi j hj rfl
    rcases h.taken_iff.mp hi with hlt | hc
    · exact absurd (hjs i hj).1 (Nat.not_le_of_lt hlt)
    · exact (hjs i hj).2.2 hc

theorem sink {sunk : ℕ} (hge : qp.sqSunk ≤ sunk) (hle : sunk ≤ qp.completed)
    (hgap : ∀ {j}, qp.quietCompleted ≤ j → j < sunk → Cleared j) :
    Ring z { qp with sqSunk := sunk } groups Cleared :=
  ⟨h.quietCompleted_le.trans hge, hle, h.completed_le, h.doorbell_le,
    h.room.trans (Nat.add_le_add_right hge _), h.cleared, hgap, h.rings,
    fun g => (h.group g).transfer (fun hun _ => ⟨hun.pos, hun.doorbell_le, hun.le_posted⟩)
      le_rfl hge (.inr ⟨rfl, rfl, rfl⟩),
    h.disjoint,
    fun hs => ⟨(h.slot hs).1, (h.slot hs).2.1.trans_le (Nat.add_le_add_right hge _),
      (h.slot hs).2.2⟩,
    fun hj hb => h.table (hge.trans hj) hb, h.valid, h.live, h.taken_iff, h.taken_nodup⟩

theorem finish {upto : ℕ} (hge : qp.quietCompleted ≤ upto) (hle : upto ≤ qp.sqSunk)
    (hiff : ∀ j, Cleared' j ↔ Cleared j ∧ upto ≤ j) :
    Ring z { qp with quietCompleted := upto } groups Cleared' := by
  refine ⟨hle, h.sunk_le, h.completed_le, h.doorbell_le, h.room,
    fun {j} hc => ⟨((hiff j).mp hc).2, (h.cleared ((hiff j).mp hc).1).2⟩,
    fun {j} hj hlt => (hiff j).mpr ⟨h.gap (hge.trans hj) hlt, hj⟩, h.rings,
    fun g => (h.group g).transfer (fun hun _ => ⟨hun.pos, hun.doorbell_le, hun.le_posted⟩)
      le_rfl le_rfl (.inr ⟨rfl, rfl, rfl⟩),
    h.disjoint, h.slot, h.table, fun {k} hv => ?_, fun {j} hj hlt hno => ?_, fun {j} => ?_,
    h.taken_nodup⟩
  · grind [Ring]
  all_goals grind [Qp.cqe, Ring]

end

end Ring

theorem ring_initial (z : Sizes) : Ring z Qp.initial (fun _ : Fin N => .idle) fun _ => False where
  quietCompleted_le := le_rfl
  sunk_le := le_rfl
  completed_le := le_rfl
  doorbell_le := le_rfl
  room := Nat.zero_le _
  cleared := False.elim
  gap _ hlt := absurd hlt (Nat.not_lt_zero _)
  rings := .inl ⟨rfl, rfl⟩
  group _ := trivial
  disjoint := False.elim
  slot := nofun
  table hj hb := hb.elim (fun hlt => absurd hlt (Nat.not_lt_zero _)) fun ⟨_, hb⟩ => hb.elim
  valid := nofun
  live _ hlt := absurd hlt (Nat.not_lt_zero _)
  taken_iff := by simp [Qp.initial]
  taken_nodup := nodup_nil

end Completions

end GdaShcaQueuePair
