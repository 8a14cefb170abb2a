import Rocshmem.GuardedMachines
import Rocshmem.WrappingRings

/-! One ionic send queue under any number of waves. Positions and completion counts are exact
numbers; the code keeps the low 32 bits of the producers and compares 24-bit message numbers.
The NIC takes the slots in order, slot `p` modulo the size as WQE `p`, when the colour in the
slot is the one of `p`, whatever the doorbell covers. Error completions abort the kernel and are
left out. -/
namespace GdaIonicSendQueue

open Function GuardedMachines

structure Queue where
  sqLog : ℕ
  cqLog : ℕ
  sqLog_le : sqLog ≤ 23
  cqLog_le : cqLog ≤ 31

namespace Queue

variable (q : Queue)

def size : ℕ := 2 ^ q.sqLog

def sqMask : UInt32 := UInt32.ofNat (q.size - 1)

def cqMask : UInt32 := UInt32.ofNat (2 ^ q.cqLog - 1)

def slotOf (pos : ℕ) : ℕ := (UInt32.ofNat pos &&& q.sqMask).toNat

def wqeColor (pos : ℕ) : Bool := UInt32.ofNat pos &&& (q.sqMask + 1) == 0

def cqSlotOf (pos : ℕ) : ℕ := (UInt32.ofNat pos &&& q.cqMask).toNat

def cqeColor (pos : ℕ) : Bool := UInt32.ofNat pos &&& (q.cqMask + 1) == 0

end Queue

def behind (msn cons : UInt32) : Bool := (msn - cons) &&& 0x800000 != 0

def passes (sqDbprod dbprod : UInt32) : Bool := (sqDbprod - dbprod) &&& ((1 : UInt32) <<< 31) != 0

structure Cqe where
  count : ℕ
  color : Bool
  deriving DecidableEq, Repr

def msn (count : ℕ) : UInt32 := UInt32.ofNat (count % 2 ^ 24)

/-- A slot of the send queue: the WQE whose fields stand in it, and the WQE that stored the
flags last, with its `IONIC_V1_FLAG_SIG`. -/
structure Slot where
  body : Option ℕ
  flags : Option (ℕ × Bool)
  deriving DecidableEq, Repr

def Slot.color (q : Queue) (x : Slot) : Bool := x.flags.any fun f => q.wqeColor f.1

inductive Wait where
  | reserve (prod n : ℕ)
  | quiet (upto : ℕ)
  deriving DecidableEq, Repr

def Wait.cons (q : Queue) : Wait → UInt32
  | .reserve prod n => UInt32.ofNat prod + UInt32.ofNat n - q.sqMask
  | .quiet upto => UInt32.ofNat upto

def Wait.target (q : Queue) : Wait → ℤ
  | .reserve prod n => prod + n - (q.size - 1)
  | .quiet upto => upto

inductive Wave where
  | idle
  | checking (p : Wait) (single : Bool)
  | contending (p : Wait)
  | polling (p : Wait)
  | writing (prod n : ℕ) (fill flag : List ℕ)
  | locked (prod n : ℕ)
  | rung (prod n : ℕ)
  deriving DecidableEq, Repr

/-- `reserved`, `dbprod`, `cqPos` and `shown` are the exact values of `sq_prod`, `sq_dbprod`,
`cq_pos` and `sq_msn`; `executed`, `completed`, `reported` and `signaled` belong to the NIC. -/
structure State where
  reserved : ℕ
  dbprod : ℕ
  cqPos : ℕ
  shown : ℕ
  slots : ℕ → Slot
  cq : ℕ → Cqe
  sqLock : Option ℕ
  cqLock : Option ℕ
  executed : ℕ
  completed : ℕ
  reported : ℕ
  signaled : ℕ → Bool
  waves : ℕ → Wave

def initial : State :=
  ⟨0, 0, 0, 0, fun _ => ⟨none, none⟩, fun _ => ⟨0, false⟩, none, none, 0, 0, 0, fun _ => false,
    fun _ => .idle⟩

namespace State

variable (s : State)

def sqMsn : UInt32 := msn s.shown

def readsEntry (q : Queue) (single : Bool) : Bool := single || q.cqMask == 0

def readCount (q : Queue) (single : Bool) : ℕ :=
  if readsEntry q single then (s.cq 0).count else s.shown

def setWave (w : ℕ) (c : Wave) : State := { s with waves := update s.waves w c }

def setSlot (i : ℕ) (x : Slot) : State := { s with slots := update s.slots i x }

def pollLane (q : Queue) (lanes : ℕ) : Option ℕ :=
  (List.range lanes).reverse.find? fun lane =>
    (s.cq (q.cqSlotOf (s.cqPos + lane))).color == q.cqeColor (s.cqPos + lane)

def pollWaveCqes (q : Queue) (lanes : ℕ) : State :=
  match s.pollLane q lanes with
  | some lane =>
    { s with
      cqPos := s.cqPos + lane + 1
      shown := (s.cq (q.cqSlotOf (s.cqPos + lane))).count }
  | none => s

def report (q : Queue) : State :=
  { s with
    cq := update s.cq (q.cqSlotOf s.reported) ⟨s.completed, q.cqeColor s.reported⟩
    reported := s.reported + 1 }

end State

def resume : Wait → Wave
  | .reserve prod n => .writing prod n (List.range n) []
  | .quiet _ => .idle

def afterCommit (prod n : ℕ) : Option Bool → Wave
  | some single => .checking (.quiet (prod + n)) single
  | none => .idle

inductive Event where
  | reserve (w n : ℕ) (single : Bool)
  | quiet (w : ℕ) (single : Bool)
  | check (w : ℕ)
  | tryLock (w : ℕ)
  | poll (w lanes : ℕ)
  | unlock (w : ℕ)
  | fill (w lane : ℕ)
  | flag (w lane : ℕ)
  | skip (w : ℕ)
  | lock (w : ℕ)
  | ring (w : ℕ)
  | release (w : ℕ) (fetching : Option Bool)
  | execute
  | complete
  deriving DecidableEq, Repr

def step (q : Queue) (s : State) : Event → Option State
  | .reserve w n single =>
    match s.waves w with
    | .idle =>
      if 0 < n ∧ n ≤ 64 then
        some { s.setWave w (.checking (.reserve s.reserved n) single) with
          reserved := s.reserved + n }
      else none
    | _ => none
  | .quiet w single =>
    match s.waves w with
    | .idle => some (s.setWave w (.checking (.quiet s.reserved) single))
    | _ => none
  | .check w =>
    match s.waves w with
    | .checking p single =>
      if behind (msn (s.readCount q single)) (p.cons q) then
        some (s.setWave w (if State.readsEntry q single then .checking p single else .contending p))
      else some (s.setWave w (resume p))
    | _ => none
  | .tryLock w =>
    match s.waves w with
    | .contending p =>
      if s.cqLock = none then some { s.setWave w (.polling p) with cqLock := some w }
      else some (s.setWave w (.checking p false))
    | _ => none
  | .poll w lanes =>
    match s.waves w with
    | .polling p =>
      if behind s.sqMsn (p.cons q) ∧ 0 < lanes ∧ lanes ≤ 64 then some (s.pollWaveCqes q lanes)
      else none
    | _ => none
  | .unlock w =>
    match s.waves w with
    | .polling p =>
      if behind s.sqMsn (p.cons q) then none
      else some { s.setWave w (resume p) with cqLock := none }
    | _ => none
  | .fill w lane =>
    match s.waves w with
    | .writing prod n fill flag =>
      if lane ∈ fill then
        some ((s.setSlot (q.slotOf (prod + lane))
          { s.slots (q.slotOf (prod + lane)) with body := some (prod + lane) }).setWave w
          (.writing prod n (fill.erase lane) (lane :: flag)))
      else none
    | _ => none
  | .flag w lane =>
    match s.waves w with
    | .writing prod n fill flag =>
      if lane ∈ flag then
        some ((s.setSlot (q.slotOf (prod + lane))
          { s.slots (q.slotOf (prod + lane)) with
            flags := some (prod + lane, lane + 1 == n) }).setWave w
          (.writing prod n fill (flag.erase lane)))
      else none
    | _ => none
  | .skip w =>
    match s.waves w with
    | .writing _ _ [] [] => some (s.setWave w .idle)
    | _ => none
  | .lock w =>
    match s.waves w with
    | .writing prod n [] [] =>
      if s.sqLock = none then some { s.setWave w (.locked prod n) with sqLock := some w } else none
    | _ => none
  | .ring w =>
    match s.waves w with
    | .locked prod n =>
      some { s.setWave w (.rung prod n) with
        dbprod :=
          if passes (UInt32.ofNat s.dbprod) (UInt32.ofNat prod + UInt32.ofNat n) then prod + n
          else s.dbprod }
    | _ => none
  | .release w fetching =>
    match s.waves w with
    | .rung prod n => some { s.setWave w (afterCommit prod n fetching) with sqLock := none }
    | _ => none
  | .execute =>
    if (s.slots (q.slotOf s.executed)).color q = q.wqeColor s.executed then
      some { s with
        executed := s.executed + 1
        signaled := update s.signaled s.executed
          ((s.slots (q.slotOf s.executed)).flags.any Prod.snd) }
    else none
  | .complete =>
    if s.completed < s.executed then
      if s.signaled s.completed then some (State.report { s with completed := s.completed + 1 } q)
      else some { s with completed := s.completed + 1 }
    else none

def machine (q : Queue) : Machine State Event := .ofStep initial (step q)

instance (q : Queue) (s : State) (e : Event) : Decidable ((machine q).enabled s e) :=
  inferInstanceAs (Decidable ((step q s e).isSome = true))

def returning (q : Queue) (s : State) : Event → Option Wait
  | .check w =>
    match s.waves w with
    | .checking p single =>
      if behind (msn (s.readCount q single)) (p.cons q) then none else some p
    | _ => none
  | .unlock w =>
    match s.waves w with
    | .polling p => if behind s.sqMsn (p.cons q) then none else some p
    | _ => none
  | _ => none

def Windowed (q : Queue) (s : State) : Event → Prop
  | .check w => ∀ p single, s.waves w = .checking p single →
      p.target q ≤ s.readCount q single + 2 ^ 23
  | .unlock w => ∀ p, s.waves w = .polling p → p.target q ≤ s.shown + 2 ^ 23
  | .ring w => ∀ prod n, s.waves w = .locked prod n → s.dbprod < prod + n + 2 ^ 31
  | _ => True

variable {prod n : ℕ}

section Numbers

variable {q : Queue}

theorem Queue.size_pos : 0 < q.size := Nat.two_pow_pos _

theorem Queue.size_le : q.size ≤ 2 ^ 23 := Nat.pow_le_pow_right (by decide) q.sqLog_le

theorem Queue.slotOf_eq (pos : ℕ) : q.slotOf pos = pos % q.size :=
  WrappingRings.toNat_and_mask pos (by have := q.sqLog_le; omega)

theorem Queue.wqeColor_eq (pos : ℕ) : q.wqeColor pos = decide (pos / q.size % 2 = 0) :=
  WrappingRings.and_round_bit pos (by have := q.sqLog_le; omega)

theorem toNat_sqMask : q.sqMask.toNat = q.size - 1 := by
  have := q.size_le
  rw [Queue.sqMask, UInt32.toNat_ofNat']
  omega

theorem Wait.cons_mod (p : Wait) : ((p.cons q).toNat : ℤ) % 2 ^ 24 = p.target q % 2 ^ 24 := by
  cases p with
  | reserve prod n =>
    have := q.size_le
    have := q.size_pos
    rw [Wait.cons, Wait.target, UInt32.toNat_sub, UInt32.toNat_add, toNat_sqMask,
      UInt32.toNat_ofNat', UInt32.toNat_ofNat']
    omega
  | quiet upto =>
    rw [Wait.cons, Wait.target, UInt32.toNat_ofNat']
    omega

theorem target_le_of_not_behind {p : Wait} {count : ℕ} (hw : p.target q ≤ count + 2 ^ 23)
    (h : behind (msn count) (p.cons q) = false) : p.target q ≤ count := by
  have hbit := mt (WrappingRings.sub_bit_iff (msn count) (p.cons q) (i := 23) (by decide)).mpr
    (ne_true_of_eq_false h)
  rw [msn, UInt32.toNat_sub, UInt32.toNat_ofNat'] at hbit
  have := (p.cons q).toNat_lt
  have := p.cons_mod (q := q)
  omega

theorem le_of_passes {dbprod : ℕ} (hw : dbprod < prod + n + 2 ^ 31)
    (h : passes (UInt32.ofNat dbprod) (UInt32.ofNat prod + UInt32.ofNat n) = true) :
    dbprod ≤ prod + n := by
  have hbit := (WrappingRings.sub_bit_iff (UInt32.ofNat dbprod)
    (UInt32.ofNat prod + UInt32.ofNat n) (i := 31) (by decide)).mp h
  rw [UInt32.toNat_sub, UInt32.toNat_add, UInt32.toNat_ofNat', UInt32.toNat_ofNat',
    UInt32.toNat_ofNat'] at hbit
  omega

end Numbers

def Wave.Owns : Wave → ℕ → Prop
  | .checking (.reserve prod n) _, p | .contending (.reserve prod n), p
  | .polling (.reserve prod n), p => prod ≤ p ∧ p < prod + n
  | .writing prod _ fill flag, p => ∃ lane, (lane ∈ fill ∨ lane ∈ flag) ∧ p = prod + lane
  | _, _ => False

def Wave.Lacks : Wave → ℕ → Prop
  | .checking (.reserve prod n) _, p | .contending (.reserve prod n), p
  | .polling (.reserve prod n), p => prod ≤ p ∧ p < prod + n
  | .writing prod _ fill _, p => ∃ lane, lane ∈ fill ∧ p = prod + lane
  | _, _ => False

structure Granted (q : Queue) (s : State) (c : Wave) : Prop where
  room : ∀ {prod n fill flag}, c = .writing prod n fill flag →
    prod + n ≤ s.completed + (q.size - 1)
  lane_lt : ∀ {prod n fill flag lane}, c = .writing prod n fill flag →
    lane ∈ fill ∨ lane ∈ flag → lane < n
  nodup : ∀ {prod n fill flag}, c = .writing prod n fill flag → (fill ++ flag).Nodup
  filled : ∀ {prod n fill flag lane}, c = .writing prod n fill flag → lane ∈ flag →
    (s.slots (q.slotOf (prod + lane))).body = some (prod + lane)

structure Inv (q : Queue) (s : State) : Prop where
  shown_le : s.shown ≤ s.completed
  cq_le : ∀ i, (s.cq i).count ≤ s.completed
  completed_le : s.completed ≤ s.executed
  executed_le : s.executed ≤ s.reserved
  granted : ∀ w, Granted q s (s.waves w)
  owned : ∀ {w p}, (s.waves w).Owns p → s.executed ≤ p ∧ p < s.reserved
  disjoint : ∀ {w w' p}, (s.waves w).Owns p → (s.waves w').Owns p → w = w'
  body : ∀ {i b}, (s.slots i).body = some b →
    i = q.slotOf b ∧ b < s.completed + q.size ∧ b < s.reserved ∧ ∀ w, ¬ (s.waves w).Lacks b
  flags : ∀ {i r sig}, (s.slots i).flags = some (r, sig) →
    i = q.slotOf r ∧ r < s.completed + q.size ∧ r < s.reserved ∧ ∀ w, ¬ (s.waves w).Owns r
  whole : ∀ {i r sig}, (s.slots i).flags = some (r, sig) → s.executed ≤ r →
    (s.slots i).body = some r
  flagged : ∀ {p}, p < s.executed →
    ∃ r sig, (s.slots (q.slotOf p)).flags = some (r, sig) ∧ p ≤ r

theorem Wave.Lacks.owns {c : Wave} {p : ℕ} (h : c.Lacks p) : c.Owns p := by
  match c, h with
  | .checking (.reserve _ _) _, h | .contending (.reserve _ _), h | .polling (.reserve _ _), h =>
    exact h
  | .writing _ _ _ _, ⟨lane, hl, hp⟩ => exact ⟨lane, .inl hl, hp⟩

theorem inv_initial (q : Queue) : Inv q initial := by
  constructor
  all_goals grind [Granted, initial, Wave.Owns]

def Wave.wait? : Wave → Option Wait
  | .checking p _ | .contending p | .polling p => some p
  | _ => none

section Waves

variable {q : Queue} {s : State} {w : ℕ} {c : Wave}

theorem Wave.owns_of_reserve (h : c.wait? = some (.reserve prod n)) (p : ℕ) :
    (c.Owns p ↔ prod ≤ p ∧ p < prod + n) ∧ (c.Lacks p ↔ prod ≤ p ∧ p < prod + n) := by
  match c, h with
  | .checking _ _, rfl | .contending _, rfl | .polling _, rfl => exact ⟨Iff.rfl, Iff.rfl⟩

theorem Wave.owns_of_wait {p : Wait} {d : Wave} (hc : c.wait? = some p) (hd : d.wait? = some p)
    (x : ℕ) : (c.Owns x → d.Owns x) ∧ (c.Lacks x → d.Lacks x) := by
  cases p with
  | reserve prod n =>
    have hc' := owns_of_reserve hc x
    grind [Wave.owns_of_reserve]
  | quiet upto =>
    match c, hc with
    | .checking _ _, rfl | .contending _, rfl | .polling _, rfl => exact ⟨False.elim, False.elim⟩

theorem Granted.of_not_writing (h : ∀ {prod n fill flag}, c ≠ .writing prod n fill flag) :
    Granted q s c :=
  ⟨fun hc => absurd hc h, fun hc => absurd hc h, fun hc => absurd hc h, fun hc => absurd hc h⟩

theorem Granted.of_wait {p : Wait} (h : c.wait? = some p) : Granted q s c :=
  .of_not_writing fun hc => by rw [hc] at h; cases h

theorem setWave_of {R : Wave → ℕ → Prop} (hR : ∀ p, R c p → R (s.waves w) p) {v p : ℕ}
    (hv : R ((s.setWave w c).waves v) p) : R (s.waves v) p := by
  by_cases hvw : v = w
  · subst hvw
    exact hR p (by simpa [State.setWave] using hv)
  · simpa [State.setWave, hvw] using hv

theorem Inv.setWave (h : Inv q s) (hown : ∀ p, c.Owns p → (s.waves w).Owns p)
    (hlack : ∀ p, c.Lacks p → (s.waves w).Lacks p) (hc : Granted q s c) :
    Inv q (s.setWave w c) := by
  refine ⟨h.shown_le, h.cq_le, h.completed_le, h.executed_le, fun v => ?_,
    fun hv => h.owned (setWave_of hown hv),
    fun hv hv' => h.disjoint (setWave_of hown hv) (setWave_of hown hv'), fun hb => ?_,
    fun hf => ?_, h.whole, h.flagged⟩
  · have hg : Granted q s ((s.setWave w c).waves v) := by
      by_cases hvw : v = w
      · subst hvw
        simpa [State.setWave] using hc
      · simpa [State.setWave, hvw] using h.granted v
    exact { hg with }
  · obtain ⟨hi, hlt, hr, hno⟩ := h.body hb
    exact ⟨hi, hlt, hr, fun v hv => hno v (setWave_of hlack hv)⟩
  · obtain ⟨hi, hlt, hr, hno⟩ := h.flags hf
    exact ⟨hi, hlt, hr, fun v hv => hno v (setWave_of hown hv)⟩

theorem Inv.keepWait (h : Inv q s) {p : Wait} (hw : (s.waves w).wait? = some p)
    (hc : c.wait? = some p) : Inv q (s.setWave w c) :=
  h.setWave (fun x => (Wave.owns_of_wait hc hw x).1) (fun x => (Wave.owns_of_wait hc hw x).2)
    (.of_wait hc)

theorem Inv.disown (h : Inv q s) (hown : ∀ p, ¬ c.Owns p)
    (hc : ∀ {prod n fill flag}, c ≠ .writing prod n fill flag) : Inv q (s.setWave w c) :=
  h.setWave (fun p hp => absurd hp (hown p)) (fun p hp => absurd hp.owns (hown p))
    (.of_not_writing hc)

theorem Inv.resume (h : Inv q s) {p : Wait} (hw : (s.waves w).wait? = some p)
    (ht : p.target q ≤ s.completed) : Inv q (s.setWave w (resume p)) := by
  cases p with
  | quiet upto => exact h.disown (fun _ => id) (fun hc => by cases hc)
  | reserve prod n =>
    have hmem : ∀ x, (∃ lane, lane ∈ List.range n ∧ x = prod + lane) →
        prod ≤ x ∧ x < prod + n := by
      rintro x ⟨lane, hl, rfl⟩
      have := List.mem_range.mp hl
      omega
    refine h.setWave (fun x hx => ?_) (fun x hx => ?_) ⟨?_, ?_, ?_, ?_⟩
    · obtain ⟨lane, hl | hl, hp⟩ := hx
      · exact (Wave.owns_of_reserve hw x).1.mpr (hmem x ⟨lane, hl, hp⟩)
      · cases hl
    · exact (Wave.owns_of_reserve hw x).2.mpr (hmem x hx)
    · rintro _ _ _ _ ⟨⟩
      have := q.size_pos
      rw [Wait.target] at ht
      omega
    · rintro _ _ _ _ lane ⟨⟩ (hl | hl)
      · exact List.mem_range.mp hl
      · cases hl
    · rintro _ _ _ _ ⟨⟩
      simpa using List.nodup_range
    · rintro _ _ _ _ lane ⟨⟩ hl
      cases hl

theorem Inv.frame (h : Inv q s) (sqLock cqLock : Option ℕ) (dbprod cqPos : ℕ) :
    Inv q { s with sqLock, cqLock, dbprod, cqPos } :=
  { h with
      granted := fun w => { h.granted w with } }

end Waves

variable {lane : ℕ}

section Steps

variable {q : Queue} {s : State} {w : ℕ} {c : Wave}

theorem Inv.reserve (h : Inv q s) (hw : s.waves w = .idle) (n : ℕ) (single : Bool) :
    Inv q { s.setWave w (.checking (.reserve s.reserved n) single) with
      reserved := s.reserved + n } := by
  have hcases : ∀ {v p}, ((s.setWave w (.checking (.reserve s.reserved n) single)).waves v).Owns p →
      (v = w ∧ s.reserved ≤ p ∧ p < s.reserved + n) ∨ (s.waves v).Owns p := by
    intro v p hv
    by_cases hvw : v = w
    · subst hvw
      exact .inl ⟨rfl, by simpa [State.setWave, Wave.Owns] using hv⟩
    · exact .inr (by simpa [State.setWave, hvw] using hv)
  have hbelow : ∀ {v p}, p < s.reserved → (∀ v, ¬ (s.waves v).Owns p) →
      ¬ ((s.setWave w (.checking (.reserve s.reserved n) single)).waves v).Owns p := by
    grind
  refine ⟨h.shown_le, h.cq_le, h.completed_le, Nat.le_add_right_of_le h.executed_le, fun v => ?_,
    fun hv => ?_, fun hv hv' => ?_, fun hb => ?_, fun hf => ?_, h.whole, h.flagged⟩
  · by_cases hvw : v = w
    · subst hvw
      exact .of_wait (p := .reserve s.reserved n) (by simp [State.setWave, Wave.wait?])
    · have hg := h.granted v
      simp only [State.setWave, update_of_ne hvw]
      exact { hg with }
  · grind [State.setWave, Inv]
  · grind [Inv]
  · obtain ⟨hi, hlt, hr, hno⟩ := h.body hb
    refine ⟨hi, hlt, Nat.lt_add_right n hr, fun v hv => ?_⟩
    by_cases hvw : v = w
    · subst hvw
      have := (hv : ((s.setWave v _).waves v).Lacks _)
      simp only [State.setWave, update_self, Wave.Lacks] at this
      omega
    · exact hno v (by simpa [State.setWave, hvw] using hv)
  · obtain ⟨hi, hlt, hr, hno⟩ := h.flags hf
    exact ⟨hi, hlt, Nat.lt_add_right n hr, fun v => hbelow hr hno⟩

theorem lt_completed {x p : ℕ} (hs : q.slotOf x = q.slotOf p) (hx : x < s.completed + q.size)
    (hp : s.completed ≤ p) (hroom : p < s.completed + q.size) (hne : x ≠ p) : x < s.completed := by
  rw [q.slotOf_eq, q.slotOf_eq] at hs
  rcases Nat.lt_or_gt_of_ne hne with hlt | hgt
  · have := WrappingRings.add_le_of_mod_eq hs hlt
    omega
  · have := WrappingRings.add_le_of_mod_eq hs.symm hgt
    omega

theorem Inv.writing (h : Inv q s) {fill flag : List ℕ}
    (hw : s.waves w = .writing prod n fill flag) (hl : lane ∈ fill ∨ lane ∈ flag) :
    (s.waves w).Owns (prod + lane) ∧ s.executed ≤ prod + lane ∧ prod + lane < s.reserved ∧
      prod + lane < s.completed + q.size := by
  have hown : (s.waves w).Owns (prod + lane) := by
    rw [hw]
    exact ⟨lane, hl, rfl⟩
  have hroom := (h.granted w).room hw
  have hlt := (h.granted w).lane_lt hw hl
  have := q.size_pos
  exact ⟨hown, (h.owned hown).1, (h.owned hown).2, by omega⟩

theorem Inv.writing_inj (h : Inv q s) {v prod' n' lane' : ℕ}
    {fill flag fill' flag' : List ℕ} (hw : s.waves w = .writing prod n fill flag)
    (hl : lane ∈ fill ∨ lane ∈ flag) (hv : s.waves v = .writing prod' n' fill' flag')
    (hl' : lane' ∈ fill' ∨ lane' ∈ flag')
    (heq : q.slotOf (prod' + lane') = q.slotOf (prod + lane)) :
    v = w ∧ prod' + lane' = prod + lane := by
  obtain ⟨hown, hge, -, hlt⟩ := h.writing hw hl
  obtain ⟨hown', hge', -, hlt'⟩ := h.writing hv hl'
  have := h.completed_le
  rw [q.slotOf_eq, q.slotOf_eq] at heq
  have hpos := WrappingRings.eq_of_mod_eq heq (by omega) (by omega)
  rw [hpos] at hown'
  exact ⟨h.disjoint hown' hown, hpos⟩

theorem Inv.write (h : Inv q s) {i : ℕ} {x : Slot}
    (hown : ∀ p, c.Owns p → (s.waves w).Owns p) (hlack : ∀ p, c.Lacks p → (s.waves w).Lacks p)
    (hothers : ∀ {v prod n fill flag lane}, v ≠ w → s.waves v = .writing prod n fill flag →
      lane ∈ flag → q.slotOf (prod + lane) ≠ i) (hc : Granted q ((s.setSlot i x).setWave w c) c)
    (hbody : ∀ {b}, x.body = some b → i = q.slotOf b ∧ b < s.completed + q.size ∧ b < s.reserved ∧
        ∀ v, ¬ ((s.setWave w c).waves v).Lacks b) (hflags : ∀ {r sig}, x.flags = some (r, sig) →
      i = q.slotOf r ∧ r < s.completed + q.size ∧ r < s.reserved ∧
        ∀ v, ¬ ((s.setWave w c).waves v).Owns r)
    (hwhole : ∀ {r sig}, x.flags = some (r, sig) → s.executed ≤ r → x.body = some r)
    (hflagged : ∀ {p}, p < s.executed → q.slotOf p = i → ∃ r sig, x.flags = some (r, sig) ∧ p ≤ r) :
    Inv q ((s.setSlot i x).setWave w c) := by
  have hself : ((s.setSlot i x).setWave w c).slots i = x := update_self ..
  have hne : ∀ {j}, j ≠ i → ((s.setSlot i x).setWave w c).slots j = s.slots j :=
    fun hj => update_of_ne hj ..
  refine ⟨h.shown_le, h.cq_le, h.completed_le, h.executed_le, fun v => ?_,
    fun hv => h.owned (setWave_of hown hv),
    fun hv hv' => h.disjoint (setWave_of hown hv) (setWave_of hown hv'),
    fun {j b} hb => ?_, fun {j r sig} hf => ?_, fun {j r sig} hf hr => ?_, fun {p} hp => ?_⟩
  · by_cases hvw : v = w
    · subst hvw
      simpa [State.setWave] using hc
    · have hv : ((s.setSlot i x).setWave w c).waves v = s.waves v := update_of_ne hvw ..
      have hg := h.granted v
      rw [hv]
      refine ⟨hg.room, hg.lane_lt, hg.nodup, fun hcv hl => ?_⟩
      rw [hne (hothers hvw hcv hl)]
      exact hg.filled hcv hl
  · by_cases hj : j = i
    · subst hj
      rw [hself] at hb
      exact hbody hb
    · rw [hne hj] at hb
      obtain ⟨hi, hlt, hr, hno⟩ := h.body hb
      exact ⟨hi, hlt, hr, fun v hv => hno v (setWave_of hlack hv)⟩
  · by_cases hj : j = i
    · subst hj
      rw [hself] at hf
      exact hflags hf
    · rw [hne hj] at hf
      obtain ⟨hi, hlt, hr, hno⟩ := h.flags hf
      exact ⟨hi, hlt, hr, fun v hv => hno v (setWave_of hown hv)⟩
  · grind [State.setWave, Inv, State.setSlot]
  · by_cases hj : q.slotOf p = i
    · rw [hj, hself]
      exact hflagged hp hj
    · rw [hne hj]
      exact h.flagged hp

theorem Inv.flags_lt (h : Inv q s) {r : ℕ} {fill flag : List ℕ} {sig : Bool}
    (hw : s.waves w = .writing prod n fill flag) (hl : lane ∈ fill ∨ lane ∈ flag)
    (hf : (s.slots (q.slotOf (prod + lane))).flags = some (r, sig)) : r < s.completed := by
  obtain ⟨hown, hge, -, hroom⟩ := h.writing hw hl
  obtain ⟨hi, hlt, -, hno⟩ := h.flags hf
  have hne : r ≠ prod + lane := by
    rintro rfl
    exact hno w hown
  exact lt_completed hi.symm hlt (h.completed_le.trans hge) hroom hne

theorem Inv.fill (h : Inv q s) {fill flag : List ℕ}
    (hw : s.waves w = .writing prod n fill flag) (hl : lane ∈ fill) :
    Inv q ((s.setSlot (q.slotOf (prod + lane))
      { s.slots (q.slotOf (prod + lane)) with body := some (prod + lane) }).setWave w
      (.writing prod n (fill.erase lane) (lane :: flag))) := by
  obtain ⟨hown, hge, hres, hroom⟩ := h.writing hw (.inl hl)
  have hnd := (h.granted w).nodup hw
  have hndfill := (List.nodup_append.mp hnd).1
  have hle := h.completed_le
  have hsub : ∀ {l}, l ∈ fill.erase lane ∨ l ∈ lane :: flag → l ∈ fill ∨ l ∈ flag := by
    grind
  have hownsub : ∀ p, (Wave.writing prod n (fill.erase lane) (lane :: flag)).Owns p →
      (s.waves w).Owns p := by
    rintro p ⟨l, hm, hp⟩
    rw [hw]
    exact ⟨l, hsub hm, hp⟩
  refine h.write hownsub ?_ ?_ ⟨?_, ?_, ?_, ?_⟩ ?_ ?_ ?_ ?_
  · rintro p ⟨l, hm, hp⟩
    rw [hw]
    exact ⟨l, List.mem_of_mem_erase hm, hp⟩
  · intro v _ _ _ _ l hvw hv hm heq
    exact hvw (h.writing_inj hw (.inl hl) hv (.inr hm) heq).1
  · rintro _ _ _ _ ⟨⟩
    exact (h.granted w).room hw
  · rintro _ _ _ _ l ⟨⟩ hm
    exact (h.granted w).lane_lt hw (hsub hm)
  · grind
  · rintro _ _ _ _ l ⟨⟩ hm
    rcases List.mem_cons.mp hm with rfl | hflag
    · simp [State.setWave, State.setSlot]
    · by_cases heq : q.slotOf (prod + l) = q.slotOf (prod + lane)
      · grind [Inv.writing_inj]
      · have hold := (h.granted w).filled hw hflag
        simpa [State.setWave, State.setSlot, heq] using hold
  · rintro b ⟨⟩
    refine ⟨rfl, hroom, hres, fun v hv => ?_⟩
    by_cases hvw : v = w
    · subst hvw
      simp only [State.setWave, update_self, Wave.Lacks] at hv
      grind
    · have hlacks : (s.waves v).Lacks (prod + lane) := by
        simpa [State.setWave, hvw] using hv
      exact hvw (h.disjoint hlacks.owns hown)
  · intro r sig hf
    obtain ⟨hi, hlt, hr, hno⟩ := h.flags hf
    exact ⟨hi, hlt, hr, fun v hv => hno v (setWave_of hownsub hv)⟩
  · intro r sig hf hr
    have := h.flags_lt hw (.inl hl) hf
    omega
  · intro p hp heq
    rw [← heq]
    exact h.flagged hp

theorem Inv.flag (h : Inv q s) {fill flag : List ℕ}
    (hw : s.waves w = .writing prod n fill flag) (hl : lane ∈ flag) (sig : Bool) :
    Inv q ((s.setSlot (q.slotOf (prod + lane))
      { s.slots (q.slotOf (prod + lane)) with flags := some (prod + lane, sig) }).setWave w
      (.writing prod n fill (flag.erase lane))) := by
  obtain ⟨hown, hge, hres, hroom⟩ := h.writing hw (.inr hl)
  have hnd := (h.granted w).nodup hw
  have hsub : ∀ {l}, l ∈ fill ∨ l ∈ flag.erase lane → l ∈ fill ∨ l ∈ flag :=
    fun hm => hm.imp_right List.mem_of_mem_erase
  have hownsub : ∀ p, (Wave.writing prod n fill (flag.erase lane)).Owns p →
      (s.waves w).Owns p := by
    rintro p ⟨l, hm, hp⟩
    rw [hw]
    exact ⟨l, hsub hm, hp⟩
  have hlacksub : ∀ p, (Wave.writing prod n fill (flag.erase lane)).Lacks p →
      (s.waves w).Lacks p := by
    intro p hp
    rw [hw]
    exact hp
  refine h.write hownsub hlacksub ?_ ⟨?_, ?_, ?_, ?_⟩ ?_ ?_ ?_ ?_
  · intro v _ _ _ _ l hvw hv hm heq
    exact hvw (h.writing_inj hw (.inr hl) hv (.inr hm) heq).1
  · rintro _ _ _ _ ⟨⟩
    exact (h.granted w).room hw
  · rintro _ _ _ _ l ⟨⟩ hm
    exact (h.granted w).lane_lt hw (hsub hm)
  · rintro _ _ _ _ ⟨⟩
    exact hnd.sublist (List.erase_sublist.append_left fill)
  · rintro _ _ _ _ l ⟨⟩ hm
    have hold := (h.granted w).filled hw (List.mem_of_mem_erase hm)
    by_cases heq : q.slotOf (prod + l) = q.slotOf (prod + lane)
    · simpa [State.setWave, State.setSlot, heq] using heq ▸ hold
    · simpa [State.setWave, State.setSlot, heq] using hold
  · intro b hb
    obtain ⟨hi, hlt, hr, hno⟩ := h.body hb
    exact ⟨hi, hlt, hr, fun v hv => hno v (setWave_of hlacksub hv)⟩
  · rintro r sig' ⟨⟩
    refine ⟨rfl, hroom, hres, fun v hv => ?_⟩
    by_cases hvw : v = w
    · subst hvw
      simp only [State.setWave, update_self, Wave.Owns] at hv
      grind
    · have howns : (s.waves v).Owns (prod + lane) := by
        simpa [State.setWave, hvw] using hv
      exact hvw (h.disjoint howns hown)
  · rintro r sig' ⟨⟩ -
    exact (h.granted w).filled hw hl
  · intro p hp heq
    exact ⟨prod + lane, sig, rfl, by omega⟩

end Steps

section Nic

variable {q : Queue} {s : State}

theorem Inv.own_slot (h : Inv q s)
    (hcol : (s.slots (q.slotOf s.executed)).color q = q.wqeColor s.executed) :
    ∃ sig, s.slots (q.slotOf s.executed) = ⟨some s.executed, some (s.executed, sig)⟩ := by
  have hpos := q.size_pos
  have hle := h.completed_le
  -- a slot of a later round was written when the slot's last WQE was executed
  have hprev : q.size ≤ s.executed → ∃ r sig,
      (s.slots (q.slotOf s.executed)).flags = some (r, sig) ∧ s.executed ≤ r + q.size := by
    intro hge
    obtain ⟨r, sig, hf, hr⟩ := h.flagged (p := s.executed - q.size) (by omega)
    have hslot : q.slotOf (s.executed - q.size) = q.slotOf s.executed := by
      rw [q.slotOf_eq, q.slotOf_eq, Nat.mod_eq_sub_mod hge]
    exact ⟨r, sig, hslot ▸ hf, by omega⟩
  rw [Slot.color, q.wqeColor_eq] at hcol
  cases hf : (s.slots (q.slotOf s.executed)).flags with
  | none =>
    rw [hf, Option.any_none] at hcol
    have hge : q.size ≤ s.executed := by
      by_contra hlt
      rw [Nat.div_eq_of_lt (by omega)] at hcol
      exact absurd hcol (by decide)
    obtain ⟨r, sig, hf', -⟩ := hprev hge
    rw [hf] at hf'
    cases hf'
  | some f =>
    obtain ⟨r, sig⟩ := f
    rw [hf, Option.any_some, q.wqeColor_eq, decide_eq_decide] at hcol
    obtain ⟨hslot, hlt, -, -⟩ := h.flags hf
    rw [q.slotOf_eq, q.slotOf_eq] at hslot
    have hr : r = s.executed := by
      rcases Nat.lt_trichotomy r s.executed with hr | hr | hr
      · have hpar : r / q.size % 2 = s.executed / q.size % 2 := by
          grind
        have htwo := WrappingRings.two_rounds_of_parity hpos hslot.symm hpar hr
        grind
      · exact hr
      · have := WrappingRings.add_le_of_mod_eq hslot hr
        omega
    subst hr
    have hbody := h.whole hf le_rfl
    refine ⟨sig, ?_⟩
    cases hx : s.slots (q.slotOf s.executed) with
    | mk body flags =>
      rw [hx] at hf hbody
      rw [← hf, ← hbody]

theorem Inv.execute (h : Inv q s) (signaled : ℕ → Bool)
    (hcol : (s.slots (q.slotOf s.executed)).color q = q.wqeColor s.executed) :
    Inv q { s with executed := s.executed + 1, signaled } := by
  obtain ⟨sig, hslot⟩ := h.own_slot hcol
  have hf : (s.slots (q.slotOf s.executed)).flags = some (s.executed, sig) := by rw [hslot]
  obtain ⟨-, -, hres, hno⟩ := h.flags hf
  refine ⟨h.shown_le, h.cq_le, Nat.le_succ_of_le h.completed_le, hres, fun w => ?_,
    fun {w p} hp => ?_, h.disjoint, h.body, h.flags, fun hf hr => h.whole hf (Nat.le_of_succ_le hr),
    fun {p} hp => ?_⟩
  · have hg := h.granted w
    exact { hg with }
  · grind [Inv]
  · rcases Nat.lt_succ_iff_lt_or_eq.mp hp with hlt | rfl
    · exact h.flagged hlt
    · exact ⟨s.executed, sig, hf, le_rfl⟩

theorem Inv.complete (h : Inv q s) (hlt : s.completed < s.executed) :
    Inv q { s with completed := s.completed + 1 } := by
  refine ⟨Nat.le_succ_of_le h.shown_le, fun i => Nat.le_succ_of_le (h.cq_le i), hlt, h.executed_le,
    fun w => ?_, h.owned, h.disjoint, fun hb => ?_, fun hf => ?_, h.whole, h.flagged⟩
  · have hg := h.granted w
    refine { hg with room := fun hc => ?_ }
    have := hg.room hc
    change _ ≤ s.completed + 1 + _
    omega
  all_goals grind [Inv]

theorem Inv.report (h : Inv q s) : Inv q (s.report q) := by
  refine { h with
      cq_le := fun i => ?_
      granted := fun w => { h.granted w with } }
  change (update s.cq _ _ i).count ≤ s.completed
  grind [Inv]

theorem Inv.poll (h : Inv q s) (lanes : ℕ) : Inv q (s.pollWaveCqes q lanes) := by
  unfold State.pollWaveCqes
  split
  · exact { h with
      shown_le := h.cq_le _
      granted := fun w => { h.granted w with } }
  · exact h

theorem Inv.readCount_le (h : Inv q s) (single : Bool) : s.readCount q single ≤ s.completed := by
  unfold State.readCount
  split
  · exact h.cq_le 0
  · exact h.shown_le

end Nic

section Runs

variable {q : Queue} {s t : State} {e : Event} {p : Wait}

theorem returning_cases (h : returning q s e = some p) :
    (∃ w single, e = .check w ∧ s.waves w = .checking p single ∧
      behind (msn (s.readCount q single)) (p.cons q) = false) ∨
    (∃ w, e = .unlock w ∧ s.waves w = .polling p ∧ behind s.sqMsn (p.cons q) = false) := by
  cases e with
  | check | unlock =>
    grind [returning]
  | reserve | quiet | tryLock | poll | fill | flag | skip | lock | ring | release | execute
  | complete => cases h

theorem Inv.target_le (h : Inv q s) (hok : Windowed q s e) (hret : returning q s e = some p) :
    p.target q ≤ s.completed := by
  rcases returning_cases hret with ⟨w, single, rfl, hw, hb⟩ | ⟨w, rfl, hw, hb⟩
  · have := target_le_of_not_behind (hok p single hw) hb
    have := h.readCount_le (q := q) single
    omega
  · have := target_le_of_not_behind (hok p hw) hb
    have := h.shown_le
    omega

theorem Inv.preserved (h : Inv q s) (hok : Windowed q s e) (hs : step q s e = some t) :
    Inv q t := by
  cases e with
  | reserve w n single =>
    grind [step, Inv.reserve]
  | quiet | skip =>
    rw [step] at hs
    split at hs
    · cases hs
      exact h.disown (fun _ => id) (fun hc => by cases hc)
    · cases hs
  | check w =>
    rw [step] at hs
    split at hs
    next p single hw =>
      split at hs
      · cases hs
        refine h.keepWait (p := p) (by rw [hw]; rfl) ?_
        split <;> rfl
      next hb =>
        cases hs
        refine h.resume (by rw [hw]; rfl) (h.target_le (e := .check w) hok ?_)
        simp [returning, hw, hb]
    · cases hs
  | tryLock w =>
    rw [step] at hs
    split at hs
    next p hw =>
      split at hs
      · cases hs
        exact (h.keepWait (c := .polling p) (by rw [hw]; rfl) rfl).frame _ _ _ _
      · cases hs
        exact h.keepWait (c := .checking p false) (by rw [hw]; rfl) rfl
    · cases hs
  | poll w lanes =>
    grind [step, Inv.poll]
  | unlock w =>
    rw [step] at hs
    split at hs
    next p hw =>
      split at hs
      · cases hs
      next hb =>
        cases hs
        refine (h.resume (by rw [hw]; rfl) (h.target_le (e := .unlock w) hok ?_)).frame _ _ _ _
        simp [returning, hw, hb]
    · cases hs
  | fill w lane =>
    rw [step] at hs
    split at hs
    next hw =>
      split at hs
      next hl =>
        cases hs
        exact h.fill hw hl
      · cases hs
    · cases hs
  | flag w lane =>
    rw [step] at hs
    split at hs
    next hw =>
      split at hs
      next hl =>
        cases hs
        exact h.flag hw hl _
      · cases hs
    · cases hs
  | lock w =>
    rw [step] at hs
    split at hs
    next prod n hw =>
      split at hs
      · cases hs
        exact (h.disown (c := .locked prod n) (fun _ => id) (fun hc => by cases hc)).frame _ _ _ _
      · cases hs
    · cases hs
  | ring w =>
    rw [step] at hs
    split at hs
    next prod n hw =>
      cases hs
      exact (h.disown (c := .rung prod n) (fun _ => id) (fun hc => by cases hc)).frame _ _ _ _
    · cases hs
  | release w fetching =>
    rw [step] at hs
    split at hs
    next prod n hw =>
      cases hs
      cases fetching with
      | none => exact (h.disown (c := .idle) (fun _ => id) (fun hc => by cases hc)).frame _ _ _ _
      | some single =>
        exact (h.disown (c := .checking (.quiet (prod + n)) single) (fun _ => id)
          (fun hc => by cases hc)).frame _ _ _ _
    · cases hs
  | execute =>
    grind [step, Inv.execute]
  | complete =>
    grind [step, Inv.complete, Inv.report]

theorem inv_of_run (h : (machine q).Run (Windowed q) s) : Inv q s :=
  h.ofStep_induct (inv_initial q) fun _ _ _ hs hok he => hs.preserved hok he

end Runs

instance (q : Queue) (s : State) (e : Event) : Decidable (Windowed q s e) := by
  cases e <;> dsimp only [Windowed]
  case check w =>
    cases s.waves w with
    | checking p single =>
      exact decidable_of_iff (p.target q ≤ s.readCount q single + 2 ^ 23)
        ⟨fun hp _ _ hw => by cases hw; exact hp, fun hok => hok p single rfl⟩
    | _ => exact isTrue nofun
  case unlock w =>
    cases s.waves w with
    | polling p =>
      exact decidable_of_iff (p.target q ≤ s.shown + 2 ^ 23)
        ⟨fun hp _ hw => by cases hw; exact hp, fun hok => hok p rfl⟩
    | _ => exact isTrue nofun
  case ring w =>
    cases s.waves w with
    | locked prod n =>
      exact decidable_of_iff (s.dbprod < prod + n + 2 ^ 31)
        ⟨fun hp _ _ hw => by cases hw; exact hp, fun hok => hok prod n rfl⟩
    | _ => exact isTrue nofun
  all_goals infer_instance

def overwrites (q : Queue) (s : State) : Event → List ℕ
  | .fill w lane =>
    match s.waves w with
    | .writing prod _ _ _ =>
      (s.slots (q.slotOf (prod + lane))).body.toList ++
        (s.slots (q.slotOf (prod + lane))).flags.toList.map Prod.fst
    | _ => []
  | .flag w lane =>
    match s.waves w with
    | .writing prod _ _ _ => (s.slots (q.slotOf (prod + lane))).flags.toList.map Prod.fst
    | _ => []
  | _ => []

section Results

variable {q : Queue} {s t : State} {e : Event}

theorem Inv.body_lt (h : Inv q s) {w b : ℕ} {fill flag : List ℕ}
    (hw : s.waves w = .writing prod n fill flag) (hl : lane ∈ fill)
    (hb : (s.slots (q.slotOf (prod + lane))).body = some b) : b < s.completed := by
  obtain ⟨-, hge, -, hroom⟩ := h.writing hw (.inl hl)
  obtain ⟨hi, hlt, -, hno⟩ := h.body hb
  have hne : b ≠ prod + lane := by
    rintro rfl
    refine hno w ?_
    rw [hw]
    exact ⟨lane, hl, rfl⟩
  exact lt_completed hi.symm hlt (h.completed_le.trans hge) hroom hne

theorem Inv.overwrites_lt (h : Inv q s) (hs : step q s e = some t) {b : ℕ}
    (hb : b ∈ overwrites q s e) : b < s.completed := by
  cases e with
  | fill w lane =>
    rw [step] at hs
    split at hs
    next prod n fill flag hw =>
      split at hs
      next hl =>
        simp only [overwrites, hw, List.mem_append, Option.mem_toList, List.mem_map] at hb
        rcases hb with hb | ⟨⟨r, sig⟩, hf, rfl⟩
        · exact h.body_lt hw hl hb
        · exact h.flags_lt hw (.inl hl) hf
      · cases hs
    · cases hs
  | flag w lane =>
    rw [step] at hs
    split at hs
    next prod n fill flag hw =>
      split at hs
      next hl =>
        simp only [overwrites, hw, Option.mem_toList, List.mem_map] at hb
        obtain ⟨⟨r, sig⟩, hf, rfl⟩ := hb
        exact h.flags_lt hw (.inr hl) hf
      · cases hs
    · cases hs
  | reserve | quiet | check | tryLock | poll | unlock | skip | lock | ring | release | execute
  | complete => cases hb

theorem dbprod_cases (hs : step q s e = some t) :
    t.dbprod = s.dbprod ∨ ∃ w prod n, e = .ring w ∧ s.waves w = .locked prod n ∧
      passes (UInt32.ofNat s.dbprod) (UInt32.ofNat prod + UInt32.ofNat n) = true ∧
      t.dbprod = prod + n := by
  cases e with
  | ring w =>
    grind [step]
  | poll w lanes =>
    grind [step, State.pollWaveCqes]
  | reserve | quiet | check | tryLock | unlock | fill | flag | skip | lock | release | execute
  | complete =>
    left
    simp only [step] at hs
    repeat' split at hs
    all_goals cases hs
    all_goals rfl

theorem dbprod_le (hok : Windowed q s e) (hs : step q s e = some t) : s.dbprod ≤ t.dbprod := by
  rcases dbprod_cases hs with heq | ⟨w, prod, n, rfl, hw, hp, heq⟩
  · exact heq.ge
  · rw [heq]
    exact le_of_passes (hok prod n hw) hp

end Results

section Crowds

variable {q : Queue} {s : State} {c : ℕ}

def crowd (s : State) (c k : ℕ) : State :=
  { s with
    reserved := s.reserved + k
    waves := fun w =>
      if c ≤ w ∧ w < c + k then .checking (.reserve (s.reserved + (w - c)) 1) false
      else s.waves w }

theorem crowd_waves (s : State) (c k w : ℕ) : (crowd s c k).waves w =
      if c ≤ w ∧ w < c + k then .checking (.reserve (s.reserved + (w - c)) 1) false
      else s.waves w := rfl

theorem crowd_step (q : Queue) (hidle : ∀ w, c ≤ w → s.waves w = .idle) (k : ℕ) :
    step q (crowd s c k) (.reserve (c + k) 1 false) = some (crowd s c (k + 1)) := by
  have hw : (crowd s c k).waves (c + k) = .idle := by
    rw [crowd_waves, if_neg (by omega)]
    exact hidle _ (by omega)
  have hwaves : update (crowd s c k).waves (c + k)
      (.checking (.reserve (s.reserved + k) 1) false) = (crowd s c (k + 1)).waves := by
    grind [crowd]
  grind [step, crowd, State.setWave]

theorem crowd_run (hrun : (machine q).Run anyStep s)
    (hidle : ∀ w, c ≤ w → s.waves w = .idle) (k : ℕ) :
    (machine q).Run anyStep (crowd s c k) := by
  induction k with
  | zero =>
    have hzero : crowd s c 0 = s := by
      have hwaves : (crowd s c 0).waves = s.waves := by
        funext w
        rw [crowd_waves, if_neg (by omega)]
      cases s
      exact congrArg (State.mk _ _ _ _ _ _ _ _ _ _ _ _) hwaves
    rw [hzero]
    exact hrun
  | succ k ih => exact ih.then trivial (crowd_step q hidle k)

end Crowds

def pairs : Queue := ⟨1, 1, by decide, by decide⟩

def turn (w : ℕ) : List Event :=
  [.check w, .tryLock w, .poll w 1, .unlock w, .fill w 0, .flag w 0, .execute, .complete]

def stalled : Option State :=
  (machine pairs).replay anyStep
    [.reserve 0 1 false, .check 0, .fill 0 0, .flag 0 0, .lock 0, .ring 0, .release 0 none,
      .execute, .complete, .reserve 1 1 false, .check 1, .tryLock 1, .poll 1 1, .unlock 1] initial

theorem stalled_isSome : stalled.isSome = true := by decide +kernel

end GdaIonicSendQueue
