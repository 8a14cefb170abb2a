import Rocshmem.AtomicLogs
import Rocshmem.GuardedMachines

/-! The AMOs that are built from the compare-and-swap of the NIC. The lanes of a wave go through
the PEs in turns; the lanes of the turn try until the value that the NIC returns is the one they
guessed. The lanes that can use IPC apply their operation at once. -/
namespace GdaCasAmo

open AtomicLogs Function GuardedMachines List

abbrev Word := BitVec 64

inductive Scalar where
  | int64
  | double
  deriving DecidableEq

namespace Double

def exponent (d : Word) : ℕ := ((d >>> 52) &&& 0x7ff).toNat

def mantissa (d : Word) : ℕ := (d &&& 0xfffffffffffff).toNat

def toInt64 (d : Word) : Word :=
  let magnitude := if exponent d < 1023 then 0
    else if exponent d ≤ 1075 then (2 ^ 52 + mantissa d) >>> (1075 - exponent d)
    else (2 ^ 52 + mantissa d) <<< (exponent d - 1075)
  if d.msb then -BitVec.ofNat 64 magnitude else BitVec.ofNat 64 magnitude

def ofInt64 (x : Word) : Word :=
  let n := x.toInt.natAbs
  let k := n.log2
  let sign : ℕ := if x.msb then 2 ^ 63 else 0
  if n = 0 then 0
  else if k ≤ 52 then BitVec.ofNat 64 (sign + (1022 + k) * 2 ^ 52 + n <<< (52 - k))
  else
    let q := n >>> (k - 52)
    let r := n % 2 ^ (k - 52)
    let up := 2 ^ (k - 53) < r ∨ r = 2 ^ (k - 53) ∧ q % 2 = 1
    BitVec.ofNat 64 (sign + (1022 + k) * 2 ^ 52 + if up then q + 1 else q)

def isNan (d : Word) : Bool := exponent d = 2047 && mantissa d ≠ 0

def eq (a b : Word) : Bool :=
  !isNan a && !isNan b && (a = b || (a <<< 1 = 0 && b <<< 1 = 0))

end Double

namespace Scalar

def toInt64 : Scalar → Word → Word
  | .int64, x => x
  | .double, x => Double.toInt64 x

def ofInt64 : Scalar → Word → Word
  | .int64, x => x
  | .double, x => Double.ofInt64 x

def eq : Scalar → Word → Word → Bool
  | .int64, a, b => a = b
  | .double, a, b => Double.eq a b

end Scalar

inductive Op where
  | swap
  | fetchAnd
  | fetchOr
  | fetchXor
  deriving DecidableEq

def Op.apply : Op → Word → Word → Word
  | .swap, value, _ => value
  | .fetchAnd, value, old => old &&& value
  | .fetchOr, value, old => old ||| value
  | .fetchXor, value, old => old ^^^ value

structure Loc where
  pe : ℕ
  dst : ℕ
  deriving DecidableEq

structure Args where
  value : Word
  loc : Loc
  deriving DecidableEq

/-- Where a lane is: not in the call, before the test for IPC, in need of a turn, in the loop of
its turn, or out of it with its result. -/
inductive Phase where
  | off
  | entered
  | turn
  | trying
  | left (ret : Word)
  deriving DecidableEq

structure Lane where
  args : Args
  phase : Phase
  cond : Word
  desired : Word
  deriving DecidableEq

inductive Pc where
  | idle
  | turns
  | inner (peTurn : ℕ)
  deriving DecidableEq

variable {W : ℕ}

structure Wave (W : ℕ) where
  round : ℕ
  op : Op
  type : Scalar
  pc : Pc
  lane : Fin W → Lane

structure Tag where
  wave : ℕ
  round : ℕ
  lane : ℕ
  deriving DecidableEq

structure Record where
  tag : Tag
  op : Op
  value : Word
  old : Word
  deriving DecidableEq

def Record.apply (r : Record) (old : Word) : Word := r.op.apply r.value old

structure Result where
  tag : Tag
  op : Op
  args : Args
  ret : Word
  deriving DecidableEq

def Result.record (r : Result) : Record := ⟨r.tag, r.op, r.args.value, r.ret⟩

structure State (W : ℕ) where
  mem : Loc → Word
  log : Loc → List Record
  results : List Result
  waves : ℕ → Wave W

def Lane.initial : Lane := ⟨⟨0, ⟨0, 0⟩⟩, .off, 0, 0⟩

def initial (W : ℕ) (mem : Loc → Word) : State W :=
  ⟨mem, fun _ => [], [], fun _ => ⟨0, .swap, .int64, .idle, fun _ => .initial⟩⟩

def Wave.setLane (v : Wave W) (l : Fin W) (x : Lane) : Wave W :=
  { v with lane := update v.lane l x }

def Wave.tag (v : Wave W) (w : ℕ) (l : Fin W) : Tag := ⟨w, v.round, l⟩

def Wave.startTurn (v : Wave W) (peTurn : ℕ) : Wave W :=
  { v with
    pc := .inner peTurn
    lane := fun l =>
      match (v.lane l).phase with
      | .turn | .left _ =>
        if (v.lane l).args.loc.pe = peTurn then { v.lane l with phase := .trying } else v.lane l
      | .off | .entered | .trying => v.lane l }

def Wave.returns (v : Wave W) (w : ℕ) : List Result :=
  (finRange W).filterMap fun l =>
    match (v.lane l).phase with
    | .left ret => some ⟨v.tag w l, v.op, (v.lane l).args, ret⟩
    | .off | .entered | .turn | .trying => none

def Wave.finish (v : Wave W) : Wave W :=
  { v with pc := .idle, lane := fun l => { v.lane l with phase := .off } }

namespace State

def setWave (s : State W) (w : ℕ) (v : Wave W) : State W :=
  { s with waves := update s.waves w v }

def write (s : State W) (x : Loc) (new : Word) (r : Record) : State W :=
  { s with mem := update s.mem x new, log := append s.log x r }

end State

inductive Event (W : ℕ) where
  | call (w : ℕ) (op : Op) (type : Scalar) (args : Fin W → Option Args)
  | ipc (w : ℕ) (l : Fin W)
  | miss (w : ℕ) (l : Fin W)
  | turns (w : ℕ)
  | cas (w : ℕ) (l : Fin W)
  | join (w : ℕ)

section Steps

variable (ipcAvailable : ℕ → ℕ → Bool) (s : State W) (w : ℕ) (l : Fin W)

def call (op : Op) (type : Scalar) (args : Fin W → Option Args) : Option (State W) :=
  let v := s.waves w
  if v.pc = .idle then
    some (s.setWave w ⟨v.round + 1, op, type, .turns, fun l =>
      match args l with
      | some a => ⟨a, .entered, 0, 0⟩
      | none => .initial⟩)
  else none

def ipc : Option (State W) :=
  let v := s.waves w
  let x := v.lane l
  if x.phase = .entered ∧ ipcAvailable w x.args.loc.pe then
    let old := s.mem x.args.loc
    some { (s.write x.args.loc (v.op.apply x.args.value old)
        ⟨v.tag w l, v.op, x.args.value, old⟩).setWave w (v.setLane l { x with phase := .off }) with
      results := s.results ++ [⟨v.tag w l, v.op, x.args, old⟩] }
  else none

def miss : Option (State W) :=
  let v := s.waves w
  let x := v.lane l
  if x.phase = .entered ∧ ipcAvailable w x.args.loc.pe = false then
    some (s.setWave w (v.setLane l
      { x with phase := .turn, cond := 0, desired := v.op.apply x.args.value 0 }))
  else none

def turns : Option (State W) :=
  let v := s.waves w
  if v.pc = .turns ∧ ∀ l, (v.lane l).phase ≠ .entered then
    match (finRange W).find? fun l => (v.lane l).phase = .turn with
    | some l => some (s.setWave w (v.startTurn (v.lane l).args.loc.pe))
    | none => some { s.setWave w v.finish with results := s.results ++ v.returns w }
  else none

def cas : Option (State W) :=
  let v := s.waves w
  let x := v.lane l
  if x.phase = .trying then
    let old := s.mem x.args.loc
    let s' := if old = v.type.toInt64 x.cond then
      s.write x.args.loc (v.type.toInt64 x.desired) ⟨v.tag w l, v.op, x.args.value, old⟩ else s
    let ret := v.type.ofInt64 old
    if v.type.eq ret x.cond then some (s'.setWave w (v.setLane l { x with phase := .left ret }))
    else some (s'.setWave w (v.setLane l
      { x with cond := ret, desired := v.op.apply x.args.value ret }))
  else none

def join : Option (State W) :=
  let v := s.waves w
  match v.pc with
  | .inner _ =>
    if ∀ l, (v.lane l).phase ≠ .trying then some (s.setWave w { v with pc := .turns }) else none
  | .idle | .turns => none

def step : Event W → Option (State W)
  | .call w op type args => call s w op type args
  | .ipc w l => ipc ipcAvailable s w l
  | .miss w l => miss ipcAvailable s w l
  | .turns w => turns s w
  | .cas w l => cas s w l
  | .join w => join s w

end Steps

def machine (ipcAvailable : ℕ → ℕ → Bool) (W : ℕ) (mem : Loc → Word) :
    Machine (State W) (Event W) := .ofStep (initial W mem) (step ipcAvailable)

def IntegerCalls (_ : State W) : Event W → Prop
  | .call _ _ type _ => type = .int64
  | _ => True

instance (s : State W) (e : Event W) : Decidable (IntegerCalls s e) := by
  cases e <;> dsimp only [IntegerCalls] <;> infer_instance

instance (ipcAvailable : ℕ → ℕ → Bool) (mem : Loc → Word) (s : State W) (e : Event W) :
    Decidable ((machine ipcAvailable W mem).enabled s e) :=
  inferInstanceAs (Decidable ((step ipcAvailable s e).isSome = true))

def Phase.HadTurn : Phase → Prop
  | .trying | .left _ => True
  | .off | .entered | .turn => False

def LaneOk (log : Loc → List Record) (v : Wave W) (w : ℕ) (l : Fin W) : Prop :=
  match (v.lane l).phase with
  | .off => True
  | .entered => Untouched Record.tag log (v.tag w l)
  | .turn | .trying => Untouched Record.tag log (v.tag w l) ∧
      (v.lane l).desired = v.op.apply (v.lane l).args.value (v.lane l).cond
  | .left ret => Applied Record.tag log (v.lane l).args.loc
      ⟨v.tag w l, v.op, (v.lane l).args.value, ret⟩

structure Grouped (v : Wave W) : Prop where
  idle : v.pc = .idle → ∀ l, (v.lane l).phase = .off
  turns : v.pc = .turns → ∀ l, (v.lane l).phase ≠ .trying
  entered : ∀ {l}, (v.lane l).phase = .entered → ∀ l', ¬(v.lane l').phase.HadTurn
  uniform : ∀ {l l'}, (v.lane l).args.loc.pe = (v.lane l').args.loc.pe →
    (v.lane l).phase = .turn → ¬(v.lane l').phase.HadTurn

structure Inv (mem : Loc → Word) (s : State W) : Prop where
  explained : ∀ x, Explains Record.apply Record.old (mem x) (s.log x) (s.mem x)
  lanes : ∀ w l, LaneOk s.log (s.waves w) w l
  grouped : ∀ w, Grouped (s.waves w)
  ints : ∀ w, (s.waves w).pc ≠ .idle → (s.waves w).type = .int64
  results : ∀ r ∈ s.results, Applied Record.tag s.log r.args.loc r.record
  nodup : (s.results.map Result.tag).Nodup
  rounds : ∀ r ∈ s.results, r.tag.round ≤ (s.waves r.tag.wave).round
  pending : ∀ {w l}, ((s.waves w).lane l).phase ≠ .off →
    (s.waves w).tag w l ∉ s.results.map Result.tag
  later : ∀ {w n i}, (s.waves w).round < n → Untouched Record.tag s.log ⟨w, n, i⟩

section Invariant

variable {mem : Loc → Word} {s t : State W} {w w' : ℕ} {l l' : Fin W}

theorem inv_initial (mem : Loc → Word) : Inv mem (initial W mem) where
  explained _ := rfl
  lanes _ _ := trivial
  grouped _ := ⟨fun _ _ => rfl, nofun, nofun, nofun⟩
  ints _ h := absurd rfl h
  results _ h := absurd h not_mem_nil
  nodup := nodup_nil
  rounds _ h := absurd h not_mem_nil
  pending _ := not_mem_nil
  later _ _ := rfl

variable {v : Wave W}

theorem tag_inj (h : v.tag w l = v.tag w l') : l = l' :=
  Fin.ext (congrArg Tag.lane h)

theorem LaneOk.of_same {log log' : Loc → List Record} {t : Option Tag} (h : LaneOk log v w l)
    (hsame : SameExcept Record.tag log log' t) (hne : t ≠ some (v.tag w l)) :
    LaneOk log' v w l := by
  grind [LaneOk, Untouched.of_same, Applied.of_same]

variable {log : Loc → List Record}

theorem LaneOk.congr {v' : Wave W} (h : LaneOk log v w l) (hlane : v'.lane l = v.lane l)
    (hround : v'.round = v.round) (hop : v'.op = v.op) : LaneOk log v' w l := by
  rw [LaneOk, hlane, hop, Wave.tag, hround]
  exact h

theorem setLane_self (v : Wave W) (l : Fin W) (x : Lane) : (v.setLane l x).lane l = x := by
  change update v.lane l x l = x
  exact update_self _ _ _

theorem setLane_of_ne (v : Wave W) (x : Lane) (h : l' ≠ l) :
    (v.setLane l x).lane l' = v.lane l' := by
  change update v.lane l x l' = v.lane l'
  exact update_of_ne h _ _

variable {m : Loc → Word} {rs : List Result}

theorem Inv.advance (h : Inv mem s) {t : Option Tag}
    (hexplained : ∀ x, Explains Record.apply Record.old (mem x) (log x) (m x))
    (hsame : SameExcept Record.tag s.log log t) (hround : (s.waves w).round ≤ v.round)
    (ht : ∀ t', t = some t' → t'.wave = w ∧ t'.round = v.round ∧ t' ∉ s.results.map Result.tag)
    (hlanes : ∀ l, LaneOk log v w l) (hgrouped : Grouped v) (hints : v.pc ≠ .idle → v.type = .int64)
    (hrs : ∀ r ∈ rs, Applied Record.tag log r.args.loc r.record ∧ r.tag.wave = w ∧
      r.tag.round = v.round ∧ r.tag ∉ s.results.map Result.tag)
    (hnodup : (rs.map Result.tag).Nodup)
    (hpending : ∀ l, (v.lane l).phase ≠ .off → v.tag w l ∉ (s.results ++ rs).map Result.tag) :
    Inv mem ⟨m, log, s.results ++ rs, update s.waves w v⟩ := by
  have hother : ∀ {w'}, w' ≠ w → update s.waves w v w' = s.waves w' := fun hne =>
    update_of_ne hne v s.waves
  have hself : update s.waves w v w = v := update_self w v s.waves
  refine ⟨hexplained, fun w' l => ?_, fun w' => ?_, fun w' => ?_, fun r hr => ?_, ?_,
    fun r hr => ?_, fun {w' l} hp => ?_, fun {w' n i} hn => ?_⟩
  · change LaneOk log (update s.waves w v w') w' l
    by_cases hw : w' = w
    · subst hw
      rw [hself]
      exact hlanes l
    · rw [hother hw]
      exact (h.lanes w' l).of_same hsame fun heq => hw (ht _ heq).1
  · grind [Inv]
  · grind [Inv]
  · grind [Result.record, SameExcept, Applied, Inv]
  · grind [Inv]
  · grind [Inv]
  · grind [Wave.tag, Inv]
  · grind [Inv, Untouched.of_same]

theorem Inv.setWave (h : Inv mem s) (hround : (s.waves w).round ≤ v.round)
    (hlanes : ∀ l, LaneOk s.log v w l) (hgrouped : Grouped v)
    (hints : v.pc ≠ .idle → v.type = .int64)
    (hpending : ∀ l, (v.lane l).phase ≠ .off → v.tag w l ∉ s.results.map Result.tag) :
    Inv mem (s.setWave w v) := by
  rw [← append_nil s.results] at hpending
  have hadvance := h.advance h.explained (.refl _) hround nofun hlanes hgrouped hints
    (fun _ hr => absurd hr not_mem_nil) nodup_nil hpending
  rwa [append_nil] at hadvance

theorem Inv.explained_write (h : Inv mem s) {x : Loc} {r : Record} (hold : r.old = s.mem x)
    (y : Loc) : Explains Record.apply Record.old (mem y) (append s.log x r y)
      (update s.mem x (r.apply (s.mem x)) y) := by
  by_cases hy : y = x
  · subst hy
    rw [append, update_self, update_self]
    exact (h.explained y).snoc hold
  · rw [append, update_of_ne hy, update_of_ne hy]
    exact h.explained y

variable {y : Lane}

theorem Grouped.setLane (h : Grouped v) (hoff : (v.lane l).phase ≠ .off)
    (hargs : y.args = (v.lane l).args) (hentered : y.phase ≠ .entered)
    (hturn : y.phase = .turn → (v.lane l).phase = .entered)
    (hhad : y.phase.HadTurn → (v.lane l).phase = .trying) : Grouped (v.setLane l y) := by
  have hargs' : ∀ l', ((v.setLane l y).lane l').args = (v.lane l').args := fun l' => by
    by_cases hl : l' = l
    · rw [hl, setLane_self, hargs]
    · rw [setLane_of_ne v y hl]
  -- a lane that has had a turn after the step had one before
  have hhad' : ∀ l', ((v.setLane l y).lane l').phase.HadTurn → (v.lane l').phase.HadTurn :=
    fun l' hp => by
      grind [Phase.HadTurn, setLane_self, setLane_of_ne]
  refine ⟨fun hpc => absurd (h.idle hpc l) hoff, fun hpc l' hp => ?_, fun {l₁} hp l₂ h₂ => ?_,
    fun {l₁ l₂} hpe hp h₂ => ?_⟩
  · grind [Phase.HadTurn, Wave.setLane, Grouped, setLane_self, setLane_of_ne]
  all_goals grind [Grouped, setLane_self, setLane_of_ne]

theorem Inv.lane_step (h : Inv mem s) {t : Option Tag}
    (hexplained : ∀ x, Explains Record.apply Record.old (mem x) (log x) (m x))
    (hsame : SameExcept Record.tag s.log log t) (ht : ∀ t', t = some t' → t' = (s.waves w).tag w l)
    (hoff : ((s.waves w).lane l).phase ≠ .off) (hl : LaneOk log ((s.waves w).setLane l y) w l)
    (hgrouped : Grouped ((s.waves w).setLane l y))
    (hrs : ∀ r ∈ rs, Applied Record.tag log r.args.loc r.record ∧ r.tag = (s.waves w).tag w l)
    (hlength : rs.length ≤ 1) (hreturn : rs ≠ [] → y.phase = .off) :
    Inv mem ⟨m, log, s.results ++ rs, update s.waves w ((s.waves w).setLane l y)⟩ := by
  have hfresh := h.pending hoff
  refine h.advance hexplained hsame le_rfl (fun t' ht' => ?_) (fun l' => ?_) hgrouped (h.ints w)
    (fun r hr => ⟨(hrs r hr).1, ?_⟩) ?_ fun l' hp hmem => ?_
  · rw [ht t' ht']
    exact ⟨rfl, rfl, hfresh⟩
  · by_cases hl' : l' = l
    · rwa [hl']
    · refine ((h.lanes w l').of_same hsame fun heq => hl' ?_).congr
        (setLane_of_ne _ y hl') rfl rfl
      exact tag_inj (ht _ heq)
  · rw [(hrs r hr).2]
    exact ⟨rfl, rfl, hfresh⟩
  · rcases rs with _ | ⟨r, _ | ⟨r', rs⟩⟩
    · exact nodup_nil
    · exact nodup_singleton _
    · simp only [length_cons] at hlength
      omega
  · grind [Wave.tag, Wave.setLane, Inv, setLane_self, setLane_of_ne]

theorem Inv.setLane (h : Inv mem s) (hoff : ((s.waves w).lane l).phase ≠ .off)
    (hl : LaneOk s.log ((s.waves w).setLane l y) w l) (hgrouped : Grouped ((s.waves w).setLane l y))
    : Inv mem (s.setWave w ((s.waves w).setLane l y)) := by
  have hstep := h.lane_step h.explained (.refl _) nofun hoff hl hgrouped
    (fun _ hr => absurd hr not_mem_nil) (Nat.zero_le 1) fun hne => absurd rfl hne
  rwa [append_nil] at hstep

theorem Inv.write (h : Inv mem s) {x : Loc} {new : Word} {r : Record} (hold : r.old = s.mem x)
    (hnew : new = r.apply (s.mem x)) (htag : r.tag = (s.waves w).tag w l)
    (hoff : ((s.waves w).lane l).phase ≠ .off)
    (hl : LaneOk (append s.log x r) ((s.waves w).setLane l y) w l)
    (hgrouped : Grouped ((s.waves w).setLane l y)) :
    Inv mem ((s.write x new r).setWave w ((s.waves w).setLane l y)) := by
  subst hnew
  have hstep := h.lane_step (h.explained_write hold) (.append s.log x r)
    (fun t' ht => (Option.some.inj ht).symm.trans htag) hoff hl hgrouped
    (fun _ hr => absurd hr not_mem_nil) (Nat.zero_le 1) fun hne => absurd rfl hne
  rwa [append_nil] at hstep

variable {ipcAvailable : ℕ → ℕ → Bool}

theorem call_inv {op : Op} {args : Fin W → Option Args} (h : Inv mem s)
    (hstep : call s w op .int64 args = some t) : Inv mem t := by
  simp only [call] at hstep
  split at hstep
  case isFalse => cases hstep
  cases hstep
  have hphase : ∀ a : Option Args, (match a with
      | some a => (⟨a, .entered, 0, 0⟩ : Lane)
      | none => .initial).phase = .off ∨ (match a with
      | some a => (⟨a, .entered, 0, 0⟩ : Lane)
      | none => .initial).phase = .entered
    | some _ => Or.inr rfl
    | none => Or.inl rfl
  refine h.setWave (Nat.le_succ _) (fun l => ?_) ⟨nofun, fun _ l hp => ?_, fun _ l hp => ?_,
    fun {l l'} _ hp => ?_⟩ (fun _ => rfl) fun l _ hmem => ?_
  · rw [LaneOk]
    rcases hphase (args l) with hp | hp <;> simp only [hp]
    exact h.later (Nat.lt_succ_self _)
  · rcases hphase (args l) with hp' | hp' <;> cases hp'.symm.trans hp
  · rcases hphase (args l) with hp' | hp' <;> simp only [hp'] at hp <;> exact hp
  · rcases hphase (args l) with hp' | hp' <;> cases hp'.symm.trans hp
  · grind [Wave.tag, Inv]

theorem ipc_inv (h : Inv mem s) (hstep : ipc ipcAvailable s w l = some t) : Inv mem t := by
  simp only [ipc] at hstep
  split at hstep
  case isFalse => cases hstep
  rename_i hguard
  cases hstep
  have hlane := h.lanes w l
  rw [LaneOk, hguard.1] at hlane
  have hoff : ((s.waves w).lane l).phase ≠ .off := hguard.1.trans_ne nofun
  refine h.lane_step (h.explained_write rfl) (.append _ _ _) (fun _ ht => (Option.some.inj ht).symm)
    hoff ?_ ((h.grouped w).setLane hoff rfl nofun nofun nofun) (fun r hr => ?_) le_rfl fun _ => rfl
  · rw [LaneOk, setLane_self]
    trivial
  · rw [mem_singleton.mp hr]
    exact ⟨hlane.applied, rfl⟩

theorem miss_inv (h : Inv mem s) (hstep : miss ipcAvailable s w l = some t) : Inv mem t := by
  simp only [miss] at hstep
  split at hstep
  case isFalse => cases hstep
  rename_i hguard
  cases hstep
  have hlane := h.lanes w l
  rw [LaneOk, hguard.1] at hlane
  have hoff : ((s.waves w).lane l).phase ≠ .off := hguard.1.trans_ne nofun
  refine h.setLane hoff ?_ ((h.grouped w).setLane hoff rfl nofun (fun _ => hguard.1) nofun)
  rw [LaneOk, setLane_self]
  exact ⟨hlane, rfl⟩

theorem cas_inv (h : Inv mem s) (hstep : cas s w l = some t) : Inv mem t := by
  simp only [cas] at hstep
  split at hstep
  case isFalse => cases hstep
  rename_i htrying
  have hlane := h.lanes w l
  rw [LaneOk, htrying] at hlane
  have hoff : ((s.waves w).lane l).phase ≠ .off := htrying.trans_ne nofun
  have hint : (s.waves w).type = .int64 := h.ints w fun hpc => hoff ((h.grouped w).idle hpc l)
  simp only [hint, Scalar.toInt64, Scalar.ofInt64, Scalar.eq, decide_eq_true_eq] at hstep
  by_cases hold : s.mem ((s.waves w).lane l).args.loc = ((s.waves w).lane l).cond
  · rw [if_pos hold, if_pos hold] at hstep
    cases hstep
    -- the guess was right, and what is stored is the operation on the word
    refine h.write rfl ?_ rfl hoff ?_
      ((h.grouped w).setLane hoff rfl nofun nofun fun _ => htrying)
    · rw [hlane.2, hold]
      rfl
    · rw [LaneOk, setLane_self]
      exact Untouched.applied hlane.1
  · rw [if_neg hold, if_neg hold] at hstep
    cases hstep
    refine h.setLane hoff ?_ ((h.grouped w).setLane hoff rfl ?_ ?_ fun _ => htrying)
    · rw [LaneOk, setLane_self]
      simp only [htrying]
      exact ⟨hlane.1, rfl⟩
    · simp only [htrying]
      nofun
    · simp only [htrying]
      nofun

theorem join_inv (h : Inv mem s) (hstep : join s w = some t) : Inv mem t := by
  simp only [join] at hstep
  split at hstep
  case h_2 | h_3 => cases hstep
  rename_i peTurn hpc
  split at hstep
  case isFalse => cases hstep
  rename_i hdone
  cases hstep
  have hg := h.grouped w
  exact h.setWave le_rfl (fun l => (h.lanes w l).congr rfl rfl rfl)
    ⟨nofun, fun _ => hdone, hg.entered, hg.uniform⟩ (fun _ => h.ints w (hpc ▸ nofun))
    fun l hl => h.pending hl

theorem Grouped.startTurn_lane (h : Grouped v) (hl : (v.lane l).phase = .turn) (l' : Fin W) :
    (v.startTurn (v.lane l).args.loc.pe).lane l' =
      if (v.lane l').phase = .turn ∧ (v.lane l').args.loc.pe = (v.lane l).args.loc.pe then
        { v.lane l' with phase := .trying } else v.lane l' := by
  change (match (v.lane l').phase with
    | .turn | .left _ =>
      if (v.lane l').args.loc.pe = (v.lane l).args.loc.pe then
        { v.lane l' with phase := .trying } else v.lane l'
    | .off | .entered | .trying => v.lane l') = _
  cases hp : (v.lane l').phase with
  | turn => simp only [true_and]
  | left ret =>
    have hne : (v.lane l').args.loc.pe ≠ (v.lane l).args.loc.pe := fun heq =>
      h.uniform heq.symm hl (hp ▸ trivial)
    simp only [if_neg hne, reduceCtorEq, false_and, if_false]
  | off | entered | trying => simp only [reduceCtorEq, false_and, if_false]

theorem turn_inv (h : Inv mem s) (hpc : (s.waves w).pc = .turns)
    (hentered : ∀ l, ((s.waves w).lane l).phase ≠ .entered)
    (hl : ((s.waves w).lane l).phase = .turn) :
    Inv mem (s.setWave w ((s.waves w).startTurn ((s.waves w).lane l).args.loc.pe)) := by
  have hg := h.grouped w
  have hlane := hg.startTurn_lane hl
  -- the lanes in need of a turn after the step are of other PEs
  have hturn : ∀ l', (((s.waves w).startTurn ((s.waves w).lane l).args.loc.pe).lane l').phase ≠
      .trying → ((s.waves w).startTurn ((s.waves w).lane l).args.loc.pe).lane l' =
        (s.waves w).lane l' ∧ (((s.waves w).lane l').phase = .turn →
          ((s.waves w).lane l').args.loc.pe ≠ ((s.waves w).lane l).args.loc.pe) := by
    grind
  have hargs : ∀ l', (((s.waves w).startTurn ((s.waves w).lane l).args.loc.pe).lane l').args =
      ((s.waves w).lane l').args := by
    intro l'
    rw [hlane]
    split <;> rfl
  refine h.setWave le_rfl (fun l' => ?_) ⟨nofun, nofun, fun {l₁} hp => ?_,
    fun {l₁ l₂} hpe hp => ?_⟩ (fun _ => h.ints w (hpc ▸ nofun)) fun l' hp => ?_
  · by_cases hcond : ((s.waves w).lane l').phase = .turn ∧
        ((s.waves w).lane l').args.loc.pe = ((s.waves w).lane l).args.loc.pe
    · have hok := h.lanes w l'
      rw [LaneOk, hcond.1] at hok
      rw [LaneOk, hlane, if_pos hcond]
      exact hok
    · exact (h.lanes w l').congr ((hlane l').trans (if_neg hcond)) rfl rfl
  · have hsame := (hturn l₁ (hp ▸ nofun)).1
    rw [hsame] at hp
    exact absurd hp (hentered l₁)
  · grind [Grouped]
  · grind [Wave.tag, Inv, Wave.startTurn]

theorem mem_returns {r : Result} (hr : r ∈ v.returns w) :
    ∃ l ret, (v.lane l).phase = .left ret ∧ r = ⟨v.tag w l, v.op, (v.lane l).args, ret⟩ := by
  grind [Wave.returns]

theorem nodup_returns (v : Wave W) (w : ℕ) : ((v.returns w).map Result.tag).Nodup := by
  rw [Wave.returns, map_filterMap]
  refine (nodup_finRange W).filterMap fun l l' t hl hl' => ?_
  grind [Wave.tag]

theorem return_inv (h : Inv mem s) : Inv mem ⟨s.mem, s.log, s.results ++ (s.waves w).returns w,
      update s.waves w (s.waves w).finish⟩ := by
  refine h.advance h.explained (.refl _) le_rfl nofun (fun _ => trivial)
    ⟨fun _ _ => rfl, nofun, nofun, nofun⟩ (fun hne => absurd rfl hne) (fun r hr => ?_)
    (nodup_returns _ w) fun _ hp => absurd rfl hp
  obtain ⟨l, ret, hp, rfl⟩ := mem_returns hr
  have hok := h.lanes w l
  rw [LaneOk, hp] at hok
  exact ⟨hok, rfl, rfl, h.pending (hp ▸ nofun)⟩

theorem turns_inv (h : Inv mem s) (hstep : turns s w = some t) : Inv mem t := by
  simp only [turns] at hstep
  grind [State.setWave, turn_inv, return_inv]

theorem step_inv {e : Event W} (h : Inv mem s) (hok : IntegerCalls s e)
    (hstep : step ipcAvailable s e = some t) : Inv mem t := by
  cases e with
  | call w op type args =>
    obtain rfl : type = .int64 := hok
    exact call_inv h hstep
  | ipc w l => exact ipc_inv h hstep
  | miss w l => exact miss_inv h hstep
  | turns w => exact turns_inv h hstep
  | cas w l => exact cas_inv h hstep
  | join w => exact join_inv h hstep

theorem step_grows {e : Event W} (hstep : step ipcAvailable s e = some t) :
    (∀ x, s.log x <+: t.log x) ∧ s.results <+: t.results := by
  cases e with
  | call w op type args =>
    simp only [step, call] at hstep
    split at hstep <;> cases hstep
    exact ⟨fun _ => prefix_rfl, prefix_rfl⟩
  | ipc w l =>
    simp only [step, ipc] at hstep
    split at hstep <;> cases hstep
    exact ⟨isPrefix_append, prefix_append _ _⟩
  | miss w l =>
    simp only [step, miss] at hstep
    split at hstep <;> cases hstep
    exact ⟨fun _ => prefix_rfl, prefix_rfl⟩
  | turns w =>
    simp only [step, turns] at hstep
    split at hstep
    case isFalse => cases hstep
    split at hstep <;> cases hstep
    · exact ⟨fun _ => prefix_rfl, prefix_rfl⟩
    · exact ⟨fun _ => prefix_rfl, prefix_append _ _⟩
  | cas w l =>
    simp only [step, cas] at hstep
    split at hstep
    case isFalse => cases hstep
    split at hstep <;> split at hstep <;> cases hstep
    · exact ⟨isPrefix_append, prefix_rfl⟩
    · exact ⟨fun _ => prefix_rfl, prefix_rfl⟩
    · exact ⟨isPrefix_append, prefix_rfl⟩
    · exact ⟨fun _ => prefix_rfl, prefix_rfl⟩
  | join w =>
    simp only [step, join] at hstep
    split at hstep
    case h_2 | h_3 => cases hstep
    split at hstep <;> cases hstep
    exact ⟨fun _ => prefix_rfl, prefix_rfl⟩

end Invariant

/-- In every run with calls of integer types, the operations on a word explain its value. Every
lane that returned applied its operation once, and returned the value that the operation saw. The
operation of a lane comes after its call and, since the logs only grow, before its return. -/
theorem cas_amos_linearizable (ipcAvailable : ℕ → ℕ → Bool) (mem : Loc → Word) {s : State W}
    (hs : (machine ipcAvailable W mem).Run IntegerCalls s) :
    (∀ x, Explains Record.apply Record.old (mem x) (s.log x) (s.mem x)) ∧
    (∀ r ∈ s.results, Applied Record.tag s.log r.args.loc r.record) ∧
    (s.results.map Result.tag).Nodup ∧
    (∀ w n i, (s.waves w).round < n → Untouched Record.tag s.log ⟨w, n, i⟩) ∧
    ∀ e t, step ipcAvailable s e = some t →
      (∀ x, s.log x <+: t.log x) ∧ s.results <+: t.results := by
  have hinv : Inv mem s := hs.ofStep_induct (inv_initial mem) fun _ _ _ h hok hstep =>
    step_inv h hok hstep
  exact ⟨hinv.explained, hinv.results, hinv.nodup, fun _ _ _ => hinv.later,
    fun _ _ hstep => step_grows hstep⟩

/-- Two lanes of a wave on one word. The second guess of the second lane is what the first lane
stored. -/
theorem cas_amos_linearizable_pair :
    ∃ s : State 2, (machine (fun _ _ => false) 2 fun _ => 0).Run IntegerCalls s ∧
      s.mem ⟨1, 0⟩ = 3 ∧
      s.results = [⟨⟨0, 1, 0⟩, .fetchOr, ⟨1, ⟨1, 0⟩⟩, 0⟩, ⟨⟨0, 1, 1⟩, .fetchOr, ⟨2, ⟨1, 0⟩⟩, 1⟩] ∧
      ∀ r ∈ s.results, Applied Record.tag s.log r.args.loc r.record := by
  obtain ⟨s, hrun, hP⟩ := run_of_replay (machine (fun _ _ => false) 2 fun _ => 0)
    IntegerCalls
    [.call 0 .fetchOr .int64 fun l => some ⟨if l = 0 then 1 else 2, ⟨1, 0⟩⟩, .miss 0 0, .miss 0 1,
      .turns 0, .cas 0 0, .cas 0 1, .cas 0 1, .join 0, .turns 0]
    (fun s => s.mem ⟨1, 0⟩ = 3 ∧ s.results = [⟨⟨0, 1, 0⟩, .fetchOr, ⟨1, ⟨1, 0⟩⟩, 0⟩,
      ⟨⟨0, 1, 1⟩, .fetchOr, ⟨2, ⟨1, 0⟩⟩, 1⟩]) (by decide +kernel)
  exact ⟨s, hrun, hP.1, hP.2, (cas_amos_linearizable _ _ hrun).2.1⟩

/-- A swap of `1.5`, the word `0x3ff8000000000000`. What is stored is its conversion to an
integer. -/
theorem swap_double_stores_integer :
    ∃ s : State 1, (machine (fun _ _ => false) 1 fun _ => 0).Run anyStep s ∧
      s.results = [⟨⟨0, 1, 0⟩, .swap, ⟨0x3ff8000000000000, ⟨1, 0⟩⟩, 0⟩] ∧ s.mem ⟨1, 0⟩ = 1 ∧
      ¬Explains Record.apply Record.old 0 (s.log ⟨1, 0⟩) (s.mem ⟨1, 0⟩) := by
  obtain ⟨s, hrun, hP⟩ := run_of_replay (machine (fun _ _ => false) 1 fun _ => 0)
    anyStep
    [.call 0 .swap .double fun _ => some ⟨0x3ff8000000000000, ⟨1, 0⟩⟩, .miss 0 0, .turns 0,
      .cas 0 0, .join 0, .turns 0]
    (fun s => s.results = [⟨⟨0, 1, 0⟩, .swap, ⟨0x3ff8000000000000, ⟨1, 0⟩⟩, 0⟩] ∧
      s.mem ⟨1, 0⟩ = 1 ∧ s.log ⟨1, 0⟩ = [⟨⟨0, 1, 0⟩, .swap, 0x3ff8000000000000, 0⟩])
    (by decide +kernel)
  refine ⟨s, hrun, hP.1, hP.2.1, ?_⟩
  rw [hP.2.1, hP.2.2]
  rintro ⟨-, hstored⟩
  have hne : Op.swap.apply 0x3ff8000000000000 0 ≠ 1 := by decide
  exact hne hstored

end GdaCasAmo
