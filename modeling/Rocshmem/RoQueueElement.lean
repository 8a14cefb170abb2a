import Mathlib

/-! Queue elements of the reverse-offload ring. `build_queue_element` fills a reused slot
with the fields that the command type calls for; the host transport reads the fields that
the command type calls for. The two case analyses are compared field by field. -/
namespace RoQueueElement

inductive Cmd where
  | put
  | p
  | get
  | putNbi
  | getNbi
  | amoFop
  | amoFcas
  | fence
  | quiet
  | finalize
  | teamReduce
  | sync
  | barrier
  | teamBroadcast
  | alltoall
  | fcollect
  | teamReduceScatter
  deriving DecidableEq, Repr

inductive Op where
  | sum
  | max
  | min
  | prod
  | and
  | or
  | xor
  | replace
  deriving DecidableEq, Repr

inductive NetType where
  | float
  | char
  | signedChar
  | unsignedChar
  | double
  | int
  | long
  | unsignedLong
  | longLong
  | short
  | longDouble
  deriving DecidableEq, Repr

/-- The fields of `queue_element` after the valid flag that either side uses. `ol1` is the
size or the operand of an atomic, `ol2` the scratch buffer or the compare value. -/
inductive ElemField where
  | type
  | pe
  | src
  | dst
  | winId
  | op
  | datatype
  | peRoot
  | status
  | teamComm
  | ol1
  | ol2
  deriving DecidableEq, Repr

abbrev ElemField.Val : ElemField → Type
  | .type => Cmd
  | .op => Op
  | .datatype => NetType
  | _ => ℤ

def fields : List ElemField :=
  [.type, .pe, .src, .dst, .winId, .op, .datatype, .peRoot, .status, .teamComm, .ol1, .ol2]

theorem mem_fields (f : ElemField) : f ∈ fields := by
  cases f <;> decide

abbrev Element := (f : ElemField) → f.Val

def zeroed : Element
  | .type => .put
  | .op => .sum
  | .datatype => .float
  | .pe | .src | .dst | .winId | .peRoot | .status | .teamComm | .ol1 | .ol2 => (0 : ℤ)

/-- The arguments of `build_queue_element` that reach an element. For `RO_NET_P` the source
is the value itself, which is copied inline. -/
structure Args where
  type : Cmd
  dst : ℤ
  src : ℤ
  size : ℤ
  pe : ℤ
  peRoot : ℤ
  pWrk : ℤ
  teamComm : ℤ
  winId : ℤ
  blocking : Bool
  status : ℤ
  op : Op
  datatype : NetType
  deriving DecidableEq, Repr

def Args.arg (a : Args) : Element
  | .type => a.type
  | .pe => a.pe
  | .src => a.src
  | .dst => a.dst
  | .winId => a.winId
  | .op => a.op
  | .datatype => a.datatype
  | .peRoot => a.peRoot
  | .status => a.status
  | .teamComm => a.teamComm
  | .ol1 => a.size
  | .ol2 => a.pWrk

def Cmd.stores : Cmd → List ElemField
  | .amoFop => [.op, .datatype]
  | .amoFcas => [.ol2, .datatype]
  | .teamReduce => [.op, .datatype, .teamComm]
  | .teamReduceScatter => [.op, .datatype, .teamComm]
  | .teamBroadcast => [.peRoot, .datatype, .teamComm]
  | .alltoall => [.datatype, .teamComm, .ol2]
  | .fcollect => [.datatype, .teamComm, .ol2]
  | .sync => [.teamComm]
  | _ => []

def Args.stores (a : Args) : List ElemField :=
  [ElemField.type, .pe, .ol1, .dst, .winId] ++ (if a.blocking then [ElemField.status] else []) ++
    [ElemField.src] ++ a.type.stores

def buildQueueElement (a : Args) (e : Element) : Element :=
  fun f => if f ∈ a.stores then a.arg f else e f

inductive Submission where
  | putMem (dst src size pe winId : ℤ) (contextId : ℕ) (status : ℤ) (blocking inlineData : Bool)
  | getMem (dst src size pe winId : ℤ) (contextId : ℕ) (status : ℤ) (blocking : Bool)
  | amoFop (dst src value pe winId : ℤ) (contextId : ℕ) (status : ℤ) (op : Op) (type : NetType)
  | amoFcas (dst src value pe winId : ℤ) (contextId : ℕ) (status cond : ℤ) (type : NetType)
  | teamReduceScatter (dst src nreduce winId : ℤ) (contextId : ℕ) (comm : ℤ) (op : Op)
      (type : NetType) (status : ℤ) (blocking : Bool)
  | teamReduction (dst src size winId : ℤ) (contextId : ℕ) (comm : ℤ) (op : Op) (type : NetType)
      (status : ℤ) (blocking : Bool)
  | teamBroadcast (dst src size winId : ℤ) (contextId : ℕ) (comm root : ℤ) (type : NetType)
      (status : ℤ)
  | alltoall (dst src size winId : ℤ) (contextId : ℕ) (comm ataBuffptr : ℤ) (type : NetType)
      (status : ℤ)
  | fcollect (dst src size winId : ℤ) (contextId : ℕ) (comm ataBuffptr : ℤ) (type : NetType)
      (status : ℤ)
  | barrier (contextId : ℕ) (status : ℤ) (blocking : Bool) (comm : ℤ) (doQuiet : Bool)
  | quiet (contextId : ℕ) (status : ℤ)
  deriving DecidableEq, Repr

def commOrWorld (world comm : ℤ) : ℤ := if comm = 0 then world else comm

def submitRequestsToMPI (world : ℤ) (queueIdx : ℕ) (e : Element) : Submission :=
  match e .type with
  | .put =>
    .putMem (e .dst) (e .src) (e .ol1) (e .pe) (e .winId) queueIdx (e .status) true false
  | .p => .putMem (e .dst) (e .src) (e .ol1) (e .pe) (e .winId) queueIdx (e .status) true true
  | .get => .getMem (e .dst) (e .src) (e .ol1) (e .pe) (e .winId) queueIdx (e .status) true
  | .putNbi =>
    .putMem (e .dst) (e .src) (e .ol1) (e .pe) (e .winId) queueIdx (e .status) false false
  | .getNbi => .getMem (e .dst) (e .src) (e .ol1) (e .pe) (e .winId) queueIdx (e .status) false
  | .amoFop =>
    .amoFop (e .dst) (e .src) (e .ol1) (e .pe) (e .winId) queueIdx (e .status) (e .op)
      (e .datatype)
  | .amoFcas =>
    .amoFcas (e .dst) (e .src) (e .ol1) (e .pe) (e .winId) queueIdx (e .status) (e .ol2)
      (e .datatype)
  | .teamReduceScatter =>
    .teamReduceScatter (e .dst) (e .src) (e .ol1) (e .winId) queueIdx (e .teamComm) (e .op)
      (e .datatype) (e .status) true
  | .teamReduce =>
    .teamReduction (e .dst) (e .src) (e .ol1) (e .winId) queueIdx (e .teamComm) (e .op)
      (e .datatype) (e .status) true
  | .teamBroadcast =>
    .teamBroadcast (e .dst) (e .src) (e .ol1) (e .winId) queueIdx (e .teamComm) (e .peRoot)
      (e .datatype) (e .status)
  | .alltoall =>
    .alltoall (e .dst) (e .src) (e .ol1) (e .winId) queueIdx (e .teamComm) (e .ol2)
      (e .datatype) (e .status)
  | .fcollect =>
    .fcollect (e .dst) (e .src) (e .ol1) (e .winId) queueIdx (e .teamComm) (e .ol2)
      (e .datatype) (e .status)
  | .barrier => .barrier queueIdx (e .status) true (commOrWorld world (e .teamComm)) true
  | .sync => .barrier queueIdx (e .status) true (commOrWorld world (e .teamComm)) false
  | .fence | .quiet | .finalize => .quiet queueIdx (e .status)

def Cmd.reads : Cmd → List ElemField
  | .put | .p | .get | .putNbi | .getNbi => [.type, .dst, .src, .ol1, .pe, .winId, .status]
  | .amoFop => [.type, .dst, .src, .ol1, .pe, .winId, .status, .op, .datatype]
  | .amoFcas => [.type, .dst, .src, .ol1, .pe, .winId, .status, .ol2, .datatype]
  | .teamReduceScatter | .teamReduce =>
    [.type, .dst, .src, .ol1, .winId, .teamComm, .op, .datatype, .status]
  | .teamBroadcast => [.type, .dst, .src, .ol1, .winId, .teamComm, .peRoot, .datatype, .status]
  | .alltoall | .fcollect =>
    [.type, .dst, .src, .ol1, .winId, .teamComm, .ol2, .datatype, .status]
  | .barrier | .sync => [.type, .status, .teamComm]
  | .fence | .quiet | .finalize => [.type, .status]

theorem submit_congr {world : ℤ} {q : ℕ} {e e' : Element} (h : ∀ f ∈ (e .type).reads, e f = e' f) :
    submitRequestsToMPI world q e = submitRequestsToMPI world q e' := by
  have htype : e .type = e' .type := by
    apply h
    cases e .type <;> decide
  unfold submitRequestsToMPI
  rw [← htype]
  revert h
  generalize e .type = c
  intro h
  cases c <;> simp only [Cmd.reads, List.forall_mem_cons] at h <;> simp only [h]

structure Slot where
  element : Element
  writer : ElemField → Option ℕ

def enqueue (queueSize : ℕ) (ring : ℕ → Slot) (i : ℕ) (a : Args) : ℕ → Slot :=
  Function.update ring (i % queueSize)
    { element := buildQueueElement a (ring (i % queueSize)).element
      writer := fun f => if f ∈ a.stores then some i else (ring (i % queueSize)).writer f }

def ringAfter (queueSize : ℕ) (calls : ℕ → Args) : ℕ → ℕ → Slot
  | 0 => fun _ => ⟨zeroed, fun _ => none⟩
  | n + 1 => enqueue queueSize (ringAfter queueSize calls n) n (calls n)

def taken (queueSize : ℕ) (calls : ℕ → Args) (i : ℕ) : Slot :=
  ringAfter queueSize calls (i + 1) (i % queueSize)

/-- Command `i` is executed from what its own call wrote: so are all the fields that are
read, and the transport is called as the arguments say. -/
structure OwnFields (queueSize : ℕ) (calls : ℕ → Args) (i : ℕ) : Prop where
  written : ∀ f ∈ (calls i).type.reads, (taken queueSize calls i).writer f = some i
  executed : ∀ world queueIdx, submitRequestsToMPI world queueIdx
    (taken queueSize calls i).element =
    submitRequestsToMPI world queueIdx (calls i).arg

section Sequence

variable (queueSize : ℕ) (calls : ℕ → Args) (i : ℕ)

theorem taken_element : (taken queueSize calls i).element =
      buildQueueElement (calls i) (ringAfter queueSize calls i (i % queueSize)).element := by
  simp [taken, ringAfter, enqueue]

theorem taken_writer (f : ElemField) : (taken queueSize calls i).writer f =
      if f ∈ (calls i).stores then some i
      else (ringAfter queueSize calls i (i % queueSize)).writer f := by
  simp [taken, ringAfter, enqueue]

variable {queueSize calls i}

theorem writer_lt {n j k : ℕ} {f : ElemField}
    (h : (ringAfter queueSize calls n j).writer f = some k) :
    k < n := by
  induction n generalizing j with
  | zero => simp [ringAfter] at h
  | succ n ih =>
    by_cases hj : j = n % queueSize
    · subst hj
      simp only [ringAfter, enqueue, Function.update_self] at h
      split at h
      · obtain rfl := Option.some.inj h
        exact Nat.lt_succ_self n
      · exact Nat.lt_succ_of_lt (ih h)
    · simp only [ringAfter, enqueue, Function.update_of_ne hj] at h
      exact Nat.lt_succ_of_lt (ih h)

theorem taken_writer_iff {f : ElemField} :
    (taken queueSize calls i).writer f = some i ↔ f ∈ (calls i).stores := by
  rw [taken_writer]
  constructor
  · intro h
    by_contra hf
    rw [if_neg hf] at h
    exact absurd (writer_lt h) (Nat.lt_irrefl i)
  · intro hf
    rw [if_pos hf]

end Sequence

theorem reads_stored_iff (a : Args) :
    (∀ f ∈ a.type.reads, f ∈ a.stores) ↔ a.blocking = true ∧ a.type ≠ .barrier := by
  have hall : ∀ (b : Bool) (c : Cmd), (∀ f ∈ c.reads,
      f ∈ [ElemField.type, .pe, .ol1, .dst, .winId] ++ (if b then [ElemField.status] else []) ++
        [ElemField.src] ++ c.stores) ↔ b = true ∧ c ≠ .barrier := by
    intro b c
    cases b <;> cases c <;> decide
  exact hall a.blocking a.type

/-- The commands of a sequence are executed from their own calls exactly when all of them
block and none of them is a barrier. -/
theorem own_fields_iff (queueSize : ℕ) (calls : ℕ → Args) (n : ℕ) :
    (∀ i < n, OwnFields queueSize calls i) ↔
      ∀ i < n, (calls i).blocking = true ∧ (calls i).type ≠ .barrier := by
  constructor
  · intro h i hi
    rw [← reads_stored_iff]
    intro f hf
    exact taken_writer_iff.mp ((h i hi).written f hf)
  · intro h i hi
    have hstored := (reads_stored_iff (calls i)).mpr (h i hi)
    refine ⟨fun f hf => taken_writer_iff.mpr (hstored f hf), fun world queueIdx => ?_⟩
    rw [taken_element]
    symm
    apply submit_congr
    intro f hf
    exact (if_pos (hstored f hf)).symm

def reduceThenBroadcast : ℕ → Args
  | 0 => ⟨.teamReduce, 8, 16, 4, 0, 0, 0, 7, 0, true, 100, .max, .int⟩
  | 1 => ⟨.teamReduce, 8, 16, 4, 0, 0, 0, 9, 0, true, 101, .sum, .float⟩
  | _ => ⟨.teamBroadcast, 8, 16, 4, 0, 2, 0, 9, 0, true, 100, .sum, .char⟩

theorem reduce_then_broadcast_own_fields : ∀ i < 3, OwnFields 1 reduceThenBroadcast i :=
  (own_fields_iff 1 reduceThenBroadcast 3).mpr (by decide)

def syncThenBarrier : ℕ → Args
  | 0 => ⟨.sync, 0, 0, 0, 0, 0, 0, 7, 0, true, 100, .sum, .float⟩
  | _ => ⟨.barrier, 0, 0, 0, 0, 0, 0, 9, 0, true, 101, .sum, .float⟩

/-- The barrier runs on the communicator that the synchronisation left in the slot. -/
theorem barrier_on_left_over_communicator :
    submitRequestsToMPI 1 0 (taken 1 syncThenBarrier 1).element = .barrier 0 101 true 7 true ∧
    submitRequestsToMPI 1 0 (syncThenBarrier 1).arg = .barrier 0 101 true 9 true ∧
    (taken 1 syncThenBarrier 1).writer .teamComm = some 0 ∧
    ¬ ∀ i < 2, OwnFields 1 syncThenBarrier i := by
  refine ⟨by decide, by decide, by decide, fun h => ?_⟩
  exact absurd ((h 1 (by decide)).written .teamComm (by decide)) (by decide)

end RoQueueElement
