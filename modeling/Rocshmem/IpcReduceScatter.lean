import Rocshmem.MachineInts
import Rocshmem.MatchedPrograms

/-! The IPC `reduce_scatter_wg_das`, call after call on one `reduce_pSync`, and the allreduce
of `reduce_das` that appends an allgather to one call. Every member puts a chunk of its block
for each peer into the scratch slot it has there, then a data flag; it reduces when all flags
have come, acknowledges to all peers and waits for all acknowledgements. Flags carry a
generation taken from a counter in the same array. -/
namespace IpcReduceScatter

open List MachineInts MatchedPrograms

structure Call where
  nreduce : ℕ
  elemOffset : ℕ
  elemCount : ℤ
  op : ℤ → ℤ → ℤ

def Call.count (a : Call) : ℕ := if a.elemCount < 0 then a.nreduce else a.elemCount.toNat

/-- The calls on a team. With `allgather` there is one, which the allreduce makes for whole
blocks; its result goes to `dest`, or with `inPlace` back to `source`. -/
structure Setup where
  peSize : ℕ
  sizeofT : ℕ
  vecWidth : ℕ
  calls : List Call
  allgather : Bool
  inPlace : Bool
  pes_pos : 0 < peSize
  allgather_whole : allgather = true → calls.length = 1 ∧
    ∀ a ∈ calls, a.elemOffset = 0 ∧ a.elemCount < 0 ∧ peSize * a.nreduce < 2 ^ 31

/-- The statements of the member `p`; `q` is the peer, `k` the call, `g` the chunk and `x` an
element of the range. `bump` advances the counter and `load` reads `first_flag`. Puts are marked
where they take effect: `payload` and `gather` of one element, `send` of a data flag,
`acknowledge` of an acknowledgement. `arrive` and `depart` enclose the final `internal_sync_wg`
of an allreduce. -/
inductive Event where
  | bump (p k : ℕ)
  | load (p k : ℕ)
  | payload (p q k x : ℕ)
  | send (p q k g : ℕ)
  | recv (p q k g : ℕ)
  | reduce (p k x : ℕ)
  | acknowledge (p q k g : ℕ)
  | acked (p q k g : ℕ)
  | ret (p k : ℕ)
  | gather (p q x : ℕ)
  | arrive (p : ℕ)
  | depart (p : ℕ)
  deriving DecidableEq

open Event

inductive Cell where
  | word (p w : ℕ)
  | firstFlag (p k : ℕ)
  | scratch (p y : ℕ)
  | source (k p : ℕ) (y : ℤ)
  | dest (k p : ℕ) (y : ℤ)
  deriving DecidableEq

def Cell.IsData : Cell → Prop
  | .source _ _ _ | .dest _ _ _ => True
  | .word _ _ | .firstFlag _ _ | .scratch _ _ => False

namespace Setup

variable (c : Setup)

def call (k : ℕ) : Call := c.calls.getD k ⟨0, 0, 0, fun a _ => a⟩

def count (k : ℕ) : ℕ := (c.call k).count

def scratchElems : ℕ := 1048576 * 8 / c.sizeofT

def scratchSlots : ℕ := max 1 (c.peSize - 1)

def chunkSize : ℕ := max 1 (c.scratchElems / c.scratchSlots)

def numChunks (a : Call) : ℤ := (toInt (a.count + c.chunkSize - 1)).tdiv c.chunkSize

def scratchSlot (rank peer : ℕ) : ℕ := rank - if rank > peer then 1 else 0

def scratchIndex (rank peer x : ℕ) : ℕ :=
  scratchSlot rank peer * c.chunkSize + x % c.chunkSize

def chunkOffset (k g : ℕ) : ℤ := toInt ((c.call k).elemOffset + g * c.chunkSize : ℕ)

def rangeEnd (k : ℕ) : ℤ := toInt ((c.call k).elemOffset + c.count k : ℕ)

def chunkCount (k g : ℕ) : ℤ := min c.chunkSize (toInt (c.rangeEnd k - c.chunkOffset k g))

def place (k x : ℕ) : ℤ := c.chunkOffset k (x / c.chunkSize) + (x % c.chunkSize : ℕ)

def blockStart (k rank : ℕ) : ℤ := toInt (rank * (c.call k).nreduce)

def sendIndex (k rank x : ℕ) : ℤ := c.blockStart k rank + c.place k x

def vectorized (k g : ℕ) : Bool :=
  1 < c.vecWidth && (c.call k).nreduce % c.vecWidth == 0 &&
  c.chunkOffset k g % c.vecWidth == 0 && c.chunkCount k g % c.vecWidth == 0

def localIndex (k rank x : ℕ) : ℤ :=
  if c.vectorized k (x / c.chunkSize) then c.sendIndex k rank x
  else toInt (c.blockStart k rank + c.place k x)

def others (p : ℕ) : List ℕ := (range c.peSize).filter (· ≠ p)

def buffer (p : ℕ) (y : ℤ) : Cell := if c.inPlace then .source 0 p y else .dest 0 p y

def output (k p x : ℕ) : Cell :=
  if c.allgather then c.buffer p (c.blockStart 0 p + c.place k x) else .dest k p (c.place k x)

def Peer (p q : ℕ) : Prop := p < c.peSize ∧ q < c.peSize ∧ q ≠ p

def InChunk (k g : ℕ) : Prop := k < c.calls.length ∧ ∀ j ≤ g, c.chunkOffset k j < c.rangeEnd k

def InRange (k x : ℕ) : Prop :=
  c.InChunk k (x / c.chunkSize) ∧ (x % c.chunkSize : ℕ) < c.chunkCount k (x / c.chunkSize)

def flagVal (p k g : ℕ) (m : Cell → ℤ) : ℤ := m (.firstFlag p k) + g

def program : Program Event ℕ (ℕ ×ₗ ℕ ×ₗ ℕ) ℕ Cell ℤ where
  event
    | bump p k | load p k | ret p k => p < c.peSize ∧ k < c.calls.length
    | payload p q k x => c.Peer p q ∧ c.InRange k x
    | send p q k g | recv p q k g | acknowledge p q k g | acked p q k g =>
      c.Peer p q ∧ c.InChunk k g
    | reduce p k x => p < c.peSize ∧ c.InRange k x
    | gather p q x => c.allgather = true ∧ c.Peer p q ∧ x < (c.call 0).nreduce
    | arrive p | depart p => c.allgather = true ∧ p < c.peSize
  pe
    | bump p _ | load p _ | ret p _ | payload p _ _ _ | send p _ _ _ | recv p _ _ _
    | acknowledge p _ _ _ | acked p _ _ _ | reduce p _ _ | gather p _ _ | arrive p | depart p => p
  point
    | bump _ k => toLex (k, toLex (0, 1))
    | load _ k => toLex (k, toLex (0, 2))
    | payload _ _ k x => toLex (k, toLex (x / c.chunkSize + 1, 0))
    | send _ _ k g => toLex (k, toLex (g + 1, 1))
    | recv _ _ k g => toLex (k, toLex (g + 1, 2))
    | reduce _ k x => toLex (k, toLex (x / c.chunkSize + 1, 3))
    | acknowledge _ _ k g => toLex (k, toLex (g + 1, 4))
    | acked _ _ k g => toLex (k, toLex (g + 1, 5))
    | ret _ k => toLex (k + 1, toLex (0, 0))
    | gather _ _ _ => toLex (c.calls.length, toLex (0, 1))
    | arrive _ => toLex (c.calls.length, toLex (0, 2))
    | depart _ => toLex (c.calls.length, toLex (0, 3))
  mode
    | payload _ q _ _ | acknowledge _ q _ _ | gather _ q _ => .posted q
    | send _ q _ _ => .ordered q
    | arrive _ => .drain
    | _ => .blocking
  guard
    | recv p q k g, m => m (.word p q) = flagVal p k g m
    | acked p q k g, m => m (.word p (c.peSize + q)) = flagVal p k g m
    | _, _ => True
  action
    | bump p k => .store (.word p (2 * c.peSize)) fun m =>
        m (.word p (2 * c.peSize)) + c.numChunks (c.call k)
    | load p k => .store (.firstFlag p k) fun m =>
        m (.word p (2 * c.peSize)) - c.numChunks (c.call k) + 1
    | payload p q k x => .store (.scratch q (c.scratchIndex p q x)) fun m =>
        m (.source k p (c.sendIndex k q x))
    | send p q k g => .store (.word q p) (flagVal p k g)
    | acknowledge p q k g => .store (.word q (c.peSize + p)) (flagVal p k g)
    | reduce p k x => .store (c.output k p x) fun m =>
        (c.others p).foldl (fun acc q => (c.call k).op acc (m (.scratch p (c.scratchIndex q p x))))
          (m (.source k p (c.localIndex k p x)))
    | gather p q x => .store (c.buffer q (c.blockStart 0 p + x)) fun m =>
        m (c.buffer p (c.blockStart 0 p + x))
    | _ => .skip

def sys : System Event Cell ℤ := c.program.system

def base (k : ℕ) : ℤ := ((c.calls.take k).map c.numChunks).sum

def stamp (k g : ℕ) : ℤ := c.base k + g + 1

def index (k rank x : ℕ) : ℤ := rank * (c.call k).nreduce + ((c.call k).elemOffset + x : ℕ)

def reduced (init : Cell → ℤ) (k p x : ℕ) : ℤ :=
  (c.others p).foldl (fun acc q => (c.call k).op acc (init (.source k q (c.index k p x))))
    (init (.source k p (c.index k p x)))

def computed (init : Cell → ℤ) (k p x : ℕ) : ℤ :=
  (c.others p).foldl (fun acc q => (c.call k).op acc (init (.source k q (c.sendIndex k p x))))
    (init (.source k p (c.localIndex k p x)))

def certificate (init : Cell → ℤ) : Certificate Event ℤ where
  waitsFor
    | recv p q k g, a => (c.Peer p q ∧ c.InChunk k g) ∧ a = send q p k g
    | acked p q k g, a => (c.Peer p q ∧ c.InChunk k g) ∧ a = acknowledge q p k g
    | _, _ => False
  val
    | bump _ k => c.base (k + 1)
    | load _ k => c.base k + 1
    | payload p q k x => init (.source k p (c.sendIndex k q x))
    | send _ _ k g | acknowledge _ _ k g => c.stamp k g
    | reduce p k x => c.computed init k p x
    | gather p _ x => c.computed init 0 p x
    | _ => 0

def LoopInInt (a : Call) : Prop := a.elemOffset + a.count + c.chunkSize ≤ 2 ^ 31

def InInt (a : Call) : Prop :=
  c.LoopInInt a ∧ (c.peSize - 1) * a.nreduce + a.elemOffset + a.count ≤ 2 ^ 31

instance (a : Call) : Decidable (c.LoopInInt a) := inferInstanceAs (Decidable (_ ≤ _))

instance (a : Call) : Decidable (c.InInt a) := inferInstanceAs (Decidable (_ ∧ _))

abbrev Prior (init : Cell → ℤ) (a e : Event) : Prop := Before c.sys (c.certificate init) a e

variable {c} {init : Cell → ℤ} {p q r k k' g g' x x' : ℕ} {a e : Event}

theorem chunkSize_pos : 0 < c.chunkSize := lt_of_lt_of_le one_pos (le_max_left _ _)

def Earlier (k g k' g' : ℕ) : Prop := k < k' ∨ k = k' ∧ g < g'

theorem earlier_total (k g k' g' : ℕ) :
    (k = k' ∧ g = g') ∨ Earlier k g k' g' ∨ Earlier k' g' k g := by
  unfold Earlier
  omega

theorem Peer.symm (h : c.Peer p q) : c.Peer q p := ⟨h.2.1, h.1, h.2.2.symm⟩

theorem prior_of_blocking (ha : c.program.event a) (hpe : c.program.pe a = c.program.pe e)
    (hpt : c.program.point a < c.program.point e) (hm : c.program.mode a = .blocking) :
    c.Prior init a e :=
  before_of_pre (Program.pre_of_blocking ha hpe hpt hm)

theorem point_lt_of_earlier {i i' : ℕ} (h : Earlier k g k' g') :
    toLex (k, toLex (g + 1, i)) < toLex (k', toLex (g' + 1, i')) := by
  rcases h with hk | ⟨rfl, hg⟩
  · exact point_lt_of_fst hk
  · exact point_lt_of_snd (Nat.succ_lt_succ hg)

theorem waits_forward (h : (c.certificate init).waitsFor e a) :
    c.program.point a < c.program.point e := by
  grind [certificate, program, point_lt_of_third]

theorem acyclic (c : Setup) (init : Cell → ℤ) : WellFounded (Depends c.sys (c.certificate init)) :=
  c.program.acyclic fun _ _ => waits_forward

section Order

variable (hpq : c.Peer p q)
include hpq

theorem payload_send (hx : c.InRange k x) :
    c.Prior init (payload p q k x) (send p q k (x / c.chunkSize)) :=
  before_of_pre ⟨⟨hpq, hx⟩, rfl, point_lt_of_third (by decide), rfl⟩

section

variable (hg : c.InChunk k g)
include hg

theorem send_recv : c.Prior init (send q p k g) (recv p q k g) :=
  before_of_waits ⟨⟨hpq, hg⟩, rfl⟩

theorem ack_acked : c.Prior init (acknowledge q p k g) (acked p q k g) :=
  before_of_waits ⟨⟨hpq, hg⟩, rfl⟩

theorem recv_ack : c.Prior init (recv p q k g) (acknowledge p r k g) :=
  prior_of_blocking ⟨hpq, hg⟩ rfl (point_lt_of_third (by decide)) rfl

section

variable (hpe : c.program.pe e = p) (hpt : toLex (k, toLex (g + 1, 5)) < c.program.point e)
include hpe hpt

theorem acked_later : c.Prior init (acked p q k g) e :=
  prior_of_blocking ⟨hpq, hg⟩ hpe.symm hpt rfl

theorem ack_later : c.Prior init (acknowledge q p k g) e :=
  (ack_acked hpq hg).trans (acked_later hpq hg hpe hpt)

theorem recv_later : c.Prior init (recv q p k g) e :=
  (recv_ack hpq.symm hg).trans (ack_later hpq hg hpe hpt)

end

theorem send_send (h : Earlier k g k' g') : c.Prior init (send p q k g) (send p q k' g') :=
  (send_recv hpq.symm hg).trans (recv_later hpq hg rfl (point_lt_of_earlier h))

theorem acked_ack (hg' : c.InChunk k' g') (h : Earlier k g k' g') :
    c.Prior init (acked q p k g) (acknowledge p q k' g') :=
  (acked_later hpq.symm hg rfl (point_lt_of_earlier h)).trans
    ((send_recv hpq hg').trans (recv_ack hpq hg'))

theorem ack_ack (hg' : c.InChunk k' g') (h : Earlier k g k' g') :
    c.Prior init (acknowledge p q k g) (acknowledge p q k' g') :=
  (ack_acked hpq.symm hg).trans (acked_ack hpq hg hg' h)

end

theorem payload_recv (hx : c.InRange k x) :
    c.Prior init (payload q p k x) (recv p q k (x / c.chunkSize)) :=
  (payload_send hpq.symm hx).trans (send_recv hpq (hx.1))

theorem reduce_payload (hx : c.InRange k x)
    (h : Earlier k (x / c.chunkSize) k' (x' / c.chunkSize)) :
    c.Prior init (reduce q k x) (payload p q k' x') := by
  have hack : c.Prior init (reduce q k x) (acknowledge q p k (x / c.chunkSize)) :=
    prior_of_blocking ⟨hpq.2.1, hx⟩ rfl (point_lt_of_third (by decide)) rfl
  exact hack.trans (ack_later hpq (hx.1) rfl (point_lt_of_earlier h))

theorem payload_payload (hx : c.InRange k x)
    (h : Earlier k (x / c.chunkSize) k' (x' / c.chunkSize)) :
    c.Prior init (payload p q k x) (payload p q k' x') :=
  (payload_recv hpq.symm hx).trans (recv_later hpq (hx.1) rfl
    (point_lt_of_earlier h))

theorem payload_gather (hx : c.InRange k x) : c.Prior init (payload q p k x) (gather p r x') :=
  (payload_recv hpq hx).trans
    (prior_of_blocking ⟨hpq, hx.1⟩ rfl (point_lt_of_fst hx.1.1) rfl)

end Order

theorem load_bump (hp : p < c.peSize) (hk : k < c.calls.length) (h : k < k') :
    c.Prior init (load p k) (bump p k') :=
  prior_of_blocking ⟨hp, hk⟩ rfl (point_lt_of_fst h) rfl

theorem bump_bump (hp : p < c.peSize) (hk : k < c.calls.length) (h : k < k') :
    c.Prior init (bump p k) (bump p k') :=
  prior_of_blocking ⟨hp, hk⟩ rfl (point_lt_of_fst h) rfl

theorem reduce_depart (hp : p < c.peSize) (hx : c.InRange k x) :
    c.Prior init (reduce p k x) (depart p) :=
  prior_of_blocking ⟨hp, hx⟩ rfl (point_lt_of_fst hx.1.1) rfl

theorem reduce_ret (hp : p < c.peSize) (hx : c.InRange k x) :
    c.Prior init (reduce p k x) (ret p k) :=
  prior_of_blocking ⟨hp, hx⟩ rfl (point_lt_of_fst (Nat.lt_succ_self k)) rfl

section Arithmetic

theorem call_eq (hk : k < c.calls.length) : c.call k = c.calls[k] := by
  rw [call, getD_eq_getElem?_getD, getElem?_eq_getElem hk, Option.getD_some]

theorem call_mem (hk : k < c.calls.length) : c.call k ∈ c.calls :=
  call_eq hk ▸ getElem_mem hk

variable (hloop : ∀ a ∈ c.calls, c.LoopInInt a)
include hloop

theorem loop_call (hk : k < c.calls.length) :
    (c.call k).elemOffset + c.count k + c.chunkSize ≤ 2 ^ 31 :=
  hloop _ (call_mem hk)

theorem chunkOffset_eq (hk : k < c.calls.length) (hg : g * c.chunkSize < c.count k + c.chunkSize) :
    c.chunkOffset k g = ((c.call k).elemOffset + g * c.chunkSize : ℕ) := by
  have hle := loop_call hloop hk
  exact toInt_natCast (by omega)

theorem rangeEnd_eq (hk : k < c.calls.length) :
    c.rangeEnd k = ((c.call k).elemOffset + c.count k : ℕ) := by
  have hle := loop_call hloop hk
  have hpos := chunkSize_pos (c := c)
  exact toInt_natCast (by omega)

theorem inChunk_iff : c.InChunk k g ↔ k < c.calls.length ∧ g * c.chunkSize < c.count k := by
  have hpos := chunkSize_pos (c := c)
  constructor
  · intro h
    refine ⟨h.1, ?_⟩
    have hend := rangeEnd_eq hloop h.1
    induction g with
    | zero =>
      have hlt := h.2 0 (le_refl 0)
      rw [chunkOffset_eq hloop h.1 (by omega)] at hlt
      omega
    | succ g ih =>
      have hprev := ih ⟨h.1, fun j hj => h.2 j (Nat.le_succ_of_le hj)⟩
      have hlt := h.2 (g + 1) (le_refl _)
      rw [chunkOffset_eq hloop h.1 (by rw [Nat.succ_mul]; omega)] at hlt
      omega
  · intro ⟨hk, hlt⟩
    refine ⟨hk, fun j hj => ?_⟩
    have hle : j * c.chunkSize ≤ g * c.chunkSize := Nat.mul_le_mul_right _ hj
    rw [chunkOffset_eq hloop hk (by omega), rangeEnd_eq hloop hk]
    omega

theorem chunkCount_eq (hg : c.InChunk k g) :
    c.chunkCount k g = min c.chunkSize (c.count k - g * c.chunkSize) := by
  obtain ⟨hk, hlt⟩ := (inChunk_iff hloop).mp hg
  have hle := loop_call hloop hk
  have hpos := chunkSize_pos (c := c)
  rw [chunkCount, chunkOffset_eq hloop hk (by omega), rangeEnd_eq hloop hk,
    toInt_of_small (by omega) (by omega)]
  push_cast [Nat.cast_sub hlt.le]
  omega

theorem inRange_iff : c.InRange k x ↔ k < c.calls.length ∧ x < c.count k := by
  have hdiv := Nat.div_add_mod' x c.chunkSize
  have hmod := Nat.mod_lt x (chunkSize_pos (c := c))
  grind [InRange, inChunk_iff, chunkCount_eq]

theorem lt_count (hx : c.InRange k x) : x < c.count k := ((inRange_iff hloop).mp hx).2

theorem place_eq (hx : c.InRange k x) : c.place k x = ((c.call k).elemOffset + x : ℕ) := by
  obtain ⟨hk, hlt⟩ := (inChunk_iff hloop).mp hx.1
  have hdiv := Nat.div_add_mod' x c.chunkSize
  rw [place, chunkOffset_eq hloop hk (by omega)]
  omega

theorem numChunks_eq (hk : k < c.calls.length) :
    c.numChunks (c.call k) = ((c.count k + c.chunkSize - 1) / c.chunkSize : ℕ) := by
  have hle := loop_call hloop hk
  grind [numChunks, count, toInt_of_small]

theorem lt_numChunks (h : c.InChunk k g) : (g : ℤ) < c.numChunks (c.call k) := by
  obtain ⟨hk, hlt⟩ := (inChunk_iff hloop).mp h
  have hpos := chunkSize_pos (c := c)
  rw [numChunks_eq hloop hk, Int.ofNat_lt, ← Nat.succ_le_iff, Nat.le_div_iff_mul_le hpos,
    Nat.succ_mul]
  omega

omit hloop in
theorem base_succ (hk : k < c.calls.length) :
    c.base (k + 1) = c.base k + c.numChunks (c.call k) := by
  rw [base, base, take_add_one, getElem?_eq_getElem hk, call_eq hk, map_append,
    sum_append, Option.toList_some, map_singleton, sum_singleton]

theorem base_le (h : k ≤ k') (hk' : k' ≤ c.calls.length) : c.base k ≤ c.base k' := by
  induction h with
  | refl => exact le_refl _
  | @step j _ ih =>
    grind [numChunks_eq, base_succ]

theorem stamp_lt (hg : c.InChunk k g) (hg' : c.InChunk k' g') (h : Earlier k g k' g') :
    c.stamp k g < c.stamp k' g' := by
  unfold stamp
  rcases h with hk | ⟨rfl, hlt⟩
  · have hlt := lt_numChunks hloop hg
    have hsucc := base_succ hg.1
    have hle : c.base (k + 1) ≤ c.base k' := base_le hloop hk hg'.1.le
    omega
  · omega

theorem stamp_injective (hg : c.InChunk k g) (hg' : c.InChunk k' g')
    (h : c.stamp k g = c.stamp k' g') : k = k' ∧ g = g' := by
  rcases earlier_total k g k' g' with heq | hlt | hlt
  · exact heq
  · exact absurd h (stamp_lt hloop hg hg' hlt).ne
  · exact absurd h (stamp_lt hloop hg' hg hlt).ne'

theorem stamp_pos (hg : c.InChunk k g) : 0 < c.stamp k g := by
  have hle := base_le hloop (Nat.zero_le k) hg.1.le
  have hzero : c.base 0 = 0 := rfl
  unfold stamp
  omega

end Arithmetic

section Indices

variable (hint : ∀ a ∈ c.calls, c.InInt a)
include hint

section

variable (hq : q < c.peSize) (hx : c.InRange k x)
include hq hx

theorem index_lt : q * (c.call k).nreduce + ((c.call k).elemOffset + x) < 2 ^ 31 := by
  obtain ⟨-, hsize⟩ := hint _ (call_mem hx.1.1)
  have hlt : x < (c.call k).count := lt_count (fun a ha => (hint a ha).1) hx
  have hmul : q * (c.call k).nreduce ≤ (c.peSize - 1) * (c.call k).nreduce :=
    Nat.mul_le_mul_right _ (Nat.le_sub_one_of_lt hq)
  omega

theorem sendIndex_eq : c.sendIndex k q x = c.index k q x := by
  have hlt := index_lt hint hq hx
  rw [sendIndex, index, blockStart, place_eq (fun a ha => (hint a ha).1) hx, ← Nat.cast_mul,
    toInt_natCast (by omega)]

theorem localIndex_eq : c.localIndex k q x = c.index k q x := by
  have hlt := index_lt hint hq hx
  have hsend := sendIndex_eq hint hq hx
  rw [localIndex]
  split
  · exact hsend
  · rw [sendIndex] at hsend
    rw [hsend, index, ← Nat.cast_mul, ← Nat.cast_add, toInt_natCast hlt]

end

theorem computed_eq (hp : p < c.peSize) (hx : c.InRange k x) :
    c.computed init k p x = c.reduced init k p x := by
  rw [computed, reduced, sendIndex_eq hint hp hx, localIndex_eq hint hp hx]

end Indices

section Writers

variable {w : ℕ} {y : ℤ} {d : Cell}

theorem buffer_isData (p : ℕ) (y : ℤ) : (c.buffer p y).IsData := by
  unfold buffer
  split <;> trivial

theorem output_isData (k p x : ℕ) : (c.output k p x).IsData := by
  unfold output
  split
  · exact buffer_isData _ _
  · trivial

theorem isData_of_reduce (h : (c.sys.action (reduce p k x)).target = some d) : d.IsData :=
  Option.some.inj h ▸ output_isData k p x

theorem isData_of_gather (h : (c.sys.action (gather p q x)).target = some d) : d.IsData :=
  Option.some.inj h ▸ buffer_isData q _

theorem writes_word (h : c.sys.Writes (.word p w) e) :
    (∃ q k g, e = send q p k g ∧ w = q) ∨ (∃ q k g, e = acknowledge q p k g ∧ w = c.peSize + q) ∨
      ∃ k, e = bump p k ∧ w = 2 * c.peSize := by
  have ht := h.target
  cases e with
  | send q r k g =>
    obtain ⟨rfl, rfl⟩ := Cell.word.inj (Option.some.inj ht)
    exact .inl ⟨q, k, g, rfl, rfl⟩
  | acknowledge q r k g =>
    cases ht
    exact .inr (.inl ⟨q, k, g, rfl, rfl⟩)
  | bump q k =>
    cases ht
    exact .inr (.inr ⟨k, rfl, rfl⟩)
  | payload | load => cases Option.some.inj ht
  | reduce => exact (isData_of_reduce ht).elim
  | gather => exact (isData_of_gather ht).elim
  | recv | acked | ret | arrive | depart => cases ht

theorem writes_firstFlag (h : c.sys.Writes (.firstFlag p k) e) : e = load p k := by
  have ht := h.target
  cases e with
  | load q j =>
    cases ht
    rfl
  | payload | send | acknowledge | bump => cases Option.some.inj ht
  | reduce => exact (isData_of_reduce ht).elim
  | gather => exact (isData_of_gather ht).elim
  | recv | acked | ret | arrive | depart => cases ht

theorem writes_scratch (h : c.sys.Writes (.scratch p w) e) :
    ∃ q k x, e = payload q p k x ∧ w = c.scratchIndex q p x := by
  have ht := h.target
  cases e with
  | payload q r k x =>
    cases ht
    exact ⟨q, k, x, rfl, rfl⟩
  | send | acknowledge | bump | load => cases Option.some.inj ht
  | reduce => exact (isData_of_reduce ht).elim
  | gather => exact (isData_of_gather ht).elim
  | recv | acked | ret | arrive | depart => cases ht

theorem writes_data (hd : d.IsData) (h : c.sys.Writes d e) :
    (∃ p k x, e = reduce p k x ∧ d = c.output k p x) ∨
      ∃ p q x, e = gather p q x ∧ d = c.buffer q (c.blockStart 0 p + x) := by
  have ht := h.target
  grind [sys, Cell.IsData, System.Writes, Program.system, program, System.StoresTo, System.AddsTo]

theorem rank_unique {n : ℕ} (hx : x < n) (hx' : x' < n)
    (h : (p : ℤ) * n + x = q * n + x') : p = q ∧ x = x' :=
  block_unique hx hx' (by exact_mod_cast h)

theorem buffer_injective {y' : ℤ} (h : c.buffer p y = c.buffer q y') : p = q ∧ y = y' := by
  grind [buffer]

theorem scratchSlot_injective (hp : p ≠ r) (hq : q ≠ r) (h : scratchSlot p r = scratchSlot q r) :
    p = q := by
  unfold scratchSlot at h
  split at h <;> split at h <;> omega

theorem scratchIndex_injective (hp : p ≠ r) (hq : q ≠ r)
    (h : c.scratchIndex p r x = c.scratchIndex q r x') :
    p = q ∧ x % c.chunkSize = x' % c.chunkSize := by
  have hpos := chunkSize_pos (c := c)
  obtain ⟨hslot, hmod⟩ := block_unique (Nat.mod_lt x hpos) (Nat.mod_lt x' hpos) h
  exact ⟨scratchSlot_injective hp hq hslot, hmod⟩

end Writers

section Allgather

variable (hall : c.allgather = true)
include hall

theorem call_zero (hk : k < c.calls.length) : k = 0 := by
  have hlen := (c.allgather_whole hall).1
  omega

theorem call_whole : (c.call 0).elemOffset = 0 ∧ (c.call 0).elemCount < 0 ∧
    c.peSize * (c.call 0).nreduce < 2 ^ 31 := by
  obtain ⟨hlen, hwhole⟩ := c.allgather_whole hall
  exact hwhole _ (call_mem (by omega))

theorem count_zero : c.count 0 = (c.call 0).nreduce := if_pos (call_whole hall).2.1

theorem blockStart_eq (hp : p < c.peSize) : c.blockStart 0 p = p * (c.call 0).nreduce := by
  obtain ⟨-, -, hsize⟩ := call_whole hall
  have hle : p * (c.call 0).nreduce ≤ c.peSize * (c.call 0).nreduce := Nat.mul_le_mul_right _ hp.le
  rw [blockStart, ← Nat.cast_mul, toInt_natCast (by omega)]

theorem output_eq (hloop : ∀ a ∈ c.calls, c.LoopInInt a) (hp : p < c.peSize)
    (hx : c.InRange k x) : c.output k p x = c.buffer p (p * (c.call 0).nreduce + x) := by
  obtain rfl := call_zero hall hx.1.1
  rw [output, if_pos hall, blockStart_eq hall hp, place_eq hloop hx, (call_whole hall).1, zero_add]

theorem lt_nreduce (hloop : ∀ a ∈ c.calls, c.LoopInInt a) (hx : c.InRange k x) :
    x < (c.call 0).nreduce := by
  obtain rfl := call_zero hall hx.1.1
  exact count_zero hall ▸ lt_count hloop hx

end Allgather

section Unique

variable (hloop : ∀ a ∈ c.calls, c.LoopInInt a) {d : Cell} {e' : Event}
include hloop

theorem output_injective (hp : p < c.peSize) (hq : q < c.peSize) (hx : c.InRange k x)
    (hx' : c.InRange k' x') (h : c.output k p x = c.output k' q x') : k = k' ∧ p = q ∧ x = x' := by
  by_cases hall : c.allgather = true
  · rw [output_eq hall hloop hp hx, output_eq hall hloop hq hx'] at h
    obtain ⟨rfl, hy⟩ := buffer_injective h
    have hxx := (rank_unique (lt_nreduce hall hloop hx) (lt_nreduce hall hloop hx') hy).2
    exact ⟨(call_zero hall hx.1.1).trans (call_zero hall hx'.1.1).symm, rfl, hxx⟩
  grind [output, place_eq]

theorem output_ne_gathered (hall : c.allgather = true) (hp : p < c.peSize) (hx : c.InRange k x)
    (hqr : c.Peer q r) (hx' : x' < (c.call 0).nreduce) :
    c.output k p x ≠ c.buffer r (c.blockStart 0 q + x') := by
  intro h
  rw [output_eq hall hloop hp hx, blockStart_eq hall hqr.1] at h
  obtain ⟨rfl, hy⟩ := buffer_injective h
  exact hqr.2.2 (rank_unique (lt_nreduce hall hloop hx) hx' hy).1

theorem data_writer_unique (hd : d.IsData) (he : c.sys.event e) (he' : c.sys.event e')
    (h : c.sys.Writes d e) (h' : c.sys.Writes d e') : e = e' := by
  rcases writes_data hd h with ⟨p, k, x, rfl, rfl⟩ | ⟨p, q, x, rfl, rfl⟩
  · rcases writes_data hd h' with ⟨p', k', x', rfl, heq⟩ | ⟨p', q', x', rfl, heq⟩
    · obtain ⟨rfl, rfl, rfl⟩ := output_injective hloop he.1 he'.1 he.2 he'.2 heq
      rfl
    · exact absurd heq (output_ne_gathered hloop he'.1 he.1 he.2 he'.2.1 he'.2.2)
  · rcases writes_data hd h' with ⟨p', k', x', rfl, heq⟩ | ⟨p', q', x', rfl, heq⟩
    · exact absurd heq.symm (output_ne_gathered hloop he.1 he'.1 he'.2 he.2.1 he.2.2)
    · rw [blockStart_eq he.1 he.2.1.1, blockStart_eq he.1 he'.2.1.1] at heq
      obtain ⟨rfl, hy⟩ := buffer_injective heq
      obtain ⟨rfl, rfl⟩ := rank_unique he.2.2 he'.2.2 hy
      rfl

theorem ordered (he : c.sys.event e) (he' : c.sys.event e') (h : c.sys.Writes d e)
    (h' : c.sys.Writes d e') : e = e' ∨ c.Prior init e e' ∨ c.Prior init e' e := by
  cases d with
  | source k p y => exact .inl (data_writer_unique hloop (d := .source k p y) trivial he he' h h')
  | dest k p y => exact .inl (data_writer_unique hloop (d := .dest k p y) trivial he he' h h')
  | firstFlag p k => exact .inl ((writes_firstFlag h).trans (writes_firstFlag h').symm)
  | scratch p w =>
    obtain ⟨q, k, x, rfl, rfl⟩ := writes_scratch h
    obtain ⟨q', k', x', rfl, heq⟩ := writes_scratch h'
    obtain ⟨rfl, hmod⟩ := scratchIndex_injective he.1.2.2.symm he'.1.2.2.symm heq
    rcases earlier_total k (x / c.chunkSize) k' (x' / c.chunkSize) with ⟨rfl, hdiv⟩ | hlt | hlt
    · have hx : x = x' := by rw [← Nat.div_add_mod x c.chunkSize, hdiv, hmod, Nat.div_add_mod]
      exact .inl (by rw [hx])
    · exact .inr (.inl (payload_payload he.1 he.2 hlt))
    · exact .inr (.inr (payload_payload he'.1 he'.2 hlt))
  | word p w =>
    rcases writes_word h with ⟨q, k, g, rfl, rfl⟩ | ⟨q, k, g, rfl, rfl⟩ | ⟨k, rfl, rfl⟩
    · have hq := he.1.1
      rcases writes_word h' with ⟨q', k', g', rfl, rfl⟩ | ⟨q', k', g', rfl, heq⟩ | ⟨k', rfl, heq⟩
      · rcases earlier_total k g k' g' with ⟨rfl, rfl⟩ | hlt | hlt
        · exact .inl rfl
        · exact .inr (.inl (send_send he.1 he.2 hlt))
        · exact .inr (.inr (send_send he'.1 he'.2 hlt))
      · omega
      · omega
    · have hq := he.1.1
      rcases writes_word h' with ⟨q', k', g', rfl, heq⟩ | ⟨q', k', g', rfl, heq⟩ | ⟨k', rfl, heq⟩
      · have hq' := he'.1.1
        omega
      · obtain rfl : q = q' := by omega
        rcases earlier_total k g k' g' with ⟨rfl, rfl⟩ | hlt | hlt
        · exact .inl rfl
        · exact .inr (.inl (ack_ack he.1 he.2 he'.2 hlt))
        · exact .inr (.inr (ack_ack he'.1 he'.2 he.2 hlt))
      · omega
    · rcases writes_word h' with ⟨q', k', g', rfl, heq⟩ | ⟨q', k', g', rfl, heq⟩ | ⟨k', rfl, -⟩
      · have hq' := he'.1.1
        omega
      · have hq' := he'.1.1
        omega
      · rcases lt_trichotomy k k' with hlt | rfl | hlt
        · exact .inr (.inl (bump_bump he.1 he.2 hlt))
        · exact .inl rfl
        · exact .inr (.inr (bump_bump he'.1 he'.2 hlt))

end Unique

section Reads

variable {X : Set Event} {m : Cell → ℤ} {d : Cell}
  (hc : Consistent c.sys (c.certificate init) init X m)
include hc

theorem firstFlag_read (h : load p k ∈ X) : m (.firstFlag p k) = c.base k + 1 := by
  refine hc.read_once (acyclic c init) h ⟨_, rfl⟩ fun w _ hw => ?_
  exact writes_firstFlag hw

theorem flagVal_eq (h : load p k ∈ X) : flagVal p k g m = c.stamp k g := by
  rw [flagVal, firstFlag_read hc h, stamp]
  omega

theorem counter_writer {w : Event} (hw : w ∈ X) (h : c.sys.Writes (.word p (2 * c.peSize)) w) :
    ∃ k, w = bump p k ∧ p < c.peSize ∧ k < c.calls.length := by
  have he := hc.events w hw
  grind [sys, Peer, Program.system, program, writes_word]

theorem counter_load (h : bump p k ∈ X) (hX : load p k ∉ X) :
    m (.word p (2 * c.peSize)) = c.base (k + 1) := by
  have he := hc.events _ h
  refine hc.read (acyclic c init) h ⟨_, rfl⟩ fun w hw hwrites => ?_
  obtain ⟨k', rfl, hp, hk'⟩ := counter_writer hc hw hwrites
  rcases lt_trichotomy k' k with hlt | rfl | hlt
  · exact bump_bump hp hk' hlt
  · exact Before.refl _
  · exact absurd (load_bump hp he.2 hlt X hc.closed hw) hX

theorem counter_bump (hinit : ∀ p w, init (.word p w) = 0) (he : c.sys.event (bump p k))
    (hX : bump p k ∉ X) (hr : c.sys.Ready X (bump p k)) :
    m (.word p (2 * c.peSize)) = c.base k := by
  cases k with
  | zero =>
    rw [hc.read_init, hinit]
    · rfl
    intro w hw hwrites
    obtain ⟨k', rfl, hp, hk'⟩ := counter_writer hc hw hwrites
    rcases Nat.eq_zero_or_pos k' with rfl | hpos
    · exact hX hw
    · exact hX (bump_bump he.1 he.2 hpos X hc.closed hw)
  | succ j =>
    have hj : j < c.calls.length := Nat.lt_of_succ_lt he.2
    have hprev : bump p j ∈ X :=
      hr _ (Program.pre_of_blocking ⟨he.1, hj⟩ rfl (point_lt_of_fst (Nat.lt_succ_self j)) rfl)
    refine hc.read_before (acyclic c init) hX hprev ⟨_, rfl⟩ fun w hw hwrites => ?_
    grind [sys, Peer, Program.system, program, bump_bump, writes_word, Before.refl]

theorem stamped (hloop : ∀ a ∈ c.calls, c.LoopInInt a) (hinit : ∀ p w, init (.word p w) = 0)
    {w : ℕ} (hw : w < 2 * c.peSize) (hg : c.InChunk k g) (h : m (.word p w) = c.stamp k g) :
    (∃ q, send q p k g ∈ X ∧ w = q) ∨ ∃ q, acknowledge q p k g ∈ X ∧ w = c.peSize + q := by
  have hnoadd : ∀ a, ¬ c.sys.AddsTo (.word p w) a := by
    intro a ⟨v, hv⟩
    cases a <;> cases hv
  rcases hc.last_store hnoadd with ⟨hzero, -⟩ | ⟨e, heX, hstore, hval, -⟩
  · rw [hzero, hinit] at h
    exact absurd h (stamp_pos hloop hg).ne
  · have he := hc.events e heX
    rw [hval] at h
    rcases writes_word (.inl hstore) with
      ⟨q, k', g', rfl, rfl⟩ | ⟨q, k', g', rfl, rfl⟩ | ⟨k', -, hw'⟩
    · obtain ⟨rfl, rfl⟩ := stamp_injective hloop he.2 hg h
      exact .inl ⟨w, heX, rfl⟩
    · obtain ⟨rfl, rfl⟩ := stamp_injective hloop he.2 hg h
      exact .inr ⟨q, heX, rfl⟩
    · omega

theorem source_writer {w : Event} {y : ℤ} (hw : w ∈ X) (h : c.sys.Writes (.source k p y) w) :
    c.allgather = true ∧ c.buffer p y = .source k p y := by
  have he := hc.events w hw
  have hbuffer : ∀ {q : ℕ} {z : ℤ}, Cell.source k p y = c.buffer q z →
      c.buffer p y = .source k p y := by
    grind [buffer]
  rcases writes_data (d := .source k p y) trivial h with ⟨q, j, x, rfl, heq⟩ | ⟨q, r, x, rfl, heq⟩
  · unfold output at heq
    split at heq
    next hall => exact ⟨hall, hbuffer heq⟩
    next => cases heq
  · exact ⟨he.1, hbuffer heq⟩

end Reads

section Values

variable (hloop : ∀ a ∈ c.calls, c.LoopInInt a) {X : Set Event} {m : Cell → ℤ}
  (hc : Consistent c.sys (c.certificate init) init X m)
include hloop hc

omit hloop hc in
theorem sendIndex_allgather (hloop : ∀ a ∈ c.calls, c.LoopInInt a) (hall : c.allgather = true)
    (hp : p < c.peSize) (hx : c.InRange k x) : c.sendIndex k p x = p * (c.call 0).nreduce + x := by
  obtain rfl := call_zero hall hx.1.1
  rw [sendIndex, blockStart_eq hall hp, place_eq hloop hx, (call_whole hall).1, zero_add]

omit hloop hc in
theorem localIndex_allgather (hloop : ∀ a ∈ c.calls, c.LoopInInt a) (hall : c.allgather = true)
    (hp : p < c.peSize) (hx : c.InRange k x) : c.localIndex k p x = p * (c.call 0).nreduce + x := by
  have hsend := sendIndex_allgather hloop hall hp hx
  have hlt := lt_nreduce hall hloop hx
  have hsize := (call_whole hall).2.2
  have hle : (p + 1) * (c.call 0).nreduce ≤ c.peSize * (c.call 0).nreduce :=
    Nat.mul_le_mul_right _ hp
  rw [Nat.succ_mul] at hle
  rw [localIndex]
  split
  · exact hsend
  · rw [sendIndex] at hsend
    rw [hsend, ← Nat.cast_mul, ← Nat.cast_add, toInt_natCast (by omega)]

theorem source_sent (he : c.sys.event (payload p q k x)) (hX : payload p q k x ∉ X) :
    m (.source k p (c.sendIndex k q x)) = init (.source k p (c.sendIndex k q x)) := by
  obtain ⟨hpq, hx⟩ := he
  refine hc.read_init fun w hw hwrites => ?_
  obtain ⟨hall, hbuffer⟩ := source_writer hc hw hwrites
  have hev := hc.events w hw
  rw [← hbuffer, sendIndex_allgather hloop hall hpq.2.1 hx] at hwrites
  rcases writes_data (buffer_isData _ _) hwrites with
    ⟨p', k', x', rfl, heq⟩ | ⟨p', q', x', rfl, heq⟩
  · rw [output_eq hall hloop hev.1 hev.2] at heq
    obtain ⟨rfl, hy⟩ := buffer_injective heq
    exact hpq.2.2 (rank_unique (lt_nreduce hall hloop hx) (lt_nreduce hall hloop hev.2) hy).1
  · rw [blockStart_eq hall hev.2.1.1] at heq
    obtain ⟨rfl, hy⟩ := buffer_injective heq
    -- the peer has received all of its block before it puts the result
    obtain ⟨rfl, -⟩ := rank_unique (lt_nreduce hall hloop hx) hev.2.2 hy
    exact hX (payload_gather hpq.symm hx X hc.closed hw)

omit hloop hc in
theorem reduce_event (hp : p < c.peSize) (hx : c.InRange k x) : c.sys.event (reduce p k x) :=
  ⟨hp, hx⟩

theorem source_own (he : c.sys.event (reduce p k x)) (hX : reduce p k x ∉ X) :
    m (.source k p (c.localIndex k p x)) = init (.source k p (c.localIndex k p x)) := by
  obtain ⟨hp, hx⟩ := he
  refine hc.read_init fun w hw hwrites => ?_
  obtain ⟨hall, hbuffer⟩ := source_writer hc hw hwrites
  rw [← hbuffer, localIndex_allgather hloop hall hp hx, ← output_eq hall hloop hp hx] at hwrites
  have hself : c.sys.Writes (c.output k p x) (reduce p k x) := .inl ⟨_, rfl⟩
  grind [Consistent, output_isData, data_writer_unique, reduce_event]

omit hloop in
theorem scratch_read (hqp : c.Peer p q) (hx : c.InRange k x) (hX : reduce p k x ∉ X)
    (hr : c.sys.Ready X (reduce p k x)) :
    m (.scratch p (c.scratchIndex q p x)) = init (.source k q (c.sendIndex k p x)) := by
  have hrecv : recv p q k (x / c.chunkSize) ∈ X :=
    hr _ (Program.pre_of_blocking ⟨hqp, hx.1⟩ rfl (point_lt_of_third (by decide)) rfl)
  have hput : payload q p k x ∈ X := payload_recv hqp hx X hc.closed hrecv
  refine hc.read_before (acyclic c init) hX hput ⟨_, rfl⟩ fun w hw hwrites => ?_
  obtain ⟨q', k', x', rfl, heq⟩ := writes_scratch hwrites
  obtain ⟨rfl, hmod⟩ := scratchIndex_injective hqp.2.2 hw.1.2.2.symm heq
  rcases earlier_total k' (x' / c.chunkSize) k (x / c.chunkSize) with ⟨rfl, hdiv⟩ | hlt | hlt
  · have hxx : x' = x := by
      rw [← Nat.div_add_mod x' c.chunkSize, hdiv, ← hmod, Nat.div_add_mod]
    exact .inl (hxx ▸ Before.refl _)
  · exact .inl (payload_payload hw.1 hw.2 hlt)
  · exact .inr (reduce_payload hw.1 hx hlt)

omit hc in
theorem inRange_gather (hall : c.allgather = true) (hx : x < (c.call 0).nreduce) :
    c.InRange 0 x := by
  have hlen := (c.allgather_whole hall).1
  exact (inRange_iff hloop).mpr ⟨by omega, count_zero hall ▸ hx⟩

theorem block_read (hall : c.allgather = true) (hp : p < c.peSize) (hx : x < (c.call 0).nreduce)
    (h : reduce p 0 x ∈ X) :
    m (c.buffer p (p * (c.call 0).nreduce + x)) = c.computed init 0 p x := by
  have hin := inRange_gather hloop hall hx
  have hself : c.sys.StoresTo (c.buffer p (p * (c.call 0).nreduce + x)) (reduce p 0 x) := by
    rw [← output_eq hall hloop hp hin]
    exact ⟨_, rfl⟩
  refine hc.read_once (acyclic c init) h hself fun w hw hwrites => ?_
  exact data_writer_unique hloop (buffer_isData _ _) hw (reduce_event hp hin) hwrites (.inl hself)

theorem gathered_read (h : gather q p x ∈ X) :
    m (c.buffer p (q * (c.call 0).nreduce + x)) = c.computed init 0 q x := by
  have hev := hc.events _ h
  have hself : c.sys.StoresTo (c.buffer p (q * (c.call 0).nreduce + x)) (gather q p x) := by
    rw [← blockStart_eq hev.1 hev.2.1.1]
    exact ⟨_, rfl⟩
  refine hc.read_once (acyclic c init) h hself fun w hw hwrites => ?_
  exact data_writer_unique hloop (buffer_isData _ _) hw hev hwrites (.inl hself)

end Values

section Soundness

theorem load_of_ready {X : Set Event} (hpe : c.program.pe e = p) (hp : p < c.peSize)
    (hk : k < c.calls.length) (hpt : toLex (k, toLex (0, 2)) < c.program.point e)
    (hr : c.sys.Ready X e) : load p k ∈ X :=
  hr _ (Program.pre_of_blocking ⟨hp, hk⟩ hpe.symm hpt rfl)

variable (hloop : ∀ a ∈ c.calls, c.LoopInInt a) (hinit : ∀ p w, init (.word p w) = 0)
include hloop hinit

theorem sound (ok : Set Event → (Cell → ℤ) → Event → Prop) :
    Sound c.sys (c.certificate init) ok init where
  acyclic := acyclic c init
  ordered d w w' hw hw' h h' := ordered hloop hw hw' (.inl h) h'
  matched X m e hc he hX hr hg _ a ha := by
    cases e with
    | recv p q k g =>
      obtain ⟨⟨hpq, hg'⟩, rfl⟩ := ha
      have hload : load p k ∈ X :=
        load_of_ready rfl hpq.1 hg'.1 (point_lt_of_snd (Nat.succ_pos g)) hr
      have hval : m (.word p q) = c.stamp k g := hg.trans (flagVal_eq hc hload)
      have hq := hpq.2.1
      rcases stamped hc hloop hinit (by omega) hg' hval with ⟨q', hsend, rfl⟩ | ⟨q', hack, heq⟩
      · exact hsend
      · omega
    | acked p q k g =>
      obtain ⟨⟨hpq, hg'⟩, rfl⟩ := ha
      have hload : load p k ∈ X :=
        load_of_ready rfl hpq.1 hg'.1 (point_lt_of_snd (Nat.succ_pos g)) hr
      have hval : m (.word p (c.peSize + q)) = c.stamp k g := hg.trans (flagVal_eq hc hload)
      have hq := hpq.2.1
      rcases stamped hc hloop hinit (by omega) hg' hval with ⟨q', hsend, heq⟩ | ⟨q', hack, heq⟩
      · have hq' := (hc.events _ hsend).1.1
        omega
      · obtain rfl : q = q' := by omega
        exact hack
    | _ => exact ha.elim
  valued X m e d f hc he hX hr hw hact := by
    cases e with
    | bump p k =>
      cases hact
      show _ + _ = c.base (k + 1)
      rw [counter_bump hc hinit he hX hr, base_succ he.2]
    | load p k =>
      cases hact
      have hbump : bump p k ∈ X :=
        hr _ (Program.pre_of_blocking he rfl (point_lt_of_third (by decide)) rfl)
      show _ - _ + 1 = c.base k + 1
      rw [counter_load hc hbump hX, base_succ he.2]
      omega
    | payload p q k x =>
      cases hact
      exact source_sent hloop hc he hX
    | send p q k g =>
      cases hact
      exact flagVal_eq hc (load_of_ready rfl he.1.1 he.2.1 (point_lt_of_snd (Nat.succ_pos g)) hr)
    | acknowledge p q k g =>
      cases hact
      exact flagVal_eq hc (load_of_ready rfl he.1.1 he.2.1 (point_lt_of_snd (Nat.succ_pos g)) hr)
    | reduce p k x =>
      cases hact
      show foldl _ _ _ = c.computed init k p x
      rw [computed, source_own hloop hc he hX]
      refine foldl_ext _ _ _ fun acc q hq => ?_
      grind [others, sys, Peer, Program.system, program, scratch_read]
    | gather p q x =>
      cases hact
      obtain ⟨hall, hpq, hx⟩ := he
      have hreduce : reduce p 0 x ∈ X :=
        hr _ (Program.pre_of_blocking ⟨hpq.1, inRange_gather hloop hall hx⟩ rfl
          (point_lt_of_fst (inRange_gather hloop hall hx).1.1) rfl)
      show m (c.buffer p (c.blockStart 0 p + x)) = c.computed init 0 p x
      rw [blockStart_eq hall hpq.1, block_read hloop hc hall hpq.1 hx hreduce]
    | recv | acked | ret | arrive | depart => cases hact

end Soundness

section Liveness

variable (hloop : ∀ a ∈ c.calls, c.LoopInInt a) {X : Set Event} {m : Cell → ℤ}
  (hc : Consistent c.sys (c.certificate init) init X m)

include hc in
theorem data_flag_read (hpq : c.Peer p q) (hg : c.InChunk k g) (h : send q p k g ∈ X)
    (hX : recv p q k g ∉ X) : m (.word p q) = c.stamp k g := by
  have hq := hpq.2.1
  refine hc.read_before (acyclic c init) hX h ⟨_, rfl⟩ fun w hw hwrites => ?_
  rcases writes_word hwrites with ⟨q', k', g', rfl, rfl⟩ | ⟨q', k', g', rfl, heq⟩ | ⟨k', rfl, heq⟩
  · rcases earlier_total k' g' k g with ⟨rfl, rfl⟩ | hlt | hlt
    · exact .inl (Before.refl _)
    · exact .inl (send_send hpq.symm hw.2 hlt)
    · exact .inr (recv_later hpq.symm hg rfl (point_lt_of_earlier hlt))
  · omega
  · omega

include hc in
theorem ack_flag_read (hpq : c.Peer p q) (hg : c.InChunk k g) (h : acknowledge q p k g ∈ X)
    (hX : acked p q k g ∉ X) : m (.word p (c.peSize + q)) = c.stamp k g := by
  have hq := hpq.2.1
  refine hc.read_before (acyclic c init) hX h ⟨_, rfl⟩ fun w hw hwrites => ?_
  rcases writes_word hwrites with ⟨q', k', g', rfl, heq⟩ | ⟨q', k', g', rfl, heq⟩ | ⟨k', rfl, heq⟩
  · have hq' := hw.1.1
    omega
  · obtain rfl : q = q' := by omega
    rcases earlier_total k' g' k g with ⟨rfl, rfl⟩ | hlt | hlt
    · exact .inl (Before.refl _)
    · exact .inl (ack_ack hpq.symm hw.2 hg hlt)
    · exact .inr (acked_ack hpq.symm hg hw.2 hlt)
  · omega

theorem live (c : Setup) (init : Cell → ℤ) :
    Live c.sys (c.certificate init) anyStep init where
  pre_event _ _ h := h.1
  waits_event e a h := by
    grind [certificate, sys, Program.system, program, Peer.symm]
  guarded X m e hc he hX hr hw := by
    refine ⟨?_, trivial⟩
    cases e with
    | recv p q k g =>
      have hload : load p k ∈ X :=
        load_of_ready rfl he.1.1 he.2.1 (point_lt_of_snd (Nat.succ_pos g)) hr
      exact (data_flag_read hc he.1 he.2 (hw _ ⟨he, rfl⟩) hX).trans (flagVal_eq hc hload).symm
    | acked p q k g =>
      have hload : load p k ∈ X :=
        load_of_ready rfl he.1.1 he.2.1 (point_lt_of_snd (Nat.succ_pos g)) hr
      exact (ack_flag_read hc he.1 he.2 (hw _ ⟨he, rfl⟩) hX).trans (flagVal_eq hc hload).symm
    | _ => trivial

include hloop

theorem inRange_lt (hx : c.InRange k x) : x < 2 ^ 31 := by
  have hle := loop_call hloop hx.1.1
  have hlt := lt_count hloop hx
  omega

theorem inChunk_lt (hg : c.InChunk k g) : g < 2 ^ 31 := by
  obtain ⟨hk, hlt⟩ := (inChunk_iff hloop).mp hg
  have hle := loop_call hloop hk
  have hmul : g ≤ g * c.chunkSize := Nat.le_mul_of_pos_right g chunkSize_pos
  omega

theorem finite_events : {e | c.sys.event e}.Finite := by
  have hfin := finite_toSet ((range c.peSize).flatMap fun p =>
    (range c.peSize).flatMap fun q => (range c.calls.length).flatMap fun k =>
      (range (2 ^ 31)).flatMap fun x =>
        [bump p k, load p k, payload p q k x, send p q k x, recv p q k x, reduce p k x,
          acknowledge p q k x, acked p q k x, ret p k, gather p q x])
  have hsync := finite_toSet ((range c.peSize).flatMap fun p => [arrive p, depart p])
  apply (hfin.union hsync).subset
  intro e he
  simp only [Set.mem_union, Set.mem_ofPred_eq, mem_flatMap, mem_range]
  cases e with
  | bump p k | load p k | ret p k =>
    exact .inl ⟨p, he.1, p, he.1, k, he.2, 0, by decide, by simp⟩
  | payload p q k x =>
    exact .inl ⟨p, he.1.1, q, he.1.2.1, k, he.2.1.1, x, inRange_lt hloop he.2, by simp⟩
  | send p q k g | recv p q k g | acknowledge p q k g | acked p q k g =>
    exact .inl ⟨p, he.1.1, q, he.1.2.1, k, he.2.1, g, inChunk_lt hloop he.2, by simp⟩
  | reduce p k x =>
    exact .inl ⟨p, he.1, p, he.1, k, he.2.1.1, x, inRange_lt hloop he.2, by simp⟩
  | gather p q x =>
    have hx := inRange_gather hloop he.1 he.2.2
    exact .inl ⟨p, he.2.1.1, q, he.2.1.2.1, 0, hx.1.1, x, inRange_lt hloop hx, by simp⟩
  | arrive p | depart p => exact .inr ⟨p, he.2, by simp⟩

theorem run_complete (hinit : ∀ p w, init (.word p w) = 0) :
    ∃ m, c.sys.Run anyStep init {e | c.sys.event e} m := by
  exact (live c init).run_all (sound hloop hinit _) (finite_events hloop)

end Liveness

def Enabled (X : Set Event) (m : Cell → ℤ) (e : Event) : Prop :=
  c.sys.event e ∧ e ∉ X ∧ c.sys.Ready X e ∧ c.sys.guard e m

structure CallsApart (c : Setup) (init : Cell → ℤ) (X : Set Event) (m : Cell → ℤ) : Prop where
  /-- The output of a call is the reduction of the blocks for the member. -/
  output : ∀ p k, ret p k ∈ X → ∀ x < c.count k,
    m (.dest k p ((c.call k).elemOffset + x : ℕ)) = c.reduced init k p x
  /-- A data flag is accepted in the chunk of the call that it was sent in. -/
  data : ∀ p q k g, c.Enabled X m (recv p q k g) → send q p k g ∈ X ∧
    ∀ k' g', Earlier k g k' g' → send q p k' g' ∉ X
  acknowledgement : ∀ p q k g, c.Enabled X m (acked p q k g) → acknowledge q p k g ∈ X ∧
    ∀ k' g', Earlier k g k' g' → acknowledge q p k' g' ∉ X
  /-- What a slot of the scratch holds has been reduced before the peer writes it again. -/
  consumed : ∀ p q k x k' x', payload q p k' x' ∈ X → c.InRange k x →
    Earlier k (x / c.chunkSize) k' (x' / c.chunkSize) → reduce p k x ∈ X
  /-- No member waits for ever. -/
  progress : (∀ e, c.sys.event e → e ∈ X) ∨ ∃ e, c.Enabled X m e
  /-- The calls stay in the array of `ROCSHMEM_REDUCE_SYNC_SIZE` words. -/
  words : ∀ e ∈ X, ∀ p w, c.sys.Writes (.word p w) e → w < 256

section Calls

variable (hloop : ∀ a ∈ c.calls, c.LoopInInt a) (hinit : ∀ p w, init (.word p w) = 0)
  {X : Set Event} {m : Cell → ℤ} (hrun : c.sys.Run anyStep init X m)
include hloop hinit hrun

theorem output_computed (hscatter : c.allgather = false) (hret : ret p k ∈ X) (hx : x < c.count k) :
    m (.dest k p ((c.call k).elemOffset + x : ℕ)) = c.computed init k p x := by
  have hc := run_consistent (sound hloop hinit anyStep) hrun
  obtain ⟨hp, hk⟩ := hc.events _ hret
  have hin : c.InRange k x := (inRange_iff hloop).mpr ⟨hk, hx⟩
  have hfired : reduce p k x ∈ X := reduce_ret hp hin X hc.closed hret
  have hcell : c.output k p x = .dest k p ((c.call k).elemOffset + x : ℕ) := by
    rw [output, hscatter, place_eq hloop hin]
    rfl
  rw [← hcell]
  refine hc.read (acyclic c init) hfired ⟨_, rfl⟩ fun w hw hwrites => ?_
  rw [data_writer_unique hloop (output_isData k p x) (hc.events w hw) (reduce_event hp hin) hwrites
    (.inl ⟨_, rfl⟩)]
  exact Before.refl _

theorem data_flag_accepted (he : c.Enabled X m (recv p q k g)) : send q p k g ∈ X ∧
    ∀ k' g', Earlier k g k' g' → send q p k' g' ∉ X := by
  have hc := run_consistent (sound hloop hinit anyStep) hrun
  obtain ⟨hev, hX, hr, hguard⟩ := he
  refine ⟨(sound hloop hinit anyStep).matched X m _ hc hev hX hr hguard trivial _ ⟨hev, rfl⟩,
    fun k' g' hlater hsent => hX ?_⟩
  exact recv_later hev.1.symm hev.2 rfl (point_lt_of_earlier hlater) X hc.closed hsent

theorem ack_flag_accepted (he : c.Enabled X m (acked p q k g)) : acknowledge q p k g ∈ X ∧
    ∀ k' g', Earlier k g k' g' → acknowledge q p k' g' ∉ X := by
  have hc := run_consistent (sound hloop hinit anyStep) hrun
  obtain ⟨hev, hX, hr, hguard⟩ := he
  refine ⟨(sound hloop hinit anyStep).matched X m _ hc hev hX hr hguard trivial _ ⟨hev, rfl⟩,
    fun k' g' hlater hsent => hX ?_⟩
  exact acked_ack hev.1.symm hev.2 (hc.events _ hsent).2 hlater X hc.closed hsent

theorem run_progress : (∀ e, c.sys.event e → e ∈ X) ∨ ∃ e, c.Enabled X m e := by
  by_cases hall : ∀ e, c.sys.event e → e ∈ X
  · exact .inl hall
  · push Not at hall
    obtain ⟨e, he, hX⟩ := hall
    have hc := run_consistent (sound hloop hinit anyStep) hrun
    obtain ⟨e', h1, h2, h3, h4, -⟩ := (live c init).progress (acyclic c init) hc he hX
    exact .inr ⟨e', h1, h2, h3, h4.1⟩

end Calls

end Setup

theorem three_pes : 0 < 3 := by decide

def twoCalls : Setup where
  peSize := 3
  sizeofT := 8
  vecWidth := 2
  calls := [⟨600000, 0, -1, (· + ·)⟩, ⟨1000, 100, 10, max⟩]
  allgather := false
  inPlace := false
  pes_pos := three_pes
  allgather_whole := by decide

def lastElements : Cell → ℤ
  | .source 0 p y => if y % 600000 = 599999 then 10 + p else 0
  | _ => 0

def largeBlocks : Setup where
  peSize := 3
  sizeofT := 4
  vecWidth := 4
  calls := [⟨2 ^ 30, 0, 1, (· + ·)⟩]
  allgather := false
  inPlace := false
  pes_pos := three_pes
  allgather_whole := by decide

def oneInFront : Cell → ℤ
  | .source _ _ y => if y < 0 then 1 else 0
  | _ => 0

end IpcReduceScatter
